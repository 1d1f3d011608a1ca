import Mathlib.Data.List.DropRight
import Daobell.Bencode.Stream
import Daobell.Lib.OrderedMap

/-!
The parser of HTTP headers, `http_header_parser.cpp`: the lines of a header go into a map
by the text in front of their first colon, and the length of the content is looked for
in all of that map.
-/

namespace Daobell

open Lib

/-! ### The standard library -/

/-- `std::getline`: the next line without its newline, and what stands behind it. -/
def getline : Bytes → Option (Bytes × Bytes)
  | [] => none
  | s => some (s.takeWhile (· ≠ '\n'.toUInt8), (s.dropWhile (· ≠ '\n'.toUInt8)).drop 1)

/-- `boost::algorithm::trim_copy`. -/
def trimCopy (s : Bytes) : Bytes := (s.dropWhile IfStream.isSpace).rdropWhile IfStream.isSpace

/-- `operator>>` of a `std::istringstream` into a `size_t`; `none` when the variable is left
as it is. A negative number wraps around. -/
def extractSize (s : Bytes) : Option ℕ :=
  match s.dropWhile IfStream.isSpace with
  | [] => none
  | b :: rest =>
      let (negative, digits, _) := IfStream.signedDigits (b :: rest)
      if digits = [] then some 0
      else if 2 ^ 64 ≤ numeral digits then some (2 ^ 64 - 1)
      else if negative then some (subSize 0 (numeral digits))
      else some (numeral digits)

instance : IsStrictTotalOrder Bytes (· < ·) where
  irrefl := List.lt_irrefl
  trans _ _ _ := List.lt_trans
  trichotomous _ _ := fun h h' => List.le_antisymm h' h

/-! ### The parser -/

abbrev HeaderMap := List (Bytes × Bytes)

def HeaderMap.insert (m : HeaderMap) (e : Bytes × Bytes) : HeaderMap := mapInsert (· < ·) m e

/-- The body of the loop of `parse`. -/
def parseLine (m : HeaderMap) (header : Bytes) : Except Crash HeaderMap := do
  let m ←
    if findBytes (bytesOf "HTTP/1.") header ≠ none then do
      let status ← substr header (((findFirstOf [' '.toUInt8] header).getD npos + 1) % 2 ^ 64)
        (subSize ((findLastOf ' '.toUInt8 header).getD npos) 1)
      pure (m.insert (bytesOf "Status", status))
    else pure m
  match findFirstOf [':'.toUInt8] header with
  | none => pure m
  | some index => do
      let name ← substr header 0 index
      let value ← substr header (index + 1) npos
      pure (m.insert (trimCopy name, trimCopy value))

/-- The loop of `parse`. Every round takes a line off the stream. -/
def parseLoop : ℕ → Bytes → HeaderMap → Except Crash HeaderMap
  | 0, _, _ => .error .hang
  | fuel + 1, s, m =>
      match getline s with
      | none => .ok m
      | some (header, rest) =>
          if header = bytesOf "\r" then .ok m
          else parseLine m header >>= parseLoop fuel rest

def httpHeaderParser (str : Bytes) : Except Crash HeaderMap :=
  parseLoop ((cStr str).length + 1) (cStr str) []

def getContentLength (m : HeaderMap) : ℕ :=
  m.foldl (fun fileSize it =>
    if findBytes (bytesOf "Content-Length") it.1 ≠ none then (extractSize it.2).getD fileSize
    else fileSize) 0

/-! ### Lines -/

/-- What a line is put into the map as: the text in front of its first colon, and behind it. -/
def colonEntry (line : Bytes) : Option (Bytes × Bytes) :=
  (findFirstOf [':'.toUInt8] line).map fun index =>
    (trimCopy (line.take index), trimCopy (line.drop (index + 1)))

@[simp] theorem colonEntry_append_cons {name : Bytes} (h : ':'.toUInt8 ∉ name) (value : Bytes) :
    colonEntry (name ++ ':'.toUInt8 :: value) = some (trimCopy name, trimCopy value) := by
  have hdrop : (name ++ ':'.toUInt8 :: value).drop (name.length + 1) = value := by
    rw [← List.drop_drop, List.drop_left]
    rfl
  rw [colonEntry, findFirstOf_char h, Option.map_some, List.take_left, hdrop]

theorem colonEntry_eq_none {line : Bytes} (h : ':'.toUInt8 ∉ line) : colonEntry line = none := by
  rw [colonEntry, findFirstOf_char_eq_none h, Option.map_none]

theorem trimCopy_append_singleton {b : UInt8} (hb : IfStream.isSpace b = true) (s : Bytes) :
    trimCopy (s ++ [b]) = trimCopy s := by
  rw [trimCopy, trimCopy, List.dropWhile_append]
  split
  · rename_i hnil
    rw [List.isEmpty_iff.mp hnil]
    simp [hb]
  · exact List.rdropWhile_concat_pos _ _ _ hb

theorem trimCopy_append {before mid after : Bytes} (hne : mid ≠ [])
    (hbefore : ∀ b ∈ before, IfStream.isSpace b = true)
    (hmid : ∀ b ∈ mid, IfStream.isSpace b = false)
    (hafter : ∀ b ∈ after, IfStream.isSpace b = true) :
    trimCopy (before ++ (mid ++ after)) = mid := by
  have hfront : (before ++ (mid ++ after)).dropWhile IfStream.isSpace = mid ++ after := by
    rw [List.dropWhile_append_of_pos hbefore]
    cases mid with
    | nil => exact absurd rfl hne
    | cons b mid =>
        have hb : ¬ IfStream.isSpace b = true := by simp [hmid b List.mem_cons_self]
        exact List.dropWhile_cons_of_neg hb
  have hback : (mid ++ after).rdropWhile IfStream.isSpace = mid := by
    clear hfront
    induction after using List.reverseRecOn with
    | nil =>
        rw [List.append_nil, List.rdropWhile_eq_self_iff]
        intro hne
        simp [hmid _ (List.getLast_mem hne)]
    | append_singleton after b ih =>
        obtain ⟨hrest, hb⟩ := List.forall_mem_append.mp hafter
        rw [← List.append_assoc,
          List.rdropWhile_concat_pos _ _ _ (hb b (List.mem_singleton_self b)), ih hrest]
  rw [trimCopy, hfront, hback]

theorem colonEntry_append_cr (line : Bytes) :
    colonEntry (line ++ bytesOf "\r") = colonEntry line := by
  by_cases h : ':'.toUInt8 ∈ line
  · obtain ⟨name, value, rfl, hname⟩ := List.eq_append_cons_of_mem h
    rw [List.append_assoc, List.cons_append, colonEntry_append_cons hname,
      colonEntry_append_cons hname]
    rw [show bytesOf "\r" = ['\r'.toUInt8] from rfl, trimCopy_append_singleton (by decide)]
  · have h' : ':'.toUInt8 ∉ line ++ bytesOf "\r" := by
      rw [List.mem_append, not_or]
      exact ⟨h, by decide⟩
    rw [colonEntry_eq_none h, colonEntry_eq_none h']

theorem exists_substr {s : Bytes} {pos : ℕ} (h : pos ≤ s.length) (count : ℕ) :
    ∃ part, substr s pos count = .ok part := ⟨_, if_pos h⟩

/-- The place from which the status is read, also where there is no space. -/
theorem status_pos_le (header : Bytes) :
    ((findFirstOf [' '.toUInt8] header).getD npos + 1) % 2 ^ 64 ≤ header.length := by
  cases hspace : findFirstOf [' '.toUInt8] header with
  | none => exact Nat.zero_le _
  | some i =>
      obtain ⟨hlt, -⟩ := List.findIdx?_eq_some_iff_getElem.mp hspace
      exact (Nat.mod_le _ _).trans hlt

/-- Apart from the status, a line is put into the map as `colonEntry` says. -/
theorem exists_parseLine (m : HeaderMap) {header : Bytes} (hlength : header.length ≤ npos) :
    ∃ es : HeaderMap, parseLine m header = .ok (es.foldl HeaderMap.insert m) ∧
      ∀ k ≠ bytesOf "Status",
        es.find? (·.1 = k) = (colonEntry header).toList.find? (·.1 = k) := by
  obtain ⟨status, hstatus⟩ := exists_substr (status_pos_le header)
    (subSize ((findLastOf ' '.toUInt8 header).getD npos) 1)
  have hname (index : ℕ) : substr header 0 index = .ok (header.take index) := if_pos (Nat.zero_le _)
  have hvalue {index : ℕ} (hlt : index < header.length) :
      substr header (index + 1) npos = .ok (header.drop (index + 1)) := by
    rw [substr, if_pos (Nat.succ_le_of_lt hlt), List.take_of_length_le]
    exact (List.drop_suffix _ _).length_le.trans hlength
  -- the status is the only entry in front of the other one
  refine ⟨(if findBytes (bytesOf "HTTP/1.") header ≠ none then [(bytesOf "Status", status)]
    else []) ++ (colonEntry header).toList, ?_, fun k hk => ?_⟩
  · have hcolon (m : HeaderMap) :
        (match findFirstOf [':'.toUInt8] header with
        | none => pure m
        | some index => do
            let name ← substr header 0 index
            let value ← substr header (index + 1) npos
            pure (m.insert (trimCopy name, trimCopy value))) =
          (.ok ((colonEntry header).toList.foldl HeaderMap.insert m) : Except Crash HeaderMap) := by
      cases hfind : findFirstOf [':'.toUInt8] header with
      | none =>
          rw [colonEntry, hfind]
          rfl
      | some index =>
          obtain ⟨hlt, -⟩ := List.findIdx?_eq_some_iff_getElem.mp hfind
          simp only [hname, hvalue hlt, ok_bind, colonEntry, hfind]
          rfl
    rw [parseLine, hstatus, List.foldl_append]
    by_cases h : findBytes (bytesOf "HTTP/1.") header ≠ none
    · simp only [if_pos h, ok_bind]
      exact hcolon _
    · simp only [if_neg h]
      exact hcolon _
  · rw [List.find?_append]
    have hnone : (if findBytes (bytesOf "HTTP/1.") header ≠ none then [(bytesOf "Status", status)]
        else []).find? (·.1 = k) = none := by
      split
      · simp [hk.symm]
      · rfl
    rw [hnone, Option.none_or]

theorem getline_of_ne_nil {s : Bytes} (h : s ≠ []) : getline s =
    some (s.takeWhile (· ≠ '\n'.toUInt8), (s.dropWhile (· ≠ '\n'.toUInt8)).drop 1) := by
  cases s with
  | nil => exact absurd rfl h
  | cons b s => rfl

theorem getline_append_cons {line : Bytes} (h : '\n'.toUInt8 ∉ line) (rest : Bytes) :
    getline (line ++ '\n'.toUInt8 :: rest) = some (line, rest) := by
  rw [getline_of_ne_nil (by simp), takeWhile_append_cons h, dropWhile_append_cons h]
  rfl

def headerText (lines : List Bytes) : Bytes :=
  lines.flatMap (· ++ bytesOf "\r\n") ++ bytesOf "\r\n"

/-- What the loop has put into the map at the end of a header. -/
theorem exists_parseLoop {lines : List Bytes} {fuel : ℕ} (hfuel : lines.length < fuel)
    (hlines : ∀ line ∈ lines, line ≠ [] ∧ '\n'.toUInt8 ∉ line ∧ line.length < npos)
    (m : HeaderMap) :
    ∃ es : HeaderMap, parseLoop fuel (headerText lines) m = .ok (es.foldl HeaderMap.insert m) ∧
      ∀ k ≠ bytesOf "Status",
        es.find? (·.1 = k) = (lines.filterMap colonEntry).find? (·.1 = k) := by
  induction lines generalizing fuel m with
  | nil =>
      cases fuel with
      | zero => exact absurd hfuel (Nat.not_lt_zero _)
      | succ fuel => exact ⟨[], rfl, fun k _ => rfl⟩
  | cons line lines ih =>
      obtain ⟨⟨hne, hfree, hlength⟩, hrest⟩ := List.forall_mem_cons.mp hlines
      cases fuel with
      | zero => exact absurd hfuel (Nat.not_lt_zero _)
      | succ fuel =>
          have htext : headerText (line :: lines) =
              (line ++ bytesOf "\r") ++ '\n'.toUInt8 :: headerText lines := by
            rw [headerText, headerText, List.flatMap_cons, List.append_assoc, List.append_assoc,
              List.append_assoc]
            rfl
          have hcr : '\n'.toUInt8 ∉ line ++ bytesOf "\r" := by
            rw [List.mem_append, not_or]
            exact ⟨hfree, by decide⟩
          have hend : line ++ bytesOf "\r" ≠ bytesOf "\r" := fun h =>
            hne (List.append_cancel_right (h.trans (List.nil_append _).symm))
          have hsize : (line ++ bytesOf "\r").length ≤ npos := by
            rw [List.length_append]
            exact hlength
          obtain ⟨first, hfirst, hkeys⟩ := exists_parseLine m hsize
          obtain ⟨es, hes, hkeys'⟩ :=
            ih (Nat.lt_of_succ_lt_succ hfuel) hrest (first.foldl HeaderMap.insert m)
          refine ⟨first ++ es, ?_, fun k hk => ?_⟩
          · rw [htext, parseLoop, getline_append_cons hcr]
            simp only [if_neg hend, hfirst, ok_bind, hes, List.foldl_append]
          · rw [List.find?_append, hkeys k hk, hkeys' k hk, colonEntry_append_cr,
              List.filterMap_cons]
            cases colonEntry line with
            | none => rfl
            | some e => rw [Option.toList_some, ← List.find?_append, List.singleton_append]

/-! ### The length of the content -/

theorem extractSize_digits {digits : Bytes} (hne : digits ≠ [])
    (hdigits : ∀ b ∈ digits, isDigit b = true) (hlt : numeral digits < 2 ^ 64) :
    extractSize digits = some (numeral digits) := by
  have hall : digits.takeWhile isDigit = digits := List.takeWhile_eq_self_iff.mpr hdigits
  cases digits with
  | nil => exact absurd rfl hne
  | cons d ds =>
      have hd := hdigits d List.mem_cons_self
      have hspace : (d :: ds).dropWhile IfStream.isSpace = d :: ds :=
        List.dropWhile_cons_of_neg (by simp [IfStream.isSpace_eq_false_of_isDigit hd])
      have hminus : d ≠ '-'.toUInt8 := IfStream.digit_ne hd (by decide)
      have hplus : d ≠ '+'.toUInt8 := IfStream.digit_ne hd (by decide)
      have hsigned : IfStream.signedDigits (d :: ds) =
          (false, d :: ds, (d :: ds).dropWhile isDigit) := by
        simp [IfStream.signedDigits, hminus, hplus, hall]
      rw [extractSize, hspace]
      simp only [hsigned, reduceCtorEq, if_false, if_neg (Nat.not_le.mpr hlt), Bool.false_eq_true]

def lengthOf (e : Bytes × Bytes) : Option ℕ :=
  if findBytes (bytesOf "Content-Length") e.1 ≠ none then extractSize e.2 else none

theorem getContentLength_eq (m : HeaderMap) :
    getContentLength m = ((m.filterMap lengthOf).getLast?).getD 0 := by
  have hstep : (fun (fileSize : ℕ) (it : Bytes × Bytes) =>
      if findBytes (bytesOf "Content-Length") it.1 ≠ none then (extractSize it.2).getD fileSize
      else fileSize) = fun fileSize it => (lengthOf it).getD fileSize := by
    funext fileSize it
    rw [lengthOf]
    split <;> rfl
  rw [getContentLength, hstep]
  induction m using List.reverseRecOn with
  | nil => rfl
  | append_singleton m e ih =>
      rw [List.foldl_concat, ih, List.filterMap_append]
      cases he : lengthOf e with
      | none =>
          rw [List.filterMap_cons_none he, List.filterMap_nil, List.append_nil, Option.getD_none]
      | some n =>
          rw [List.filterMap_cons_some he, List.filterMap_nil, List.getLast?_concat]
          rfl

end Daobell
