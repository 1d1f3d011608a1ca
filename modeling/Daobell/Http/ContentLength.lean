import Daobell.Http.Header

/-!
The length of the content in the header of a response. It is taken from the names that
contain `Content-Length` as it is spelled here, the greatest of them last, whatever stands
around it and whichever of them is the field.
-/

namespace Daobell

open Lib

structure HeaderField where
  name : Bytes
  value : Bytes
  name_free : ∀ b ∈ name, b ∉ [':'.toUInt8, '\n'.toUInt8, 0]
  value_free : ∀ b ∈ value, b ∉ ['\n'.toUInt8, 0]

def lowerCase (b : UInt8) : UInt8 := if 65 ≤ b ∧ b ≤ 90 then b + 32 else b

namespace HeaderField

variable (f : HeaderField)

def line : Bytes := f.name ++ ':'.toUInt8 :: f.value

/-- The name is `Content-Length` in some mix of letters. -/
def IsContentLength : Prop := f.name.map lowerCase = bytesOf "content-length"

instance : Decidable f.IsContentLength := inferInstanceAs (Decidable (_ = _))

end HeaderField

def headerLines (status : Bytes) (fields : List HeaderField) : List Bytes :=
  (bytesOf "HTTP/" ++ status) :: fields.map HeaderField.line

/-- The header of a response, with one field that gives the length of the content. -/
structure ResponseHeader where
  status : Bytes
  front : List HeaderField
  field : HeaderField
  back : List HeaderField
  length : ℕ
  status_free : ∀ b ∈ status, b ∉ ['\n'.toUInt8, 0]
  isContentLength : field.IsContentLength
  unique : ∀ f ∈ front ++ back, ¬ f.IsContentLength
  value_eq : ∃ before digits after, field.value = before ++ (digits ++ after) ∧
    (∀ b ∈ before ++ after, b ∈ bytesOf " \t") ∧ digits ≠ [] ∧
    (∀ b ∈ digits, isDigit b = true) ∧ numeral digits = length
  length_lt : length < 2 ^ 64
  text_lt : (headerText (headerLines status (front ++ field :: back))).length < 2 ^ 63

namespace ResponseHeader

variable (h : ResponseHeader)

def lines : List Bytes := headerLines h.status (h.front ++ h.field :: h.back)

def text : Bytes := headerText h.lines

def Found : Prop := ∃ m, httpHeaderParser h.text = .ok m ∧ getContentLength m = h.length

/-- What stands in front of the first colon of each line that has one, and behind it. -/
def entries : List (Bytes × Bytes) := h.lines.filterMap colonEntry

/-- An entry from which a length is read: the first one of its name, which contains
`Content-Length`, with a value that is not blank. -/
def LengthEntry (e : Bytes × Bytes) : Prop :=
  h.entries.find? (·.1 = e.1) = some e ∧ bytesOf "Content-Length" <:+: e.1 ∧
    extractSize e.2 ≠ none

/-- The greatest name with such an entry comes with the length, or there is none and the
length is zero. -/
def Decided : Prop :=
  (∃ e, h.LengthEntry e ∧ extractSize e.2 = some h.length ∧
    ∀ e', h.LengthEntry e' → ¬ e.1 < e'.1) ∨
  h.length = 0 ∧ ∀ e, ¬ h.LengthEntry e

end ResponseHeader

/-! ### The map of a header -/

theorem length_le_headerText (lines : List Bytes) : lines.length ≤ (headerText lines).length := by
  induction lines with
  | nil => exact Nat.zero_le _
  | cons line lines ih =>
      rw [headerText, List.flatMap_cons, List.append_assoc, List.append_assoc, ← headerText]
      have htwo : (bytesOf "\r\n").length = 2 := rfl
      simp only [List.length_append, List.length_cons, htwo]
      omega

theorem line_le_headerText {lines : List Bytes} {line : Bytes} (h : line ∈ lines) :
    line.length ≤ (headerText lines).length := by
  have hinfix : line ++ bytesOf "\r\n" <:+: headerText lines := by
    have hmem : line ++ bytesOf "\r\n" ∈ lines.map (· ++ bytesOf "\r\n") := List.mem_map_of_mem h
    rw [headerText, List.flatMap_def]
    exact (List.infix_of_mem_flatten hmem).trans (List.prefix_append _ _).isInfix
  have hle := hinfix.length_le
  rw [List.length_append] at hle
  omega

namespace HeaderField

variable (f : HeaderField)

theorem line_notMem {b : UInt8} (hb : b ∈ ['\n'.toUInt8, 0]) : b ∉ f.line := by
  have hcolon : b ≠ ':'.toUInt8 := by
    rintro rfl
    exact absurd hb (by decide)
  simp only [line, List.mem_append, List.mem_cons, not_or]
  exact ⟨fun hmem => f.name_free b hmem (List.mem_cons_of_mem _ hb), hcolon,
    fun hmem => f.value_free b hmem hb⟩

end HeaderField

namespace ResponseHeader

variable (h : ResponseHeader)

theorem line_notMem {b : UInt8} (hb : b ∈ ['\n'.toUInt8, 0]) {line : Bytes}
    (hline : line ∈ h.lines) : b ∉ line := by
  rcases List.mem_cons.mp hline with rfl | hmem
  · rw [List.mem_append, not_or]
    refine ⟨?_, fun hmem => h.status_free b hmem hb⟩
    rcases List.mem_cons.mp hb with rfl | hb
    · decide
    · rw [List.mem_singleton.mp hb]
      decide
  · obtain ⟨f, -, rfl⟩ := List.mem_map.mp hmem
    exact f.line_notMem hb

theorem line_ne_nil {line : Bytes} (hline : line ∈ h.lines) : line ≠ [] := by
  rcases List.mem_cons.mp hline with rfl | hmem
  · exact List.append_ne_nil_of_left_ne_nil (by decide) _
  · obtain ⟨f, -, rfl⟩ := List.mem_map.mp hmem
    simp [HeaderField.line]

theorem zero_notMem_text : 0 ∉ h.text := by
  rw [text, headerText, List.mem_append, not_or]
  refine ⟨fun hmem => ?_, by decide⟩
  obtain ⟨line, hline, hmem⟩ := List.mem_flatMap.mp hmem
  rcases List.mem_append.mp hmem with hmem | hmem
  · exact h.line_notMem (by decide) hline hmem
  · exact absurd hmem (by decide)

theorem exists_map : ∃ m, httpHeaderParser h.text = .ok m ∧ MapSorted (· < ·) m ∧
    ∀ e : Bytes × Bytes, e.1 ≠ bytesOf "Status" →
      (e ∈ m ↔ h.entries.find? (·.1 = e.1) = some e) := by
  have hlines : ∀ line ∈ h.lines, line ≠ [] ∧ '\n'.toUInt8 ∉ line ∧ line.length < npos := by
    intro line hline
    refine ⟨h.line_ne_nil hline, h.line_notMem (by decide) hline, ?_⟩
    refine Nat.lt_of_le_of_lt (line_le_headerText hline) (Nat.lt_trans h.text_lt ?_)
    decide
  obtain ⟨es, hes, hkeys⟩ := exists_parseLoop
    (Nat.lt_succ_of_le (length_le_headerText h.lines)) hlines []
  have hnil : MapSorted (· < ·) ([] : HeaderMap) := List.Pairwise.nil
  refine ⟨es.foldl HeaderMap.insert [], ?_, foldl_mapInsert_sorted _ hnil es, fun e hne => ?_⟩
  · rw [httpHeaderParser, cStr_eq_self h.zero_notMem_text]
    exact hes
  · have hmem := mem_foldl_mapInsert (· < ·) hnil es (x := e)
    rw [hkeys e.1 hne] at hmem
    refine hmem.trans ?_
    simp [entries]

theorem lengthOf_eq_some_iff {e : Bytes × Bytes} {n : ℕ} :
    lengthOf e = some n ↔ bytesOf "Content-Length" <:+: e.1 ∧ extractSize e.2 = some n := by
  rw [lengthOf, ← findBytes_ne_none_iff (by decide)]
  split
  · rename_i hname
    rw [and_iff_right hname]
  · rename_i hname
    simp [hname]

/-- The length is found exactly when the greatest of the names that are read comes with it. -/
theorem found_iff_decided : h.Found ↔ h.Decided := by
  obtain ⟨m, hparse, hsorted, hmem⟩ := h.exists_map
  have hfound : h.Found ↔ getContentLength m = h.length := by
    refine ⟨?_, fun heq => ⟨m, hparse, heq⟩⟩
    rintro ⟨m', hparse', heq⟩
    rw [hparse] at hparse'
    cases hparse'
    exact heq
  have hentry (e : Bytes × Bytes) : e ∈ m ∧ lengthOf e ≠ none ↔ h.LengthEntry e := by
    rw [Option.ne_none_iff_exists', LengthEntry, Option.ne_none_iff_exists']
    simp only [lengthOf_eq_some_iff, exists_and_left]
    refine and_congr_left fun hread => hmem e ?_
    rintro hstatus
    rw [hstatus] at hread
    exact absurd hread.1 (by decide)
  have hlast : (m.filterMap lengthOf).getLast? = some h.length ↔
      ∃ e, h.LengthEntry e ∧ extractSize e.2 = some h.length ∧
        ∀ e', h.LengthEntry e' → ¬ e.1 < e'.1 := by
    rw [getLast?_filterMap_eq_some_iff (· < ·) hsorted]
    refine exists_congr fun e => ?_
    constructor
    · rintro ⟨he, hread, hmax⟩
      refine ⟨(hentry e).mp ⟨he, by simp [hread]⟩, (lengthOf_eq_some_iff.mp hread).2,
        fun e' he' => ?_⟩
      obtain ⟨hmem', hread'⟩ := (hentry e').mpr he'
      exact hmax e' hmem' hread'
    · rintro ⟨he, hread, hmax⟩
      exact ⟨((hentry e).mpr he).1, lengthOf_eq_some_iff.mpr ⟨he.2.1, hread⟩,
        fun e' he' hread' => hmax e' ((hentry e').mp ⟨he', hread'⟩)⟩
  have hnone : (m.filterMap lengthOf).getLast? = none ↔ ∀ e, ¬ h.LengthEntry e := by
    rw [List.getLast?_eq_none_iff, List.filterMap_eq_nil_iff]
    refine ⟨fun hall e he => ?_, fun hall e he => ?_⟩
    · obtain ⟨hmem', hread⟩ := (hentry e).mpr he
      exact hread (hall e hmem')
    · by_contra hread
      exact hall e ((hentry e).mp ⟨he, hread⟩)
  rw [hfound, getContentLength_eq, Decided, ← hlast, ← hnone]
  cases (m.filterMap lengthOf).getLast? with
  | none => simp [eq_comm]
  | some n => simp

theorem extractSize_field : extractSize (trimCopy h.field.value) = some h.length := by
  obtain ⟨before, digits, after, hvalue, hblank, hne, hdigits, hlength⟩ := h.value_eq
  have hspace : ∀ b ∈ bytesOf " \t", IfStream.isSpace b = true :=
    List.forall_iff_forall_mem.mp (by decide)
  obtain ⟨hbefore, hafter⟩ := List.forall_mem_append.mp hblank
  rw [hvalue, trimCopy_append hne (fun b hb => hspace b (hbefore b hb))
    (fun b hb => IfStream.isSpace_eq_false_of_isDigit (hdigits b hb))
    (fun b hb => hspace b (hafter b hb)), ← hlength]
  exact extractSize_digits hne hdigits (hlength ▸ h.length_lt)

/-- The length is found when the field is spelled as it is looked for, and no other name
contains that. -/
theorem found_of_plain (hname : h.field.name = bytesOf "Content-Length")
    (hplain : ∀ line ∈ headerLines h.status (h.front ++ h.back), ∀ e ∈ colonEntry line,
      ¬ bytesOf "Content-Length" <:+: e.1) : h.Found := by
  have hcolon : ':'.toUInt8 ∉ h.field.name :=
    fun hmem => h.field.name_free _ hmem List.mem_cons_self
  have hfield : colonEntry h.field.line =
      some (bytesOf "Content-Length", trimCopy h.field.value) := by
    rw [HeaderField.line, colonEntry_append_cons hcolon, hname]
    rfl
  have honly : ∀ e ∈ h.entries, bytesOf "Content-Length" <:+: e.1 →
      e = (bytesOf "Content-Length", trimCopy h.field.value) := by
    intro e he hinfix
    obtain ⟨line, hline, hentry⟩ := List.mem_filterMap.mp he
    have hcases : line = h.field.line ∨ line ∈ headerLines h.status (h.front ++ h.back) := by
      simp only [lines, headerLines, List.map_append, List.map_cons, List.mem_cons,
        List.mem_append] at hline ⊢
      tauto
    rcases hcases with rfl | hother
    · exact (Option.some.inj (hfield.symm.trans hentry)).symm
    · exact absurd hinfix (hplain line hother e hentry)
  have hmem : (bytesOf "Content-Length", trimCopy h.field.value) ∈ h.entries := by
    refine List.mem_filterMap.mpr ⟨h.field.line, ?_, hfield⟩
    exact List.mem_cons_of_mem _ (List.mem_map_of_mem (by simp))
  have hfirst : h.entries.find? (·.1 = bytesOf "Content-Length") =
      some (bytesOf "Content-Length", trimCopy h.field.value) := by
    cases hfind : h.entries.find? (·.1 = bytesOf "Content-Length") with
    | none => exact absurd (decide_eq_true rfl) (List.find?_eq_none.mp hfind _ hmem)
    | some e =>
        have hkey : e.1 = bytesOf "Content-Length" := by
          have hfound := List.find?_some hfind
          exact of_decide_eq_true hfound
        rw [honly e (List.mem_of_find?_eq_some hfind) (hkey ▸ List.infix_rfl)]
  have hread := h.extractSize_field
  refine h.found_iff_decided.mpr (.inl ⟨(bytesOf "Content-Length", trimCopy h.field.value),
    ⟨hfirst, List.infix_rfl, ?_⟩, hread, fun e he => ?_⟩)
  · rw [hread]
    exact Option.some_ne_none _
  · rw [honly e (List.mem_of_find?_eq_some he.1) he.2.1]
    exact List.lt_irrefl _

end ResponseHeader

/-- **The length of the content** is found in a header exactly when the greatest of the
names in which `Content-Length` occurs comes with it: the name of another field or the
status line can hide it, and a field that is spelled in another way is not seen. -/
theorem getContentLength_found_iff (h : ResponseHeader) : h.Found ↔ h.Decided := h.found_iff_decided

/-- A response of five bytes with another field behind the length. -/
def shadowedHeader : ResponseHeader where
  status := bytesOf "1.1 200 OK"
  front := []
  field := ⟨bytesOf "Content-Length", bytesOf " 5", List.forall_iff_forall_mem.mp (by decide),
    List.forall_iff_forall_mem.mp (by decide)⟩
  back := [⟨bytesOf "X-Content-Length", bytesOf " 7", List.forall_iff_forall_mem.mp (by decide),
    List.forall_iff_forall_mem.mp (by decide)⟩]
  length := 5
  status_free := List.forall_iff_forall_mem.mp (by decide)
  isContentLength := by decide
  unique := by decide
  value_eq := ⟨bytesOf " ", bytesOf "5", [], rfl, List.forall_iff_forall_mem.mp (by decide),
    by decide, List.forall_iff_forall_mem.mp (by decide), rfl⟩
  length_lt := by decide
  text_lt := by decide

/-- It is taken to have seven bytes. -/
theorem not_found_shadowedHeader : ¬ shadowedHeader.Found := by
  rintro ⟨m, hm, hlength⟩
  have hparse : (httpHeaderParser shadowedHeader.text).map getContentLength = .ok 7 := by
    decide +kernel
  rw [hm, Except.map, hlength] at hparse
  exact absurd (Except.ok.inj hparse) (by decide)

end Daobell
