import Daobell.Bencode.Parser
import Daobell.Bencode.Text

/-!
Both parsers on the byte strings of the grammar. Each parser, run on a text
followed by anything, returns the value of the text and stops behind it; the
fuel it needs is the number of rounds of the text. That the parsers agree, and
that the stream parser undoes the encoder, are the two sides of this.
-/

namespace Daobell

open Lib BencodeValue BencodeText

namespace BencodeParser

theorem stringOfVector_eq {length : ℕ} {s : ByteString} (h : length = s.bytes.length) :
    stringOfVector length s.bytes = .ok (.bencodeString s) := by
  subst h
  rw [stringOfVector, dif_pos ⟨s.length_lt, le_rfl⟩]
  simp

/-! ### The parser on a file stream -/

theorem parseStringIfs_spell (s : StringText) (r : Bytes) :
    parseStringIfs (.ofBytes (s.spell ++ r)) = .ok (.bencodeString s.content, .ofBytes r) := by
  have hlt : numeral s.digits < 2 ^ 64 := by
    have := s.content.length_lt
    rw [s.numeral_digits]
    omega
  have hsize := IfStream.extractSize_digits (r := s.content.bytes ++ r) 0 s.digits_ne_nil
    s.isDigit_digits (c := ':'.toUInt8) (by decide) hlt
  have hread := IfStream.read_ofBytes s.content.bytes r
  simp only [parseStringIfs, StringText.spell, List.append_assoc, List.cons_append, hsize,
    IfStream.get_ofBytes_cons, s.numeral_digits, hread, stringOfVector_eq rfl]
  rfl

-- what the variable that a number is read into held before
variable (old : Int64)

theorem parseIntIfs_spell (n : IntText) (r : Bytes) :
    parseIntIfs old (.ofBytes (n.sign ++ n.digits ++ 'e'.toUInt8 :: r)) =
      .ok (.bencodeInt (Int64.ofInt n.number), .ofBytes r) := by
  have hnumber := IfStream.extractLongLong_digits (r := r) n.negative n.digits_ne_nil
    n.isDigit_digits (c := 'e'.toUInt8) (by decide) n.le_value n.value_lt
  simp only [parseIntIfs, IntText.sign, hnumber, IfStream.get_ofBytes_cons, IntText.number]

theorem parseIfs_string (s : StringText) (r : Bytes) (fuel : ℕ) :
    parseIfs old (fuel + 1) (.ofBytes (s.spell ++ r)) =
      .ok (.bencodeString s.content, .ofBytes r) := by
  obtain ⟨c, rest, hspell, hc⟩ := isDigit_head_string s
  have h := parseStringIfs_spell s r
  rw [hspell, List.cons_append] at h ⊢
  rw [parseIfs, IfStream.get_ofBytes_cons]
  simp only [hc, if_true, IfStream.putback_ofBytes, h]

/-- One round of the list loop. -/
theorem parseListIfs_round {fuel : ℕ} {ifs ifs' : IfStream} {c : UInt8} {v : BencodeValue}
    (bl : List BencodeValue) (hpeek : ifs.peek = (some c, ifs)) (hc : c ≠ 'e'.toUInt8)
    (hv : parseIfs old fuel ifs = .ok (v, ifs')) :
    parseListIfs old (fuel + 1) ifs bl = parseListIfs old fuel ifs' (bl ++ [v]) := by
  rw [parseListIfs, hpeek]
  simp only [Option.some.injEq, hc, if_false, hv, ok_bind]

/-- One round of the dictionary loop. -/
theorem parseDictIfs_round {fuel : ℕ} {ifs ifs₁ ifs₂ : IfStream} {c : UInt8} {k : ByteString}
    {v : BencodeValue} (bd : DictMap) (hpeek : ifs.peek = (some c, ifs))
    (hc : c ≠ 'e'.toUInt8) (hk : parseIfs old fuel ifs = .ok (.bencodeString k, ifs₁))
    (hv : parseIfs old fuel ifs₁ = .ok (v, ifs₂)) :
    parseDictIfs old (fuel + 1) ifs bd = parseDictIfs old fuel ifs₂ (insertToDict bd (k, v)) := by
  rw [parseDictIfs, hpeek]
  simp only [Option.some.injEq, hc, if_false, hk, ok_bind, asString, hv]

/-- The loop of a list, given what the parser does on the elements. -/
theorem parseListIfs_spell (ts : List BencodeText) (r : Bytes)
    (ih : ∀ t ∈ ts, ∀ r fuel, t.rounds ≤ fuel →
      parseIfs old fuel (.ofBytes (t.spell ++ r)) = .ok (t.value, .ofBytes r))
    (fuel : ℕ) (hfuel : roundsList ts ≤ fuel) (bl : List BencodeValue) :
    parseListIfs old fuel (.ofBytes (spellList ts ++ 'e'.toUInt8 :: r)) bl =
      .ok (bl ++ valueList ts, .ofBytes ('e'.toUInt8 :: r)) := by
  induction ts generalizing fuel bl with
  | nil =>
      obtain ⟨fuel, rfl⟩ := Nat.exists_eq_succ_of_ne_zero (Nat.ne_of_gt hfuel)
      simp [parseListIfs, spellList, valueList]
  | cons t ts ihts =>
      simp only [roundsList] at hfuel
      obtain ⟨fuel, rfl⟩ := Nat.exists_eq_add_of_le' (Nat.le_of_add_left_le hfuel)
      obtain ⟨c, rest, hspell, hc⟩ := t.spell_head
      have ht := ih t List.mem_cons_self (spellList ts ++ 'e'.toUInt8 :: r) fuel (by omega)
      have hpeek : (IfStream.ofBytes (t.spell ++ (spellList ts ++ 'e'.toUInt8 :: r))).peek =
          (some c, .ofBytes (t.spell ++ (spellList ts ++ 'e'.toUInt8 :: r))) := by
        rw [hspell]
        rfl
      rw [spellList, List.append_assoc, parseListIfs_round old bl hpeek hc ht,
        ihts (fun u hu => ih u (List.mem_cons_of_mem t hu)) fuel (by omega) (bl ++ [t.value]),
        valueList, List.append_assoc, List.singleton_append]

/-- The loop of a dictionary, given what the parser does on the values. -/
theorem parseDictIfs_spell (es : List (StringText × BencodeText)) (r : Bytes)
    (ih : ∀ e ∈ es, ∀ r fuel, e.2.rounds ≤ fuel →
      parseIfs old fuel (.ofBytes (e.2.spell ++ r)) = .ok (e.2.value, .ofBytes r))
    (fuel : ℕ) (hfuel : roundsDict es ≤ fuel) (bd : DictMap) :
    parseDictIfs old fuel (.ofBytes (spellDict es ++ 'e'.toUInt8 :: r)) bd =
      .ok ((entries es).foldl insertToDict bd, .ofBytes ('e'.toUInt8 :: r)) := by
  induction es generalizing fuel bd with
  | nil =>
      obtain ⟨fuel, rfl⟩ := Nat.exists_eq_succ_of_ne_zero (Nat.ne_of_gt hfuel)
      simp [parseDictIfs, spellDict, entries]
  | cons e es ihes =>
      obtain ⟨k, t⟩ := e
      simp only [roundsDict] at hfuel
      have hpos := t.rounds_pos
      obtain ⟨fuel, rfl⟩ : ∃ m, fuel = m + 1 + 1 := ⟨fuel - 2, by omega⟩
      obtain ⟨c, rest, hspell, hc⟩ := isDigit_head_string k
      have hkey := parseIfs_string old k (t.spell ++ (spellDict es ++ 'e'.toUInt8 :: r)) fuel
      have ht := ih (k, t) List.mem_cons_self (spellDict es ++ 'e'.toUInt8 :: r) (fuel + 1)
        (by dsimp only; omega)
      have hpeek : (IfStream.ofBytes
          (k.spell ++ (t.spell ++ (spellDict es ++ 'e'.toUInt8 :: r)))).peek =
          (some c, .ofBytes (k.spell ++ (t.spell ++ (spellDict es ++ 'e'.toUInt8 :: r)))) := by
        rw [hspell]
        rfl
      rw [spellDict, List.append_assoc, List.append_assoc,
        parseDictIfs_round old bd hpeek (IfStream.digit_ne hc (by decide)) hkey ht,
        ihes (fun u hu => ih u (List.mem_cons_of_mem (k, t) hu)) (fuel + 1) (by omega),
        entries, List.foldl_cons]

/-- The stream parser returns the value of a text and stops behind it. -/
theorem parseIfs_spell (t : BencodeText) (r : Bytes) (fuel : ℕ) (hfuel : t.rounds ≤ fuel) :
    parseIfs old fuel (.ofBytes (t.spell ++ r)) = .ok (t.value, .ofBytes r) := by
  induction t using BencodeText.induct generalizing r fuel with
  | string s =>
      obtain ⟨fuel, rfl⟩ := Nat.exists_eq_add_of_le' hfuel
      exact parseIfs_string old s r fuel
  | int n =>
      obtain ⟨fuel, rfl⟩ := Nat.exists_eq_add_of_le' hfuel
      have hspell : (BencodeText.int n).spell ++ r =
          'i'.toUInt8 :: (n.sign ++ n.digits ++ 'e'.toUInt8 :: r) := by
        simp [spell, IntText.spell]
      rw [hspell]
      exact parseIntIfs_spell old n r
  | list ts ih =>
      obtain ⟨fuel, rfl⟩ := Nat.exists_eq_add_of_le' (Nat.le_trans (Nat.le_add_left 1 _) hfuel)
      simp only [rounds, Nat.add_le_add_iff_right] at hfuel
      have hloop := parseListIfs_spell old ts r ih fuel hfuel []
      simp only [parseIfs, spell, List.cons_append, List.append_assoc, List.nil_append,
        IfStream.get_ofBytes_cons, show isDigit 'l'.toUInt8 = false by decide,
        show ('l'.toUInt8 = 'i'.toUInt8) = False by decide, hloop]
      rfl
  | dict es ih =>
      obtain ⟨fuel, rfl⟩ := Nat.exists_eq_add_of_le' (Nat.le_trans (Nat.le_add_left 1 _) hfuel)
      simp only [rounds, Nat.add_le_add_iff_right] at hfuel
      have hloop := parseDictIfs_spell old es r ih fuel hfuel []
      simp only [parseIfs, spell, List.cons_append, List.append_assoc, List.nil_append,
        IfStream.get_ofBytes_cons, show isDigit 'd'.toUInt8 = false by decide,
        show ('d'.toUInt8 = 'i'.toUInt8) = False by decide,
        show ('d'.toUInt8 = 'l'.toUInt8) = False by decide, hloop]
      rfl

/-! ### The parser on a string in memory -/

theorem drop_add_of_drop {buf a b : Bytes} {p : ℕ} (h : buf.drop p = a ++ b) :
    buf.drop (p + a.length) = b := by
  rw [← List.drop_drop, h, List.drop_left]

theorem getElem?_of_drop {buf b : Bytes} {p : ℕ} {c : UInt8} (h : buf.drop p = c :: b) :
    buf[p]? = some c := by
  rw [← List.head?_drop, h, List.head?_cons]

theorem parseStringMem_spell (s : StringText) {buf r : Bytes} {p : ℕ}
    (h : buf.drop p = s.spell ++ r) :
    parseStringMem buf p = .ok (.bencodeString s.content, p + s.spell.length) := by
  have hvalue : IfStream.signedNumeral false s.digits = (s.content.bytes.length : ℤ) := by
    simp [IfStream.signedNumeral, s.numeral_digits]
  have hlt := s.content.length_lt
  have hscan := strtol_digits (r := s.content.bytes ++ r) false s.digits_ne_nil
    s.isDigit_digits (c := ':'.toUInt8) (by decide) (by rw [hvalue]; omega)
    (by rw [hvalue]; omega)
  have hbuf : buf.drop p = s.digits ++ ':'.toUInt8 :: (s.content.bytes ++ r) := by
    simpa [StringText.spell] using h
  have hcontent : buf.drop (p + s.digits.length + 1) = s.content.bytes ++ r := by
    have hsplit : buf.drop p = (s.digits ++ [':'.toUInt8]) ++ (s.content.bytes ++ r) := by
      simpa using hbuf
    simpa [Nat.add_assoc] using drop_add_of_drop hsplit
  have hroom : p + s.digits.length + 1 + s.content.bytes.length ≤ buf.length := by
    have := congrArg List.length hbuf
    simp only [List.length_drop, List.length_append, List.length_cons] at this
    omega
  simp only [Bool.false_eq_true, if_false, List.nil_append] at hscan
  rw [parseStringMem, hbuf, hscan]
  simp only [hvalue, Int.toNat_natCast, hcontent, List.take_left, hroom, if_true,
    stringOfVector_eq rfl, ok_bind, StringText.spell, List.length_append, List.length_cons]
  rw [show p + s.digits.length + 1 + s.content.bytes.length =
    p + (s.digits.length + (s.content.bytes.length + 1)) by omega]
  rfl

theorem ofInt_emod (n : ℤ) : Int64.ofInt (n % 2 ^ 64) = Int64.ofInt n := by
  rw [← Int64.toInt_inj, Int64.toInt_ofInt, Int64.toInt_ofInt]
  exact Int.emod_bmod n Int64.size

theorem parseIntMem_spell (n : IntText) {buf r : Bytes} {p : ℕ}
    (h : buf.drop p = n.sign ++ n.digits ++ 'e'.toUInt8 :: r) :
    parseIntMem buf p =
      .ok (.bencodeInt (Int64.ofInt n.number), p + (n.sign ++ n.digits).length + 1) := by
  have hscan := strtol_digits (r := r) n.negative n.digits_ne_nil n.isDigit_digits
    (c := 'e'.toUInt8) (by decide) n.le_value n.value_lt
  rw [parseIntMem, h, IntText.sign, hscan]
  simp only [ofInt_emod, IntText.number]

theorem parseMem_string (s : StringText) {buf r : Bytes} {p : ℕ}
    (h : buf.drop p = s.spell ++ r) (fuel : ℕ) :
    parseMem (fuel + 1) buf p = .ok (.bencodeString s.content, p + s.spell.length) := by
  obtain ⟨c, rest, hspell, hc⟩ := isDigit_head_string s
  have hget : buf[p]? = some c := getElem?_of_drop (b := rest ++ r) (by rw [h, hspell]; rfl)
  simp only [parseMem, hget, hc, if_true]
  exact parseStringMem_spell s h

/-- One round of the list loop. -/
theorem parseListMem_round {fuel : ℕ} {buf : Bytes} {p p' : ℕ} {c : UInt8} {v : BencodeValue}
    (bl : List BencodeValue) (hget : buf[p]? = some c) (hc : c ≠ 'e'.toUInt8)
    (hv : parseMem fuel buf p = .ok (v, p')) :
    parseListMem (fuel + 1) buf p bl = parseListMem fuel buf p' (bl ++ [v]) := by
  rw [parseListMem, hget]
  simp only [hc, if_false, hv, ok_bind]

/-- One round of the dictionary loop. -/
theorem parseDictMem_round {fuel : ℕ} {buf : Bytes} {p p₁ p₂ : ℕ} {c : UInt8} {k : ByteString}
    {v : BencodeValue} (bd : DictMap) (hget : buf[p]? = some c) (hc : c ≠ 'e'.toUInt8)
    (hk : parseMem fuel buf p = .ok (.bencodeString k, p₁))
    (hv : parseMem fuel buf p₁ = .ok (v, p₂)) :
    parseDictMem (fuel + 1) buf p bd = parseDictMem fuel buf p₂ (insertToDict bd (k, v)) := by
  rw [parseDictMem, hget]
  simp only [hc, if_false, hk, ok_bind, asString, hv]

theorem parseListMem_spell (ts : List BencodeText) {buf r : Bytes}
    (ih : ∀ t ∈ ts, ∀ r p fuel, t.rounds ≤ fuel → buf.drop p = t.spell ++ r →
      parseMem fuel buf p = .ok (t.value, p + t.spell.length))
    {p : ℕ} (h : buf.drop p = spellList ts ++ 'e'.toUInt8 :: r)
    (fuel : ℕ) (hfuel : roundsList ts ≤ fuel) (bl : List BencodeValue) :
    parseListMem fuel buf p bl = .ok (bl ++ valueList ts, p + (spellList ts).length) := by
  induction ts generalizing p fuel bl with
  | nil =>
      obtain ⟨fuel, rfl⟩ := Nat.exists_eq_succ_of_ne_zero (Nat.ne_of_gt hfuel)
      have hget : buf[p]? = some 'e'.toUInt8 := getElem?_of_drop h
      simp [parseListMem, hget, valueList, spellList]
  | cons t ts ihts =>
      simp only [roundsList] at hfuel
      obtain ⟨fuel, rfl⟩ := Nat.exists_eq_add_of_le' (Nat.le_of_add_left_le hfuel)
      rw [spellList, List.append_assoc] at h
      obtain ⟨c, rest, hspell, hc⟩ := t.spell_head
      have hget : buf[p]? = some c :=
        getElem?_of_drop (b := rest ++ (spellList ts ++ 'e'.toUInt8 :: r)) (by rw [h, hspell]; rfl)
      have ht := ih t List.mem_cons_self _ p fuel (by omega) h
      rw [parseListMem_round bl hget hc ht,
        ihts (fun u hu => ih u (List.mem_cons_of_mem t hu)) (drop_add_of_drop h) fuel (by omega),
        valueList, spellList, List.append_assoc, List.singleton_append, List.length_append,
        Nat.add_assoc]

theorem parseDictMem_spell (es : List (StringText × BencodeText)) {buf r : Bytes}
    (ih : ∀ e ∈ es, ∀ r p fuel, e.2.rounds ≤ fuel → buf.drop p = e.2.spell ++ r →
      parseMem fuel buf p = .ok (e.2.value, p + e.2.spell.length))
    {p : ℕ} (h : buf.drop p = spellDict es ++ 'e'.toUInt8 :: r)
    (fuel : ℕ) (hfuel : roundsDict es ≤ fuel) (bd : DictMap) :
    parseDictMem fuel buf p bd =
      .ok ((entries es).foldl insertToDict bd, p + (spellDict es).length) := by
  induction es generalizing p fuel bd with
  | nil =>
      obtain ⟨fuel, rfl⟩ := Nat.exists_eq_succ_of_ne_zero (Nat.ne_of_gt hfuel)
      have hget : buf[p]? = some 'e'.toUInt8 := getElem?_of_drop h
      simp [parseDictMem, hget, entries, spellDict]
  | cons e es ihes =>
      obtain ⟨k, t⟩ := e
      simp only [roundsDict] at hfuel
      have hpos := t.rounds_pos
      obtain ⟨fuel, rfl⟩ : ∃ m, fuel = m + 1 + 1 := ⟨fuel - 2, by omega⟩
      rw [spellDict, List.append_assoc, List.append_assoc] at h
      obtain ⟨c, rest, hspell, hc⟩ := isDigit_head_string k
      have hget : buf[p]? = some c := getElem?_of_drop
        (b := rest ++ (t.spell ++ (spellDict es ++ 'e'.toUInt8 :: r))) (by rw [h, hspell]; rfl)
      have hkey := parseMem_string k h fuel
      have hafter := drop_add_of_drop h
      have ht := ih (k, t) List.mem_cons_self _ _ (fuel + 1) (by dsimp only; omega) hafter
      rw [parseDictMem_round bd hget (IfStream.digit_ne hc (by decide)) hkey ht,
        ihes (fun u hu => ih u (List.mem_cons_of_mem (k, t) hu)) (drop_add_of_drop hafter)
          (fuel + 1) (by omega),
        entries, List.foldl_cons, spellDict]
      simp only [List.length_append, Nat.add_assoc]

/-- The parser in memory returns the value of a text and stops behind it. -/
theorem parseMem_spell (t : BencodeText) {buf r : Bytes} {p : ℕ}
    (h : buf.drop p = t.spell ++ r) (fuel : ℕ) (hfuel : t.rounds ≤ fuel) :
    parseMem fuel buf p = .ok (t.value, p + t.spell.length) := by
  induction t using BencodeText.induct generalizing r p fuel with
  | string s =>
      obtain ⟨fuel, rfl⟩ := Nat.exists_eq_add_of_le' hfuel
      exact parseMem_string s h fuel
  | int n =>
      obtain ⟨fuel, rfl⟩ := Nat.exists_eq_add_of_le' hfuel
      have hspell : buf.drop p = ['i'.toUInt8] ++ (n.sign ++ n.digits ++ 'e'.toUInt8 :: r) := by
        simpa [spell, IntText.spell] using h
      have hget : buf[p]? = some 'i'.toUInt8 := getElem?_of_drop hspell
      have hint := parseIntMem_spell n (drop_add_of_drop hspell)
      simp only [List.length_singleton] at hint
      simp only [rounds, parseMem, hget, show isDigit 'i'.toUInt8 = false by decide,
        Bool.false_eq_true, if_false, if_true, hint, value, spell, IntText.spell]
      simp only [List.length_append, List.length_cons, List.length_nil]
      congr 2
      omega
  | list ts ih =>
      obtain ⟨fuel, rfl⟩ := Nat.exists_eq_add_of_le' (Nat.le_trans (Nat.le_add_left 1 _) hfuel)
      simp only [rounds, Nat.add_le_add_iff_right] at hfuel
      have hspell : buf.drop p = ['l'.toUInt8] ++ (spellList ts ++ 'e'.toUInt8 :: r) := by
        simpa [spell] using h
      have hget : buf[p]? = some 'l'.toUInt8 := getElem?_of_drop hspell
      have hloop := parseListMem_spell ts (fun t ht r p fuel hf hd => ih t ht hd fuel hf)
        (drop_add_of_drop hspell) fuel hfuel []
      simp only [List.length_singleton, List.nil_append] at hloop
      simp only [parseMem, hget, show isDigit 'l'.toUInt8 = false by decide,
        Bool.false_eq_true, if_false, show ('l'.toUInt8 = 'i'.toUInt8) = False by decide,
        if_true, hloop, ok_bind, value, spell]
      change Except.ok _ = _
      simp only [List.length_append, List.length_cons, List.length_nil]
      congr 2
      omega
  | dict es ih =>
      obtain ⟨fuel, rfl⟩ := Nat.exists_eq_add_of_le' (Nat.le_trans (Nat.le_add_left 1 _) hfuel)
      simp only [rounds, Nat.add_le_add_iff_right] at hfuel
      have hspell : buf.drop p = ['d'.toUInt8] ++ (spellDict es ++ 'e'.toUInt8 :: r) := by
        simpa [spell] using h
      have hget : buf[p]? = some 'd'.toUInt8 := getElem?_of_drop hspell
      have hloop := parseDictMem_spell es (fun e he r p fuel hf hd => ih e he hd fuel hf)
        (drop_add_of_drop hspell) fuel hfuel []
      simp only [List.length_singleton] at hloop
      simp only [parseMem, hget, show isDigit 'd'.toUInt8 = false by decide,
        Bool.false_eq_true, if_false, show ('d'.toUInt8 = 'i'.toUInt8) = False by decide,
        show ('d'.toUInt8 = 'l'.toUInt8) = False by decide, if_true, hloop, ok_bind, value, spell]
      change Except.ok _ = _
      simp only [List.length_append, List.length_cons, List.length_nil]
      congr 2
      omega

/-! ### The round trip, and the agreement of the parsers -/

/-- The stream parser, run on what the encoder wrote for a value tree followed
by anything, returns that tree, the order of values under equal keys included,
and leaves exactly the rest unread. -/
theorem parseIfs_encode (t : BencodeTree) (hkeys : t.value.KeysNulFree) (r : Bytes) :
    ∃ encoded, t.value.encode = .ok encoded ∧ ∃ rounds, ∀ fuel ≥ rounds,
      parseIfs old fuel (.ofBytes (encoded ++ r)) = .ok (t.value, .ofBytes r) := by
  refine ⟨t.value.crawl, encode_of_wellFormed t.wellFormed, (ofValue t.value).rounds, ?_⟩
  intro fuel hfuel
  rw [← spell_ofValue t.wellFormed.noNull hkeys, parseIfs_spell old _ r fuel hfuel,
    value_ofValue t.wellFormed]

/-- A dictionary with the key `k` twice, over the least number and over a list
that holds the string `e:1`. -/
def duplicateKeys : BencodeTree where
  value := .bencodeDict [(⟨bytesOf "k", by decide⟩, .bencodeInt Int64.minValue),
    (⟨bytesOf "k", by decide⟩, .bencodeList [.bencodeString ⟨bytesOf "e:1", by decide⟩])]
  wellFormed := .bencodeDict _ (List.pairwise_pair.mpr (List.lt_irrefl (bytesOf "k")))
    (List.forall_mem_cons.mpr ⟨.bencodeInt _, List.forall_mem_cons.mpr
      ⟨.bencodeList _ (by simpa using .bencodeString _), by simp⟩⟩)

theorem parseIfs_encode_duplicateKeys :
    ∃ encoded, duplicateKeys.value.encode = .ok encoded ∧ ∃ rounds, ∀ fuel ≥ rounds,
      parseIfs 0 fuel (.ofBytes (encoded ++ bytesOf "e")) =
        .ok (duplicateKeys.value, .ofBytes (bytesOf "e")) :=
  parseIfs_encode 0 duplicateKeys
    (.bencodeDict _ (by decide) (List.forall_mem_cons.mpr ⟨.bencodeInt _,
      List.forall_mem_cons.mpr ⟨.bencodeList _ (by simpa using .bencodeString _), by simp⟩⟩))
    (bytesOf "e")

theorem parseMem_encode {v : BencodeValue} (hwf : v.WellFormed) (hkeys : v.KeysNulFree)
    (r : Bytes) : ∃ encoded rounds, v.encode = .ok encoded ∧
      ∀ fuel ≥ rounds, parseMem fuel (encoded ++ r) 0 = .ok (v, encoded.length) := by
  refine ⟨v.crawl, (ofValue v).rounds, encode_of_wellFormed hwf, fun fuel hfuel => ?_⟩
  have hspell := spell_ofValue hwf.noNull hkeys
  have hdrop : (v.crawl ++ r).drop 0 = (ofValue v).spell ++ r := by
    rw [hspell, List.drop_zero]
  have hparse := parseMem_spell _ hdrop fuel hfuel
  rwa [value_ofValue hwf, hspell, Nat.zero_add] at hparse

/-- On every byte string of the grammar, whatever follows it, the two parsers
return the same value and consume the same bytes. -/
theorem parseIfs_eq_parseMem (t : BencodeText) (r : Bytes) :
    ∃ v rounds, ∀ fuel ≥ rounds,
      parseIfs old fuel (.ofBytes (t.spell ++ r)) = .ok (v, .ofBytes r) ∧
      parseMem fuel (t.spell ++ r) 0 = .ok (v, t.spell.length) := by
  refine ⟨t.value, t.rounds, fun fuel hfuel => ⟨parseIfs_spell old t r fuel hfuel, ?_⟩⟩
  have hdrop : (t.spell ++ r).drop 0 = t.spell ++ r := List.drop_zero
  simpa using parseMem_spell t hdrop fuel hfuel

end BencodeParser

end Daobell
