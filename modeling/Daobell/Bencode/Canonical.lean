import Daobell.Bencode.Text

/-!
When encoding the value of a text gives the text back. A text is canonical when
every number in it is spelled the way the encoder spells it and the keys of
every dictionary never decrease. The texts are unambiguous, no spelling is the
beginning of another, so a text that is not canonical is never reproduced.
-/

namespace Daobell

open Lib BencodeValue

def StringText.Canonical (s : StringText) : Prop := s.digits = decimal s.content.bytes.length

def IntText.Canonical (n : IntText) : Prop :=
  n.negative = decide (n.number < 0) ∧ n.digits = decimal n.number.natAbs

theorem StringText.ext {s t : StringText} (hdigits : s.digits = t.digits)
    (hcontent : s.content = t.content) : s = t := by
  cases s
  cases t
  cases hdigits
  cases hcontent
  rfl

theorem IntText.ext {m n : IntText} (hnegative : m.negative = n.negative)
    (hdigits : m.digits = n.digits) : m = n := by
  cases m
  cases n
  cases hnegative
  cases hdigits
  rfl

theorem StringText.canonical_iff {s : StringText} :
    s.Canonical ↔ StringText.ofString s.content = s :=
  ⟨fun h => StringText.ext h.symm rfl, fun h => (congrArg StringText.digits h).symm⟩

theorem IntText.toInt_number (n : IntText) : (Int64.ofInt n.number).toInt = n.number :=
  Int64.toInt_ofInt_of_le n.le_value n.value_lt

theorem IntText.negative_ofInt64 (n : IntText) :
    (IntText.ofInt64 (Int64.ofInt n.number)).negative = decide (n.number < 0) := by
  change decide ((Int64.ofInt n.number).toInt < 0) = _
  rw [IntText.toInt_number]

theorem IntText.digits_ofInt64 (n : IntText) :
    (IntText.ofInt64 (Int64.ofInt n.number)).digits = decimal n.number.natAbs := by
  change decimal (Int64.ofInt n.number).toInt.natAbs = _
  rw [IntText.toInt_number]

theorem IntText.canonical_iff {n : IntText} :
    n.Canonical ↔ IntText.ofInt64 (Int64.ofInt n.number) = n := by
  rw [IntText.Canonical, ← IntText.negative_ofInt64, ← IntText.digits_ofInt64]
  constructor
  · rintro ⟨hneg, hdigits⟩
    exact IntText.ext hneg.symm hdigits.symm
  · intro h
    rw [h]
    exact ⟨rfl, rfl⟩

namespace BencodeText

inductive Canonical : BencodeText → Prop
  | string (s : StringText) (h : s.Canonical) : Canonical (.string s)
  | int (n : IntText) (h : n.Canonical) : Canonical (.int n)
  | list (ts : List BencodeText) (h : ∀ t ∈ ts, Canonical t) : Canonical (.list ts)
  | dict (es : List (StringText × BencodeText)) (hkeys : ∀ e ∈ es, e.1.Canonical)
      (hsorted : DictSorted (entries es)) (h : ∀ e ∈ es, Canonical e.2) : Canonical (.dict es)

theorem ofValueList_eq_map (vs : List BencodeValue) : ofValueList vs = vs.map ofValue := by
  induction vs with
  | nil => rfl
  | cons v vs ih => rw [ofValueList, ih, List.map_cons]

theorem ofValueDict_eq_map (es : DictMap) :
    ofValueDict es = es.map fun e => (StringText.ofString e.1, ofValue e.2) := by
  induction es with
  | nil => rfl
  | cons e es ih =>
      obtain ⟨k, v⟩ := e
      rw [ofValueDict, ih, List.map_cons]

theorem Canonical.ofValue_value {t : BencodeText} (h : t.Canonical) : ofValue t.value = t := by
  induction h with
  | string s h => rw [value, ofValue, StringText.canonical_iff.mp h]
  | int n h => rw [value, ofValue, IntText.canonical_iff.mp h]
  | list ts _ ih =>
      rw [value, ofValue, valueList_eq_map, ofValueList_eq_map, List.map_map]
      congr 1
      exact (List.map_congr_left ih).trans (List.map_id' ts)
  | dict es hkeys hsorted _ ih =>
      have hfold : (entries es).foldl insertToDict [] = entries es :=
        foldl_multimapInsert ByteString.Lt hsorted
      rw [value, ofValue, hfold, ofValueDict_eq_map, entries_eq_map, List.map_map]
      congr 1
      refine (List.map_congr_left fun e he => ?_).trans (List.map_id' es)
      exact Prod.ext (StringText.canonical_iff.mp (hkeys e he)) (ih e he)

/-- The entries of the value of a dictionary are those of the text. -/
theorem mem_value_dict {es : List (StringText × BencodeText)} {e : ByteString × BencodeValue}
    (he : e ∈ (entries es).foldl insertToDict []) : ∃ e' ∈ es, (e'.1.content, e'.2.value) = e := by
  have hmem := (foldl_multimapInsert_perm ByteString.Lt [] (entries es)).mem_iff.mp he
  rw [List.nil_append, entries_eq_map] at hmem
  exact List.mem_map.mp hmem

theorem noNull_value (t : BencodeText) : t.value.noNull = true := by
  induction t using BencodeText.induct with
  | string s => rfl
  | int n => rfl
  | list ts ih =>
      rw [value, noNull, valueList_eq_map, noNullList_iff]
      intro v hv
      obtain ⟨t, ht, rfl⟩ := List.mem_map.mp hv
      exact ih t ht
  | dict es ih =>
      rw [value, noNull, noNullDict_iff]
      intro e he
      obtain ⟨e', he', rfl⟩ := mem_value_dict he
      exact ih e' he'

/-! ### Texts are unambiguous -/

theorem spell_string_append_inj {s t : StringText} {r r' : Bytes}
    (h : s.spell ++ r = t.spell ++ r') : s = t ∧ r = r' := by
  simp only [StringText.spell, List.append_assoc, List.cons_append] at h
  have hcolon : ∀ (rest : Bytes) b, (':'.toUInt8 :: rest).head? = some b → isDigit b = false := by
    rintro rest b hb
    cases hb
    decide
  have hdigits : s.digits = t.digits := by
    rw [← takeWhile_isDigit_append s.isDigit_digits (hcolon (s.content.bytes ++ r)), h,
      takeWhile_isDigit_append t.isDigit_digits (hcolon _)]
  have hlen : s.content.bytes.length = t.content.bytes.length := by
    rw [← s.numeral_digits, ← t.numeral_digits, hdigits]
  rw [hdigits] at h
  have hrest := (List.cons.inj (List.append_cancel_left h)).2
  obtain ⟨hcontent, hr⟩ := List.append_inj hrest hlen
  exact ⟨StringText.ext hdigits (ByteString.ext hcontent), hr⟩

theorem spell_int_append_inj {m n : IntText} {r r' : Bytes}
    (h : m.spell ++ r = n.spell ++ r') : m = n ∧ r = r' := by
  have hend : ∀ (rest : Bytes) b, ('e'.toUInt8 :: rest).head? = some b → isDigit b = false := by
    rintro rest b hb
    cases hb
    decide
  have hsign : ∀ (k : IntText) (rest : Bytes), k.digits ++ rest ≠ [] ∧
      (k.digits ++ rest).head? ≠ some '-'.toUInt8 := by
    intro k rest
    obtain ⟨d, ds, hds⟩ := List.exists_cons_of_ne_nil k.digits_ne_nil
    have hd := k.isDigit_digits d (hds ▸ List.mem_cons_self)
    refine ⟨by simp [hds], ?_⟩
    rw [hds, List.cons_append, List.head?_cons, ne_eq, Option.some.injEq]
    exact IfStream.digit_ne hd (by decide)
  simp only [IntText.spell, IntText.sign, List.cons_append, List.append_assoc, List.nil_append,
    List.cons.injEq, true_and] at h
  have key : m.negative = n.negative ∧
      m.digits ++ 'e'.toUInt8 :: r = n.digits ++ 'e'.toUInt8 :: r' := by
    cases hm : m.negative <;> cases hn : n.negative <;>
      simp only [hm, hn, if_true, Bool.false_eq_true, if_false, List.nil_append, List.cons_append,
        List.cons.injEq, true_and] at h
    · exact ⟨rfl, h⟩
    · exact absurd (by rw [h]; rfl) (hsign m ('e'.toUInt8 :: r)).2
    · exact absurd (by rw [← h]; rfl) (hsign n ('e'.toUInt8 :: r')).2
    · exact ⟨rfl, h⟩
  have hdigits : m.digits = n.digits := by
    rw [← takeWhile_isDigit_append m.isDigit_digits (hend r), key.2,
      takeWhile_isDigit_append n.isDigit_digits (hend r')]
  have hrest := key.2
  rw [hdigits] at hrest
  exact ⟨IntText.ext key.1 hdigits, (List.cons.inj (List.append_cancel_left hrest)).2⟩

/-- A spelling starts with a digit, `i`, `l` or `d`, as its kind says. -/
theorem string_head_ne (s : StringText) (r : Bytes) {c : UInt8} (rest : Bytes)
    (hc : isDigit c = false) : s.spell ++ r ≠ c :: rest := by
  intro h
  obtain ⟨d, ds, hds, hd⟩ := isDigit_head_string s
  rw [hds, List.cons_append, List.cons.injEq] at h
  rw [h.1, hc] at hd
  cases hd

theorem spell_append_ne_e (t : BencodeText) (r rest : Bytes) :
    t.spell ++ r ≠ 'e'.toUInt8 :: rest := by
  intro h
  obtain ⟨c, ds, hds, hc⟩ := spell_head t
  rw [hds, List.cons_append, List.cons.injEq] at h
  exact hc h.1

/-- The elements of a list are told apart when each of them is. -/
theorem spellList_append_inj {ts : List BencodeText}
    (ih : ∀ t ∈ ts, ∀ {t' : BencodeText} {r r' : Bytes},
      t.spell ++ r = t'.spell ++ r' → t = t' ∧ r = r') :
    ∀ {ts' : List BencodeText} {r r' : Bytes},
      spellList ts ++ 'e'.toUInt8 :: r = spellList ts' ++ 'e'.toUInt8 :: r' →
      ts = ts' ∧ r = r' := by
  induction ts with
  | nil =>
      intro ts' r r' h
      cases ts' with
      | nil => exact ⟨rfl, (List.cons.inj h).2⟩
      | cons t' ts' =>
          rw [spellList, spellList, List.append_assoc] at h
          exact absurd h.symm (spell_append_ne_e t' _ _)
  | cons t ts ihts =>
      intro ts' r r' h
      cases ts' with
      | nil =>
          rw [spellList, spellList, List.append_assoc] at h
          exact absurd h (spell_append_ne_e t _ _)
      | cons t' ts' =>
          rw [spellList, spellList, List.append_assoc, List.append_assoc] at h
          obtain ⟨rfl, hrest⟩ := ih t List.mem_cons_self h
          obtain ⟨rfl, hr⟩ := ihts (fun u hu => ih u (List.mem_cons_of_mem t hu)) hrest
          exact ⟨rfl, hr⟩

/-- The entries of a dictionary are told apart when each of their values is. -/
theorem spellDict_append_inj {es : List (StringText × BencodeText)}
    (ih : ∀ e ∈ es, ∀ {t' : BencodeText} {r r' : Bytes},
      e.2.spell ++ r = t'.spell ++ r' → e.2 = t' ∧ r = r') :
    ∀ {es' : List (StringText × BencodeText)} {r r' : Bytes},
      spellDict es ++ 'e'.toUInt8 :: r = spellDict es' ++ 'e'.toUInt8 :: r' →
      es = es' ∧ r = r' := by
  induction es with
  | nil =>
      intro es' r r' h
      cases es' with
      | nil => exact ⟨rfl, (List.cons.inj h).2⟩
      | cons e' es' =>
          rw [spellDict, spellDict, List.append_assoc, List.append_assoc] at h
          exact absurd h.symm (string_head_ne e'.1 _ _ (by decide))
  | cons e es ihes =>
      intro es' r r' h
      cases es' with
      | nil =>
          rw [spellDict, spellDict, List.append_assoc, List.append_assoc] at h
          exact absurd h (string_head_ne e.1 _ _ (by decide))
      | cons e' es' =>
          obtain ⟨k, v⟩ := e
          obtain ⟨k', v'⟩ := e'
          simp only [spellDict, List.append_assoc] at h
          obtain ⟨rfl, hvalue⟩ := spell_string_append_inj h
          obtain ⟨rfl, hrest⟩ := ih (k, v) List.mem_cons_self hvalue
          obtain ⟨rfl, hr⟩ := ihes (fun u hu => ih u (List.mem_cons_of_mem _ hu)) hrest
          exact ⟨rfl, hr⟩

theorem spell_append_inj (t : BencodeText) :
    ∀ {t' : BencodeText} {r r' : Bytes}, t.spell ++ r = t'.spell ++ r' → t = t' ∧ r = r' := by
  -- texts of different kinds differ in their first byte
  induction t using BencodeText.induct with
  | string s =>
      intro t' r r' h
      cases t' with
      | string s' =>
          obtain ⟨rfl, hr⟩ := spell_string_append_inj h
          exact ⟨rfl, hr⟩
      | int n => exact absurd h (string_head_ne s r _ (by decide))
      | list ts => exact absurd h (string_head_ne s r _ (by decide))
      | dict es => exact absurd h (string_head_ne s r _ (by decide))
  | int n =>
      intro t' r r' h
      cases t' with
      | string s => exact absurd h.symm (string_head_ne s r' _ (by decide))
      | int n' =>
          obtain ⟨rfl, hr⟩ := spell_int_append_inj h
          exact ⟨rfl, hr⟩
      | list ts => exact absurd (List.cons.inj h).1 (by decide)
      | dict es => exact absurd (List.cons.inj h).1 (by decide)
  | list ts ih =>
      intro t' r r' h
      cases t' with
      | string s => exact absurd h.symm (string_head_ne s r' _ (by decide))
      | int n => exact absurd (List.cons.inj h).1 (by decide)
      | list ts' =>
          simp only [spell, List.cons_append, List.append_assoc, List.nil_append,
            List.cons.injEq, true_and] at h
          obtain ⟨rfl, hr⟩ := spellList_append_inj ih h
          exact ⟨rfl, hr⟩
      | dict es => exact absurd (List.cons.inj h).1 (by decide)
  | dict es ih =>
      intro t' r r' h
      cases t' with
      | string s => exact absurd h.symm (string_head_ne s r' _ (by decide))
      | int n => exact absurd (List.cons.inj h).1 (by decide)
      | list ts => exact absurd (List.cons.inj h).1 (by decide)
      | dict es' =>
          simp only [spell, List.cons_append, List.append_assoc, List.nil_append,
            List.cons.injEq, true_and] at h
          obtain ⟨rfl, hr⟩ := spellDict_append_inj ih h
          exact ⟨rfl, hr⟩

/-! ### Canonical texts are the ones reproduced -/

theorem byteString_lt_asymm (a b : ByteString) (h : a.Lt b) : ¬ b.Lt a :=
  List.lt_asymm (α := UInt8) h

theorem byteString_not_lt_trans (a b c : ByteString) (hab : ¬ b.Lt a) (hbc : ¬ c.Lt b) :
    ¬ c.Lt a :=
  List.not_lt.mpr (List.le_trans (α := UInt8) (List.not_lt.mp hab) (List.not_lt.mp hbc))

theorem wellFormed_value (t : BencodeText) : t.value.WellFormed := by
  induction t using BencodeText.induct with
  | string s => exact .bencodeString _
  | int n => exact .bencodeInt _
  | list ts ih =>
      rw [value, valueList_eq_map]
      refine .bencodeList _ fun v hv => ?_
      obtain ⟨t, ht, rfl⟩ := List.mem_map.mp hv
      exact ih t ht
  | dict es ih =>
      have hsorted : ∀ (new m : DictMap), DictSorted m → DictSorted (new.foldl insertToDict m) := by
        intro new
        induction new with
        | nil => exact fun m h => h
        | cons e new ihnew =>
            exact fun m h => ihnew _ (multimapSorted_insert ByteString.Lt byteString_lt_asymm
              byteString_not_lt_trans h)
      rw [value]
      refine .bencodeDict _ (hsorted _ _ List.Pairwise.nil) fun e he => ?_
      obtain ⟨e', he', rfl⟩ := mem_value_dict he
      exact ih e' he'

theorem canonical_ofString (s : ByteString) : (StringText.ofString s).Canonical := rfl

theorem canonical_ofValue {v : BencodeValue} (h : v.WellFormed) : (ofValue v).Canonical := by
  induction h with
  | bencodeString s => exact .string _ rfl
  | bencodeInt n =>
      have hnumber : (IntText.ofInt64 n).number = n.toInt := signedNumeral_decimal n.toInt
      refine .int _ (IntText.canonical_iff.mpr ?_)
      rw [hnumber, Int64.ofInt_toInt]
  | bencodeList vs _ ih =>
      rw [ofValue, ofValueList_eq_map]
      refine .list _ fun t ht => ?_
      obtain ⟨v, hv, rfl⟩ := List.mem_map.mp ht
      exact ih v hv
  | bencodeDict es hsorted hes ih =>
      have hentries : entries (ofValueDict es) = es := by
        rw [entries_eq_map, ofValueDict_eq_map, List.map_map]
        refine (List.map_congr_left fun e he => ?_).trans (List.map_id' es)
        exact Prod.ext rfl (value_ofValue (hes e he))
      rw [ofValue]
      refine .dict _ ?_ (hentries.symm ▸ hsorted) ?_ <;> rw [ofValueDict_eq_map]
      · intro t ht
        obtain ⟨e, -, rfl⟩ := List.mem_map.mp ht
        exact canonical_ofString e.1
      · intro t ht
        obtain ⟨e, he, rfl⟩ := List.mem_map.mp ht
        exact ih e he

/-- **Encoding the value of a text gives the text back exactly when it is
canonical**, where no key holds a NUL byte. -/
theorem crawl_value_eq_spell_iff (t : BencodeText) (hkeys : t.value.KeysNulFree) :
    t.value.crawl = t.spell ↔ t.Canonical := by
  rw [← spell_ofValue (noNull_value t) hkeys]
  constructor
  · intro h
    have heq : ofValue t.value = t := by
      have happend : (ofValue t.value).spell ++ [] = t.spell ++ [] := by rw [h]
      exact (spell_append_inj (ofValue t.value) happend).1
    rw [← heq]
    exact canonical_ofValue (wellFormed_value t)
  · intro h
    rw [h.ofValue_value]

end BencodeText

end Daobell
