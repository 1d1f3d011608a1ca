import Daobell.Bencode.Canonical

/-!
Whether an encoding can be told apart. The encoder writes the length of a key
and then what `c_str()` shows of it, so behind the length of a key with a NUL
byte come fewer bytes than it says, and different values can be encoded alike.
Where no key has one, the encoding of a value is the beginning of no other.
-/

namespace Daobell

open Lib BencodeValue BencodeText

/-- What one statement of the encoder appends: the length of a string or a key
with its colon, or bytes. -/
inductive Appended
  | length (s : ByteString)
  | bytes (bs : Bytes)

def Appended.written : Appended → Bytes
  | .length s => decimal s.bytes.length ++ [':'.toUInt8]
  | .bytes bs => bs

def written (as : List Appended) : Bytes := as.flatMap Appended.written

theorem written_append (as bs : List Appended) : written (as ++ bs) = written as ++ written bs :=
  List.flatMap_append

theorem written_cons (a : Appended) (as : List Appended) :
    written (a :: as) = a.written ++ written as := List.flatMap_cons

namespace BencodeValue

mutual

/-- What `bencode_encoder::crawl` appends for a value, statement by statement. -/
def appends : BencodeValue → List Appended
  | .null => []
  | .bencodeString s => [.length s, .bytes s.bytes]
  | .bencodeInt n => [.bytes ('i'.toUInt8 :: toStringInt n.toInt ++ ['e'.toUInt8])]
  | .bencodeList vs => .bytes ['l'.toUInt8] :: appendsList vs ++ [.bytes ['e'.toUInt8]]
  | .bencodeDict es => .bytes ['d'.toUInt8] :: appendsDict es ++ [.bytes ['e'.toUInt8]]

def appendsList : List BencodeValue → List Appended
  | [] => []
  | v :: vs => appends v ++ appendsList vs

def appendsDict : DictMap → List Appended
  | [] => []
  | (k, v) :: es => .length k :: .bytes (cStr k.bytes) :: appends v ++ appendsDict es

end

mutual

theorem written_appends : ∀ v : BencodeValue, written v.appends = v.crawl
  | .null => rfl
  | .bencodeString s => by
      simp [appends, crawl, written, Appended.written]
  | .bencodeInt n => by
      simp [appends, crawl, written, Appended.written]
  | .bencodeList vs => by
      rw [appends, crawl, written_append, written_cons, written_appendsList vs]
      rfl
  | .bencodeDict es => by
      rw [appends, crawl, written_append, written_cons, written_appendsDict es]
      rfl

theorem written_appendsList : ∀ vs : List BencodeValue, written (appendsList vs) = crawlList vs
  | [] => rfl
  | v :: vs => by
      rw [appendsList, crawlList, written_append, written_appends v, written_appendsList vs]

theorem written_appendsDict : ∀ es : DictMap, written (appendsDict es) = crawlDict es
  | [] => rfl
  | (k, v) :: es => by
      rw [appendsDict, crawlDict, written_append, written_cons, written_cons, written_appends v,
        written_appendsDict es]
      simp [Appended.written]

end

end BencodeValue

/-! ### Lengths -/

/-- Behind every length come the bytes of the string or the key that it was
written for. -/
def LengthsExact (as : List Appended) : Prop :=
  ∀ s rest, .length s :: rest <:+ as → s.bytes <+: written rest

theorem lengthsExact_nil : LengthsExact [] := by
  intro s rest h
  cases List.suffix_nil.mp h

theorem lengthsExact_bytes {bs : Bytes} {as : List Appended} :
    LengthsExact (.bytes bs :: as) ↔ LengthsExact as := by
  constructor
  · exact fun h s rest hsuffix => h s rest (hsuffix.trans (List.suffix_cons _ _))
  · intro h s rest hsuffix
    rcases List.suffix_cons_iff.mp hsuffix with heq | hsuffix
    · cases heq
    · exact h s rest hsuffix

theorem lengthsExact_length {s : ByteString} {as : List Appended} :
    LengthsExact (.length s :: as) ↔ s.bytes <+: written as ∧ LengthsExact as := by
  constructor
  · exact fun h => ⟨h s as List.suffix_rfl,
      fun t rest hsuffix => h t rest (hsuffix.trans (List.suffix_cons _ _))⟩
  · rintro ⟨hs, h⟩ t rest hsuffix
    rcases List.suffix_cons_iff.mp hsuffix with heq | hsuffix
    · cases heq
      exact hs
    · exact h t rest hsuffix

/-- What `c_str()` shows is all of a string unless the next byte is a NUL byte. -/
theorem prefix_cStr_append_iff {s r : Bytes} (hr : r.head? ≠ some 0) :
    s <+: cStr s ++ r ↔ (0 : UInt8) ∉ s := by
  constructor
  · intro h hmem
    have hrest : s.dropWhile (· ≠ 0) <+: r := by
      refine (List.prefix_append_right_inj (s.takeWhile (· ≠ 0))).mp ?_
      rw [List.takeWhile_append_dropWhile]
      exact h
    have hne : s.dropWhile (· ≠ 0) ≠ [] := by
      rw [ne_eq, List.dropWhile_eq_nil_iff]
      exact fun hall => absurd (hall 0 hmem) (by decide)
    have hhead : (s.dropWhile (· ≠ 0)).head hne = 0 := by
      simpa using List.head_dropWhile_not _ hne
    obtain ⟨t, rfl⟩ := hrest
    apply hr
    rw [List.head?_append, List.head?_eq_some_head hne, hhead, Option.some_or]
  · intro h
    rw [cStr_eq_self h]
    exact List.prefix_append s r

namespace BencodeValue

theorem keysNulFree_bencodeList_iff {vs : List BencodeValue} :
    (bencodeList vs).KeysNulFree ↔ ∀ v ∈ vs, v.KeysNulFree := by
  constructor
  · rintro ⟨⟩
    assumption
  · exact .bencodeList vs

theorem keysNulFree_bencodeDict_iff {es : DictMap} :
    (bencodeDict es).KeysNulFree ↔
      (∀ e ∈ es, (0 : UInt8) ∉ e.1.bytes) ∧ ∀ e ∈ es, e.2.KeysNulFree := by
  constructor
  · rintro ⟨⟩
    exact ⟨‹_›, ‹_›⟩
  · exact fun h => .bencodeDict es h.1 h.2

theorem crawl_head?_ne {v : BencodeValue} (hnull : v.noNull = true) (r : Bytes) :
    (v.crawl ++ r).head? ≠ some 0 := by
  cases v with
  | null => cases hnull
  | bencodeString s =>
      obtain ⟨d, ds, hds⟩ := List.exists_cons_of_ne_nil (decimal_ne_nil s.bytes.length)
      have hd : isDigit d = true := isDigit_decimal (hds ▸ List.mem_cons_self)
      rw [crawl, hds]
      rintro ⟨⟩
      cases hd
  | bencodeInt n => exact fun h => absurd (Option.some.inj h) (by decide)
  | bencodeList vs => exact fun h => absurd (Option.some.inj h) (by decide)
  | bencodeDict es => exact fun h => absurd (Option.some.inj h) (by decide)

mutual

theorem lengthsExact_appends : ∀ v : BencodeValue, v.noNull = true → ∀ as : List Appended,
    (LengthsExact (v.appends ++ as) ↔ v.KeysNulFree ∧ LengthsExact as)
  | .null, hnull, _ => by cases hnull
  | .bencodeString s, _, as => by
      have hprefix : s.bytes <+: written (.bytes s.bytes :: as) := List.prefix_append _ _
      rw [appends, List.cons_append, List.singleton_append, lengthsExact_length, lengthsExact_bytes,
        iff_true_intro hprefix, iff_true_intro (KeysNulFree.bencodeString s)]
  | .bencodeInt n, _, as => by
      rw [appends, List.singleton_append, lengthsExact_bytes,
        iff_true_intro (KeysNulFree.bencodeInt n), true_and]
  | .bencodeList vs, hnull, as => by
      rw [appends, List.append_assoc, List.cons_append, lengthsExact_bytes,
        lengthsExact_appendsList vs hnull, List.singleton_append, lengthsExact_bytes,
        keysNulFree_bencodeList_iff]
  | .bencodeDict es, hnull, as => by
      rw [appends, List.append_assoc, List.cons_append, lengthsExact_bytes,
        lengthsExact_appendsDict es hnull, List.singleton_append, lengthsExact_bytes,
        keysNulFree_bencodeDict_iff]

theorem lengthsExact_appendsList : ∀ vs : List BencodeValue, noNullList vs = true →
    ∀ as : List Appended,
      (LengthsExact (appendsList vs ++ as) ↔ (∀ v ∈ vs, v.KeysNulFree) ∧ LengthsExact as)
  | [], _, as => by simp [appendsList]
  | v :: vs, hnull, as => by
      rw [noNullList, Bool.and_eq_true] at hnull
      rw [appendsList, List.append_assoc, lengthsExact_appends v hnull.1,
        lengthsExact_appendsList vs hnull.2, List.forall_mem_cons, and_assoc]

theorem lengthsExact_appendsDict : ∀ es : DictMap, noNullDict es = true →
    ∀ as : List Appended, (LengthsExact (appendsDict es ++ as) ↔
      ((∀ e ∈ es, (0 : UInt8) ∉ e.1.bytes) ∧ ∀ e ∈ es, e.2.KeysNulFree) ∧ LengthsExact as)
  | [], _, as => by simp [appendsDict]
  | (k, v) :: es, hnull, as => by
      rw [noNullDict, Bool.and_eq_true] at hnull
      have hkey : k.bytes <+: written (.bytes (cStr k.bytes) ::
          (v.appends ++ (appendsDict es ++ as))) ↔ (0 : UInt8) ∉ k.bytes := by
        rw [written_cons, written_append, written_appends]
        exact prefix_cStr_append_iff (crawl_head?_ne hnull.1 _)
      rw [appendsDict, List.append_assoc, List.cons_append, List.cons_append, lengthsExact_length,
        lengthsExact_bytes, hkey, lengthsExact_appends v hnull.1,
        lengthsExact_appendsDict es hnull.2, List.forall_mem_cons, List.forall_mem_cons]
      tauto

end

/-- Where no key holds a NUL byte, an encoding is the beginning of no other. -/
theorem crawl_append_inj {v w : BencodeValue} (hv : v.WellFormed) (hw : w.WellFormed)
    (hkeys : v.KeysNulFree) (hkeys' : w.KeysNulFree) {r r' : Bytes}
    (h : v.crawl ++ r = w.crawl ++ r') : v = w ∧ r = r' := by
  rw [← spell_ofValue hv.noNull hkeys, ← spell_ofValue hw.noNull hkeys'] at h
  obtain ⟨heq, hr⟩ := spell_append_inj (ofValue v) h
  rw [← value_ofValue hv, ← value_ofValue hw, heq]
  exact ⟨rfl, hr⟩

end BencodeValue

/-- The encodings of two values hold exact lengths and tell them apart. -/
structure ToldApart (v w : BencodeTree) : Prop where
  lengthsExact : LengthsExact v.value.appends
  lengthsExact' : LengthsExact w.value.appends
  injective : v.value.encode = w.value.encode → v = w

/-- **Which encodings can be told apart.** Every length in the encodings of two
values is exact and the values are equal if the encodings are, if and only if no
key in them holds a NUL byte. -/
theorem toldApart_iff (v w : BencodeTree) :
    ToldApart v w ↔ v.value.KeysNulFree ∧ w.value.KeysNulFree := by
  have hexact : ∀ u : BencodeTree, LengthsExact u.value.appends ↔ u.value.KeysNulFree := by
    intro u
    have h := lengthsExact_appends u.value u.wellFormed.noNull []
    rwa [List.append_nil, and_iff_left lengthsExact_nil] at h
  constructor
  · exact fun h => ⟨(hexact v).mp h.lengthsExact, (hexact w).mp h.lengthsExact'⟩
  · rintro ⟨hv, hw⟩
    refine ⟨(hexact v).mpr hv, (hexact w).mpr hw, fun h => ?_⟩
    rw [encode_of_wellFormed v.wellFormed, encode_of_wellFormed w.wellFormed,
      Except.ok.injEq] at h
    obtain ⟨value, hvalue⟩ := v
    obtain ⟨value', hvalue'⟩ := w
    obtain ⟨rfl, -⟩ := crawl_append_inj hvalue hvalue' hv hw (congrArg (· ++ []) h)
    rfl

/-- `8:a2:bb1:c` and a number. -/
def longKey : BencodeTree where
  value := .bencodeDict [(⟨bytesOf "a2:bb1:c", by decide⟩, .bencodeInt 1)]
  wellFormed := .bencodeDict _ (List.pairwise_singleton _ _)
    (List.forall_mem_singleton.mpr (.bencodeInt 1))

/-- A key of eight bytes, `a` and NUL bytes, under it `bb`; and under `c` a number. -/
def nulKey : BencodeTree where
  value := .bencodeDict
    [(⟨'a'.toUInt8 :: List.replicate 7 0, by decide⟩, .bencodeString ⟨bytesOf "bb", by decide⟩),
      (⟨bytesOf "c", by decide⟩, .bencodeInt 1)]
  wellFormed := .bencodeDict _ (List.pairwise_pair.mpr (by decide))
    (List.forall_mem_cons.mpr ⟨.bencodeString _, List.forall_mem_singleton.mpr (.bencodeInt 1)⟩)

/-- Both are encoded as `d8:a2:bb1:ci1ee`. -/
theorem encode_longKey_eq_nulKey :
    longKey.value.encode = nulKey.value.encode ∧ ¬ ToldApart longKey nulKey := by
  have hencode : longKey.value.encode = nulKey.value.encode := by decide +kernel
  refine ⟨hencode, fun h => ?_⟩
  have hvalue := congrArg BencodeTree.value (h.injective hencode)
  cases hvalue

end Daobell
