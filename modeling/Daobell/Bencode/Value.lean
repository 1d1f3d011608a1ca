import Daobell.Cxx
import Daobell.Lib.Multimap

/-!
Bencode values. The source's class hierarchy under `bencode_value_base` is one
inductive type; a `std::shared_ptr` to a value is a value, and the empty
pointer, which the parsers hand out for input they do not understand, is the
value `null`.
-/

namespace Daobell

open Lib

/-- The values of the `bencode_*` classes. A dictionary is the entry list of
its `std::multimap`. -/
inductive BencodeValue
  | null
  | bencodeString (value : ByteString)
  | bencodeInt (value : Int64)
  | bencodeList (value : List BencodeValue)
  | bencodeDict (value : List (ByteString × BencodeValue))

abbrev DictMap := List (ByteString × BencodeValue)

namespace BencodeValue

/-- Induction over a value: over the elements of a list and the values of a
dictionary. -/
@[elab_as_elim]
theorem induct {P : BencodeValue → Prop} (null : P .null)
    (bencodeString : ∀ s, P (.bencodeString s)) (bencodeInt : ∀ n, P (.bencodeInt n))
    (bencodeList : ∀ vs, (∀ v ∈ vs, P v) → P (.bencodeList vs))
    (bencodeDict : ∀ es : DictMap, (∀ e ∈ es, P e.2) → P (.bencodeDict es))
    (v : BencodeValue) : P v := by
  refine BencodeValue.rec (motive_1 := P) (motive_2 := fun vs => ∀ v ∈ vs, P v)
    (motive_3 := fun es => ∀ e ∈ es, P e.2) (motive_4 := fun e => P e.2)
    null bencodeString bencodeInt bencodeList bencodeDict ?_ ?_ ?_ ?_ ?_ v
  · simp
  · intro v vs hv hvs
    exact List.forall_mem_cons.mpr ⟨hv, hvs⟩
  · simp
  · intro e es he hes
    exact List.forall_mem_cons.mpr ⟨he, hes⟩
  · intro k v hv
    exact hv

def asString : BencodeValue → Option ByteString
  | .bencodeString s => some s
  | _ => none

def asInt : BencodeValue → Option Int64
  | .bencodeInt n => some n
  | _ => none

def asList : BencodeValue → Option (List BencodeValue)
  | .bencodeList vs => some vs
  | _ => none

def asDict : BencodeValue → Option DictMap
  | .bencodeDict es => some es
  | _ => none

/-- `bencode_dict::insert_to_dict`: `std::multimap::insert` puts an entry behind
the entries whose keys are not greater. -/
def insertToDict (es : DictMap) (e : ByteString × BencodeValue) : DictMap :=
  multimapInsert ByteString.Lt es e

/-- The entry list is one a `std::multimap` can hold. -/
def DictSorted (es : DictMap) : Prop := MultimapSorted ByteString.Lt es

mutual

def noNull : BencodeValue → Bool
  | .null => false
  | .bencodeString _ => true
  | .bencodeInt _ => true
  | .bencodeList vs => noNullList vs
  | .bencodeDict es => noNullDict es

def noNullList : List BencodeValue → Bool
  | [] => true
  | v :: vs => noNull v && noNullList vs

def noNullDict : DictMap → Bool
  | [] => true
  | (_, v) :: es => noNull v && noNullDict es

end

theorem noNullList_iff {vs : List BencodeValue} :
    noNullList vs = true ↔ ∀ v ∈ vs, noNull v = true := by
  induction vs with
  | nil => simp [noNullList]
  | cons v vs ih => simp [noNullList, ih]

theorem noNullDict_iff {es : DictMap} :
    noNullDict es = true ↔ ∀ e ∈ es, noNull e.2 = true := by
  induction es with
  | nil => simp [noNullDict]
  | cons e es ih =>
      obtain ⟨k, v⟩ := e
      simp [noNullDict, ih]

/-- A tree of values as the program builds it: without null pointers, every
dictionary a multimap. -/
inductive WellFormed : BencodeValue → Prop
  | bencodeString (s : ByteString) : WellFormed (.bencodeString s)
  | bencodeInt (n : Int64) : WellFormed (.bencodeInt n)
  | bencodeList (vs : List BencodeValue) (h : ∀ v ∈ vs, WellFormed v) :
      WellFormed (.bencodeList vs)
  | bencodeDict (es : DictMap) (hsorted : DictSorted es) (h : ∀ e ∈ es, WellFormed e.2) :
      WellFormed (.bencodeDict es)

theorem WellFormed.noNull {v : BencodeValue} (h : v.WellFormed) : v.noNull = true := by
  induction h with
  | bencodeString s => rfl
  | bencodeInt n => rfl
  | bencodeList vs _ ih => exact noNullList_iff.mpr ih
  | bencodeDict es _ _ ih => exact noNullDict_iff.mpr ih

/-- No key of a dictionary, at any depth, contains a NUL byte. -/
inductive KeysNulFree : BencodeValue → Prop
  | null : KeysNulFree .null
  | bencodeString (s : ByteString) : KeysNulFree (.bencodeString s)
  | bencodeInt (n : Int64) : KeysNulFree (.bencodeInt n)
  | bencodeList (vs : List BencodeValue) (h : ∀ v ∈ vs, KeysNulFree v) :
      KeysNulFree (.bencodeList vs)
  | bencodeDict (es : DictMap) (hkeys : ∀ e ∈ es, (0 : UInt8) ∉ e.1.bytes)
      (h : ∀ e ∈ es, KeysNulFree e.2) : KeysNulFree (.bencodeDict es)

end BencodeValue

def valuesOf (key : String) (dict : DictMap) : List BencodeValue :=
  (dict.filter fun e => e.1.bytes = bytesOf key).map Prod.snd

theorem valuesOf_cons_eq {key : String} {e : ByteString × BencodeValue}
    (h : e.1.bytes = bytesOf key) (dict : DictMap) :
    valuesOf key (e :: dict) = e.2 :: valuesOf key dict := by
  rw [valuesOf, List.filter_cons_of_pos (by simpa using h), List.map_cons, valuesOf]

theorem valuesOf_cons_ne {key : String} {e : ByteString × BencodeValue}
    (h : e.1.bytes ≠ bytesOf key) (dict : DictMap) :
    valuesOf key (e :: dict) = valuesOf key dict := by
  rw [valuesOf, List.filter_cons_of_neg (by simpa using h), valuesOf]

theorem valuesOf_append (key : String) (es es' : DictMap) :
    valuesOf key (es ++ es') = valuesOf key es ++ valuesOf key es' := by
  rw [valuesOf, List.filter_append, List.map_append, valuesOf, valuesOf]

theorem valuesOf_perm (key : String) {es es' : DictMap} (h : es.Perm es') :
    (valuesOf key es).Perm (valuesOf key es') := (h.filter _).map _

/-- A bencode value tree: a value that carries its well-formedness. -/
structure BencodeTree where
  value : BencodeValue
  wellFormed : value.WellFormed

end Daobell
