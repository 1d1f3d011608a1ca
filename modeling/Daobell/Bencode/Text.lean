import Daobell.Bencode.Encoder
import Daobell.Bencode.Stream

/-!
The bencode grammar as concrete syntax. A `BencodeText` records everything a
byte string of the grammar can choose: the order in which the entries of a
dictionary stand, and how each number is spelled. `spell` gives the byte
string, `value` the value a multimap makes of it, and `ofValue` the text the
encoder writes.
-/

namespace Daobell

open Lib BencodeValue

/-- `digits ':' bytes`, where the digits, leading zeros allowed, count the bytes. -/
structure StringText where
  digits : Bytes
  content : ByteString
  digits_ne_nil : digits ≠ []
  isDigit_digits : ∀ b ∈ digits, isDigit b = true
  numeral_digits : numeral digits = content.bytes.length

/-- `'i' ['-'] digits 'e'`, with a value in the signed 64-bit range. -/
structure IntText where
  negative : Bool
  digits : Bytes
  digits_ne_nil : digits ≠ []
  isDigit_digits : ∀ b ∈ digits, isDigit b = true
  le_value : -2 ^ 63 ≤ IfStream.signedNumeral negative digits
  value_lt : IfStream.signedNumeral negative digits < 2 ^ 63

inductive BencodeText
  | string (s : StringText)
  | int (n : IntText)
  | list (ts : List BencodeText)
  | dict (es : List (StringText × BencodeText))

def StringText.spell (s : StringText) : Bytes := s.digits ++ ':'.toUInt8 :: s.content.bytes

def IntText.sign (n : IntText) : Bytes := if n.negative then ['-'.toUInt8] else []

def IntText.spell (n : IntText) : Bytes := 'i'.toUInt8 :: (n.sign ++ n.digits ++ ['e'.toUInt8])

def IntText.number (n : IntText) : ℤ := IfStream.signedNumeral n.negative n.digits

namespace BencodeText

/-- Induction over a text: over the elements of a list and the values of a
dictionary. -/
@[elab_as_elim]
theorem induct {P : BencodeText → Prop} (string : ∀ s, P (.string s)) (int : ∀ n, P (.int n))
    (list : ∀ ts, (∀ t ∈ ts, P t) → P (.list ts))
    (dict : ∀ es : List (StringText × BencodeText), (∀ e ∈ es, P e.2) → P (.dict es))
    (t : BencodeText) : P t := by
  refine BencodeText.rec (motive_1 := P) (motive_2 := fun ts => ∀ t ∈ ts, P t)
    (motive_3 := fun es => ∀ e ∈ es, P e.2) (motive_4 := fun e => P e.2)
    string int list dict ?_ ?_ ?_ ?_ ?_ t
  · simp
  · intro t ts ht hts
    exact List.forall_mem_cons.mpr ⟨ht, hts⟩
  · simp
  · intro e es he hes
    exact List.forall_mem_cons.mpr ⟨he, hes⟩
  · intro k t ht
    exact ht

mutual

def spell : BencodeText → Bytes
  | .string s => s.spell
  | .int n => n.spell
  | .list ts => 'l'.toUInt8 :: spellList ts ++ ['e'.toUInt8]
  | .dict es => 'd'.toUInt8 :: spellDict es ++ ['e'.toUInt8]

def spellList : List BencodeText → Bytes
  | [] => []
  | t :: ts => spell t ++ spellList ts

def spellDict : List (StringText × BencodeText) → Bytes
  | [] => []
  | (k, t) :: es => k.spell ++ spell t ++ spellDict es

end

mutual

/-- The value of the text. Dictionary entries are inserted in the order in
which they stand. -/
def value : BencodeText → BencodeValue
  | .string s => .bencodeString s.content
  | .int n => .bencodeInt (Int64.ofInt n.number)
  | .list ts => .bencodeList (valueList ts)
  | .dict es => .bencodeDict ((entries es).foldl insertToDict [])

def valueList : List BencodeText → List BencodeValue
  | [] => []
  | t :: ts => value t :: valueList ts

def entries : List (StringText × BencodeText) → DictMap
  | [] => []
  | (k, t) :: es => (k.content, value t) :: entries es

end

mutual

/-- How deep the calls and rounds of a parser go on the text. -/
def rounds : BencodeText → ℕ
  | .string _ => 1
  | .int _ => 1
  | .list ts => roundsList ts + 1
  | .dict es => roundsDict es + 1

def roundsList : List BencodeText → ℕ
  | [] => 1
  | t :: ts => rounds t + roundsList ts + 1

def roundsDict : List (StringText × BencodeText) → ℕ
  | [] => 1
  | (_, t) :: es => rounds t + roundsDict es + 1

end

theorem valueList_eq_map (ts : List BencodeText) : valueList ts = ts.map value := by
  induction ts with
  | nil => rfl
  | cons t ts ih => rw [valueList, ih, List.map_cons]

theorem entries_eq_map (es : List (StringText × BencodeText)) :
    entries es = es.map fun e => (e.1.content, e.2.value) := by
  induction es with
  | nil => rfl
  | cons e es ih =>
      obtain ⟨k, t⟩ := e
      rw [entries, ih, List.map_cons]

theorem isDigit_head_string (s : StringText) :
    ∃ c rest, s.spell = c :: rest ∧ isDigit c = true := by
  cases h : s.digits with
  | nil => exact absurd h s.digits_ne_nil
  | cons d ds =>
      exact ⟨d, ds ++ ':'.toUInt8 :: s.content.bytes, by simp [StringText.spell, h],
        s.isDigit_digits d (h ▸ List.mem_cons_self)⟩

/-- No text starts with the byte that ends a list or a dictionary. -/
theorem spell_head (t : BencodeText) :
    ∃ c rest, t.spell = c :: rest ∧ c ≠ 'e'.toUInt8 := by
  cases t with
  | string s =>
      obtain ⟨c, rest, h, hc⟩ := isDigit_head_string s
      exact ⟨c, rest, by rw [spell, h], IfStream.digit_ne hc (by decide)⟩
  | int n => exact ⟨_, _, rfl, by decide⟩
  | list ts => exact ⟨_, _, rfl, by decide⟩
  | dict es => exact ⟨_, _, rfl, by decide⟩

theorem rounds_pos (t : BencodeText) : 0 < t.rounds := by
  cases t <;> simp [rounds]

end BencodeText

/-! ### The text the encoder writes -/

def StringText.ofString (s : ByteString) : StringText where
  digits := decimal s.bytes.length
  content := s
  digits_ne_nil := decimal_ne_nil _
  isDigit_digits := fun _ hb => isDigit_decimal hb
  numeral_digits := numeral_decimal _

theorem signedNumeral_decimal (n : ℤ) :
    IfStream.signedNumeral (decide (n < 0)) (decimal n.natAbs) = n := by
  simp only [IfStream.signedNumeral, numeral_decimal, decide_eq_true_eq]
  split <;> omega

def IntText.ofInt64 (n : Int64) : IntText where
  negative := decide (n.toInt < 0)
  digits := decimal n.toInt.natAbs
  digits_ne_nil := decimal_ne_nil _
  isDigit_digits := fun _ hb => isDigit_decimal hb
  le_value := by
    rw [signedNumeral_decimal]
    exact n.le_toInt
  value_lt := by
    rw [signedNumeral_decimal]
    exact n.toInt_lt

namespace BencodeText

mutual

/-- The text the encoder writes for a value. A null pointer has no text; it is
given one that is never used. -/
def ofValue : BencodeValue → BencodeText
  | .null => .list []
  | .bencodeString s => .string (.ofString s)
  | .bencodeInt n => .int (.ofInt64 n)
  | .bencodeList vs => .list (ofValueList vs)
  | .bencodeDict es => .dict (ofValueDict es)

def ofValueList : List BencodeValue → List BencodeText
  | [] => []
  | v :: vs => ofValue v :: ofValueList vs

def ofValueDict : DictMap → List (StringText × BencodeText)
  | [] => []
  | (k, v) :: es => (.ofString k, ofValue v) :: ofValueDict es

end

theorem spell_ofInt64 (n : Int64) :
    (IntText.ofInt64 n).spell = 'i'.toUInt8 :: toStringInt n.toInt ++ ['e'.toUInt8] := by
  simp only [IntText.spell, IntText.sign, IntText.ofInt64, toStringInt, decide_eq_true_eq]
  split <;> simp

/-- The encoder writes the text of the value, as long as no key is cut short by
a NUL byte. -/
theorem spell_ofValue {v : BencodeValue} (hnull : v.noNull = true) (hkeys : v.KeysNulFree) :
    (ofValue v).spell = v.crawl := by
  induction v using BencodeValue.induct with
  | null => simp [noNull] at hnull
  | bencodeString s => rfl
  | bencodeInt n =>
      rw [ofValue, spell, crawl, spell_ofInt64]
  | bencodeList vs ih =>
      have hlist : ∀ ws, (∀ w ∈ ws, w ∈ vs) → spellList (ofValueList ws) = crawlList ws := by
        intro ws hws
        induction ws with
        | nil => rfl
        | cons w ws ihws =>
            have hw := hws w List.mem_cons_self
            cases hkeys with
            | bencodeList _ hk =>
                rw [ofValueList, spellList, crawlList,
                  ih w hw (noNullList_iff.mp hnull w hw) (hk w hw),
                  ihws fun x hx => hws x (List.mem_cons_of_mem w hx)]
      rw [ofValue, spell, crawl, hlist vs fun _ h => h]
  | bencodeDict es ih =>
      have hdict : ∀ ws : DictMap, (∀ w ∈ ws, w ∈ es) →
          spellDict (ofValueDict ws) = crawlDict ws := by
        intro ws hws
        induction ws with
        | nil => rfl
        | cons w ws ihws =>
            have hw := hws w List.mem_cons_self
            cases hkeys with
            | bencodeDict _ hnul hk =>
                have hcstr : cStr w.1.bytes = w.1.bytes := cStr_eq_self (hnul w hw)
                have hv := ih w hw (noNullDict_iff.mp hnull w hw) (hk w hw)
                have hrest := ihws fun x hx => hws x (List.mem_cons_of_mem w hx)
                obtain ⟨k, v⟩ := w
                rw [ofValueDict, spellDict, crawlDict, hrest, hv, hcstr]
                rfl
      rw [ofValue, spell, crawl, hdict es fun _ h => h]

/-- The value of the text of a well-formed value is the value. -/
theorem value_ofValue {v : BencodeValue} (h : v.WellFormed) : (ofValue v).value = v := by
  induction h with
  | bencodeString s => rfl
  | bencodeInt n =>
      simp only [ofValue, value, IntText.number, IntText.ofInt64, signedNumeral_decimal,
        Int64.ofInt_toInt]
  | bencodeList vs _ ih =>
      have hlist : ∀ ws, (∀ w ∈ ws, w ∈ vs) → valueList (ofValueList ws) = ws := by
        intro ws hws
        induction ws with
        | nil => rfl
        | cons w ws ihws =>
            rw [ofValueList, valueList, ih w (hws w List.mem_cons_self),
              ihws fun x hx => hws x (List.mem_cons_of_mem w hx)]
      rw [ofValue, value, hlist vs fun _ h => h]
  | bencodeDict es hsorted _ ih =>
      have hdict : ∀ ws : DictMap, (∀ w ∈ ws, w ∈ es) → entries (ofValueDict ws) = ws := by
        intro ws hws
        induction ws with
        | nil => rfl
        | cons w ws ihws =>
            have hw := ih w (hws w List.mem_cons_self)
            have hrest := ihws fun x hx => hws x (List.mem_cons_of_mem w hx)
            obtain ⟨k, v⟩ := w
            rw [ofValueDict, entries, hrest, hw]
            rfl
      rw [ofValue, value, hdict es fun _ h => h]
      congr 1
      exact foldl_multimapInsert ByteString.Lt hsorted

end BencodeText

end Daobell
