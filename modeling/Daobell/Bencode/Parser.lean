import Daobell.Bencode.Value
import Daobell.Bencode.Stream

/-!
The two bencode parsers, `bencode_parser.cpp`: one on a file stream, one on a
string in memory. Both are recursive without a bound, and their loops may go
round forever, so both are translated with a bound on the depth of the calls
and rounds; a bound that was too small shows as `outOfFuel`, never as a value.
-/

namespace Daobell

open Lib

namespace BencodeParser

/-- The string in a `std::vector<char>` of `length` zero bytes whose head was
overwritten. A vector of more than `PTRDIFF_MAX` bytes cannot be made. -/
def stringOfVector (length : ℕ) (bytes : Bytes) : Except Stop BencodeValue :=
  if h : length < 2 ^ 63 ∧ bytes.length ≤ length then
    .ok (.bencodeString ⟨bytes ++ List.replicate (length - bytes.length) 0, by simp; omega⟩)
  else .error (.crash .lengthError)

/-! ### The parser on a file stream -/

/-- `case '0'` to `case '9'`, after the digit was put back. -/
def parseStringIfs (ifs : IfStream) : Except Stop (BencodeValue × IfStream) := do
  let (length, ifs) := ifs.extractSize 0
  let ifs := ifs.get.2
  let (bytes, ifs) := ifs.read length
  let value ← stringOfVector length bytes
  return (value, ifs)

/-- `case 'i'`. When the stream has come to its end, nothing is assigned to
`number`, and it keeps the value `old` that it happens to have. -/
def parseIntIfs (old : Int64) (ifs : IfStream) : Except Stop (BencodeValue × IfStream) :=
  match ifs.extractLongLong with
  | (none, ifs) => .ok (.bencodeInt old, ifs.get.2)
  | (some number, ifs) => .ok (.bencodeInt (Int64.ofInt number), ifs.get.2)

mutual

def parseIfs (old : Int64) : ℕ → IfStream → Except Stop (BencodeValue × IfStream)
  | 0, _ => .error .outOfFuel
  | fuel + 1, ifs =>
      match ifs.get with
      | (none, ifs) => .ok (.null, ifs)
      | (some ch, ifs) =>
          if isDigit ch then parseStringIfs (ifs.putback ch)
          else if ch = 'i'.toUInt8 then parseIntIfs old ifs
          else if ch = 'l'.toUInt8 then do
            let (bl, ifs) ← parseListIfs old fuel ifs []
            return (.bencodeList bl, ifs.get.2)
          else if ch = 'd'.toUInt8 then do
            let (bd, ifs) ← parseDictIfs old fuel ifs []
            return (.bencodeDict bd, ifs.get.2)
          else .ok (.null, ifs)

/-- The loop of `case 'l'`; `bl` is the list so far. -/
def parseListIfs (old : Int64) : ℕ → IfStream → List BencodeValue →
    Except Stop (List BencodeValue × IfStream)
  | 0, _, _ => .error .outOfFuel
  | fuel + 1, ifs, bl =>
      match ifs.peek with
      | (c, ifs) =>
          if c = some 'e'.toUInt8 then .ok (bl, ifs)
          else do
            let (value, ifs) ← parseIfs old fuel ifs
            parseListIfs old fuel ifs (bl ++ [value])

/-- The loop of `case 'd'`; `bd` is the dictionary so far. The key is cast to a
string and dereferenced without a test. -/
def parseDictIfs (old : Int64) : ℕ → IfStream → DictMap → Except Stop (DictMap × IfStream)
  | 0, _, _ => .error .outOfFuel
  | fuel + 1, ifs, bd =>
      match ifs.peek with
      | (c, ifs) =>
          if c = some 'e'.toUInt8 then .ok (bd, ifs)
          else do
            let (key, ifs) ← parseIfs old fuel ifs
            match key.asString with
            | none => .error (.crash .nullDereference)
            | some key => do
                let (value, ifs) ← parseIfs old fuel ifs
                parseDictIfs old fuel ifs (BencodeValue.insertToDict bd (key, value))

end

/-! ### The parser on a string in memory

The bytes of the string are `buf`, pointers into it are offsets, and reading at
an offset behind the last byte stops the program. -/

/-- `case '0'` to `case '9'`, for the number at `p`. -/
def parseStringMem (buf : Bytes) (p : ℕ) : Except Stop (BencodeValue × ℕ) :=
  match strtol (buf.drop p) with
  | none => .error (.crash .outOfRange)
  | some (length, used) => do
      let endp := p + used + 1
      if endp + length.toNat ≤ buf.length then
        let value ← stringOfVector length.toNat ((buf.drop endp).take length.toNat)
        return (value, endp + length.toNat)
      else .error (.crash .outOfRange)

/-- `case 'i'`, for the number at `p`. The number goes through a `size_t`
before it becomes a `long long` again. -/
def parseIntMem (buf : Bytes) (p : ℕ) : Except Stop (BencodeValue × ℕ) :=
  match strtol (buf.drop p) with
  | none => .error (.crash .outOfRange)
  | some (number, used) => .ok (.bencodeInt (Int64.ofInt (number % 2 ^ 64)), p + used + 1)

mutual

/-- `bencode_parser::parse(const char *, const char **)`: the value, and the
offset left in `*end_p`. -/
def parseMem : ℕ → Bytes → ℕ → Except Stop (BencodeValue × ℕ)
  | 0, _, _ => .error .outOfFuel
  | fuel + 1, buf, p =>
      match buf[p]? with
      | none => .error (.crash .outOfRange)
      | some ch =>
          if isDigit ch then parseStringMem buf p
          else if ch = 'i'.toUInt8 then parseIntMem buf (p + 1)
          else if ch = 'l'.toUInt8 then do
            let (bl, endp) ← parseListMem fuel buf (p + 1) []
            return (.bencodeList bl, endp + 1)
          else if ch = 'd'.toUInt8 then do
            let (bd, endp) ← parseDictMem fuel buf (p + 1) []
            return (.bencodeDict bd, endp + 1)
          else .ok (.null, p)

def parseListMem : ℕ → Bytes → ℕ → List BencodeValue →
    Except Stop (List BencodeValue × ℕ)
  | 0, _, _, _ => .error .outOfFuel
  | fuel + 1, buf, p, bl =>
      match buf[p]? with
      | none => .error (.crash .outOfRange)
      | some c =>
          if c = 'e'.toUInt8 then .ok (bl, p)
          else do
            let (value, endp) ← parseMem fuel buf p
            parseListMem fuel buf endp (bl ++ [value])

def parseDictMem : ℕ → Bytes → ℕ → DictMap → Except Stop (DictMap × ℕ)
  | 0, _, _, _ => .error .outOfFuel
  | fuel + 1, buf, p, bd =>
      match buf[p]? with
      | none => .error (.crash .outOfRange)
      | some c =>
          if c = 'e'.toUInt8 then .ok (bd, p)
          else do
            let (key, endp) ← parseMem fuel buf p
            match key.asString with
            | none => .error (.crash .nullDereference)
            | some key => do
                let (value, endp) ← parseMem fuel buf endp
                parseDictMem fuel buf endp (BencodeValue.insertToDict bd (key, value))

end

end BencodeParser

end Daobell
