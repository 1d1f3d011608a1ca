import Daobell.Bencode.Value
import Daobell.Lib.Numeral

/-!
The bencode encoder, `bencode_encoder.cpp`. The encoder visits the value and
appends to `encoded_str_`; here each `crawl` gives the bytes it appends.
-/

namespace Daobell

open Lib

/-- `std::to_string` of a signed number. -/
def toStringInt (n : ℤ) : Bytes :=
  if n < 0 then '-'.toUInt8 :: decimal n.natAbs else decimal n.natAbs

namespace BencodeValue

mutual

def crawl : BencodeValue → Bytes
  | .null => []
  | .bencodeString s => decimal s.bytes.length ++ ':'.toUInt8 :: s.bytes
  | .bencodeInt n => 'i'.toUInt8 :: toStringInt n.toInt ++ ['e'.toUInt8]
  | .bencodeList vs => 'l'.toUInt8 :: crawlList vs ++ ['e'.toUInt8]
  | .bencodeDict es => 'd'.toUInt8 :: crawlDict es ++ ['e'.toUInt8]

def crawlList : List BencodeValue → Bytes
  | [] => []
  | v :: vs => crawl v ++ crawlList vs

/-- The length is the key's, the bytes are what `c_str()` shows of it. -/
def crawlDict : DictMap → Bytes
  | [] => []
  | (k, v) :: es =>
      decimal k.bytes.length ++ ':'.toUInt8 :: cStr k.bytes ++ crawl v ++ crawlDict es

end

/-- `bencode_encoder::encode` followed by `get_value`. An empty pointer encodes
as nothing; one inside a list or a dictionary is dereferenced. -/
def encode : BencodeValue → Except Crash Bytes
  | .null => .ok []
  | v => if v.noNull then .ok v.crawl else .error .nullDereference

theorem encode_of_noNull {v : BencodeValue} (h : v.noNull = true) :
    v.encode = .ok v.crawl := by
  cases v with
  | null => rfl
  | _ => simp only [encode, h, if_true]

theorem encode_of_wellFormed {v : BencodeValue} (h : v.WellFormed) :
    v.encode = .ok v.crawl :=
  encode_of_noNull h.noNull

end BencodeValue

end Daobell
