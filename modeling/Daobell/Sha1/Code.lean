import Daobell.Cxx
import Daobell.Lib.BigEndian

/-!
SHA-1 as `sha1.cpp` computes it: a context with the chaining state, the bit
count in two 32-bit words and a buffer of 64 bytes that is never cleared. The
macros `R0` to `R4` rename the five working variables from call to call; a
round here rotates them instead, which after eighty rounds comes to the same.
-/

namespace Daobell

open Lib

/-- The five words of `state[5]`. -/
structure Sha1State where
  a : UInt32
  b : UInt32
  c : UInt32
  d : UInt32
  e : UInt32
  deriving DecidableEq

def rol (value bits : UInt32) : UInt32 := (value <<< bits) ||| (value >>> (32 - bits))

/-- `block->l`, after `blk0` has put the bytes of each word in order. -/
def blockWords (buffer : Bytes) : List UInt32 :=
  (List.range 16).map fun i => wordAt (buffer.drop (4 * i))

/-- `blk0(i)` for the first sixteen rounds, `blk(i)` after them: the word of
round `i`, and the sixteen words with that one put in its place. -/
def blk (i : ℕ) (l : List UInt32) : UInt32 × List UInt32 :=
  if i < 16 then (l.getD i 0, l)
  else
    let w := rol (l.getD ((i + 13) % 16) 0 ^^^ l.getD ((i + 8) % 16) 0 ^^^
      l.getD ((i + 2) % 16) 0 ^^^ l.getD (i % 16) 0) 1
    (w, l.set (i % 16) w)

/-- What round `i` adds besides the word and the rotated variable. -/
def roundTerm (i : ℕ) (w x y : UInt32) : UInt32 :=
  if i < 20 then ((w &&& (x ^^^ y)) ^^^ y) + 0x5A827999
  else if i < 40 then (w ^^^ x ^^^ y) + 0x6ED9EBA1
  else if i < 60 then (((w ||| x) &&& y) ||| (w &&& x)) + 0x8F1BBCDC
  else (w ^^^ x ^^^ y) + 0xCA62C1D6

def sha1Round (s : Sha1State × List UInt32) (i : ℕ) : Sha1State × List UInt32 :=
  let (s, l) := s
  let (word, l) := blk i l
  (⟨s.e + roundTerm i s.b s.c s.d + word + rol s.a 5, s.a, rol s.b 30, s.c, s.d⟩, l)

def sha1Transform (state : Sha1State) (buffer : Bytes) : Sha1State :=
  let s := ((List.range 80).foldl sha1Round (state, blockWords buffer)).1
  ⟨state.a + s.a, state.b + s.b, state.c + s.c, state.d + s.d, state.e + s.e⟩

structure Sha1Context where
  state : Sha1State
  count0 : ℕ
  count1 : ℕ
  buffer : Bytes

def sha1InitialState : Sha1State :=
  ⟨0x67452301, 0xEFCDAB89, 0x98BADCFE, 0x10325476, 0xC3D2E1F0⟩

/-- `sha1_context_init`. The buffer is not initialised; what it holds is never
read. -/
def sha1ContextInit : Sha1Context := ⟨sha1InitialState, 0, 0, List.replicate 64 0⟩

/-- The loop of `sha1_update` over the whole blocks left in the data: the state
behind it, and the data it leaves. -/
def transformLoop : ℕ → Sha1State → Bytes → Sha1State × Bytes
  | 0, state, data => (state, data)
  | fuel + 1, state, data =>
      if 64 ≤ data.length then
        transformLoop fuel (sha1Transform state (data.take 64)) (data.drop 64)
      else (state, data)

/-- `memcpy` into a buffer from position `j` on. -/
def copyAt (buffer : Bytes) (j : ℕ) (data : Bytes) : Bytes :=
  buffer.take j ++ data ++ buffer.drop (j + data.length)

/-- `sha1_update`. The bit count is kept in two words of 32 bits, with a carry. -/
def sha1Update (context : Sha1Context) (data : Bytes) : Sha1Context :=
  let len := data.length
  let count0 := (context.count0 + len * 8 % 2 ^ 32) % 2 ^ 32
  let carry := if count0 < context.count0 then 1 else 0
  let count1 := (context.count1 + carry + len / 2 ^ 29) % 2 ^ 32
  let j := context.count0 / 8 % 64
  if 63 < j + len then
    let state := sha1Transform context.state (copyAt context.buffer j (data.take (64 - j)))
    let (state, rest) := transformLoop (len / 64) state (data.drop (64 - j))
    ⟨state, count0, count1,
      copyAt (copyAt context.buffer j (data.take (64 - j))) 0 rest⟩
  else ⟨context.state, count0, count1, copyAt context.buffer j data⟩

def Sha1State.bytes (s : Sha1State) : Bytes :=
  wordBytes s.a ++ wordBytes s.b ++ wordBytes s.c ++ wordBytes s.d ++ wordBytes s.e

/-- `finalcount`: the bit count as eight bytes, most significant first. -/
def finalCount (context : Sha1Context) : Bytes :=
  (List.range 4).map (fun i => UInt8.ofNat (context.count1 / 2 ^ (8 * (3 - i)))) ++
    (List.range 4).map (fun i => UInt8.ofNat (context.count0 / 2 ^ (8 * (3 - i))))

/-- The loop of `sha1_finish` that appends zero bytes until the buffer has room
for nothing but the count. It goes round at most 63 times. -/
def padLoop : ℕ → Sha1Context → Sha1Context
  | 0, context => context
  | fuel + 1, context =>
      if context.count0 &&& 504 ≠ 448 then padLoop fuel (sha1Update context [0]) else context

def sha1Finish (context : Sha1Context) : Bytes :=
  let finalcount := finalCount context
  let context := sha1Update context [0x80]
  let context := padLoop 64 context
  let context := sha1Update context finalcount
  context.state.bytes

/-- `sha1_compute(str, len, _)`: the bytes are fed one at a time, as many as
the signed 32-bit `len` says, which is none when the length does not fit. The
NUL written behind the digest is left out. -/
def sha1Compute (str : Bytes) : Bytes :=
  let len := (str.length : ℤ).bmod (2 ^ 32)
  sha1Finish ((str.take len.toNat).foldl (fun context b => sha1Update context [b])
    sha1ContextInit)

end Daobell
