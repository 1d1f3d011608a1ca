import Daobell.Lib.Chunks
import Daobell.Sha1.Code
import Mathlib.Tactic.IntervalCases

/-!
SHA-1 of a message, and that the streaming code computes it. The digest is
stated on the whole message: pad it to whole blocks, hash the blocks one after
the other. The code sees the message in pieces of any size; `Fed` relates its
context to the bytes it has been given so far.
-/

namespace Daobell

open Lib

def absorb (state : Sha1State) (bytes : Bytes) : Sha1State :=
  (chunks 64 bytes).foldl sha1Transform state

/-- The length of a message in bits, as eight bytes, most significant first. -/
def bitLengthBytes (n : ℕ) : Bytes :=
  (List.range 8).map fun i => UInt8.ofNat (8 * n / 2 ^ (8 * (7 - i)))

/-- How many zero bytes bring a string of `n` bytes up to eight short of whole
blocks. -/
def zeroCount (n : ℕ) : ℕ := (120 - n % 64) % 64

/-- The message with a one bit, zero bits and its length behind it. -/
def pad (msg : Bytes) : Bytes :=
  (msg ++ [0x80]) ++ List.replicate (zeroCount (msg.length + 1)) 0 ++ bitLengthBytes msg.length

def sha1 (msg : Bytes) : Bytes := (absorb sha1InitialState (pad msg)).bytes

@[simp] theorem absorb_nil (state : Sha1State) : absorb state [] = state := by
  simp [absorb]

theorem absorb_append (state : Sha1State) (a b : Bytes) (ha : 64 ∣ a.length) :
    absorb state (a ++ b) = absorb (absorb state a) b := by
  rw [absorb, chunks_append (by decide) a b ha, List.foldl_append]
  rfl

theorem absorb_block (state : Sha1State) {b : Bytes} (hb : b.length = 64) :
    absorb state b = sha1Transform state b := by
  rw [absorb, chunks_of_length_eq (by decide) hb]
  rfl

theorem transformLoop_eq (fuel : ℕ) (state : Sha1State) (data : Bytes)
    (hfuel : data.length / 64 ≤ fuel) :
    transformLoop fuel state data =
      (absorb state (data.take (data.length / 64 * 64)), data.drop (data.length / 64 * 64)) := by
  induction fuel generalizing state data with
  | zero =>
      rw [Nat.le_zero.mp hfuel]
      simp [transformLoop]
  | succ fuel ih =>
      rw [transformLoop]
      by_cases h : 64 ≤ data.length
      · have hlen : (data.drop 64).length / 64 = data.length / 64 - 1 := by
          rw [List.length_drop]
          omega
        have hblock : (data.take 64).length = 64 := by simp; omega
        have hsplit : data.length / 64 * 64 = 64 + (data.length / 64 - 1) * 64 := by omega
        rw [if_pos h, ih _ _ (by omega), hlen, hsplit, List.drop_drop, List.take_add,
          absorb_append _ _ _ (by rw [hblock]), absorb_block _ hblock]
      · have h0 : data.length / 64 = 0 := by omega
        rw [if_neg h, h0]
        simp

/-- The context of a stream that has been fed `msg`: the whole blocks are in
the state, the bytes behind them at the head of the buffer. -/
def Fed (context : Sha1Context) (msg : Bytes) : Prop :=
  ∃ whole tail, msg = whole ++ tail ∧ 64 ∣ whole.length ∧ tail.length < 64 ∧
    context.state = absorb sha1InitialState whole ∧
    context.buffer.length = 64 ∧ context.buffer.take tail.length = tail ∧
    context.count0 < 2 ^ 32 ∧
    context.count0 + 2 ^ 32 * context.count1 = 8 * msg.length % 2 ^ 64

theorem fed_init : Fed sha1ContextInit [] :=
  ⟨[], [], rfl, by simp, by simp, by simp [sha1ContextInit], by simp [sha1ContextInit],
    rfl, by simp [sha1ContextInit], by simp [sha1ContextInit]⟩

theorem length_copyAt {buffer data : Bytes} {j : ℕ} (h : j + data.length ≤ buffer.length) :
    (copyAt buffer j data).length = buffer.length := by
  simp [copyAt]
  omega

/-- A copy behind the bytes in use leaves both at the head of the buffer. -/
theorem take_copyAt {buffer data : Bytes} (tail : Bytes) (htail : buffer.take tail.length = tail)
    (n : ℕ) (hn : n = tail.length + data.length) :
    (copyAt buffer tail.length data).take n = tail ++ data := by
  rw [copyAt, htail, hn]
  exact List.take_left' (by simp)

/-- **Feeding.** Whatever the size of the piece, the context comes to stand for
the longer message. -/
theorem Fed.update {context : Sha1Context} {msg : Bytes} (h : Fed context msg) (data : Bytes) :
    Fed (sha1Update context data) (msg ++ data) := by
  obtain ⟨whole, tail, rfl, ⟨k, hk⟩, htail, hstate, hbuf, htake, hlt, hcount⟩ := h
  have hj : context.count0 / 8 % 64 = tail.length := by
    rw [List.length_append] at hcount
    omega
  have hcount' : ∀ c0 c1, c0 = (context.count0 + data.length * 8 % 2 ^ 32) % 2 ^ 32 →
      c1 = (context.count1 + (if c0 < context.count0 then 1 else 0) + data.length / 2 ^ 29) %
        2 ^ 32 →
      c0 < 2 ^ 32 ∧ c0 + 2 ^ 32 * c1 = 8 * (whole ++ tail ++ data).length % 2 ^ 64 := by
    rintro c0 c1 hc0 hc1
    rw [List.length_append]
    split at hc1 <;> omega
  by_cases hfull : 63 < tail.length + data.length
  -- the buffer fills up: one block from it, the rest straight from the data
  · have hlen : (data.drop (64 - tail.length)).length / 64 ≤ data.length / 64 := by
      rw [List.length_drop]
      omega
    have hfill : tail.length + (data.take (64 - tail.length)).length = 64 := by simp; omega
    have hblock : copyAt context.buffer tail.length (data.take (64 - tail.length)) =
        tail ++ data.take (64 - tail.length) := by
      rw [← take_copyAt tail htake 64 hfill.symm]
      exact (List.take_of_length_le (by rw [length_copyAt (by omega), hbuf])).symm
    have hblock' : (tail ++ data.take (64 - tail.length)).length = 64 := by
      rw [List.length_append, hfill]
    rw [sha1Update, hj, if_pos hfull, hblock]
    simp only [transformLoop_eq _ _ _ hlen]
    generalize hrest : data.drop (64 - tail.length) = rest
    refine ⟨whole ++ (tail ++ data.take (64 - tail.length)) ++ rest.take (rest.length / 64 * 64),
      rest.drop (rest.length / 64 * 64), ?_, ?_, ?_, ?_, ?_, ?_, hcount' _ _ rfl rfl⟩
    · simp only [List.append_assoc, List.take_append_drop]
      rw [← hrest, List.take_append_drop]
    · rw [List.length_append, List.length_append, hblock', List.length_take]
      exact ⟨k + 1 + rest.length / 64, by omega⟩
    · rw [List.length_drop]
      omega
    · rw [absorb_append _ _ _ (by rw [List.length_append, hblock']; omega),
        absorb_append _ _ _ ⟨k, hk⟩, absorb_block _ hblock', ← hstate]
    · rw [length_copyAt (by rw [hblock', List.length_drop]; omega), hblock']
    · exact take_copyAt [] rfl _ (by simp)
  -- the data goes behind the bytes already there
  · rw [sha1Update, hj, if_neg hfull]
    refine ⟨whole, tail ++ data, by simp, ⟨k, hk⟩, by rw [List.length_append]; omega, hstate,
      ?_, ?_, hcount' _ _ rfl rfl⟩
    · rw [length_copyAt (by omega), hbuf]
    · exact take_copyAt tail htake _ (by simp)

theorem Fed.foldl {context : Sha1Context} {msg : Bytes} (h : Fed context msg)
    (pieces : List Bytes) : Fed (pieces.foldl sha1Update context) (msg ++ pieces.flatten) := by
  induction pieces generalizing context msg with
  | nil => simpa using h
  | cons p pieces ih =>
      rw [List.foldl_cons, List.flatten_cons, ← List.append_assoc]
      exact ih (h.update p)

theorem and_504_eq_448 {c : ℕ} : c &&& 504 = 448 ↔ c / 8 % 64 = 56 := by
  have hhigh : (c &&& 504) / 8 = c / 8 % 64 := by
    have h := Nat.shiftRight_and_distrib (i := 3) (a := c) (b := 504)
    simp only [Nat.shiftRight_eq_div_pow] at h
    rw [show (8 : ℕ) = 2 ^ 3 from rfl, h]
    exact Nat.and_two_pow_sub_one_eq_mod _ 6
  have hlow : (c &&& 504) % 8 = 0 := by
    rw [show (8 : ℕ) = 2 ^ 3 from rfl, Nat.and_mod_two_pow]
    simp
  omega

theorem Fed.count_eq {context : Sha1Context} {msg : Bytes} (h : Fed context msg) :
    context.count0 / 8 % 64 = msg.length % 64 := by
  obtain ⟨-, -, -, -, -, -, -, -, hlt, hcount⟩ := h
  omega

theorem Fed.padLoop {context : Sha1Context} {msg : Bytes} (h : Fed context msg) (fuel : ℕ)
    (hfuel : zeroCount msg.length ≤ fuel) :
    Fed (padLoop fuel context) (msg ++ List.replicate (zeroCount msg.length) 0) := by
  induction fuel generalizing context msg with
  | zero =>
      rw [Nat.le_zero.mp hfuel]
      simpa [Daobell.padLoop] using h
  | succ fuel ih =>
      rw [Daobell.padLoop]
      have hmod := h.count_eq
      by_cases hdone : context.count0 &&& 504 = 448
      · have h56 := and_504_eq_448.mp hdone
        have hz : zeroCount msg.length = 0 := by
          rw [zeroCount]
          omega
        rw [if_neg (not_not.mpr hdone), hz]
        simpa using h
      · have h56 : ¬ context.count0 / 8 % 64 = 56 := fun h => hdone (and_504_eq_448.mpr h)
        have hz : zeroCount msg.length = zeroCount (msg ++ [0]).length + 1 := by
          simp only [zeroCount, List.length_append, List.length_singleton]
          omega
        rw [if_pos hdone, hz, List.replicate_succ, List.append_cons]
        exact ih (h.update [0]) (by omega)

theorem Fed.finalCount {context : Sha1Context} {msg : Bytes} (h : Fed context msg) :
    finalCount context = bitLengthBytes msg.length := by
  obtain ⟨-, -, -, -, -, -, -, -, hlt, hcount⟩ := h
  have byte_eq : ∀ a b : ℕ, a % 256 = b % 256 → UInt8.ofNat a = UInt8.ofNat b := by
    intro a b hab
    apply UInt8.toNat.inj
    simpa using hab
  simp only [Daobell.finalCount, bitLengthBytes, List.range, List.range.loop, List.map_cons,
    List.map_nil, List.cons_append, List.nil_append]
  congr 1
  · exact byte_eq _ _ (by omega)
  congr 1
  · exact byte_eq _ _ (by omega)
  congr 1
  · exact byte_eq _ _ (by omega)
  congr 1
  · exact byte_eq _ _ (by omega)
  congr 1
  · exact byte_eq _ _ (by omega)
  congr 1
  · exact byte_eq _ _ (by omega)
  congr 1
  · exact byte_eq _ _ (by omega)
  congr 1
  exact byte_eq _ _ (by omega)

/-- When whole blocks have been fed, all of the message is in the state. -/
theorem Fed.state_eq {context : Sha1Context} {msg : Bytes} (h : Fed context msg)
    (hmsg : 64 ∣ msg.length) : context.state = absorb sha1InitialState msg := by
  obtain ⟨whole, tail, rfl, hwhole, htail, hstate, -⟩ := h
  rw [List.length_append] at hmsg
  have h0 : tail.length = 0 := by omega
  rw [List.length_eq_zero_iff.mp h0, List.append_nil]
  exact hstate

theorem dvd_length_pad (msg : Bytes) : 64 ∣ (pad msg).length := by
  simp only [pad, zeroCount, bitLengthBytes, List.length_append, List.length_replicate,
    List.length_map, List.length_range, List.length_singleton]
  omega

theorem sha1Finish_of_fed {context : Sha1Context} {msg : Bytes} (h : Fed context msg) :
    sha1Finish context = sha1 msg := by
  have hmark : Fed (sha1Update context [0x80]) (msg ++ [0x80]) := h.update [0x80]
  have hzeros := hmark.padLoop 64 (by rw [zeroCount]; omega)
  have hlast := hzeros.update (Daobell.finalCount context)
  rw [h.finalCount, List.length_append] at hlast
  rw [sha1Finish, h.finalCount, sha1]
  congr 1
  exact hlast.state_eq (dvd_length_pad msg)

/-- **The streaming code computes SHA-1**: of the pieces put together, however
the message is cut. -/
theorem sha1Finish_foldl (pieces : List Bytes) :
    sha1Finish (pieces.foldl sha1Update sha1ContextInit) = sha1 pieces.flatten := by
  have h := fed_init.foldl pieces
  rw [List.nil_append] at h
  exact sha1Finish_of_fed h

/-- `sha1_compute` hashes the whole string when its length fits an `int`. -/
theorem sha1Compute_eq {str : Bytes} (h : str.length < 2 ^ 31) : sha1Compute str = sha1 str := by
  have hlen : ((str.length : ℤ).bmod (2 ^ 32)).toNat = str.length := by
    rw [Int.bmod_eq_of_le_mul_two (by omega) (by omega)]
    rfl
  have hpieces := sha1Finish_foldl (str.map fun b => [b])
  rw [List.foldl_map] at hpieces
  rw [sha1Compute, hlen, List.take_length, hpieces, ← List.flatMap_def, List.flatMap_singleton']

@[simp] theorem length_bytes (s : Sha1State) : s.bytes.length = 20 := rfl

theorem length_sha1 (msg : Bytes) : (sha1 msg).length = 20 := length_bytes _

end Daobell
