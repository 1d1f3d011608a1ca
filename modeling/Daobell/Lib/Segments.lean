import Mathlib.Data.List.Nodup
import Mathlib.Data.List.Range
import Mathlib.Algebra.BigOperators.Group.List.Basic
import Mathlib.Algebra.Order.Ring.Nat

/-!
The address space of a row of segments. Segment `i` of size `s` has the
addresses `(i, 0), …, (i, s - 1)`, and the address space of the row is theirs
in order. A place in the row is a segment with an offset into it; the
addresses from there on are a suffix of the address space.
-/

namespace Daobell.Lib

/-- The `len` addresses of segment `i` from offset `off` on. -/
def span (i off len : ℕ) : List (ℕ × ℕ) := (List.range' off len).map (i, ·)

def addressesFrom (i : ℕ) : List ℕ → List (ℕ × ℕ)
  | [] => []
  | s :: ss => span i 0 s ++ addressesFrom (i + 1) ss

/-- The address space of a row of segments. -/
def addresses (sizes : List ℕ) : List (ℕ × ℕ) := addressesFrom 0 sizes

@[simp] theorem length_span (i off len : ℕ) : (span i off len).length = len := by
  simp [span]

@[simp] theorem span_zero (i off : ℕ) : span i off 0 = [] := rfl

theorem mem_span {i off len : ℕ} {p : ℕ × ℕ} :
    p ∈ span i off len ↔ p.1 = i ∧ off ≤ p.2 ∧ p.2 < off + len := by
  obtain ⟨j, k⟩ := p
  simp [span, List.mem_range'_1]
  tauto

theorem span_append (i off a b : ℕ) :
    span i off a ++ span i (off + a) b = span i off (a + b) := by
  simp [span, ← List.map_append, List.range'_append_1]

theorem span_take (i off len n : ℕ) (h : n ≤ len) :
    (span i off len).take n = span i off n := by
  obtain ⟨k, rfl⟩ := Nat.exists_eq_add_of_le h
  rw [← span_append, List.take_append_of_le_length (by simp), List.take_of_length_le (by simp)]

theorem span_drop (i off len n : ℕ) (h : n ≤ len) :
    (span i off len).drop n = span i (off + n) (len - n) := by
  obtain ⟨k, rfl⟩ := Nat.exists_eq_add_of_le h
  rw [← span_append, List.drop_append_of_le_length (by simp), List.drop_eq_nil_of_le (by simp)]
  simp

@[simp] theorem length_addressesFrom (i : ℕ) (ss : List ℕ) :
    (addressesFrom i ss).length = ss.sum := by
  induction ss generalizing i with
  | nil => rfl
  | cons s ss ih => simp [addressesFrom, ih]

@[simp] theorem length_addresses (ss : List ℕ) : (addresses ss).length = ss.sum :=
  length_addressesFrom 0 ss

theorem le_fst_of_mem_addressesFrom {i : ℕ} {ss : List ℕ} {p : ℕ × ℕ}
    (hp : p ∈ addressesFrom i ss) : i ≤ p.1 := by
  induction ss generalizing i with
  | nil => simp [addressesFrom] at hp
  | cons s ss ih =>
      rcases List.mem_append.mp hp with hp | hp
      · exact (mem_span.mp hp).1.ge
      · exact Nat.le_of_succ_le (ih hp)

/-- The addresses are in order: by segment, and in a segment by offset. -/
theorem pairwise_addressesFrom (i : ℕ) (ss : List ℕ) :
    (addressesFrom i ss).Pairwise (Prod.Lex (· < ·) (· < ·)) := by
  induction ss generalizing i with
  | nil => exact .nil
  | cons s ss ih =>
      rw [addressesFrom, List.pairwise_append]
      refine ⟨?_, ih (i + 1), fun p hp q hq => ?_⟩
      · rw [span, List.pairwise_map]
        exact (List.pairwise_lt_range' 1 Nat.one_pos).imp fun h => Prod.Lex.right i h
      · obtain ⟨j, k⟩ := p
        have hj : j = i := (mem_span.mp hp).1
        exact Prod.Lex.left _ _ (hj.trans_lt (le_fst_of_mem_addressesFrom hq))

theorem pairwise_addresses (ss : List ℕ) :
    (addresses ss).Pairwise (Prod.Lex (· < ·) (· < ·)) := pairwise_addressesFrom 0 ss

theorem nodup_addresses (ss : List ℕ) : (addresses ss).Nodup := (pairwise_addresses ss).nodup

theorem mem_addressesFrom {i : ℕ} {ss : List ℕ} {p : ℕ × ℕ} :
    p ∈ addressesFrom i ss ↔ i ≤ p.1 ∧ ∃ s, ss[p.1 - i]? = some s ∧ p.2 < s := by
  induction ss generalizing i with
  | nil => simp [addressesFrom]
  | cons s ss ih =>
      simp only [addressesFrom, List.mem_append, mem_span, ih]
      constructor
      · rintro (⟨h1, -, h2⟩ | ⟨h1, t, ht, h2⟩)
        · exact ⟨h1.ge, s, by simp [h1], by simpa using h2⟩
        · refine ⟨by omega, t, ?_, h2⟩
          rw [show p.1 - i = (p.1 - (i + 1)) + 1 by omega]
          simpa using ht
      · rintro ⟨h1, t, ht, h2⟩
        rcases Nat.eq_or_lt_of_le h1 with h | h
        · left
          rw [← h] at ht
          simp only [Nat.sub_self, List.getElem?_cons_zero, Option.some.injEq] at ht
          exact ⟨h.symm, Nat.zero_le _, by omega⟩
        · right
          refine ⟨h, t, ?_, h2⟩
          rw [show p.1 - i = (p.1 - (i + 1)) + 1 by omega] at ht
          simpa using ht

/-! ### Where in a row -/

section

variable {α β : Type*}

theorem exists_split_of_lt_sum {size : α → ℕ} {xs : List α} {n : ℕ} (h : n < (xs.map size).sum) :
    ∃ before x after, xs = before ++ x :: after ∧ (before.map size).sum ≤ n ∧
      n < (before.map size).sum + size x := by
  induction xs generalizing n with
  | nil => simp at h
  | cons x xs ih =>
      rw [List.map_cons, List.sum_cons] at h
      by_cases hx : n < size x
      · exact ⟨[], x, xs, rfl, Nat.zero_le _, by simpa using hx⟩
      · have hrest : n - size x < (xs.map size).sum := by omega
        obtain ⟨before, y, after, rfl, hle, hlt⟩ := ih hrest
        refine ⟨x :: before, y, after, rfl, ?_, ?_⟩ <;> rw [List.map_cons, List.sum_cons] <;> omega

theorem exists_flatMap_eq {f : α → List β} {xs : List α} {before after : List β} {y : β}
    (h : xs.flatMap f = before ++ y :: after) :
    ∃ xs₁ x xs₂ pre post, xs = xs₁ ++ x :: xs₂ ∧ f x = pre ++ y :: post ∧
      before = xs₁.flatMap f ++ pre := by
  induction xs generalizing before with
  | nil => simp at h
  | cons x xs ih =>
      rw [List.flatMap_cons, List.append_eq_append_iff] at h
      rcases h with ⟨mid, rfl, hrest⟩ | ⟨mid, hx, hrest⟩
      · obtain ⟨xs₁, x', xs₂, pre, post, rfl, hx', rfl⟩ := ih hrest
        exact ⟨x :: xs₁, x', xs₂, pre, post, rfl, hx', by simp⟩
      · cases mid with
        | nil =>
            rw [List.append_nil] at hx
            have hxs : xs.flatMap f = [] ++ y :: after := hrest.symm
            obtain ⟨xs₁, x', xs₂, pre, post, rfl, hx', hpre⟩ := ih hxs
            obtain ⟨hnil, rfl⟩ := List.append_eq_nil_iff.mp hpre.symm
            exact ⟨x :: xs₁, x', xs₂, [], post, rfl, hx', by simp [hnil, hx]⟩
        | cons z mid =>
            rw [List.cons_append, List.cons.injEq] at hrest
            exact ⟨[], x, xs, before, mid, rfl, by rw [hx, hrest.1], by simp⟩

end

end Daobell.Lib
