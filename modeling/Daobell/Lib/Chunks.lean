import Mathlib.Data.List.Basic
import Mathlib.Tactic.Ring

/-!
Cutting a list into chunks of a fixed size. The last chunk is the only one
that may be shorter, and the chunks put together are the list again.
-/

namespace Daobell.Lib

variable {α β : Type*}

/-- How many chunks of `c` elements a list of `n` elements is cut into. -/
def chunkCount (c n : ℕ) : ℕ := (n + c - 1) / c

/-- The chunks of `c` elements of a list, the last one possibly shorter. -/
def chunks (c : ℕ) (l : List α) : List (List α) :=
  (List.range (chunkCount c l.length)).map fun j => (l.drop (c * j)).take c

@[simp] theorem chunkCount_zero {c : ℕ} (hc : 0 < c) : chunkCount c 0 = 0 := by
  simp only [chunkCount, Nat.zero_add]
  exact Nat.div_eq_of_lt (by omega)

theorem chunkCount_pos {c n : ℕ} (hc : 0 < c) (hn : 0 < n) :
    chunkCount c n = chunkCount c (n - c) + 1 := by
  simp only [chunkCount]
  by_cases h : n ≤ c
  · have h0 : n - c + c - 1 = c - 1 := by omega
    have h1 : n + c - 1 = (n - 1) + c := by omega
    rw [h0, h1, Nat.add_div_right _ hc, Nat.div_eq_of_lt (by omega),
      Nat.div_eq_of_lt (by omega)]
  · have h1 : n + c - 1 = (n - c + c - 1) + c := by omega
    rw [h1, Nat.add_div_right _ hc]

theorem lt_chunkCount_iff {c n j : ℕ} (hc : 0 < c) :
    j < chunkCount c n ↔ c * j < n := by
  simp only [chunkCount]
  rw [Nat.lt_div_iff_mul_lt hc, Nat.mul_comm j c]
  omega

@[simp] theorem chunks_nil {c : ℕ} (hc : 0 < c) : chunks c ([] : List α) = [] := by
  simp [chunks, hc]

@[simp] theorem length_chunks (c : ℕ) (l : List α) :
    (chunks c l).length = chunkCount c l.length := by
  simp [chunks]

theorem chunks_eq_cons {c : ℕ} (hc : 0 < c) {l : List α} (hl : l ≠ []) :
    chunks c l = l.take c :: chunks c (l.drop c) := by
  have hlen : 0 < l.length := List.length_pos_iff.mpr hl
  simp only [chunks, List.length_drop]
  rw [chunkCount_pos hc hlen, List.range_succ_eq_map]
  simp only [List.map_cons, List.map_map, Nat.mul_zero, List.drop_zero]
  congr 1
  apply List.map_congr_left
  intro j _
  simp only [Function.comp_apply, List.drop_drop]
  rw [Nat.mul_succ, Nat.add_comm]

theorem chunk_induction {P : List α → Prop} {c : ℕ} (hc : 0 < c) (nil : P [])
    (step : ∀ l, l ≠ [] → P (l.drop c) → P l) (l : List α) : P l := by
  induction hn : l.length using Nat.strong_induction_on generalizing l with
  | _ n ih =>
      by_cases hl : l = []
      · subst hl
        exact nil
      · have hpos : 0 < l.length := List.length_pos_iff.mpr hl
        exact step l hl (ih (l.drop c).length (by simp; omega) _ rfl)

theorem flatten_chunks {c : ℕ} (hc : 0 < c) (l : List α) : (chunks c l).flatten = l := by
  induction l using chunk_induction hc with
  | nil => simp [hc]
  | step l hl ih => rw [chunks_eq_cons hc hl, List.flatten_cons, ih, List.take_append_drop]

/-- Chunks of a list whose first part is made of whole chunks. -/
theorem chunks_append {c : ℕ} (hc : 0 < c) (a b : List α) (ha : c ∣ a.length) :
    chunks c (a ++ b) = chunks c a ++ chunks c b := by
  induction a using chunk_induction hc with
  | nil => simp [hc]
  | step a hne ih =>
      have hle : c ≤ a.length := Nat.le_of_dvd (List.length_pos_iff.mpr hne) ha
      have hdvd : c ∣ (a.drop c).length := by
        rw [List.length_drop]
        exact Nat.dvd_sub ha (dvd_refl c)
      rw [chunks_eq_cons hc (List.append_ne_nil_of_left_ne_nil hne b),
        chunks_eq_cons hc hne, List.take_append_of_le_length hle,
        List.drop_append_of_le_length hle, ih hdvd, List.cons_append]

theorem chunks_of_length_eq {c : ℕ} (hc : 0 < c) {l : List α} (hl : l.length = c) :
    chunks c l = [l] := by
  have hne : l ≠ [] := by
    rintro rfl
    simp at hl
    omega
  rw [chunks_eq_cons hc hne, List.take_of_length_le hl.le,
    List.drop_eq_nil_of_le hl.le, chunks_nil hc]

/-- The first chunks together are the beginning of the list. -/
theorem flatten_take_chunks {c : ℕ} (hc : 0 < c) (l : List α) (j : ℕ) :
    ((chunks c l).take j).flatten = l.take (c * j) := by
  induction j generalizing l with
  | zero => simp
  | succ j ih =>
      by_cases hl : l = []
      · simp [hl, hc]
      · rw [chunks_eq_cons hc hl, List.take_succ_cons, List.flatten_cons, ih, Nat.mul_succ,
          Nat.add_comm, List.take_add]

theorem mem_window {l : List α} {a n : ℕ} {x : α} :
    x ∈ (l.drop a).take n ↔ ∃ k, a ≤ k ∧ k < a + n ∧ l[k]? = some x := by
  simp only [List.mem_iff_getElem?, List.getElem?_take, List.getElem?_drop]
  constructor
  · rintro ⟨k, hk⟩
    split at hk
    · exact ⟨a + k, by omega, by omega, hk⟩
    · cases hk
  · rintro ⟨k, hak, hkn, hk⟩
    refine ⟨k - a, ?_⟩
    rw [if_pos (by omega), Nat.add_sub_cancel' hak]
    exact hk

/-- Windows on a list without duplicates have nothing in common when one ends
before the other begins. -/
theorem disjoint_windows {l : List α} (hl : l.Nodup) {a n b m : ℕ}
    (h : a + n ≤ b ∨ b + m ≤ a) :
    List.Disjoint ((l.drop a).take n) ((l.drop b).take m) := by
  intro x hx hy
  obtain ⟨k, hak, hkn, hk⟩ := mem_window.mp hx
  obtain ⟨k', hbk, hkm, hk'⟩ := mem_window.mp hy
  have hlt : k < l.length := (List.getElem?_eq_some_iff.mp hk).1
  have heq : k = k' := (List.getElem?_inj hlt hl).mp (hk.trans hk'.symm)
  omega

/-- Windows that begin inside the list meet at the later of their starts. -/
theorem disjoint_windows_iff {l : List α} (hl : l.Nodup) {a n b m : ℕ} (ha : a < l.length)
    (hb : b < l.length) (hn : 0 < n) (hm : 0 < m) :
    List.Disjoint ((l.drop a).take n) ((l.drop b).take m) ↔ a + n ≤ b ∨ b + m ≤ a := by
  refine ⟨fun hdisj => ?_, disjoint_windows hl⟩
  by_contra hmeet
  have hmax : max a b < l.length := max_lt ha hb
  have hx : l[max a b]? = some l[max a b] := List.getElem?_eq_getElem hmax
  exact hdisj (mem_window.mpr ⟨_, by omega, by omega, hx⟩)
    (mem_window.mpr ⟨_, by omega, by omega, hx⟩)

theorem eq_of_chunks {c : ℕ} (hc : 0 < c) {l m : List α} (hlen : l.length = m.length)
    (h : ∀ j < chunkCount c l.length, (l.drop (c * j)).take c = (m.drop (c * j)).take c) :
    l = m := by
  have hchunks : chunks c l = chunks c m := by
    rw [chunks, chunks, ← hlen]
    exact List.map_congr_left fun j hj => h j (List.mem_range.mp hj)
  rw [← flatten_chunks hc l, hchunks, flatten_chunks hc m]

end Daobell.Lib
