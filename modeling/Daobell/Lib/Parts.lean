import Mathlib.Algebra.Order.BigOperators.Group.List
import Mathlib.Algebra.Order.Ring.Nat
import Mathlib.Data.List.Forall2

/-!
Wholes and what there is of each of them, as two lists side by side. What holds of
each pair is kept when one of the parts is changed; and numbers none of which exceeds
its bound reach the sum of the bounds only when each of them reaches its own.
-/

namespace Daobell.Lib

open List

variable {α β : Type*} {R : α → β → Prop} {as : List α} {bs : List β}

theorem exists_of_forall₂ (h : Forall₂ R as bs) {k : ℕ} {b : β} (hb : bs[k]? = some b) :
    ∃ a, as[k]? = some a ∧ R a b := by
  induction h generalizing k with
  | nil => simp at hb
  | @cons a b' as bs hab _ ih =>
      cases k with
      | zero =>
          rw [getElem?_cons_zero, Option.some.injEq] at hb
          exact ⟨a, getElem?_cons_zero, hb ▸ hab⟩
      | succ k =>
          rw [getElem?_cons_succ] at hb
          obtain ⟨a', ha', hR⟩ := ih hb
          exact ⟨a', by rwa [getElem?_cons_succ], hR⟩

theorem forall₂_set (h : Forall₂ R as bs) {k : ℕ} {b : β}
    (hb : ∀ a, as[k]? = some a → R a b) : Forall₂ R as (bs.set k b) := by
  induction h generalizing k with
  | nil => exact .nil
  | @cons a b' as bs hab hrest ih =>
      cases k with
      | zero => exact .cons (hb a getElem?_cons_zero) hrest
      | succ k => exact .cons hab (ih fun a' ha' => hb a' (by rwa [getElem?_cons_succ]))

theorem set_of_getElem? {k : ℕ} {a : α} (ha : as[k]? = some a) : as.set k a = as := by
  obtain ⟨hk, rfl⟩ := List.getElem?_eq_some_iff.mp ha
  exact List.set_getElem_self hk

theorem forall₂_set_self {R : β → β → Prop} (hrefl : ∀ b, R b b) (bs : List β) {k : ℕ} {b b' : β}
    (hb : bs[k]? = some b) (hR : R b b') : Forall₂ R bs (bs.set k b') :=
  forall₂_set (forall₂_same.mpr fun b _ => hrefl b) fun _ hc =>
    Option.some.inj (hb.symm.trans hc) ▸ hR

/-- What is nowhere more, and in sum not less, is everywhere the same. -/
theorem eq_of_sum_le {ms ns : List ℕ} (h : Forall₂ (· ≤ ·) ms ns) (hsum : ns.sum ≤ ms.sum) :
    ms = ns := by
  induction h with
  | nil => rfl
  | @cons m n ms ns hle hrest ih =>
      have hrestsum := hrest.sum_le_sum
      rw [sum_cons, sum_cons] at hsum
      rw [ih (by omega), show m = n by omega]

theorem sum_map_set_lt {f : α → ℕ} {i : ℕ} {a a' : α} (ha : as[i]? = some a) (hlt : f a' < f a) :
    ((as.set i a').map f).sum < (as.map f).sum := by
  induction as generalizing i with
  | nil => simp at ha
  | cons b as ih =>
      cases i with
      | zero =>
          rw [getElem?_cons_zero, Option.some.injEq] at ha
          subst ha
          rw [set_cons_zero, map_cons, map_cons, sum_cons, sum_cons]
          exact Nat.add_lt_add_right hlt _
      | succ i =>
          rw [getElem?_cons_succ] at ha
          rw [set_cons_succ, map_cons, map_cons, sum_cons, sum_cons]
          exact Nat.add_lt_add_left (ih ha) _

/-- Beginnings of the wholes, one after the other, are the wholes only if each is. -/
theorem flatten_eq_iff_of_prefix {wholes parts : List (List α)}
    (h : Forall₂ (fun whole part => part <+: whole) wholes parts) :
    parts.flatten = wholes.flatten ↔ parts = wholes := by
  refine ⟨fun heq => ?_, congrArg List.flatten⟩
  have hlengths : parts.map List.length = wholes.map List.length := by
    refine eq_of_sum_le ?_ (by rw [← length_flatten, ← length_flatten, heq])
    rw [forall₂_map_left_iff, forall₂_map_right_iff]
    exact (h.imp fun _ _ hpre => hpre.length_le).flip
  clear heq
  induction h with
  | nil => rfl
  | @cons whole part wholes parts hpre hrest ih =>
      rw [map_cons, map_cons, cons.injEq] at hlengths
      rw [hpre.eq_of_length hlengths.1, ih hlengths.2]

end Daobell.Lib
