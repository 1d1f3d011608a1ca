import Mathlib.Data.List.Sort

/-!
A multimap as the list of its entries in order of their keys, entries under
one key in the order of their insertion. Inserting puts the new entry behind
every entry whose key is not greater; with the strict order on the keys this
is `List.orderedInsert`.
-/

namespace Daobell.Lib

variable {κ ν : Type*} (lt : κ → κ → Prop) [DecidableRel lt]

/-- The strict order on keys, on entries. -/
def KeyLt (a b : κ × ν) : Prop := lt a.1 b.1

instance : DecidableRel (KeyLt (ν := ν) lt) := fun a b => inferInstanceAs (Decidable (lt a.1 b.1))

/-- Insert an entry behind the entries with smaller or equal keys. -/
def multimapInsert (m : List (κ × ν)) (e : κ × ν) : List (κ × ν) :=
  m.orderedInsert (KeyLt lt) e

def MultimapSorted (m : List (κ × ν)) : Prop := m.Pairwise fun a b => ¬ KeyLt lt b a

theorem multimapInsert_perm (m : List (κ × ν)) (e : κ × ν) :
    (multimapInsert lt m e).Perm (e :: m) :=
  List.perm_orderedInsert _ e m

theorem mem_multimapInsert {m : List (κ × ν)} {e x : κ × ν} :
    x ∈ multimapInsert lt m e ↔ x = e ∨ x ∈ m := by
  rw [(multimapInsert_perm lt m e).mem_iff, List.mem_cons]

/-- An entry whose key is below no key present goes to the end. -/
theorem multimapInsert_eq_append {m : List (κ × ν)} {e : κ × ν}
    (h : ∀ x ∈ m, ¬ KeyLt lt e x) : multimapInsert lt m e = m ++ [e] := by
  induction m with
  | nil => rfl
  | cons x m ih =>
      rw [multimapInsert, List.orderedInsert, if_neg (h x List.mem_cons_self)]
      rw [List.cons_append, ← ih fun y hy => h y (List.mem_cons_of_mem x hy), multimapInsert]

/-- Inserting the entries of a multimap one after the other, in their order,
gives the multimap back. -/
theorem foldl_multimapInsert {m : List (κ × ν)} (h : MultimapSorted lt m) :
    m.foldl (multimapInsert lt) [] = m := by
  suffices H : ∀ (n : List (κ × ν)), MultimapSorted lt (n ++ m) →
      m.foldl (multimapInsert lt) n = n ++ m by
    simpa using H [] (by simpa using h)
  clear h
  induction m with
  | nil => simp
  | cons e m ih =>
      intro n hn
      have hlast : ∀ x ∈ n, ¬ KeyLt lt e x := fun x hx =>
        (List.pairwise_append.mp hn).2.2 x hx e List.mem_cons_self
      rw [List.foldl_cons, multimapInsert_eq_append lt hlast, ih (n ++ [e]) (by simpa using hn)]
      simp

theorem foldl_multimapInsert_perm (n m : List (κ × ν)) :
    (m.foldl (multimapInsert lt) n).Perm (n ++ m) := by
  induction m generalizing n with
  | nil => simp
  | cons e m ih =>
      refine (ih _).trans ?_
      exact ((multimapInsert_perm lt n e).append_right m).trans List.perm_middle.symm

/-- Insertion keeps the keys in order, whenever the order on the keys is
asymmetric and its negation transitive. -/
theorem multimapSorted_insert (hasymm : ∀ a b, lt a b → ¬ lt b a)
    (htrans : ∀ a b c, ¬ lt b a → ¬ lt c b → ¬ lt c a) {m : List (κ × ν)} {e : κ × ν}
    (h : MultimapSorted lt m) : MultimapSorted lt (multimapInsert lt m e) := by
  induction m with
  | nil => simp [multimapInsert, MultimapSorted]
  | cons x m ih =>
      obtain ⟨hx, hm⟩ := List.pairwise_cons.mp h
      rw [multimapInsert, List.orderedInsert]
      split
      · rename_i hlt
        refine List.pairwise_cons.mpr ⟨?_, h⟩
        intro y hy
        rcases List.mem_cons.mp hy with rfl | hy
        · exact hasymm _ _ hlt
        · exact htrans _ _ _ (hasymm _ _ hlt) (hx y hy)
      · rename_i hnlt
        refine List.pairwise_cons.mpr ⟨?_, ih hm⟩
        intro y hy
        rcases (mem_multimapInsert lt).mp hy with rfl | hy
        · exact hnlt
        · exact hx y hy

end Daobell.Lib
