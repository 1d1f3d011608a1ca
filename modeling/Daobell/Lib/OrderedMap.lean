import Mathlib.Data.List.Induction
import Mathlib.Order.Defs.Unbundled
import Daobell.Lib.Multimap

/-!
A map as the list of its entries in order of their keys. A key that is there already
keeps its value when another one is inserted under it. Of the entries from which a
reader takes a value, the one with the greatest key is the last.
-/

namespace Daobell.Lib

variable {κ ν α : Type*} (lt : κ → κ → Prop) [DecidableRel lt]

/-- Insert an entry unless its key is there. -/
def mapInsert : List (κ × ν) → κ × ν → List (κ × ν)
  | [], e => [e]
  | x :: m, e =>
      if lt e.1 x.1 then e :: x :: m
      else if lt x.1 e.1 then x :: mapInsert m e
      else x :: m

def MapSorted (m : List (κ × ν)) : Prop := m.Pairwise (KeyLt lt)

variable [IsStrictTotalOrder κ lt]

theorem mem_mapInsert {m : List (κ × ν)} (hm : MapSorted lt m) {e x : κ × ν} :
    x ∈ mapInsert lt m e ↔ x ∈ m ∨ x = e ∧ ∀ y ∈ m, y.1 ≠ e.1 := by
  induction m with
  | nil => simp [mapInsert]
  | cons y m ih =>
      obtain ⟨hy, hm⟩ := List.pairwise_cons.mp hm
      rw [mapInsert]
      split
      · rename_i hlt
        have hfresh : ∀ z ∈ y :: m, z.1 ≠ e.1 := by
          intro z hz heq
          rcases List.mem_cons.mp hz with rfl | hz
          · exact irrefl_of lt _ (heq ▸ hlt)
          · have hez : lt e.1 z.1 := trans_of lt hlt (hy z hz)
            exact irrefl_of lt _ (heq ▸ hez)
        rw [List.mem_cons, or_comm, and_iff_left hfresh]
      · rename_i hnlt
        split
        · rename_i hlt
          have hne : y.1 ≠ e.1 := fun heq => irrefl_of lt _ (heq ▸ hlt)
          rw [List.mem_cons, ih hm, List.mem_cons, or_assoc, List.forall_mem_cons,
            and_iff_right hne]
        · rename_i hngt
          have heq : y.1 = e.1 :=
            (trichotomous_of lt y.1 e.1).resolve_left hngt |>.resolve_right hnlt
          refine ⟨.inl, fun h => h.resolve_right fun hx => hx.2 y List.mem_cons_self heq⟩

theorem mapSorted_insert {m : List (κ × ν)} (hm : MapSorted lt m) (e : κ × ν) :
    MapSorted lt (mapInsert lt m e) := by
  induction m with
  | nil => exact List.pairwise_singleton _ _
  | cons y m ih =>
      obtain ⟨hy, hrest⟩ := List.pairwise_cons.mp hm
      rw [mapInsert]
      split
      · rename_i hlt
        refine List.pairwise_cons.mpr ⟨fun z hz => ?_, hm⟩
        rcases List.mem_cons.mp hz with rfl | hz
        · exact hlt
        · exact trans_of lt hlt (hy z hz)
      · split
        · rename_i hlt
          refine List.pairwise_cons.mpr ⟨fun z hz => ?_, ih hrest⟩
          rcases (mem_mapInsert lt hrest).mp hz with hz | ⟨rfl, -⟩
          · exact hy z hz
          · exact hlt
        · exact hm

/-- What has been inserted into a map: the first entry under each key that was free. -/
theorem mem_foldl_mapInsert [DecidableEq κ] {m : List (κ × ν)} (hm : MapSorted lt m)
    (es : List (κ × ν)) {x : κ × ν} :
    x ∈ es.foldl (mapInsert lt) m ↔
      x ∈ m ∨ (∀ y ∈ m, y.1 ≠ x.1) ∧ es.find? (·.1 = x.1) = some x := by
  induction es generalizing m with
  | nil => simp
  | cons e es ih =>
      rw [List.foldl_cons, ih (mapSorted_insert lt hm e), mem_mapInsert lt hm, List.find?_cons]
      by_cases hkey : e.1 = x.1
      · have htaken : ¬ ∀ y ∈ mapInsert lt m e, y.1 ≠ x.1 := by
          intro hfree
          have hm' : ∀ y ∈ m, y.1 ≠ e.1 := fun y hy heq =>
            hfree y ((mem_mapInsert lt hm).mpr (.inl hy)) (heq.trans hkey)
          exact hfree e ((mem_mapInsert lt hm).mpr (.inr ⟨rfl, hm'⟩)) hkey
        simp only [htaken, false_and, or_false, hkey, decide_true, Option.some.injEq]
        rw [and_comm, eq_comm]
      · have hfree : (∀ y ∈ mapInsert lt m e, y.1 ≠ x.1) ↔ ∀ y ∈ m, y.1 ≠ x.1 := by
          refine ⟨fun h y hy => h y ((mem_mapInsert lt hm).mpr (.inl hy)), fun h y hy => ?_⟩
          rcases (mem_mapInsert lt hm).mp hy with hy | ⟨rfl, -⟩
          · exact h y hy
          · exact hkey
        have hne : x ≠ e := fun heq => hkey (congrArg Prod.fst heq.symm)
        simp only [hne, false_and, or_false, hfree, hkey, decide_false]

theorem foldl_mapInsert_sorted {m : List (κ × ν)} (hm : MapSorted lt m) (es : List (κ × ν)) :
    MapSorted lt (es.foldl (mapInsert lt) m) := by
  induction es generalizing m with
  | nil => exact hm
  | cons e es ih => exact ih (mapSorted_insert lt hm e)

omit [DecidableRel lt] in
/-- The last value that is read is the one under the greatest key. -/
theorem getLast?_filterMap_eq_some_iff {m : List (κ × ν)} (hm : MapSorted lt m)
    {f : κ × ν → Option α} {a : α} :
    (m.filterMap f).getLast? = some a ↔
      ∃ e ∈ m, f e = some a ∧ ∀ e' ∈ m, f e' ≠ none → ¬ KeyLt lt e e' := by
  induction m using List.reverseRecOn with
  | nil => simp
  | append_singleton m x ih =>
      obtain ⟨hsorted, -, hlast⟩ := List.pairwise_append.mp hm
      have hbelow : ∀ e ∈ m, KeyLt lt e x := fun e he => hlast e he x (List.mem_singleton_self x)
      rw [List.filterMap_append]
      cases hx : f x with
      | none =>
          rw [List.filterMap_cons_none hx, List.filterMap_nil, List.append_nil, ih hsorted]
          constructor
          · rintro ⟨e, he, hfe, hmax⟩
            exact ⟨e, List.mem_append_left _ he, hfe, List.forall_mem_append.mpr
              ⟨hmax, List.forall_mem_singleton.mpr fun h => absurd hx h⟩⟩
          · rintro ⟨e, he, hfe, hmax⟩
            rcases List.mem_append.mp he with he | he
            · exact ⟨e, he, hfe, fun e' he' => hmax e' (List.mem_append_left _ he')⟩
            · rw [List.mem_singleton.mp he, hx] at hfe
              cases hfe
      | some b =>
          rw [List.filterMap_cons_some hx, List.filterMap_nil, List.getLast?_concat,
            Option.some.injEq]
          constructor
          · rintro rfl
            refine ⟨x, List.mem_append_right _ (List.mem_singleton_self x), hx,
              List.forall_mem_append.mpr ⟨fun e' he' _ hlt => ?_, ?_⟩⟩
            · exact asymm_of lt (hbelow e' he') hlt
            · exact List.forall_mem_singleton.mpr fun _ => irrefl_of lt x.1
          · rintro ⟨e, he, hfe, hmax⟩
            have hlast : ¬ KeyLt lt e x :=
              hmax x (List.mem_append_right _ (List.mem_singleton_self x)) (by simp [hx])
            rcases List.mem_append.mp he with he | he
            · exact absurd (hbelow e he) hlast
            · rw [List.mem_singleton.mp he, hx] at hfe
              exact Option.some.inj hfe

end Daobell.Lib
