import Mathlib.Data.List.Infix

/-!
Paths in a tree of names. A place is the list of names on the way down from the
root, and a path goes from it step by step: it stays, goes up or goes down to a
name, and above the root is the root again. In the end a path has climbed some
levels and gone down some names, and these do not depend on where it starts.
-/

namespace Daobell.Lib

/-! ### Walking -/

inductive PathStep (α : Type*)
  | stay
  | up
  | down (name : α)

section

variable {α : Type*}

def PathStep.move (place : List α) : PathStep α → List α
  | .stay => place
  | .up => place.dropLast
  | .down name => place ++ [name]

def walk (place : List α) (steps : List (PathStep α)) : List α :=
  steps.foldl PathStep.move place

theorem walk_append (place : List α) (as bs : List (PathStep α)) :
    walk place (as ++ bs) = walk (walk place as) bs :=
  List.foldl_append

/-- What is left of a path when it is collapsed: so many levels up, and then
these names down. -/
structure Collapsed (α : Type*) where
  climbs : ℕ
  names : List α

def Collapsed.move (place : List α) (c : Collapsed α) : List α :=
  place.take (place.length - c.climbs) ++ c.names

/-- One more step: to go up takes back the last name, and where there is none
climbs. -/
def Collapsed.step : Collapsed α → PathStep α → Collapsed α
  | c, .stay => c
  | ⟨climbs, []⟩, .up => ⟨climbs + 1, []⟩
  | ⟨climbs, name :: names⟩, .up => ⟨climbs, (name :: names).dropLast⟩
  | ⟨climbs, names⟩, .down name => ⟨climbs, names ++ [name]⟩

def collapse (steps : List (PathStep α)) : Collapsed α :=
  steps.foldl Collapsed.step ⟨0, []⟩

theorem Collapsed.move_step (place : List α) (c : Collapsed α) (s : PathStep α) :
    (c.step s).move place = s.move (c.move place) := by
  obtain ⟨climbs, names⟩ := c
  cases s with
  | stay => rfl
  | up =>
      cases names with
      | nil =>
          simp only [step, move, PathStep.move, List.append_nil, List.dropLast_eq_take,
            List.length_take, List.take_take]
          congr 1
          omega
      | cons name names =>
          simp only [step, move, PathStep.move]
          rw [List.dropLast_append_of_ne_nil (List.cons_ne_nil name names)]
  | down name =>
      simp only [step, move, PathStep.move, List.append_assoc]

theorem walk_eq (place : List α) (steps : List (PathStep α)) :
    walk place steps = (collapse steps).move place := by
  have hgo : ∀ c : Collapsed α,
      walk (c.move place) steps = (steps.foldl Collapsed.step c).move place := by
    induction steps with
    | nil => exact fun _ => rfl
    | cons s steps ih =>
        intro c
        rw [List.foldl_cons, ← ih, Collapsed.move_step]
        rfl
  have hstart : Collapsed.move place ⟨0, []⟩ = place := by
    simp [Collapsed.move]
  rw [collapse, ← hgo, hstart]

theorem collapse_down (names : List α) : collapse (names.map .down) = ⟨0, names⟩ := by
  have hgo : ∀ before : List α,
      (names.map PathStep.down).foldl Collapsed.step ⟨0, before⟩ = ⟨0, before ++ names⟩ := by
    induction names with
    | nil => simp
    | cons name names ih =>
        intro before
        rw [List.map_cons, List.foldl_cons, Collapsed.step, ih, List.append_assoc,
          List.singleton_append]
  exact hgo []

/-! ### Below a directory -/

/-- Strictly below: further down on a way through `dir`. -/
def Below (dir place : List α) : Prop := dir <+: place ∧ dir ≠ place

instance [DecidableEq α] (dir place : List α) : Decidable (Below dir place) :=
  inferInstanceAs (Decidable (_ ∧ _))

theorem below_append_iff (place dir names : List α) :
    Below (place ++ dir) (place ++ names) ↔ Below dir names := by
  rw [Below, Below, List.prefix_append_right_inj, ne_eq, ne_eq, List.append_cancel_left_eq]

@[simp] theorem below_nil_iff (names : List α) : Below [] names ↔ names ≠ [] :=
  ⟨fun h => h.2.symm, fun h => ⟨List.nil_prefix, h.symm⟩⟩

/-- A path from a place on the way to `dir` leads below `dir` when the names it
goes down begin with those it lacks of `dir`, and do not end there. -/
theorem below_move_iff {place dir : List α} (h : place <+: dir) (c : Collapsed α) :
    Below dir (c.move place) ↔ Below (dir.drop (place.length - c.climbs)) c.names := by
  have hdir : dir = place.take (place.length - c.climbs) ++ dir.drop (place.length - c.climbs) := by
    obtain ⟨rest, rfl⟩ := h
    have htake := List.take_append_drop (place.length - c.climbs) (place ++ rest)
    rwa [List.take_append_of_le_length (Nat.sub_le _ _), eq_comm] at htake
  rw [Collapsed.move]
  conv_lhs => rw [hdir]
  exact below_append_iff _ _ _

end

/-! ### Paths as written -/

section

variable {β : Type*} [DecidableEq β] (sep dot : β)

def pathStep (name : List β) : PathStep (List β) :=
  if name = [] ∨ name = [dot] then .stay
  else if name = [dot, dot] then .up
  else .down name

/-- The steps of a path: those of the names between its separators. -/
def pathSteps (path : List β) : List (PathStep (List β)) :=
  (path.splitOn sep).map (pathStep dot)

theorem pathSteps_append (path rest : List β) :
    pathSteps sep dot (path ++ sep :: rest) = pathSteps sep dot path ++ pathSteps sep dot rest := by
  rw [pathSteps, List.splitOn_append_cons_self, List.map_append]
  rfl

/-- A name that is nothing but a name. -/
structure PlainName (name : List β) : Prop where
  ne_nil : name ≠ []
  ne_dot : name ≠ [dot]
  ne_dots : name ≠ [dot, dot]
  sep_notMem : sep ∉ name

variable {sep dot}

theorem PlainName.pathStep {name : List β} (h : PlainName sep dot name) :
    pathStep dot name = .down name := by
  rw [Lib.pathStep, if_neg (not_or.mpr ⟨h.ne_nil, h.ne_dot⟩), if_neg h.ne_dots]

theorem PlainName.pathSteps {name : List β} (h : PlainName sep dot name) :
    pathSteps sep dot name = [.down name] := by
  rw [Lib.pathSteps, List.splitOn_eq_singleton h.sep_notMem, List.map_singleton, h.pathStep]

theorem pathSteps_intercalate {names : List (List β)} (hplain : ∀ name ∈ names, PlainName sep dot name)
    (hne : names ≠ []) :
    pathSteps sep dot ([sep].intercalate names) = names.map .down := by
  rw [pathSteps, List.splitOn_intercalate sep (fun name h => (hplain name h).sep_notMem) hne]
  exact List.map_congr_left fun name h => (hplain name h).pathStep

end

end Daobell.Lib
