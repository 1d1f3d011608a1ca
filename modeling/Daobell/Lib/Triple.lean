import Mathlib.Logic.Basic

/-!
Programs that change a state and may leave at any point, and what is said of them before
and after: where a program returns, a condition on its value and the state holds, where it
leaves, one on why it has left. The rules go along the program, so that a proof about one
call after the other is a list of what is known in between.
-/

namespace Daobell.Lib

variable {σ ε α β : Type}

/-- From every state with `P`, the program comes to `Q` where it returns, and to `E` where
it leaves. -/
def Triple (P : σ → Prop) (m : EStateM ε σ α) (Q : α → σ → Prop) (E : ε → σ → Prop) : Prop :=
  ∀ s, P s →
    match m s with
    | .ok a s' => Q a s'
    | .error e s' => E e s'

namespace Triple

variable {P P' : σ → Prop} {Q Q' : α → σ → Prop} {R : β → σ → Prop} {E E' : ε → σ → Prop}
  {m : EStateM ε σ α} {f : α → EStateM ε σ β}

theorem pure {a : α} (h : ∀ s, P s → Q a s) : Triple P (Pure.pure a : EStateM ε σ α) Q E := h

theorem throw {e : ε} (h : ∀ s, P s → E e s) :
    Triple P (MonadExcept.throw e : EStateM ε σ α) Q E := h

theorem bind (hm : Triple P m Q E) (hf : ∀ a, Triple (Q a) (f a) R E) :
    Triple P (m >>= f) R E := by
  intro s hs
  have h := hm s hs
  show match EStateM.bind m f s with
    | .ok b s' => R b s'
    | .error e s' => E e s'
  rw [EStateM.bind]
  cases hms : m s with
  | ok a s' =>
      rw [hms] at h
      exact hf a s' h
  | error e s' =>
      rw [hms] at h
      exact h

/-- The first program is there for what it does to the state. -/
theorem seq {m : EStateM ε σ PUnit} {n : EStateM ε σ β} {Q : σ → Prop}
    (hm : Triple P m (fun _ => Q) E) (hn : Triple Q n R E) : Triple P (m >>= fun _ => n) R E :=
  hm.bind fun _ => hn

theorem mono (h : Triple P m Q E) (hP : ∀ s, P' s → P s) (hQ : ∀ a s, Q a s → Q' a s)
    (hE : ∀ e s, E e s → E' e s) : Triple P' m Q' E' := by
  intro s hs
  have h := h s (hP s hs)
  cases hms : m s with
  | ok a s' =>
      rw [hms] at h
      exact hQ a s' h
  | error e s' =>
      rw [hms] at h
      exact hE e s' h

theorem weaken (h : Triple P m Q E) (hQ : ∀ a s, Q a s → Q' a s) : Triple P m Q' E :=
  h.mono (fun _ => id) hQ fun _ _ => id

theorem assume {p : Prop} (h : p → Triple P m Q E) : Triple (fun s => p ∧ P s) m Q E :=
  fun s hs => h hs.1 s hs.2

theorem exists_pre {ι : Sort*} {P : ι → σ → Prop} (h : ∀ i, Triple (P i) m Q E) :
    Triple (fun s => ∃ i, P i s) m Q E :=
  fun s ⟨i, hs⟩ => h i s hs

theorem get {Q : σ → σ → Prop} (h : ∀ s, P s → Q s s) :
    Triple P (MonadState.get : EStateM ε σ σ) Q E := h

theorem modify {g : σ → σ} {Q : PUnit → σ → Prop} (h : ∀ s, P s → Q ⟨⟩ (g s)) :
    Triple P (modifyGet fun s => (PUnit.unit, g s) : EStateM ε σ PUnit) Q E := h

theorem ite {c : Prop} [Decidable c] {m n : EStateM ε σ α} (hm : c → Triple P m Q E)
    (hn : ¬ c → Triple P n Q E) : Triple P (if c then m else n) Q E := by
  split
  · exact hm ‹c›
  · exact hn ‹¬ c›

/-- A loop over a list keeps what each of its rounds keeps. -/
theorem forM {ι : Type} {I : List ι → σ → Prop} {g : ι → EStateM ε σ PUnit}
    (h : ∀ i is, Triple (I (i :: is)) (g i) (fun _ => I is) E) (is : List ι) :
    Triple (I is) (is.forM g) (fun _ => I []) E := by
  induction is with
  | nil => exact Triple.pure fun _ => id
  | cons i is ih => exact (h i is).seq ih

end Triple

end Daobell.Lib
