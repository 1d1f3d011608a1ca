import Mathlib.Logic.Basic

/-!
Runs of a system whose steps may fail. A step takes a state and an action and
either gives the next state or stops the system with an error; a run performs
a list of actions. The induction over runs is done here once: an invariant of
the step is an invariant of every run, and when the step never fails under the
invariant, no run does.
-/

namespace Daobell.Lib

variable {σ α ε : Type*} (step : σ → α → Except ε σ)

/-- Perform the actions in order, stopping at the first one that fails. -/
def run (s : σ) : List α → Except ε σ
  | [] => .ok s
  | a :: as =>
      match step s a with
      | .error e => .error e
      | .ok s' => run s' as

@[simp] theorem run_nil (s : σ) : run step s [] = .ok s := rfl

theorem run_cons_of_ok {s s' : σ} {a : α} (h : step s a = .ok s') (as : List α) :
    run step s (a :: as) = run step s' as := by
  rw [run, h]

theorem run_cons_eq_ok {s t : σ} {a : α} {as : List α} :
    run step s (a :: as) = .ok t ↔ ∃ s', step s a = .ok s' ∧ run step s' as = .ok t := by
  rw [run]
  cases step s a <;> simp

theorem run_append_eq_ok {s t : σ} {as bs : List α} :
    run step s (as ++ bs) = .ok t ↔ ∃ m, run step s as = .ok m ∧ run step m bs = .ok t := by
  induction as generalizing s with
  | nil => simp
  | cons a as ih =>
      simp only [List.cons_append, run_cons_eq_ok, ih]
      constructor
      · rintro ⟨s', h, m, h₁, h₂⟩
        exact ⟨m, ⟨s', h, h₁⟩, h₂⟩
      · rintro ⟨m, ⟨s', h, h₁⟩, h₂⟩
        exact ⟨s', h, m, h₁, h₂⟩

/-- Every step of the run is taken in a state, and with an action, that meet
the condition. -/
def RunMeets (C : σ → α → Prop) (s : σ) : List α → Prop
  | [] => True
  | a :: as => C s a ∧ ∀ s', step s a = .ok s' → RunMeets C s' as

instance decidableRunMeets {C : σ → α → Prop} [∀ s a, Decidable (C s a)] :
    (s : σ) → (as : List α) → Decidable (RunMeets step C s as)
  | _, [] => isTrue trivial
  | s, a :: as =>
      have : Decidable (∀ s', step s a = .ok s' → RunMeets step C s' as) :=
        match _h : step s a with
        | .error _ => isTrue fun _ h' => nomatch h'
        | .ok s' =>
            have : Decidable (RunMeets step C s' as) := decidableRunMeets s' as
            decidable_of_iff (RunMeets step C s' as)
              ⟨fun hm _ h' => Except.ok.inj h' ▸ hm, fun hm => hm s' rfl⟩
      inferInstanceAs (Decidable (C s a ∧ ∀ s', step s a = .ok s' → RunMeets step C s' as))

/-- Whether a call returns a value that `P` holds of. -/
instance decidableReturns {τ : Type*} {P : τ → Prop} [DecidablePred P] :
    (r : Except ε τ) → Decidable (∃ t, r = .ok t ∧ P t)
  | .error _ => isFalse fun ⟨_, h, _⟩ => nomatch h
  | .ok t => decidable_of_iff (P t) ⟨fun h => ⟨t, rfl, h⟩, fun ⟨_, h, hP⟩ => Except.ok.inj h ▸ hP⟩

variable {step} in
/-- Under an invariant, one condition on the steps gives another. -/
theorem RunMeets.of_invariant {I : σ → Prop} {C D : σ → α → Prop} {s : σ} {as : List α}
    (h : RunMeets step C s as) (hI : I s)
    (hstep : ∀ s a s', I s → C s a → step s a = .ok s' → I s')
    (hD : ∀ s a, I s → C s a → D s a) : RunMeets step D s as := by
  induction as generalizing s with
  | nil => trivial
  | cons a as ih =>
      exact ⟨hD s a hI h.1, fun s' hs => ih (h.2 s' hs) (hstep s a s' hI h.1 hs)⟩

variable {step} in
theorem RunMeets.mono {C D : σ → α → Prop} {s : σ} {as : List α} (h : RunMeets step C s as)
    (hCD : ∀ s a, C s a → D s a) : RunMeets step D s as :=
  h.of_invariant (I := fun _ => True) trivial (fun _ _ _ _ _ _ => trivial) fun s a _ => hCD s a

/-- A condition on the steps, as one on the states that the beginnings of the run
reach and the actions that come next. -/
theorem runMeets_iff {C : σ → α → Prop} {s : σ} {as : List α} :
    RunMeets step C s as ↔
      ∀ k t a, run step s (as.take k) = .ok t → as[k]? = some a → C t a := by
  induction as generalizing s with
  | nil => simp [RunMeets]
  | cons a as ih =>
      rw [RunMeets]
      constructor
      · rintro ⟨hC, hrest⟩ k t b hrun hb
        cases k with
        | zero =>
            cases hrun
            cases hb
            exact hC
        | succ k =>
            obtain ⟨s', hs, hrun⟩ := (run_cons_eq_ok step).mp hrun
            exact ih.mp (hrest s' hs) k t b hrun hb
      · refine fun h => ⟨h 0 s a rfl rfl, fun s' hs => ih.mpr fun k t b hrun hb => ?_⟩
        exact h (k + 1) t b ((run_cons_of_ok step hs _).trans hrun) hb

theorem runMeets_append {C : σ → α → Prop} {s : σ} {as bs : List α} :
    RunMeets step C s (as ++ bs) ↔
      RunMeets step C s as ∧ ∀ t, run step s as = .ok t → RunMeets step C t bs := by
  induction as generalizing s with
  | nil => simp [RunMeets]
  | cons a as ih =>
      simp only [List.cons_append, RunMeets, ih, run_cons_eq_ok]
      constructor
      · rintro ⟨hC, hrest⟩
        exact ⟨⟨hC, fun s' hs => (hrest s' hs).1⟩, fun t ⟨s', hs, hrun⟩ => (hrest s' hs).2 t hrun⟩
      · rintro ⟨⟨hC, hmeets⟩, hrest⟩
        exact ⟨hC, fun s' hs => ⟨hmeets s' hs, fun t hrun => hrest t ⟨s', hs, hrun⟩⟩⟩

theorem RunMeets.take {C : σ → α → Prop} {s : σ} {as : List α} (h : RunMeets step C s as)
    (k : Nat) : RunMeets step C s (as.take k) :=
  ((runMeets_append step).mp (by rwa [List.take_append_drop])).1

theorem RunMeets.last {C : σ → α → Prop} {s t : σ} {as : List α} {a : α}
    (h : RunMeets step C s (as ++ [a])) (hrun : run step s as = .ok t) : C t a :=
  (runMeets_iff step).mp h as.length t a (by rwa [List.take_left]) (by simp)

theorem runMeets_of_forall {C : σ → α → Prop} {as : List α} (h : ∀ a ∈ as, ∀ s, C s a) (s : σ) :
    RunMeets step C s as := by
  induction as generalizing s with
  | nil => trivial
  | cons a as ih =>
      exact ⟨h a List.mem_cons_self s,
        fun s' _ => ih (fun b hb => h b (List.mem_cons_of_mem a hb)) s'⟩

/-- **The invariant rule.** What one step preserves under a condition, a run
whose steps meet the condition preserves. -/
theorem run_invariant {I : σ → Prop} {C : σ → α → Prop}
    (hstep : ∀ s a s', I s → C s a → step s a = .ok s' → I s') {s t : σ} {as : List α}
    (hI : I s) (hC : RunMeets step C s as) (hrun : run step s as = .ok t) : I t := by
  induction as generalizing s with
  | nil =>
      rw [run_nil, Except.ok.injEq] at hrun
      exact hrun ▸ hI
  | cons a as ih =>
      obtain ⟨s', hs, hrest⟩ := (run_cons_eq_ok step).mp hrun
      exact ih (hstep s a s' hI hC.1 hs) (hC.2 s' hs) hrest

theorem run_invariant_of_step {I : σ → Prop}
    (hstep : ∀ s a s', I s → step s a = .ok s' → I s') {s t : σ} {as : List α} (hI : I s)
    (hrun : run step s as = .ok t) : I t :=
  run_invariant step (C := fun _ _ => True) (fun s a s' hs _ => hstep s a s' hs) hI
    (runMeets_of_forall step (fun _ _ _ => trivial) s) hrun

/-- **The progress rule.** When a step under the invariant and with an allowed
action succeeds and keeps the invariant, so does every run of such actions. -/
theorem run_progress {I : σ → Prop} {A : α → Prop}
    (hstep : ∀ s a, I s → A a → ∃ s', step s a = .ok s' ∧ I s') {s : σ} {as : List α}
    (hI : I s) (hA : ∀ a ∈ as, A a) : ∃ t, run step s as = .ok t ∧ I t := by
  induction as generalizing s with
  | nil => exact ⟨s, rfl, hI⟩
  | cons a as ih =>
      obtain ⟨s', hs, hI'⟩ := hstep s a hI (hA a List.mem_cons_self)
      rw [run_cons_of_ok step hs]
      exact ih hI' fun b hb => hA b (List.mem_cons_of_mem a hb)

/-- A relation that is reflexive and transitive, and holds across each step
under the invariant, holds across a run. -/
theorem run_relation {I : σ → Prop} {R : σ → σ → Prop} (hrefl : ∀ s, R s s)
    (htrans : ∀ s t u, R s t → R t u → R s u)
    (hstep : ∀ s a s', I s → step s a = .ok s' → I s' ∧ R s s') {s t : σ} {as : List α}
    (hI : I s) (hrun : run step s as = .ok t) : R s t := by
  induction as generalizing s with
  | nil =>
      rw [run_nil, Except.ok.injEq] at hrun
      exact hrun ▸ hrefl s
  | cons a as ih =>
      obtain ⟨s', hs, hrest⟩ := (run_cons_eq_ok step).mp hrun
      obtain ⟨hI', hR⟩ := hstep s a s' hI hs
      exact htrans s s' t hR (ih hI' hrest)

/-- An invariant of the state and of the actions that have led to it. -/
theorem run_history {I : List α → σ → Prop}
    (hstep : ∀ as s a s', I as s → step s a = .ok s' → I (as ++ [a]) s') {pre as : List α}
    {s t : σ} (hI : I pre s) (hrun : run step s as = .ok t) : I (pre ++ as) t := by
  induction as generalizing pre s with
  | nil =>
      rw [run_nil, Except.ok.injEq] at hrun
      rwa [List.append_nil, ← hrun]
  | cons a as ih =>
      obtain ⟨s', hs, hrest⟩ := (run_cons_eq_ok step).mp hrun
      have hnext := ih (hstep pre s a s' hI hs) hrest
      rwa [List.append_assoc, List.singleton_append] at hnext

end Daobell.Lib
