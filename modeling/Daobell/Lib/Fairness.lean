import Daobell.Lib.Runs
import Mathlib.Data.List.Range
import Mathlib.Data.Nat.Find

/-!
Runs under an infinite schedule. When every step either leaves the state alone or
lowers a measure, a schedule comes to a state that it never leaves again; and when
the schedule is fair, so that every kind of action comes again and again, no kind
of action has an effect in that state. What holds of every such state is
therefore reached and kept. Where other steps go round in between, it is enough that
some kind of action lowers the measure, and that nothing else prevents it.
-/

namespace Daobell.Lib

variable {σ α ε ι : Type*} (step : σ → α → Except ε σ)

/-- The first `k` actions of a schedule. -/
def firstActs (sched : ℕ → α) (k : ℕ) : List α := (List.range k).map sched

@[simp] theorem firstActs_zero (sched : ℕ → α) : firstActs sched 0 = [] := rfl

theorem firstActs_add (sched : ℕ → α) (k l : ℕ) :
    firstActs sched (k + l) = firstActs sched k ++ firstActs (fun i => sched (k + i)) l := by
  simp [firstActs, List.range_add, List.map_map, Function.comp_def]

theorem firstActs_succ (sched : ℕ → α) (k : ℕ) :
    firstActs sched (k + 1) = firstActs sched k ++ [sched k] :=
  firstActs_add sched k 1

theorem run_firstActs_add {s m t : σ} {sched : ℕ → α} {k l : ℕ}
    (hm : run step s (firstActs sched k) = .ok m)
    (ht : run step m (firstActs (fun i => sched (k + i)) l) = .ok t) :
    run step s (firstActs sched (k + l)) = .ok t := by
  rw [firstActs_add, run_append_eq_ok]
  exact ⟨m, hm, ht⟩

/-- Every kind of action comes again and again. -/
def Fair (kinds : ι → α → Prop) (sched : ℕ → α) : Prop := ∀ i k, ∃ l, k ≤ l ∧ kinds i (sched l)

theorem Fair.drop {kinds : ι → α → Prop} {sched : ℕ → α} (h : Fair kinds sched) (n : ℕ) :
    Fair kinds fun i => sched (n + i) := by
  intro i k
  obtain ⟨l, hl, hkind⟩ := h i (n + k)
  refine ⟨l - n, by omega, ?_⟩
  dsimp only
  rwa [Nat.add_sub_cancel' (by omega)]

/-- As long as no action moves the system, it stays where it is. -/
theorem run_firstActs_of_still {s : σ} {sched : ℕ → α} {k : ℕ}
    (h : ∀ j < k, step s (sched j) = .ok s) : run step s (firstActs sched k) = .ok s := by
  induction k with
  | zero => rfl
  | succ k ih =>
      rw [firstActs_succ, run_append_eq_ok]
      exact ⟨s, ih fun j hj => h j (by omega), run_cons_of_ok step (h k (by omega)) []⟩

theorem exists_first_move {s : σ} {sched : ℕ → α} (h : ¬ ∀ k, step s (sched k) = .ok s) :
    ∃ k, step s (sched k) ≠ .ok s ∧ run step s (firstActs sched k) = .ok s := by
  classical
  have hmove : ∃ k, step s (sched k) ≠ .ok s := not_forall.mp h
  exact ⟨Nat.find hmove, Nat.find_spec hmove,
    run_firstActs_of_still step fun j hj => not_not.mp (Nat.find_min hmove hj)⟩

/-- **The ranking rule.** Under an invariant, let every step leave the state alone or
lower the measure, and let `D` hold of the states that some action of every kind
leaves alone. Then a fair schedule comes to a state with `D` and stays there. -/
theorem run_settles {I D : σ → Prop} {A : α → Prop} (μ : σ → ℕ) {kinds : ι → α → Prop}
    (hstep : ∀ s a, I s → A a → ∃ s', step s a = .ok s' ∧ I s' ∧ (s' = s ∨ μ s' < μ s))
    (hstill : ∀ s, I s → (∀ i, ∃ a, kinds i a ∧ step s a = .ok s) → D s) {s : σ} (hI : I s)
    {sched : ℕ → α} (hA : ∀ k, A (sched k)) (hfair : Fair kinds sched) :
    ∃ n t, D t ∧ ∀ k, run step s (firstActs sched (n + k)) = .ok t := by
  induction hn : μ s using Nat.strong_induction_on generalizing s sched with
  | _ m ih =>
      by_cases hmoves : ∀ k, step s (sched k) = .ok s
      · refine ⟨0, s, hstill s hI fun i => ?_, fun k => ?_⟩
        · obtain ⟨l, -, hkind⟩ := hfair i 0
          exact ⟨sched l, hkind, hmoves l⟩
        · rw [Nat.zero_add]
          exact run_firstActs_of_still step fun j _ => hmoves j
      · obtain ⟨k, hne, hrun⟩ := exists_first_move step hmoves
        obtain ⟨s', heq, hI', hless⟩ := hstep s (sched k) hI (hA k)
        have hless' : μ s' < μ s := by
          refine hless.resolve_left ?_
          rintro rfl
          exact hne heq
        obtain ⟨n, t, hD, hrest⟩ := ih (μ s') (hn ▸ hless') hI'
          (fun i => hA (k + 1 + i)) (hfair.drop (k + 1)) rfl
        refine ⟨k + 1 + n, t, hD, fun l => ?_⟩
        rw [Nat.add_assoc]
        refine run_firstActs_add step ?_ (hrest l)
        rw [firstActs_succ, run_append_eq_ok]
        exact ⟨s, hrun, run_cons_of_ok step heq []⟩

/-- **The rule of the helpful action.** Under an invariant, let no step raise the measure.
Outside `D`, let some kind of action be helpful: every action of the kind lowers the
measure, and the kind stays helpful until the measure is lowered. Then a fair schedule
comes to a state with `D`. -/
theorem run_reaches {I D : σ → Prop} (μ : σ → ℕ) {kinds : ι → α → Prop} {H : ι → σ → Prop}
    (hstep : ∀ s a, I s → ∃ s', step s a = .ok s' ∧ I s' ∧
      (μ s' < μ s ∨ μ s' = μ s ∧ ∀ i, H i s → H i s' ∧ ¬ kinds i a))
    (hhelp : ∀ s, I s → D s ∨ ∃ i, H i s) {s : σ} (hI : I s) {sched : ℕ → α}
    (hfair : Fair kinds sched) :
    ∃ n t, run step s (firstActs sched n) = .ok t ∧ I t ∧ D t := by
  induction hn : μ s using Nat.strong_induction_on generalizing s sched with
  | _ m ih =>
      obtain hD | ⟨i, hi⟩ := hhelp s hI
      · exact ⟨0, s, rfl, hI, hD⟩
      -- the helpful kind comes at some time, if the measure is not lowered before
      obtain ⟨l, -, hkind⟩ := hfair i 0
      induction l generalizing s sched with
      | zero =>
          obtain ⟨s', heq, hI', hless | ⟨-, hkeep⟩⟩ := hstep s (sched 0) hI
          · obtain ⟨n, t, hrun, ht⟩ := ih (μ s') (hn ▸ hless) hI' (hfair.drop 1) rfl
            exact ⟨1 + n, t, run_firstActs_add step (run_cons_of_ok step heq []) hrun, ht⟩
          · exact absurd hkind (hkeep i hi).2
      | succ l ihl =>
          obtain ⟨s', heq, hI', hmove⟩ := hstep s (sched 0) hI
          obtain ⟨n, t, hrun, ht⟩ : ∃ n t,
              run step s' (firstActs (fun k => sched (1 + k)) n) = .ok t ∧ I t ∧ D t := by
            rcases hmove with hless | ⟨hsame, hkeep⟩
            · exact ih (μ s') (hn ▸ hless) hI' (hfair.drop 1) rfl
            · refine ihl hI' (hfair.drop 1) (hsame.trans hn) (hkeep i hi).1 ?_
              rwa [Nat.add_comm]
          exact ⟨1 + n, t, run_firstActs_add step (run_cons_of_ok step heq []) hrun, ht⟩

end Daobell.Lib
