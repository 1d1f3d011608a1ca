import Mathlib.Data.List.Nodup
import Daobell.Lib.Runs

/-!
Handles that are acquired, used and released, as files and sockets are. The ledger of a
run is the list of the handles that are held. It refuses an action that uses or releases a
handle that is not held, or acquires one that is; so a run that it lets pass has each handle
open exactly where it is used, and one that it ends empty has released all of them.
-/

namespace Daobell.Lib

variable {α ρ : Type*}

/-- What each action acquires, uses and releases. -/
structure Custody (α ρ : Type*) where
  acquires : α → Option ρ
  uses : α → Option ρ
  releases : α → Option ρ

variable [DecidableEq ρ] (d : Custody α ρ)

def account (held : List ρ) (a : α) : Except Unit (List ρ) :=
  if (∀ r ∈ d.uses a, r ∈ held) ∧ (∀ r ∈ d.releases a, r ∈ held) ∧
      ∀ r ∈ d.acquires a, r ∉ held then
    .ok ((d.releases a).elim held held.erase ++ (d.acquires a).toList)
  else .error ()

variable {d} {held held' : List ρ} {a : α} {as : List α} {r : ρ}

theorem account_eq_ok :
    account d held a = .ok held' ↔
      ((∀ r ∈ d.uses a, r ∈ held) ∧ (∀ r ∈ d.releases a, r ∈ held) ∧
        ∀ r ∈ d.acquires a, r ∉ held) ∧
      held' = (d.releases a).elim held held.erase ++ (d.acquires a).toList := by
  rw [account]
  split
  · rw [Except.ok.injEq, eq_comm]
    exact ⟨fun h => ⟨‹_›, h⟩, fun h => h.2⟩
  · constructor
    · intro h
      cases h
    · intro h
      exact absurd h.1 ‹_›

theorem nodup_account (hheld : held.Nodup) (h : account d held a = .ok held') : held'.Nodup := by
  obtain ⟨⟨-, -, hfresh⟩, rfl⟩ := account_eq_ok.mp h
  have hsub : List.Sublist ((d.releases a).elim held held.erase) held := by
    cases d.releases a with
    | none => exact List.Sublist.refl _
    | some r => exact List.erase_sublist
  cases hacq : d.acquires a with
  | none => simpa using hheld.sublist hsub
  | some r =>
      have hr : r ∉ (d.releases a).elim held held.erase :=
        fun hmem => hfresh r hacq (hsub.subset hmem)
      simpa [List.nodup_append] using ⟨hheld.sublist hsub, fun b hb hbr => hr (hbr ▸ hb)⟩

theorem count_account (h : account d held a = .ok held') :
    held'.count r + (if d.releases a = some r then 1 else 0) =
      held.count r + if d.acquires a = some r then 1 else 0 := by
  obtain ⟨⟨-, hrel, -⟩, rfl⟩ := account_eq_ok.mp h
  have herase : ((d.releases a).elim held held.erase).count r +
      (if d.releases a = some r then 1 else 0) = held.count r := by
    cases hra : d.releases a with
    | none => simp
    | some r' =>
        have hmem := List.count_pos_iff.mpr (hrel r' hra)
        by_cases heq : r' = r
        · subst heq
          rw [if_pos rfl, Option.elim_some, List.count_erase_self]
          omega
        · rw [if_neg fun h => heq (Option.some.inj h), Option.elim_some, List.count_erase_of_ne]
          · rfl
          · exact fun h => heq h.symm
  have htoList : (d.acquires a).toList.count r = if d.acquires a = some r then 1 else 0 := by
    cases d.acquires a with
    | none => simp
    | some r' =>
        rw [Option.toList_some, List.count_singleton]
        simp only [beq_iff_eq, Option.some.injEq]
  rw [List.count_append, htoList]
  omega

/-- The ledger of a run holds each handle as many times as it has been acquired more often
than released. -/
theorem count_run (h : run (account d) held as = .ok held') :
    held'.count r + as.countP (fun a => d.releases a = some r) =
      held.count r + as.countP (fun a => d.acquires a = some r) := by
  induction as generalizing held with
  | nil =>
      cases h
      rfl
  | cons a as ih =>
      obtain ⟨mid, ha, hrest⟩ := (run_cons_eq_ok _).mp h
      have hstep := count_account (r := r) ha
      have := ih hrest
      simp only [List.countP_cons, decide_eq_true_eq]
      omega

theorem nodup_run (hheld : held.Nodup) (h : run (account d) held as = .ok held') :
    held'.Nodup :=
  run_invariant_of_step _ (fun _ _ _ => nodup_account) hheld h

/-- What is used is open: it has been acquired once more often than released. -/
theorem open_of_uses {pre post : List α} (h : run (account d) [] (pre ++ a :: post) = .ok held)
    (hr : d.uses a = some r) :
    pre.countP (fun a => d.acquires a = some r) =
      pre.countP (fun a => d.releases a = some r) + 1 := by
  obtain ⟨mid, hpre, hrest⟩ := (run_append_eq_ok _).mp h
  obtain ⟨_, ha, -⟩ := (run_cons_eq_ok _).mp hrest
  have hmem : r ∈ mid := (account_eq_ok.mp ha).1.1 r hr
  have hone : mid.count r = 1 := List.count_eq_one_of_mem (nodup_run List.nodup_nil hpre) hmem
  have hcount := count_run (r := r) hpre
  rw [List.count_nil] at hcount
  omega

/-- A run after which nothing is held has released what it has acquired. -/
theorem released_of_run (h : run (account d) [] as = .ok []) (r : ρ) :
    as.countP (fun a => d.acquires a = some r) = as.countP fun a => d.releases a = some r := by
  have hcount := count_run (r := r) h
  simpa using hcount.symm

end Daobell.Lib
