import Mathlib.Data.List.Nodup

/-!
Reading and writing a store through a list of addresses. A store is a total
function from addresses to values; reading through a list of addresses is
`List.map`, and `scatter` writes values to a list of addresses in order. Two
addresses with one key are one cell, and what is written to one of them is seen
at the other. Everything a caller needs about a write is here: what it leaves
behind at the addresses it names, that it touches nothing else, how two writes
compose, and when it comes to the same as if no cell had two addresses.
-/

namespace Daobell.Lib

variable {α β γ : Type*} (key : α → γ)

/-- Values that can be at these addresses all at once. -/
def Fits (as : List α) (bs : List β) : Prop :=
  ∀ p ∈ as.zip bs, ∀ q ∈ as.zip bs, key p.1 = key q.1 → p.2 = q.2

instance [DecidableEq γ] [DecidableEq β] (as : List α) (bs : List β) :
    Decidable (Fits key as bs) :=
  inferInstanceAs (Decidable (∀ p ∈ as.zip bs, ∀ q ∈ as.zip bs, key p.1 = key q.1 → p.2 = q.2))

/-- What is at the addresses of a store is one value at each. -/
theorem fits_map_iff {as : List α} {c : α → β} :
    Fits key as (as.map c) ↔ ∀ a ∈ as, ∀ a' ∈ as, key a = key a' → c a = c a' := by
  simp only [Fits, ← List.map_prod_left_eq_zip, List.forall_mem_map]

variable [DecidableEq γ]

/-- Write the values to the addresses, in order. When there are fewer values
than addresses, the addresses at the end keep what they hold. -/
def scatter (m : α → β) : List α → List β → α → β
  | a :: as, b :: bs => scatter (fun x => if key x = key a then b else m x) as bs
  | _, _ => m

@[simp] theorem scatter_nil_right (m : α → β) (as : List α) : scatter key m as [] = m := by
  cases as <;> rfl

theorem scatter_of_notMem (m : α → β) (as : List α) (bs : List β) (x : α)
    (hx : key x ∉ as.map key) : scatter key m as bs x = m x := by
  induction as generalizing m bs with
  | nil => rfl
  | cons a as ih =>
      cases bs with
      | nil => rfl
      | cons b bs =>
          obtain ⟨hne, hx⟩ := List.ne_and_not_mem_of_not_mem_cons hx
          rw [scatter, ih _ bs hx, if_neg hne]

/-- What was written can be read back, when no cell is written to twice. -/
theorem map_scatter_self (m : α → β) (as : List α) (bs : List β) (hnd : (as.map key).Nodup)
    (hlen : as.length = bs.length) : as.map (scatter key m as bs) = bs := by
  induction as generalizing m bs with
  | nil =>
      have : bs = [] := List.length_eq_zero_iff.mp hlen.symm
      simp [this]
  | cons a as ih =>
      cases bs with
      | nil => simp at hlen
      | cons b bs =>
          obtain ⟨ha, hnd⟩ := List.nodup_cons.mp hnd
          simp only [List.length_cons, Nat.add_right_cancel_iff] at hlen
          rw [List.map_cons, scatter, ih _ bs hnd hlen, scatter_of_notMem key _ as bs a ha,
            if_pos rfl]

/-- A write does not show through addresses it does not name. -/
theorem map_scatter_disjoint (m : α → β) (as cs : List α) (bs : List β)
    (h : List.Disjoint (cs.map key) (as.map key)) : cs.map (scatter key m as bs) = cs.map m :=
  List.map_congr_left fun x hx => scatter_of_notMem key m as bs x (h (List.mem_map_of_mem hx))

/-- What is read through `as` after a write to a run of it: the values, and around
them what was there. -/
theorem map_scatter_run (m : α → β) {as : List α} (hnd : (as.map key).Nodup) {start : ℕ}
    {bs : List β} (hlen : start + bs.length ≤ as.length) :
    as.map (scatter key m ((as.drop start).take bs.length) bs) =
      (as.map m).take start ++ bs ++ (as.map m).drop (start + bs.length) := by
  generalize hrun : (as.drop start).take bs.length = run
  have hsplit : as = as.take start ++ (run ++ as.drop (start + bs.length)) := by
    rw [← hrun, ← List.drop_drop, List.take_append_drop, List.take_append_drop]
  have hrunlen : run.length = bs.length := by
    rw [← hrun, List.length_take, List.length_drop]
    omega
  have hnd' := hsplit ▸ hnd
  rw [List.map_append, List.map_append, List.nodup_append', List.nodup_append',
    List.disjoint_append_right] at hnd'
  obtain ⟨-, ⟨hrunnd, -, hafter⟩, hbefore, -⟩ := hnd'
  have hmap : as.map (scatter key m run bs) = (as.take start).map (scatter key m run bs) ++
      (run.map (scatter key m run bs) ++
        (as.drop (start + bs.length)).map (scatter key m run bs)) := by
    conv_lhs => rw [hsplit]
    rw [List.map_append, List.map_append]
  rw [hmap, map_scatter_disjoint key m run _ bs hbefore,
    map_scatter_self key m run bs hrunnd hrunlen,
    map_scatter_disjoint key m run _ bs (List.disjoint_symm hafter), List.map_take, List.map_drop,
    List.append_assoc]

/-! ### Cells with several addresses -/

/-- The addresses of a cell hold the same when they have done so before, or when the
cell has been written to. -/
theorem scatter_congr {m : α → β} {as : List α} {bs : List β} (hlen : as.length ≤ bs.length)
    {x y : α} (hxy : key x = key y) (h : m x = m y ∨ key x ∈ as.map key) :
    scatter key m as bs x = scatter key m as bs y := by
  induction as generalizing m bs with
  | nil => exact h.resolve_right List.not_mem_nil
  | cons a as ih =>
      cases bs with
      | nil => simp at hlen
      | cons b bs =>
          rw [scatter]
          refine ih (Nat.le_of_succ_le_succ hlen) ?_
          by_cases ha : key x = key a
          · exact .inl (by rw [if_pos ha, if_pos (hxy ▸ ha)])
          · refine h.imp (fun h => ?_) fun h => ?_
            · rw [if_neg ha, if_neg (hxy ▸ ha), h]
            · exact (List.mem_cons.mp h).resolve_left ha

/-- An address holds what it is to hold when it has done so before, or its cell has been
written to; none of the addresses that are written to may want the cell to hold something
else. -/
theorem scatter_map_eq {m c : α → β} {as : List α} {x : α} (hx : m x = c x ∨ key x ∈ as.map key)
    (hc : ∀ a ∈ as, key a = key x → c a = c x) : scatter key m as (as.map c) x = c x := by
  induction as generalizing m with
  | nil => exact hx.resolve_right List.not_mem_nil
  | cons a as ih =>
      rw [List.forall_mem_cons] at hc
      rw [List.map_cons, scatter]
      refine ih ?_ hc.2
      by_cases ha : key x = key a
      · exact .inl (by rw [if_pos ha, hc.1 ha.symm])
      · refine hx.imp (fun hx => ?_) fun hx => ?_
        · rw [if_neg ha, hx]
        · exact (List.mem_cons.mp hx).resolve_left ha

/-- A write comes to the same as if each address were a cell of its own just when it
asks no cell for two values, and the other addresses of each cell that it writes to hold
what it writes. -/
theorem scatter_eq_iff [DecidableEq α] {m : α → β} {as : List α} {bs : List β} (hnd : as.Nodup)
    (hlen : as.length = bs.length) :
    scatter key m as bs = scatter id m as bs ↔
      Fits key as bs ∧ ∀ q ∈ as.zip bs, ∀ p ∉ as, key p = key q.1 → m p = q.2 := by
  have hid : (as.map id).Nodup := by rwa [List.map_id]
  have hout : ∀ p ∉ as, scatter id m as bs p = m p := by
    intro p hp
    refine scatter_of_notMem id m as bs p ?_
    rwa [List.map_id]
  have hbs := map_scatter_self id m as bs hid hlen
  generalize scatter id m as bs = c at hout hbs
  subst hbs
  rw [fits_map_iff, ← List.map_prod_left_eq_zip, List.forall_mem_map]
  constructor
  · intro heq
    -- all addresses of a cell that is written to hold the same
    have hcell : ∀ q ∈ as, ∀ p, key p = key q → c p = c q := by
      intro q hq p hpq
      rw [← heq]
      exact scatter_congr key (Nat.le_of_eq hlen) hpq (.inr (hpq ▸ List.mem_map_of_mem hq))
    refine ⟨fun a ha a' ha' h => hcell a' ha' a h, fun q hq p hp hpq => ?_⟩
    rw [← hout p hp]
    exact hcell q hq p hpq
  · rintro ⟨hfits, hothers⟩
    funext x
    by_cases hx : key x ∈ as.map key
    · obtain ⟨q, hq, hqx⟩ := List.mem_map.mp hx
      have hxq : c x = c q := by
        by_cases hmem : x ∈ as
        · exact hfits x hmem q hq hqx.symm
        · rw [hout x hmem]
          exact hothers q hq x hmem hqx.symm
      refine scatter_map_eq key (.inr hx) fun a ha hax => ?_
      rw [hxq]
      exact hfits a ha q hq (hax.trans hqx.symm)
    · rw [scatter_of_notMem key m as _ x hx, hout x fun hmem => hx (List.mem_map_of_mem hmem)]

/-- Any values are those of a store in which each address is a cell of its own. -/
theorem exists_map_eq [DecidableEq α] [Nonempty β] {as : List α} {bs : List β} (hnd : as.Nodup)
    (hlen : as.length = bs.length) : ∃ c : α → β, as.map c = bs :=
  ⟨scatter id (fun _ => Classical.arbitrary β) as bs,
    map_scatter_self id _ as bs (by rwa [List.map_id]) hlen⟩

theorem eq_of_forall_map [DecidableEq α] {b₀ b₁ : β} (hne : b₀ ≠ b₁) {as cs : List α}
    (h : ∀ m : α → β, as.map m = cs.map m) : as = cs := by
  refine List.ext_getElem (by simpa using congrArg List.length (h fun _ => b₀)) fun i hi hi' => ?_
  -- a store that tells this address from all others
  have hi'' := congrArg (fun bs => bs[i]?) (h fun x => if x = cs[i] then b₁ else b₀)
  simp only [List.getElem?_map, List.getElem?_eq_getElem hi, List.getElem?_eq_getElem hi',
    Option.map_some, Option.some.injEq, if_true] at hi''
  by_contra hcontra
  rw [if_neg hcontra] at hi''
  exact hne hi''

/-- Writing two runs of addresses is writing the first and then the second. -/
theorem scatter_append (m : α → β) (as as' : List α) (bs bs' : List β)
    (hlen : as.length = bs.length) :
    scatter key m (as ++ as') (bs ++ bs') = scatter key (scatter key m as bs) as' bs' := by
  induction as generalizing m bs with
  | nil =>
      have : bs = [] := List.length_eq_zero_iff.mp hlen.symm
      simp [this]
  | cons a as ih =>
      cases bs with
      | nil => simp at hlen
      | cons b bs =>
          simp only [List.length_cons, Nat.add_right_cancel_iff] at hlen
          simp only [List.cons_append, scatter]
          exact ih _ bs hlen

end Daobell.Lib
