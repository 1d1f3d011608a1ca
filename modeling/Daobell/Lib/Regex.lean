import Mathlib.Data.List.TakeWhile

/-!
Regular expressions that are matched by backtracking. The ways in which an
expression matches the beginning of a text come in the order in which they are
tried: an alternative from the left, an option first with and then without, a
repetition with as much as there is first. A match of a whole text is the first
way that leaves nothing over. To find it, one follows the first way as long as it
can be gone on with.
-/

namespace Daobell.Lib

/-- Repetition is of one character at a time. A group is captured. -/
inductive Regex (α : Type*)
  | cls (p : α → Bool)
  | lit (text : List α)
  | seq (r s : Regex α)
  | alt (r s : Regex α)
  | opt (r : Regex α)
  | many (p : α → Bool)
  | group (r : Regex α)

namespace Regex

variable {α : Type*}

def many1 (p : α → Bool) : Regex α := .seq (.cls p) (.many p)

/-- What a repetition may leave over. -/
def manyRests (p : α → Bool) : List α → List (List α)
  | [] => [[]]
  | a :: inp => if p a then manyRests p inp ++ [a :: inp] else [a :: inp]

theorem exists_of_mem_manyRests {p : α → Bool} {inp rest : List α} (h : rest ∈ manyRests p inp) :
    ∃ used, inp = used ++ rest ∧ ∀ a ∈ used, p a = true := by
  induction inp with
  | nil => exact ⟨[], by simpa [manyRests, eq_comm] using h, by simp⟩
  | cons a inp ih =>
      rw [manyRests] at h
      split at h
      · rename_i hp
        rcases List.mem_append.mp h with h | h
        · obtain ⟨used, rfl, hused⟩ := ih h
          exact ⟨a :: used, rfl, List.forall_mem_cons.mpr ⟨hp, hused⟩⟩
        · exact ⟨[], (List.mem_singleton.mp h).symm, by simp⟩
      · exact ⟨[], (List.mem_singleton.mp h).symm, by simp⟩

theorem take_length_sub (used rest : List α) :
    (used ++ rest).take ((used ++ rest).length - rest.length) = used := by
  rw [List.length_append, Nat.add_sub_cancel, List.take_left]

section

variable [DecidableEq α]

/-- The ways to match the beginning of a text: the groups captured, and what is left. -/
def ways : Regex α → List α → List (List (List α) × List α)
  | .cls p, inp => if inp.head?.any p then [([], inp.tail)] else []
  | .lit text, inp => if text <+: inp then [([], inp.drop text.length)] else []
  | .seq r s, inp =>
      (r.ways inp).flatMap fun w => (s.ways w.2).map fun v => (w.1 ++ v.1, v.2)
  | .alt r s, inp => r.ways inp ++ s.ways inp
  | .opt r, inp => r.ways inp ++ [([], inp)]
  | .many p, inp => (manyRests p inp).map fun rest => ([], rest)
  | .group r, inp => (r.ways inp).map fun w => (inp.take (inp.length - w.2.length) :: w.1, w.2)

theorem ways_cls (p : α → Bool) (inp : List α) :
    (Regex.cls p).ways inp = if inp.head?.any p then [([], inp.tail)] else [] := rfl

theorem ways_lit (text inp : List α) :
    (Regex.lit text).ways inp = if text <+: inp then [([], inp.drop text.length)] else [] := rfl

theorem ways_seq (r s : Regex α) (inp : List α) :
    (Regex.seq r s).ways inp =
      (r.ways inp).flatMap fun w => (s.ways w.2).map fun v => (w.1 ++ v.1, v.2) := rfl

theorem ways_alt (r s : Regex α) (inp : List α) :
    (Regex.alt r s).ways inp = r.ways inp ++ s.ways inp := rfl

theorem ways_opt (r : Regex α) (inp : List α) :
    (Regex.opt r).ways inp = r.ways inp ++ [([], inp)] := rfl

theorem ways_many (p : α → Bool) (inp : List α) :
    (Regex.many p).ways inp = (manyRests p inp).map fun rest => ([], rest) := rfl

theorem ways_group (r : Regex α) (inp : List α) :
    (Regex.group r).ways inp =
      (r.ways inp).map fun w => (inp.take (inp.length - w.2.length) :: w.1, w.2) := rfl

/-- The groups of the first way that matches all of a text. -/
def fullMatch (r : Regex α) (inp : List α) : Option (List (List α)) :=
  ((r.ways inp).find? fun w => w.2.isEmpty).map Prod.fst

/-! ### What is matched -/

/-- All that an expression can match is made of characters with `P`. -/
def Only (P : α → Prop) : Regex α → Prop
  | .cls p => ∀ a, p a = true → P a
  | .lit text => ∀ a ∈ text, P a
  | .seq r s => r.Only P ∧ s.Only P
  | .alt r s => r.Only P ∧ s.Only P
  | .opt r => r.Only P
  | .many p => ∀ a, p a = true → P a
  | .group r => r.Only P

theorem mem_ways_lit {text inp rest : List α} {gs : List (List α)}
    (h : (gs, rest) ∈ (Regex.lit text).ways inp) : gs = [] ∧ inp = text ++ rest := by
  rw [ways_lit] at h
  split at h
  · rename_i hprefix
    obtain ⟨rest', rfl⟩ := hprefix
    rw [List.drop_left] at h
    cases List.mem_singleton.mp h
    exact ⟨rfl, rfl⟩
  · cases h

theorem mem_ways_cls {p : α → Bool} {inp rest : List α} {gs : List (List α)}
    (h : (gs, rest) ∈ (Regex.cls p).ways inp) : ∃ a, p a = true ∧ inp = a :: rest := by
  rw [ways_cls] at h
  split at h
  · rename_i hhead
    cases inp with
    | nil => cases hhead
    | cons a inp =>
        cases List.mem_singleton.mp h
        exact ⟨a, hhead, rfl⟩
  · cases h

/-- A way splits the text into what it takes and what it leaves. -/
theorem exists_of_mem_ways {P : α → Prop} {r : Regex α} (hr : r.Only P) {inp rest : List α}
    {gs : List (List α)} (h : (gs, rest) ∈ r.ways inp) :
    ∃ used, inp = used ++ rest ∧ ∀ a ∈ used, P a := by
  induction r generalizing inp rest gs with
  | cls p =>
      obtain ⟨a, ha, rfl⟩ := mem_ways_cls h
      exact ⟨[a], rfl, by simpa using hr a ha⟩
  | lit text =>
      obtain ⟨-, rfl⟩ := mem_ways_lit h
      exact ⟨text, rfl, hr⟩
  | seq r s ihr ihs =>
      obtain ⟨w, hw, hv⟩ := List.mem_flatMap.mp h
      obtain ⟨v, hmem, heq⟩ := List.mem_map.mp hv
      cases heq
      obtain ⟨used, rfl, hused⟩ := ihr hr.1 hw
      obtain ⟨more, hmore, hall⟩ := ihs hr.2 hmem
      refine ⟨used ++ more, by rw [hmore, List.append_assoc], ?_⟩
      exact List.forall_mem_append.mpr ⟨hused, hall⟩
  | alt r s ihr ihs =>
      rcases List.mem_append.mp h with h | h
      · exact ihr hr.1 h
      · exact ihs hr.2 h
  | opt r ih =>
      rcases List.mem_append.mp h with h | h
      · exact ih hr h
      · cases List.mem_singleton.mp h
        exact ⟨[], rfl, by simp⟩
  | many p =>
      obtain ⟨rest', hrest, heq⟩ := List.mem_map.mp h
      cases heq
      obtain ⟨used, heq, hused⟩ := exists_of_mem_manyRests hrest
      exact ⟨used, heq, fun a ha => hr a (hused a ha)⟩
  | group r ih =>
      obtain ⟨w, hw, heq⟩ := List.mem_map.mp h
      cases heq
      exact ih hr hw

/-- What is captured stands in the text, and what is left is the end of it. -/
theorem infix_of_mem_ways {r : Regex α} {inp rest : List α} {gs : List (List α)}
    (h : (gs, rest) ∈ r.ways inp) : rest <:+ inp ∧ ∀ g ∈ gs, g <:+: inp := by
  induction r generalizing inp rest gs with
  | cls p =>
      rw [ways_cls] at h
      split at h
      · cases List.mem_singleton.mp h
        exact ⟨List.tail_suffix inp, by simp⟩
      · cases h
  | lit text =>
      rw [ways_lit] at h
      split at h
      · cases List.mem_singleton.mp h
        exact ⟨List.drop_suffix _ inp, by simp⟩
      · cases h
  | seq r s ihr ihs =>
      obtain ⟨w, hw, hv⟩ := List.mem_flatMap.mp h
      obtain ⟨v, hmem, heq⟩ := List.mem_map.mp hv
      cases heq
      obtain ⟨hmid, hgs⟩ := ihr hw
      obtain ⟨hrest, hgs'⟩ := ihs hmem
      refine ⟨hrest.trans hmid, List.forall_mem_append.mpr ⟨hgs, ?_⟩⟩
      exact fun g hg => (hgs' g hg).trans hmid.isInfix
  | alt r s ihr ihs =>
      rcases List.mem_append.mp h with h | h
      · exact ihr h
      · exact ihs h
  | opt r ih =>
      rcases List.mem_append.mp h with h | h
      · exact ih h
      · cases List.mem_singleton.mp h
        exact ⟨List.suffix_rfl, by simp⟩
  | many p =>
      obtain ⟨rest', hrest, heq⟩ := List.mem_map.mp h
      cases heq
      obtain ⟨used, rfl, -⟩ := exists_of_mem_manyRests hrest
      exact ⟨List.suffix_append used _, by simp⟩
  | group r ih =>
      obtain ⟨w, hw, heq⟩ := List.mem_map.mp h
      cases heq
      obtain ⟨hrest, hgs⟩ := ih hw
      exact ⟨hrest, List.forall_mem_cons.mpr ⟨(List.take_prefix _ inp).isInfix, hgs⟩⟩

theorem mem_ways_of_fullMatch {r : Regex α} {inp : List α} {gs : List (List α)}
    (h : r.fullMatch inp = some gs) : (gs, []) ∈ r.ways inp := by
  obtain ⟨⟨gs', rest⟩, hfind, rfl⟩ := Option.map_eq_some_iff.mp h
  have hrest : rest = [] := by simpa using List.find?_some hfind
  rw [hrest] at hfind
  exact List.mem_of_find?_eq_some hfind

theorem mem_ways_seq {r s : Regex α} {inp rest : List α} {gs : List (List α)} :
    (gs, rest) ∈ (Regex.seq r s).ways inp ↔
      ∃ gs₁ mid gs₂, (gs₁, mid) ∈ r.ways inp ∧ (gs₂, rest) ∈ s.ways mid ∧ gs = gs₁ ++ gs₂ := by
  rw [ways_seq, List.mem_flatMap]
  constructor
  · rintro ⟨⟨gs₁, mid⟩, hw, hv⟩
    obtain ⟨⟨gs₂, rest'⟩, hmem, heq⟩ := List.mem_map.mp hv
    cases heq
    exact ⟨gs₁, mid, gs₂, hw, hmem, rfl⟩
  · rintro ⟨gs₁, mid, gs₂, hw, hv, rfl⟩
    exact ⟨(gs₁, mid), hw, List.mem_map.mpr ⟨(gs₂, rest), hv, rfl⟩⟩

theorem mem_ways_group {r : Regex α} {inp rest : List α} {gs : List (List α)}
    (h : (gs, rest) ∈ (Regex.group r).ways inp) : ∃ more, (more, rest) ∈ r.ways inp := by
  obtain ⟨w, hw, heq⟩ := List.mem_map.mp h
  cases heq
  exact ⟨w.1, hw⟩

/-! ### The way that is tried first -/

/-- The first way takes `used`, which stands in front of `rest`. -/
def First (r : Regex α) (used rest : List α) (gs : List (List α)) : Prop :=
  (r.ways (used ++ rest)).head? = some (gs, rest)

theorem First.fullMatch {r : Regex α} {inp : List α} {gs : List (List α)}
    (h : First r inp [] gs) : r.fullMatch inp = some gs := by
  rw [First, List.append_nil] at h
  obtain ⟨more, hways⟩ := List.head?_eq_some_iff.mp h
  rw [Regex.fullMatch, hways]
  rfl

theorem first_cls {p : α → Bool} {a : α} (ha : p a = true) (rest : List α) :
    First (.cls p) [a] rest [] := by
  simp [First, ways_cls, ha]

theorem ways_lit_append (text rest : List α) :
    (Regex.lit text).ways (text ++ rest) = [([], rest)] := by
  rw [ways_lit, if_pos (List.prefix_append _ _), List.drop_left]

theorem first_lit (text rest : List α) : First (.lit text) text rest [] := by
  rw [First, ways_lit_append]
  rfl

theorem ways_lit_of_not_prefix {text inp : List α} (h : ¬ text <+: inp) :
    (Regex.lit text).ways inp = [] := if_neg h

/-- The first way that can be gone on with, behind those that cannot. -/
theorem First.seq_of_ways {r s : Regex α} {used more rest : List α} {gs gs' : List (List α)}
    (dead : List (List (List α) × List α)) {ws : List (List (List α) × List α)}
    (hways : r.ways (used ++ (more ++ rest)) = dead ++ (gs, more ++ rest) :: ws)
    (hdead : ∀ w ∈ dead, s.ways w.2 = []) (hs : First s more rest gs') :
    First (.seq r s) (used ++ more) rest (gs ++ gs') := by
  obtain ⟨vs, hvs⟩ := List.head?_eq_some_iff.mp hs
  have hnil : (dead.flatMap fun w => (s.ways w.2).map fun v => (w.1 ++ v.1, v.2)) = [] := by
    rw [List.flatMap_eq_nil_iff]
    intro w hw
    rw [hdead w hw, List.map_nil]
  rw [First, ways_seq, List.append_assoc, hways, List.flatMap_append, hnil, List.nil_append,
    List.flatMap_cons, hvs]
  rfl

theorem First.seq {r s : Regex α} {used more rest : List α} {gs gs' : List (List α)}
    (hr : First r used (more ++ rest) gs) (hs : First s more rest gs') :
    First (.seq r s) (used ++ more) rest (gs ++ gs') := by
  obtain ⟨ws, hways⟩ := List.head?_eq_some_iff.mp hr
  exact First.seq_of_ways [] hways (by simp) hs

theorem First.alt {r : Regex α} {used rest : List α} {gs : List (List α)}
    (h : First r used rest gs) (s : Regex α) : First (.alt r s) used rest gs := by
  obtain ⟨ws, hways⟩ := List.head?_eq_some_iff.mp h
  rw [First, ways_alt, hways]
  rfl

theorem First.opt {r : Regex α} {used rest : List α} {gs : List (List α)}
    (h : First r used rest gs) : First (.opt r) used rest gs := by
  obtain ⟨ws, hways⟩ := List.head?_eq_some_iff.mp h
  rw [First, ways_opt, hways]
  rfl

theorem first_opt_nil {r : Regex α} {rest : List α} (h : r.ways rest = []) :
    First (.opt r) [] rest [] := by
  rw [First, ways_opt, List.nil_append, h]
  rfl

/-- A repetition goes on to the first character that it does not match. -/
theorem first_many {p : α → Bool} {used rest : List α} (hused : ∀ a ∈ used, p a = true)
    (hrest : ∀ a ∈ rest.head?, p a = false) : First (.many p) used rest [] := by
  rw [First, ways_many, List.head?_map]
  have hhead : (manyRests p (used ++ rest)).head? = some rest := by
    induction used with
    | nil =>
        cases rest with
        | nil => rfl
        | cons a rest =>
            have ha : p a = false := hrest a rfl
            rw [List.nil_append, manyRests, if_neg (by rw [ha]; decide)]
            rfl
    | cons a used ih =>
        obtain ⟨ha, hused⟩ := List.forall_mem_cons.mp hused
        rw [List.cons_append, manyRests, if_pos ha, List.head?_append, ih hused]
        rfl
  rw [hhead]
  rfl

theorem first_many1 {p : α → Bool} {used rest : List α} (hne : used ≠ [])
    (hused : ∀ a ∈ used, p a = true) (hrest : ∀ a ∈ rest.head?, p a = false) :
    First (many1 p) used rest [] := by
  obtain ⟨a, used, rfl⟩ := List.exists_cons_of_ne_nil hne
  obtain ⟨ha, hused⟩ := List.forall_mem_cons.mp hused
  exact (first_cls ha _).seq (first_many hused hrest)

theorem First.group {r : Regex α} {used rest : List α} {gs : List (List α)}
    (h : First r used rest gs) : First (.group r) used rest (used :: gs) := by
  rw [First] at h ⊢
  rw [ways_group, List.head?_map, h, Option.map_some, take_length_sub]

end

end Regex

end Daobell.Lib
