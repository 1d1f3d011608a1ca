import Mathlib.Data.List.Basic

/-!
Recursive descent over nested lists and dictionaries. A scanner says what
stands at a place where a value is read, and what a loop over the elements of a
list or the entries of a dictionary finds; `read` is the recursive reader made
of it, with a bound on the depth of its calls. Whatever a reader comes to is
told by the places it looks at on the way: it stops with a fault if and only if
one of them is faulty, and it runs forever if and only if it looks for an
element of a list where the scanner is stalled.
-/

namespace Daobell.Lib

inductive Ending (ε α : Type*)
  | returned (a : α)
  | faulted (e : ε)
  | unfinished

namespace Ending

variable {ε α β : Type*}

def bind (o : Ending ε α) (f : α → Ending ε β) : Ending ε β :=
  match o with
  | returned a => f a
  | faulted e => faulted e
  | unfinished => unfinished

@[simp] theorem returned_bind (a : α) (f : α → Ending ε β) : (returned a).bind f = f a := rfl

@[simp] theorem faulted_bind (e : ε) (f : α → Ending ε β) : (faulted e).bind f = faulted e := rfl

@[simp] theorem unfinished_bind (f : α → Ending ε β) :
    (unfinished : Ending ε α).bind f = unfinished := rfl

@[simp] theorem bind_returned (o : Ending ε α) : o.bind returned = o := by
  cases o <;> rfl

theorem bind_eq_returned {o : Ending ε α} {f : α → Ending ε β} {b : β} :
    o.bind f = returned b ↔ ∃ a, o = returned a ∧ f a = returned b := by
  cases o <;> simp

theorem bind_eq_faulted {o : Ending ε α} {f : α → Ending ε β} {e : ε} :
    o.bind f = faulted e ↔ o = faulted e ∨ ∃ a, o = returned a ∧ f a = faulted e := by
  cases o <;> simp

def Abnormal (o : Ending ε α) : Prop := ∀ a, o ≠ returned a

theorem Abnormal.bind {o : Ending ε α} (h : o.Abnormal) (f : α → Ending ε α) : o.bind f = o := by
  cases o with
  | returned a => exact absurd rfl (h a)
  | faulted e => rfl
  | unfinished => rfl

theorem abnormal_faulted (e : ε) : (faulted e : Ending ε α).Abnormal := fun _ h => nomatch h

theorem abnormal_unfinished : (unfinished : Ending ε α).Abnormal := fun _ h => nomatch h

end Ending

/-- What stands where a value is read: a value without parts, which may be a
text, or the opening of a list or a dictionary. -/
inductive Token (ε σ : Type*)
  | leaf (text : Bool) (s : σ)
  | list (s : σ)
  | dict (s : σ)
  | fault (e : ε)

/-- What a loop finds before each round. -/
inductive Look (ε σ : Type*)
  | close (s : σ)
  | more (s : σ)
  | fault (e : ε)

structure Scanner (ε σ : Type*) where
  token : σ → Token ε σ
  look : σ → Look ε σ
  /-- What becomes of a dictionary key that is no text. -/
  notText : ε

/-- What a reader is about to read: a value, or what is left of a list or of a
dictionary. -/
inductive Goal
  | value
  | elements
  | entries

/-- A loop counts for more than the value it begins with. -/
def Goal.rank : Goal → ℕ
  | .value => 0
  | .elements => 1
  | .entries => 1

namespace Scanner

variable {ε σ : Type*} (R : Scanner ε σ)

/-- The recursive reader: whether a text was read, and where it came to. -/
def read : ℕ → Goal → σ → Ending ε (Bool × σ)
  | 0, _, _ => .unfinished
  | fuel + 1, .value, s =>
      match R.token s with
      | .leaf text s => .returned (text, s)
      | .list s => read fuel .elements s
      | .dict s => read fuel .entries s
      | .fault e => .faulted e
  | fuel + 1, .elements, s =>
      match R.look s with
      | .close s => .returned (false, s)
      | .more s => (read fuel .value s).bind fun r => read fuel .elements r.2
      | .fault e => .faulted e
  | fuel + 1, .entries, s =>
      match R.look s with
      | .close s => .returned (false, s)
      | .more s => (read fuel .value s).bind fun key =>
          if key.1 then (read fuel .value key.2).bind fun r => read fuel .entries r.2
          else .faulted R.notText
      | .fault e => .faulted e

/-- What is read between two places, as a grammar. -/
inductive Reads : Goal → σ → Bool → σ → Prop
  | leaf {s s' : σ} {text : Bool} (h : R.token s = .leaf text s') : Reads .value s text s'
  | list {s s₁ s' : σ} {text : Bool} (h : R.token s = .list s₁) (hs : Reads .elements s₁ text s') :
      Reads .value s text s'
  | dict {s s₁ s' : σ} {text : Bool} (h : R.token s = .dict s₁) (hs : Reads .entries s₁ text s') :
      Reads .value s text s'
  | endList {s s' : σ} (h : R.look s = .close s') : Reads .elements s false s'
  | element {s s₁ s₂ s' : σ} {text text' : Bool} (h : R.look s = .more s₁)
      (hv : Reads .value s₁ text s₂) (hs : Reads .elements s₂ text' s') :
      Reads .elements s text' s'
  | endDict {s s' : σ} (h : R.look s = .close s') : Reads .entries s false s'
  | entry {s s₁ s₂ s₃ s' : σ} {text text' : Bool} (h : R.look s = .more s₁)
      (hk : Reads .value s₁ true s₂) (hv : Reads .value s₂ text s₃)
      (hs : Reads .entries s₃ text' s') : Reads .entries s text' s'

/-- The places that a reader with goal `g₀` looks at, from `s₀` on. -/
inductive Reaches (g₀ : Goal) (s₀ : σ) : Goal → σ → Prop
  | start : Reaches g₀ s₀ g₀ s₀
  | list {s s₁ : σ} (hs : Reaches g₀ s₀ .value s) (h : R.token s = .list s₁) :
      Reaches g₀ s₀ .elements s₁
  | dict {s s₁ : σ} (hs : Reaches g₀ s₀ .value s) (h : R.token s = .dict s₁) :
      Reaches g₀ s₀ .entries s₁
  | element {s s₁ : σ} (hs : Reaches g₀ s₀ .elements s) (h : R.look s = .more s₁) :
      Reaches g₀ s₀ .value s₁
  | nextElement {s s₁ s₂ : σ} {text : Bool} (hs : Reaches g₀ s₀ .elements s)
      (h : R.look s = .more s₁) (hv : R.Reads .value s₁ text s₂) : Reaches g₀ s₀ .elements s₂
  | key {s s₁ : σ} (hs : Reaches g₀ s₀ .entries s) (h : R.look s = .more s₁) :
      Reaches g₀ s₀ .value s₁
  | entryValue {s s₁ s₂ : σ} (hs : Reaches g₀ s₀ .entries s) (h : R.look s = .more s₁)
      (hk : R.Reads .value s₁ true s₂) : Reaches g₀ s₀ .value s₂
  | nextEntry {s s₁ s₂ s₃ : σ} {text : Bool} (hs : Reaches g₀ s₀ .entries s)
      (h : R.look s = .more s₁) (hk : R.Reads .value s₁ true s₂)
      (hv : R.Reads .value s₂ text s₃) : Reaches g₀ s₀ .entries s₃

/-- From some bound on, the reader comes to `o`. -/
def Yields (g : Goal) (s : σ) (o : Ending ε (Bool × σ)) : Prop :=
  ∃ n, ∀ fuel ≥ n, R.read fuel g s = o

variable {R} {g : Goal} {s s₁ s₂ s₃ : σ} {text : Bool} {o : Ending ε (Bool × σ)}

/-! ### One step of the reader -/

theorem yields_of_step (f : ℕ → Ending ε (Bool × σ)) (hf : ∀ fuel, R.read (fuel + 1) g s = f fuel)
    (h : ∃ n, ∀ fuel ≥ n, f fuel = o) : R.Yields g s o := by
  obtain ⟨n, hn⟩ := h
  refine ⟨n + 1, fun fuel hfuel => ?_⟩
  obtain ⟨fuel, rfl⟩ := Nat.exists_eq_add_of_le' (Nat.le_trans (Nat.le_add_left 1 n) hfuel)
  rw [hf]
  exact hn fuel (by omega)

theorem read_value (fuel : ℕ) (s : σ) :
    R.read (fuel + 1) .value s = match R.token s with
      | .leaf text s => .returned (text, s)
      | .list s => R.read fuel .elements s
      | .dict s => R.read fuel .entries s
      | .fault e => .faulted e := rfl

theorem read_elements (fuel : ℕ) (s : σ) :
    R.read (fuel + 1) .elements s = match R.look s with
      | .close s => .returned (false, s)
      | .more s => (R.read fuel .value s).bind fun r => R.read fuel .elements r.2
      | .fault e => .faulted e := rfl

theorem read_entries (fuel : ℕ) (s : σ) :
    R.read (fuel + 1) .entries s = match R.look s with
      | .close s => .returned (false, s)
      | .more s => (R.read fuel .value s).bind fun key =>
          if key.1 then (R.read fuel .value key.2).bind fun r => R.read fuel .entries r.2
          else .faulted R.notText
      | .fault e => .faulted e := rfl

theorem read_leaf (h : R.token s = .leaf text s₁) (fuel : ℕ) :
    R.read (fuel + 1) .value s = .returned (text, s₁) := by
  rw [read_value, h]

theorem read_list (h : R.token s = .list s₁) (fuel : ℕ) :
    R.read (fuel + 1) .value s = R.read fuel .elements s₁ := by
  rw [read_value, h]

theorem read_dict (h : R.token s = .dict s₁) (fuel : ℕ) :
    R.read (fuel + 1) .value s = R.read fuel .entries s₁ := by
  rw [read_value, h]

theorem read_element (h : R.look s = .more s₁) (fuel : ℕ) :
    R.read (fuel + 1) .elements s =
      (R.read fuel .value s₁).bind fun r => R.read fuel .elements r.2 := by
  rw [read_elements, h]

theorem read_entry (h : R.look s = .more s₁) (fuel : ℕ) :
    R.read (fuel + 1) .entries s = (R.read fuel .value s₁).bind fun key =>
      if key.1 then (R.read fuel .value key.2).bind fun r => R.read fuel .entries r.2
      else .faulted R.notText := by
  rw [read_entries, h]

/-- A value that comes to an end, and what is done with it. -/
theorem Yields.andThen {o' : Ending ε (Bool × σ)} {f : ℕ → Bool × σ → Ending ε (Bool × σ)}
    {r : Bool × σ} (h : R.Yields g s (.returned r)) (hf : ∃ n, ∀ fuel ≥ n, f fuel r = o') :
    ∃ n, ∀ fuel ≥ n, (R.read fuel g s).bind (f fuel) = o' := by
  obtain ⟨n, hn⟩ := h
  obtain ⟨m, hm⟩ := hf
  refine ⟨max n m, fun fuel hfuel => ?_⟩
  rw [hn fuel (Nat.le_trans (Nat.le_max_left n m) hfuel), Ending.returned_bind]
  exact hm fuel (Nat.le_trans (Nat.le_max_right n m) hfuel)

/-- A value that comes to no end, whatever would be done with it. -/
theorem Yields.abnormal {f : ℕ → Bool × σ → Ending ε (Bool × σ)} (h : R.Yields g s o)
    (ho : o.Abnormal) : ∃ n, ∀ fuel ≥ n, (R.read fuel g s).bind (f fuel) = o := by
  obtain ⟨n, hn⟩ := h
  refine ⟨n, fun fuel hfuel => ?_⟩
  rw [hn fuel hfuel, ho.bind]

/-! ### What is read, and what goes wrong on the way -/

theorem Reads.yields {s' : σ} (h : R.Reads g s text s') :
    R.Yields g s (.returned (text, s')) := by
  induction h with
  | leaf h => exact yields_of_step _ (read_leaf h) ⟨0, fun _ _ => rfl⟩
  | list h _ ih => exact yields_of_step _ (read_list h) ih
  | dict h _ ih => exact yields_of_step _ (read_dict h) ih
  | endList h => exact yields_of_step _ (fun fuel => by rw [read_elements, h]) ⟨0, fun _ _ => rfl⟩
  | element h _ _ ihv ihs => exact yields_of_step _ (read_element h) (ihv.andThen ihs)
  | endDict h => exact yields_of_step _ (fun fuel => by rw [read_entries, h]) ⟨0, fun _ _ => rfl⟩
  | entry h _ _ _ ihk ihv ihs =>
      exact yields_of_step _ (read_entry h) (ihk.andThen (ihv.andThen ihs))

/-- Whatever keeps the reader from a result at a place it looks at keeps it
from a result altogether. -/
theorem Reaches.yields {g₀ : Goal} {s₀ : σ} (h : R.Reaches g₀ s₀ g s) (ho : o.Abnormal)
    (hy : R.Yields g s o) : R.Yields g₀ s₀ o := by
  induction h with
  | start => exact hy
  | list _ h ih => exact ih (yields_of_step _ (read_list h) hy)
  | dict _ h ih => exact ih (yields_of_step _ (read_dict h) hy)
  | element _ h ih => exact ih (yields_of_step _ (read_element h) (hy.abnormal ho))
  | nextElement _ h hv ih => exact ih (yields_of_step _ (read_element h) (hv.yields.andThen hy))
  | key _ h ih => exact ih (yields_of_step _ (read_entry h) (hy.abnormal ho))
  | entryValue _ h hk ih =>
      exact ih (yields_of_step _ (read_entry h) (hk.yields.andThen (hy.abnormal ho)))
  | nextEntry _ h hk hv ih =>
      exact ih (yields_of_step _ (read_entry h) (hk.yields.andThen (hv.yields.andThen hy)))

/-- What a bounded reader returns is read by the grammar. -/
theorem reads_of_returned {fuel : ℕ} {r : Bool × σ} (h : R.read fuel g s = .returned r) :
    R.Reads g s r.1 r.2 := by
  induction fuel generalizing g s r with
  | zero => cases h
  | succ fuel ih =>
      cases g with
      | value =>
          cases ht : R.token s with
          | leaf text s₁ =>
              rw [read_leaf ht, Ending.returned.injEq] at h
              exact h ▸ .leaf ht
          | list s₁ => exact .list ht (ih (by rwa [read_list ht] at h))
          | dict s₁ => exact .dict ht (ih (by rwa [read_dict ht] at h))
          | fault e => simp [read_value, ht] at h
      | elements =>
          cases hl : R.look s with
          | close s₁ =>
              simp only [read_elements, hl, Ending.returned.injEq] at h
              exact h ▸ .endList hl
          | more s₁ =>
              rw [read_element hl, Ending.bind_eq_returned] at h
              obtain ⟨v, hv, h⟩ := h
              exact .element hl (ih hv) (ih h)
          | fault e => simp [read_elements, hl] at h
      | entries =>
          cases hl : R.look s with
          | close s₁ =>
              simp only [read_entries, hl, Ending.returned.injEq] at h
              exact h ▸ .endDict hl
          | more s₁ =>
              rw [read_entry hl, Ending.bind_eq_returned] at h
              obtain ⟨⟨_ | _, s₂⟩, hk, h⟩ := h
              · cases h
              · simp only [if_true, Ending.bind_eq_returned] at h
                obtain ⟨v, hv, h⟩ := h
                exact .entry hl (ih hk) (ih hv) (ih h)
          | fault e => simp [read_entries, hl] at h

variable (R) in
/-- The reader stops with the fault `e` at the place it looks at. -/
inductive Faulty : Goal → σ → ε → Prop
  | token {s : σ} {e : ε} (h : R.token s = .fault e) : Faulty .value s e
  | elements {s : σ} {e : ε} (h : R.look s = .fault e) : Faulty .elements s e
  | entries {s : σ} {e : ε} (h : R.look s = .fault e) : Faulty .entries s e
  | key {s s₁ s₂ : σ} (h : R.look s = .more s₁) (hk : R.Reads .value s₁ false s₂) :
      Faulty .entries s R.notText

theorem Faulty.yields {e : ε} (h : R.Faulty g s e) : R.Yields g s (.faulted e) := by
  cases h with
  | token h => exact yields_of_step _ (fun fuel => by rw [read_value, h]) ⟨0, fun _ _ => rfl⟩
  | elements h => exact yields_of_step _ (fun fuel => by rw [read_elements, h]) ⟨0, fun _ _ => rfl⟩
  | entries h => exact yields_of_step _ (fun fuel => by rw [read_entries, h]) ⟨0, fun _ _ => rfl⟩
  | key h hk => exact yields_of_step _ (read_entry h) (hk.yields.andThen ⟨0, fun _ _ => rfl⟩)

/-- The place behind a fault, among those looked at from `s₀` on. -/
theorem exists_faulty {g₀ : Goal} {s₀ : σ} {fuel : ℕ} {e : ε} (hs : R.Reaches g₀ s₀ g s)
    (h : R.read fuel g s = .faulted e) : ∃ g' s', R.Reaches g₀ s₀ g' s' ∧ R.Faulty g' s' e := by
  induction fuel generalizing g s with
  | zero => cases h
  | succ fuel ih =>
      cases g with
      | value =>
          cases ht : R.token s with
          | leaf text s₁ => simp [read_value, ht] at h
          | list s₁ => exact ih (.list hs ht) (by rwa [read_list ht] at h)
          | dict s₁ => exact ih (.dict hs ht) (by rwa [read_dict ht] at h)
          | fault e' =>
              simp only [read_value, ht, Ending.faulted.injEq] at h
              exact ⟨_, _, hs, .token (h ▸ ht)⟩
      | elements =>
          cases hl : R.look s with
          | close s₁ => simp [read_elements, hl] at h
          | more s₁ =>
              rw [read_element hl, Ending.bind_eq_faulted] at h
              rcases h with h | ⟨v, hv, h⟩
              · exact ih (.element hs hl) h
              · exact ih (.nextElement hs hl (reads_of_returned hv)) h
          | fault e' =>
              simp only [read_elements, hl, Ending.faulted.injEq] at h
              exact ⟨_, _, hs, .elements (h ▸ hl)⟩
      | entries =>
          cases hl : R.look s with
          | close s₁ => simp [read_entries, hl] at h
          | more s₁ =>
              rw [read_entry hl, Ending.bind_eq_faulted] at h
              rcases h with h | ⟨⟨_ | _, s₂⟩, hk, h⟩
              · exact ih (.key hs hl) h
              · simp only [Bool.false_eq_true, if_false, Ending.faulted.injEq] at h
                exact ⟨_, _, hs, h ▸ .key hl (reads_of_returned hk)⟩
              · simp only [if_true, Ending.bind_eq_faulted] at h
                rcases h with h | ⟨v, hv, h⟩
                · exact ih (.entryValue hs hl (reads_of_returned hk)) h
                · exact ih (.nextEntry hs hl (reads_of_returned hk) (reads_of_returned hv)) h
          | fault e' =>
              simp only [read_entries, hl, Ending.faulted.injEq] at h
              exact ⟨_, _, hs, .entries (h ▸ hl)⟩

/-- **Faults.** A reader stops with a fault if and only if a place it looks at
has this fault. -/
theorem faulted_iff {e : ε} : (∃ fuel, R.read fuel g s = .faulted e) ↔
    ∃ g' s', R.Reaches g s g' s' ∧ R.Faulty g' s' e := by
  constructor
  · rintro ⟨fuel, h⟩
    exact exists_faulty .start h
  · rintro ⟨g', s', hs, hfault⟩
    obtain ⟨n, hn⟩ := hs.yields (Ending.abnormal_faulted e) hfault.yields
    exact ⟨n, hn n (Nat.le_refl n)⟩

/-! ### Runs without end -/

/-- A run that came to an end comes to it under every larger bound. -/
theorem yields_of_ne_unfinished {fuel : ℕ} (h : R.read fuel g s = o) (ho : o ≠ .unfinished) :
    R.Yields g s o := by
  cases o with
  | returned r => exact (reads_of_returned h).yields
  | faulted e =>
      obtain ⟨g', s', hs, hfault⟩ := exists_faulty .start h
      exact hs.yields (Ending.abnormal_faulted e) hfault.yields
  | unfinished => exact absurd rfl ho

/-- A measure of what is left to read. It shrinks with whatever opens a list or
a dictionary and with every text, and with every element of a list that is not
looked for at a stalled place. A stalled place has an element that leads to a
stalled place again. -/
structure Progress (R : Scanner ε σ) (μ : σ → ℕ) (Stalled : σ → Prop) : Prop where
  list : ∀ {s s₁}, R.token s = .list s₁ → μ s₁ < μ s
  dict : ∀ {s s₁}, R.token s = .dict s₁ → μ s₁ < μ s
  text : ∀ {s s₁}, R.token s = .leaf true s₁ → μ s₁ < μ s
  leaf : ∀ {s s₁ text}, R.token s = .leaf text s₁ → μ s₁ ≤ μ s
  close : ∀ {s s₁}, R.look s = .close s₁ → μ s₁ ≤ μ s
  more : ∀ {s s₁}, R.look s = .more s₁ → μ s₁ ≤ μ s
  element : ∀ {s s₁ s₂ text}, R.look s = .more s₁ → ¬ Stalled s → R.token s₁ = .leaf text s₂ →
    μ s₂ < μ s₁
  stalled : ∀ {s}, Stalled s → ∃ s₁ text s₂, R.look s = .more s₁ ∧ R.token s₁ = .leaf text s₂ ∧
    Stalled s₂

section Progress

variable {μ : σ → ℕ} {Stalled : σ → Prop} (hp : R.Progress μ Stalled)

include hp

theorem Progress.reads_le {s' : σ} (h : R.Reads g s text s') : μ s' ≤ μ s := by
  induction h with
  | leaf h => exact hp.leaf h
  | list h _ ih => exact Nat.le_trans ih (Nat.le_of_lt (hp.list h))
  | dict h _ ih => exact Nat.le_trans ih (Nat.le_of_lt (hp.dict h))
  | endList h => exact hp.close h
  | element h _ _ ihv ihs => exact Nat.le_trans ihs (Nat.le_trans ihv (hp.more h))
  | endDict h => exact hp.close h
  | entry h _ _ _ ihk ihv ihs =>
      exact Nat.le_trans ihs (Nat.le_trans ihv (Nat.le_trans ihk (hp.more h)))

/-- Only a value without parts can leave as much to read as there was. -/
theorem Progress.reads_lt {s' : σ} (h : R.Reads .value s text s')
    (hleaf : R.token s = .leaf text s' → μ s' < μ s) : μ s' < μ s := by
  cases h with
  | leaf h => exact hleaf h
  | list h hs => exact Nat.lt_of_le_of_lt (hp.reads_le hs) (hp.list h)
  | dict h hs => exact Nat.lt_of_le_of_lt (hp.reads_le hs) (hp.dict h)

omit hp

/-- The bounded runs come to an end, and to the same one from some bound on. -/
def Settles (f : ℕ → Ending ε (Bool × σ)) : Prop :=
  ∃ o, o ≠ .unfinished ∧ ∃ n, ∀ fuel ≥ n, f fuel = o

theorem Yields.settles (h : R.Yields g s o) (ho : o ≠ .unfinished) :
    Settles fun fuel => R.read fuel g s := ⟨o, ho, h⟩

theorem Settles.step {f : ℕ → Ending ε (Bool × σ)} (h : Settles f)
    (hf : ∀ fuel, R.read (fuel + 1) g s = f fuel) : Settles fun fuel => R.read fuel g s := by
  obtain ⟨o, ho, hn⟩ := h
  exact ⟨o, ho, yields_of_step f hf hn⟩

theorem Settles.andThen {f : ℕ → Bool × σ → Ending ε (Bool × σ)}
    (h : Settles fun fuel => R.read fuel g s)
    (hf : ∀ r, R.Reads g s r.1 r.2 → Settles fun fuel => f fuel r) :
    Settles fun fuel => (R.read fuel g s).bind (f fuel) := by
  obtain ⟨o, ho, hy⟩ := h
  cases o with
  | returned r =>
      obtain ⟨n, hn⟩ := hy
      obtain ⟨o', ho', hy'⟩ := hf r (reads_of_returned (hn n (Nat.le_refl n)))
      exact ⟨o', ho', Yields.andThen ⟨n, hn⟩ hy'⟩
  | faulted e => exact ⟨.faulted e, ho, Yields.abnormal hy (Ending.abnormal_faulted e)⟩
  | unfinished => exact absurd rfl ho

include hp

/-- Where nothing is stalled, every place that is looked at leads to an end. The
induction is on what is left to read there, a loop counting for more than the
value it begins with. -/
theorem Progress.settles {g₀ : Goal} {s₀ : σ}
    (hnot : ∀ s, R.Reaches g₀ s₀ .elements s → ¬ Stalled s) {g : Goal} {s : σ}
    (hs : R.Reaches g₀ s₀ g s) : Settles fun fuel => R.read fuel g s := by
  induction hn : 2 * μ s + g.rank using Nat.strongRecOn generalizing g s with
  | _ n ih =>
      subst hn
      cases g with
      | value =>
          cases ht : R.token s with
          | leaf text s₁ => exact (Reads.leaf ht).yields.settles nofun
          | list s₁ =>
              have hlt := hp.list ht
              refine (ih _ ?_ (.list hs ht) rfl).step (read_list ht)
              simp only [Goal.rank]
              omega
          | dict s₁ =>
              have hlt := hp.dict ht
              refine (ih _ ?_ (.dict hs ht) rfl).step (read_dict ht)
              simp only [Goal.rank]
              omega
          | fault e => exact (Faulty.token ht).yields.settles nofun
      | elements =>
          cases hl : R.look s with
          | close s₁ => exact (Reads.endList hl).yields.settles nofun
          | more s₁ =>
              have hle := hp.more hl
              refine Settles.step (.andThen (ih _ ?_ (.element hs hl) rfl) fun v hv => ?_)
                (read_element hl)
              · simp only [Goal.rank]
                omega
              · have hlt : μ v.2 < μ s := by
                  have hlt := hp.reads_lt hv (hp.element hl (hnot s hs))
                  omega
                refine ih _ ?_ (.nextElement hs hl hv) rfl
                simp only [Goal.rank]
                omega
          | fault e => exact (Faulty.elements hl).yields.settles nofun
      | entries =>
          cases hl : R.look s with
          | close s₁ => exact (Reads.endDict hl).yields.settles nofun
          | more s₁ =>
              have hle := hp.more hl
              refine Settles.step (.andThen (ih _ ?_ (.key hs hl) rfl) fun key hk => ?_)
                (read_entry hl)
              · simp only [Goal.rank]
                omega
              · obtain ⟨_ | _, s₂⟩ := key
                · exact ⟨.faulted R.notText, nofun, 0, fun _ _ => rfl⟩
                · have hlt : μ s₂ < μ s₁ := hp.reads_lt hk hp.text
                  simp only [if_true]
                  refine .andThen (ih _ ?_ (.entryValue hs hl hk) rfl) fun v hv => ?_
                  · simp only [Goal.rank]
                    omega
                  · have hle' := hp.reads_le hv
                    refine ih _ ?_ (.nextEntry hs hl hk hv) rfl
                    simp only [Goal.rank]
                    omega
          | fault e => exact (Faulty.entries hl).yields.settles nofun

/-- A loop at a stalled place goes round forever. -/
theorem Progress.read_stalled {s : σ} (hs : Stalled s) (fuel : ℕ) :
    R.read fuel .elements s = .unfinished := by
  induction fuel generalizing s with
  | zero => rfl
  | succ fuel ih =>
      obtain ⟨s₁, text, s₂, hl, ht, hs₂⟩ := hp.stalled hs
      rw [read_element hl]
      cases fuel with
      | zero => rfl
      | succ fuel => rw [read_leaf ht, Ending.returned_bind, ih hs₂]

/-- **Runs without end.** A reader runs forever if and only if it looks for an
element of a list at a stalled place. -/
theorem Progress.unfinished_iff : (∀ fuel, R.read fuel g s = .unfinished) ↔
    ∃ s', R.Reaches g s .elements s' ∧ Stalled s' := by
  constructor
  · intro hforever
    by_contra hnone
    obtain ⟨o, ho, n, hn⟩ := hp.settles (fun s' hs hst => hnone ⟨s', hs, hst⟩) ((.start : R.Reaches g s g s))
    exact ho ((hn n (Nat.le_refl n)).symm.trans (hforever n))
  · rintro ⟨s', hs, hst⟩ fuel
    obtain ⟨n, hn⟩ := hs.yields Ending.abnormal_unfinished ⟨0, fun fuel _ => hp.read_stalled hst fuel⟩
    by_contra hend
    obtain ⟨m, hm⟩ := yields_of_ne_unfinished rfl hend
    exact hend ((hm (max n m) (Nat.le_max_right n m)).symm.trans
      (hn (max n m) (Nat.le_max_left n m)))

end Progress

end Scanner

end Daobell.Lib
