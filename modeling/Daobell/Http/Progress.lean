import Daobell.Http.Reassembly
import Daobell.Http.Threads
import Daobell.Lib.Parts

/-!
When the merge begins, and what it finds. The main thread leaves its loop only when
the counts of the threads come to the size of the file; no thread counts more than its
part, so by then each has received all of it, and none has failed. But what a thread
has received need not be on the disk yet, and the merge takes what is there.
-/

namespace Daobell

open Lib List

/-! ### What holds all the time -/

/-- What has been merged of a body: a beginning of it, and all of it when the threads
had ended before. -/
def Part (ended : Prop) (body part : Bytes) : Prop := part <+: body ∧ (ended → part = body)

namespace HttpDownload

def Counted (bodies : List Bytes) (s : HttpDownload) : Prop :=
  Forall₂ (fun body (th : HttpThread) => th.downloadedSize.toNat = body.length) bodies s.threads

/-- The files of the threads from `i` on are there under their names, and no others. -/
def LinkedFrom (s : HttpDownload) (i : ℕ) : Prop :=
  ∀ (j : ℕ) (th : HttpThread), s.threads[j]? = some th → (th.linked = true ↔ i ≤ j)

def Done (ended : Prop) (bodies : List Bytes) (s : HttpDownload) : Prop :=
  match s.main with
  | .reading i n => s.dest = none ∧
      n.toNat ≤ ((s.threads.take i).map fun th => th.downloadedSize.toNat).sum
  | .merging => s.dest = none ∧ s.Counted bodies
  | .opening i => s.threads.length ≠ 1 ∧ s.Counted bodies ∧ s.LinkedFrom i ∧
      ∃ parts, Forall₂ (Part ended) (bodies.take i) parts ∧ s.dest = some parts.flatten
  | .copying i offset => s.threads.length ≠ 1 ∧ s.Counted bodies ∧ s.LinkedFrom i ∧
      ∃ parts th, Forall₂ (Part ended) (bodies.take i) parts ∧ s.threads[i]? = some th ∧
        offset ≤ th.file.length ∧ s.dest = some (parts.flatten ++ th.file.take offset)
  | .finished => s.Counted bodies ∧ (s.threads.length = 1 ∧ s.dest = none ∨
      s.threads.length ≠ 1 ∧ (∀ th ∈ s.threads, th.linked = false) ∧
        ∃ parts, Forall₂ (Part ended) bodies parts ∧ s.dest = some parts.flatten)

def Waits (s : HttpDownload) : Prop := ∃ i n, s.main = .reading i n

def Unmerged (s : HttpDownload) : Prop := s.Waits ∨ s.main = .merging

structure Sound (canOpen : Bytes → Bool) (ended : Prop) (bodies : List Bytes)
    (s : HttpDownload) : Prop where
  opens : canOpen s.name = true
  ready : ∀ th ∈ s.threads, th.Ready canOpen
  saves : Forall₂ (fun body th => HttpThread.Saves body th) bodies s.threads
  total : s.total.toNat = (bodies.map List.length).sum
  finished : ended → ∀ th ∈ s.threads, th.place = .finished
  linked : s.Unmerged → ∀ th ∈ s.threads, th.place ≠ .opening → th.linked = true
  done : s.Done ended bodies

end HttpDownload

/-- Bodies that are not empty, and that a `double` counts. -/
structure Sized (bodies : List Bytes) : Prop where
  pos : ∀ body ∈ bodies, 0 < body.length
  small : (bodies.map List.length).sum ≤ 2 ^ 53

section

variable {canOpen : Bytes → Bool} {ended : Prop} {bodies : List Bytes} {s : HttpDownload}

theorem Sized.sum_lt (h : Sized bodies) : (bodies.map List.length).sum < 2 ^ 64 :=
  h.small.trans_lt (by decide)

theorem Sized.length_lt (h : Sized bodies) {body : Bytes} (hbody : body ∈ bodies) :
    body.length < 2 ^ 64 :=
  (List.single_le_sum (fun _ _ => Nat.zero_le _) _ (List.mem_map_of_mem hbody)).trans_lt h.sum_lt

theorem getElem?_saves {i : ℕ} {th : HttpThread}
    (h : Forall₂ (fun body th => HttpThread.Saves body th) bodies s.threads)
    (hth : s.threads[i]? = some th) :
    ∃ body, bodies[i]? = some body ∧ body ∈ bodies ∧ th.Saves body := by
  obtain ⟨body, hbody, hsaves⟩ := exists_of_forall₂ h hth
  exact ⟨body, hbody, List.mem_of_getElem? hbody, hsaves⟩

/-! ### The threads go on -/

def HttpDownload.Grows (s : HttpDownload) (threads : List HttpThread) : Prop :=
  Forall₂ HttpThread.Grows s.threads threads

theorem HttpDownload.Counted.mono (h : s.Counted bodies) (hsized : Sized bodies)
    {threads : List HttpThread} (hgrows : s.Grows threads)
    (hsaves : Forall₂ (fun body th => HttpThread.Saves body th) bodies threads) :
    Forall₂ (fun body (th : HttpThread) => th.downloadedSize.toNat = body.length)
      bodies threads := by
  rw [HttpDownload.Counted, forall₂_iff_get] at h
  rw [HttpDownload.Grows, forall₂_iff_get] at hgrows
  rw [forall₂_iff_get] at hsaves ⊢
  obtain ⟨hlen, hcounted⟩ := h
  obtain ⟨hlen', hsaves⟩ := hsaves
  refine ⟨hlen', fun i hi hi' => le_antisymm ?_ ?_⟩
  · exact (hsaves i hi hi').size_le (hsized.length_lt (List.get_mem _ _))
  · rw [← hcounted i hi (hlen ▸ hi)]
    exact (hgrows.2 i (hlen ▸ hi) hi').size

theorem HttpDownload.Done.grow (h : s.Done ended bodies) (hsized : Sized bodies)
    (hsaves : Forall₂ (fun body th => HttpThread.Saves body th) bodies s.threads)
    {threads : List HttpThread} (hgrows : s.Grows threads)
    (hsaves' : Forall₂ (fun body th => HttpThread.Saves body th) bodies threads) :
    HttpDownload.Done ended bodies { s with threads := threads } := by
  have hlen : threads.length = s.threads.length := hgrows.length_eq.symm
  have hback : s.Counted bodies → ∀ (j : ℕ) (th' : HttpThread), threads[j]? = some th' →
      ∃ th, s.threads[j]? = some th ∧ th'.linked = th.linked ∧ th.file <+: th'.file := by
    intro hcounted j th' hth'
    obtain ⟨th, hth, hgrow⟩ := exists_of_forall₂ hgrows hth'
    obtain ⟨body, hbody, hmem, hsave⟩ := getElem?_saves hsaves hth
    obtain ⟨body', hbody', hsize⟩ := exists_of_forall₂ hcounted hth
    cases hbody.symm.trans hbody'
    have hbegun := (hsave.received_of_size (hsized.length_lt hmem) (hsized.pos _ hmem) hsize).2
    exact ⟨th, hth, hgrow.linked hbegun, hgrow.file hbegun⟩
  have hlinked : s.Counted bodies → ∀ i, s.LinkedFrom i →
      HttpDownload.LinkedFrom { s with threads := threads } i := by
    intro hcounted i hfrom j th' hth'
    obtain ⟨th, hth, heq, -⟩ := hback hcounted j th' hth'
    rw [heq]
    exact hfrom j th hth
  obtain ⟨name, ths, main, total, prev, dest⟩ := s
  cases main with
  | reading i n =>
      refine ⟨h.1, h.2.trans ?_⟩
      refine Forall₂.sum_le_sum ?_
      rw [forall₂_map_left_iff, forall₂_map_right_iff]
      exact forall₂_take i (hgrows.imp fun _ _ hgrow => hgrow.size)
  | merging => exact ⟨h.1, h.2.mono hsized hgrows hsaves'⟩
  | opening i =>
      obtain ⟨hone, hcounted, hfrom, hparts⟩ := h
      refine ⟨?_, hcounted.mono hsized hgrows hsaves', hlinked hcounted i hfrom, hparts⟩
      rwa [hlen]
  | copying i offset =>
      obtain ⟨hone, hcounted, hfrom, parts, th, hparts, hth, hoffset, hdest⟩ := h
      have hi : i < threads.length := hlen ▸ (List.getElem?_eq_some_iff.mp hth).1
      obtain ⟨th₀, hth₀, -, hfile⟩ := hback hcounted i threads[i] (List.getElem?_eq_getElem hi)
      cases hth.symm.trans hth₀
      refine ⟨?_, hcounted.mono hsized hgrows hsaves', hlinked hcounted i hfrom, parts, threads[i],
        hparts, List.getElem?_eq_getElem hi, hoffset.trans hfile.length_le, ?_⟩
      · rwa [hlen]
      · obtain ⟨more, hmore⟩ := hfile
        rw [hdest, ← hmore, List.take_append_of_le_length hoffset]
  | finished =>
      obtain ⟨hcounted, hend⟩ := h
      refine ⟨hcounted.mono hsized hgrows hsaves', ?_⟩
      rcases hend with ⟨hone, hdest⟩ | ⟨hone, hunlinked, hparts⟩
      · exact .inl ⟨hlen.trans hone, hdest⟩
      · refine .inr ⟨by rwa [hlen], fun th' hth' => ?_, hparts⟩
        obtain ⟨j, hj⟩ := List.mem_iff_getElem?.mp hth'
        obtain ⟨th, hth, heq, -⟩ := hback hcounted j th' hj
        rw [heq]
        exact hunlinked th (List.mem_of_getElem? hth)

theorem HttpDownload.Sound.advance (h : s.Sound canOpen ended bodies) (hsized : Sized bodies) {i : ℕ}
    {th th' : HttpThread} (hth : s.threads[i]? = some th)
    (hready : th'.Ready canOpen)
    (hsaves : ∀ body, body ∈ bodies → th.Saves body → th'.Saves body) (hgrow : th.Grows th')
    (hended : th.place = .finished → th'.place = .finished)
    (hbegun : th'.place ≠ .opening → th'.linked = true ∨ th.place ≠ .opening) :
    HttpDownload.Sound canOpen ended bodies { s with threads := s.threads.set i th' } := by
  have hgrows : s.Grows (s.threads.set i th') :=
    forall₂_set_self HttpThread.Grows.refl s.threads hth hgrow
  have hsaves' :
      Forall₂ (fun body th => HttpThread.Saves body th) bodies (s.threads.set i th') := by
    refine forall₂_set h.saves fun body hbody => ?_
    obtain ⟨body', hbody', hmem, hsave⟩ := getElem?_saves h.saves hth
    cases hbody.symm.trans hbody'
    exact hsaves body hmem hsave
  have hmem : th ∈ s.threads := List.mem_of_getElem? hth
  refine ⟨h.opens, fun th'' hmem'' => ?_, hsaves', h.total, fun hend th'' hmem'' => ?_,
    fun hunmerged th'' hmem'' hbegun' => ?_, h.done.grow hsized h.saves hgrows hsaves'⟩
  · rcases List.mem_or_eq_of_mem_set hmem'' with hold | rfl
    · exact h.ready th'' hold
    · exact hready
  · rcases List.mem_or_eq_of_mem_set hmem'' with hold | rfl
    · exact h.finished hend th'' hold
    · exact hended (h.finished hend th hmem)
  · rcases List.mem_or_eq_of_mem_set hmem'' with hold | rfl
    · exact h.linked hunmerged th'' hold hbegun'
    · rcases hbegun hbegun' with hlinked | hbegun
      · exact hlinked
      · rw [hgrow.linked hbegun]
        exact h.linked hunmerged th hmem hbegun

/-! ### The main thread goes on -/

/-- The sum of all sizes comes to the total only when every thread has counted its
body. -/
theorem HttpDownload.Sound.counted (h : s.Sound canOpen ended bodies) (hsized : Sized bodies)
    (hall : s.total.toNat ≤ (s.threads.map fun th => th.downloadedSize.toNat).sum) :
    s.Counted bodies := by
  have hle : Forall₂ (· ≤ ·) (s.threads.map fun th => th.downloadedSize.toNat)
      (bodies.map List.length) := by
    rw [forall₂_map_left_iff, forall₂_map_right_iff, forall₂_iff_get]
    refine ⟨h.saves.length_eq.symm, fun i hi hi' => ?_⟩
    exact (h.saves.get hi' hi).size_le (hsized.length_lt (List.get_mem _ _))
  rw [h.total] at hall
  have heq := eq_of_sum_le hle hall
  have hpairs : Forall₂ Eq (bodies.map List.length)
      (s.threads.map fun th => th.downloadedSize.toNat) := by
    rw [heq, forall₂_eq_eq_eq]
  rw [forall₂_map_left_iff, forall₂_map_right_iff] at hpairs
  exact hpairs.imp fun _ _ => Eq.symm

/-- The sum of some of the sizes does not wrap. -/
theorem HttpDownload.Sound.sum_lt (h : s.Sound canOpen ended bodies) (hsized : Sized bodies) (i : ℕ) :
    ((s.threads.take i).map fun th => th.downloadedSize.toNat).sum < 2 ^ 64 := by
  refine lt_of_le_of_lt ?_ hsized.sum_lt
  have hle : Forall₂ (· ≤ ·) ((s.threads.take i).map fun th => th.downloadedSize.toNat)
      ((bodies.take i).map List.length) := by
    rw [forall₂_map_left_iff, forall₂_map_right_iff, forall₂_iff_get]
    have hsaves := forall₂_take i h.saves
    refine ⟨hsaves.length_eq.symm, fun j hj hj' => ?_⟩
    exact (hsaves.get hj' hj).size_le
      (hsized.length_lt (List.mem_of_mem_take (List.get_mem _ _)))
  refine hle.sum_le_sum.trans ?_
  exact (((List.take_sublist i bodies).map _).sum_le_sum fun _ _ => Nat.zero_le _)

/-- The file of a thread, when the main thread has come to its end. -/
theorem HttpDownload.Sound.part (h : s.Sound canOpen ended bodies) (hsized : Sized bodies)
    (hcounted : s.Counted bodies) {i : ℕ} {th : HttpThread} (hth : s.threads[i]? = some th) :
    ∃ body, bodies[i]? = some body ∧ Part ended body th.file := by
  obtain ⟨body, hbody, hmem, hsave⟩ := getElem?_saves h.saves hth
  obtain ⟨body', hbody', hsize⟩ := exists_of_forall₂ hcounted hth
  cases hbody.symm.trans hbody'
  have hreceived := (hsave.received_of_size (hsized.length_lt hmem) (hsized.pos _ hmem) hsize).1
  refine ⟨body, hbody, ⟨_, hreceived⟩, fun hend => ?_⟩
  have hplace := h.finished hend th (List.mem_of_getElem? hth)
  rw [HttpThread.Saves, hplace] at hsave
  rw [HttpThread.received, hplace, hsave.2.2] at hreceived
  simpa [HttpPlace.pending] using hreceived

/-- The main thread, with nothing changed but its place and what it has merged. -/
theorem HttpDownload.Sound.moves (h : s.Sound canOpen ended bodies) (main : MainPlace) (prev : UInt64)
    (dest : Option Bytes) (hunmerged : HttpDownload.Unmerged { s with main := main } → s.Unmerged)
    (hdone : HttpDownload.Done ended bodies ⟨s.name, s.threads, main, s.total, prev, dest⟩) :
    HttpDownload.Sound canOpen ended bodies ⟨s.name, s.threads, main, s.total, prev, dest⟩ :=
  ⟨h.opens, h.ready, h.saves, h.total, h.finished, fun hun => h.linked (hunmerged hun), hdone⟩

theorem HttpDownload.Sound.judge (h : s.Sound canOpen ended bodies) (hsized : Sized bodies) {i : ℕ}
    {n : UInt64} (hmain : s.main = .reading i n) (hnone : s.threads[i]? = none) (elapsed : Bool) :
    (s.judge n elapsed).Sound canOpen ended bodies := by
  have hwaits : s.Unmerged := .inl ⟨i, n, hmain⟩
  have hdone := h.done
  rw [HttpDownload.Done, hmain] at hdone
  obtain ⟨hdest, hsum⟩ := hdone
  have hagain : ∀ prev, HttpDownload.Sound canOpen ended bodies
      ⟨s.name, s.threads, .reading 0 0, s.total, prev, s.dest⟩ := fun prev =>
    h.moves _ prev _ (fun _ => hwaits) ⟨hdest, Nat.zero_le _⟩
  rw [HttpDownload.judge]
  split
  · exact hagain _
  split
  · exact hagain _
  split
  · exact h
  split
  · rename_i hcomplete
    refine h.moves .merging s.prev s.dest (fun _ => hwaits) ⟨hdest, ?_⟩
    have hle : s.total ≤ n := (barComplete_iff (h.total ▸ hsized.small)).mp hcomplete
    refine h.counted hsized ((UInt64.le_iff_toNat_le.mp hle).trans (hsum.trans ?_))
    rw [List.take_of_length_le (List.getElem?_eq_none_iff.mp hnone)]
  · exact hagain _

/-- Once a thread's file is being merged, the merge has begun. -/
theorem not_unmerged_opening {i : ℕ} (h : s.main = .opening i) : ¬ s.Unmerged := by
  rintro (⟨j, n, heq⟩ | heq)
  · cases h.symm.trans heq
  · cases h.symm.trans heq

theorem not_unmerged_copying {i offset : ℕ} (h : s.main = .copying i offset) : ¬ s.Unmerged := by
  rintro (⟨j, n, heq⟩ | heq)
  · cases h.symm.trans heq
  · cases h.symm.trans heq

theorem not_unmerged_finished (h : s.main = .finished) : ¬ s.Unmerged := by
  rintro (⟨j, n, heq⟩ | heq)
  · cases h.symm.trans heq
  · cases h.symm.trans heq

def HttpDownload.GoesOn (canOpen : Bytes → Bool) (ended : Prop) (bodies : List Bytes)
    (s : HttpDownload) (r : Except Crash HttpDownload) : Prop :=
  ∃ s', r = .ok s' ∧ s'.Sound canOpen ended bodies ∧ s'.total = s.total

section

variable {name : Bytes} {threads : List HttpThread} {total prev : UInt64} {dest : Option Bytes}
  {elapsed : Bool} {offset : ℕ}

theorem goesOn_reading {i : ℕ} {n : UInt64} (hsized : Sized bodies)
    (h : HttpDownload.Sound canOpen ended bodies ⟨name, threads, .reading i n, total, prev, dest⟩) :
    HttpDownload.GoesOn canOpen ended bodies ⟨name, threads, .reading i n, total, prev, dest⟩
      (HttpDownload.goOn canOpen ⟨name, threads, .reading i n, total, prev, dest⟩ elapsed) := by
  obtain ⟨hdest, hsum⟩ := h.done
  rw [HttpDownload.goOn]
  dsimp only at *
  cases hth : threads[i]? with
  | none =>
      refine ⟨_, rfl, h.judge hsized rfl hth elapsed, ?_⟩
      simp only [HttpDownload.judge]
      split_ifs <;> rfl
  | some th =>
      refine ⟨_, rfl, h.moves (.reading (i + 1) _) prev dest (fun _ => .inl ⟨i, n, rfl⟩)
        ⟨hdest, ?_⟩, rfl⟩
      obtain ⟨hi, rfl⟩ := List.getElem?_eq_some_iff.mp hth
      have hlt := h.sum_lt hsized (i + 1)
      dsimp only at hlt ⊢
      rw [List.take_add_one, List.getElem?_eq_getElem hi, Option.toList_some, List.map_append,
        List.sum_append, List.map_singleton, List.sum_singleton] at hlt ⊢
      rw [UInt64.toNat_add, Nat.mod_eq_of_lt (by omega)]
      omega

theorem goesOn_merging (hsized : Sized bodies)
    (h : HttpDownload.Sound canOpen ended bodies ⟨name, threads, .merging, total, prev, dest⟩) :
    HttpDownload.GoesOn canOpen ended bodies ⟨name, threads, .merging, total, prev, dest⟩
      (HttpDownload.goOn canOpen ⟨name, threads, .merging, total, prev, dest⟩ elapsed) := by
  obtain ⟨hdest, hcounted⟩ := h.done
  rw [HttpDownload.goOn]
  dsimp only at *
  split
  · rename_i hone
    exact ⟨_, rfl, h.moves .finished prev dest (fun hun => absurd hun (not_unmerged_finished rfl))
      ⟨hcounted, .inl ⟨hone, hdest⟩⟩, rfl⟩
  · rename_i hone
    refine ⟨_, if_pos h.opens, h.moves (.opening 0) prev (some [])
      (fun hun => absurd hun (not_unmerged_opening rfl))
      ⟨hone, hcounted, fun j th hth => ?_, [], .nil, rfl⟩, rfl⟩
    -- every thread has begun, and so its file is there
    obtain ⟨body, hbody, hmem, hsave⟩ := getElem?_saves h.saves hth
    obtain ⟨body', hbody', hsize⟩ := exists_of_forall₂ hcounted hth
    cases hbody.symm.trans hbody'
    have hbegun := (hsave.received_of_size (hsized.length_lt hmem) (hsized.pos _ hmem) hsize).2
    exact ⟨fun _ => Nat.zero_le j,
      fun _ => h.linked (.inr rfl) th (List.mem_of_getElem? hth) hbegun⟩

theorem goesOn_opening {i : ℕ}
    (h : HttpDownload.Sound canOpen ended bodies ⟨name, threads, .opening i, total, prev, dest⟩) :
    HttpDownload.GoesOn canOpen ended bodies ⟨name, threads, .opening i, total, prev, dest⟩
      (HttpDownload.goOn canOpen ⟨name, threads, .opening i, total, prev, dest⟩ elapsed) := by
  obtain ⟨hone, hcounted, hfrom, parts, hparts, hdest⟩ := h.done
  rw [HttpDownload.goOn]
  dsimp only at *
  cases hth : threads[i]? with
  | none =>
      have hlen := List.getElem?_eq_none_iff.mp hth
      refine ⟨_, rfl, h.moves .finished prev dest
        (fun hun => absurd hun (not_unmerged_finished rfl))
        ⟨hcounted, .inr ⟨hone, fun th hmem => ?_, parts, ?_, hdest⟩⟩, rfl⟩
      · obtain ⟨j, hj⟩ := List.mem_iff_getElem?.mp hmem
        have hlt : j < threads.length := (List.getElem?_eq_some_iff.mp hj).1
        rw [Bool.eq_false_iff]
        intro hlinked
        have hle := (hfrom j th hj).mp hlinked
        omega
      · rwa [List.take_of_length_le (by rw [h.saves.length_eq]; exact hlen)] at hparts
  | some th =>
      dsimp only
      rw [if_pos ((hfrom i th hth).mpr le_rfl)]
      refine ⟨_, rfl, h.moves (.copying i 0) prev dest
        (fun hun => absurd hun (not_unmerged_copying rfl))
        ⟨hone, hcounted, hfrom, parts, th, hparts, hth, Nat.zero_le _, ?_⟩, rfl⟩
      rw [hdest, List.take_zero, List.append_nil]

/-- The file of a thread has been merged to its end, and is removed. -/
theorem HttpDownload.Sound.unlink (hsized : Sized bodies) {i : ℕ}
    (h : HttpDownload.Sound canOpen ended bodies ⟨name, threads, .copying i offset, total, prev, dest⟩)
    {parts : List Bytes} {th : HttpThread} (hparts : Forall₂ (Part ended) (bodies.take i) parts)
    (hth : threads[i]? = some th) (hdest : dest = some (parts.flatten ++ th.file)) :
    HttpDownload.Sound canOpen ended bodies
      ⟨name, threads.set i { th with linked := false }, .opening (i + 1), total, prev, dest⟩ := by
  obtain ⟨hone, hcounted, hfrom, -⟩ := h.done
  obtain ⟨body, hbody, hpart⟩ := h.part hsized hcounted hth
  dsimp only at *
  have hmem := List.mem_of_getElem? hth
  refine ⟨h.opens, fun th' hmem' => ?_, forall₂_set h.saves fun body' hbody' => ?_, h.total,
    fun hend th' hmem => ?_, fun hun => absurd hun (not_unmerged_opening rfl), ?_, ?_, ?_,
    parts ++ [th.file], ?_, ?_⟩
  · rcases List.mem_or_eq_of_mem_set hmem' with hold | rfl
    · exact h.ready th' hold
    · exact ⟨(h.ready th hmem).opens, (h.ready th hmem).opened⟩
  · obtain ⟨body'', hbody'', -, hsave⟩ := getElem?_saves h.saves hth
    cases hbody'.symm.trans hbody''
    exact hsave
  · rcases List.mem_or_eq_of_mem_set hmem with hold | rfl
    · exact h.finished hend th' hold
    · exact h.finished hend th (List.mem_of_getElem? hth)
  · rwa [List.length_set]
  · refine forall₂_set hcounted fun body' hbody' => ?_
    obtain ⟨body'', hbody'', hsize⟩ := exists_of_forall₂ hcounted hth
    cases hbody'.symm.trans hbody''
    exact hsize
  · intro j th' hth'
    dsimp only at hth'
    rw [List.getElem?_set] at hth'
    split at hth'
    · rename_i hij
      rw [if_pos (List.getElem?_eq_some_iff.mp hth).1, Option.some.injEq] at hth'
      subst hij hth'
      simp
    · rename_i hij
      rw [hfrom j th' hth']
      omega
  · rw [List.take_add_one, hbody]
    exact rel_append hparts (.cons hpart .nil)
  · rw [hdest, List.flatten_append, List.flatten_singleton]

theorem goesOn_copying {i offset : ℕ} (hsized : Sized bodies)
    (h : HttpDownload.Sound canOpen ended bodies ⟨name, threads, .copying i offset, total, prev, dest⟩) :
    HttpDownload.GoesOn canOpen ended bodies ⟨name, threads, .copying i offset, total, prev, dest⟩
      (HttpDownload.goOn canOpen ⟨name, threads, .copying i offset, total, prev, dest⟩ elapsed) := by
  obtain ⟨hone, hcounted, hfrom, parts, th, hparts, hth, hoffset, hdest⟩ := h.done
  rw [HttpDownload.goOn]
  dsimp only at *
  simp only [hth]
  split
  · refine ⟨_, rfl, h.moves (.copying i _) prev (dest.map _)
      (fun hun => absurd hun (not_unmerged_copying rfl))
      ⟨hone, hcounted, hfrom, parts, th, hparts, hth, ?_, ?_⟩, rfl⟩
    · rw [List.length_take, List.length_drop]
      omega
    · have hbuff := List.prefix_iff_eq_take.mp (List.take_prefix 1024 (th.file.drop offset))
      rw [hdest, Option.map_some, List.append_assoc, List.take_add, ← hbuff]
  · rename_i hnone
    have hend : th.file.length ≤ offset := by
      rw [not_not, List.take_eq_nil_iff, List.drop_eq_nil_iff] at hnone
      exact hnone.resolve_left (by decide)
    rw [List.take_of_length_le hend] at hdest
    exact ⟨_, rfl, h.unlink hsized hparts hth hdest, rfl⟩

end

/-- **A step of the main thread.** -/
theorem HttpDownload.Sound.goOn (h : s.Sound canOpen ended bodies) (hsized : Sized bodies)
    (elapsed : Bool) : s.GoesOn canOpen ended bodies (s.goOn canOpen elapsed) := by
  obtain ⟨name, threads, main, total, prev, dest⟩ := s
  cases main with
  | reading i n => exact goesOn_reading hsized h
  | merging => exact goesOn_merging hsized h
  | opening i => exact goesOn_opening h
  | copying i offset => exact goesOn_copying hsized h
  | finished => exact ⟨_, rfl, h, rfl⟩

theorem goesOn_thread (h : s.Sound canOpen ended bodies) (hsized : Sized bodies) (i : ℕ) :
    s.GoesOn canOpen ended bodies (httpStep canOpen s (.thread i)) := by
  rw [httpStep]
  cases hth : s.threads[i]? with
  | none => exact ⟨s, rfl, h, rfl⟩
  | some th =>
      obtain ⟨body, -, hmem, hsave⟩ := getElem?_saves h.saves hth
      have hready := h.ready th (List.mem_of_getElem? hth)
      obtain ⟨th', hstep, ⟨-, hready'⟩, hgrow⟩ := hsave.step hready (hsized.length_lt hmem)
      dsimp only
      rw [hstep, ok_bind]
      refine ⟨_, rfl, h.advance hsized hth hready' (fun body hmem hsave => ?_) hgrow (fun hplace => ?_)
        fun _ => ?_, rfl⟩
      · obtain ⟨th'', hstep', ⟨hsave', -⟩, -⟩ := hsave.step hready (hsized.length_lt hmem)
        cases hstep.symm.trans hstep'
        exact hsave'
      · rw [HttpThread.step, hplace] at hstep
        cases hstep
        exact hplace
      · by_cases hplace : th.place = .opening
        · rw [HttpThread.step, hplace] at hstep
          dsimp only at hstep
          rw [if_pos hready.opens] at hstep
          cases hstep
          exact .inl rfl
        · exact .inr hplace

theorem goesOn_flush (h : s.Sound canOpen ended bodies) (hsized : Sized bodies) (i k : ℕ) :
    s.GoesOn canOpen ended bodies (httpStep canOpen s (.flush i k)) := by
  rw [httpStep]
  cases hth : s.threads[i]? with
  | none => exact ⟨s, rfl, h, rfl⟩
  | some th =>
      obtain ⟨body, -, hmem, hsave⟩ := getElem?_saves h.saves hth
      have hready := h.ready th (List.mem_of_getElem? hth)
      exact ⟨_, rfl, h.advance hsized hth ⟨hready.opens, hready.opened⟩
        (fun body _ hsave => (hsave.flush k).1)
        (hsave.flush k).2 id .inr, rfl⟩

/-- **A step.** Nothing stops the program. -/
theorem httpStep_sound (h : s.Sound canOpen ended bodies) (hsized : Sized bodies) (a : HttpAct) :
    s.GoesOn canOpen ended bodies (httpStep canOpen s a) := by
  cases a with
  | thread i => exact goesOn_thread h hsized i
  | flush i k => exact goesOn_flush h hsized i k
  | main elapsed => exact h.goOn hsized elapsed

theorem run_httpStep_sound (h : s.Sound canOpen ended bodies) (hsized : Sized bodies)
    (acts : List HttpAct) :
    ∃ s', run (httpStep canOpen) s acts = .ok s' ∧ s'.Sound canOpen ended bodies ∧
      s'.total = s.total := by
  have hstep : ∀ (t : HttpDownload) (a : HttpAct),
      t.Sound canOpen ended bodies ∧ t.total = s.total → True →
        ∃ t', httpStep canOpen t a = .ok t' ∧ t'.Sound canOpen ended bodies ∧ t'.total = s.total := by
    rintro t a ⟨ht, htotal⟩ -
    obtain ⟨t', heq, ht', htotal'⟩ := httpStep_sound ht hsized a
    exact ⟨t', heq, ht', htotal'.trans htotal⟩
  exact run_progress (httpStep canOpen) hstep ⟨h, rfl⟩ fun _ _ => trivial

theorem sound_downloadStart {vec : List HttpMultiThreadsDownloader} {total : UInt64}
    {body : HttpMultiThreadsDownloader → Bytes} {conns : List (HttpMultiThreadsDownloader × Socket)}
    (hconns : conns.map Prod.fst = vec)
    (htotal : total.toNat = ((vec.map body).map List.length).sum)
    (hopen : canOpen (destFileName vec) = true)
    (htemp : ∀ d ∈ vec, canOpen d.genFileNameTemp = true)
    (hsocks : ∀ c ∈ conns, c.2.Answers (body c.1)) :
    (HttpDownload.start total conns).Sound canOpen False (vec.map body) := by
  subst hconns
  refine ⟨hopen, fun th hmem => ?_, ?_, htotal, False.elim, fun _ th hmem hbegun => ?_, rfl,
    Nat.zero_le _⟩
  · obtain ⟨c, hc, rfl⟩ := List.mem_map.mp hmem
    exact ready_start (htemp c.1 (List.mem_map_of_mem hc)) c.2
  · rw [HttpDownload.start, forall₂_map_left_iff, forall₂_map_left_iff, forall₂_map_right_iff,
      forall₂_same]
    exact fun c hc => saves_start (hsocks c hc) _
  · obtain ⟨c, -, rfl⟩ := List.mem_map.mp hmem
    exact absurd rfl hbegun

/-- When every thread has ended before the merge, it merges all. -/
theorem HttpDownload.Sound.of_ended (h : s.Sound canOpen False bodies) (hunmerged : s.Unmerged)
    (hended : ∀ th ∈ s.threads, th.place = .finished) : s.Sound canOpen True bodies := by
  refine ⟨h.opens, h.ready, h.saves, h.total, fun _ => hended, h.linked, ?_⟩
  have hdone := h.done
  rw [HttpDownload.Done] at hdone ⊢
  rcases hunmerged with ⟨i, n, heq⟩ | heq
  · rw [heq] at hdone ⊢
    exact hdone
  · rw [heq] at hdone ⊢
    exact hdone

/-- Once the main thread does not wait any more, all has been counted. -/
theorem HttpDownload.Sound.counted_of_not_waits (h : s.Sound canOpen ended bodies)
    (hwaits : ¬ s.Waits) : s.Counted bodies := by
  have hdone := h.done
  rw [HttpDownload.Done] at hdone
  cases hmain : s.main with
  | reading i n => exact absurd ⟨i, n, hmain⟩ hwaits
  | merging =>
      rw [hmain] at hdone
      exact hdone.2
  | opening i =>
      rw [hmain] at hdone
      exact hdone.2.1
  | copying i offset =>
      rw [hmain] at hdone
      exact hdone.2.1
  | finished =>
      rw [hmain] at hdone
      exact hdone.1

theorem HttpDownload.Sound.received (h : s.Sound canOpen ended bodies) (hsized : Sized bodies)
    (hwaits : ¬ s.Waits) :
    Forall₂ (fun body (th : HttpThread) => th.received = body) bodies s.threads := by
  have hcounted := h.counted_of_not_waits hwaits
  rw [forall₂_iff_get]
  refine ⟨h.saves.length_eq, fun i hi hi' => ?_⟩
  have hbody := List.get_mem bodies ⟨i, hi⟩
  exact ((h.saves.get hi hi').received_of_size (hsized.length_lt hbody) (hsized.pos _ hbody)
    (hcounted.get hi hi')).1

theorem HttpDownload.Sound.merged (h : s.Sound canOpen ended bodies) (hfinished : s.main = .finished)
    (hone : s.threads.length ≠ 1) :
    ∃ parts, Forall₂ (Part ended) bodies parts ∧ s.dest = some parts.flatten := by
  have hdone := h.done
  rw [HttpDownload.Done, hfinished] at hdone
  rcases hdone.2 with ⟨hone', -⟩ | ⟨-, -, hparts⟩
  · exact absurd hone' hone
  · exact hparts

theorem HttpDownload.Sound.run_ended {start m s : HttpDownload} (h : start.Sound canOpen False bodies)
    (hsized : Sized bodies) (hone : bodies.length ≠ 1) {before after : List HttpAct}
    (hm : run (httpStep canOpen) start before = .ok m) (hunmerged : m.Unmerged)
    (hended : ∀ th ∈ m.threads, th.place = .finished)
    (hs : run (httpStep canOpen) m after = .ok s) (hfinished : s.main = .finished) :
    s.dest = some bodies.flatten ∧ ∀ th ∈ s.threads, th.linked = false := by
  obtain ⟨m', hm', hsound, -⟩ := run_httpStep_sound h hsized before
  cases hm.symm.trans hm'
  obtain ⟨s', hs', hsound', -⟩ :=
    run_httpStep_sound (hsound.of_ended hunmerged hended) hsized after
  cases hs.symm.trans hs'
  have hlen : s.threads.length ≠ 1 := by rwa [← hsound'.saves.length_eq]
  have hdone := hsound'.done
  rw [HttpDownload.Done, hfinished] at hdone
  obtain ⟨hone', -⟩ | ⟨-, hunlinked, parts, hparts, hdest⟩ := hdone.2
  · exact absurd hone' hlen
  · have hall : bodies = parts := by
      have heq := hparts.imp fun _ _ hpart => (hpart.2 trivial).symm
      rwa [forall₂_eq_eq_eq] at heq
    exact ⟨by rw [hdest, hall], hunlinked⟩

end

/-! ### The download of a file -/

section

variable {hup : HttpUrlParser} {content : Bytes} {fileSize threadCount : UInt64}
  {body : HttpMultiThreadsDownloader → Bytes} {conns : List (HttpMultiThreadsDownloader × Socket)}
  {canOpen : Bytes → Bool}

/-- No thread asks for nothing, and together they ask for the file. -/
theorem sized_replies (hsize : fileSize.toNat = content.length)
    (hsmall : content.length ≤ 2 ^ 53) (hcount : 0 < threadCount) (hle : threadCount ≤ fileSize)
    (hbody : ∀ d ∈ vecHmtd hup fileSize threadCount, ∃ header,
      d.genRangeHeader = some header ∧ body d = rangeReply content header) :
    Sized ((vecHmtd hup fileSize threadCount).map body) ∧
      fileSize.toNat = (((vecHmtd hup fileSize threadCount).map body).map List.length).sum := by
  have hall := flatMap_replies hsize hcount hle hbody
  have hsum : fileSize.toNat =
      (((vecHmtd hup fileSize threadCount).map body).map List.length).sum := by
    rw [hsize, ← List.length_flatten, ← List.flatMap_def, hall]
  refine ⟨⟨fun b hb => ?_, hsum ▸ hsize ▸ hsmall⟩, hsum⟩
  obtain ⟨d, hd, rfl⟩ := List.mem_map.mp hb
  obtain ⟨header, hheader, heq⟩ := hbody d hd
  obtain ⟨i, hi, rfl⟩ := List.mem_map.mp hd
  have hi' := List.mem_range.mp hi
  have hpos : 0 < content.length / threadCount.toNat :=
    Nat.div_pos (by rwa [← hsize]) (by omega)
  have hfile := succ_mul_le fileSize hi'
  rw [hsize] at hfile
  rw [heq, rangeReply_new hsize hi' hpos hheader, List.length_drop, List.length_take]
  rw [Nat.succ_mul] at hfile ⊢
  split <;> omega

/-- **The merge does not begin early.** However the threads and the main thread are
interleaved, whatever calls of `recv` fail and whenever bytes come to the disk: nothing
stops the program; when the main thread leaves its loop, every thread has received
all of its part; and what has been merged in the end is, for each thread in order, a
beginning of its part, so that it is the file only if nothing was missing from any
of them. -/
theorem run_downloadFile (hsize : fileSize.toNat = content.length)
    (hsmall : content.length ≤ 2 ^ 53) (hcount : 0 < threadCount) (hle : threadCount ≤ fileSize)
    (hbody : ∀ d ∈ vecHmtd hup fileSize threadCount, ∃ header,
      d.genRangeHeader = some header ∧ body d = rangeReply content header)
    (hconns : conns.map Prod.fst = vecHmtd hup fileSize threadCount)
    (hsocks : ∀ c ∈ conns, c.2.Answers (body c.1))
    (hopen : canOpen (destFileName (vecHmtd hup fileSize threadCount)) = true)
    (htemp : ∀ d ∈ vecHmtd hup fileSize threadCount, canOpen d.genFileNameTemp = true)
    (acts : List HttpAct) :
    ∃ s, run (httpStep canOpen) (.start fileSize conns) acts = .ok s ∧
      (¬ s.Waits → Forall₂ (fun d (th : HttpThread) => th.received = body d)
        (vecHmtd hup fileSize threadCount) s.threads) ∧
      (s.main = .finished → threadCount ≠ 1 →
        ∃ parts, Forall₂ (fun d part => part <+: body d)
            (vecHmtd hup fileSize threadCount) parts ∧ s.dest = some parts.flatten ∧
          (s.dest = some content ↔ parts = (vecHmtd hup fileSize threadCount).map body)) := by
  obtain ⟨hsized, hsum⟩ := sized_replies hsize hsmall hcount hle hbody
  obtain ⟨s, hrun, hsound, -⟩ :=
    run_httpStep_sound (sound_downloadStart hconns hsum hopen htemp hsocks) hsized acts
  refine ⟨s, hrun, fun hwaits => ?_, fun hfinished hone => ?_⟩
  · exact forall₂_map_left_iff.mp (hsound.received hsized hwaits)
  · have hlen : s.threads.length ≠ 1 := by
      rw [← hsound.saves.length_eq, List.length_map, length_vecHmtd]
      exact fun h => hone (UInt64.toNat_inj.mp h)
    obtain ⟨parts, hparts, hdest⟩ := hsound.merged hfinished hlen
    have hbegins := hparts.imp fun _ _ hpart => hpart.1
    refine ⟨parts, forall₂_map_left_iff.mp hbegins, hdest, ?_⟩
    have hall := flatMap_replies hsize hcount hle hbody
    rw [← flatten_eq_iff_of_prefix hbegins, hdest, Option.some.injEq, ← List.flatMap_def, hall]

def partialContent (body : Bytes) : Socket :=
  ⟨bytesOf "HTTP/1.1 206 Partial Content" ++ headerEnd ++ body, [], [], []⟩

theorem answers_partialContent (body : Bytes) : (partialContent body).Answers body := by
  have hzero : 0 ∉ bytesOf "HTTP/1.1 206 Partial Content" := by decide
  refine ⟨⟨bytesOf "HTTP/1.1 206 Partial Content", body, by decide⟩, rfl, rfl, hzero, ?_⟩
  rintro bytes sock' ⟨⟩
  rw [List.length_take]
  have hhead : (bytesOf "HTTP/1.1 206 Partial Content").length + headerEnd.length = 32 := by decide
  rw [partialContent, List.length_append, List.length_append, hhead]
  omega

def nameUrl : HttpUrlParser := ⟨bytesOf "host", bytesOf "/dir/name"⟩

def fiveBody (d : HttpMultiThreadsDownloader) : Bytes :=
  rangeReply [1, 2, 3, 4, 5] (d.genRangeHeader.getD [])

theorem fiveBody_eq : ∀ d ∈ vecHmtd nameUrl 5 2, ∃ header,
    d.genRangeHeader = some header ∧ fiveBody d = rangeReply [1, 2, 3, 4, 5] header := by
  intro d hd
  obtain ⟨i, -, rfl⟩ := List.mem_map.mp hd
  exact ⟨_, rfl, rfl⟩

def fiveConns : List (HttpMultiThreadsDownloader × Socket) :=
  (vecHmtd nameUrl 5 2).map fun d => (d, partialContent (fiveBody d))

theorem answers_fiveConns : ∀ c ∈ fiveConns, c.2.Answers (fiveBody c.1) := by
  intro c hc
  obtain ⟨d, -, rfl⟩ := List.mem_map.mp hc
  exact answers_partialContent (fiveBody d)

def named (name : Bytes) : Bool := name ≠ []

theorem named_temp : ∀ d ∈ vecHmtd nameUrl 5 2, named d.genFileNameTemp = true := by decide

/-- Each thread receives its part and counts it, and the main thread merges. -/
def hastyActs : List HttpAct :=
  List.replicate 3 (.thread 0) ++ List.replicate 3 (.thread 1) ++ List.replicate 9 (.main true)

/-- All has been received, and what has been merged is empty. -/
theorem run_downloadFile_hasty :
    ∃ s, run (httpStep named) (.start 5 fiveConns) hastyActs = .ok s ∧
      Forall₂ (fun d (th : HttpThread) => th.received = fiveBody d) (vecHmtd nameUrl 5 2)
        s.threads ∧
      s.dest = some [] ∧
      ∃ parts, Forall₂ (fun d part => part <+: fiveBody d) (vecHmtd nameUrl 5 2) parts ∧
        parts ≠ (vecHmtd nameUrl 5 2).map fiveBody := by
  obtain ⟨s, hrun, hreceived, hmerged⟩ := run_downloadFile rfl (by decide) (by decide)
    (by decide) fiveBody_eq rfl answers_fiveConns (by decide) named_temp hastyActs
  have hlast : (run (httpStep named) (.start 5 fiveConns) hastyActs).toOption.map
      (fun s => (s.main, s.dest)) = some (.finished, some []) := by decide +kernel
  rw [hrun] at hlast
  obtain ⟨hmain, hdest⟩ : s.main = .finished ∧ s.dest = some [] := by
    simpa [Except.toOption] using hlast
  obtain ⟨parts, hparts, -, hiff⟩ := hmerged hmain (by decide)
  refine ⟨s, hrun, hreceived ?_, hdest, parts, hparts, fun heq => ?_⟩
  · rintro ⟨i, n, heq⟩
    cases hmain.symm.trans heq
  · have hwhole := hiff.mpr heq
    rw [hdest] at hwhole
    cases hwhole

/-- **Nothing is missing when the threads end first.** If every thread has come to its
end in some state before the merge has begun, then however the program goes on from
there, the file that is merged in the end is the whole file, and the temporary files
are gone. -/
theorem run_downloadFile_ended (hsize : fileSize.toNat = content.length)
    (hsmall : content.length ≤ 2 ^ 53) (hcount : 0 < threadCount) (hle : threadCount ≤ fileSize)
    (hbody : ∀ d ∈ vecHmtd hup fileSize threadCount, ∃ header,
      d.genRangeHeader = some header ∧ body d = rangeReply content header)
    (hconns : conns.map Prod.fst = vecHmtd hup fileSize threadCount)
    (hsocks : ∀ c ∈ conns, c.2.Answers (body c.1))
    (hopen : canOpen (destFileName (vecHmtd hup fileSize threadCount)) = true)
    (htemp : ∀ d ∈ vecHmtd hup fileSize threadCount, canOpen d.genFileNameTemp = true)
    {before after : List HttpAct} {m s : HttpDownload}
    (hm : run (httpStep canOpen) (.start fileSize conns) before = .ok m)
    (hunmerged : m.Unmerged) (hended : ∀ th ∈ m.threads, th.place = .finished)
    (hs : run (httpStep canOpen) m after = .ok s) (hfinished : s.main = .finished)
    (hone : threadCount ≠ 1) :
    s.dest = some content ∧ ∀ th ∈ s.threads, th.linked = false := by
  obtain ⟨hsized, hsum⟩ := sized_replies hsize hsmall hcount hle hbody
  have hlen : ((vecHmtd hup fileSize threadCount).map body).length ≠ 1 := by
    rw [List.length_map, length_vecHmtd]
    exact fun h => hone (UInt64.toNat_inj.mp h)
  have hall := flatMap_replies hsize hcount hle hbody
  rw [List.flatMap_def] at hall
  have hend := (sound_downloadStart hconns hsum hopen htemp hsocks).run_ended hsized hlen hm hunmerged
    hended hs hfinished
  rwa [hall] at hend

/-- Each thread comes to its end before the main thread looks. -/
def patientActs : List HttpAct :=
  List.replicate 5 (.thread 0) ++ List.replicate 5 (.thread 1)

theorem run_downloadFile_patient :
    ∃ m s, run (httpStep named) (.start 5 fiveConns) patientActs = .ok m ∧
      run (httpStep named) m (List.replicate 11 (.main true)) = .ok s ∧
      s.dest = some [1, 2, 3, 4, 5] := by
  obtain ⟨m, hm, hmain, hended⟩ : ∃ m,
      run (httpStep named) (.start 5 fiveConns) patientActs = .ok m ∧
        m.main = .reading 0 0 ∧ ∀ th ∈ m.threads, th.place = .finished := by decide +kernel
  have hlast : (run (httpStep named) (.start 5 fiveConns)
      (patientActs ++ List.replicate 11 (.main true))).toOption.map (·.main) = some .finished := by
    decide +kernel
  obtain ⟨s, hs⟩ : ∃ s, run (httpStep named) (.start 5 fiveConns)
      (patientActs ++ List.replicate 11 (.main true)) = .ok s := by
    cases hrun : run (httpStep named) (.start 5 fiveConns)
        (patientActs ++ List.replicate 11 (.main true)) with
    | error crash =>
        rw [hrun] at hlast
        cases hlast
    | ok s => exact ⟨s, rfl⟩
  rw [hs] at hlast
  have hfinished : s.main = .finished := Option.some.inj hlast
  obtain ⟨m', hm', hs'⟩ := (run_append_eq_ok _).mp hs
  cases hm.symm.trans hm'
  exact ⟨m, s, hm, hs', (run_downloadFile_ended rfl (by decide) (by decide) (by decide) fiveBody_eq
    rfl answers_fiveConns (by decide) named_temp hm (.inl ⟨0, 0, hmain⟩) hended hs' hfinished
    (by decide)).1⟩

end

end Daobell
