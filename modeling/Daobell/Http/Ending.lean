import Daobell.Http.Progress
import Daobell.Lib.Fairness

/-!
The download ends. While the main thread goes round in its loop the threads go on, and
each of them takes no more steps than there is to receive; when they have ended and a
second has passed, the next round of the main thread that begins is its last, and the
merge copies files that do not grow any more.
-/

namespace Daobell

open Lib List

/-! ### What a thread has left -/

/-- Where a thread is, what its connection is still to bring, and what it has. Neither
the main thread nor the flushing of buffers changes it. -/
structure HttpStage where
  sock : Socket
  place : HttpPlace
  received : Bytes

def HttpThread.stage (th : HttpThread) : HttpStage := ⟨th.sock, th.place, th.received⟩

/-- More than the steps to the end of the thread: two for a byte that is yet to come. -/
def HttpStage.left (st : HttpStage) : ℕ :=
  2 * st.sock.inp.length +
    match st.place with
    | .opening => 6
    | .header => 5
    | .wrote _ => 4
    | .counted _ => 3
    | .body => 2
    | .closing => 1
    | .finished => 0

/-- No call of `recv` fails, and the thread does not end before it has all of the body. -/
structure HttpStage.Unbroken (body : Bytes) (st : HttpStage) : Prop where
  reliable : st.sock.RecvReliable
  whole : st.place = .closing ∨ st.place = .finished → st.received = body

theorem HttpThread.stage_flush (th : HttpThread) (k : ℕ) : (th.flush k).stage = th.stage := by
  rw [HttpThread.stage, th.received_flush]
  rfl

section

variable {canOpen : Bytes → Bool} {body : Bytes} {th : HttpThread}

/-- **A step of a thread** on an unbroken connection: it has less left, unless it has
ended. -/
theorem HttpThread.Saves.step_left (h : th.Saves body) (hready : th.Ready canOpen)
    (hunbroken : th.stage.Unbroken body) :
    ∃ th', th.step canOpen = .ok th' ∧ th'.stage.Unbroken body ∧
      (th.place = .finished ∧ th' = th ∨ th'.stage.left < th.stage.left) := by
  obtain ⟨name, sock, place, size, linked, opened, file, buffered⟩ := th
  obtain ⟨hreliable, hwhole⟩ := hunbroken
  dsimp only [HttpThread.stage] at hreliable hwhole
  cases place with
  | opening =>
      exact ⟨_, if_pos hready.opens, ⟨hreliable, by simp [HttpThread.stage]⟩,
        .inr (Nat.lt_succ_self _)⟩
  | header =>
      obtain ⟨hanswers, -, -⟩ := h
      obtain ⟨_, -, -, hfails⟩ | ⟨bytes, sock', hrecv, hstep, -⟩ := recv_cases sock 1023
      · exact absurd hreliable hfails
      · obtain ⟨str, hfound, -⟩ := hanswers.found hrecv
        have hle : sock'.inp.length ≤ sock.inp.length := by
          rw [hstep.inp, List.length_append]
          exact Nat.le_add_left _ _
        rw [HttpThread.step]
        simp only [hrecv, hfound]
        refine ⟨_, rfl, ⟨hstep.reliable hreliable, by simp [HttpThread.stage]⟩, .inr ?_⟩
        simp only [HttpThread.stage, HttpStage.left]
        omega
  | wrote size' =>
      refine ⟨_, rfl, ⟨hreliable, by simp [HttpThread.stage]⟩, .inr ?_⟩
      simp only [HttpThread.stage, HttpStage.left]
      omega
  | body =>
      obtain ⟨_, -, -, hfails⟩ | ⟨bytes, sock', hrecv, hstep, -, hend⟩ := recv_cases sock 1023
      · exact absurd hreliable hfails
      · rw [HttpThread.step]
        simp only [hrecv]
        split
        · rename_i hne
          have hless := hstep.length_lt hne
          refine ⟨_, rfl, ⟨hstep.reliable hreliable, by simp [HttpThread.stage]⟩, .inr ?_⟩
          simp only [HttpThread.stage, HttpStage.left]
          omega
        · rename_i hnil
          -- nothing has come, so this is the end of the stream
          rw [not_not] at hnil
          have hinp : sock.inp = [] := by
            have htake := hend hnil
            rw [List.take_eq_nil_iff] at htake
            exact htake.resolve_left (by decide)
          have hinp' : sock'.inp = [] := by
            have hsplit := hstep.inp
            rw [hinp, hnil, List.nil_append] at hsplit
            exact hsplit.symm
          have hall := h.1
          dsimp only at hall
          rw [hinp, List.append_nil] at hall
          refine ⟨_, rfl, ⟨hstep.reliable hreliable, fun _ => hall⟩, .inr ?_⟩
          simp only [HttpThread.stage, HttpStage.left, hinp, hinp']
          omega
  | counted bytes =>
      refine ⟨_, rfl, ⟨hreliable, by simp [HttpThread.stage]⟩, .inr ?_⟩
      simp only [HttpThread.stage, HttpStage.left]
      omega
  | closing =>
      refine ⟨_, rfl, ⟨hreliable, fun _ => ?_⟩, .inr ?_⟩
      · rw [← hwhole (.inl rfl)]
        simp [HttpThread.stage, HttpThread.received, HttpPlace.pending]
      · simp only [HttpThread.stage, HttpStage.left]
        omega
  | finished => exact ⟨_, rfl, ⟨hreliable, hwhole⟩, .inl ⟨rfl, rfl⟩⟩

/-- A thread that has ended has its body on the disk, and counted. -/
theorem HttpThread.Saves.of_finished (h : th.Saves body) (hunbroken : th.stage.Unbroken body)
    (hplace : th.place = .finished) :
    th.file = body ∧ th.buffered = [] ∧ th.downloadedSize = UInt64.ofNat body.length := by
  have hall : th.received = body := hunbroken.whole (.inr hplace)
  rw [HttpThread.Saves, hplace] at h
  obtain ⟨-, hsize, hbuffered⟩ := h
  refine ⟨?_, hbuffered, by rw [hsize, hall]⟩
  rw [← hall, HttpThread.received, hbuffered, hplace]
  simp [HttpPlace.pending]

end

/-! ### The threads come to their ends -/

def HttpDownload.stages (s : HttpDownload) : List HttpStage := s.threads.map HttpThread.stage

def HttpDownload.left (s : HttpDownload) : ℕ := (s.stages.map HttpStage.left).sum

def HttpDownload.Runs (s : HttpDownload) (i : ℕ) : Prop :=
  ∃ st, s.stages[i]? = some st ∧ st.place ≠ .finished

/-- What holds all the time when no call of `recv` fails. -/
structure HttpDownload.Lively (canOpen : Bytes → Bool) (bodies : List Bytes) (total : UInt64)
    (s : HttpDownload) : Prop where
  sound : s.Sound canOpen False bodies
  total_eq : s.total = total
  unbroken : Forall₂ HttpStage.Unbroken bodies s.stages
  prev_lt : s.prev < total

section

variable {bodies : List Bytes} {total : UInt64} {s s' : HttpDownload}
  {canOpen : Bytes → Bool}

theorem stages_getElem? {i : ℕ} {th : HttpThread} (hth : s.threads[i]? = some th) :
    s.stages[i]? = some th.stage := by
  rw [HttpDownload.stages, List.getElem?_map, hth, Option.map_some]

theorem stages_set (i : ℕ) (th : HttpThread) (main : MainPlace) :
    HttpDownload.stages { s with threads := s.threads.set i th, main := main } =
      s.stages.set i th.stage := List.map_set

theorem stages_set_of_stage_eq {i : ℕ} {th th' : HttpThread} (hth : s.threads[i]? = some th)
    (hstage : th'.stage = th.stage) (main : MainPlace) :
    HttpDownload.stages { s with threads := s.threads.set i th', main := main } = s.stages := by
  rw [stages_set, hstage, set_of_getElem? (stages_getElem? hth)]

theorem stages_judge (n : UInt64) (elapsed : Bool) :
    (s.judge n elapsed).stages = s.stages := by
  rw [HttpDownload.judge]
  split_ifs <;> rfl

theorem prev_judge (n : UInt64) (elapsed : Bool) :
    (s.judge n elapsed).prev = s.prev ∨ (s.judge n elapsed).prev < s.total := by
  rw [HttpDownload.judge]
  split
  · exact .inl rfl
  split
  · exact .inl rfl
  split
  · exact .inl rfl
  split
  · exact .inl rfl
  · rename_i hcomplete
    exact .inr (UInt64.not_le.mp fun hle => hcomplete (barComplete_of_le hle))

theorem MainStep.stages {elapsed : Bool} (h : MainStep elapsed s s') :
    s'.stages = s.stages ∧ (s'.prev = s.prev ∨ s'.prev < s.total) := by
  cases h with
  | judge hmain hnone => exact ⟨stages_judge _ elapsed, prev_judge _ elapsed⟩
  | @remove i offset th hmain hth hend =>
      have hstage : HttpThread.stage { th with linked := false } = th.stage := rfl
      exact ⟨stages_set_of_stage_eq hth hstage _, .inl rfl⟩
  | _ => exact ⟨rfl, .inl rfl⟩

theorem HttpDownload.Lively.thread (h : s.Lively canOpen bodies total) {i : ℕ} {th th' : HttpThread}
    (hth : s.threads[i]? = some th) (hstep : th.step canOpen = .ok th') :
    Forall₂ HttpStage.Unbroken bodies (s.stages.set i th'.stage) ∧
      (((s.stages.set i th'.stage).map HttpStage.left).sum < s.left ∨
        th.place = .finished ∧ th' = th) := by
  have hstage := stages_getElem? hth
  obtain ⟨body, hbody, -, hsave⟩ := getElem?_saves h.sound.saves hth
  obtain ⟨body', hbody', hunbroken⟩ := exists_of_forall₂ h.unbroken hstage
  cases hbody.symm.trans hbody'
  obtain ⟨th'', hth'', hunbroken', hless⟩ := hsave.step_left
    (h.sound.ready th (List.mem_of_getElem? hth)) hunbroken
  cases hstep.symm.trans hth''
  refine ⟨forall₂_set h.unbroken fun body'' hbody'' => ?_, ?_⟩
  · cases hbody.symm.trans hbody''
    exact hunbroken'
  · rcases hless with hended | hless
    · exact .inr hended
    · exact .inl (sum_map_set_lt hstage hless)

/-- **A step**, of which the threads have less left, or after which all of them that run
still run, and none of them has had its turn. -/
theorem httpStep_lively (h : s.Lively canOpen bodies total) (hsized : Sized bodies)
    (a : HttpAct) :
    ∃ s', httpStep canOpen s a = .ok s' ∧ s'.Lively canOpen bodies total ∧
      (s'.left < s.left ∨ s'.stages = s.stages ∧ ∀ i, s.Runs i → a ≠ .thread i) := by
  obtain ⟨s', heq, hsound, htotal⟩ :=
    httpStep_sound h.sound hsized a
  have hkept : s'.stages = s.stages → s'.prev = s.prev ∨ s'.prev < s.total →
      s'.Lively canOpen bodies total := by
    intro hstages hprev
    refine ⟨hsound, htotal.trans h.total_eq, hstages ▸ h.unbroken, ?_⟩
    rcases hprev with hsame | hlt
    · exact hsame ▸ h.prev_lt
    · exact h.total_eq ▸ hlt
  refine ⟨s', heq, ?_⟩
  cases httpStep_cases heq with
  | @thread i th th' hth hstep =>
      obtain ⟨hunbroken, hless | ⟨hfinished, rfl⟩⟩ := h.thread hth hstep
      · have hstages := stages_set (s := s) i th' s.main
        refine ⟨⟨hsound, h.total_eq, hstages ▸ hunbroken, h.prev_lt⟩, .inl ?_⟩
        rw [HttpDownload.left, hstages]
        exact hless
      · have hstages := stages_set_of_stage_eq hth rfl s.main
        refine ⟨hkept hstages (.inl rfl), .inr ⟨hstages, ?_⟩⟩
        rintro j ⟨st, hst, hruns⟩ ⟨⟩
        cases hst.symm.trans (stages_getElem? hth)
        exact hruns hfinished
  | noThread hnone =>
      refine ⟨h, .inr ⟨rfl, ?_⟩⟩
      rintro j ⟨st, hst, -⟩ ⟨⟩
      rw [HttpDownload.stages, List.getElem?_map, hnone] at hst
      cases hst
  | @flush i k th hth =>
      have hstages := stages_set_of_stage_eq hth (th.stage_flush k) s.main
      exact ⟨hkept hstages (.inl rfl), .inr ⟨hstages, by rintro _ _ ⟨⟩⟩⟩
  | noFlush hnone => exact ⟨h, .inr ⟨rfl, by rintro _ _ ⟨⟩⟩⟩
  | main hmain =>
      obtain ⟨hstages, hprev⟩ := hmain.stages
      exact ⟨hkept hstages hprev, .inr ⟨hstages, by rintro _ _ ⟨⟩⟩⟩

def HttpDownload.Ended (s : HttpDownload) : Prop := ∀ st ∈ s.stages, st.place = .finished

/-- Whose turn it is, of `n` threads and the main thread. -/
inductive HttpTurn (n : ℕ)
  | thread (i : Fin n)
  | main

/-- The turn of the main thread counts once a second has passed. -/
def HttpTurn.DoneBy {n : ℕ} : HttpTurn n → HttpAct → Prop
  | .thread i, a => a = .thread i
  | .main, a => a = .main true

def HttpTurn.Helps {n : ℕ} (turn : HttpTurn n) (s : HttpDownload) : Prop :=
  match turn with
  | .thread i => s.Runs i
  | .main => False

/-- While a thread has not come to its end, a turn of it helps. -/
theorem HttpDownload.Lively.ended_or_helps (h : s.Lively canOpen bodies total) {n : ℕ}
    (hn : bodies.length = n) : s.Ended ∨ ∃ turn : HttpTurn n, turn.Helps s := by
  refine or_iff_not_imp_left.mpr fun hended => ?_
  obtain ⟨st, hst, hruns⟩ : ∃ st ∈ s.stages, st.place ≠ .finished := by
    simpa [HttpDownload.Ended] using hended
  obtain ⟨i, hi⟩ := List.mem_iff_getElem?.mp hst
  have hlt : i < n := by
    rw [← hn, h.unbroken.length_eq]
    exact (List.getElem?_eq_some_iff.mp hi).1
  exact ⟨.thread ⟨i, hlt⟩, st, hi, hruns⟩

/-- The threads come to their ends, whatever the main thread does. -/
theorem run_threads_end (h : s.Lively canOpen bodies total) (hsized : Sized bodies)
    {n : ℕ} (hn : bodies.length = n)
    {sched : ℕ → HttpAct} (hfair : Fair (HttpTurn.DoneBy (n := n)) sched) :
    ∃ k t, run (httpStep canOpen) s (firstActs sched k) = .ok t ∧ t.Lively canOpen bodies total ∧
      t.Ended := by
  have hstep : ∀ (s : HttpDownload) (a : HttpAct), s.Lively canOpen bodies total →
      ∃ s', httpStep canOpen s a = .ok s' ∧ s'.Lively canOpen bodies total ∧
        (s'.left < s.left ∨ s'.left = s.left ∧
          ∀ turn : HttpTurn n, turn.Helps s → turn.Helps s' ∧ ¬ turn.DoneBy a) := by
    intro s a h
    obtain ⟨s', heq, h', hless | ⟨hstages, hturn⟩⟩ := httpStep_lively h hsized a
    · exact ⟨s', heq, h', .inl hless⟩
    · refine ⟨s', heq, h', .inr ⟨by rw [HttpDownload.left, hstages, HttpDownload.left], ?_⟩⟩
      intro turn hhelps
      cases turn with
      | thread i => exact ⟨by rwa [HttpTurn.Helps, HttpDownload.Runs, hstages], hturn i hhelps⟩
      | main => exact hhelps.elim
  exact run_reaches _ HttpDownload.left hstep (fun s h => h.ended_or_helps hn) h hfair

/-! ### The main thread comes to its end -/

/-- What a round comes to that stands at thread `i` with the sum `n`. -/
def roundSum (threads : List HttpThread) (i : ℕ) (n : UInt64) : UInt64 :=
  (threads.drop i).foldl (fun n th => n + th.downloadedSize) n

def filesLeft (threads : List HttpThread) : ℕ := (threads.map fun th => th.file.length + 2).sum

/-- More than the steps of the main thread to its end, once the threads have come to
theirs. A round that began before that may still come to less than the total, and then
there is one more. -/
def HttpDownload.mainLeft (s : HttpDownload) : ℕ :=
  match s.main with
  | .reading i n => 3 + filesLeft s.threads + (s.threads.length - i) +
      if roundSum s.threads i n = s.total then 0 else s.threads.length + 1
  | .merging => 2 + filesLeft s.threads
  | .opening i => 1 + filesLeft (s.threads.drop i)
  | .copying i offset => 2 + ((s.threads[i]?.map fun th => th.file.length).getD 0 - offset) +
      filesLeft (s.threads.drop (i + 1))
  | .finished => 0

theorem filesLeft_drop {threads : List HttpThread} {i : ℕ} {th : HttpThread}
    (hth : threads[i]? = some th) :
    filesLeft (threads.drop i) = th.file.length + 2 + filesLeft (threads.drop (i + 1)) := by
  obtain ⟨hi, rfl⟩ := List.getElem?_eq_some_iff.mp hth
  rw [List.drop_eq_getElem_cons hi, filesLeft, List.map_cons, List.sum_cons, filesLeft]

theorem roundSum_of_getElem? {threads : List HttpThread} {i : ℕ} {th : HttpThread}
    (hth : threads[i]? = some th) (n : UInt64) :
    roundSum threads (i + 1) (n + th.downloadedSize) = roundSum threads i n := by
  obtain ⟨hi, rfl⟩ := List.getElem?_eq_some_iff.mp hth
  rw [roundSum, roundSum, List.drop_eq_getElem_cons hi, List.foldl_cons]

theorem roundSum_of_none {threads : List HttpThread} {i : ℕ} (hnone : threads[i]? = none)
    (n : UInt64) : roundSum threads i n = n := by
  rw [roundSum, List.drop_eq_nil_iff.mpr (List.getElem?_eq_none_iff.mp hnone)]
  rfl

theorem foldl_downloadedSize {threads : List HttpThread}
    (h : Forall₂ (fun body th => th.downloadedSize = UInt64.ofNat body.length) bodies threads)
    (n : UInt64) :
    threads.foldl (fun n th => n + th.downloadedSize) n =
      n + UInt64.ofNat (bodies.map List.length).sum := by
  induction h generalizing n with
  | nil => simp
  | cons hsize _ ih =>
      rw [List.foldl_cons, ih, hsize, List.map_cons, List.sum_cons, UInt64.ofNat_add,
        UInt64.add_assoc]

theorem HttpDownload.Lively.of_ended (h : s.Lively canOpen bodies total) (hended : s.Ended) :
    Forall₂ (fun body th => th.place = .finished ∧ th.file = body ∧ th.buffered = [] ∧
      th.downloadedSize = UInt64.ofNat body.length) bodies s.threads := by
  have hunbroken := forall₂_map_right_iff.mp h.unbroken
  rw [forall₂_iff_get]
  refine ⟨h.sound.saves.length_eq, fun i hi hi' => ?_⟩
  have hplace : (s.threads.get ⟨i, hi'⟩).place = .finished :=
    hended _ (List.mem_map_of_mem (List.get_mem _ _))
  exact ⟨hplace, (h.sound.saves.get hi hi').of_finished (hunbroken.get hi hi') hplace⟩

/-- A round that begins when the threads have ended comes to the total. -/
theorem HttpDownload.Lively.roundSum_zero (h : s.Lively canOpen bodies total) (hended : s.Ended) :
    roundSum s.threads 0 0 = s.total := by
  have hsizes := (h.of_ended hended).imp fun _ _ hth => hth.2.2.2
  rw [roundSum, List.drop_zero, foldl_downloadedSize hsizes, UInt64.zero_add,
    ← h.sound.total, UInt64.ofNat_toNat]

theorem mainLeft_judge (h : s.Lively canOpen bodies total) (hended : s.Ended) {i : ℕ} {n : UInt64}
    (hmain : s.main = .reading i n) (hnone : s.threads[i]? = none) :
    (s.judge n true).mainLeft < s.mainLeft := by
  have hleft : s.mainLeft = 3 + filesLeft s.threads + (s.threads.length - i) +
      if n = s.total then 0 else s.threads.length + 1 := by
    rw [HttpDownload.mainLeft, hmain]
    dsimp only
    rw [roundSum_of_none hnone]
  -- the next round is the last one
  have hagain : ∀ prev, HttpDownload.mainLeft { s with main := .reading 0 0, prev := prev } =
      3 + filesLeft s.threads + s.threads.length := by
    intro prev
    rw [HttpDownload.mainLeft]
    dsimp only
    rw [if_pos (h.roundSum_zero hended), Nat.sub_zero, Nat.add_zero]
  have hless : n ≠ s.total → 3 + filesLeft s.threads + s.threads.length < s.mainLeft := by
    intro hne
    rw [hleft, if_neg hne]
    omega
  rw [HttpDownload.judge]
  split
  · rename_i hsame
    rw [hagain]
    refine hless ?_
    rw [hsame, h.total_eq]
    exact UInt64.ne_of_lt h.prev_lt
  split
  · rename_i helapsed
    exact absurd rfl helapsed
  split
  · rename_i hzero
    have hpos := h.prev_lt
    rw [← h.total_eq, hzero] at hpos
    exact absurd hpos UInt64.not_lt_zero
  split
  · rw [hleft, HttpDownload.mainLeft]
    dsimp only
    omega
  · rename_i hcomplete
    rw [hagain]
    refine hless fun heq => hcomplete (barComplete_of_le ?_)
    rw [heq]
    exact UInt64.le_refl _

theorem MainStep.eq_of_finished {elapsed : Bool} (hstep : MainStep elapsed s s')
    (hmain : s.main = .finished) : s' = s := by
  cases hstep with
  | rest _ => rfl
  | read hplace | judge hplace | single hplace | create hplace | enter hplace | leave hplace
    | copy hplace | remove hplace => cases hmain.symm.trans hplace

/-- **A step of the main thread**, when the threads have ended. -/
theorem MainStep.mainLeft_lt (hstep : MainStep true s s') (h : s.Lively canOpen bodies total)
    (hended : s.Ended) (hmain : s.main ≠ .finished) : s'.mainLeft < s.mainLeft := by
  cases hstep with
  | @read i n th hplace hth =>
      have hi : i < s.threads.length := (List.getElem?_eq_some_iff.mp hth).1
      rw [HttpDownload.mainLeft, HttpDownload.mainLeft, hplace]
      dsimp only
      rw [roundSum_of_getElem? hth]
      omega
  | judge hplace hnone => exact mainLeft_judge h hended hplace hnone
  | single hplace hone =>
      rw [HttpDownload.mainLeft, HttpDownload.mainLeft, hplace]
      dsimp only
      omega
  | create hplace hone =>
      rw [HttpDownload.mainLeft, HttpDownload.mainLeft, hplace]
      dsimp only
      rw [List.drop_zero]
      omega
  | enter hplace hth hlinked =>
      rw [HttpDownload.mainLeft, HttpDownload.mainLeft, hplace]
      dsimp only
      rw [filesLeft_drop hth, hth, Option.map_some, Option.getD_some]
      omega
  | leave hplace hnone =>
      rw [HttpDownload.mainLeft, HttpDownload.mainLeft, hplace]
      dsimp only
      omega
  | @copy i offset th hplace hth hmore =>
      -- some bytes have been copied, and so there were some
      have hpos : 0 < ((th.file.drop offset).take 1024).length := List.length_pos_iff.mpr hmore
      have hle := hpos
      rw [List.length_take, List.length_drop] at hle
      rw [HttpDownload.mainLeft, HttpDownload.mainLeft, hplace]
      dsimp only
      rw [hth, Option.map_some, Option.getD_some]
      omega
  | @remove i offset th hplace hth hend =>
      rw [HttpDownload.mainLeft, HttpDownload.mainLeft, hplace]
      dsimp only
      rw [List.drop_set_of_lt (Nat.lt_add_one i)]
      omega
  | rest hplace => exact absurd hplace hmain

/-- **A step**, when the threads have ended and a second has passed: only the main thread
moves anything. -/
theorem HttpMove.of_ended {a : HttpAct} (hmove : HttpMove canOpen s a s')
    (h : s.Lively canOpen bodies total) (hended : s.Ended) (ha : a ≠ .main false) :
    s'.Ended ∧ (s' = s ∨ s'.mainLeft < s.mainLeft) := by
  have hall := h.of_ended hended
  cases hmove with
  | @thread i th th' hth hstep =>
      obtain ⟨body, -, hplace, -⟩ := exists_of_forall₂ hall hth
      rw [HttpThread.step, hplace] at hstep
      cases hstep
      rw [set_of_getElem? hth]
      exact ⟨hended, .inl rfl⟩
  | noThread hnone => exact ⟨hended, .inl rfl⟩
  | @flush i k th hth =>
      obtain ⟨body, -, -, -, hbuffered, -⟩ := exists_of_forall₂ hall hth
      have hflush : th.flush k = th := by
        rw [HttpThread.flush, hbuffered, List.take_nil, List.drop_nil, List.append_nil,
          ← hbuffered]
      rw [hflush, set_of_getElem? hth]
      exact ⟨hended, .inl rfl⟩
  | noFlush hnone => exact ⟨hended, .inl rfl⟩
  | @main elapsed s' hstep =>
      cases elapsed with
      | false => exact absurd rfl ha
      | true =>
          refine ⟨?_, ?_⟩
          · rw [HttpDownload.Ended, hstep.stages.1]
            exact hended
          · by_cases hmain : s.main = .finished
            · exact .inl (hstep.eq_of_finished hmain)
            · exact .inr (hstep.mainLeft_lt h hended hmain)

/-- The main thread comes to its end behind the others, and nothing moves any more. -/
theorem run_main_ends (h : s.Lively canOpen bodies total) (hended : s.Ended) (hsized : Sized bodies)
    {n : ℕ} {sched : ℕ → HttpAct}
    (hfair : Fair (HttpTurn.DoneBy (n := n)) sched) (hclock : ∀ k, sched k ≠ .main false) :
    ∃ k t, ((t.Lively canOpen bodies total ∧ t.Ended) ∧ t.main = .finished) ∧
      ∀ l, run (httpStep canOpen) s (firstActs sched (k + l)) = .ok t := by
  have hstep : ∀ (s : HttpDownload) (a : HttpAct), s.Lively canOpen bodies total ∧ s.Ended →
      a ≠ .main false → ∃ s', httpStep canOpen s a = .ok s' ∧
        (s'.Lively canOpen bodies total ∧ s'.Ended) ∧ (s' = s ∨ s'.mainLeft < s.mainLeft) := by
    rintro s a ⟨h, hended⟩ ha
    obtain ⟨s', heq, h', -⟩ := httpStep_lively h hsized a
    obtain ⟨hended', hmoves⟩ := (httpStep_cases heq).of_ended h hended ha
    exact ⟨s', heq, ⟨h', hended'⟩, hmoves⟩
  have hstill : ∀ s : HttpDownload, s.Lively canOpen bodies total ∧ s.Ended →
      (∀ turn : HttpTurn n, ∃ a, turn.DoneBy a ∧ httpStep canOpen s a = .ok s) →
        (s.Lively canOpen bodies total ∧ s.Ended) ∧ s.main = .finished := by
    rintro s ⟨h, hended⟩ hall
    refine ⟨⟨h, hended⟩, ?_⟩
    by_contra hmain
    obtain ⟨a, rfl, heq⟩ := hall .main
    exact absurd ((goOn_cases heq).mainLeft_lt h hended hmain) (lt_irrefl _)
  exact run_settles _ HttpDownload.mainLeft hstep hstill ⟨h, hended⟩ hclock hfair

/-- **The download ends.** -/
theorem run_ends (h : s.Lively canOpen bodies total) (hsized : Sized bodies)
    {n : ℕ} (hn : bodies.length = n)
    {sched : ℕ → HttpAct} (hfair : Fair (HttpTurn.DoneBy (n := n)) sched)
    (hclock : ∃ k, ∀ l, k ≤ l → sched l ≠ .main false) :
    ∃ k t, ((t.Lively canOpen bodies total ∧ t.Ended) ∧ t.main = .finished) ∧
      ∀ l, run (httpStep canOpen) s (firstActs sched (k + l)) = .ok t := by
  obtain ⟨k₀, hclock⟩ := hclock
  have hstep : ∀ (s : HttpDownload) (a : HttpAct), s.Lively canOpen bodies total → True →
      ∃ s', httpStep canOpen s a = .ok s' ∧ s'.Lively canOpen bodies total := by
    rintro s a h -
    obtain ⟨s', heq, h', -⟩ := httpStep_lively h hsized a
    exact ⟨s', heq, h'⟩
  -- first a second passes, then the threads come to their ends, and then the main thread
  obtain ⟨s₀, hrun₀, h₀⟩ : ∃ s₀, run (httpStep canOpen) s (firstActs sched k₀) = .ok s₀ ∧
      s₀.Lively canOpen bodies total :=
    run_progress (httpStep canOpen) hstep h fun _ _ => trivial
  obtain ⟨k₁, s₁, hrun₁, h₁, hended⟩ := run_threads_end h₀ hsized hn (hfair.drop k₀)
  obtain ⟨k₂, t, ht, hrun₂⟩ := run_main_ends h₁ hended hsized
    ((hfair.drop k₀).drop k₁) fun k => hclock _ (Nat.le_add_right _ _)
  refine ⟨k₀ + (k₁ + k₂), t, ht, fun l => ?_⟩
  rw [Nat.add_assoc, Nat.add_assoc]
  exact run_firstActs_add _ hrun₀ (run_firstActs_add _ hrun₁ (hrun₂ l))

theorem lively_downloadStart {vec : List HttpMultiThreadsDownloader}
    {body : HttpMultiThreadsDownloader → Bytes} {conns : List (HttpMultiThreadsDownloader × Socket)}
    (hconns : conns.map Prod.fst = vec)
    (htotal : total.toNat = ((vec.map body).map List.length).sum) (hpos : 0 < total)
    (hopen : canOpen (destFileName vec) = true)
    (htemp : ∀ d ∈ vec, canOpen d.genFileNameTemp = true)
    (hsocks : ∀ c ∈ conns, c.2.Answers (body c.1)) (hreliable : ∀ c ∈ conns, c.2.RecvReliable) :
    (HttpDownload.start total conns).Lively canOpen (vec.map body) total := by
  refine ⟨sound_downloadStart hconns htotal hopen htemp hsocks, rfl, ?_, hpos⟩
  subst hconns
  rw [HttpDownload.stages, HttpDownload.start, forall₂_map_right_iff, forall₂_map_right_iff,
    forall₂_map_left_iff, forall₂_map_left_iff, forall₂_same]
  exact fun c hc => ⟨hreliable c hc, by simp [HttpThread.stage, HttpThread.start]⟩

end

/-! ### The download of a file -/

section

variable {hup : HttpUrlParser} {content : Bytes} {fileSize threadCount : UInt64}
  {body : HttpMultiThreadsDownloader → Bytes} {conns : List (HttpMultiThreadsDownloader × Socket)}
  {canOpen : Bytes → Bool}

/-- **The file comes.** When the server sends each thread its part and no call of `recv`
fails, then under every schedule on which each thread and the main thread go on again and
again, and a second passes, the download comes to its end: every thread has all of its
part on the disk, and the merge is over. -/
theorem run_downloadFile_ends (hsize : fileSize.toNat = content.length)
    (hsmall : content.length ≤ 2 ^ 53) (hcount : 0 < threadCount) (hle : threadCount ≤ fileSize)
    (hbody : ∀ d ∈ vecHmtd hup fileSize threadCount, ∃ header,
      d.genRangeHeader = some header ∧ body d = rangeReply content header)
    (hconns : conns.map Prod.fst = vecHmtd hup fileSize threadCount)
    (hsocks : ∀ c ∈ conns, c.2.Answers (body c.1)) (hreliable : ∀ c ∈ conns, c.2.RecvReliable)
    (hopen : canOpen (destFileName (vecHmtd hup fileSize threadCount)) = true)
    (htemp : ∀ d ∈ vecHmtd hup fileSize threadCount, canOpen d.genFileNameTemp = true)
    {sched : ℕ → HttpAct} (hfair : Fair (HttpTurn.DoneBy (n := threadCount.toNat)) sched)
    (hclock : ∃ k, ∀ l, k ≤ l → sched l ≠ .main false) :
    ∃ k t, (∀ l, run (httpStep canOpen) (.start fileSize conns) (firstActs sched (k + l)) =
        .ok t) ∧ t.main = .finished ∧
      Forall₂ (fun d (th : HttpThread) => th.place = .finished ∧ th.file = body d)
        (vecHmtd hup fileSize threadCount) t.threads ∧
      (t.threads.map HttpThread.file).flatten = content ∧
      (threadCount ≠ 1 → ∀ th ∈ t.threads, th.linked = false) := by
  obtain ⟨hsized, hsum⟩ := sized_replies hsize hsmall hcount hle hbody
  have hlength : ((vecHmtd hup fileSize threadCount).map body).length = threadCount.toNat := by
    rw [List.length_map, length_vecHmtd]
  have hstart := lively_downloadStart hconns hsum (UInt64.lt_of_lt_of_le hcount hle) hopen
    htemp hsocks hreliable
  obtain ⟨k, t, ⟨⟨hlively, hended⟩, hmain⟩, hrun⟩ :=
    run_ends hstart hsized hlength hfair hclock
  have hthreads := hlively.of_ended hended
  have hfiles : (vecHmtd hup fileSize threadCount).map body = t.threads.map HttpThread.file := by
    have heq := hthreads.imp fun _ _ hth => hth.2.1.symm
    rwa [← forall₂_map_right_iff, forall₂_eq_eq_eq] at heq
  refine ⟨k, t, hrun, hmain, ?_, ?_, fun hone => ?_⟩
  · exact (forall₂_map_left_iff.mp hthreads).imp fun _ _ hth => ⟨hth.1, hth.2.1⟩
  · rw [← hfiles, ← List.flatMap_def, flatMap_replies hsize hcount hle hbody]
  · have hdone := hlively.sound.done
    rw [HttpDownload.Done, hmain] at hdone
    rcases hdone.2 with ⟨hone', -⟩ | ⟨-, hunlinked, -⟩
    · rw [← hlively.sound.saves.length_eq, hlength] at hone'
      exact absurd (UInt64.toNat_inj.mp hone') hone
    · exact hunlinked

end

def inTurn (k : ℕ) : HttpAct :=
  match k % 3 with
  | 0 => .thread 0
  | 1 => .thread 1
  | _ => .main true

theorem fair_inTurn : Fair (HttpTurn.DoneBy (n := 2)) inTurn := by
  intro turn k
  cases turn with
  | thread i =>
      refine ⟨3 * k + i, by omega, ?_⟩
      rw [HttpTurn.DoneBy, inTurn, Nat.mul_add_mod]
      match i with
      | 0 => rfl
      | 1 => rfl
  | main => exact ⟨3 * k + 2, by omega, by rw [inTurn, Nat.mul_add_mod]; rfl⟩

theorem inTurn_ne (k : ℕ) : inTurn k ≠ .main false := by
  rw [inTurn]
  split <;> simp

theorem run_downloadFile_ends_inTurn :
    ∃ k t, (∀ l, run (httpStep named) (.start 5 fiveConns) (firstActs inTurn (k + l)) =
        .ok t) ∧ t.main = .finished ∧
      (t.threads.map HttpThread.file).flatten = [1, 2, 3, 4, 5] ∧
      ∀ th ∈ t.threads, th.linked = false := by
  have hreliable : ∀ c ∈ fiveConns, c.2.RecvReliable := by
    intro c hc
    obtain ⟨d, -, rfl⟩ := List.mem_map.mp hc
    exact List.not_mem_nil
  obtain ⟨k, t, hrun, hmain, -, hfiles, hunlinked⟩ := run_downloadFile_ends rfl (by decide)
    (by decide) (by decide) fiveBody_eq rfl answers_fiveConns hreliable (by decide) named_temp
    fair_inTurn ⟨0, fun l _ => inTurn_ne l⟩
  exact ⟨k, t, hrun, hmain, hfiles, hunlinked (by decide)⟩

end Daobell
