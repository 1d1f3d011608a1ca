import Daobell.Peer.Unmapped
import Daobell.Tracker.Announce

/-!
What a tracker is told of a download. The event of a request is made up at the
top of the loop, before it is known whether the tracker answers; that the
download is complete is noticed at the end of the loop, which is then left. So
the start is told once, heard or not, and the completion never.
-/

namespace Daobell

open Lib

def TrackerAnnounceReq.carries (req : TrackerAnnounceReq) (event : TorrentEvent) : Bool :=
  hasFlag req.has requestHasEvent && req.event = event

theorem carries_setEvent (req : TrackerAnnounceReq) (event event' : TorrentEvent) :
    (req.setEvent event).carries event' = decide (event = event') := by
  have hhas : hasFlag (req.has ||| requestHasEvent) requestHasEvent = true := by
    rw [hasFlag_or, Bool.or_eq_true]
    exact .inr (by decide)
  rw [TrackerAnnounceReq.carries, TrackerAnnounceReq.setEvent, hhas, Bool.true_and]

theorem carries_createTrackerRequest (arg : TrackerArg) (torrent : TorrentInfo)
    (event : TorrentEvent) : (createTrackerRequest arg torrent).carries event = false := by
  rw [TrackerAnnounceReq.carries, Bool.and_eq_false_iff]
  exact .inl (show hasFlag (0 ||| requestHasCompact ||| requestHasNumwant) requestHasEvent = false
    by decide)

/-! ### The end of a download -/

/-- A request made while the download goes on does not tell of its end. -/
theorem carries_request_completed {arg : TrackerArg} {s : Announcer}
    (h : s.client.torrent.sh.completed = false) :
    (s.request arg).carries .eventCompleted = false := by
  rw [Announcer.request, if_neg (by simp [h])]
  split
  · exact carries_setEvent _ _ _
  · exact carries_createTrackerRequest _ _ _

/-- No request has told of the end, and the loop goes round only while the
download does. -/
structure Announcer.Untold (s : Announcer) : Prop where
  untold : ∀ r ∈ s.announced, r.1.carries .eventCompleted = false
  top : s.place = .top → s.client.torrent.sh.completed = false

theorem announceStep_untold {arg : TrackerArg} {s s' : Announcer} {a : AnnounceAct}
    (h : s.Untold) (hstep : announceStep arg s a = .ok s') : s'.Untold := by
  obtain ⟨resp, hplace, rfl⟩ | ⟨peer, peers, client, -, rfl⟩ | ⟨-, rfl⟩ | rfl :=
    announceStep_cases hstep
  · refine ⟨?_, fun htop => AnnouncePlace.noConfusion htop⟩
    intro r hr
    rcases List.mem_append.mp hr with hr | hr
    · exact h.untold r hr
    · rw [List.mem_singleton.mp hr]
      exact carries_request_completed (h.top hplace)
  · exact ⟨h.untold, fun htop => AnnouncePlace.noConfusion htop⟩
  · refine ⟨h.untold, ?_⟩
    intro htop
    by_contra hcompleted
    rw [Bool.not_eq_false] at hcompleted
    simp [hcompleted] at htop
  · exact h

/-- The loop ends with exactly one request that told of the completion. -/
def Announcer.TellsCompletion (s : Announcer) : Prop :=
  s.place = .finished → (s.announced.countP fun r => r.1.carries .eventCompleted) = 1

/-- **Completion is never announced.** On every run of `periodic_announce` that
begins with the download incomplete, no request tells of the completion; so the
tracker is told of it just when the loop does not end. -/
theorem run_tellsCompletion_iff {arg : TrackerArg} {torrent : TorrentInfo} {disk : Disk}
    (hstart : torrent.sh.completed = false) {acts : List AnnounceAct} {s : Announcer}
    (hrun : run (announceStep arg) (announceStart torrent disk) acts = .ok s) :
    (∀ r ∈ s.announced, r.1.carries .eventCompleted = false) ∧
      (s.TellsCompletion ↔ s.place ≠ .finished) := by
  have hinit : (announceStart torrent disk).Untold := ⟨by simp [announceStart], fun _ => hstart⟩
  have hinv : s.Untold :=
    run_invariant_of_step (announceStep arg) (fun _ _ _ => announceStep_untold) hinit hrun
  refine ⟨hinv.untold, ?_⟩
  have hcount : (s.announced.countP fun r => r.1.carries .eventCompleted) = 0 := by
    rw [List.countP_eq_zero]
    exact fun r hr => by simp [hinv.untold r hr]
  rw [Announcer.TellsCompletion, hcount]
  constructor
  · exact fun h hfinished => absurd (h hfinished) (by decide)
  · exact fun h hfinished => absurd hfinished h

def someTracker : TrackerArg := ⟨6889, List.replicate 20 45⟩

def onePeerResp : TrackerAnnounceResp :=
  ⟨0, [], [], 60, 0, [], 0, 1, [⟨afInet, [10, 0, 0, 1], [26, 225]⟩]⟩

def oneByteAnnounces : List AnnounceAct :=
  [.announce (some onePeerResp),
    .connect (some (eagerPeer, [.receive 100, .receive 100, .round, .receive 100])), .goOn]

theorem run_oneByteAnnounces :
    ∃ s, run (announceStep someTracker) (announceStart oneByte blankDisk) oneByteAnnounces = .ok s ∧
      s.place = .finished := by
  decide +kernel

theorem run_tellsCompletion_oneByte :
    ∃ s, run (announceStep someTracker) (announceStart oneByte blankDisk) oneByteAnnounces = .ok s ∧
      ¬ s.TellsCompletion := by
  obtain ⟨s, hrun, hfinished⟩ := run_oneByteAnnounces
  refine ⟨s, hrun, fun htells => ?_⟩
  exact (run_tellsCompletion_iff (by decide) hrun).2.mp htells hfinished

/-- The download is completed by the peer of the first answer. The loop ends,
and its only request told of the start. -/
theorem run_completionUntold :
    torrentInit quietEnvironment (.bencodeDict [(infoKey, oneByteInfo)]) [] = .ok oneByte ∧
      oneByte.sh.completed = false ∧
      ∃ s, run (announceStep someTracker) (announceStart oneByte blankDisk) oneByteAnnounces =
          .ok s ∧
        s.client.torrent.sh.completed = true ∧ ¬ s.TellsCompletion := by
  refine ⟨torrentInit_oneByte, rfl, ?_⟩
  obtain ⟨s, hrun, hcompleted, hfinished, hcount⟩ :
      ∃ s, run (announceStep someTracker) (announceStart oneByte blankDisk) oneByteAnnounces =
          .ok s ∧
        s.client.torrent.sh.completed = true ∧ s.place = .finished ∧
        (s.announced.countP fun r => r.1.carries .eventCompleted) = 0 := by
    decide +kernel
  refine ⟨s, hrun, hcompleted, fun htells => ?_⟩
  rw [htells hfinished] at hcount
  cases hcount

/-! ### The start of a download -/

theorem carries_request_started (arg : TrackerArg) {s : Announcer} (hstarted : s.started = false)
    (h : s.completed = s.client.torrent.sh.completed) :
    (s.request arg).carries .eventStarted = true := by
  have hsame : ¬ (s.completed = false ∧ s.client.torrent.sh.completed = true) := by
    rintro ⟨hno, hyes⟩
    rw [h, hyes] at hno
    cases hno
  rw [Announcer.request, if_neg hsame, hstarted, if_pos (by decide), carries_setEvent]
  rfl

theorem carries_request_later (arg : TrackerArg) {s : Announcer} (hstarted : s.started = true) :
    (s.request arg).carries .eventStarted = false := by
  simp only [Announcer.request, hstarted, not_true, if_false]
  split
  · exact carries_setEvent _ _ _
  · exact carries_createTrackerRequest _ _ _

def Announcer.StartTold (s : Announcer) : Prop :=
  match s.announced with
  | [] => s.started = false ∧ s.completed = s.client.torrent.sh.completed ∧ s.place = .top
  | r :: rs => s.started = true ∧ r.1.carries .eventStarted = true ∧
      ∀ r' ∈ rs, r'.1.carries .eventStarted = false

theorem announce_startTold (arg : TrackerArg) {s : Announcer} (h : s.StartTold)
    (resp : Option TrackerAnnounceResp) : (s.announce arg resp).StartTold := by
  cases hannounced : s.announced with
  | nil =>
      simp only [Announcer.StartTold, hannounced] at h
      obtain ⟨hstarted, hcompleted, -⟩ := h
      simp only [Announcer.StartTold, Announcer.announce, hannounced, List.nil_append]
      exact ⟨trivial, carries_request_started arg hstarted hcompleted, by simp⟩
  | cons r rs =>
      simp only [Announcer.StartTold, hannounced] at h
      obtain ⟨hstarted, hfirst, hothers⟩ := h
      simp only [Announcer.StartTold, Announcer.announce, hannounced, List.cons_append]
      refine ⟨trivial, hfirst, ?_⟩
      intro r' hr'
      rcases List.mem_append.mp hr' with hr' | hr'
      · exact hothers r' hr'
      · rw [List.mem_singleton.mp hr']
        exact carries_request_later arg hstarted

/-- Behind the first request, neither the client nor the place matters. -/
theorem Announcer.StartTold.of_place {s : Announcer} (h : s.StartTold) (hplace : s.place ≠ .top)
    (client : Client) (place : AnnouncePlace) :
    ({ s with client := client, place := place } : Announcer).StartTold := by
  cases hannounced : s.announced with
  | nil =>
      simp only [Announcer.StartTold, hannounced] at h
      exact absurd h.2.2 hplace
  | cons r rs =>
      simpa only [Announcer.StartTold, hannounced] using h

theorem announceStep_startTold {arg : TrackerArg} {s s' : Announcer} {a : AnnounceAct}
    (h : s.StartTold) (hstep : announceStep arg s a = .ok s') : s'.StartTold := by
  obtain ⟨resp, -, rfl⟩ | ⟨peer, peers, client, hplace, rfl⟩ | ⟨hplace, rfl⟩ | rfl :=
    announceStep_cases hstep
  · exact announce_startTold arg h resp
  · exact h.of_place (by rw [hplace]; exact AnnouncePlace.noConfusion) client _
  · exact h.of_place (by rw [hplace]; exact AnnouncePlace.noConfusion) s.client _
  · exact h

def Announcer.TellsStart (s : Announcer) : Prop :=
  ∀ r, s.announced.find? (fun r => r.2.isSome) = some r → r.1.carries .eventStarted = true

/-- Only the first request can tell of the start: it must be the first one that
is answered. -/
theorem Announcer.StartTold.tellsStart_iff {s : Announcer} (hinv : s.StartTold) :
    s.TellsStart ↔
      ((∃ resp, (s.announced.map Prod.snd).head? = some (some resp)) ∨
        ∀ answer ∈ s.announced.map Prod.snd, answer = none) := by
  rw [Announcer.TellsStart]
  cases hannounced : s.announced with
  | nil => simp
  | cons r rs =>
      simp only [Announcer.StartTold, hannounced] at hinv
      obtain ⟨-, hfirst, hothers⟩ := hinv
      obtain ⟨req, answer⟩ := r
      cases answer with
      | some resp =>
          refine ⟨fun _ => .inl ⟨resp, rfl⟩, fun _ r hr => ?_⟩
          rw [List.find?_cons_of_pos rfl, Option.some.injEq] at hr
          exact hr ▸ hfirst
      | none =>
          rw [List.find?_cons_of_neg (by simp)]
          constructor
          · intro htells
            refine .inr ?_
            rw [List.map_cons, List.forall_mem_cons]
            refine ⟨rfl, ?_⟩
            intro answer hanswer
            obtain ⟨r, hr, rfl⟩ := List.mem_map.mp hanswer
            by_contra hsome
            cases hfind : rs.find? fun r => r.2.isSome with
            | none =>
                have hnone := List.find?_eq_none.mp hfind r hr
                exact hnone (Option.isSome_iff_ne_none.mpr hsome)
            | some found =>
                have htold := htells found hfind
                rw [hothers found (List.mem_of_find?_eq_some hfind)] at htold
                cases htold
          · rintro (⟨resp, hresp⟩ | hnone) r hr
            · cases hresp
            · have hanswered := List.find?_some hr
              have hmem := List.mem_map_of_mem (f := Prod.snd) (List.mem_of_find?_eq_some hr)
              rw [hnone _ (List.mem_cons_of_mem _ hmem)] at hanswered
              cases hanswered

/-- **When the tracker learns of the start.** On every run of
`periodic_announce` for a torrent that is not complete already, the first
request that is answered tells of the start just when the first one of all is
answered, or none is. -/
theorem run_tellsStart_iff {arg : TrackerArg} {torrent : TorrentInfo} {disk : Disk}
    {acts : List AnnounceAct} {s : Announcer}
    (hrun : run (announceStep arg) (announceStart torrent disk) acts = .ok s) :
    (torrent.sh.completed = true ∨ s.TellsStart) ↔
      (torrent.sh.completed = true ∨
        (∃ resp, (s.announced.map Prod.snd).head? = some (some resp)) ∨
        ∀ answer ∈ s.announced.map Prod.snd, answer = none) := by
  have hinit : (announceStart torrent disk).StartTold := ⟨rfl, rfl, rfl⟩
  have hinv : s.StartTold :=
    run_invariant_of_step (announceStep arg) (fun _ _ _ => announceStep_startTold) hinit hrun
  exact or_congr_right hinv.tellsStart_iff

def retriedAnnounces : List AnnounceAct := [.announce none, .goOn, .announce (some onePeerResp)]

theorem run_tellsStart_firstAnswered :
    ∃ s, run (announceStep someTracker) (announceStart oneByte blankDisk)
        [.announce (some onePeerResp)] = .ok s ∧ (oneByte.sh.completed = true ∨ s.TellsStart) := by
  have hrun : run (announceStep someTracker) (announceStart oneByte blankDisk)
      [.announce (some onePeerResp)] =
        .ok ((announceStart oneByte blankDisk).announce someTracker (some onePeerResp)) := rfl
  exact ⟨_, hrun, (run_tellsStart_iff hrun).mpr (.inr (.inl ⟨onePeerResp, rfl⟩))⟩

/-- The request that is answered in the end does not tell of the start. -/
theorem run_startUntold :
    oneByte.sh.completed = false ∧
      ∃ s, run (announceStep someTracker) (announceStart oneByte blankDisk) retriedAnnounces =
          .ok s ∧
        ¬ s.TellsStart := by
  refine ⟨rfl, ?_⟩
  obtain ⟨s, hrun, r, hr, hcarries⟩ :
      ∃ s, run (announceStep someTracker) (announceStart oneByte blankDisk) retriedAnnounces =
          .ok s ∧
        ∃ r ∈ s.announced.find? fun r => r.2.isSome, r.1.carries .eventStarted = false := by
    decide
  refine ⟨s, hrun, fun htells => ?_⟩
  rw [htells r hr] at hcarries
  cases hcarries

end Daobell
