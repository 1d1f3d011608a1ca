import Daobell.Peer.Accounting

/-!
The walk of `process_piece_msg` over the requests. The loop moves its iterator once more
than it should when it removes a request: it misses the one behind, or goes on from the
end of the list.
-/

namespace Daobell

/-- What the iterator is used for, in order; a request is named by its place in the list
that the loop begins with. -/
inductive Visit
  | examine (place : ℕ)
  | remove (place : ℕ)
  | incrementEnd
  deriving DecidableEq

def Visit.examined? : Visit → Option ℕ
  | .examine place => some place
  | _ => none

def examined (visits : List Visit) : List ℕ := visits.filterMap Visit.examined?

@[simp] theorem examined_examine (place : ℕ) (visits : List Visit) :
    examined (.examine place :: visits) = place :: examined visits := rfl

@[simp] theorem examined_remove (place : ℕ) (visits : List Visit) :
    examined (.remove place :: visits) = examined visits := rfl

def PieceRequest.Completes (request : PieceRequest) (msg : PieceMsg) : Prop :=
  request.pieceIndex = msg.index ∧ (request.receive msg).blocksLeft = 0

instance (request : PieceRequest) (msg : PieceMsg) : Decidable (request.Completes msg) :=
  inferInstanceAs (Decidable (_ ∧ _))

def PieceRequest.afterMsg (request : PieceRequest) (msg : PieceMsg) : PieceRequest :=
  if request.pieceIndex = msg.index then request.receive msg else request

section

variable (verify : Session → UInt32 → Except Crash Bool)

/-- The loop of `process_piece_msg`, with what its iterator is used for. -/
def tracedLoop (msg : PieceMsg) (s : Session) (requests : List (PieceRequest × ℕ)) (p : ℕ) :
    Except Crash (Session × List Visit) :=
  match _h : requests[p]? with
  | none => .ok ({ s with state := { s.state with localRequests := requests.map Prod.fst } }, [])
  | some (request, place) =>
      if request.pieceIndex ≠ msg.index then
        (tracedLoop msg s requests (p + 1)).map fun r => (r.1, .examine place :: r.2)
      else
        let request := request.receive msg
        if request.blocksLeft ≠ 0 then
          (tracedLoop msg s (requests.set p (request, place)) (p + 1)).map fun r =>
            (r.1, .examine place :: r.2)
        else
          match pieceReceived verify s request.pieceIndex with
          | .error c => .error c
          | .ok s =>
              -- `piece_it++` in the argument of `remove`, and `++piece_it` in the header
              if p < (requests.eraseIdx p).length then
                (tracedLoop msg s (requests.eraseIdx p) (p + 1)).map fun r =>
                  (r.1, .examine place :: .remove place :: r.2)
              else
                (tracedLoop msg s (requests.eraseIdx p) 0).map fun r =>
                  (r.1, .examine place :: .remove place :: .incrementEnd :: r.2)
termination_by requests.length * (requests.length + 1) + (requests.length - p)
decreasing_by
  all_goals have hp : p < requests.length := (List.getElem?_eq_some_iff.mp _h).1
  · omega
  · rw [List.length_set]
    omega
  all_goals
    rw [List.length_eraseIdx_of_lt hp]
    generalize requests.length = k at *
    obtain ⟨m, rfl⟩ := Nat.exists_eq_add_of_le' (Nat.one_le_of_lt hp)
    have hsquare : (m + 1) * (m + 1 + 1) = m * (m + 1) + 2 * (m + 1) := by ring
    rw [Nat.add_sub_cancel, hsquare]
    omega

def tracedPieceMsg (s : Session) (msg : PieceMsg) : Except Crash (Session × List Visit) :=
  tracedLoop verify msg s s.state.localRequests.zipIdx 0

/-- Each request is examined once, those that are complete are removed and the others kept
in their order, and the end of the list is not passed. -/
def Traversed (s : Session) (msg : PieceMsg) : Prop :=
  ∃ s' visits, tracedPieceMsg verify s msg = .ok (s', visits) ∧
    (examined visits).Perm (List.range s.state.localRequests.length) ∧
    s'.state.localRequests =
      (s.state.localRequests.filter (¬ ·.Completes msg)).map (·.afterMsg msg) ∧
    .incrementEnd ∉ visits

end

/-! ### Turns of the loop -/

variable {verify : Session → UInt32 → Except Crash Bool} {msg : PieceMsg} {s : Session}
  {requests : List (PieceRequest × ℕ)} {p : ℕ}

theorem set_self_of_getElem? {α : Type*} {l : List α} {i : ℕ} {a : α} (h : l[i]? = some a) :
    l.set i a = l := by
  obtain ⟨hlt, rfl⟩ := List.getElem?_eq_some_iff.mp h
  exact List.set_getElem_self hlt

theorem tracedLoop_none (h : requests[p]? = none) :
    tracedLoop verify msg s requests p =
      .ok ({ s with state := { s.state with localRequests := requests.map Prod.fst } }, []) := by
  rw [tracedLoop]
  split
  · rfl
  · rename_i hsome
    cases h.symm.trans hsome

theorem tracedLoop_stays {request : PieceRequest} {place : ℕ}
    (h : requests[p]? = some (request, place)) (hstays : ¬ request.Completes msg) :
    tracedLoop verify msg s requests p =
      (tracedLoop verify msg s (requests.set p (request.afterMsg msg, place)) (p + 1)).map
        fun r => (r.1, .examine place :: r.2) := by
  rw [tracedLoop]
  split
  · rename_i hnone
    cases h.symm.trans hnone
  · rename_i found at_ hfound
    cases h.symm.trans hfound
    by_cases hindex : request.pieceIndex = msg.index
    · have hleft : (request.receive msg).blocksLeft ≠ 0 := fun hzero => hstays ⟨hindex, hzero⟩
      simp only [PieceRequest.afterMsg, hindex, ne_eq, not_true_eq_false, if_false, if_true,
        if_pos hleft]
    · have hset := set_self_of_getElem? h
      simp only [PieceRequest.afterMsg, hindex, ne_eq, not_false_eq_true, if_false, if_true, hset]

theorem tracedLoop_removes {request : PieceRequest} {place : ℕ}
    (h : requests[p]? = some (request, place)) (hcompletes : request.Completes msg) :
    tracedLoop verify msg s requests p =
      pieceReceived verify s request.pieceIndex >>= fun s =>
      if p < (requests.eraseIdx p).length then
        (tracedLoop verify msg s (requests.eraseIdx p) (p + 1)).map fun r =>
          (r.1, .examine place :: .remove place :: r.2)
      else
        (tracedLoop verify msg s (requests.eraseIdx p) 0).map fun r =>
          (r.1, .examine place :: .remove place :: .incrementEnd :: r.2) := by
  rw [tracedLoop]
  split
  · rename_i hnone
    cases h.symm.trans hnone
  · rename_i found at_ hfound
    cases h.symm.trans hfound
    obtain ⟨hindex, hzero⟩ := hcompletes
    simp only [hindex, ne_eq, not_true_eq_false, if_false, hzero, pieceIndex_receive]
    cases pieceReceived verify s msg.index <;> rfl

/-- When a request is removed and the end is not overrun, the walk goes on behind the next
request. -/
theorem tracedLoop_removes_ok {request : PieceRequest} {place : ℕ}
    (h : requests[p]? = some (request, place)) (hcompletes : request.Completes msg)
    {s' : Session} {visits : List Visit}
    (hrun : tracedLoop verify msg s requests p = .ok (s', visits)) (hend : .incrementEnd ∉ visits) :
    ∃ t rest, pieceReceived verify s request.pieceIndex = .ok t ∧ p + 1 < requests.length ∧
      visits = .examine place :: .remove place :: rest ∧
      tracedLoop verify msg t (requests.eraseIdx p) (p + 1) = .ok (s', rest) := by
  obtain ⟨hlt, -⟩ := List.getElem?_eq_some_iff.mp h
  rw [tracedLoop_removes h hcompletes] at hrun
  obtain ⟨t, hreceived, hrun⟩ := bind_eq_ok.mp hrun
  split at hrun
  · rename_i hnext
    obtain ⟨⟨_, rest⟩, hrest, ⟨⟩⟩ := map_eq_ok.mp hrun
    rw [List.length_eraseIdx_of_lt hlt] at hnext
    exact ⟨t, rest, hreceived, by omega, rfl, hrest⟩
  · obtain ⟨⟨_, rest⟩, hrest, ⟨⟩⟩ := map_eq_ok.mp hrun
    exact absurd (by simp) hend

/-- What holds behind the last request, and in front of each turn that it holds behind,
holds everywhere. -/
theorem tracedLoop_induction (verify : Session → UInt32 → Except Crash Bool) (msg : PieceMsg)
    {motive : Session → List (PieceRequest × ℕ) → ℕ → Prop}
    (done : ∀ s requests p, requests[p]? = none → motive s requests p)
    (stays : ∀ s requests p request place, requests[p]? = some (request, place) →
      ¬ request.Completes msg → motive s (requests.set p (request.afterMsg msg, place)) (p + 1) →
      motive s requests p)
    (removes : ∀ s requests p request place, requests[p]? = some (request, place) →
      request.Completes msg →
      (∀ t, pieceReceived verify s request.pieceIndex = .ok t → motive t (requests.eraseIdx p)
        (if p < (requests.eraseIdx p).length then p + 1 else 0)) →
      motive s requests p)
    (s : Session) (requests : List (PieceRequest × ℕ)) (p : ℕ) : motive s requests p := by
  induction s, requests, p using tracedLoop.induct verify msg with
  | case1 s requests p hnone => exact done s requests p hnone
  | case2 s requests p request place hrequest hindex ih =>
      refine stays s requests p request place hrequest (fun h => hindex h.1) ?_
      rwa [PieceRequest.afterMsg, if_neg hindex, set_self_of_getElem? hrequest]
  | case3 s requests p request place hrequest hindex _ hleft ih =>
      refine stays s requests p request place hrequest (fun h => hleft h.2) ?_
      rwa [PieceRequest.afterMsg, if_pos (not_not.mp hindex)]
  | case4 s requests p request place hrequest hindex received hleft c hreceived =>
      refine removes s requests p request place hrequest ⟨not_not.mp hindex, not_not.mp hleft⟩ ?_
      intro t ht
      rw [pieceIndex_receive] at hreceived
      cases hreceived.symm.trans ht
  | case5 s requests p request place hrequest hindex received hleft t hreceived hlt ih =>
      refine removes s requests p request place hrequest ⟨not_not.mp hindex, not_not.mp hleft⟩ ?_
      intro t' ht
      rw [pieceIndex_receive] at hreceived
      cases hreceived.symm.trans ht
      rwa [if_pos hlt]
  | case6 s requests p request place hrequest hindex received hleft t hreceived hlt ih =>
      refine removes s requests p request place hrequest ⟨not_not.mp hindex, not_not.mp hleft⟩ ?_
      intro t' ht
      rw [pieceIndex_receive] at hreceived
      cases hreceived.symm.trans ht
      rwa [if_neg hlt]

theorem map_map_fst {ε α β : Type} (r : Except ε (α × β)) (f : β → β) :
    (r.map fun x => (x.1, f x.2)).map Prod.fst = r.map Prod.fst := by
  cases r <;> rfl

/-- Without the walk, it is the loop of `process_piece_msg`. -/
theorem tracedLoop_map_fst (s : Session) (requests : List (PieceRequest × ℕ)) (p : ℕ) :
    (tracedLoop verify msg s requests p).map Prod.fst =
      processPieceLoop verify msg s (requests.map Prod.fst) p := by
  induction s, requests, p using tracedLoop_induction verify msg with
  | done s requests p hnone =>
      rw [tracedLoop_none hnone, processPieceLoop_none (by rw [List.getElem?_map, hnone]; rfl)]
      rfl
  | stays s requests p request place hrequest hstays ih =>
      have hfst : (requests.map Prod.fst)[p]? = some request := by
        rw [List.getElem?_map, hrequest]
        rfl
      rw [tracedLoop_stays hrequest hstays,
        map_map_fst _ fun visits => Visit.examine place :: visits, ih, List.map_set,
        processPieceLoop_some hfst]
      by_cases hindex : request.pieceIndex = msg.index
      · have hleft : (request.receive msg).blocksLeft ≠ 0 := fun hzero => hstays ⟨hindex, hzero⟩
        rw [if_neg (not_not.mpr hindex), if_pos hleft, PieceRequest.afterMsg, if_pos hindex]
      · rw [if_pos hindex, PieceRequest.afterMsg, if_neg hindex, set_self_of_getElem? hfst]
  | removes s requests p request place hrequest hcompletes ih =>
      have hfst : (requests.map Prod.fst)[p]? = some request := by
        rw [List.getElem?_map, hrequest]
        rfl
      rw [tracedLoop_removes hrequest hcompletes, processPieceLoop_some hfst,
        if_neg (not_not.mpr hcompletes.1), if_neg (not_not.mpr hcompletes.2), pieceIndex_receive]
      cases hreceived : pieceReceived verify s request.pieceIndex with
      | error c => rfl
      | ok t =>
          have hrest := ih t hreceived
          have hlength : ((requests.map Prod.fst).eraseIdx p).length =
              (requests.eraseIdx p).length := by
            rw [List.eraseIdx_map, List.length_map]
          rw [ok_bind, ok_bind, hlength, List.eraseIdx_map, ← hrest]
          split
          · exact map_map_fst _ fun visits => Visit.examine place :: .remove place :: visits
          · exact map_map_fst _ fun visits =>
              Visit.examine place :: .remove place :: .incrementEnd :: visits

/-- When no request completes, the walk goes straight through the list. -/
theorem tracedLoop_of_stays (s : Session) (requests : List (PieceRequest × ℕ)) (p : ℕ)
    (h : ∀ e ∈ requests.drop p, ¬ e.1.Completes msg) :
    tracedLoop verify msg s requests p =
      .ok ({ s with state := { s.state with
          localRequests := (requests.take p).map Prod.fst ++
            (requests.drop p).map fun e => e.1.afterMsg msg } },
        (requests.drop p).map fun e => .examine e.2) := by
  induction s, requests, p using tracedLoop_induction verify msg with
  | done s requests p hnone =>
      have hle := List.getElem?_eq_none_iff.mp hnone
      rw [tracedLoop_none hnone, List.drop_eq_nil_of_le hle, List.take_of_length_le hle]
      simp
  | stays s requests p request place hrequest hstays ih =>
      obtain ⟨hlt, hget⟩ := List.getElem?_eq_some_iff.mp hrequest
      have hdrop : requests.drop p = (request, place) :: requests.drop (p + 1) := by
        rw [List.drop_eq_getElem_cons hlt, hget]
      have hdrop' : (requests.set p (request.afterMsg msg, place)).drop (p + 1) =
          requests.drop (p + 1) := List.drop_set_of_lt (Nat.lt_succ_self p)
      have htake : (requests.set p (request.afterMsg msg, place)).take (p + 1) =
          requests.take p ++ [(request.afterMsg msg, place)] := by
        rw [List.take_add_one, List.take_set_of_le le_rfl, List.getElem?_set_self hlt]
        rfl
      rw [hdrop] at h
      have hrest := ih (by rw [hdrop']; exact fun e he => h e (List.mem_cons_of_mem _ he))
      rw [tracedLoop_stays hrequest hstays, hrest, hdrop', htake, hdrop]
      simp [Except.map]
  | removes s requests p request place hrequest hcompletes ih =>
      obtain ⟨hlt, hget⟩ := List.getElem?_eq_some_iff.mp hrequest
      refine absurd hcompletes (h (request, place) ?_)
      rw [List.drop_eq_getElem_cons hlt, hget]
      exact List.mem_cons_self

/-- Up to the end of the list, no request is examined twice. -/
theorem length_examined_le {s' : Session} {visits : List Visit}
    (hrun : tracedLoop verify msg s requests p = .ok (s', visits)) (hend : .incrementEnd ∉ visits) :
    (examined visits).length ≤ requests.length - p := by
  induction s, requests, p using tracedLoop_induction verify msg
    generalizing visits with
  | done s requests p hnone =>
      rw [tracedLoop_none hnone] at hrun
      cases hrun
      exact Nat.zero_le _
  | stays s requests p request place hrequest hstays ih =>
      obtain ⟨hlt, -⟩ := List.getElem?_eq_some_iff.mp hrequest
      rw [tracedLoop_stays hrequest hstays] at hrun
      obtain ⟨⟨_, rest⟩, hrest, ⟨⟩⟩ := map_eq_ok.mp hrun
      have hle := ih hrest (fun hmem => hend (List.mem_cons_of_mem _ hmem))
      rw [List.length_set] at hle
      rw [examined_examine place rest, List.length_cons]
      omega
  | removes s requests p request place hrequest hcompletes ih =>
      obtain ⟨hlt, -⟩ := List.getElem?_eq_some_iff.mp hrequest
      obtain ⟨t, rest, hreceived, hnext, rfl, hrest⟩ :=
        tracedLoop_removes_ok hrequest hcompletes hrun hend
      have hlength := List.length_eraseIdx_of_lt hlt
      have hinside : p < (requests.eraseIdx p).length := by omega
      have hle : (examined rest).length ≤ _ := ih t hreceived (by rwa [if_pos hinside])
        fun hmem => hend (List.mem_cons_of_mem _ (List.mem_cons_of_mem _ hmem))
      rw [if_pos hinside, hlength] at hle
      rw [examined_examine, examined_remove, List.length_cons]
      omega

/-- A walk that examines every request up to the end has removed none. -/
theorem not_completes_of_length_le {s' : Session} {visits : List Visit}
    (hrun : tracedLoop verify msg s requests p = .ok (s', visits)) (hend : .incrementEnd ∉ visits)
    (hall : requests.length - p ≤ (examined visits).length) :
    ∀ e ∈ requests.drop p, ¬ e.1.Completes msg := by
  induction s, requests, p using tracedLoop_induction verify msg
    generalizing visits with
  | done s requests p hnone =>
      rw [List.drop_eq_nil_of_le (List.getElem?_eq_none_iff.mp hnone)]
      exact fun e he => absurd he List.not_mem_nil
  | stays s requests p request place hrequest hstays ih =>
      obtain ⟨hlt, hget⟩ := List.getElem?_eq_some_iff.mp hrequest
      rw [tracedLoop_stays hrequest hstays] at hrun
      obtain ⟨⟨_, rest⟩, hrest, ⟨⟩⟩ := map_eq_ok.mp hrun
      rw [examined_examine place rest, List.length_cons] at hall
      have hbehind := ih hrest (fun hmem => hend (List.mem_cons_of_mem _ hmem))
        (by rw [List.length_set]; omega)
      rw [List.drop_set_of_lt (Nat.lt_succ_self p)] at hbehind
      rw [List.drop_eq_getElem_cons hlt, hget]
      exact List.forall_mem_cons.mpr ⟨hstays, hbehind⟩
  | removes s requests p request place hrequest hcompletes ih =>
      -- the request behind is missed, so that the rest of the walk is too short
      obtain ⟨hlt, -⟩ := List.getElem?_eq_some_iff.mp hrequest
      obtain ⟨t, rest, -, hnext, rfl, hrest⟩ :=
        tracedLoop_removes_ok hrequest hcompletes hrun hend
      have hle := length_examined_le hrest
        fun hmem => hend (List.mem_cons_of_mem _ (List.mem_cons_of_mem _ hmem))
      rw [List.length_eraseIdx_of_lt hlt] at hle
      rw [examined_examine, examined_remove, List.length_cons] at hall
      omega

/-! ### The walk over all requests -/

theorem tracedPieceMsg_map_fst (s : Session) (msg : PieceMsg) :
    (tracedPieceMsg verify s msg).map Prod.fst = processPieceMsg verify s msg := by
  rw [tracedPieceMsg, tracedLoop_map_fst, List.zipIdx_map_fst, processPieceMsg]

theorem examined_map_examine {α : Type} (l : List (α × ℕ)) :
    examined (l.map fun e => .examine e.2) = l.map Prod.snd := by
  rw [examined, List.filterMap_map]
  exact congrFun List.filterMap_eq_map l

theorem traversed_of_stays (h : ∀ r ∈ s.state.localRequests, ¬ r.Completes msg) :
    Traversed verify s msg := by
  have hstays : ∀ e ∈ s.state.localRequests.zipIdx.drop 0, ¬ e.1.Completes msg :=
    fun e he => h e.1 (List.fst_mem_of_mem_zipIdx he)
  have hkept : s.state.localRequests.filter (¬ ·.Completes msg) = s.state.localRequests :=
    List.filter_eq_self.mpr fun r hr => decide_eq_true (h r hr)
  refine ⟨_, _, tracedLoop_of_stays s s.state.localRequests.zipIdx 0 hstays, ?_, ?_, by simp⟩
  · rw [List.drop_zero, examined_map_examine, List.zipIdx_map_snd, ← List.range_eq_range']
  · rw [hkept, List.take_zero, List.map_nil, List.nil_append, List.drop_zero]
    calc s.state.localRequests.zipIdx.map (fun e => e.1.afterMsg msg)
        = (s.state.localRequests.zipIdx.map Prod.fst).map (·.afterMsg msg) := by
          rw [List.map_map]
          rfl
      _ = s.state.localRequests.map (·.afterMsg msg) := by rw [List.zipIdx_map_fst]

theorem stays_of_traversed (h : Traversed verify s msg) :
    ∀ r ∈ s.state.localRequests, ¬ r.Completes msg := by
  obtain ⟨s', visits, hrun, hperm, -, hend⟩ := h
  have hlength : (examined visits).length = s.state.localRequests.length := by
    rw [hperm.length_eq, List.length_range]
  have hstays := not_completes_of_length_le hrun hend (by rw [List.length_zipIdx, hlength]; omega)
  intro r hr
  rw [← List.zipIdx_map_fst 0 s.state.localRequests] at hr
  obtain ⟨e, he, rfl⟩ := List.mem_map.mp hr
  exact hstays e he

/-- **The walk over the requests** examines each of them once, removes those that are
complete and ends at the end of the list, exactly when the message completes none. -/
theorem traversed_iff (verify : Session → UInt32 → Except Crash Bool) (s : Session)
    (msg : PieceMsg) : Traversed verify s msg ↔ ∀ r ∈ s.state.localRequests, ¬ r.Completes msg :=
  ⟨stays_of_traversed, traversed_of_stays⟩

/-- The last piece of a torrent, one byte, has been asked for. -/
def oneRequest : Session where
  torrent := twoPieces
  disk := blankDisk
  sock := ⟨[], [], [], []⟩
  state := {
    localState := ⟨false, true⟩
    remoteState := ⟨true, false⟩
    peerHave := [false, true]
    peerWants := [false, true]
    localHave := [false, false]
    bitlen := 2
    blocksSent := 0
    blocksRecvd := 0
    peerRequests := []
    localRequests := [pieceRequestCreate twoPieces.layout 1] }
  log := []

/-- When the byte comes, the iterator goes on from the end of the list. -/
theorem not_traversed_oneRequest : ¬ Traversed Session.sha1Verify oneRequest ⟨1, 0, 1⟩ := by
  intro h
  refine stays_of_traversed h (pieceRequestCreate twoPieces.layout 1) (List.mem_singleton_self _) ?_
  decide +kernel

end Daobell
