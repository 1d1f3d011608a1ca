import Daobell.Torrent.InfoSpec
import Mathlib.Order.Bounds.Basic

/-!
Which piece is requested next. The loop of `torrent_next_request` follows two
candidates at once: it breaks off at the first piece that is not requested, and
until then remembers the last one that is. A piece that a connection left behind
as requested stays a candidate.
-/

namespace Daobell

/-- Piece `i` is in this state, and the peer has it. -/
def Candidate (states : List PieceState) (peerHave : List Bool) (state : PieceState) (i : ℕ) :
    Prop := states[i]? = some state ∧ peerHave[i]? = some true

theorem candidate_zero {state state' : PieceState} {states : List PieceState} {has : Bool}
    {peerHave : List Bool} :
    Candidate (state' :: states) (has :: peerHave) state 0 ↔ state' = state ∧ has = true := by
  simp [Candidate]

theorem candidate_succ {state state' : PieceState} {states : List PieceState} {has : Bool}
    {peerHave : List Bool} {i : ℕ} :
    Candidate (state' :: states) (has :: peerHave) state (i + 1) ↔
      Candidate states peerHave state i := by
  simp [Candidate]

theorem not_candidate_nil {states : List PieceState} {peerHave : List Bool}
    (h : states = [] ∨ peerHave = []) (state : PieceState) (i : ℕ) :
    ¬ Candidate states peerHave state i := by
  rcases h with rfl | rfl <;> simp [Candidate]

/-- The first candidate of a row whose head is none. -/
theorem isLeast_succ {P : ℕ → Prop} (h0 : ¬ P 0) {k : ℕ} (h : IsLeast {i | P (i + 1)} k) :
    IsLeast {i | P i} (k + 1) := by
  refine ⟨h.1, fun i hi => ?_⟩
  cases i with
  | zero => exact absurd hi h0
  | succ i => exact Nat.succ_le_succ (h.2 hi)

/-- The last candidate of a row, when there is one behind its head. -/
theorem isGreatest_succ {P : ℕ → Prop} {k : ℕ} (h : IsGreatest {i | P (i + 1)} k) :
    IsGreatest {i | P i} (k + 1) := by
  refine ⟨h.1, fun i hi => ?_⟩
  cases i with
  | zero => exact Nat.zero_le _
  | succ i => exact Nat.succ_le_succ (h.2 hi)

/-- What the loop of `torrent_next_request` comes to, from piece `i` on, with
`request` remembered. -/
inductive LoopResult (i : ℕ) (states : List PieceState) (peerHave : List Bool)
    (request : Option ℕ) : Option ℕ × Option ℕ → Prop
  | notRequested (k : ℕ) (r : Option ℕ)
      (h : IsLeast {k | Candidate states peerHave .stateNotRequested k} k) :
      LoopResult i states peerHave request (r, some (i + k))
  | requested (k : ℕ) (hnone : ∀ k, ¬ Candidate states peerHave .stateNotRequested k)
      (h : IsGreatest {k | Candidate states peerHave .stateRequested k} k) :
      LoopResult i states peerHave request (some (i + k), none)
  | neither (hnone : ∀ k, ¬ Candidate states peerHave .stateNotRequested k)
      (h : ∀ k, ¬ Candidate states peerHave .stateRequested k) :
      LoopResult i states peerHave request (request, none)

theorem nextRequestLoop_result (i : ℕ) (states : List PieceState) (peerHave : List Bool)
    (request : Option ℕ) :
    LoopResult i states peerHave request (nextRequestLoop i states peerHave request) := by
  induction states generalizing i peerHave request with
  | nil => exact .neither (not_candidate_nil (.inl rfl) _) (not_candidate_nil (.inl rfl) _)
  | cons state states ih =>
      cases peerHave with
      | nil => exact .neither (not_candidate_nil (.inr rfl) _) (not_candidate_nil (.inr rfl) _)
      | cons has peerHave =>
          rw [nextRequestLoop]
          split
          · rename_i hhead
            exact .notRequested 0 _ ⟨candidate_zero.mpr hhead, fun k _ => Nat.zero_le k⟩
          · rename_i hhead
            have hno : ∀ {P : ℕ → Prop}, ¬ P 0 → (∀ k, ¬ P (k + 1)) → ∀ k, ¬ P k := by
              intro P h0 hsucc k
              cases k with
              | zero => exact h0
              | succ k => exact hsucc k
            have hfirst : ¬ Candidate (state :: states) (has :: peerHave) .stateNotRequested 0 :=
              fun h => hhead (candidate_zero.mp h)
            have hrest := ih (i + 1) peerHave
              (if state = .stateRequested ∧ has = true then some i else request)
            generalize nextRequestLoop (i + 1) states peerHave _ = result at hrest ⊢
            cases hrest with
            | notRequested k r h =>
                rw [Nat.add_assoc, Nat.add_comm 1]
                exact .notRequested (k + 1) r
                  (isLeast_succ hfirst (by simpa [candidate_succ] using h))
            | requested k hnone h =>
                rw [Nat.add_assoc, Nat.add_comm 1]
                exact .requested (k + 1)
                  (hno hfirst fun k => by simpa [candidate_succ] using hnone k)
                  (isGreatest_succ (by simpa [candidate_succ] using h))
            | neither hnone h =>
                have hnone' := hno hfirst fun k => by simpa [candidate_succ] using hnone k
                -- then the head is the last candidate, or there is none
                split
                · rename_i hrequested
                  refine .requested 0 hnone' ⟨candidate_zero.mpr hrequested, fun k hk => ?_⟩
                  cases k with
                  | zero => exact le_rfl
                  | succ k => exact absurd (candidate_succ.mp hk) (h k)
                · rename_i hrequested
                  exact .neither hnone' (hno (fun h => hrequested (candidate_zero.mp h))
                    fun k => by simpa [candidate_succ] using h k)

/-- The asserts hold, as the three have one length. -/
theorem torrentNextRequest_of_length {torrent : TorrentInfo} {peerHave : List Bool}
    (hstates : torrent.sh.piecesState.length = torrent.pieces.length)
    (hpeer : peerHave.length = torrent.pieces.length) :
    (∃ i, torrentNextRequest torrent peerHave =
        .ok (some (i, torrent.setState i .stateRequested)) ∧
      (IsLeast {k | Candidate torrent.sh.piecesState peerHave .stateNotRequested k} i ∨
        (∀ k, ¬ Candidate torrent.sh.piecesState peerHave .stateNotRequested k) ∧
          IsGreatest {k | Candidate torrent.sh.piecesState peerHave .stateRequested k} i)) ∨
    torrentNextRequest torrent peerHave = .ok none ∧
      ∀ state ≠ .stateHave, ∀ k, ¬ Candidate torrent.sh.piecesState peerHave state k := by
  have hresult := nextRequestLoop_result 0 torrent.sh.piecesState peerHave none
  rw [torrentNextRequest, if_neg (by simp [hstates, hpeer])]
  generalize nextRequestLoop 0 torrent.sh.piecesState peerHave none = result at hresult ⊢
  cases hresult with
  | notRequested k r h =>
      rw [Nat.zero_add]
      exact .inl ⟨k, by cases r <;> rfl, .inl h⟩
  | requested k hnone h =>
      rw [Nat.zero_add]
      exact .inl ⟨k, rfl, .inr ⟨hnone, h⟩⟩
  | neither hnone h =>
      refine .inr ⟨rfl, fun state hstate => ?_⟩
      cases state with
      | stateNotRequested => exact hnone
      | stateRequested => exact h
      | stateHave => exact absurd rfl hstate

/-- A call of `torrent_next_request` with its out-parameter: what it returns, what
`*out` is then, and the torrent. -/
def nextRequestCall (torrent : TorrentInfo) (peerHave : List Bool) (out : ℕ) :
    Except Crash (ℤ × ℕ × TorrentInfo) :=
  (torrentNextRequest torrent peerHave).map fun next =>
    match next with
    | some (reqIndex, torrent') => (0, reqIndex, torrent')
    | none => (-1, out, torrent)

def onlyPiece (n i : ℕ) : List Bool := (List.replicate n false).set i true

theorem candidate_onlyPiece {states : List PieceState} {i : ℕ} {old : PieceState}
    (hold : states[i]? = some old) (state : PieceState) (k : ℕ) :
    Candidate states (onlyPiece states.length i) state k ↔ k = i ∧ state = old := by
  have hi : i < states.length := (List.getElem?_eq_some_iff.mp hold).1
  rw [Candidate, onlyPiece, List.getElem?_set, List.length_replicate, if_pos hi]
  constructor
  · rintro ⟨hstate, hhas⟩
    split at hhas
    · rename_i heq
      subst heq
      exact ⟨rfl, Option.some.inj (hstate.symm.trans hold)⟩
    · rw [List.getElem?_replicate] at hhas
      split at hhas <;> simp at hhas
  · rintro ⟨rfl, rfl⟩
    exact ⟨hold, if_pos rfl⟩

/-- **Which piece is requested next.** As long as the peer has a piece that is not
there, the call returns 0; it prefers the first piece that is not requested, and
else takes the last one that is; it marks that piece and changes nothing else.
A piece that was left behind as requested can be picked again. -/
theorem torrentNextRequest_selects (torrent : TorrentInfo) (peerHave : List Bool) (out : ℕ)
    (hstates : torrent.sh.piecesState.length = torrent.pieces.length)
    (hpeer : peerHave.length = torrent.pieces.length) :
    (∃ ret out' torrent', nextRequestCall torrent peerHave out = .ok (ret, out', torrent') ∧
      (ret = 0 ↔ ∃ i state, Candidate torrent.sh.piecesState peerHave state i ∧
        state ≠ .stateHave) ∧
      (ret = 0 →
        (IsLeast {i | Candidate torrent.sh.piecesState peerHave .stateNotRequested i} out' ∨
          (∀ i, ¬ Candidate torrent.sh.piecesState peerHave .stateNotRequested i) ∧
            IsGreatest {i | Candidate torrent.sh.piecesState peerHave .stateRequested i} out') ∧
        torrent' = { torrent with sh := { torrent.sh with
          piecesState := torrent.sh.piecesState.set out' .stateRequested } }) ∧
      (ret ≠ 0 → ret = -1 ∧ out' = out ∧ torrent' = torrent)) ∧
    ∀ i : ℕ, torrent.sh.piecesState[i]? = some .stateRequested →
      nextRequestCall torrent (onlyPiece torrent.pieces.length i) out = .ok (0, i, torrent) := by
  refine ⟨?_, fun i hi => ?_⟩
  · rcases torrentNextRequest_of_length hstates hpeer with ⟨i, heq, hi⟩ | ⟨heq, hnone⟩
    · refine ⟨0, i, torrent.setState i .stateRequested, by rw [nextRequestCall, heq]; rfl, ?_,
        fun _ => ⟨hi, rfl⟩, fun h => absurd rfl h⟩
      refine iff_of_true rfl ?_
      rcases hi with hi | ⟨-, hi⟩
      · exact ⟨i, _, hi.1, by decide⟩
      · exact ⟨i, _, hi.1, by decide⟩
    · refine ⟨-1, out, torrent, by rw [nextRequestCall, heq]; rfl, ?_,
        fun h => absurd h (by decide), fun _ => ⟨rfl, rfl, rfl⟩⟩
      refine iff_of_false (by decide) ?_
      rintro ⟨i, state, hi, hstate⟩
      exact hnone state hstate i hi
  · have honly := candidate_onlyPiece hi
    rw [hstates] at honly
    have hset : torrent.setState i .stateRequested = torrent := by
      obtain ⟨hlt, hstate⟩ := List.getElem?_eq_some_iff.mp hi
      rw [TorrentInfo.setState, ← hstate, List.set_getElem_self]
    have hpeer : (onlyPiece torrent.pieces.length i).length = torrent.pieces.length := by
      simp [onlyPiece]
    rcases torrentNextRequest_of_length hstates hpeer with ⟨j, heq, hj⟩ | ⟨-, hnone⟩
    · have hji : j = i := by
        rcases hj with hj | ⟨-, hj⟩
        · exact ((honly _ j).mp hj.1).1
        · exact ((honly _ j).mp hj.1).1
      rw [nextRequestCall, heq, hji, hset]
      rfl
    · exact absurd ((honly _ i).mpr ⟨rfl, rfl⟩) (hnone .stateRequested (by decide) i)

/-- Both pieces have been requested, and the connection has been dropped: the
next one begins with the second piece. -/
theorem torrentNextRequest_selects_twoPieces :
    nextRequestCall ((twoPieces.setState 0 .stateRequested).setState 1 .stateRequested)
      (onlyPiece 2 0) 7 =
        .ok (0, 0, (twoPieces.setState 0 .stateRequested).setState 1 .stateRequested) :=
  (torrentNextRequest_selects ((twoPieces.setState 0 .stateRequested).setState 1 .stateRequested)
    [true, true] 7 rfl rfl).2 0 rfl

end Daobell
