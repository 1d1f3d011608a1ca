import Daobell.Peer.Connection
import Daobell.Tracker.Messages

/-!
The thread that keeps a tracker informed, `bt_downloader.cpp`. A round of its
loop makes a request, calls `tracker_announce`, and connects to the peers of the
answer one after the other; it is cut behind the call and between the peers.
What the tracker answers is given, and so is what arrives on each connection.
Printing and sleeping are left out, with the interval.
-/

namespace Daobell

open Lib

/-- A `tracker_arg` without the torrent, and `g_local_peer_id`. -/
structure TrackerArg where
  port : UInt16
  localPeerId : Bytes

/-- `req->event = event` and `SET_HAS(req, REQUEST_HAS_EVENT)`. -/
def TrackerAnnounceReq.setEvent (req : TrackerAnnounceReq) (event : TorrentEvent) :
    TrackerAnnounceReq :=
  { req with event := event, has := req.has ||| requestHasEvent }

/-- `create_tracker_request`. Nothing is ever put on the list of connections, so
that its length is zero. -/
def createTrackerRequest (arg : TrackerArg) (torrent : TorrentInfo) : TrackerAnnounceReq where
  has := 0 ||| requestHasCompact ||| requestHasNumwant
  infoHash := torrent.infoHash
  peerId := arg.localPeerId
  port := arg.port
  uploaded := torrent.sh.uploaded
  downloaded := torrent.sh.downloaded
  left := 0
  compact := true
  -- the value of a `torrent_event` that is only initialised
  event := .eventStarted
  numwant := subUnsigned torrent.maxPeers 0

/-! ### The peers of an answer -/

/-- What the thread of a connection does between two interruptions. -/
inductive ThreadAct
  | receive (avail : ℕ)
  | round

def ThreadAct.act : ThreadAct → Act ℕ
  | .receive avail => .receive avail
  | .round => .round

/-- `create_peer_connection`: no connection comes about, or its thread runs to
its end and is joined. -/
def createPeerConnection (client : Client) :
    Option (Socket × List ThreadAct) → Except Crash Client
  | none => .ok client
  | some (sock, acts) =>
      run (clientStep processQueued) client (.connect sock :: acts.map ThreadAct.act ++ [.drop])

/-! ### The loop -/

/-- Where `periodic_announce` is: at the top of its loop, before the rest of the
peers of an answer, or behind the loop. -/
inductive AnnouncePlace
  | top
  | connecting (peers : List PeerInfo)
  | finished
  deriving DecidableEq

/-- The locals of `periodic_announce`, the torrent it works on, and the requests
it made with what `tracker_announce` returned for them. -/
structure Announcer where
  client : Client
  completed : Bool
  started : Bool
  place : AnnouncePlace
  announced : List (TrackerAnnounceReq × Option TrackerAnnounceResp)

def announceStart (torrent : TorrentInfo) (disk : Disk) : Announcer :=
  ⟨.idle torrent disk [], torrent.sh.completed, false, .top, []⟩

def Announcer.request (arg : TrackerArg) (s : Announcer) : TrackerAnnounceReq :=
  let req := createTrackerRequest arg s.client.torrent
  let req := if ¬ s.started then req.setEvent .eventStarted else req
  if s.completed = false ∧ s.client.torrent.sh.completed = true then req.setEvent .eventCompleted
  else req

/-- The first half of a round, up to the call of `tracker_announce`. -/
def Announcer.announce (arg : TrackerArg) (s : Announcer) (resp : Option TrackerAnnounceResp) :
    Announcer where
  client := s.client
  completed := s.client.torrent.sh.completed
  started := true
  place := .connecting (match resp with | some resp => resp.peers | none => [])
  announced := s.announced ++ [(s.request arg, resp)]

inductive AnnounceAct
  | announce (resp : Option TrackerAnnounceResp)
  | connect (connection : Option (Socket × List ThreadAct))
  | goOn

/-- A step of `periodic_announce`. What it cannot do where it is does nothing. -/
def announceStep (arg : TrackerArg) (s : Announcer) (a : AnnounceAct) : Except Crash Announcer :=
  match s.place, a with
  | .top, .announce resp => .ok (s.announce arg resp)
  | .connecting (_ :: peers), .connect connection =>
      createPeerConnection s.client connection >>= fun client =>
      .ok { s with client := client, place := .connecting peers }
  | .connecting [], .goOn =>
      .ok { s with place := if s.client.torrent.sh.completed then .finished else .top }
  | _, _ => .ok s

/-- What a step does to the place, the requests and the locals. -/
theorem announceStep_cases {arg : TrackerArg} {s s' : Announcer} {a : AnnounceAct}
    (h : announceStep arg s a = .ok s') :
    (∃ resp, s.place = .top ∧ s' = s.announce arg resp) ∨
      (∃ peer peers client, s.place = .connecting (peer :: peers) ∧
        s' = { s with client := client, place := .connecting peers }) ∨
      (s.place = .connecting [] ∧
        s' = { s with place := if s.client.torrent.sh.completed then .finished else .top }) ∨
      s' = s := by
  unfold announceStep at h
  split at h
  · rename_i resp hplace
    exact .inl ⟨resp, hplace, (Except.ok.inj h).symm⟩
  · rename_i peer peers connection hplace
    obtain ⟨client, -, hclient⟩ := bind_eq_ok.mp h
    exact .inr (.inl ⟨peer, peers, client, hplace, (Except.ok.inj hclient).symm⟩)
  · rename_i hplace
    exact .inr (.inr (.inl ⟨hplace, (Except.ok.inj h).symm⟩))
  · exact .inr (.inr (.inr (Except.ok.inj h).symm))

end Daobell
