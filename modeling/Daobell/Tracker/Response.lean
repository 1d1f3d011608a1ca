import Daobell.Bencode.Parser
import Daobell.Lib.Chunks
import Daobell.Lib.Runs
import Daobell.Tracker.Messages

/-!
Reading the response of a tracker, `tracker_resp_parser.cpp`. A response that
`std::make_shared` has just made is zero throughout.
-/

namespace Daobell

open Lib BencodeParser

/-- One round of the loop of `parse_peerlist_string`, on six bytes. -/
def peerAt (entry : Bytes) : PeerInfo := ⟨afInet, entry.take 4, (entry.drop 4).take 2⟩

/-- `parse_peerlist_string`, behind the peers that are there already. -/
def parsePeerlistString (value : ByteString) (peers : List PeerInfo) :
    Except Crash (List PeerInfo) :=
  if 6 ∣ value.bytes.length then .ok (peers ++ (chunks 6 value.bytes).map peerAt)
  else .error .assertFailed

/-- One of the tests of the loop of `tracker_resp_parse`: when the key is `key` and
the value can be cast, it is set. -/
def onValue {α σ : Type} (key : String) (cast : BencodeValue → Option α) (set : α → σ → σ)
    (e : ByteString × BencodeValue) (ret : σ) : σ :=
  if e.1.bytes = bytesOf key then
    match cast e.2 with
    | some value => set value ret
    | none => ret
  else ret

open BencodeValue in
/-- The tests before the one for `peers`, each on what the one before it has left. -/
def respFields (ret : TrackerAnnounceResp) (e : ByteString × BencodeValue) :
    TrackerAnnounceResp :=
  let ret := onValue "failure reason" asString (fun value ret =>
    { ret with failureReason := value.bytes, has := ret.has ||| responseHasFailureReason }) e ret
  let ret := onValue "warning message" asString (fun value ret =>
    { ret with warningMessage := value.bytes, has := ret.has ||| responseHasWarningMessage }) e ret
  let ret := onValue "interval" asInt (fun value ret =>
    { ret with interval := value.toUInt64.toUInt32 }) e ret
  let ret := onValue "min interval" asInt (fun value ret =>
    { ret with minInterval := value.toUInt64.toUInt32, has := ret.has ||| responseHasMinInterval })
    e ret
  let ret := onValue "tracker id" asString (fun value ret =>
    { ret with trackerId := value.bytes, has := ret.has ||| responseHasTrackerId }) e ret
  let ret := onValue "complete" asInt (fun value ret =>
    { ret with complete := value.toUInt64.toUInt32 }) e ret
  onValue "incomplete" asInt (fun value ret =>
    { ret with incomplete := value.toUInt64.toUInt32 }) e ret

/-- One round of the loop of `tracker_resp_parse`. -/
def respEntry (ret : TrackerAnnounceResp) (e : ByteString × BencodeValue) :
    Except Crash TrackerAnnounceResp :=
  let ret := respFields ret e
  if e.1.bytes = bytesOf "peers" then
    match e.2.asString with
    | some value =>
        match parsePeerlistString value ret.peers with
        | .error c => .error c
        | .ok peers => .ok { ret with peers }
    | none => .ok ret
  else .ok ret

def newTrackerAnnounceResp : TrackerAnnounceResp where
  has := 0
  failureReason := []
  warningMessage := []
  interval := 0
  minInterval := 0
  trackerId := []
  complete := 0
  incomplete := 0
  peers := []

/-- `tracker_resp_parse`. The parser reads a C string, so there is a NUL byte
behind the response. -/
def trackerRespParse (fuel : ℕ) (respStr : Bytes) : Except Stop TrackerAnnounceResp :=
  match parseMem fuel (respStr ++ [0]) 0 with
  | .error stop => .error stop
  | .ok (value, _) =>
      match value.asDict with
      -- one assert for the empty pointer, another one for what is no dictionary
      | none => .error (.crash .assertFailed)
      | some dict => (run respEntry newTrackerAnnounceResp dict).mapError .crash

end Daobell
