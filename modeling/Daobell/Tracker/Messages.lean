import Daobell.Cxx

/-!
The messages exchanged with a tracker, `tracker_announce.h`, and the peers that
a response lists, `peer_info.h`. Of the members of a request that nothing sets, the
address `ip` is left out, and `key` and `trackerid` are those of a `TrackerRequest`.
-/

namespace Daobell

inductive TorrentEvent
  | eventStarted
  | eventCompleted
  | eventStopped
  deriving DecidableEq, Repr

/-! ### Which members are there -/

def requestHasNumwant : UInt8 := (1 : UInt8) <<< 1

def requestHasCompact : UInt8 := (1 : UInt8) <<< 3

def requestHasEvent : UInt8 := (1 : UInt8) <<< 6

def responseHasFailureReason : UInt8 := (1 : UInt8) <<< 0

def responseHasWarningMessage : UInt8 := (1 : UInt8) <<< 1

def responseHasMinInterval : UInt8 := (1 : UInt8) <<< 2

def responseHasTrackerId : UInt8 := (1 : UInt8) <<< 3

/-- The macro `HAS`, on the member `has`. -/
def hasFlag (has flag : UInt8) : Bool := has &&& flag ≠ 0

theorem hasFlag_or (has flag flag' : UInt8) :
    hasFlag (has ||| flag') flag = (hasFlag has flag || hasFlag flag' flag) := by
  have hdist : (has ||| flag') &&& flag = has &&& flag ||| flag' &&& flag := by
    rw [← UInt8.toBitVec_inj]
    exact BitVec.and_or_distrib_right
  rw [Bool.eq_iff_iff, Bool.or_eq_true]
  simp only [hasFlag, hdist, decide_eq_true_eq, ne_eq, UInt8.or_eq_zero_iff, not_and_or]

/-! ### Requests -/

structure TrackerAnnounceReq where
  has : UInt8
  infoHash : Bytes
  peerId : Bytes
  port : UInt16
  uploaded : ℕ
  downloaded : ℕ
  left : ℕ
  compact : Bool
  event : TorrentEvent
  numwant : ℕ
  deriving DecidableEq

/-! ### Responses -/

def afInet : UInt16 := 2

/-- A `peer_info` with an IPv4 address. The address and the port are the bytes of
`s_addr` and of `sin_port` as they stand in memory. -/
structure PeerInfo where
  ssFamily : UInt16
  sAddr : Bytes
  sinPort : Bytes
  deriving DecidableEq

structure TrackerAnnounceResp where
  has : UInt8
  failureReason : Bytes
  warningMessage : Bytes
  interval : UInt32
  minInterval : UInt32
  trackerId : Bytes
  complete : UInt32
  incomplete : UInt32
  peers : List PeerInfo
  deriving DecidableEq

end Daobell
