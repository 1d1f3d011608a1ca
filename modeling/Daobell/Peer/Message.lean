import Daobell.Lib.Gather
import Daobell.Peer.Bitfield
import Daobell.Peer.Socket
import Daobell.Torrent.InfoSpec

/-!
Messages between peers, as `peer_msg.cpp` sends and receives them. A message on
the wire is its length in four bytes, most significant first, one byte for its
type, and a payload. The payload of a PIECE message goes straight into the
mapped files and comes straight out of them, by the layout of the piece.
-/

namespace Daobell

open Lib

/-- `msg_type`, without `MSG_MAX`. -/
inductive MsgType
  | msgKeepalive
  | msgChoke
  | msgUnchoke
  | msgInterested
  | msgNotInterested
  | msgHave
  | msgBitfield
  | msgRequest
  | msgPiece
  | msgCancel
  | msgPort
  deriving DecidableEq, Repr

/-- The byte that is sent for a type: the lowest of its `int`. -/
def MsgType.toByte : MsgType → UInt8
  | .msgKeepalive => 255
  | .msgChoke => 0
  | .msgUnchoke => 1
  | .msgInterested => 2
  | .msgNotInterested => 3
  | .msgHave => 4
  | .msgBitfield => 5
  | .msgRequest => 6
  | .msgPiece => 7
  | .msgCancel => 8
  | .msgPort => 9

/-- The type a received byte stands for; none from `MSG_MAX` on. -/
def MsgType.ofByte (b : UInt8) : Option MsgType :=
  [.msgChoke, .msgUnchoke, .msgInterested, .msgNotInterested, .msgHave, .msgBitfield,
    .msgRequest, .msgPiece, .msgCancel, .msgPort][b.toNat]?

structure RequestMsg where
  index : UInt32
  begin : UInt32
  length : UInt32
  deriving DecidableEq

structure PieceMsg where
  index : UInt32
  begin : UInt32
  blockLen : ℕ
  deriving DecidableEq

/-- A `peer_msg`: its type, and the part of the payload that belongs to it. -/
inductive PeerMsg
  | keepalive
  | choke
  | unchoke
  | interested
  | notInterested
  | haveMsg (index : UInt32)
  | bitfield (bits : List Bool)
  | request (msg : RequestMsg)
  | piece (msg : PieceMsg)
  | cancel
  | port (listenPort : UInt32)
  deriving DecidableEq

def PeerMsg.type : PeerMsg → MsgType
  | .keepalive => .msgKeepalive
  | .choke => .msgChoke
  | .unchoke => .msgUnchoke
  | .interested => .msgInterested
  | .notInterested => .msgNotInterested
  | .haveMsg _ => .msgHave
  | .bitfield _ => .msgBitfield
  | .request _ => .msgRequest
  | .piece _ => .msgPiece
  | .cancel => .msgCancel
  | .port _ => .msgPort

/-! ### Lengths -/

def msgLength (type : MsgType) (torrent : TorrentInfo) : ℕ :=
  match type with
  | .msgKeepalive => 0
  | .msgPiece => 1 + 2 * 4 + peerRequestSize
  | .msgBitfield => (1 + bitfieldNumBytes torrent.pieces.length) % 2 ^ 32
  | .msgRequest => 1 + 3 * 4
  | .msgHave => 1 + 4
  | .msgPort => 1 + 4
  | _ => 1

def validLen (type : MsgType) (torrent : TorrentInfo) (len : ℕ) : Bool :=
  if type = .msgPiece then 1 + 2 * 4 + 1 ≤ len ∧ len ≤ 1 + 2 * 4 + peerRequestSize
  else len = msgLength type torrent

/-! ### Sending -/

/-- Go on behind a call that sends: -1 is returned at once. -/
def sendThen (r : Except Crash (Bool × Socket)) (next : Socket → Except Crash (Bool × Socket)) :
    Except Crash (Bool × Socket) :=
  r >>= fun r => if r.1 then next r.2 else .ok (false, r.2)

/-- `send` from the memory of a `file_mem`, from `begin` on. Memory that is not
mapped cannot be read by the kernel, and the call fails; memory outside the
mapping is nobody's. -/
def sendMem (sock : Socket) (torrent : TorrentInfo) (disk : Disk) (mem : FileMem) (begin len : ℕ) :
    Except Crash (Bool × Socket) :=
  let start := (mem.offset + begin) % 2 ^ 64
  if len = 0 then .ok (true, sock)
  else if ¬ torrent.isMapped mem then .ok (false, sock)
  else if torrent.layout.sizes.getD mem.file 0 < start + len then .error .outOfRange
  else peerSendBuff sock ((span mem.file start len).map disk)

/-- The two nested loops of `peer_msg_send_piece`, over the ranges of all the
blocks, with `offset` and `written`. -/
def sendPieceLoop (torrent : TorrentInfo) (disk : Disk) (msg : PieceMsg) :
    List FileMem → ℕ → ℕ → Socket → Except Crash (Bool × Socket)
  | [], _, _, sock => .ok (true, sock)
  | mem :: mems, offset, written, sock =>
      if msg.begin.toNat < offset + mem.size then
        -- `offset - begin`, which is below 0 for a block that starts inside the range
        let memBeg := if msg.begin.toNat < offset then 0 else subSize offset msg.begin.toNat
        let memLen := min (subSize mem.size memBeg) (subSize msg.blockLen written)
        sendThen (sendMem sock torrent disk mem memBeg memLen) fun sock =>
        if written + memLen = msg.blockLen then .ok (true, sock)
        else sendPieceLoop torrent disk msg mems (offset + mem.size) (written + memLen) sock
      else if written = msg.blockLen then .ok (true, sock)
      else sendPieceLoop torrent disk msg mems (offset + mem.size) written sock

def peerMsgSendPiece (sock : Socket) (torrent : TorrentInfo) (disk : Disk) (msg : PieceMsg) :
    Except Crash (Bool × Socket) :=
  let request := pieceRequestCreate torrent.layout msg.index
  sendThen (peerSendBuff sock (wordBytes msg.index)) fun sock =>
  sendThen (peerSendBuff sock (wordBytes msg.begin)) fun sock =>
  sendPieceLoop torrent disk msg (request.blockRequests.flatMap (·.fileMems)) 0 0 sock

/-- The payload of a BITFIELD message. The counter of the loop over the bits is
`unsigned`. -/
def peerMsgSendBitfield (sock : Socket) (bits : List Bool) : Except Crash (Bool × Socket) :=
  if 2 ^ 32 ≤ bits.length then .error .hang
  else peerSendBuff sock (bitfieldLoop 0 bits (List.replicate (bitfieldNumBytes bits.length) 0))

/-- The part of `peer_msg_send` behind the message ID. -/
def peerMsgSendPayload (sock : Socket) (torrent : TorrentInfo) (disk : Disk) :
    PeerMsg → Except Crash (Bool × Socket)
  | .piece msg => peerMsgSendPiece sock torrent disk msg
  | .bitfield bits => peerMsgSendBitfield sock bits
  | .request msg =>
      sendThen (peerSendBuff sock (wordBytes msg.index)) fun sock =>
      sendThen (peerSendBuff sock (wordBytes msg.begin)) fun sock =>
      peerSendBuff sock (wordBytes msg.length)
  | .haveMsg index => peerSendBuff sock (wordBytes index)
  | .port listenPort => peerSendBuff sock (wordBytes listenPort)
  | .cancel => .error .assertFailed
  | _ => .ok (true, sock)

def peerMsgSend (sock : Socket) (torrent : TorrentInfo) (disk : Disk) (msg : PeerMsg) :
    Except Crash (Bool × Socket) :=
  let len := msgLength msg.type torrent
  sendThen (peerSendBuff sock (wordBytes (UInt32.ofNat len))) fun sock =>
  if msg = .keepalive then .ok (true, sock)
  else
    sendThen (peerSendBuff sock [msg.type.toByte]) fun sock =>
    peerMsgSendPayload sock torrent disk msg

/-! ### Receiving -/

/-- `peer_recv_buff` into the memory of each range of a block. A call that fails
is not looked at; one into memory that is not mapped takes nothing off the
stream. -/
def recvMems (torrent : TorrentInfo) : List FileMem → Socket → Disk → Socket × Disk
  | [], sock, disk => (sock, disk)
  | mem :: mems, sock, disk =>
      if torrent.isMapped mem then
        -- what has come before a failure stays in the memory
        let (_, bytes, sock) := peerRecvBuff sock mem.size
        recvMems torrent mems sock (scatter torrent.place disk mem.positions bytes)
      else recvMems torrent mems sock disk

/-- What a call that receives comes to: a message, or `none` where it returns
-1; the socket; and the files. -/
abbrev Received := Option PeerMsg × Socket × Disk

/-- Go on with `len` bytes from the stream, or return -1. -/
def recvThen (sock : Socket) (disk : Disk) (len : ℕ)
    (next : Bytes → Socket → Except Crash Received) : Except Crash Received :=
  let (ok, bytes, sock) := peerRecvBuff sock len
  if ok then next bytes sock else .ok (none, sock, disk)

/-- The part of `peer_msg_recv_piece` behind the index and the begin. -/
def peerMsgRecvBlock (sock : Socket) (torrent : TorrentInfo) (disk : Disk) (index begin : UInt32)
    (left : ℕ) : Except Crash Received :=
  match pieceRequestBlockAt (pieceRequestCreate torrent.layout index) begin.toNat with
  | none => .error .assertFailed
  | some block =>
      let (sock, disk) := recvMems torrent block.fileMems sock disk
      .ok (some (.piece ⟨index, begin, left⟩), sock, disk)

def peerMsgRecvPiece (sock : Socket) (torrent : TorrentInfo) (disk : Disk) (len : ℕ) :
    Except Crash Received :=
  recvThen sock disk 4 fun b₀ sock =>
  let left := subUnsigned len 4
  recvThen sock disk 4 fun b₁ sock =>
  let left := subUnsigned left 4
  peerMsgRecvBlock sock torrent disk (wordAt b₀) (wordAt b₁) left

def assertThen {α : Type} (p : Prop) [Decidable p] (next : Except Crash α) : Except Crash α :=
  if p then next else .error .assertFailed

/-- The switch of `peer_msg_recv_pastlen`, with `left` bytes of payload. -/
def peerMsgRecvPayload (sock : Socket) (torrent : TorrentInfo) (disk : Disk) (type : MsgType)
    (left : ℕ) : Except Crash Received :=
  match type with
  | .msgChoke => assertThen (left = 0) (.ok (some .choke, sock, disk))
  | .msgUnchoke => assertThen (left = 0) (.ok (some .unchoke, sock, disk))
  | .msgInterested => assertThen (left = 0) (.ok (some .interested, sock, disk))
  | .msgNotInterested => assertThen (left = 0) (.ok (some .notInterested, sock, disk))
  | .msgPiece => assertThen (0 < left) (peerMsgRecvPiece sock torrent disk left)
  | .msgBitfield =>
      recvThen sock disk left fun buff sock =>
      .ok (some (.bitfield ((List.range (left * 8 % 2 ^ 32)).map (bitfieldIsset · buff))), sock, disk)
  | .msgRequest =>
      recvThen sock disk left fun buff sock => assertThen (left = 3 * 4)
      (.ok (some (.request ⟨wordAt buff, wordAt (buff.drop 4), wordAt (buff.drop 8)⟩), sock, disk))
  | .msgHave => assertThen (left = 4)
      (recvThen sock disk left fun buff sock => .ok (some (.haveMsg (wordAt buff)), sock, disk))
  | .msgPort => assertThen (left = 4)
      (recvThen sock disk left fun buff sock => .ok (some (.port (wordAt buff)), sock, disk))
  | .msgCancel => .error .assertFailed
  -- no byte stands for it
  | .msgKeepalive => .ok (none, sock, disk)

/-- The part of `peer_msg_recv_pastlen` behind the message ID. -/
def peerMsgRecvTyped (sock : Socket) (torrent : TorrentInfo) (disk : Disk) (len : ℕ) (b : UInt8) :
    Except Crash Received :=
  match MsgType.ofByte b with
  | none => .ok (none, sock, disk)
  | some type =>
      if validLen type torrent len then peerMsgRecvPayload sock torrent disk type (len - 1)
      else .ok (none, sock, disk)

def peerMsgRecvPastlen (sock : Socket) (torrent : TorrentInfo) (disk : Disk) (len : ℕ) :
    Except Crash Received :=
  if len = 0 then .ok (some .keepalive, sock, disk)
  else recvThen sock disk 1 fun b sock => peerMsgRecvTyped sock torrent disk len (b.headD 0)

def peerMsgRecv (sock : Socket) (torrent : TorrentInfo) (disk : Disk) : Except Crash Received :=
  recvThen sock disk 4 fun b sock => peerMsgRecvPastlen sock torrent disk (wordAt b).toNat

/-- `peer_msg_buff_nonempty`, when `avail` bytes have arrived. -/
def peerMsgBuffNonempty (sock : Socket) (avail : ℕ) : Bool :=
  let arrived := sock.inp.take avail
  if arrived.length < 4 then false
  else (wordAt arrived).toNat + 2 ≤ arrived.length

end Daobell
