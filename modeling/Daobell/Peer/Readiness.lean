import Daobell.Peer.Framing

/-!
Whether a message has arrived. `peer_msg_buff_nonempty` peeks at the length and
counts the bytes that are there, but it adds the size of a `uint16_t` to the
length where the length itself takes four bytes. When a message is all there,
receiving it does not look behind it.
-/

namespace Daobell

open Lib

def Socket.push (sock : Socket) (rest : Bytes) : Socket := { sock with inp := sock.inp ++ rest }

@[simp] theorem Socket.push_inp (sock : Socket) (rest : Bytes) :
    (sock.push rest).inp = sock.inp ++ rest := rfl

/-- The outcome of a call that leaves the bytes behind alone. -/
def pushReceived (rest : Bytes) (r : Received) : Received := (r.1, r.2.1.push rest, r.2.2)

/-! ### Calls that do not look behind -/

theorem recv_push (sock : Socket) {len : ℕ} (hlen : len ≤ sock.inp.length) (rest : Bytes) :
    recv (sock.push rest) len = ((recv sock len).1, (recv sock len).2.push rest) := by
  obtain ⟨inp, recvs, out, sends⟩ := sock
  change len ≤ inp.length at hlen
  have htake : ∀ n ≤ len, (inp ++ rest).take n = inp.take n ∧
      (inp ++ rest).drop n = inp.drop n ++ rest := by
    intro n hn
    exact ⟨List.take_append_of_le_length (by omega), List.drop_append_of_le_length (by omega)⟩
  rcases recvs with _ | ⟨n | _, rs⟩
  · simp [recv, Socket.push, (htake len le_rfl).1, (htake len le_rfl).2]
  · have h := htake (min (n + 1) len) (Nat.min_le_right _ _)
    simp [recv, Socket.push, h.1, h.2]
  · rfl

theorem recvLoop_push {len : ℕ} (hlen32 : len < 2 ^ 32) {fuel fuel' : ℕ} {sock : Socket}
    {total : ℕ} (htotal : total ≤ len) (hlen : len - total ≤ sock.inp.length)
    (hfuel : sock.inp.length < fuel) (hfuel' : sock.inp.length < fuel') (rest : Bytes) :
    recvLoop len fuel' (sock.push rest) total =
      ((recvLoop len fuel sock total).1, (recvLoop len fuel sock total).2.1,
        (recvLoop len fuel sock total).2.2.push rest) := by
  induction fuel generalizing fuel' sock total with
  | zero => omega
  | succ fuel ih =>
      obtain ⟨fuel', rfl⟩ := Nat.exists_eq_succ_of_ne_zero (Nat.ne_zero_of_lt hfuel')
      rw [recvLoop, recvLoop, recv_push sock hlen]
      obtain ⟨sock₁, hrecv, -⟩ | ⟨bytes, sock₁, hrecv, hstep, hle, -⟩ :=
        recv_cases sock (len - total)
      · rw [hrecv]
      · rw [hrecv]
        have hinp := congrArg List.length hstep.inp
        rw [List.length_append] at hinp
        have hmod := Nat.mod_eq_of_lt (show total + bytes.length < 2 ^ 32 by omega)
        simp only [hmod]
        by_cases hmore : bytes ≠ [] ∧ total + bytes.length < len
        · have hshorter := hstep.length_lt hmore.1
          simp only [if_pos hmore]
          rw [ih (by omega) (by omega) (by omega) (by omega)]
        · simp only [if_neg hmore]

theorem peerRecvBuff_push {sock : Socket} {len : ℕ} (hlen32 : len < 2 ^ 32)
    (hlen : len ≤ sock.inp.length) (rest : Bytes) :
    peerRecvBuff (sock.push rest) len = ((peerRecvBuff sock len).1, (peerRecvBuff sock len).2.1,
      (peerRecvBuff sock len).2.2.push rest) := by
  rw [peerRecvBuff, peerRecvBuff]
  split
  · rfl
  · refine recvLoop_push hlen32 (Nat.zero_le _) hlen (Nat.lt_succ_self _) ?_ rest
    rw [Socket.push_inp, List.length_append]
    omega

def StaysBefore (rest : Bytes) (call : Socket → Except Crash Received) (sock : Socket) : Prop :=
  call (sock.push rest) = (call sock).map (pushReceived rest)

section

variable {rest : Bytes} {sock : Socket} {torrent : TorrentInfo} {disk : Disk}

theorem staysBefore_ok (msg : Option PeerMsg) (disk : Disk) (sock : Socket) :
    StaysBefore rest (fun sock => .ok (msg, sock, disk)) sock := rfl

theorem staysBefore_error (crash : Crash) (sock : Socket) :
    StaysBefore rest (fun _ => .error crash) sock := rfl

theorem StaysBefore.recvThen {len : ℕ} (hlen32 : len < 2 ^ 32) (hlen : len ≤ sock.inp.length)
    {next : Bytes → Socket → Except Crash Received}
    (hnext : ∀ sock', sock'.inp = sock.inp.drop len →
      StaysBefore rest (next (sock.inp.take len)) sock') :
    StaysBefore rest (fun sock => recvThen sock disk len next) sock := by
  rw [StaysBefore, Daobell.recvThen, Daobell.recvThen, peerRecvBuff_push hlen32 hlen]
  obtain ⟨hstep, hok⟩ := peerRecvBuff_spec sock len
  dsimp only
  by_cases htrue : (peerRecvBuff sock len).1 = true
  · have hbytes : (peerRecvBuff sock len).2.1 = sock.inp.take len := by
      rw [hstep.inp, List.take_left' (hok htrue).2]
    rw [if_pos htrue, if_pos htrue, hbytes]
    refine hnext _ ?_
    rw [hstep.inp, List.drop_left' (hok htrue).2]
  · rw [if_neg htrue, if_neg htrue]
    rfl

theorem StaysBefore.assertThen {p : Prop} [Decidable p] {next : Socket → Except Crash Received}
    (h : StaysBefore rest next sock) :
    StaysBefore rest (fun sock => assertThen p (next sock)) sock := by
  by_cases hp : p <;> simp only [Daobell.assertThen, hp, if_true, if_false]
  · exact h
  · exact staysBefore_error _ sock

theorem recvMems_push {mems : List FileMem} (hsize : ∀ mem ∈ mems, mem.size < 2 ^ 32)
    (hlen : (mems.map FileMem.size).sum ≤ sock.inp.length) (disk : Disk) :
    recvMems torrent mems (sock.push rest) disk =
      ((recvMems torrent mems sock disk).1.push rest, (recvMems torrent mems sock disk).2) := by
  induction mems generalizing sock disk with
  | nil => rfl
  | cons mem mems ih =>
      obtain ⟨hmem, hmems⟩ := List.forall_mem_cons.mp hsize
      rw [List.map_cons, List.sum_cons] at hlen
      rw [recvMems, recvMems]
      by_cases hmapped : torrent.isMapped mem = true
      · rw [if_pos hmapped, if_pos hmapped, peerRecvBuff_push hmem (by omega)]
        refine ih hmems ?_ _
        -- a call takes no more than it asks for
        have hinp := congrArg List.length (peerRecvBuff_spec sock mem.size).1.inp
        have hle := peerRecvBuff_le sock hmem
        rw [List.length_append] at hinp
        omega
      · rw [if_neg hmapped, if_neg hmapped]
        exact ih hmems (by omega) disk

theorem staysBefore_block {index begin : UInt32} {left : ℕ}
    (hsized : ∀ block ∈ pieceRequestBlockAt (pieceRequestCreate torrent.layout index) begin.toNat,
      block.len = left) (hlen : left ≤ sock.inp.length) :
    StaysBefore rest (fun sock => peerMsgRecvBlock sock torrent disk index begin left) sock := by
  rw [StaysBefore, peerMsgRecvBlock, peerMsgRecvBlock]
  cases hblock : pieceRequestBlockAt (pieceRequestCreate torrent.layout index) begin.toNat with
  | none => rfl
  | some block =>
      have hmem := List.mem_of_find?_eq_some hblock
      obtain ⟨j, -, -, hpos, -⟩ := exists_of_mem_blockRequests torrent.layout hmem
      rw [BlockRequest.positions, length_flatMap_mems, hsized block hblock] at hpos
      dsimp only
      rw [recvMems_push (fun mem hmem' => mem_size_lt torrent.layout hmem hmem')
        (hpos.symm.trans_le hlen)]
      rfl

theorem staysBefore_payload {type : MsgType} (hpiece : type ≠ .msgPiece) {len : ℕ}
    (hlen32 : len < 2 ^ 32) (hlen : len ≤ sock.inp.length) :
    StaysBefore rest (fun sock => peerMsgRecvPayload sock torrent disk type len) sock := by
  have hfield : ∀ f : Bytes → PeerMsg, StaysBefore rest (fun sock => recvThen sock disk len
      fun buff sock => .ok (some (f buff), sock, disk)) sock := fun f =>
    StaysBefore.recvThen hlen32 hlen fun sock' _ => staysBefore_ok _ disk sock'
  cases type with
  | msgPiece => exact absurd rfl hpiece
  | msgBitfield =>
      exact hfield fun buff => .bitfield ((List.range (len * 8 % 2 ^ 32)).map (bitfieldIsset · buff))
  | msgHave => exact (hfield fun buff => .haveMsg (wordAt buff)).assertThen
  | msgPort => exact (hfield fun buff => .port (wordAt buff)).assertThen
  | msgRequest =>
      have hchecked : StaysBefore rest (fun sock => recvThen sock disk len fun buff sock =>
          assertThen (len = 3 * 4) (.ok (some (.request
            ⟨wordAt buff, wordAt (buff.drop 4), wordAt (buff.drop 8)⟩), sock, disk))) sock :=
        StaysBefore.recvThen hlen32 hlen fun sock' _ => (staysBefore_ok _ disk sock').assertThen
      exact hchecked
  | msgCancel => exact staysBefore_error _ sock
  | msgKeepalive => exact staysBefore_ok _ disk sock
  | _ => exact (staysBefore_ok _ disk sock).assertThen

end

/-- At the head of the stream is a PIECE message with another length than that of
the block it names. -/
def MisSized (torrent : TorrentInfo) (inp : Bytes) : Prop :=
  PieceHeader inp ∧ ∃ block ∈ pieceRequestBlockAt (pieceRequestCreate torrent.layout
    (wordAt (inp.drop 5))) (wordAt (inp.drop 9)).toNat, block.len ≠ (wordAt inp).toNat - 9

/-- **A message that is all there** is received without a look at what comes behind
it. -/
theorem peerMsgRecv_staysBefore {torrent : TorrentInfo} {sock : Socket} (disk : Disk)
    (hcomplete : 4 ≤ sock.inp.length ∧ 4 + (wordAt sock.inp).toNat ≤ sock.inp.length)
    (hsized : ¬ MisSized torrent sock.inp) (rest : Bytes) :
    StaysBefore rest (fun sock => peerMsgRecv sock torrent disk) sock := by
  obtain ⟨h4, hlen⟩ := hcomplete
  have hlen32 : (wordAt sock.inp).toNat < 2 ^ 32 := (wordAt sock.inp).toNat_lt
  refine StaysBefore.recvThen (by decide) h4 fun s₁ hinp₁ => ?_
  have h₁ : (wordAt sock.inp).toNat ≤ s₁.inp.length := by
    rw [hinp₁, List.length_drop]
    omega
  rw [wordAt_take _ 4 le_rfl]
  by_cases h0 : (wordAt sock.inp).toNat = 0
  · simp only [peerMsgRecvPastlen, if_pos h0]
    exact staysBefore_ok _ disk s₁
  simp only [peerMsgRecvPastlen, if_neg h0]
  refine StaysBefore.recvThen (by decide) (by omega) fun s₂ hinp₂ => ?_
  obtain ⟨b, more, hb⟩ := List.exists_cons_of_ne_nil (List.ne_nil_of_length_pos
    (show 0 < s₁.inp.length by omega))
  have hhead : (s₁.inp.take 1).headD 0 = b := by rw [hb]; rfl
  have h₂ : (wordAt sock.inp).toNat - 1 ≤ s₂.inp.length := by
    rw [hinp₂, List.length_drop]
    omega
  simp only [peerMsgRecvTyped, hhead]
  cases htype : MsgType.ofByte b with
  | none => exact staysBefore_ok _ disk s₂
  | some type =>
      by_cases hvalid : validLen type torrent (wordAt sock.inp).toNat = true
      swap
      · simp only [hvalid, Bool.false_eq_true, if_false]
        exact staysBefore_ok _ disk s₂
      simp only [hvalid, if_true]
      by_cases hpiece : type = .msgPiece
      swap
      · exact staysBefore_payload hpiece (by omega) h₂
      subst hpiece
      obtain ⟨hlo, hhi⟩ : 10 ≤ (wordAt sock.inp).toNat ∧
          (wordAt sock.inp).toNat ≤ 9 + peerRequestSize := by
        simpa [validLen] using hvalid
      have h7 : sock.inp[4]? = some 7 := by
        rw [← List.head?_drop, ← hinp₁, hb, (ofByte_eq_some htype).1]
        rfl
      have hheader : PieceHeader sock.inp := ⟨by omega, h7, hlo, hhi⟩
      refine StaysBefore.assertThen ?_
      refine StaysBefore.recvThen (by decide) (by omega) fun s₃ hinp₃ => ?_
      have h₃ : (wordAt sock.inp).toNat - 5 ≤ s₃.inp.length := by
        rw [hinp₃, List.length_drop]
        omega
      refine StaysBefore.recvThen (by decide) (by omega) fun s₄ hinp₄ => ?_
      have h₄ : (wordAt sock.inp).toNat - 9 ≤ s₄.inp.length := by
        rw [hinp₄, List.length_drop]
        omega
      rw [wordAt_take _ 4 le_rfl, wordAt_take _ 4 le_rfl, subUnsigned_header hlo hlen32]
      refine staysBefore_block (fun block hblock => ?_) h₄
      by_contra hne
      rw [hinp₃, hinp₂, hinp₁, List.drop_drop, List.drop_drop] at hblock
      exact hsized ⟨hheader, block, hblock, hne⟩

/-- The test is sound when just `arrived` is in the buffer of the socket: if it says
that there is a message, then there is a whole one, and unless it is a PIECE of
the wrong size, receiving it does not wait for what comes behind. -/
def ReadinessSound (arrived : Bytes) : Prop :=
  ∀ sock : Socket, sock.inp = arrived → peerMsgBuffNonempty sock arrived.length = true →
    (4 ≤ arrived.length ∧ 4 + (wordAt arrived).toNat ≤ arrived.length) ∧
      ∀ torrent disk, ¬ MisSized torrent arrived →
        ∀ rest, StaysBefore rest (fun sock => peerMsgRecv sock torrent disk) sock

def TwoShort (arrived : Bytes) : Prop :=
  4 ≤ arrived.length ∧ (wordAt arrived).toNat + 2 ≤ arrived.length ∧
    arrived.length < 4 + (wordAt arrived).toNat

theorem peerMsgBuffNonempty_eq_true {sock : Socket} {arrived : Bytes} (hinp : sock.inp = arrived) :
    peerMsgBuffNonempty sock arrived.length = true ↔
      4 ≤ arrived.length ∧ (wordAt arrived).toNat + 2 ≤ arrived.length := by
  simp only [peerMsgBuffNonempty, hinp, List.take_length]
  split
  · simp only [Bool.false_eq_true, false_iff]
    omega
  · rw [decide_eq_true_eq]
    omega

/-- **The readiness test** is sound exactly when it is not one or two bytes of a
message that are missing. -/
theorem peerMsgBuffNonempty_sound_iff (arrived : Bytes) :
    ReadinessSound arrived ↔ ¬ TwoShort arrived := by
  constructor
  · rintro h ⟨h4, hready, hshort⟩
    have hwhole := (h ⟨arrived, [], [], []⟩ rfl
      ((peerMsgBuffNonempty_eq_true rfl).mpr ⟨h4, hready⟩)).1
    omega
  · intro hnot sock hinp hready
    obtain ⟨h4, hlen⟩ := (peerMsgBuffNonempty_eq_true hinp).mp hready
    have hwhole : 4 ≤ arrived.length ∧ 4 + (wordAt arrived).toNat ≤ arrived.length := by
      refine ⟨h4, ?_⟩
      by_contra hlt
      exact hnot ⟨h4, hlen, Nat.not_le.mp hlt⟩
    refine ⟨hwhole, fun torrent disk hsized rest => ?_⟩
    subst hinp
    exact peerMsgRecv_staysBefore disk hwhole hsized rest

/-- The length of a CHOKE message, without its type. -/
theorem not_readinessSound_lengthOnly : ¬ ReadinessSound [0, 0, 0, 1] := by
  intro h
  have hready : peerMsgBuffNonempty ⟨[0, 0, 0, 1], [], [], []⟩ 4 = true := by decide
  obtain ⟨-, hwhole⟩ := (h ⟨[0, 0, 0, 1], [], [], []⟩ rfl hready).1
  revert hwhole
  decide

end Daobell
