import CSE320.Xacto.Protocol

namespace CSE320.Xacto

open Lib (Byte)

-- A call of proto_send_packet. Without a payload the pointer is NULL.
structure Message where
  pkt : Stored
  data : Option (List Byte)
deriving DecidableEq, Repr

namespace Message

def payload (m : Message) : List Byte := m.data.getD []

-- The size field is the length of the payload.
def Sized (m : Message) : Prop := m.pkt.packet.size.toNat = m.payload.length

end Message

def sendAll : List Byte → List Message → List Byte
  | wire, [] => wire
  | wire, m :: rest => sendAll (protoSendPacket wire m.pkt m.data).2 rest

-- The storage that the caller of proto_recv_packet gives to a call: the structure
-- and the variable for the payload.
structure Buffer where
  pkt : Stored
  data : Option (List Byte)
deriving DecidableEq, Repr

def recvAll : List Byte → List Buffer → List Received × List Byte
  | wire, [] => ([], wire)
  | wire, b :: rest =>
    let r := protoRecvPacket wire b.pkt (some b.data)
    let (others, wire) := recvAll r.wire rest
    (r :: others, wire)

-- The call delivers the message. Without a payload the variable is not written.
structure Delivers (m : Message) (b : Buffer) (r : Received) : Prop where
  result : r.result = 0
  packet : r.pkt.packet = m.pkt.packet
  payload : r.datap = some (if m.payload = [] then b.data else some m.payload)

variable {m : Message} {wire rest : List Byte}

-- A structure is read back from its bytes.
theorem ofBytes_toBytes (s : Stored) : Stored.ofBytes s.toBytes = s := by
  simp [Stored.ofBytes, Stored.toBytes, Stored.field, Lib.le32]

theorem toBytes_length (s : Stored) : s.toBytes.length = sizeofPacket := rfl

-- The bytes that a message puts on the wire.
def Message.wireBytes (m : Message) : List Byte := (protoSendPacket [] m.pkt m.data).2

theorem send_eq (m : Message) (wire : List Byte) :
    (protoSendPacket wire m.pkt m.data).2 = wire ++ m.wireBytes := by
  unfold Message.wireBytes protoSendPacket
  simp only [List.nil_append]
  by_cases hzero : (if m.data.isSome then m.pkt.packet.size.toNat else 0) = 0
  · rw [if_pos hzero, if_pos hzero]
  · rw [if_neg hzero, if_neg hzero, List.append_assoc]

theorem sendAll_eq (wire : List Byte) (ms : List Message) :
    sendAll wire ms = wire ++ ms.flatMap Message.wireBytes := by
  induction ms generalizing wire with
  | nil => simp [sendAll]
  | cons m ms ih => rw [sendAll, ih, send_eq, List.flatMap_cons, List.append_assoc]

-- The header in network byte order, followed by the payload.
theorem wireBytes_eq (hm : m.Sized) : ∃ sent : Stored, m.wireBytes = sent.toBytes ++ m.payload ∧
    m.pkt = { sent with packet := { sent.packet with
      size := ntohl sent.packet.size
      timestampSec := ntohl sent.packet.timestampSec
      timestampNsec := ntohl sent.packet.timestampNsec } } := by
  refine ⟨(protoSendPacket [] m.pkt m.data).1, ?_, by simp [protoSendPacket, htonl, ntohl]⟩
  unfold Message.Sized Message.payload at hm
  unfold Message.wireBytes Message.payload protoSendPacket
  cases hd : m.data with
  | none => simp
  | some data =>
      rw [hd] at hm
      simp only [Option.isSome_some, if_true, Option.getD_some] at hm ⊢
      rw [hm]
      split
      · rename_i hzero
        simp [List.length_eq_zero_iff.mp hzero]
      · simp

-- One message is received from the front of the wire, and nothing more is read. A payload
-- needs a variable.
theorem recv_message (hm : m.Sized) (pkt : Stored) {datap : Option (Option (List Byte))}
    (hroom : datap = none → m.payload = []) (rest : List Byte) :
    protoRecvPacket (m.wireBytes ++ rest) pkt datap =
      ⟨0, m.pkt, datap.map fun data => if m.payload = [] then data else some m.payload, rest⟩ := by
  obtain ⟨sent, hsent, hhost⟩ := wireBytes_eq hm
  have hhead : (m.wireBytes ++ rest).take sizeofPacket = sent.toBytes := by
    rw [hsent, List.append_assoc, ← toBytes_length sent]
    exact List.take_left
  have htail : (m.wireBytes ++ rest).drop sizeofPacket = m.payload ++ rest := by
    rw [hsent, List.append_assoc, ← toBytes_length sent]
    exact List.drop_left
  have hread : Stored.ofBytes (sent.toBytes ++ pkt.toBytes.drop sent.toBytes.length) = sent := by
    rw [toBytes_length, ← toBytes_length pkt, List.drop_length, List.append_nil, ofBytes_toBytes]
  have hlength : m.pkt.packet.size.toNat = m.payload.length := hm
  have hsize : ntohl sent.packet.size = m.pkt.packet.size := by rw [hhost]
  unfold protoRecvPacket
  simp only [hhead, htail, hread, ← hhost]
  rw [if_neg (by rw [toBytes_length]; decide), hsize]
  by_cases hempty : m.payload = []
  · have hzero : m.pkt.packet.size = 0 := by
      apply BitVec.eq_of_toNat_eq
      rw [hlength, hempty]
      rfl
    rw [if_neg fun hboth => hboth.2 hzero]
    simp [hempty]
  · have hpos : m.payload.length ≠ 0 := fun hnil => hempty (List.length_eq_zero_iff.mp hnil)
    have hne : m.pkt.packet.size ≠ 0 := by
      intro hzero
      rw [hzero] at hlength
      exact hpos hlength.symm
    cases datap with
    | none => exact absurd (hroom rfl) hempty
    | some data =>
        rw [if_pos ⟨rfl, hne⟩, hlength, List.take_left, if_neg hpos]
        simp [hempty]

-- Packets that are sent one after the other are received one after the other, and
-- the bytes behind them stay on the wire.
theorem recvAll_sendAll (ms : List Message) (bs : List Buffer) (rest : List Byte)
    (hsized : ∀ m ∈ ms, m.Sized) (hcalls : bs.length = ms.length) :
    ∃ rs, recvAll (sendAll [] ms ++ rest) bs = (rs, rest) ∧
      rs.length = ms.length ∧ ∀ (i : Nat) (m : Message) (b : Buffer) (r : Received),
        ms[i]? = some m → bs[i]? = some b → rs[i]? = some r → Delivers m b r := by
  rw [sendAll_eq, List.nil_append]
  induction ms generalizing bs with
  | nil =>
      obtain rfl := List.length_eq_zero_iff.mp hcalls
      exact ⟨[], rfl, rfl, nofun⟩
  | cons m ms ih =>
      cases bs with
      | nil => cases hcalls
      | cons b bs =>
          let wire := ms.flatMap Message.wireBytes ++ rest
          let r : Received :=
            ⟨0, m.pkt, some (if m.payload = [] then b.data else some m.payload), wire⟩
          have hr : protoRecvPacket (m.wireBytes ++ wire) b.pkt (some b.data) = r :=
            recv_message (hsized m List.mem_cons_self) b.pkt
              (fun (hnone : some b.data = none) => nomatch hnone) wire
          obtain ⟨rs, hrs, hlength, hall⟩ :=
            ih bs (fun m hm => hsized m (List.mem_cons_of_mem _ hm))
            (Nat.succ.inj hcalls)
          refine ⟨r :: rs, ?_, congrArg (· + 1) hlength, fun i m' b' r' hm hb hr' => ?_⟩
          · rw [List.flatMap_cons, List.append_assoc, recvAll, hr, hrs]
          · cases i with
            | zero =>
                obtain rfl := Option.some.inj hm
                obtain rfl := Option.some.inj hb
                obtain rfl := Option.some.inj hr'
                exact ⟨rfl, rfl, rfl⟩
            | succ i => exact hall i m' b' r' hm hb hr'

-- A request without a payload, followed by its key.
theorem recvAll_of_get : ∃ rs, recvAll (sendAll [] [⟨⟨⟨2, 0, 0, 0, 7, 8⟩, 99⟩, none⟩,
      ⟨⟨⟨3, 0, 0, 2, 7, 9⟩, 0⟩, some [107, 101]⟩] ++ [5]) [⟨⟨⟨0, 0, 0, 0, 0, 0⟩, 0⟩, none⟩,
        ⟨⟨⟨1, 1, 1, 1, 1, 1⟩, 1⟩, none⟩] =
      (rs, [5]) ∧ rs.length = 2 ∧ rs.map (fun r => r.datap) =
        [some none, some (some [107, 101])] := by
  obtain ⟨rs, hrs, hlength, hall⟩ := recvAll_sendAll [⟨⟨⟨2, 0, 0, 0, 7, 8⟩, 99⟩, none⟩,
      ⟨⟨⟨3, 0, 0, 2, 7, 9⟩, 0⟩, some [107, 101]⟩] [⟨⟨⟨0, 0, 0, 0, 0, 0⟩, 0⟩, none⟩,
        ⟨⟨⟨1, 1, 1, 1, 1, 1⟩, 1⟩, none⟩] [5]
    (by intro m hm
        rcases List.mem_cons.mp hm with rfl | hm
        · rfl
        · rw [List.mem_singleton.mp hm]
          rfl) rfl
  refine ⟨rs, hrs, hlength, ?_⟩
  match rs, hlength, hall with
  | [r, r'], _, hall =>
      have hr := (hall 0 _ _ r rfl rfl rfl).payload
      have hr' := (hall 1 _ _ r' rfl rfl rfl).payload
      simp [hr, hr', Message.payload]

end CSE320.Xacto
