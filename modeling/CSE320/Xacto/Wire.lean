import CSE320.Lib.Stream
import CSE320.Xacto.Framing

namespace CSE320.Xacto

open Lib (Byte Pipe Reader)

-- rio_readn calls read until it has its n bytes or the stream ends, and again after an
-- interrupted call. rio_writen calls write in the same way until its buffer is
-- written. Each of these calls is one step of the pipe between the two ends.
abbrev rioReadn {ω : Type} (n : Nat) (next : List Byte → Reader Byte ω) : Reader Byte ω :=
  .ask n next

abbrev rioWriten (usrbuf : List Byte) : List (List Byte) := [usrbuf]

-- What a call of proto_recv_packet leaves behind.
structure Reception where
  result : Int
  pkt : Stored
  datap : Option (Option (List Byte))
deriving DecidableEq, Repr

def Received.reception (r : Received) : Reception := ⟨r.result, r.pkt, r.datap⟩

-- The storage that is given to a call. A NULL datap is none.
structure RecvCall where
  pkt : Stored
  datap : Option (Option (List Byte))
deriving DecidableEq, Repr

-- proto_recv_packet, and what its caller does afterwards.
def recvPacket {ω : Type} (call : RecvCall) (next : Reception → Reader Byte ω) : Reader Byte ω :=
  rioReadn sizeofPacket fun read =>
    if read.length = 0 then
      next ⟨-1, call.pkt, call.datap⟩
    else
      let pkt := Stored.ofBytes (read ++ call.pkt.toBytes.drop read.length)
      let pkt := { pkt with packet := { pkt.packet with
        size := ntohl pkt.packet.size
        timestampSec := ntohl pkt.packet.timestampSec
        timestampNsec := ntohl pkt.packet.timestampNsec } }
      if call.datap.isSome ∧ pkt.packet.size ≠ 0 then
        let size := pkt.packet.size.toNat
        rioReadn size fun body =>
          if body.length = 0 then
            next ⟨-1, pkt, call.datap⟩
          else
            next ⟨0, pkt, some (some (body ++ List.replicate (size - body.length) 0))⟩
      else
        next ⟨0, pkt, call.datap⟩

-- A thread that receives one packet after the other.
def recvPackets : List RecvCall → Reader Byte Reception
  | [] => .done
  | call :: calls => recvPacket call fun r => .tell r (recvPackets calls)

-- The same calls, with the whole stream at hand.
def recvCalls : List Byte → List RecvCall → List Reception × List Byte
  | wire, [] => ([], wire)
  | wire, call :: calls =>
    let r := protoRecvPacket wire call.pkt call.datap
    (r.reception :: (recvCalls r.wire calls).1, (recvCalls r.wire calls).2)

-- The calls of rio_writen that proto_send_packet makes.
def sendPacket (m : Message) : List (List Byte) :=
  let oldSize := if m.data.isSome then m.pkt.packet.size.toNat else 0
  let pkt := { m.pkt with packet := { m.pkt.packet with
    size := htonl m.pkt.packet.size
    timestampSec := htonl m.pkt.packet.timestampSec
    timestampNsec := htonl m.pkt.packet.timestampNsec } }
  rioWriten pkt.toBytes ++
    if oldSize = 0 then [] else rioWriten ((m.data.getD []).take oldSize)

-- The size field is the length of the payload, and a payload needs a variable.
structure Fits (m : Message) (call : RecvCall) : Prop where
  sized : m.Sized
  room : call.datap = none → m.payload = []

-- The call delivers the message. Without a payload the variable is not written.
def Message.reception (m : Message) (call : RecvCall) : Reception where
  result := 0
  pkt := m.pkt
  datap := call.datap.map fun data => if m.payload = [] then data else some m.payload

section

variable {ω : Type} {m : Message} {calls : List RecvCall} {buffers : List (List Byte)}

theorem recvPacket_run (call : RecvCall) (next : Reception → Reader Byte ω) (wire : List Byte) :
    (recvPacket call next).run wire =
      (next (protoRecvPacket wire call.pkt call.datap).reception).run
        (protoRecvPacket wire call.pkt call.datap).wire := by
  unfold recvPacket protoRecvPacket
  simp only [Reader.run]
  by_cases hread : (wire.take sizeofPacket).length = 0
  · rw [if_pos hread, if_pos hread]
    rfl
  · rw [if_neg hread, if_neg hread]
    split
    · simp only [Reader.run]
      split <;> rfl
    · rfl

theorem recvPackets_run (calls : List RecvCall) (wire : List Byte) :
    (recvPackets calls).run wire = recvCalls wire calls := by
  induction calls generalizing wire with
  | nil => rfl
  | cons call calls ih =>
      rw [recvPackets, recvPacket_run, Reader.run, ih]
      rfl

theorem sendPacket_flatten (m : Message) : (sendPacket m).flatten = m.wireBytes := by
  unfold sendPacket Message.wireBytes protoSendPacket
  simp only [List.nil_append]
  by_cases hzero : (if m.data.isSome then m.pkt.packet.size.toNat else 0) = 0
  · rw [if_pos hzero, if_pos hzero]
    simp
  · rw [if_neg hzero, if_neg hzero]
    simp

theorem sendPacket_ne_nil (hm : m.Sized) : ∀ b ∈ sendPacket m, b ≠ [] := by
  intro b hb
  unfold sendPacket at hb
  rcases List.mem_append.mp hb with hb | hb
  · rw [List.mem_singleton.mp hb]
    exact List.cons_ne_nil _ _
  · by_cases hzero : (if m.data.isSome then m.pkt.packet.size.toNat else 0) = 0
    · rw [if_pos hzero] at hb
      exact absurd hb List.not_mem_nil
    · rw [if_neg hzero, List.mem_singleton] at hb
      rw [hb]
      unfold Message.Sized Message.payload at hm
      cases hd : m.data with
      | none => simp [hd] at hzero
      | some data =>
          rw [hd] at hm
          simp only [hd, Option.isSome_some, if_true, hm, Option.getD_some] at hzero ⊢
          rw [List.take_length]
          exact fun hnil => hzero (List.length_eq_zero_iff.mpr hnil)

theorem sendPackets_ne_nil {ms : List Message} (h : List.Forall₂ Fits ms calls) :
    ∀ b ∈ ms.flatMap sendPacket, b ≠ [] := by
  induction h with
  | nil => exact List.forall_mem_nil _
  | cons hfits _ ih =>
      intro b hb
      rw [List.flatMap_cons] at hb
      rcases List.mem_append.mp hb with hb | hb
      · exact sendPacket_ne_nil hfits.sized b hb
      · exact ih b hb

-- The whole stream of the messages, received at once, is the messages.
theorem recvCalls_sendPackets {ms : List Message} (h : List.Forall₂ Fits ms calls)
    (rest : List Byte) :
    recvCalls ((ms.flatMap sendPacket).flatten ++ rest) calls =
      (List.zipWith Message.reception ms calls, rest) := by
  induction h with
  | nil => rfl
  | @cons m call ms calls hfits _ ih =>
      rw [List.flatMap_cons, List.flatten_append, sendPacket_flatten, List.append_assoc, recvCalls,
        recv_message hfits.sized call.pkt hfits.room, ih]
      rfl

end

-- proto_recv_packet does not see how the stream is cut into pieces. Whatever the
-- stream is and wherever it ends, the calls that have returned are the first ones
-- that return over the whole stream, and when nothing moves any more all have.
theorem receptions_of_pieces {capacity : Nat} {calls : List RecvCall} {buffers : List (List Byte)}
    {transfers : List Lib.Transfer} {p : Pipe Byte Reception} (hbuffers : ∀ b ∈ buffers, b ≠ [])
    (hrun : Lib.Steps (Pipe.step capacity) (fun _ _ => True)
      (Pipe.start buffers (recvPackets calls)) transfers p) :
    p.told <+: (recvCalls buffers.flatten calls).1 ∧
    transfers.countP (· ≠ .interrupted) ≤ (Pipe.start buffers (recvPackets calls)).cost ∧
    (0 < capacity → Lib.Stuck (Pipe.step capacity) Pipe.Moving p →
      (p.told, p.way ++ p.buffers.flatten) = recvCalls buffers.flatten calls) := by
  rw [← recvPackets_run]
  refine ⟨Pipe.told_prefix hbuffers hrun, ?_, fun hcapacity hstuck => ?_⟩
  · exact Nat.le_of_add_right_le (Pipe.moving_le_cost (Pipe.start_wellFormed _ hbuffers) hrun)
  · exact (Pipe.told_of_stuck hbuffers hcapacity hrun hstuck).2

-- A stream that ends within its only header, in two pieces and with an interrupted call.
theorem receptions_of_short_header :
    ∃ p : Pipe Byte Reception, Lib.Steps (Pipe.step 4) (fun _ _ => True)
        (Pipe.start [[3, 0], [0]] (recvPackets [⟨⟨⟨0, 0, 0, 0, 0, 0⟩, 0⟩, none⟩]))
        [.write 2, .read 1, .interrupted, .write 1, .read 2, .ended] p ∧
      p.told = [⟨0, ⟨⟨3, 0, 0, 0, 0, 0⟩, 0⟩, none⟩] ∧
      (p.told, p.way ++ p.buffers.flatten) =
        recvCalls [3, 0, 0] [⟨⟨⟨0, 0, 0, 0, 0, 0⟩, 0⟩, none⟩] := by
  obtain ⟨p, hrun, htold, hdone, hbuffers⟩ : ∃ p : Pipe Byte Reception,
      Lib.checkedRun (Pipe.step 4) (fun _ _ => True)
        (Pipe.start [[3, 0], [0]] (recvPackets [⟨⟨⟨0, 0, 0, 0, 0, 0⟩, 0⟩, none⟩]))
        [.write 2, .read 1, .interrupted, .write 1, .read 2, .ended] = some p ∧
      p.told = [⟨0, ⟨⟨3, 0, 0, 0, 0, 0⟩, 0⟩, none⟩] ∧ p.reader = .done ∧ p.buffers = [] :=
    ⟨_, rfl, rfl, rfl, rfl⟩
  have hsteps := Lib.Steps.of_checkedRun hrun
  exact ⟨p, hsteps, htold, (receptions_of_pieces (by decide) hsteps).2.2 (by decide)
    (Pipe.stuck_of_done hdone hbuffers)⟩

-- Packets over a connection that cuts the stream into pieces as it likes. At every
-- moment the packets that have been received are the first ones that were sent, and
-- when neither end can go on all of them have been.
theorem packets_delivered {capacity : Nat} {ms : List Message} {calls : List RecvCall}
    {transfers : List Lib.Transfer} {p : Pipe Byte Reception} (hfits : List.Forall₂ Fits ms calls)
    (hrun : Lib.Steps (Pipe.step capacity) (fun _ _ => True)
      (Pipe.start (ms.flatMap sendPacket) (recvPackets calls)) transfers p) :
    p.told <+: List.zipWith Message.reception ms calls ∧
    (0 < capacity → Lib.Stuck (Pipe.step capacity) Pipe.Moving p →
      p.told = List.zipWith Message.reception ms calls ∧ p.way = [] ∧ p.buffers = []) := by
  have hbuffers := sendPackets_ne_nil hfits
  have hall := recvCalls_sendPackets hfits []
  rw [List.append_nil] at hall
  have htold := Pipe.told_prefix hbuffers hrun
  rw [recvPackets_run, hall] at htold
  refine ⟨htold, fun hcapacity hstuck => ?_⟩
  obtain ⟨-, htold⟩ := Pipe.told_of_stuck hbuffers hcapacity hrun hstuck
  rw [recvPackets_run, hall] at htold
  obtain ⟨htold, hrest⟩ := Prod.mk.inj htold
  obtain ⟨hway, hflatten⟩ := List.append_eq_nil_iff.mp hrest
  exact ⟨htold, hway, Pipe.buffers_eq_nil (Pipe.run_keeps hbuffers hrun).1 hflatten⟩

-- A request without a payload and its key, whose header comes in two pieces.
theorem packets_delivered_of_get :
    ∃ p : Pipe Byte Reception, Lib.Steps (Pipe.step 20) (fun _ _ => True)
        (Pipe.start ([⟨⟨⟨2, 0, 0, 0, 7, 8⟩, 99⟩, none⟩,
          ⟨⟨⟨3, 0, 0, 2, 7, 9⟩, 0⟩, some [107, 101]⟩].flatMap sendPacket)
          (recvPackets [⟨⟨⟨0, 0, 0, 0, 0, 0⟩, 0⟩, none⟩, ⟨⟨⟨1, 1, 1, 1, 1, 1⟩, 1⟩, some none⟩]))
        [.write 16, .read 16, .write 16, .write 1, .read 10, .read 6, .read 1, .write 1, .read 1]
        p ∧
      p.told = [⟨0, ⟨⟨2, 0, 0, 0, 7, 8⟩, 99⟩, none⟩,
        ⟨0, ⟨⟨3, 0, 0, 2, 7, 9⟩, 0⟩, some (some [107, 101])⟩] ∧ p.way = [] ∧ p.buffers = [] := by
  obtain ⟨p, hrun, hdone, hbuffers⟩ : ∃ p : Pipe Byte Reception,
      Lib.checkedRun (Pipe.step 20) (fun _ _ => True)
        (Pipe.start ([⟨⟨⟨2, 0, 0, 0, 7, 8⟩, 99⟩, none⟩,
          ⟨⟨⟨3, 0, 0, 2, 7, 9⟩, 0⟩, some [107, 101]⟩].flatMap sendPacket)
          (recvPackets [⟨⟨⟨0, 0, 0, 0, 0, 0⟩, 0⟩, none⟩, ⟨⟨⟨1, 1, 1, 1, 1, 1⟩, 1⟩, some none⟩]))
        [.write 16, .read 16, .write 16, .write 1, .read 10, .read 6, .read 1, .write 1, .read 1] =
          some p ∧ p.reader = .done ∧ p.buffers = [] := ⟨_, rfl, rfl, rfl⟩
  have hsteps := Lib.Steps.of_checkedRun hrun
  have hfits : List.Forall₂ Fits [⟨⟨⟨2, 0, 0, 0, 7, 8⟩, 99⟩, none⟩,
      ⟨⟨⟨3, 0, 0, 2, 7, 9⟩, 0⟩, some [107, 101]⟩]
      [⟨⟨⟨0, 0, 0, 0, 0, 0⟩, 0⟩, none⟩, ⟨⟨⟨1, 1, 1, 1, 1, 1⟩, 1⟩, some none⟩] :=
    .cons ⟨rfl, fun _ => rfl⟩ (.cons ⟨rfl, fun hnone => by cases hnone⟩ .nil)
  exact ⟨p, hsteps, (packets_delivered hfits hsteps).2 (by decide)
    (Pipe.stuck_of_done hdone hbuffers)⟩

end CSE320.Xacto
