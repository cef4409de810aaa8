import CSE320.Xacto.Server
import CSE320.Xacto.Wire

namespace CSE320.Xacto

open Lib (Byte Pipe Reader)

-- The service gives a packet of zeros to each call, and no variable for the payload
-- when it waits for a request.
def headCall : RecvCall := ⟨⟨⟨0, 0, 0, 0, 0, 0⟩, 0⟩, none⟩

def dataCall : RecvCall := ⟨⟨⟨0, 0, 0, 0, 0, 0⟩, 0⟩, some none⟩

-- The calls of the service that receive, as a program that reads from the connection.
-- It tells the outcomes in the order in which the service sees them, and takes those of
-- the calls that do not receive from the front of a list.
abbrev Receiver := Reader Byte Outcome

namespace Receiver

def receive (call : RecvCall) (next : Option (Packet × Option (List Byte)) → Receiver) : Receiver :=
  recvPacket call fun r =>
    let received := if r.result = -1 then none else some (r.pkt.packet, r.datap.getD none)
    .tell (.recv received) (next received)

def abortEnd : List Outcome → Receiver
  | .send sent :: _ => .tell (.send sent) .done
  | _ => .done

-- A reply, behind which the service goes on if it could be sent.
def reply (next : List Outcome → Receiver) : List Outcome → Receiver
  | .send sent :: answers => .tell (.send sent) (if sent then next answers else abortEnd answers)
  | _ => .done

def xactoPutPkt (next : List Outcome → Receiver) (answers : List Outcome) : Receiver :=
  receive dataCall fun key =>
    if key.isNone then
      abortEnd answers
    else
      receive dataCall fun value =>
        if value.isNone then
          abortEnd answers
        else
          match answers with
          | .put status :: answers =>
            .tell (.put status) (if status = .aborted then abortEnd answers else reply next answers)
          | _ => .done

def xactoGetPkt (next : List Outcome → Receiver) (answers : List Outcome) : Receiver :=
  receive dataCall fun key =>
    if key.isNone then
      abortEnd answers
    else
      match answers with
      | .get status value :: answers =>
        .tell (.get status value)
          (if status = .aborted then abortEnd answers else reply (reply next) answers)
      | _ => .done

def transCommit : List Outcome → Receiver
  | .commit status :: .send sent :: answers =>
    .tell (.commit status) (.tell (.send sent)
      (if status = .aborted ∨ sent then .done else abortEnd answers))
  | .commit status :: _ => .tell (.commit status) .done
  | _ => .done

def serve : Nat → List Outcome → Receiver
  | 0, _ => .done
  | passes + 1, answers =>
    receive headCall fun received =>
      match received with
      | none => abortEnd answers
      | some (pkt, _) =>
        if pkt.type = PacketType.put.toByte then
          xactoPutPkt (serve passes) answers
        else if pkt.type = PacketType.get.toByte then
          xactoGetPkt (serve passes) answers
        else if pkt.type = PacketType.commit.toByte then
          transCommit answers
        else
          abortEnd answers

end Receiver

-- A packet as it was sent, and the outcome of the call that receives it.
def Message.received (m : Message) (call : RecvCall) : Packet × Option (List Byte) :=
  (m.pkt.packet, (m.reception call).datap.getD none)

def Message.outcome (m : Message) (call : RecvCall) : Outcome := .recv (some (m.received call))

-- A request with the data packets behind it, and how the store answers it.
inductive Exchange where
  | put (head key value : Message) (status : TransStatus)
  | get (head key : Message) (status : TransStatus) (value : Option Blob)
  | commit (head : Message) (status : TransStatus)

def Message.blob (m : Message) : Blob :=
  newBlob (if m.payload = [] then none else some m.payload) m.pkt.packet.size.toNat

-- The packet that reply sends.
def replyPacket (type : PacketType) (status : TransStatus) (bp : Option Blob)
    (time : BitVec 32 × BitVec 32) : Packet where
  type := type.toByte
  status := status.toByte
  null := if bp.isSome ∨ type = .reply then 0 else 1
  size := match bp with
    | some blob => if type ≠ .reply then BitVec.ofNat 32 blob.size else 0
    | none => 0
  timestampSec := time.1
  timestampNsec := time.2

namespace Exchange

def messages : Exchange → List Message
  | .put head key value _ => [head, key, value]
  | .get head key _ _ => [head, key]
  | .commit head _ => [head]

-- What the calls of the service return that do not receive anything. Every reply is sent.
def answers : Exchange → List Outcome
  | .put _ _ _ status => [.put status, .send true]
  | .get _ _ status value =>
    .get status value :: if status = .aborted then [.send true] else [.send true, .send true]
  | .commit _ status => [.commit status, .send true]

-- All that the service sees of the exchange.
def outcomes : Exchange → List Outcome
  | .put head key value status =>
    head.outcome headCall :: key.outcome dataCall :: value.outcome dataCall ::
      answers (.put head key value status)
  | .get head key status value =>
    head.outcome headCall :: key.outcome dataCall :: answers (.get head key status value)
  | .commit head status => head.outcome headCall :: answers (.commit head status)

-- The exchange ends the service.
def ends : Exchange → Bool
  | .put _ _ _ status | .get _ _ status _ => status = .aborted
  | .commit _ _ => true

-- What the service does for the exchange when its log has n entries.
def events (clock : Nat → BitVec 32 × BitVec 32) (n : Nat) : Exchange → List Event
  | .put _ key value status =>
    .put key.blob value.blob ::
      if status = .aborted then
        [.sent (replyPacket .reply .aborted none (clock (n + 1))) none, .abort]
      else
        [.sent (replyPacket .reply .pending none (clock (n + 1))) none]
  | .get _ key status value =>
    .get key.blob ::
      if status = .aborted then
        [.sent (replyPacket .reply .aborted none (clock (n + 1))) none, .abort]
      else
        let content := value.bind Blob.content
        .sent (replyPacket .reply .pending value (clock (n + 1))) content ::
          if content.isSome then
            [.unref value, .sent (replyPacket .data .pending value (clock (n + 3))) content]
          else
            [.sent (replyPacket .data .pending value (clock (n + 2))) content]
  | .commit _ status =>
    [.commit, .sent (replyPacket .reply status none (clock (n + 1))) none]

def log (clock : Nat → BitVec 32 × BitVec 32) (es : List Exchange) (log : List Event) :
    List Event :=
  es.foldl (fun log e => log ++ e.events clock log.length) log

end Exchange

section

variable {e : Exchange} {es : List Exchange} {clock : Nat → BitVec 32 × BitVec 32}
  {log : List Event} {more : List Outcome}

open Exchange

-- A call of the service that returns, and what the service does afterwards.
theorem bind_some {α β : Type} {f : Service α} {g : α → Service β} {s s' : Session} {a : α}
    (h : f s = some (a, s')) : (f >>= g) s = g a s' := by
  simp [bind, StateT.bind, h]

end

end CSE320.Xacto
