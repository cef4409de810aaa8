import CSE320.Lib.Run
import CSE320.Xacto.Data
import CSE320.Xacto.Protocol

namespace CSE320.Xacto

-- The results of the calls that the service makes and does not decide itself,
-- in the order in which it sees them. A receive or send fails with -1.
inductive Outcome where
  | recv (received : Option (Packet × Option (List (BitVec 8))))
  | send (sent : Bool)
  | put (status : TransStatus)
  | get (status : TransStatus) (value : Option Blob)
  | commit (status : TransStatus)
deriving DecidableEq

-- What the service does to the world around it.
inductive Event where
  | register
  | create
  | sent (packet : Packet) (data : Option (List (BitVec 8)))
  | put (key value : Blob)
  | get (key : Blob)
  | unref (value : Option Blob)
  | commit
  | abort
  | unregister
  | close
deriving DecidableEq

-- The clock is read once for each packet that is sent.
structure Session where
  outcomes : List Outcome
  log : List Event
  clock : Nat → BitVec 32 × BitVec 32

-- A service that needs an outcome which does not come, or comes with another
-- call, has no result.
abbrev Service := StateT Session Option

namespace Service

def next : Service Outcome := fun s =>
  match s.outcomes with
  | [] => none
  | outcome :: outcomes => some (outcome, { s with outcomes })

def emit (event : Event) : Service Unit := fun s => some ((), { s with log := s.log ++ [event] })

def clockGettime : Service (BitVec 32 × BitVec 32) := fun s => some (s.clock s.log.length, s)

def protoRecvPacket : Service (Option (Packet × Option (List (BitVec 8)))) := do
  match ← next with
  | .recv received => return received
  | _ => failure

def protoSendPacket (packet : Packet) (data : Option (List (BitVec 8))) : Service Bool := do
  emit (.sent packet data)
  match ← next with
  | .send sent => return sent
  | _ => failure

def storePut (key value : Blob) : Service TransStatus := do
  emit (.put key value)
  match ← next with
  | .put status => return status
  | _ => failure

def storeGet (key : Blob) : Service (TransStatus × Option Blob) := do
  emit (.get key)
  match ← next with
  | .get status value => return (status, value)
  | _ => failure

def transCommit : Service TransStatus := do
  emit .commit
  match ← next with
  | .commit status => return status
  | _ => failure

-- Every field of the packet is assigned, so the packet that is reused for the
-- reply does not matter.
def reply (type : PacketType) (status : TransStatus) (bp : Option Blob) : Service Bool := do
  let time ← clockGettime
  let size := match bp with
    | some blob => if type ≠ .reply then BitVec.ofNat 32 blob.size else 0
    | none => 0
  let packet : Packet :=
    { type := type.toByte, status := status.toByte, size,
      null := if bp.isSome ∨ type = .reply then 0 else 1,
      timestampSec := time.1, timestampNsec := time.2 }
  protoSendPacket packet (bp.bind Blob.content)

-- The functions below return the value of endloop. The transaction is not NULL,
-- since trans_create does not return NULL.
def abortEnd : Service Bool := do
  let _ ← reply .reply .aborted none
  emit .abort
  return false

def xactoPutPkt : Service Bool := do
  match ← protoRecvPacket with
  | none => abortEnd
  | some (pkt1, key) =>
    match ← protoRecvPacket with
    | none => abortEnd
    | some (pkt2, value) =>
      if (← storePut (newBlob key pkt1.size.toNat) (newBlob value pkt2.size.toNat)) = .aborted then
        abortEnd
      else if ← reply .reply .pending none then
        return true
      else
        abortEnd

-- blob_unref is called for a value with content only.
def unrefValue (bp1 : Option Blob) : Service Unit :=
  if (bp1.bind Blob.content).isSome then emit (.unref bp1) else pure ()

def xactoGetPkt : Service Bool := do
  match ← protoRecvPacket with
  | none => abortEnd
  | some (pkt1, key) =>
    let result ← storeGet (newBlob key pkt1.size.toNat)
    if result.1 = .aborted then
      abortEnd
    else if ← reply .reply .pending result.2 then
      unrefValue result.2
      if ← reply .data .pending result.2 then
        return true
      else
        abortEnd
    else
      abortEnd

-- One pass of the loop.
def handlePacket : Service Bool := do
  match ← protoRecvPacket with
  | none => abortEnd
  | some (pkt, _) =>
    if pkt.type = PacketType.put.toByte then
      xactoPutPkt
    else if pkt.type = PacketType.get.toByte then
      xactoGetPkt
    else if pkt.type = PacketType.commit.toByte then
      let status ← transCommit
      if status = .aborted then
        let _ ← reply .reply .aborted none
        return false
      else if ← reply .reply status none then
        return false
      else
        abortEnd
    else
      abortEnd

-- The loop, cut off after a number of passes.
def serve : Nat → Service Unit
  | 0 => failure
  | passes + 1 => do
    if ← handlePacket then serve passes else return ()

def xactoClientService (passes : Nat) : Service Unit := do
  emit .register
  emit .create
  serve passes
  emit .unregister
  emit .close

end Service

end CSE320.Xacto
