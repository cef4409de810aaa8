import CSE320.Lib.Bytes
import CSE320.Xacto.Transaction

namespace CSE320.Xacto

open Lib (Byte)

inductive PacketType where
  | no
  | put
  | get
  | data
  | commit
  | reply
deriving DecidableEq, Repr

def PacketType.toByte : PacketType → BitVec 8
  | .no => 0
  | .put => 1
  | .get => 2
  | .data => 3
  | .commit => 4
  | .reply => 5

def TransStatus.toByte : TransStatus → BitVec 8
  | .pending => 0
  | .committed => 1
  | .aborted => 2

-- The fields in host byte order. A received packet can have any byte as type.
structure Packet where
  type : BitVec 8
  status : BitVec 8
  null : BitVec 8
  size : BitVec 32
  timestampSec : BitVec 32
  timestampNsec : BitVec 32
deriving DecidableEq, Repr

-- The structure as it lies in memory, with one byte of padding behind null.
structure Stored where
  packet : Packet
  pad : Byte
deriving DecidableEq, Repr

def sizeofPacket : Nat := 16

namespace Stored

def toBytes (s : Stored) : List Byte :=
  [s.packet.type, s.packet.status, s.packet.null, s.pad] ++ Lib.le32 s.packet.size ++
    Lib.le32 s.packet.timestampSec ++ Lib.le32 s.packet.timestampNsec

def field (bytes : List Byte) (i : Nat) : BitVec 32 :=
  Lib.word (bytes.getD i 0) (bytes.getD (i + 1) 0) (bytes.getD (i + 2) 0) (bytes.getD (i + 3) 0)

def ofBytes (bytes : List Byte) : Stored where
  packet :=
    { type := bytes.getD 0 0, status := bytes.getD 1 0, null := bytes.getD 2 0, size :=
      field bytes 4, timestampSec := field bytes 8, timestampNsec := field bytes 12 }
  pad := bytes.getD 3 0

end Stored

-- The host is little-endian.
def htonl (x : BitVec 32) : BitVec 32 := Lib.swap32 x

def ntohl (x : BitVec 32) : BitVec 32 := Lib.swap32 x

-- The wire holds the bytes that have been sent and not yet received. rio_writen
-- writes all that it is given, so the call returns 0. The packet is left in
-- network byte order.
def protoSendPacket (wire : List Byte) (pkt : Stored) (data : Option (List Byte)) :
    Stored × List Byte :=
  let oldSize := if data.isSome then pkt.packet.size.toNat else 0
  let pkt := { pkt with packet := { pkt.packet with
    size := htonl pkt.packet.size
    timestampSec := htonl pkt.packet.timestampSec
    timestampNsec := htonl pkt.packet.timestampNsec } }
  let wire := wire ++ pkt.toBytes
  (pkt, if oldSize = 0 then wire else wire ++ (data.getD []).take oldSize)

-- What a call of proto_recv_packet leaves behind. A NULL datap is none, and
-- otherwise datap is the content of the variable it points to.
structure Received where
  result : Int
  pkt : Stored
  datap : Option (Option (List Byte))
  wire : List Byte
deriving DecidableEq, Repr

-- rio_readn reads less than it is asked for only at the end of the stream. What
-- it does not read keeps the content of the structure, or the zeros of Calloc.
def protoRecvPacket (wire : List Byte) (pkt : Stored)
    (datap : Option (Option (List Byte))) : Received :=
  let read := wire.take sizeofPacket
  let wire := wire.drop sizeofPacket
  if read.length = 0 then
    ⟨-1, pkt, datap, wire⟩
  else
    let pkt := Stored.ofBytes (read ++ pkt.toBytes.drop read.length)
    let pkt := { pkt with packet := { pkt.packet with
      size := ntohl pkt.packet.size
      timestampSec := ntohl pkt.packet.timestampSec
      timestampNsec := ntohl pkt.packet.timestampNsec } }
    if datap.isSome ∧ pkt.packet.size ≠ 0 then
      let size := pkt.packet.size.toNat
      let body := wire.take size
      if body.length = 0 then
        ⟨-1, pkt, datap, wire.drop size⟩
      else
        ⟨0, pkt, some (some (body ++ List.replicate (size - body.length) 0)), wire.drop size⟩
    else
      ⟨0, pkt, datap, wire⟩

end CSE320.Xacto
