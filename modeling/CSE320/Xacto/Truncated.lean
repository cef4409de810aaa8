import CSE320.Xacto.Framing
import Mathlib.Data.List.GetD

namespace CSE320.Xacto

open Lib (Byte)

-- The size field of the header at the front of a stream, in host byte order.
def headerSize (wire : List Byte) : Nat := (ntohl (Stored.field wire 4)).toNat

-- The stream ends within the header, or before the last byte of the payload.
def EndsInside (wire : List Byte) : Prop :=
  0 < wire.length ∧ wire.length < sizeofPacket ∨
    sizeofPacket ≤ wire.length ∧ wire.length < sizeofPacket + headerSize wire

-- The header and the payload are there.
def Arrived (wire : List Byte) : Prop := sizeofPacket + headerSize wire ≤ wire.length

-- A truncated packet is rejected, and only a complete one is not.
structure RejectsTruncated (wire : List Byte) (pkt : Stored) (data : Option (List Byte)) :
    Prop where
  rejected : EndsInside wire → (protoRecvPacket wire pkt (some data)).result = -1
  arrived : (protoRecvPacket wire pkt (some data)).result = 0 → Arrived wire

-- A short header leaves the rest of what the structure held.
def merged (wire : List Byte) (pkt : Stored) : List Byte := wire ++ pkt.toBytes.drop wire.length

-- A size field that is not 0 behind a short header, and no part of a payload.
def Noticed (wire : List Byte) (pkt : Stored) : Prop :=
  (0 < wire.length → wire.length < sizeofPacket → headerSize (merged wire pkt) ≠ 0) ∧
    (sizeofPacket < wire.length → sizeofPacket + headerSize wire ≤ wire.length)

section

variable {wire : List Byte} {pkt : Stored} {data : Option (List Byte)}

theorem merged_of_complete (h : sizeofPacket ≤ wire.length) : merged wire pkt = wire := by
  rw [merged, List.drop_eq_nil_of_le (by rw [toBytes_length]; exact h), List.append_nil]

-- Four bytes of the header are read from its first 16 bytes.
theorem field_take (wire : List Byte) : Stored.field (wire.take sizeofPacket) 4 =
    Stored.field wire 4 := by
  have hget (i : Nat) (hi : i < sizeofPacket) : (wire.take sizeofPacket).getD i 0 =
      wire.getD i 0 := by
    rw [List.getD_eq_getElem?_getD, List.getD_eq_getElem?_getD, List.getElem?_take_of_lt hi]
  unfold Stored.field
  rw [hget 4 (by decide), hget 5 (by decide), hget 6 (by decide), hget 7 (by decide)]

theorem headerSize_read (wire : List Byte) (pkt : Stored) :
    headerSize (wire.take sizeofPacket ++ pkt.toBytes.drop (wire.take sizeofPacket).length) =
      headerSize (merged wire pkt) := by
  by_cases hshort : wire.length ≤ sizeofPacket
  · rw [List.take_of_length_le hshort, merged]
  · have hfull : (wire.take sizeofPacket).length = sizeofPacket := List.length_take_of_le (by omega)
    have hnil : pkt.toBytes.drop sizeofPacket = [] := rfl
    rw [hfull, hnil, List.append_nil, merged_of_complete (by omega), headerSize, field_take,
      headerSize]

-- Any byte counts as a header, and any byte behind it as a payload.
theorem result_eq (wire : List Byte) (pkt : Stored) (data : Option (List Byte)) :
    (protoRecvPacket wire pkt (some data)).result =
      if wire.length = 0 ∨ headerSize (merged wire pkt) ≠ 0 ∧ wire.length ≤ sizeofPacket then -1
      else 0 := by
  have hread : (wire.take sizeofPacket).length = 0 ↔ wire.length = 0 := by
    rw [List.length_take]
    exact ⟨fun h => by unfold sizeofPacket at h; omega, fun h => by omega⟩
  have hsize : ntohl (Stored.ofBytes (wire.take sizeofPacket ++
      pkt.toBytes.drop (wire.take sizeofPacket).length)).packet.size = 0 ↔
        headerSize (merged wire pkt) = 0 := by
    rw [← headerSize_read]
    exact BitVec.toNat_eq
  unfold protoRecvPacket
  dsimp only
  by_cases hempty : wire.length = 0
  · rw [if_pos (hread.mpr hempty), if_pos (Or.inl hempty)]
  · rw [if_neg (mt hread.mp hempty)]
    by_cases hzero : headerSize (merged wire pkt) = 0
    · rw [if_neg fun h => h.2 (hsize.mpr hzero), if_neg (by simp [hempty, hzero])]
    · have hbody (n : Nat) (hn : n ≠ 0) : ((wire.drop sizeofPacket).take n).length = 0 ↔
          wire.length ≤ sizeofPacket := by
        rw [List.length_take, List.length_drop]
        omega
      have hne := mt hsize.mp hzero
      have hpos := fun h => hne (BitVec.eq_of_toNat_eq h)
      rw [if_pos ⟨rfl, hne⟩]
      by_cases hshort : wire.length ≤ sizeofPacket
      · rw [if_pos ((hbody _ hpos).mpr hshort), if_pos (Or.inr ⟨hzero, hshort⟩)]
      · rw [if_neg (mt (hbody _ hpos).mp hshort), if_neg (by simp [hempty, hshort])]

theorem endsInside_iff (hne : wire.length ≠ 0) : EndsInside wire ↔ ¬Arrived wire := by
  unfold EndsInside Arrived
  omega

-- A stream that does not bring a whole packet must end where the call looks for more.
theorem rejectsTruncated_of_some (hne : wire.length ≠ 0) :
    RejectsTruncated wire pkt data ↔
      Arrived wire ∨ headerSize (merged wire pkt) ≠ 0 ∧ wire.length ≤ sizeofPacket := by
  have hresult := result_eq wire pkt data
  constructor
  · intro h
    by_contra hnot
    rw [not_or] at hnot
    have hminus := h.rejected ((endsInside_iff hne).mpr hnot.1)
    rw [hresult, if_neg (not_or.mpr ⟨hne, hnot.2⟩)] at hminus
    exact absurd hminus (by decide)
  · intro h
    refine ⟨fun hends => ?_, fun hzero => h.resolve_right fun hlost => ?_⟩
    · rw [hresult, if_pos (Or.inr (h.resolve_left ((endsInside_iff hne).mp hends)))]
    · rw [hresult, if_pos (Or.inr hlost)] at hzero
      exact absurd hzero (by decide)

end

-- The call is right exactly for the streams whose end it notices.
theorem rejectsTruncated_iff (wire : List Byte) (pkt : Stored) (data : Option (List Byte)) :
    RejectsTruncated wire pkt data ↔ Noticed wire pkt := by
  by_cases hempty : wire.length = 0
  · have hresult := result_eq wire pkt data
    rw [if_pos (Or.inl hempty)] at hresult
    apply iff_of_true
    · refine ⟨fun _ => hresult, fun h => ?_⟩
      rw [hresult] at h
      exact absurd h (by decide)
    · exact ⟨fun h => by omega, fun h => by omega⟩
  · rw [rejectsTruncated_of_some hempty]
    unfold Arrived Noticed
    by_cases hcomplete : sizeofPacket ≤ wire.length
    · rw [merged_of_complete hcomplete]
      omega
    · omega

-- One byte of a header is taken for a packet without a payload, and one byte of a payload
-- for four.
theorem not_rejectsTruncated :
    ¬RejectsTruncated [3] ⟨⟨0, 0, 0, 0, 0, 0⟩, 0⟩ none ∧
      ¬RejectsTruncated [3, 0, 0, 0, 0, 0, 0, 4, 0, 0, 0, 0, 0, 0, 0, 0, 107]
        ⟨⟨0, 0, 0, 0, 0, 0⟩, 0⟩ none := by
  constructor
  · intro h
    exact absurd (h.rejected (Or.inl (by decide))) (by decide)
  · intro h
    exact absurd (h.rejected (Or.inr (by decide))) (by decide)

end CSE320.Xacto
