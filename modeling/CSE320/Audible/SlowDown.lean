import CSE320.Audible.Frame
import CSE320.Audible.WellFormed

namespace CSE320.Audible

open Lib (Byte)

-- The sample of a channel in a frame of the data.
def sampleValue (channels bytesPerSample channel frame : Nat) (data : List Byte) : Int :=
  signedBigEndian (sampleOf bytesPerSample channel
    (sampleOf (channels * bytesPerSample) frame data))

-- Between two frames there are factor - 1 new ones, with the samples on the line between theirs.
structure Slowed (factor channels bytesPerSample : Nat) (data written : List Byte) : Prop where
  length : written.length =
    ((data.length / (channels * bytesPerSample) - 1) * factor + 1) * (channels * bytesPerSample)
  kept : ∀ j < data.length / (channels * bytesPerSample),
    sampleOf (channels * bytesPerSample) (j * factor) written =
      sampleOf (channels * bytesPerSample) j data
  between : ∀ j, j + 1 < data.length / (channels * bytesPerSample) → ∀ k, 0 < k → k < factor →
    ∀ channel < channels,
    let sample := sampleValue channels bytesPerSample channel
    sample (j * factor + k) written = sample j data +
      ((sample (j + 1) data - sample j data) * k).tdiv factor

def SlowedDown (options : BitVec 64) (argv : List (List Byte)) (stream data : List Byte)
    (hp : AudioHeader) : Prop :=
  ∃ written, WritesData options argv stream hp written ∧
    Slowed (factorOf options) hp.channels.toNat (hp.encoding - 1).toNat data written

-- The factor is the number of bytes of a sample, there is one frame, and when it has more than
-- four bytes it ends with what its first ones are.
def SlowDownFits (options : BitVec 64) (hp : AudioHeader) (data : List Byte) : Prop :=
  factorOf options = (hp.encoding - 1).toNat ∧ data.length / frameLength hp = 1 ∧
    data.take (data.length - 4) = data.drop 4

-- One frame.
theorem slowed_of_one {b c : Nat} {data : List Byte} (hlen : data.length = c * b) (hpos : 0 < c * b)
    (hmax : c * b ≤ 8) (v : BitVec 32) :
    Slowed b c b data (frameBytes (c * b) (pack v data)) ↔
      data.take (data.length - 4) = data.drop 4 := by
  have hone : data.length / (c * b) = 1 := by rw [hlen, Nat.div_self hpos]
  have hwhole (bytes : List Byte) (h : bytes.length = c * b) :
      sampleOf (c * b) 0 bytes = bytes := by
    rw [sampleOf, Nat.zero_mul, List.drop_zero, List.take_of_length_le (Nat.le_of_eq h)]
  have hfirst := hwhole (frameBytes (c * b) (pack v data)) (frameBytes_length _ _)
  have hbytes : frameBytes (c * b) (pack v data) = frameBytes (c * b) (pack 0 data) := by
    rw [← hlen]
    exact frameBytes_pack v data
  have hkept := @frameBytes_pack_iff data (by omega)
  rw [hlen, ← hbytes] at hkept
  rw [hlen, ← hkept]
  constructor
  · intro h
    have hzero := h.kept 0 (by omega)
    rwa [Nat.zero_mul, hfirst, hwhole data hlen] at hzero
  · intro h
    refine ⟨?_, fun j hj => ?_, fun j hj => ?_⟩
    · rw [hone, frameBytes_length, Nat.sub_self, Nat.zero_mul, Nat.zero_add, Nat.one_mul]
    · obtain rfl : j = 0 := by omega
      rw [Nat.zero_mul, h]
    · omega

-- The bytes of one sample for each channel are as many as they should be only for one frame
-- and the factor that is their number.
theorem unit_of_length {c b n factor : Nat} (hc : 0 < c) (hb : 0 < b) (hn : 0 < n)
    (h : c * factor = ((n - 1) * factor + 1) * (c * b)) : factor = b ∧ n = 1 := by
  have hcancel : factor = ((n - 1) * factor + 1) * b := by
    apply Nat.eq_of_mul_eq_mul_left hc
    calc c * factor = ((n - 1) * factor + 1) * (c * b) := h
      _ = c * (((n - 1) * factor + 1) * b) := by ring
  have hone : n = 1 := by
    by_contra hmore
    have hframes : factor ≤ (n - 1) * factor := Nat.le_mul_of_pos_left factor (by omega)
    have hbytes : (n - 1) * factor + 1 ≤ ((n - 1) * factor + 1) * b := Nat.le_mul_of_pos_right _ hb
    omega
  subst hone
  rw [Nat.sub_self, Nat.zero_mul, Nat.zero_add, Nat.one_mul] at hcancel
  exact ⟨hcancel, rfl⟩

-- The number of frames and the size of the data.
theorem ValidStream.frames_spec {stream note data : List Byte} {hp : AudioHeader}
    (h : ValidStream stream hp note data) (hdata : data.length = hp.dataSize.toNat)
    (hne : data ≠ []) :
    0 < data.length / frameLength hp ∧
      data.length = data.length / frameLength hp * (hp.channels.toNat * (hp.encoding - 1).toNat) ∧
      data.length / frameLength hp * (hp.channels.toNat * (hp.encoding - 1).toNat) < 2 ^ 32 := by
  obtain ⟨hframe, hpos, -⟩ := frameSize_eq h.valid
  have hdvd : frameLength hp ∣ data.length := hdata ▸ hframe ▸ h.frames
  have hlen : data.length / frameLength hp * frameLength hp = data.length := Nat.div_mul_cancel hdvd
  refine ⟨?_, hlen.symm, ?_⟩
  · exact Nat.div_pos (Nat.le_of_dvd (List.length_pos_of_ne_nil hne) hdvd) hpos
  · calc data.length / frameLength hp * frameLength hp = hp.dataSize.toNat := hlen.trans hdata
      _ < 2 ^ 32 := hp.dataSize.isLt

-- What is written with -d: the first frame alone, with the factor for the size of a sample.
theorem recoded_slowDown {args argv : List (List Byte)} {options : BitVec 64}
    (hargs : validargs args = (true, options)) (hd : options &&& optionD ≠ 0)
    {stream note data : List Byte} {hp : AudioHeader} (h : ValidStream stream hp note data)
    (hinside : Inside options argv note hp) :
    let size := hp.channels.toNat * factorOf options
    ∃ offset note' v, offset.toNat = note'.length + 24 ∧
      recoded options argv stream = some (true, headerBytes (outputHeader options hp offset) ++
        (note' ++ frameBytes size (pack v (data.take size)))) := by
  intro size
  obtain ⟨offset, note', s, hs, hrun⟩ := recode_eq_data h.annotated hinside.1
  obtain ⟨hu, hcrypt⟩ := (only_mode hargs).2 hd
  obtain ⟨hfactor, -, -⟩ : (factorWord options).toNat = factorOf options ∧
      0 < factorOf options ∧
      factorOf options ≤ 1024 := factor_toNat options
  have hrounds : ((outputHeader options hp offset).dataSize /
      (factorWord options * ((outputHeader options hp offset).encoding + 1))).toNat = 0 :=
    hinside.2 hd
  have hslow : recodeData options (factorWord options) (outputHeader options hp offset) s =
      some (true, writeFrameLoop inputFrame (hp.channels.toNat * (factorWord options).toNat)
        (readFrameLoop inputFrame (hp.channels.toNat * (factorWord options).toNat) s).2) := by
    simp only [recodeData, hu, hcrypt, if_pos hd, slowDown_eq, if_pos hrounds, ne_eq,
      not_true_eq_false, if_false]
    rfl
  obtain ⟨-, -, hout, -, hload⟩ :=
    readFrameLoop_spec inputFrame (hp.channels.toNat * (factorWord options).toNat) s
  refine ⟨offset, note', loadInt inputFrame s, hs.size, ?_⟩
  rw [recoded, hrun, hslow, Option.map_some, writeFrameLoop_eq, hload, hfactor, hs.stdin]
  rw [hfactor, hs.stdout] at hout
  rw [← List.append_assoc, ← hout]
  rfl

-- With -d, in the buffers, the frames are as they should be for exactly these streams.
theorem slowedDown_iff {args argv : List (List Byte)} {options : BitVec 64}
    (hargs : validargs args = (true, options)) (hd : options &&& optionD ≠ 0)
    {stream note data : List Byte} {hp : AudioHeader} (h : ValidStream stream hp note data)
    (hdata : data.length = hp.dataSize.toNat) (hne : data ≠ []) :
    (recoded options argv stream = none ↔ ¬Inside options argv note hp) ∧
    (Inside options argv note hp →
      (SlowedDown options argv stream data hp ↔ SlowDownFits options hp data)) := by
  refine ⟨recoded_eq_none_iff h.annotated, fun hinside => ?_⟩
  obtain ⟨-, hb⟩ := bytes_bounds h.valid
  obtain ⟨-, hpos, hmax⟩ := frameSize_eq h.valid
  obtain ⟨hsome, hlen, hsize⟩ := h.frames_spec hdata hne
  obtain ⟨offset, note', v, hoffset, hwritten⟩ := recoded_slowDown hargs hd h hinside
  have hframe : frameLength hp = hp.channels.toNat * (hp.encoding - 1).toNat := rfl
  have hchannels : 0 < hp.channels.toNat := Nat.pos_of_mul_pos_right (hframe ▸ hpos)
  unfold SlowedDown SlowDownFits
  simp only [writesData_iff hoffset hwritten, true_and, exists_eq_left]
  constructor
  · intro h
    have hlength := h.length
    rw [frameBytes_length, ← hframe] at hlength
    obtain ⟨hunit, hone⟩ := unit_of_length hchannels hb.1 hsome hlength
    rw [hone, Nat.one_mul] at hlen
    rw [hunit, List.take_of_length_le (Nat.le_of_eq hlen)] at h
    exact ⟨hunit, hone, (slowed_of_one hlen hpos hmax v).mp h⟩
  · rintro ⟨hunit, hone, hkept⟩
    rw [hone, Nat.one_mul] at hlen
    rw [hunit, List.take_of_length_le (Nat.le_of_eq hlen)]
    exact (slowed_of_one hlen hpos hmax v).mpr hkept

-- One frame of two bytes.
theorem slowedDown_of_one :
    let argv := [Lib.ascii "audible", Lib.ascii "-d", Lib.ascii "-f", Lib.ascii "2"]
    Inside 0x2001000000000000 argv [] (monoHeader 3 2) ∧
      SlowedDown 0x2001000000000000 argv (headerBytes (monoHeader 3 2) ++ [1, 2]) [1, 2]
        (monoHeader 3 2) := by
  intro argv
  have hvalid : ValidStream (headerBytes (monoHeader 3 2) ++ [1, 2]) (monoHeader 3 2) [] [1, 2] :=
    ⟨by decide +kernel, by decide, by decide, by decide⟩
  have hargs : validargs argv = (true, 0x2001000000000000) := by decide +kernel
  have hinside : Inside 0x2001000000000000 argv [] (monoHeader 3 2) :=
    ⟨fun _ => ⟨by decide, by decide, by decide⟩, fun _ => by decide⟩
  obtain ⟨-, hiff⟩ := slowedDown_iff hargs (by decide) hvalid (by decide) (by decide)
  exact ⟨hinside, (hiff hinside).mpr ⟨by decide, by decide, by decide⟩⟩

-- For two frames of one byte the loop is not entered, and both are written behind each other.
theorem not_slowedDown :
    let argv := [Lib.ascii "audible", Lib.ascii "-d", Lib.ascii "-f", Lib.ascii "2", Lib.ascii "-p"]
    let stream := headerBytes (monoHeader 2 2) ++ [0, 10]
    validargs argv = (true, 0x2801000000000000) ∧ ValidStream stream (monoHeader 2 2) [] [0, 10] ∧
      Inside 0x2801000000000000 argv [] (monoHeader 2 2) ∧
      WritesData 0x2801000000000000 argv stream (monoHeader 2 2) [0, 10] ∧
      ¬SlowedDown 0x2801000000000000 argv stream [0, 10] (monoHeader 2 2) := by
  intro argv stream
  have hout : recoded 0x2801000000000000 argv stream = some (true,
      headerBytes (outputHeader 0x2801000000000000 (monoHeader 2 2) 24) ++ ([] ++ [0, 10])) := by
    decide +kernel
  have hwrites (data : List Byte) := @writesData_iff _ _ _ _ _ _ _ data _ rfl hout
  refine ⟨by decide +kernel, ⟨by decide +kernel, by decide, by decide, by decide⟩,
    ⟨fun hprepends => absurd hprepends (by decide), fun _ => by decide⟩, ?_, ?_⟩
  · exact (hwrites _).mpr ⟨rfl, rfl⟩
  · rintro ⟨written, hdata, hslowed⟩
    obtain ⟨-, rfl⟩ := (hwrites _).mp hdata
    exact absurd hslowed.length (by decide)

end CSE320.Audible
