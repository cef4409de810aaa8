import CSE320.Audible.Crypt
import CSE320.Lib.Blocks
import Mathlib.Tactic.Ring

namespace CSE320.Audible

open Lib (Byte)

def bigEndian (bytes : List Byte) : Nat := bytes.foldl (fun n c => n * 256 + c.toNat) 0

-- The value of a sample in two's complement.
def signedBigEndian (bytes : List Byte) : Int :=
  if 2 * bigEndian bytes < 256 ^ bytes.length then bigEndian bytes
    else bigEndian bytes - 256 ^ bytes.length

-- What the bytes in front of a sample hold when it is extended to a word.
def signByte (bytes : List Byte) : Byte := if signedBigEndian bytes < 0 then 0xFF else 0

def signWord (bytes : List Byte) : BitVec 32 := if signedBigEndian bytes < 0 then 0xFFFFFFFF else 0

-- The sample of one channel in the frame that is next in the input.
def sampleOf (bytesPerSample channel : Nat) (stdin : List Byte) : List Byte :=
  (stdin.drop (channel * bytesPerSample)).take bytesPerSample

theorem sampleOf_succ (size i : Nat) (data : List Byte) :
    sampleOf size (i + 1) data = sampleOf size i (data.drop size) := by
  rw [sampleOf, sampleOf, List.drop_drop, Nat.succ_mul, Nat.add_comm]

theorem sampleOf_pair (size i : Nat) {k : Nat} (hk : k < 2) (data : List Byte) :
    sampleOf size (2 * i + k) data = sampleOf size k (sampleOf (2 * size) i data) := by
  have hsum : (2 * i + k) * size = k * size + i * (2 * size) := by ring
  have hroom : size ≤ 2 * size - k * size := by
    interval_cases k <;> omega
  simp only [sampleOf, hsum, List.drop_take, List.take_take, List.drop_drop, Nat.min_eq_left hroom]
  rw [Nat.add_comm]

theorem sampleOf_length {size n i : Nat} {data : List Byte} (hi : i < n)
    (hlen : n * size ≤ data.length) :
    (sampleOf size i data).length = size := by
  have hroom : (i + 1) * size ≤ n * size := Nat.mul_le_mul_right _ hi
  rw [Nat.succ_mul] at hroom
  simp only [sampleOf, List.length_take, List.length_drop]
  omega

-- What is read are the values of the samples, and what is written again are their bytes.
def FrameKept (fp channels bytesPerSample : Nat) (s : Process) : Prop :=
  (readFrame fp channels bytesPerSample s).1 = true ∧
    (readFrame fp channels bytesPerSample s).2.stdin = s.stdin.drop (channels * bytesPerSample) ∧
    (∀ channel < channels,
      (loadInt (fp + 4 * channel) (readFrame fp channels bytesPerSample s).2).toInt =
      signedBigEndian (sampleOf bytesPerSample channel s.stdin)) ∧
    (writeFrame fp channels bytesPerSample (readFrame fp channels bytesPerSample s).2).stdout =
      s.stdout ++ s.stdin.take (channels * bytesPerSample)

-- The sign is taken from what the first word of the buffer held before, and the second
-- word is not written at all.
def FrameFits (fp channels bytesPerSample : Nat) (s : Process) : Prop :=
  (∀ j, channels * bytesPerSample + j < 4 →
    Lib.byte (loadInt fp s) j = signByte (sampleOf bytesPerSample 0 s.stdin)) ∧
  (channels = 2 →
    (loadInt (fp + 4) s).toInt = signedBigEndian (sampleOf bytesPerSample 1 s.stdin) ∧
      sampleOf bytesPerSample 1 s.stdin = sampleOf bytesPerSample 0 s.stdin ∧
      (bytesPerSample < 4 → ∀ c ∈ sampleOf bytesPerSample 0 s.stdin, c =
        signByte (sampleOf bytesPerSample 0 s.stdin)))

theorem toNat_shift (v : BitVec 32) (c : Byte) :
    (v <<< 8 ||| c.setWidth 32).toNat = (v.toNat * 256 + c.toNat) % 2 ^ 32 := by
  have hbyte : (c.setWidth 32).toNat = c.toNat := by
    simp only [BitVec.toNat_setWidth]
    omega
  have hword : (v <<< 8).toNat = (v.toNat % 2 ^ 24) <<< 8 := by
    simp only [BitVec.toNat_shiftLeft, Nat.shiftLeft_eq]
    omega
  rw [BitVec.toNat_or, hbyte, hword, ← Nat.shiftLeft_add_eq_or_of_lt c.isLt, Nat.shiftLeft_eq]
  omega

-- A buffer in which bytes are shifted keeps their value modulo 2 ^ 32.
theorem toNat_pack (v : BitVec 32) (bytes : List Byte) :
    (pack v bytes).toNat = (v.toNat * 256 ^ bytes.length + bigEndian bytes) % 2 ^ 32 := by
  induction bytes using List.reverseRecOn with
  | nil => simp [pack, bigEndian, Nat.mod_eq_of_lt v.isLt]
  | append_singleton bytes c ih =>
      have hpack : pack v (bytes ++ [c]) = pack v bytes <<< 8 ||| c.setWidth 32 := by
        simp [pack]
      have hvalue : bigEndian (bytes ++ [c]) = bigEndian bytes * 256 + c.toNat := by
        simp [bigEndian]
      have hlength : 256 ^ (bytes ++ [c]).length = 256 ^ bytes.length * 256 := by
        simp [Nat.pow_succ]
      rw [hpack, toNat_shift, ih, hvalue, hlength, ← Nat.mul_assoc]
      omega

theorem bigEndian_lt (bytes : List Byte) : bigEndian bytes < 256 ^ bytes.length := by
  induction bytes using List.reverseRecOn with
  | nil => simp [bigEndian]
  | append_singleton bytes c ih =>
      have hvalue : bigEndian (bytes ++ [c]) = bigEndian bytes * 256 + c.toNat := by
        simp [bigEndian]
      have hlength : 256 ^ (bytes ++ [c]).length = 256 ^ bytes.length * 256 := by
        simp [Nat.pow_succ]
      have hbyte := c.isLt
      omega

-- The word of a sample has its sign in front of its bytes.
theorem toInt_eq_signed {bytes : List Byte} (hpos : 0 < bytes.length) (hlen : bytes.length ≤ 4)
    (x : BitVec 32) :
    x.toInt = signedBigEndian bytes ↔ x = pack (signWord bytes) bytes := by
  have hvalue : (pack (signWord bytes) bytes).toInt = signedBigEndian bytes := by
    have hlt := bigEndian_lt bytes
    rw [BitVec.toInt_eq_toNat_cond, toNat_pack]
    unfold signWord signedBigEndian
    generalize bigEndian bytes = value at *
    by_cases hsign : 2 * value < 256 ^ bytes.length
    · have hnonneg : ¬(value : Int) < 0 := by omega
      have hbound : 256 ^ bytes.length ≤ 256 ^ 4 := Nat.pow_le_pow_right (by decide) hlen
      have hzero : (0 : BitVec 32).toNat = 0 := rfl
      simp only [if_pos hsign, if_neg hnonneg, hzero, Nat.zero_mul, Nat.zero_add]
      rw [Nat.mod_eq_of_lt (by omega), if_pos (by omega)]
    · have hneg : (value : Int) - 256 ^ bytes.length < 0 := by
        have := Int.ofNat_lt.mpr hlt
        push_cast at this
        omega
      simp only [if_neg hsign, if_pos hneg]
      generalize bytes.length = len at *
      interval_cases len
      all_goals
        simp
        omega
  rw [← hvalue, BitVec.toInt_inj]

theorem forall_lt_four (p : Nat → Prop) : (∀ j < 4, p j) ↔ p 0 ∧ p 1 ∧ p 2 ∧ p 3 := by
  constructor
  · exact fun h => ⟨h 0 (by decide), h 1 (by decide), h 2 (by decide), h 3 (by decide)⟩
  · rintro ⟨h0, h1, h2, h3⟩ j hj
    interval_cases j
    · exact h0
    · exact h1
    · exact h2
    · exact h3

theorem eq_iff_bytes (x y : BitVec 32) : x = y ↔ ∀ j < 4, Lib.byte x j = Lib.byte y j := by
  constructor
  · rintro rfl j _
    rfl
  · intro h
    rw [← Lib.word_bytes x, ← Lib.word_bytes y, h 0 (by decide), h 1 (by decide), h 2 (by decide),
      h 3 (by decide)]

theorem byte_signWord (bytes : List Byte) {j : Nat} (hj : j < 4) :
    Lib.byte (signWord bytes) j = signByte bytes := by
  unfold signWord signByte
  split
  · interval_cases j <;> rfl
  · interval_cases j <;> rfl

-- Behind the bytes that are read there are the last ones that the word held before.
theorem byte_pack_of_le (v : BitVec 32) (bytes : List Byte) {j : Nat} (hj : bytes.length + j < 4) :
    Lib.byte (pack v bytes) (bytes.length + j) = Lib.byte v j := by
  induction bytes using List.reverseRecOn generalizing j with
  | nil => simp [pack]
  | append_singleton bytes c ih =>
      have hpack : pack v (bytes ++ [c]) = pack v bytes <<< 8 ||| c.setWidth 32 := by
        simp [pack]
      have hlength : (bytes ++ [c]).length + j = bytes.length + j + 1 := by
        simp
        omega
      obtain ⟨-, h1, h2, h3⟩ := byte_shift (pack v bytes) c
      have hshift (i : Nat) (hi : i < 3) :
          Lib.byte (pack v bytes <<< 8 ||| c.setWidth 32) (i + 1) = Lib.byte (pack v bytes) i := by
        interval_cases i
        · exact h1
        · exact h2
        · exact h3
      rw [hpack, hlength, hshift _ (by omega), ih (by omega)]

theorem byte_pack_eq (v : BitVec 32) (bytes : List Byte) {j : Nat} (hj : j < 4) :
    Lib.byte (pack v bytes) j =
      if j < bytes.length then bytes.getD (bytes.length - 1 - j) 0
        else Lib.byte v (j - bytes.length) := by
  split
  · rename_i hlt
    exact byte_pack v bytes hj hlt
  · rename_i hle
    obtain ⟨i, rfl⟩ := Nat.exists_eq_add_of_le (Nat.not_lt.mp hle)
    rw [byte_pack_of_le v bytes hj, Nat.add_sub_cancel_left]

theorem frameBytes_pack (v : BitVec 32) (bytes : List Byte) :
    frameBytes bytes.length (pack v bytes) = frameBytes bytes.length (pack 0 bytes) :=
  frameBytes_congr fun j hj hlen => by rw [byte_pack v bytes hj hlen, byte_pack 0 bytes hj hlen]

theorem frameBytes_pack_of_le (v : BitVec 32) {bytes : List Byte} (hlen : bytes.length ≤ 4) :
    frameBytes bytes.length (pack v bytes) = bytes := by
  rw [frameBytes_pack, frameBytes_pack_iff (by omega), List.drop_of_length_le hlen,
    Nat.sub_eq_zero_of_le hlen, List.take_zero]

-- One channel: the sample, with what was in the buffer before in front of it.
theorem pack_eq_sign_iff (v : BitVec 32) {bytes : List Byte} :
    pack v bytes = pack (signWord bytes) bytes ↔
      ∀ j, bytes.length + j < 4 → Lib.byte v j = signByte bytes := by
  rw [eq_iff_bytes]
  constructor
  · intro h j hj
    have hbyte := h (bytes.length + j) hj
    rwa [byte_pack_of_le _ _ hj, byte_pack_of_le _ _ hj, byte_signWord bytes (by omega)] at hbyte
  · intro h j hj
    rw [byte_pack_eq _ _ hj, byte_pack_eq _ _ hj]
    split
    · rfl
    · rw [h _ (by omega), byte_signWord bytes (by omega)]

-- Two channels: both samples are shifted into the word that the first one is taken from.
theorem pack_append_eq_sign_iff (v : BitVec 32) {first second : List Byte} (hpos : 0 < first.length)
    (hlen : first.length ≤ 4) (hsame : second.length = first.length) :
    (pack v (first ++ second) = pack (signWord first) first ∧
        frameBytes (2 * first.length) (pack v (first ++ second)) = first ++ second) ↔
      (∀ j, 2 * first.length + j < 4 → Lib.byte v j = signByte first) ∧ second = first ∧
        (first.length < 4 → ∀ c ∈ first, c = signByte first) := by
  have hlength : 2 * first.length = (first ++ second).length := by
    rw [List.length_append, hsame]
    omega
  have hsign : ∀ j < 4, Lib.byte (signWord first) j = signByte first :=
    fun j hj => byte_signWord first hj
  rw [hlength, frameBytes_pack, frameBytes_pack_iff (by omega), eq_iff_bytes, ← hlength]
  generalize signByte first = sign at *
  generalize signWord first = word at *
  have hleft : (∀ j, 2 * first.length + j < 4 → Lib.byte v j = sign) ↔
      (first.length = 1 → Lib.byte v 0 = sign ∧ Lib.byte v 1 = sign) := by
    constructor
    · exact fun h hone => ⟨h 0 (by omega), h 1 (by omega)⟩
    · intro h j hj
      obtain ⟨h0, h1⟩ := h (by omega)
      have hj2 : j < 2 := by omega
      interval_cases j
      · exact h0
      · exact h1
  rw [forall_lt_four] at hsign ⊢
  rw [hleft]
  obtain ⟨h0, h1, h2, -⟩ := hsign
  match first, second with
  | [a], [b] =>
    simp [byte_pack_eq, h0, h1, h2]
    grind
  | [a, b], [c, d] =>
    simp [byte_pack_eq, h0, h1]
    grind
  | [a, b, c], [d, e, f] =>
    simp [byte_pack_eq, h0]
    grind
  | [a, b, c, d], [e, f, g, h] =>
    simp [byte_pack_eq]
    grind

theorem readFrameLoop_memory (fp addr size : Nat) (s : Process)
    (h : addr + 4 ≤ fp ∨ fp + 4 ≤ addr) :
    loadInt addr (readFrameLoop fp size s).2 = loadInt addr s := by
  induction size generalizing s with
  | zero => rfl
  | succ left ih =>
      obtain ⟨stdin, stdout, memory, next⟩ := s
      cases stdin with
      | nil => rfl
      | cons temp stdin =>
          rw [readFrameLoop, ih, loadInt_storeInt_of_ne _ _ _ _ h]
          rfl

-- The frame codec is right exactly for the frames that fit into the buffer as it is.
theorem frameKept_iff (fp channels bytesPerSample : Nat) (s : Process)
    (hchannels : channels = 1 ∨ channels = 2) (hbytes : 1 ≤ bytesPerSample ∧ bytesPerSample ≤ 4)
    (hlen : channels * bytesPerSample ≤ s.stdin.length) :
    FrameKept fp channels bytesPerSample s ↔ FrameFits fp channels bytesPerSample s := by
  obtain ⟨hok, hstdin, hstdout, -, hload⟩ := readFrameLoop_spec fp (channels * bytesPerSample) s
  have hsecond := readFrameLoop_memory fp (fp + 4) (channels * bytesPerSample) s
    (Or.inr (Nat.le_refl _))
  unfold FrameKept FrameFits readFrame
  rw [hok, hstdin, writeFrame, writeFrameLoop_eq, Process.write, hload, hstdout,
    List.append_right_inj]
  simp only [decide_eq_true_eq, hlen, true_and]
  have hsample (channel : Nat) (h : channel < channels) :
      (sampleOf bytesPerSample channel s.stdin).length = bytesPerSample := by
    have hroom : (channel + 1) * bytesPerSample ≤ channels * bytesPerSample :=
      Nat.mul_le_mul_right _ h
    rw [Nat.succ_mul] at hroom
    simp only [sampleOf, List.length_take, List.length_drop]
    omega
  have hzero : sampleOf bytesPerSample 0 s.stdin = s.stdin.take bytesPerSample := by
    simp [sampleOf]
  have hfirst := hsample 0 (by omega)
  rcases hchannels with rfl | rfl
  · have htake : s.stdin.take (1 * bytesPerSample) = sampleOf bytesPerSample 0 s.stdin := by
      rw [hzero, Nat.one_mul]
    have hwritten : frameBytes (1 * bytesPerSample)
        (pack (loadInt fp s) (sampleOf bytesPerSample 0 s.stdin)) =
        sampleOf bytesPerSample 0 s.stdin := by
      rw [Nat.one_mul]
      nth_rewrite 1 [← hfirst]
      exact frameBytes_pack_of_le _ (by omega)
    rw [htake] at hload ⊢
    simp only [hwritten, and_true, Nat.lt_one_iff, forall_eq, Nat.mul_zero, Nat.add_zero]
    rw [hload, toInt_eq_signed (by omega) (by omega), pack_eq_sign_iff, hfirst]
    simp
  · have htake : s.stdin.take (2 * bytesPerSample) =
        sampleOf bytesPerSample 0 s.stdin ++ sampleOf bytesPerSample 1 s.stdin := by
      rw [hzero, Nat.two_mul, List.take_add]
      simp [sampleOf]
    have hpair := @pack_append_eq_sign_iff (loadInt fp s) _ (sampleOf bytesPerSample 1 s.stdin)
      (by omega) (by omega) ((hsample 1 (by omega)).trans hfirst.symm)
    have htwo (p : Nat → Prop) : (∀ channel < 2, p channel) ↔ p 0 ∧ p 1 := by
      constructor
      · exact fun h => ⟨h 0 (by decide), h 1 (by decide)⟩
      · rintro ⟨h0, h1⟩ channel hlt
        interval_cases channel
        · exact h0
        · exact h1
    rw [htake] at hload ⊢
    rw [hfirst] at hpair
    rw [htwo, Nat.mul_zero, Nat.add_zero, Nat.mul_one, hload, hsecond,
      toInt_eq_signed (by omega) (by omega)]
    constructor
    · rintro ⟨⟨hword, hother⟩, hwritten⟩
      obtain ⟨hleft, hsame, hsign⟩ := hpair.mp ⟨hword, hwritten⟩
      exact ⟨hleft, fun _ => ⟨hother, hsame, hsign⟩⟩
    · rintro ⟨hleft, hstereo⟩
      obtain ⟨hother, hsame, hsign⟩ := hstereo rfl
      obtain ⟨hword, hwritten⟩ := hpair.mpr ⟨hleft, hsame, hsign⟩
      exact ⟨⟨hword, hother⟩, hwritten⟩

theorem frameKept_of_mono16 : FrameKept inputFrame 1 2 (.start [0x12, 0x34]) := by
  refine (frameKept_iff inputFrame 1 2 (.start [0x12, 0x34]) (Or.inl rfl) (by decide)
    (by decide)).mpr ⟨?_, ?_⟩
  · intro j hj
    have hlt : j < 2 := by omega
    interval_cases j
    · decide
    · decide
  · intro h
    cases h

-- A sample of one byte with the value -1 is read as 255, and the second of two channels
-- is not stored.
theorem not_frameKept_of_negative :
    (readFrame inputFrame 1 1 (.start [0xFF])).1 = true ∧ signedBigEndian [0xFF] = -1 ∧
      (loadInt inputFrame (readFrame inputFrame 1 1 (.start [0xFF])).2).toInt = 255 ∧
      ¬FrameKept inputFrame 1 1 (.start [0xFF]) ∧
        ¬FrameKept inputFrame 2 2 (.start [0, 1, 0, 2]) := by
  refine ⟨by decide, by decide, by decide, ?_, ?_⟩
  · rintro ⟨-, -, hvalue, -⟩
    exact absurd (hvalue 0 (by decide)) (by decide)
  · rintro ⟨-, -, hvalue, -⟩
    exact absurd (hvalue 1 (by decide)) (by decide)

end CSE320.Audible
