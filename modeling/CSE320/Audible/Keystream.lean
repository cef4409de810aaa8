import CSE320.Audible.Frame
import CSE320.Audible.WellFormed

namespace CSE320.Audible

open Lib (Byte)

-- A call of myrand32 and what it leaves in next.
def randomValue (next : BitVec 64) : BitVec 32 := (myrand32 { Process.start [] with next }).1

def randomNext (next : BitVec 64) : BitVec 64 := (myrand32 { Process.start [] with next }).2.next

-- The successive values of the generator.
def random (seed : BitVec 64) (i : Nat) : BitVec 32 := randomValue (randomNext^[i] seed)

-- The low bytes of a value, the most significant one of them first.
def lowBytes (size : Nat) (value : BitVec 32) : List Byte :=
  (List.range size).map fun j => Lib.byte value (size - 1 - j)

def sampleCipher (value : BitVec 32) (sample : List Byte) : List Byte :=
  List.zipWith (· ^^^ ·) sample (lowBytes sample.length value)

-- The two samples of a frame may take their values in either order.
def place (swapped : Bool) (i : Nat) : Nat :=
  if swapped then (if i % 2 = 0 then i + 1 else i - 1) else i

def alignedData (hp : AudioHeader) (seed : BitVec 64) (swapped : Bool) (n : Nat)
    (data : List Byte) : List Byte :=
  (List.range (n * hp.channels.toNat)).flatMap fun i =>
    sampleCipher (random seed (place swapped i)) (sampleOf (hp.encoding - 1).toNat i data)

-- The options behind -c -k KEY, with -p or without it.
def cryptOptions (keeps : Bool) (key : BitVec 32) : BitVec 64 :=
  optionC ||| (if keeps then optionP else 0) ||| key.setWidth 64

-- Each sample has a value of its own, and no other value is taken.
def KeystreamAligned (keeps : Bool) (key : BitVec 32) (argv : List (List Byte))
    (stream data : List Byte) (hp : AudioHeader) : Prop :=
  let n := data.length / frameLength hp
  (∃ swapped, (swapped = true → hp.channels = 2) ∧
    WritesData (cryptOptions keeps key) argv stream hp
      (alignedData hp (key.setWidth 64) swapped n data)) ∧
  (recode (cryptOptions keeps key) argv (.start stream)).map (·.2.next) =
    some (randomNext^[n * hp.channels.toNat] (key.setWidth 64))

-- Two samples of three bytes: the values overlap in the four bytes of the buffer, and
-- the last two bytes of the buffer are written for the first two of the frame.
def Overlaid24 (first second r1 r2 : BitVec 32) (frame : List Byte) : Prop :=
  Lib.byte first 0 = Lib.byte r1 2 ∧ Lib.byte second 2 = Lib.byte r1 1 ||| Lib.byte r2 2 ∧
    Lib.byte second 1 = Lib.byte r1 0 ||| Lib.byte r2 1 ∧ Lib.byte second 0 = Lib.byte r2 0 ∧
    frame.getD 0 0 ^^^ Lib.byte first 2 = frame.getD 4 0 ^^^ Lib.byte second 1 ∧
    frame.getD 1 0 ^^^ Lib.byte first 1 = frame.getD 5 0 ^^^ Lib.byte second 0

-- Two samples of four bytes: both values are in one word, and the second sample is
-- written twice.
def Overlaid32 (first second r1 r2 : BitVec 32) (frame : List Byte) : Prop :=
  second = r1 ||| r2 ∧
    ∀ j < 4, frame.getD j 0 ^^^ Lib.byte first (3 - j) =
      frame.getD (4 + j) 0 ^^^ Lib.byte second (3 - j)

def Overlaid (encoding : BitVec 32) (swapped : Bool) (r1 r2 : BitVec 32)
    (frame : List Byte) : Prop :=
  let first := if swapped then r2 else r1
  let second := if swapped then r1 else r2
  encoding = 4 ∧ Overlaid24 first second r1 r2 frame ∨
    encoding = 5 ∧ Overlaid32 first second r1 r2 frame

-- One channel, samples of two bytes, or values that happen to hide the overlap.
def KeystreamFits (hp : AudioHeader) (seed : BitVec 64) (data : List Byte) : Prop :=
  let n := data.length / frameLength hp
  hp.channels = 1 ∨ hp.encoding = 3 ∨
    (hp.encoding = 2 ∧ ∀ i < n, Lib.byte (random seed (2 * i)) 0 = 0) ∨
    ∃ swapped, ∀ i < n, Overlaid hp.encoding swapped (random seed (2 * i)) (random seed (2 * i + 1))
      (sampleOf (frameLength hp) i data)

-- The bytes of the operations on a word.
theorem byte_or (x y : BitVec 32) (j : Nat) :
    Lib.byte (x ||| y) j = Lib.byte x j ||| Lib.byte y j := by
  unfold Lib.byte
  ext i hi
  simp

theorem byte_shiftLeft (x : BitVec 32) (k : Nat) {j : Nat} (hj : j < 4) :
    Lib.byte (x <<< (8 * k)) j = if j < k then 0 else Lib.byte x (j - k) := by
  unfold Lib.byte
  ext i hi
  have hbit : (x <<< (8 * k)).getLsbD (8 * j + i) =
      (!decide (8 * j + i < 8 * k) && x.getLsbD (8 * j + i - 8 * k)) := by
    rw [BitVec.getLsbD_shiftLeft, decide_eq_true (by omega), Bool.true_and]
  rw [BitVec.getElem_extractLsb', hbit]
  split
  · have hin : 8 * j + i < 8 * k := by omega
    simp [hin]
  · have hout : ¬8 * j + i < 8 * k := by omega
    have hindex : 8 * j + i - 8 * k = 8 * (j - k) + i := by omega
    simp [hout, hindex]

def lowMask (size : Nat) : BitVec 32 := BitVec.allOnes 32 >>> (8 * (4 - size))

theorem byte_lowMask (x : BitVec 32) {size : Nat} (hsize : size ≤ 4) (j : Nat) :
    Lib.byte (x &&& lowMask size) j = if j < size then Lib.byte x j else 0 := by
  have hmask (i : Nat) : (lowMask size).getLsbD i = decide (i < 8 * size) := by
    rw [lowMask, BitVec.getLsbD_ushiftRight, BitVec.getLsbD_allOnes]
    congr 1
    apply propext
    omega
  unfold Lib.byte
  ext i hi
  rw [BitVec.getElem_extractLsb', BitVec.getLsbD_and, hmask]
  split
  · have hin : 8 * j + i < 8 * size := by omega
    simp [hin]
  · have hout : ¬8 * j + i < 8 * size := by omega
    simp [hout]

-- The key of a frame with two channels, from the values in the order of their calls.
def pairKey (size : Nat) (r1 r2 : BitVec 32) : BitVec 32 :=
  (r1 &&& lowMask size) <<< (8 * (4 - size)) ||| (r2 &&& lowMask size)

theorem myrand32_random (s : Process) :
    myrand32 s = (randomValue s.next, { s with next := randomNext s.next }) := by
  obtain ⟨f, hf⟩ := myrand32_eq
  simp only [randomValue, randomNext, hf]

theorem byte_pairKey (r1 r2 : BitVec 32) {size j : Nat} (hsize : size ≤ 4) (hj : j < 4) :
    Lib.byte (pairKey size r1 r2) j =
      (if j < 4 - size then 0 else Lib.byte r1 (j - (4 - size))) |||
        (if j < size then Lib.byte r2 j else 0) := by
  rw [pairKey, byte_or, byte_shiftLeft _ _ hj, byte_lowMask _ hsize, byte_lowMask _ hsize]
  split
  · rfl
  · rw [if_pos (by omega)]

section

variable {hp : AudioHeader} (h : validHeader hp = true)

include h

theorem keyOf_mono (hmono : hp.channels = 1) (next : BitVec 64) :
    keyOf hp next = (randomValue next &&& lowMask (hp.encoding - 1).toNat, randomNext next) := by
  rcases encoding_cases h with he | he | he | he
  all_goals
    simp only [keyOf, keyFrame, myrand32_random, he, hmono]
    rfl

theorem keyOf_stereo (hstereo : hp.channels = 2) (next : BitVec 64) :
    keyOf hp next =
      (pairKey (hp.encoding - 1).toNat (randomValue next) (randomValue (randomNext next)),
      randomNext (randomNext next)) := by
  rcases encoding_cases h with he | he | he | he
  all_goals
    simp only [keyOf, keyFrame, myrand32_random, he, hstereo]
    rfl

end

@[simp] theorem lowBytes_length (size : Nat) (value : BitVec 32) :
    (lowBytes size value).length = size := by
  simp [lowBytes]

@[simp] theorem sampleCipher_length (value : BitVec 32) (sample : List Byte) :
    (sampleCipher value sample).length = sample.length := by
  simp [sampleCipher]

theorem cipher_getD (key : BitVec 32) (frame : List Byte) {p : Nat} (hp : p < frame.length) :
    (cipher key frame).getD p 0 = Lib.byte key ((frame.length - 1 - p) % 4) ^^^
      frame.getD (frame.length - 1 - (frame.length - 1 - p) % 4) 0 := by
  have hmod : (frame.length - 1 - p) % 4 < 4 := Nat.mod_lt _ (by decide)
  have hle : (frame.length - 1 - p) % 4 ≤ frame.length - 1 - p := Nat.mod_le _ 4
  rw [cipher, frameBytes_getD _ _ hp, byte_xor, byte_pack 0 frame hmod (by omega)]

theorem sampleCipher_getD (value : BitVec 32) (sample : List Byte) {p : Nat}
    (hp : p < sample.length) :
    (sampleCipher value sample).getD p 0 = sample.getD p 0 ^^^
      Lib.byte value (sample.length - 1 - p) := by
  rw [List.getD_eq_getElem _ _ (by simpa using hp), List.getD_eq_getElem _ _ hp]
  simp [sampleCipher, lowBytes]

-- One channel.
theorem cipher_lowMask (value : BitVec 32) {sample : List Byte} (hlen : sample.length ≤ 4) :
    cipher (value &&& lowMask sample.length) sample = sampleCipher value sample := by
  refine (ext_getD_iff (by simp)).mpr fun p hp => ?_
  rw [cipher_length] at hp
  rw [cipher_getD _ _ hp, sampleCipher_getD _ _ hp, Nat.mod_eq_of_lt (by omega),
    byte_lowMask _ hlen, if_pos (by omega), BitVec.xor_comm]
  congr 2
  omega

theorem xor_eq_xor_iff (value x value' : Byte) : value ^^^ x = x ^^^ value' ↔ value' = value := by
  rw [BitVec.xor_comm, BitVec.xor_right_inj, eq_comm]

-- Two channels, by the size of a sample.
section

variable (first second r1 r2 : BitVec 32) {frame : List Byte}

theorem cipher_pairKey_one (hlen : frame.length = 2) :
    cipher (pairKey 1 r1 r2) frame = sampleCipher first (sampleOf 1 0 frame) ++
      sampleCipher second (sampleOf 1 1 frame) ↔
      Lib.byte first 0 = 0 ∧ Lib.byte second 0 = Lib.byte r2 0 := by
  match frame with
  | [a, b] =>
    have hkey (j : Nat) (hj : j < 4) := byte_pairKey r1 r2 (by decide : 1 ≤ 4) hj
    have hfirst : a = a ^^^ Lib.byte first 0 ↔ Lib.byte first 0 = 0 := by
      have hzero : 0 ^^^ a = a := BitVec.zero_xor
      rw [← xor_eq_xor_iff 0 a, hzero]
    simp [cipher, frameBytes, byte_xor, byte_pack_eq, hkey, sampleCipher, sampleOf, lowBytes,
      hfirst, xor_eq_xor_iff]

theorem cipher_pairKey_two (hlen : frame.length = 4) :
    cipher (pairKey 2 r1 r2) frame = sampleCipher r1 (sampleOf 2 0 frame) ++
      sampleCipher r2 (sampleOf 2 1 frame) := by
  match frame with
  | [a, b, c, d] =>
    have hkey (j : Nat) (hj : j < 4) := byte_pairKey r1 r2 (by decide : 2 ≤ 4) hj
    simp [cipher, frameBytes, byte_xor, byte_pack_eq, hkey, sampleCipher, sampleOf, lowBytes,
      List.range_succ, xor_eq_xor_iff]

theorem cipher_pairKey_three (hlen : frame.length = 6) :
    cipher (pairKey 3 r1 r2) frame = sampleCipher first (sampleOf 3 0 frame) ++
      sampleCipher second (sampleOf 3 1 frame) ↔
      Overlaid24 first second r1 r2 frame := by
  match frame with
  | [a, b, c, d, e, f] =>
    have hkey (j : Nat) (hj : j < 4) := byte_pairKey r1 r2 (by decide : 3 ≤ 4) hj
    simp [cipher, frameBytes, byte_xor, byte_pack_eq, hkey, sampleCipher, sampleOf, lowBytes,
      List.range_succ, Overlaid24, xor_eq_xor_iff]
    constructor
    · rintro ⟨hleft, hright, hlow, htwo, hone, hzero⟩
      refine ⟨hlow, htwo, hone, hzero, ?_, ?_⟩
      · rw [← hleft, hone, BitVec.xor_comm]
      · rw [← hright, hzero, BitVec.xor_comm]
    · rintro ⟨hlow, htwo, hone, hzero, hleft, hright⟩
      refine ⟨?_, ?_, hlow, htwo, hone, hzero⟩
      · rw [hleft, hone, BitVec.xor_comm]
      · rw [hright, hzero, BitVec.xor_comm]

theorem cipher_pairKey_four (hlen : frame.length = 8) :
    cipher (pairKey 4 r1 r2) frame = sampleCipher first (sampleOf 4 0 frame) ++
      sampleCipher second (sampleOf 4 1 frame) ↔
      Overlaid32 first second r1 r2 frame := by
  match frame with
  | [a, b, c, d, e, f, g, h] =>
    have hkey (j : Nat) (hj : j < 4) := byte_pairKey r1 r2 (by decide : 4 ≤ 4) hj
    simp [cipher, frameBytes, byte_xor, byte_pack_eq, hkey, sampleCipher, sampleOf, lowBytes,
      List.range_succ, Overlaid32, xor_eq_xor_iff, eq_iff_bytes second, byte_or, forall_lt_four]
    constructor
    · rintro ⟨hleft3, hleft2, hleft1, hleft0, h3, h2, h1, h0⟩
      refine ⟨⟨h0, h1, h2, h3⟩, ?_, ?_, ?_, ?_⟩
      · rw [← hleft3, h3, BitVec.xor_comm]
      · rw [← hleft2, h2, BitVec.xor_comm]
      · rw [← hleft1, h1, BitVec.xor_comm]
      · rw [← hleft0, h0, BitVec.xor_comm]
    · rintro ⟨⟨h0, h1, h2, h3⟩, hleft3, hleft2, hleft1, hleft0⟩
      refine ⟨?_, ?_, ?_, ?_, h3, h2, h1, h0⟩
      · rw [hleft3, h3, BitVec.xor_comm]
      · rw [hleft2, h2, BitVec.xor_comm]
      · rw [hleft1, h1, BitVec.xor_comm]
      · rw [hleft0, h0, BitVec.xor_comm]

end

-- The frames and their keys by their numbers.
theorem zipWith_keys (hp : AudioHeader) (size n : Nat) (next : BitVec 64) (data : List Byte) :
    List.zipWith cipher (keys hp n next) (framesOf size n data) =
      (List.range n).map fun i =>
        cipher (keyOf hp ((fun next => (keyOf hp next).2)^[i] next)).1 (sampleOf size i data) := by
  induction n generalizing next data with
  | zero => rfl
  | succ n ih =>
      rw [keys, framesOf, List.zipWith_cons_cons, ih, List.range_succ_eq_map, List.map_cons,
        List.map_map]
      congr 1
      · simp [sampleOf]
      · refine List.map_congr_left fun i _ => ?_
        simp only [Function.comp_apply, sampleOf_succ, Function.iterate_succ_apply]

theorem cryptLoop_next (hp : AudioHeader) (n : Nat) (s : Process) :
    (cryptLoop hp n s).next = (fun next => (keyOf hp next).2)^[n] s.next := by
  induction n generalizing s with
  | zero => rfl
  | succ n ih =>
      obtain ⟨s', hloop, -, hnext, -⟩ := cryptLoop_succ hp n s
      rw [hloop, ih, hnext, Function.iterate_succ_apply]

theorem cryptOptions_spec (keeps : Bool) (key : BitVec 32) :
    cryptOptions keeps key &&& optionU = 0 ∧ cryptOptions keeps key &&& optionD = 0 ∧
      cryptOptions keeps key &&& optionC ≠ 0 ∧ (cryptOptions keeps key).setWidth 32 = key := by
  have hset : cryptOptions keeps key &&& optionC = optionC := by
    unfold cryptOptions optionC
    ext i hi
    interval_cases i <;> simp
  cases keeps
  all_goals
    unfold cryptOptions optionU optionD optionC optionP at *
    refine ⟨?_, ?_, ?_, ?_⟩
    · ext i hi
      interval_cases i <;> simp
    · ext i hi
      interval_cases i <;> simp
    · rw [hset]
      decide
    · ext i hi
      interval_cases i <;> simp

section

variable {stream note data : List Byte} {hp : AudioHeader} (h : ValidStream stream hp note data)
  (hdata : data.length = hp.dataSize.toNat)

include h hdata

-- What is written with -c, and the state of the generator behind it.
theorem recode_cryptOptions (keeps : Bool) (key : BitVec 32) {argv : List (List Byte)}
    (hinside : Inside (cryptOptions keeps key) argv note hp) :
    let next := fun next => (keyOf hp next).2
    (recode (cryptOptions keeps key) argv (.start stream)).map (·.2.next) =
      some (next^[data.length / frameLength hp] (key.setWidth 64)) ∧
    ∀ data', WritesData (cryptOptions keeps key) argv stream hp data' ↔
      data' = (List.range (data.length / frameLength hp)).flatMap fun i =>
        cipher (keyOf hp (next^[i] (key.setWidth 64))).1 (sampleOf (frameLength hp) i data) := by
  intro next
  obtain ⟨hu, hd, hc, hkey⟩ := cryptOptions_spec keeps key
  obtain ⟨hsize, hpos, -⟩ := frameSize_eq h.valid
  obtain ⟨offset, note', s, ⟨hoffset, hin, hout, -⟩, hrun⟩ := recode_eq_data h.annotated hinside.1
  have hcount : ((outputHeader (cryptOptions keeps key) hp offset).dataSize /
      frameSize (outputHeader (cryptOptions keeps key) hp offset)).toNat =
        data.length / frameLength hp := by
    have hsame : (outputHeader (cryptOptions keeps key) hp offset).dataSize = hp.dataSize := by
      simp [outputHeader, outputSize, hu, hd]
    rw [hsame, BitVec.toNat_udiv, hdata, ← hsize]
    rfl
  have hloop : recodeData (cryptOptions keeps key) (factorWord (cryptOptions keeps key))
      (outputHeader (cryptOptions keeps key) hp offset) s = some (true, cryptLoop
        (outputHeader (cryptOptions keeps key) hp offset) (data.length / frameLength hp)
          (mysrand key s)) := by
    simp only [recodeData, hu, hd, hc, hkey, hcount, ne_eq, not_true_eq_false, not_false_iff,
      if_true, if_false]
    rfl
  have hlen : data.length / frameLength hp * frameLength hp ≤ (mysrand key s).stdin.length := by
    show _ ≤ s.stdin.length
    rw [hin]
    exact Nat.div_mul_le_self data.length (frameLength hp)
  have hwritten : recoded (cryptOptions keeps key) argv stream =
      some (true, headerBytes (outputHeader (cryptOptions keeps key) hp offset) ++ (note' ++
        (List.range (data.length / frameLength hp)).flatMap fun i =>
          cipher (keyOf hp (next^[i] (key.setWidth 64))).1
            (sampleOf (frameLength hp) i data))) := by
    rw [recoded, hrun, hloop, Option.map_some,
      cryptLoop_stdout (outputHeader (cryptOptions keeps key) hp offset) _ _ hlen, zipWith_keys,
      ← List.flatMap_def, ← List.append_assoc, ← hout, ← hin]
    rfl
  refine ⟨?_, fun data' => ?_⟩
  · rw [hrun, hloop, Option.map_some, cryptLoop_next]
    rfl
  · rw [writesData_iff hoffset hwritten, and_iff_right rfl]

end

theorem keyOf_next {hp : AudioHeader} (h : validHeader hp = true) (n : Nat) (seed : BitVec 64) :
    (fun next => (keyOf hp next).2)^[n] seed = randomNext^[n * hp.channels.toNat] seed := by
  have hstep : (fun next => (keyOf hp next).2) = randomNext^[hp.channels.toNat] := by
    rcases channels_cases h with hc | hc
    · simp only [keyOf_mono h hc, hc]
      rfl
    · simp only [keyOf_stereo h hc, hc]
      rfl
  rw [hstep, ← Function.iterate_mul, Nat.mul_comm]

-- The frames with one channel are always encrypted as they should be.
theorem alignedData_mono {hp : AudioHeader} (h : validHeader hp = true) (hmono : hp.channels = 1)
    (seed : BitVec 64) {data : List Byte} {n : Nat} (hlen : n * frameLength hp ≤ data.length) :
    ((List.range n).flatMap fun i =>
      cipher (keyOf hp ((fun next => (keyOf hp next).2)^[i] seed)).1
        (sampleOf (frameLength hp) i data)) =
      alignedData hp seed false n data := by
  obtain ⟨hsize, hlow, hhigh⟩ := bytes_bounds h
  have hframe : frameLength hp = (hp.encoding - 1).toNat := by
    rw [frameLength, hmono]
    exact Nat.one_mul _
  have hn : n * hp.channels.toNat = n := by
    rw [hmono]
    exact Nat.mul_one n
  rw [alignedData, hn, Lib.flatMap_range_eq_iff]
  · intro i hi
    have hi' : i * hp.channels.toNat = i := by
      rw [hmono]
      exact Nat.mul_one i
    have hsample := sampleOf_length hi hlen
    rw [hframe] at hsample ⊢
    have hcipher : cipher (random seed i &&& lowMask (hp.encoding - 1).toNat)
        (sampleOf (hp.encoding - 1).toNat i data) =
        sampleCipher (random seed i) (sampleOf (hp.encoding - 1).toNat i data) := by
      have hmask := @cipher_lowMask (random seed i)
        (sampleOf (hp.encoding - 1).toNat i data) (by omega)
      rwa [hsample] at hmask
    rw [keyOf_next h, hi', keyOf_mono h hmono]
    exact hcipher
  · intro i _
    rw [cipher_length, sampleCipher_length, hframe]

-- With two channels the frames decide.
theorem alignedData_stereo_iff {hp : AudioHeader} (h : validHeader hp = true)
    (hstereo : hp.channels = 2) (seed : BitVec 64) (swapped : Bool) {data : List Byte} {n : Nat}
    (hlen : n * frameLength hp ≤ data.length) :
    (alignedData hp seed swapped n data = (List.range n).flatMap fun i =>
      cipher (keyOf hp ((fun next => (keyOf hp next).2)^[i] seed)).1
        (sampleOf (frameLength hp) i data)) ↔
      ∀ i < n, cipher (pairKey (hp.encoding - 1).toNat (random seed (2 * i))
        (random seed (2 * i + 1)))
          (sampleOf (frameLength hp) i data) =
        sampleCipher (random seed (if swapped then 2 * i + 1 else 2 * i))
            (sampleOf (hp.encoding - 1).toNat 0 (sampleOf (frameLength hp) i data)) ++
          sampleCipher (random seed (if swapped then 2 * i else 2 * i + 1))
            (sampleOf (hp.encoding - 1).toNat 1 (sampleOf (frameLength hp) i data)) := by
  obtain ⟨hsize, hlow, hhigh⟩ := bytes_bounds h
  have hframe : frameLength hp = 2 * (hp.encoding - 1).toNat := by
    rw [frameLength, hstereo]
    rfl
  have hn : n * hp.channels.toNat = n * 2 := by rw [hstereo]; rfl
  have hplace (i : Nat) : place swapped (2 * i) = (if swapped then 2 * i + 1 else 2 * i) ∧
      place swapped (2 * i + 1) = if swapped then 2 * i else 2 * i + 1 := by
    cases swapped
    · exact ⟨rfl, rfl⟩
    · simp [place]
  have hkey (i : Nat) : (keyOf hp ((fun next => (keyOf hp next).2)^[i] seed)).1 =
      pairKey (hp.encoding - 1).toNat (random seed (2 * i)) (random seed (2 * i + 1)) := by
    have hi : i * hp.channels.toNat = 2 * i := by
      rw [hstereo, Nat.mul_comm]
      rfl
    rw [keyOf_next h, hi, keyOf_stereo h hstereo, random, random, Function.iterate_succ_apply']
  have hsample (i : Nat) (hi : i < n) := sampleOf_length hi hlen
  simp only [alignedData, hn, Lib.flatMap_range_two, hkey, (hplace _).1, (hplace _).2]
  have hpair (i : Nat) : sampleOf (hp.encoding - 1).toNat (2 * i) data =
        sampleOf (hp.encoding - 1).toNat 0 (sampleOf (frameLength hp) i data) ∧
      sampleOf (hp.encoding - 1).toNat (2 * i + 1) data =
        sampleOf (hp.encoding - 1).toNat 1 (sampleOf (frameLength hp) i data) := by
    rw [hframe]
    exact ⟨sampleOf_pair (hp.encoding - 1).toNat i Nat.two_pos data,
      sampleOf_pair (hp.encoding - 1).toNat i Nat.one_lt_two data⟩
  simp only [(hpair _).1, (hpair _).2]
  rw [Lib.flatMap_range_eq_iff]
  · exact forall₂_congr fun i _ => eq_comm
  · intro i hi
    have hone := hsample i hi
    have hhalf (k : Nat) (hk : k < 2) :=
      sampleOf_length hk (Nat.le_of_eq (hframe.symm.trans hone.symm))
    rw [List.length_append, sampleCipher_length, sampleCipher_length, cipher_length, hone,
      hhalf 0 (by decide), hhalf 1 (by decide), hframe]
    omega

theorem stereo_fits_iff {hp : AudioHeader} (h : validHeader hp = true) (hstereo : hp.channels = 2)
    (seed : BitVec 64) {data : List Byte}
    (hlen : data.length / frameLength hp * frameLength hp ≤ data.length) :
    (∃ swapped : Bool, ∀ i < data.length / frameLength hp,
      cipher (pairKey (hp.encoding - 1).toNat (random seed (2 * i)) (random seed (2 * i + 1)))
          (sampleOf (frameLength hp) i data) =
        sampleCipher (random seed (if swapped then 2 * i + 1 else 2 * i))
            (sampleOf (hp.encoding - 1).toNat 0 (sampleOf (frameLength hp) i data)) ++
          sampleCipher (random seed (if swapped then 2 * i else 2 * i + 1))
            (sampleOf (hp.encoding - 1).toNat 1 (sampleOf (frameLength hp) i data))) ↔
      KeystreamFits hp seed data := by
  have hframe : frameLength hp = 2 * (hp.encoding - 1).toNat := by
    rw [frameLength, hstereo]
    rfl
  have hone : hp.channels ≠ 1 := by
    rw [hstereo]
    decide
  have hsample (i : Nat) (hi : i < data.length / frameLength hp) := sampleOf_length hi hlen
  simp only [KeystreamFits, hone, false_or, Overlaid]
  generalize data.length / frameLength hp = n at *
  rcases encoding_cases h with he | he | he | he
  · have hbyte : (hp.encoding - 1).toNat = 1 := by rw [he]; rfl
    rw [hbyte] at hframe ⊢
    have hpair (first second r1 r2 : BitVec 32) (i : Nat) (hi : i < n) :=
      cipher_pairKey_one first second r1 r2 ((hsample i hi).trans hframe)
    constructor
    · rintro ⟨swapped, hall⟩
      refine Or.inr (Or.inl ⟨he, fun i hi => ?_⟩)
      obtain ⟨hfirst, hsecond⟩ := (hpair _ _ _ _ i hi).mp (hall i hi)
      cases swapped with
      | false => exact hfirst
      | true => exact hsecond.trans hfirst
    · intro hcondition
      refine ⟨false, fun i hi => (hpair _ _ _ _ i hi).mpr ⟨?_, rfl⟩⟩
      rcases hcondition with hthree | ⟨-, hzero⟩ | ⟨swapped, hall⟩
      · rw [he] at hthree
        exact absurd hthree (by decide)
      · exact hzero i hi
      · rw [he] at hall
        rcases hall i hi with ⟨hfour, -⟩ | ⟨hfive, -⟩
        · exact absurd hfour (by decide)
        · exact absurd hfive (by decide)
  · refine iff_of_true ⟨false, fun i hi => ?_⟩ (Or.inl he)
    have hbyte : (hp.encoding - 1).toNat = 2 := by rw [he]; rfl
    rw [hbyte] at hframe ⊢
    exact cipher_pairKey_two _ _ ((hsample i hi).trans hframe)
  · have hbyte : (hp.encoding - 1).toNat = 3 := by rw [he]; rfl
    rw [hbyte] at hframe ⊢
    refine (exists_congr fun swapped => forall₂_congr fun i hi =>
      cipher_pairKey_three _ _ _ _ ((hsample i hi).trans hframe)).trans ?_
    simp [he]
  · have hbyte : (hp.encoding - 1).toNat = 4 := by rw [he]; rfl
    rw [hbyte] at hframe ⊢
    refine (exists_congr fun swapped => forall₂_congr fun i hi =>
      cipher_pairKey_four _ _ _ _ ((hsample i hi).trans hframe)).trans ?_
    simp [he]

-- In the buffers the keystream is aligned exactly for the layouts with one channel or two
-- bytes, and where the values and the frames hide that the others overlap.
theorem keystreamAligned_iff (keeps : Bool) (key : BitVec 32) (argv : List (List Byte))
    {stream note data : List Byte} {hp : AudioHeader} (h : ValidStream stream hp note data)
    (hdata : data.length = hp.dataSize.toNat) :
    (recoded (cryptOptions keeps key) argv stream = none ↔
      ¬Inside (cryptOptions keeps key) argv note hp) ∧
    (Inside (cryptOptions keeps key) argv note hp →
      (KeystreamAligned keeps key argv stream data hp ↔
        KeystreamFits hp (key.setWidth 64) data)) := by
  refine ⟨recoded_eq_none_iff h.annotated, fun hinside => ?_⟩
  obtain ⟨hnext, hwrites⟩ := recode_cryptOptions h hdata keeps key hinside
  have hlen : data.length / frameLength hp * frameLength hp ≤ data.length :=
    Nat.div_mul_le_self _ _
  have hstate : (recode (cryptOptions keeps key) argv (.start stream)).map (·.2.next) =
      some (randomNext^[data.length / frameLength hp * hp.channels.toNat] (key.setWidth 64)) :=
    hnext.trans (congrArg some (keyOf_next h.valid _ _))
  simp only [KeystreamAligned, hwrites, hstate, and_true]
  rcases channels_cases h.valid with hmono | hstereo
  · refine iff_of_true ⟨false, fun hfalse => absurd hfalse Bool.false_ne_true, ?_⟩ (Or.inl hmono)
    exact (alignedData_mono h.valid hmono _ hlen).symm
  · simp only [hstereo, implies_true, true_and]
    rw [exists_congr fun swapped => alignedData_stereo_iff h.valid hstereo (key.setWidth 64)
      swapped hlen]
    exact stereo_fits_iff h.valid hstereo (key.setWidth 64) hlen

-- Without -p the annotation must fit, and nothing else can leave the buffers.
theorem keystreamAligned_of_stereo16 :
    let argv := [Lib.ascii "audible", Lib.ascii "-c", Lib.ascii "-k", Lib.ascii "DEADBEEF"]
    let data : List Byte := [1, 2, 3, 4, 5, 6, 7, 8]
    Inside (cryptOptions false 0xDEADBEEF) argv [] (stereoHeader 3 8) ∧
      KeystreamAligned false 0xDEADBEEF argv (headerBytes (stereoHeader 3 8) ++ data) data
        (stereoHeader 3 8) := by
  intro argv data
  have hvalid : ValidStream (headerBytes (stereoHeader 3 8) ++ data) (stereoHeader 3 8) [] data :=
    ⟨by decide +kernel, by decide, by decide, by decide⟩
  have hinside : Inside (cryptOptions false 0xDEADBEEF) argv [] (stereoHeader 3 8) :=
    ⟨fun _ => ⟨by decide, by decide, by decide⟩, fun hd => absurd (by decide) hd⟩
  obtain ⟨-, hiff⟩ := keystreamAligned_iff false 0xDEADBEEF argv hvalid (by decide)
  exact ⟨hinside, (hiff hinside).mpr (Or.inr (Or.inl rfl))⟩

-- The first sample of each frame with two channels of 8 bits is written as it is.
theorem not_keystreamAligned_of_stereo8 :
    let argv := [Lib.ascii "audible", Lib.ascii "-c", Lib.ascii "-k", Lib.ascii "DEADBEEF",
      Lib.ascii "-p"]
    let stream := headerBytes (stereoHeader 2 4) ++ [1, 2, 3, 4]
    validargs argv = (true, cryptOptions true 0xDEADBEEF) ∧
      ValidStream stream (stereoHeader 2 4) [] [1, 2, 3, 4] ∧
      Inside (cryptOptions true 0xDEADBEEF) argv [] (stereoHeader 2 4) ∧
      WritesData (cryptOptions true 0xDEADBEEF) argv stream (stereoHeader 2 4) [1, 226, 3, 186] ∧
      ¬KeystreamAligned true 0xDEADBEEF argv stream [1, 2, 3, 4] (stereoHeader 2 4) := by
  intro argv stream
  have hout : recoded (cryptOptions true 0xDEADBEEF) argv stream = some (true,
      headerBytes (outputHeader (cryptOptions true 0xDEADBEEF) (stereoHeader 2 4) 24) ++
        ([] ++ [1, 226, 3, 186])) := by
    decide +kernel
  have hwrites (data : List Byte) := @writesData_iff _ _ _ _ _ _ _ data _ rfl hout
  refine ⟨by decide +kernel, ⟨by decide +kernel, by decide, by decide, by decide⟩,
    ⟨fun hprepends => absurd hprepends (by decide), fun hd => absurd (by decide) hd⟩, ?_, ?_⟩
  · exact (hwrites _).mpr ⟨rfl, rfl⟩
  · rintro ⟨⟨swapped, -, haligned⟩, -⟩
    have hsame := ((hwrites _).mp haligned).2
    cases swapped
    · exact absurd hsame (by decide +kernel)
    · exact absurd hsame (by decide +kernel)

end CSE320.Audible
