import CSE320.Audible.Stream

namespace CSE320.Audible

open Lib (Byte)

def optionsOfKey (key : BitVec 32) : BitVec 64 := optionC ||| optionP ||| key.setWidth 64

def framesOf (size : Nat) : Nat → List Byte → List (List Byte)
  | 0, _ => []
  | n + 1, data => data.take size :: framesOf size n (data.drop size)

-- The key of a frame and the state of myrand behind it.
def keyOf (hp : AudioHeader) (next : BitVec 64) : BitVec 32 × BitVec 64 :=
  let result := keyFrame hp { Process.start [] with next }
  (result.1, result.2.next)

def keys (hp : AudioHeader) : Nat → BitVec 64 → List (BitVec 32)
  | 0, _ => []
  | n + 1, next => (keyOf hp next).1 :: keys hp n (keyOf hp next).2

-- The bytes that are written for a frame.
def cipher (key : BitVec 32) (frame : List Byte) : List Byte :=
  frameBytes frame.length (key ^^^ pack 0 frame)

-- A call of myrand32 reads and changes the state of the generator only.
theorem myrand32_eq : ∃ f : BitVec 64 → BitVec 32 × BitVec 64, ∀ s : Process,
    myrand32 s = ((f s.next).1, { s with next := (f s.next).2 }) := by
  refine ⟨fun next => ((myrand32 { Process.start [] with next }).1,
    (myrand32 { Process.start [] with next }).2.next), fun s => rfl⟩

theorem keyFrame_eq (hp : AudioHeader) (s : Process) :
    keyFrame hp s = ((keyOf hp s.next).1, { s with next := (keyOf hp s.next).2 }) := by
  obtain ⟨f, hf⟩ := myrand32_eq
  unfold keyOf keyFrame
  simp only [hf]
  split
  · split <;> rfl
  · split
    · split <;> rfl
    · split
      · split <;> rfl
      · split <;> rfl

@[simp] theorem frameBytes_length (size : Nat) (v : BitVec 32) :
    (frameBytes size v).length = size := by
  induction size with
  | zero => rfl
  | succ i ih => simp [frameBytes, ih]

theorem frameBytes_getD (size : Nat) (v : BitVec 32) {p : Nat} (hp : p < size) :
    (frameBytes size v).getD p 0 = Lib.byte v ((size - 1 - p) % 4) := by
  induction size generalizing p with
  | zero => omega
  | succ i ih =>
      cases p with
      | zero => rfl
      | succ p =>
          have hsub : i + 1 - 1 - (p + 1) = i - 1 - p := by omega
          rw [frameBytes, hsub, List.getD_cons_succ, ih (by omega)]

theorem byte_xor (x y : BitVec 32) (j : Nat) :
    Lib.byte (x ^^^ y) j = Lib.byte x j ^^^ Lib.byte y j := by
  unfold Lib.byte
  ext i hi
  simp

-- Only the bytes that a frame has are written.
theorem frameBytes_congr {size : Nat} {v v' : BitVec 32}
    (h : ∀ j < 4, j < size → Lib.byte v j = Lib.byte v' j) :
    frameBytes size v = frameBytes size v' := by
  induction size with
  | zero => rfl
  | succ i ih =>
      have hmod : i % 4 < 4 := Nat.mod_lt i (by decide)
      have hle : i % 4 ≤ i := Nat.mod_le i 4
      rw [frameBytes, frameBytes, ih fun j hj hlt => h j hj (by omega), h (i % 4) hmod (by omega)]

-- What an earlier frame has left in the buffer is not written.
theorem cipher_eq (key v : BitVec 32) (frame : List Byte) :
    frameBytes frame.length (key ^^^ pack v frame) = cipher key frame := by
  refine frameBytes_congr fun j hj hlen => ?_
  rw [byte_xor, byte_xor, byte_pack v frame hj hlen, byte_pack 0 frame hj hlen]

@[simp] theorem cipher_length (key : BitVec 32) (frame : List Byte) :
    (cipher key frame).length = frame.length := by
  simp [cipher]

-- The key cancels. What is left is the frame as the buffer has kept it.
theorem cipher_cipher (key : BitVec 32) (frame : List Byte) :
    cipher key (cipher key frame) = frameBytes frame.length (pack 0 frame) := by
  have hlen := cipher_length key frame
  rw [cipher, hlen]
  refine frameBytes_congr fun j hj hlt => ?_
  have hindex : frame.length - 1 - (frame.length - 1 - j) = j := by omega
  rw [byte_xor, byte_pack 0 (cipher key frame) hj (by omega), hlen, cipher,
    frameBytes_getD _ _ (by omega), hindex, Nat.mod_eq_of_lt hj, byte_xor, ← BitVec.xor_assoc,
    BitVec.xor_self, BitVec.zero_xor]

theorem ext_getD_iff {l l' : List Byte} (hlen : l.length = l'.length) :
    l = l' ↔ ∀ p < l.length, l.getD p 0 = l'.getD p 0 := by
  constructor
  · rintro rfl p _
    rfl
  · intro h
    refine List.ext_getElem hlen fun p hp hp' => ?_
    have hp := h p hp
    rwa [List.getD_eq_getElem _ _ (by omega), List.getD_eq_getElem _ _ hp'] at hp

-- The buffer has four bytes, and the bytes of a longer frame are taken from it again.
theorem frameBytes_pack_iff {frame : List Byte} (hlen : frame.length ≤ 8) :
    frameBytes frame.length (pack 0 frame) = frame ↔
      frame.take (frame.length - 4) = frame.drop 4 := by
  have hbyte (p : Nat) (hp : p < frame.length) : (frameBytes frame.length (pack 0 frame)).getD p 0 =
      if p + 4 < frame.length then frame.getD (p + 4) 0 else frame.getD p 0 := by
    have hmod : (frame.length - 1 - p) % 4 < 4 := Nat.mod_lt _ (by decide)
    have hle : (frame.length - 1 - p) % 4 ≤ frame.length - 1 - p := Nat.mod_le _ 4
    rw [frameBytes_getD _ _ hp, byte_pack 0 frame hmod (by omega)]
    split
    · congr 1
      omega
    · congr 1
      omega
  have htake (p : Nat) (hp : p + 4 < frame.length) :
      (frame.take (frame.length - 4)).getD p 0 = frame.getD p 0 ∧
      (frame.drop 4).getD p 0 = frame.getD (p + 4) 0 := by
    simp only [List.getD_eq_getElem?_getD, List.getElem?_take, List.getElem?_drop]
    rw [if_pos (by omega), Nat.add_comm]
    exact ⟨rfl, rfl⟩
  have hcut : (frame.take (frame.length - 4)).length = (frame.drop 4).length := by
    rw [List.length_take, List.length_drop]
    omega
  rw [ext_getD_iff (frameBytes_length _ _), ext_getD_iff hcut, frameBytes_length]
  constructor
  · intro h p hp
    rw [List.length_take] at hp
    have hshort : p + 4 < frame.length := by omega
    rw [(htake p hshort).1, (htake p hshort).2, ← h p (by omega), hbyte p (by omega), if_pos hshort]
  · intro h p hp
    rw [hbyte p hp]
    split
    · rename_i hshort
      have hsame := h p (by rw [List.length_take]; omega)
      rw [(htake p hshort).1, (htake p hshort).2] at hsame
      exact hsame.symm
    · rfl

section

variable (hp : AudioHeader)

-- One round of the loop.
theorem cryptLoop_succ (n : Nat) (s : Process) : ∃ s', cryptLoop hp (n + 1) s = cryptLoop hp n s' ∧
    s'.stdin = s.stdin.drop (frameLength hp) ∧ s'.next = (keyOf hp s.next).2 ∧
    (frameLength hp ≤ s.stdin.length →
      s'.stdout = s.stdout ++ cipher (keyOf hp s.next).1 (s.stdin.take (frameLength hp))) := by
  obtain ⟨-, hstdin, hstdout, hnext, hframe⟩ := readFrameLoop_spec inputFrame (frameLength hp) s
  have hread : readInputFrame hp s = readFrameLoop inputFrame (frameLength hp) s := rfl
  generalize readFrameLoop inputFrame (frameLength hp) s = result at *
  obtain ⟨ok, read⟩ := result
  have hinput (key : BitVec 32) (next : BitVec 64) :
      loadInt inputFrame (storeInt outputFrame key { read with next }) = loadInt inputFrame read :=
    loadInt_storeInt_of_ne inputFrame outputFrame key { read with next } (by decide)
  rw [cryptLoop, hread]
  simp only [keyFrame_eq, loadInt_storeInt, writeFrameOf, writeFrame, writeFrameLoop_eq,
    hinput] at *
  refine ⟨_, rfl, hstdin, ?_, fun hlen => ?_⟩
  · rw [← hnext]
    rfl
  · have htake : (s.stdin.take (frameLength hp)).length = frameLength hp := by
      rw [List.length_take]
      omega
    have hcipher := cipher_eq (keyOf hp s.next).1 (loadInt inputFrame s)
      (s.stdin.take (frameLength hp))
    rw [htake, ← hframe] at hcipher
    rw [← hcipher, ← hnext, ← hstdout]
    rfl

-- The frames are taken from the input one by one, each with its own key.
theorem cryptLoop_stdout (n : Nat) (s : Process) (hlen : n * frameLength hp ≤ s.stdin.length) :
    (cryptLoop hp n s).stdout =
      s.stdout ++
        (List.zipWith cipher (keys hp n s.next) (framesOf (frameLength hp) n s.stdin)).flatten := by
  induction n generalizing s with
  | zero => simp [cryptLoop, keys]
  | succ n ih =>
      rw [Nat.succ_mul] at hlen
      obtain ⟨s', hloop, hstdin, hnext, hstdout⟩ := cryptLoop_succ hp n s
      have hrest := ih s' (by rw [hstdin, List.length_drop]; omega)
      rw [hloop, hrest, hstdout (by omega), hstdin, hnext, keys, framesOf]
      simp

end

theorem optionsOfKey_spec (key : BitVec 32) :
    optionsOfKey key &&& optionU = 0 ∧ optionsOfKey key &&& optionD = 0 ∧
      optionsOfKey key &&& optionC ≠ 0 ∧
      optionsOfKey key >>> 59 &&& 1 ≠ 0 ∧ (optionsOfKey key).setWidth 32 = key := by
  have hset : optionsOfKey key &&& optionC = optionC ∧ optionsOfKey key >>> 59 &&& 1 = 1 := by
    unfold optionsOfKey optionC optionP
    constructor
    all_goals
      ext i hi
      interval_cases i <;> simp
  unfold optionsOfKey optionU optionD optionC optionP at *
  refine ⟨?_, ?_, ?_, ?_, ?_⟩
  · ext i hi
    interval_cases i <;> simp
  · ext i hi
    interval_cases i <;> simp
  · rw [hset.1]
    decide
  · rw [hset.2]
    decide
  · ext i hi
    interval_cases i <;> simp

theorem memoryBytes_storeBytes (addr : Nat) (str : List Byte) (s : Process) :
    memoryBytes (storeBytes addr str s) addr str.length = str := by
  refine List.ext_getElem (by simp [memoryBytes]) fun i hi hi' => ?_
  simp only [memoryBytes, List.getElem_map, List.getElem_range, storeBytes_memory]
  rw [if_pos (by omega), Nat.add_sub_cancel_left, List.getD_eq_getElem _ _ hi']

-- What is written for a valid stream.
theorem recoded_crypt {stream note data : List Byte} {hp : AudioHeader}
    (h : ValidStream stream hp note data) (hdata : data.length = hp.dataSize.toNat)
    (key : BitVec 32) (argv : List (List Byte)) :
    recoded (optionsOfKey key) argv stream = some (true, headerBytes hp ++ (note ++
      (List.zipWith cipher (keys hp (data.length / frameLength hp) (key.setWidth 64))
        (framesOf (frameLength hp) (data.length / frameLength hp) data)).flatten)) := by
  obtain ⟨hu, hd, hc, hp59, hkey⟩ := optionsOfKey_spec key
  obtain ⟨hsize, hpos, -⟩ := frameSize_eq h.valid
  obtain ⟨hlen, -, -⟩ := h.annotation_spec
  have hcount : (hp.dataSize / frameSize hp).toNat = data.length / frameLength hp := by
    rw [BitVec.toNat_udiv, hsize, hdata]
  have houtput (factor : BitVec 32) : outputSize (optionsOfKey key) factor hp = hp.dataSize := by
    simp [outputSize, hu, hd]
  have hroom : note.length ≤ annotationMax := Nat.le_succ_of_le hlen
  obtain ⟨hin, hout, -⟩ := storeBytes_with inputAnnotation note (.start data)
  rw [recoded, recode_eq h]
  unfold transform recodeData
  simp only [houtput, hp59, hu, hd, hc, hkey, hcount, ← h.offset, writeHeader_eq,
    writeAnnotation_eq, if_pos hroom, ne_eq, not_true_eq_false, not_false_iff, if_true, if_false,
    Option.bind_eq_bind, Option.bind_some, Option.map_some]
  congr 2
  show (cryptLoop hp _
    (mysrand key (Process.write (memoryBytes (storeBytes inputAnnotation note (.start data))
    inputAnnotation note.length) (Process.write (headerBytes hp) _)))).stdout = _
  rw [cryptLoop_stdout, memoryBytes_storeBytes, write_write]
  · show (storeBytes inputAnnotation note (.start data)).stdout ++ _ ++
      (List.zipWith cipher (keys hp _ (key.setWidth 64)) (framesOf _ _
        (storeBytes inputAnnotation note (.start data)).stdin)).flatten = _
    rw [hin, hout]
    simp [Process.start]
  · show _ ≤ (storeBytes inputAnnotation note (.start data)).stdin.length
    rw [hin]
    exact Nat.div_mul_le_self data.length (frameLength hp)

section

variable {size : Nat}

theorem framesOf_length {n : Nat} {data : List Byte} (hlen : n * size ≤ data.length) :
    ∀ frame ∈ framesOf size n data, frame.length = size := by
  induction n generalizing data with
  | zero => simp [framesOf]
  | succ n ih =>
      rw [Nat.succ_mul] at hlen
      intro frame hframe
      rcases List.mem_cons.mp hframe with rfl | hframe
      · rw [List.length_take]
        omega
      · exact ih (by rw [List.length_drop]; omega) frame hframe

theorem framesOf_flatten (n : Nat) (data : List Byte) :
    (framesOf size n data).flatten = data.take (n * size) := by
  induction n generalizing data with
  | zero => simp [framesOf]
  | succ n ih =>
      rw [framesOf, List.flatten_cons, ih, Nat.succ_mul, Nat.add_comm, List.take_add]

theorem framesOf_of_flatten {frames : List (List Byte)}
    (h : ∀ frame ∈ frames, frame.length = size) :
    framesOf size frames.length frames.flatten = frames := by
  induction frames with
  | nil => rfl
  | cons frame frames ih =>
      have hframe := h frame List.mem_cons_self
      rw [List.length_cons, framesOf, List.flatten_cons, List.take_left' hframe,
        List.drop_left' hframe, ih fun f hf => h f (List.mem_cons_of_mem frame hf)]

theorem length_flatten_of {frames : List (List Byte)} (h : ∀ frame ∈ frames, frame.length = size) :
    frames.flatten.length = frames.length * size := by
  induction frames with
  | nil => simp
  | cons frame frames ih =>
      rw [List.flatten_cons, List.length_append, List.length_cons, Nat.succ_mul,
        h frame List.mem_cons_self, ih fun f hf => h f (List.mem_cons_of_mem frame hf),
        Nat.add_comm]

theorem flatten_map_eq_iff {frames : List (List Byte)} {f : List Byte → List Byte}
    (h : ∀ frame ∈ frames, (f frame).length = frame.length) :
    (frames.map f).flatten = frames.flatten ↔ ∀ frame ∈ frames, f frame = frame := by
  induction frames with
  | nil => simp
  | cons frame frames ih =>
      rw [List.map_cons, List.flatten_cons, List.flatten_cons, List.forall_mem_cons,
        ← ih fun g hg => h g (List.mem_cons_of_mem frame hg)]
      constructor
      · exact fun heq => List.append_inj heq (h frame List.mem_cons_self)
      · rintro ⟨hframe, hrest⟩
        rw [hframe, hrest]

end

@[simp] theorem keys_length (hp : AudioHeader) (n : Nat) (next : BitVec 64) :
    (keys hp n next).length = n := by
  induction n generalizing next with
  | zero => rfl
  | succ n ih => simp [keys, ih]

@[simp] theorem framesLength (size n : Nat) (data : List Byte) :
    (framesOf size n data).length = n := by
  induction n generalizing data with
  | zero => rfl
  | succ n ih => simp [framesOf, ih]

theorem zipWith_cipher_twice {keys : List (BitVec 32)} {frames : List (List Byte)}
    (h : keys.length = frames.length) :
    List.zipWith cipher keys (List.zipWith cipher keys frames) =
      frames.map fun frame => frameBytes frame.length (pack 0 frame) := by
  induction keys generalizing frames with
  | nil =>
      obtain rfl : frames = [] := List.length_eq_zero_iff.mp h.symm
      rfl
  | cons key keys ih =>
      cases frames with
      | nil => cases h
      | cons frame frames =>
          rw [List.zipWith_cons_cons, List.zipWith_cons_cons, List.map_cons, cipher_cipher,
            ih (Nat.succ.inj h)]

-- Encryption with the same key twice gives the stream back exactly when the bytes
-- of each frame that do not fit into the buffer are equal to the last ones.
theorem crypt_twice_iff (key : BitVec 32) (argv argv' : List (List Byte))
    {stream note data : List Byte} {hp : AudioHeader} (h : ValidStream stream hp note data)
    (hdata : data.length = hp.dataSize.toNat) :
    (∃ first, recoded (optionsOfKey key) argv stream = some (true, first) ∧
      recoded (optionsOfKey key) argv' first = some (true, stream)) ↔
      ∀ frame ∈ framesOf (frameLength hp) (data.length / frameLength hp) data,
        frame.take (frame.length - 4) = frame.drop 4 := by
  obtain ⟨hsize, -, hmax⟩ := frameSize_eq h.valid
  have hout := recoded_crypt h hdata key argv
  have hdvd : data.length / frameLength hp * frameLength hp = data.length := by
    refine Nat.div_mul_cancel ?_
    rw [hdata, ← hsize]
    exact h.frames
  have hlengths := framesOf_length (Nat.le_of_eq hdvd)
  have hflatten : (framesOf (frameLength hp) (data.length / frameLength hp) data).flatten =
      data := by
    rw [framesOf_flatten, hdvd, List.take_length]
  have hkeys : (keys hp (data.length / frameLength hp) (key.setWidth 64)).length =
      (framesOf (frameLength hp) (data.length / frameLength hp) data).length := by
    simp
  have hcount : (framesOf (frameLength hp) (data.length / frameLength hp) data).length =
      data.length / frameLength hp := framesLength ..
  generalize framesOf (frameLength hp) (data.length / frameLength hp) data = frames at *
  have hfirst :
      ∀ frame ∈ List.zipWith cipher (keys hp (data.length / frameLength hp) (key.setWidth 64)) frames,
        frame.length = frameLength hp := by
    intro frame hframe
    obtain ⟨i, hi, rfl⟩ := List.getElem_of_mem hframe
    rw [List.getElem_zipWith, cipher_length]
    exact hlengths _ (List.getElem_mem _)
  have hnumber :
      (List.zipWith cipher (keys hp (data.length / frameLength hp) (key.setWidth 64))
      frames).length =
      data.length / frameLength hp := by
    rw [List.length_zipWith, hkeys, hcount, Nat.min_self]
  have hsame :
      (List.zipWith cipher (keys hp (data.length / frameLength hp) (key.setWidth 64))
      frames).flatten.length =
      data.length := by
    rw [length_flatten_of hfirst, hnumber, hdvd]
  have hback := framesOf_of_flatten hfirst
  have hout' := recoded_crypt (h.with_data _) (hsame.trans hdata) key argv'
  rw [hnumber] at hback
  rw [hsame, hback, zipWith_cipher_twice hkeys] at hout'
  simp only [hout, Option.some_inj, Prod.mk.injEq, true_and, exists_eq_left', hout']
  rw [h.eq, List.append_right_inj, List.append_right_inj, ← hflatten,
    flatten_map_eq_iff fun _ _ => frameBytes_length _ _]
  refine forall₂_congr fun frame hframe => frameBytes_pack_iff ?_
  rw [hlengths frame hframe]
  exact hmax

def monoHeader (encoding dataSize : BitVec 32) : AudioHeader :=
  ⟨0x2e736e64, 24, dataSize, encoding, 8000, 1⟩

def stereoHeader (encoding dataSize : BitVec 32) : AudioHeader :=
  ⟨0x2e736e64, 24, dataSize, encoding, 8000, 2⟩

theorem crypt_twice_of_stereo16 :
    let stream := headerBytes (stereoHeader 3 8) ++ [1, 2, 3, 4, 5, 6, 7, 8]
    ∃ first, recoded (optionsOfKey 0xDEADBEEF) [] stream = some (true, first) ∧
      recoded (optionsOfKey 0xDEADBEEF) [] first = some (true, stream) := by
  have hvalid : ValidStream (headerBytes (stereoHeader 3 8) ++ [1, 2, 3, 4, 5, 6, 7, 8])
      (stereoHeader 3 8) []
      [1, 2, 3, 4, 5, 6, 7, 8] := by
    refine ⟨by decide +kernel, by decide, by decide, by decide⟩
  exact (crypt_twice_iff 0xDEADBEEF [] [] hvalid (by decide)).mpr (by decide)

-- The first two of the six bytes of a frame with 24 bits for each channel are lost.
theorem not_crypt_twice_of_stereo24 :
    let stream := headerBytes (stereoHeader 4 6) ++ [1, 2, 3, 4, 5, 6]
    ValidStream stream (stereoHeader 4 6) [] [1, 2, 3, 4, 5, 6] ∧
      ((recoded (optionsOfKey 0xDEADBEEF) [] stream).bind fun first =>
        recoded (optionsOfKey 0xDEADBEEF) [] first.2) =
          some (true, headerBytes (stereoHeader 4 6) ++ [5, 6, 3, 4, 5, 6]) ∧
      ¬∃ first, recoded (optionsOfKey 0xDEADBEEF) [] stream = some (true, first) ∧
        recoded (optionsOfKey 0xDEADBEEF) [] first = some (true, stream) := by
  intro stream
  have hout : ((recoded (optionsOfKey 0xDEADBEEF) [] stream).bind fun first =>
      recoded (optionsOfKey 0xDEADBEEF) [] first.2) =
        some (true, headerBytes (stereoHeader 4 6) ++ [5, 6, 3, 4, 5, 6]) := by
    decide +kernel
  refine ⟨⟨by decide +kernel, by decide, by decide, by decide⟩, hout, ?_⟩
  rintro ⟨first, hfirst, hsecond⟩
  rw [hfirst, Option.bind_some, hsecond] at hout
  exact absurd hout (by decide +kernel)

end CSE320.Audible
