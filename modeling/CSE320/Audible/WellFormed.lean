import CSE320.Audible.Output

namespace CSE320.Audible

open Lib (Byte)

-- A header that is accepted, an annotation of the size that it says with a NUL at
-- its end, and data of the size that it says.
def WellFormed (stream : List Byte) : Prop :=
  ∃ hp note data, readHeader stream = some (hp, note ++ data) ∧
    hp.dataOffset.toNat = note.length + 24 ∧ (note = [] ∨ note.getLast? = some 0) ∧
    data.length = hp.dataSize.toNat

def factorOf (options : BitVec 64) : Nat := ((options >>> 48) &&& 0x03FF).toNat + 1

-- The number of frames that are read, and the size in the header, for -u.
def speedUpSize (factor : Nat) (hp : AudioHeader) : Nat :=
  (hp.dataSize.toNat / frameLength hp + 1) * factor % 2 ^ 32

-- The size in the header for -d.
def slowDownSize (factor : Nat) (hp : AudioHeader) : Nat :=
  (hp.dataSize.toNat / factor + (2 ^ 32 - 1)) % 2 ^ 32 * frameLength hp % 2 ^ 32

theorem wellFormed_headerBytes {hp : AudioHeader} {note data : List Byte}
    (hvalid : validHeader hp = true) (hoffset : hp.dataOffset.toNat = note.length + 24) :
    WellFormed (headerBytes hp ++ (note ++ data)) ↔
      (note = [] ∨ note.getLast? = some 0) ∧ data.length = hp.dataSize.toNat := by
  have hread : readHeader (headerBytes hp ++ (note ++ data)) = some (hp, note ++ data) :=
    readHeader_eq_some.mpr ⟨hvalid, rfl⟩
  constructor
  · rintro ⟨hp', note', data', hread', hoffset', hend, hsize⟩
    rw [hread] at hread'
    obtain ⟨rfl, happend⟩ := Prod.mk.inj (Option.some.inj hread')
    obtain ⟨rfl, rfl⟩ := List.append_inj happend (by omega)
    exact ⟨hend, hsize⟩
  · rintro ⟨hend, hsize⟩
    exact ⟨hp, note, data, hread, hoffset, hend, hsize⟩

-- The process writes that many more bytes.
def Writes (s s' : Process) (count : Nat) : Prop :=
  ∃ bytes, s'.stdout = s.stdout ++ bytes ∧ bytes.length = count

theorem Writes.trans {s s' s'' : Process} {m n : Nat} (h : Writes s s' m) (h' : Writes s' s'' n) :
    Writes s s'' (m + n) := by
  obtain ⟨bytes, hout, rfl⟩ := h
  obtain ⟨bytes', hout', rfl⟩ := h'
  exact ⟨bytes ++ bytes', by rw [hout', hout, List.append_assoc], List.length_append⟩

theorem Writes.of_eq {s s' : Process} (h : s'.stdout = s.stdout) : Writes s s' 0 :=
  ⟨[], by simp [h], rfl⟩

theorem writes_writeFrame (fp channels bytesPerSample : Nat) (s : Process) :
    Writes s (writeFrame fp channels bytesPerSample s) (channels * bytesPerSample) ∧
      (writeFrame fp channels bytesPerSample s).stdin = s.stdin := by
  rw [writeFrame, writeFrameLoop_eq]
  exact ⟨⟨_, rfl, frameBytes_length _ _⟩, rfl⟩

theorem readFrame_io (fp channels bytesPerSample : Nat) (s : Process) :
    (readFrame fp channels bytesPerSample s).2.stdout = s.stdout ∧
      (readFrame fp channels bytesPerSample s).2.stdin = s.stdin.drop (channels * bytesPerSample) ∧
      (readFrame fp channels bytesPerSample s).1 =
        decide (channels * bytesPerSample ≤ s.stdin.length) := by
  obtain ⟨hok, hin, hout, -, -⟩ := readFrameLoop_spec fp (channels * bytesPerSample) s
  exact ⟨hout, hin, hok⟩

-- The number of multiples of the factor below a number.
def multiples (factor n : Nat) : Nat := (n + factor - 1) / factor

theorem multiples_succ {factor : Nat} (hpos : 0 < factor) (n : Nat) :
    multiples factor (n + 1) = multiples factor n + if n % factor = 0 then 1 else 0 := by
  have hsucc : n + 1 + factor - 1 = n + factor := by omega
  have hpred : n + factor - 1 = n + (factor - 1) := by omega
  have hless : factor - 1 < factor := by omega
  rw [multiples, multiples, hsucc, hpred, Nat.add_div_right n hpos, Nat.add_div hpos,
    Nat.div_eq_of_lt hless, Nat.mod_eq_of_lt hless]
  generalize n % factor = r
  split <;> split <;> omega

theorem writes_speedUpLoop (hp : AudioHeader) {factor : BitVec 32} (hpos : 0 < factor.toNat)
    (n i : Nat) (s : Process) :
    Writes s (speedUpLoop hp factor n i s)
      (frameLength hp * (multiples factor.toNat (i + n) - multiples factor.toNat i)) := by
  induction n generalizing i s with
  | zero => simpa [speedUpLoop] using Writes.of_eq (s := s) rfl
  | succ n ih =>
      obtain ⟨hout, -, -⟩ := readFrame_io inputFrame hp.channels.toNat (hp.encoding - 1).toNat s
      have hrest := ih (i + 1)
      have hmono : multiples factor.toNat (i + 1) ≤ multiples factor.toNat (i + 1 + n) := by
        exact Nat.div_le_div_right (by omega)
      have hstep := multiples_succ hpos i
      have hindex : i + (n + 1) = i + 1 + n := by omega
      rw [speedUpLoop, hindex]
      simp only
      split
      · rename_i hzero
        obtain ⟨hwrite, -⟩ := writes_writeFrame inputFrame hp.channels.toNat (hp.encoding - 1).toNat
          (readInputFrame hp s).2
        have htotal := ((Writes.of_eq hout).trans hwrite).trans (hrest _)
        rw [if_pos hzero] at hstep
        have hmore : multiples factor.toNat (i + 1 + n) - multiples factor.toNat i =
            1 + (multiples factor.toNat (i + 1 + n) - multiples factor.toNat (i + 1)) := by omega
        rw [hmore, Nat.mul_add, Nat.mul_one]
        rw [Nat.zero_add] at htotal
        exact htotal
      · rename_i hzero
        have htotal := (Writes.of_eq hout).trans (hrest (readInputFrame hp s).2)
        have hsame : multiples factor.toNat (i + 1) = multiples factor.toNat i := by
          simpa [hzero] using hstep
        rw [Nat.zero_add, hsame] at htotal
        exact htotal

theorem writes_cryptLoop (hp : AudioHeader) (n : Nat) (s : Process) :
    Writes s (cryptLoop hp n s) (frameLength hp * n) := by
  induction n generalizing s with
  | zero => exact Writes.of_eq rfl
  | succ n ih =>
      obtain ⟨hout, -, -⟩ := readFrame_io inputFrame hp.channels.toNat (hp.encoding - 1).toNat s
      have hread : readInputFrame hp s =
          readFrame inputFrame hp.channels.toNat (hp.encoding - 1).toNat s := rfl
      rw [cryptLoop, hread]
      generalize readFrame inputFrame hp.channels.toNat (hp.encoding - 1).toNat s = result at *
      obtain ⟨ok, read⟩ := result
      simp only [keyFrame_eq]
      generalize hmixed : storeInt outputFrame _ (storeInt outputFrame _ _) = mixed
      have hstore : Writes s mixed 0 := by
        refine Writes.of_eq ?_
        rw [← hmixed, storeInt_stdout, storeInt_stdout]
        exact hout
      obtain ⟨hwrite, -⟩ :=
        writes_writeFrame outputFrame hp.channels.toNat (hp.encoding - 1).toNat mixed
      have htotal := (hstore.trans hwrite).trans (ih (writeFrameOf outputFrame hp mixed))
      rw [Nat.zero_add, ← frameLength, Nat.add_comm, ← Nat.mul_succ] at htotal
      exact htotal

-- The bytes that the loops write are as many as the header says. With -d that is the first
-- frame alone.
def DataAgrees (options : BitVec 64) (hp : AudioHeader) : Prop :=
  let factor := factorOf options
  if options &&& optionU ≠ 0 then
    frameLength hp * multiples factor (speedUpSize factor hp / factor) = speedUpSize factor hp
  else if options &&& optionD ≠ 0 then
    hp.channels.toNat * factor = slowDownSize factor hp
  else
    True

theorem factor_toNat (options : BitVec 64) :
    (((options >>> 48) &&& 0x03FF).setWidth 32 + 1).toNat = factorOf options ∧
      0 < factorOf options ∧
      factorOf options ≤ 1024 := by
  have hlow : ((options >>> 48) &&& 0x03FF).toNat ≤ 1023 := by
    rw [BitVec.toNat_and]
    exact Nat.and_le_right
  unfold factorOf
  refine ⟨?_, by omega, by omega⟩
  rw [BitVec.toNat_add, BitVec.toNat_setWidth]
  show (_ % 2 ^ 32 + 1) % 2 ^ 32 = _
  omega

section

variable {hp : AudioHeader} (hvalid : validHeader hp = true) {options : BitVec 64}
  {factor : BitVec 32} (hfactor : factor.toNat = factorOf options)

include hvalid hfactor

theorem outputSize_up (hu : options &&& optionU ≠ 0) :
    (outputSize options factor hp).toNat = speedUpSize (factorOf options) hp := by
  rw [outputSize, if_pos hu, BitVec.toNat_mul, BitVec.toNat_add, BitVec.toNat_udiv,
    (frameSize_eq hvalid).1, hfactor, speedUpSize]
  exact Nat.mod_mul_mod _ _ _

theorem outputSize_down (hu : options &&& optionU = 0) (hd : options &&& optionD ≠ 0) :
    (outputSize options factor hp).toNat = slowDownSize (factorOf options) hp := by
  rw [outputSize, if_neg (not_not.mpr hu), if_pos hd, BitVec.toNat_mul, BitVec.toNat_sub,
    BitVec.toNat_udiv, (frameSize_eq hvalid).1, hfactor, slowDownSize,
    Nat.add_comm (hp.dataSize.toNat / factorOf options)]
  rfl

-- The data of a run with one of the three modes.
theorem recodeData_spec (hmode : OneMode options)
    (hframes : (frameSize hp).toNat ∣ hp.dataSize.toNat) (offset : BitVec 32) (s : Process) :
    let hp' := { hp with dataSize := outputSize options factor hp, dataOffset := offset }
    (options &&& optionD ≠ 0 → (hp'.dataSize / (factor * (hp'.encoding + 1))).toNat = 0) →
    ∃ s' count, recodeData options factor hp' s = some (true, s') ∧ Writes s s' count ∧
      (count = hp'.dataSize.toNat ↔ DataAgrees options hp) := by
  intro hp' hinside
  obtain ⟨hsize, hpos, -⟩ := frameSize_eq hvalid
  obtain ⟨-, hfactorPos, hfactorMax⟩ := factor_toNat options
  have hframe : frameLength hp' = frameLength hp := rfl
  rcases hmode with ⟨hu, hd, hc⟩ | ⟨hu, hd, hc⟩ | ⟨hu, hd, hc⟩
  · -- speed up
    have hrun : recodeData options factor hp' s =
        some (true, speedUpLoop hp' factor (hp'.dataSize / factor).toNat 0 s) := by
      simp only [recodeData, if_pos hu, if_neg (not_not.mpr hd), if_neg (not_not.mpr hc)]
      rfl
    have hout : hp'.dataSize.toNat = speedUpSize (factorOf options) hp :=
      outputSize_up hvalid hfactor hu
    have hwrites := writes_speedUpLoop hp' (by omega : 0 < factor.toNat)
      (hp'.dataSize / factor).toNat 0 s
    have hzero : multiples factor.toNat 0 = 0 := Nat.div_eq_of_lt (by omega)
    refine ⟨_, _, hrun, hwrites, ?_⟩
    rw [DataAgrees, if_pos hu, hzero, Nat.sub_zero, Nat.zero_add, BitVec.toNat_udiv, hout,
      hfactor, hframe]
  · -- slow down
    have hrun : recodeData options factor hp' s =
        some (true, writeFrame inputFrame hp.channels.toNat factor.toNat
          (readFrame inputFrame hp.channels.toNat factor.toNat s).2) := by
      simp only [recodeData, if_neg (not_not.mpr hu), if_pos hd, if_neg (not_not.mpr hc),
        slowDown_eq, if_pos (hinside hd)]
      rfl
    have hout : hp'.dataSize.toNat = slowDownSize (factorOf options) hp :=
      outputSize_down hvalid hfactor hu hd
    obtain ⟨hreadOut, -, -⟩ := readFrame_io inputFrame hp.channels.toNat factor.toNat s
    obtain ⟨hfirst, -⟩ := writes_writeFrame inputFrame hp.channels.toNat factor.toNat
      (readFrame inputFrame hp.channels.toNat factor.toNat s).2
    refine ⟨_, _, hrun, (Writes.of_eq hreadOut).trans hfirst, ?_⟩
    rw [DataAgrees, if_neg (not_not.mpr hu), if_pos hd, Nat.zero_add, hout, hfactor]
  · -- crypt
    have hsame : hp'.dataSize = hp.dataSize := by
      simp only [hp', outputSize, if_neg (not_not.mpr hu), if_neg (not_not.mpr hd)]
    have hrun : recodeData options factor hp' s =
        some (true, cryptLoop hp' (hp'.dataSize / frameSize hp').toNat
          (mysrand (options.setWidth 32) s)) := by
      simp only [recodeData, if_neg (not_not.mpr hu), if_neg (not_not.mpr hd), if_pos hc]
      rfl
    have hcount : frameLength hp * (hp'.dataSize / frameSize hp').toNat = hp'.dataSize.toNat := by
      rw [hsame, BitVec.toNat_udiv, show frameSize hp' = frameSize hp from rfl, hsize]
      exact Nat.mul_div_cancel' (hsize ▸ hframes)
    refine ⟨_, _, hrun, writes_cryptLoop hp' _ (mysrand (options.setWidth 32) s), ?_⟩
    rw [DataAgrees, if_neg (not_not.mpr hu), if_neg (not_not.mpr hd), hframe]
    exact iff_of_true hcount trivial

end

-- A run in the buffers ends without an error, and the sizes of its mode decide what its
-- output is.
theorem recoded_of_inside {options : BitVec 64} (hmode : OneMode options)
    {argv : List (List Byte)} {stream note data : List Byte} {hp : AudioHeader}
    (h : ValidStream stream hp note data) (hinside : Inside options argv note hp) :
    ∃ written, recoded options argv stream = some (true, written) ∧ (WellFormed written ↔
      (options >>> 59 &&& 1 = 0 → note ≠ [] ∨ (argvText argv).length % 8 ≠ 0) ∧
        DataAgrees options hp) := by
  obtain ⟨offset, note', s, hs, hrun⟩ := recode_eq_data h.annotated hinside.1
  obtain ⟨hmod, hlast⟩ := hs.last_written h.annotated
  obtain ⟨hfactor, -, -⟩ := factor_toNat options
  obtain ⟨s', _, hdata, ⟨bytes, hbytes, rfl⟩, hagrees⟩ :=
    recodeData_spec h.valid hfactor hmode h.frames offset s hinside.2
  have hoffset : (outputHeader options hp offset).dataOffset.toNat = note'.length + 24 := hs.size
  have hvalid : validHeader (outputHeader options hp offset) = true := by
    have hvalid := h.valid
    have hmod' : offset.toNat % 8 = 0 := by
      rw [hs.size]
      omega
    unfold outputHeader
    simp only [validHeader, Bool.and_eq_true, decide_eq_true_eq] at hvalid ⊢
    exact ⟨⟨⟨hvalid.1.1.1, hmod'⟩, hvalid.1.2⟩, hvalid.2⟩
  have hwritten : s'.stdout = headerBytes (outputHeader options hp offset) ++ (note' ++ bytes) := by
    rw [hbytes, hs.stdout, List.append_assoc]
  refine ⟨s'.stdout, ?_, ?_⟩
  · rw [recoded, hrun]
    exact congrArg (Option.map fun result => (result.1, result.2.stdout)) hdata
  · rw [hwritten, wellFormed_headerBytes hvalid hoffset, hlast]
    exact and_congr_right fun _ => hagrees

-- In the buffers the output is well formed exactly when the sizes of the mode agree and,
-- without -p, there is a NUL behind the text of argv.
theorem wellFormed_recode_iff {args : List (List Byte)} {options : BitVec 64}
    (hargs : validargs args = (true, options)) (hhelp : options ≠ optionH) (argv : List (List Byte))
    {stream note data : List Byte} {hp : AudioHeader} (h : ValidStream stream hp note data) :
    (recoded options argv stream = none ↔ ¬Inside options argv note hp) ∧
    (Inside options argv note hp →
      ((∀ written, recoded options argv stream = some (true, written) → WellFormed written) ↔
        (options >>> 59 &&& 1 = 0 → note ≠ [] ∨ (argvText argv).length % 8 ≠ 0) ∧
          DataAgrees options hp)) := by
  refine ⟨recoded_eq_none_iff h.annotated, fun hinside => ?_⟩
  obtain ⟨written, hrun, hiff⟩ := recoded_of_inside (oneMode_of_validargs hargs hhelp) h hinside
  rw [hrun, ← hiff]
  constructor
  · exact fun hall => hall written rfl
  · rintro hwell _ ⟨⟩
    exact hwell

theorem wellFormed_recode_of_crypt :
    let argv := [Lib.ascii "audible", Lib.ascii "-c", Lib.ascii "-k", Lib.ascii "DEADBEEF"]
    let stream := headerBytes (stereoHeader 3 4) ++ [1, 2, 3, 4]
    let options := optionC ||| 0xDEADBEEF
    validargs argv = (true, options) ∧ Inside options argv [] (stereoHeader 3 4) ∧
      ∀ written, recoded options argv stream = some (true, written) → WellFormed written := by
  intro argv stream options
  have hargs : validargs argv = (true, options) := by decide +kernel
  have hvalid : ValidStream stream (stereoHeader 3 4) [] [1, 2, 3, 4] :=
    ⟨by decide +kernel, by decide, by decide, by decide⟩
  have hinside : Inside options argv [] (stereoHeader 3 4) :=
    ⟨fun _ => ⟨by decide, by decide, by decide⟩, fun hd => absurd (by decide) hd⟩
  refine ⟨hargs, hinside, ((wellFormed_recode_iff hargs (by decide) argv hvalid).2 hinside).mpr ?_⟩
  exact ⟨fun _ => Or.inr (by decide), by simp [DataAgrees, options, optionC, optionU, optionD]⟩

-- One frame of two bytes is read twice for a factor of 1, the second time behind the
-- end of the input, and the header says two bytes.
theorem not_wellFormed_recode_of_speedUp :
    let argv := [Lib.ascii "audible", Lib.ascii "-u", Lib.ascii "-p"]
    let hp := ⟨0x2e736e64, 24, 2, 3, 8000, 1⟩
    let stream := headerBytes hp ++ [1, 2]
    let options := optionU ||| optionP
    validargs argv = (true, options) ∧ ValidStream stream hp [] [1, 2] ∧
      Inside options argv [] hp ∧
      recoded options argv stream = some (true, headerBytes hp ++ ([] ++ [1, 2, 1, 2])) ∧
      ¬∀ written, recoded options argv stream = some (true, written) → WellFormed written := by
  intro argv hp stream options
  have hout : recoded options argv stream =
      some (true, headerBytes hp ++ ([] ++ [1, 2, 1, 2])) := by
    decide +kernel
  refine ⟨by decide +kernel, ⟨by decide +kernel, by decide, by decide, by decide⟩,
    ⟨fun hprepends => absurd hprepends (by decide), fun hd => absurd (by decide) hd⟩, hout,
    fun hwell => ?_⟩
  have hformed := hwell _ hout
  rw [wellFormed_headerBytes (by decide) (by decide)] at hformed
  exact absurd hformed.2 (by decide)

end CSE320.Audible
