import CSE320.Audible.Recode
import Mathlib.Data.List.GetD
import Mathlib.Data.List.Induction
import Mathlib.Tactic.IntervalCases

namespace CSE320.Audible

open Lib (Byte)

-- A word with its most significant byte first.
def wordBytes (val : BitVec 32) : List Byte :=
  [Lib.byte val 3, Lib.byte val 2, Lib.byte val 1, Lib.byte val 0]

def headerBytes (hp : AudioHeader) : List Byte :=
  wordBytes hp.magicNumber ++ wordBytes hp.dataOffset ++ wordBytes hp.dataSize ++
    wordBytes hp.encoding ++
    wordBytes hp.sampleRate ++ wordBytes hp.channels

def memoryBytes (s : Process) (addr size : Nat) : List Byte :=
  (List.range size).map fun i => s.memory (addr + i)

def Process.write (bytes : List Byte) (s : Process) : Process :=
  { s with stdout := s.stdout ++ bytes }

@[simp] theorem write_write (bytes bytes' : List Byte) (s : Process) :
    Process.write bytes' (s.write bytes) = s.write (bytes ++ bytes') := by
  simp [Process.write, List.append_assoc]

theorem putchar_eq (c : Byte) (s : Process) : putchar c s = s.write [c] := rfl

@[simp] theorem write_nil (s : Process) : s.write [] = s := by
  simp [Process.write]

@[simp] theorem loadInt_write (addr : Nat) (bytes : List Byte) (s : Process) :
    loadInt addr (s.write bytes) = loadInt addr s := rfl

theorem setWidth_shift (val : BitVec 32) :
    (val >>> 24).setWidth 8 = Lib.byte val 3 ∧ (val >>> 16).setWidth 8 = Lib.byte val 2 ∧
      (val >>> 8).setWidth 8 = Lib.byte val 1 ∧ val.setWidth 8 = Lib.byte val 0 := by
  unfold Lib.byte
  refine ⟨?_, ?_, ?_, ?_⟩
  all_goals
    ext i hi
    interval_cases i <;> simp

theorem writeBytes_eq (val : BitVec 32) (s : Process) :
    writeBytes val s = s.write (wordBytes val) := by
  obtain ⟨hthree, htwo, hone, hzero⟩ := setWidth_shift val
  simp only [writeBytes, putchar_eq, write_write, hthree, htwo, hone, hzero]
  rfl

theorem writeHeader_eq (hp : AudioHeader) (s : Process) :
    writeHeader hp s = s.write (headerBytes hp) := by
  simp only [writeHeader, writeBytes_eq, write_write, headerBytes, List.append_assoc]

-- The bytes of a word behind a shift of one byte into it.
theorem byte_shift (v : BitVec 32) (c : Byte) :
    Lib.byte (v <<< 8 ||| c.setWidth 32) 0 = c ∧
      Lib.byte (v <<< 8 ||| c.setWidth 32) 1 = Lib.byte v 0 ∧
      Lib.byte (v <<< 8 ||| c.setWidth 32) 2 = Lib.byte v 1 ∧
        Lib.byte (v <<< 8 ||| c.setWidth 32) 3 = Lib.byte v 2 := by
  unfold Lib.byte
  refine ⟨?_, ?_, ?_, ?_⟩
  all_goals
    ext i hi
    interval_cases i <;> simp

theorem word_of_shifts (a b c d : Byte) :
    ((a.setWidth 32 <<< 8 ||| b.setWidth 32) <<< 8 ||| c.setWidth 32) <<< 8 ||| d.setWidth 32 =
      Lib.word d c b a := by
  have hlow : Lib.byte (a.setWidth 32) 0 = a := by
    unfold Lib.byte
    ext i hi
    interval_cases i <;> simp
  rw [← Lib.word_bytes (_ ||| d.setWidth 32)]
  simp only [byte_shift, hlow]

theorem readBytes_eq_some {stdin rest : List Byte} {val : BitVec 32} :
    readBytes stdin = some (val, rest) ↔ stdin = wordBytes val ++ rest := by
  constructor
  · intro h
    unfold readBytes at h
    split at h
    · rename_i a b c d stdin
      obtain ⟨rfl, rfl⟩ := Prod.mk.inj (Option.some.inj h)
      simp [word_of_shifts, wordBytes]
    · cases h
  · rintro rfl
    simp only [wordBytes, List.cons_append, List.nil_append, readBytes, word_of_shifts,
      Lib.word_bytes]

-- A valid header is what its 24 bytes say.
theorem readHeader_eq_some {stdin rest : List Byte} {hp : AudioHeader} :
    readHeader stdin = some (hp, rest) ↔ validHeader hp = true ∧
      stdin = headerBytes hp ++ rest := by
  simp only [readHeader, Option.bind_eq_bind, Option.bind_eq_some_iff, Prod.exists,
    readBytes_eq_some]
  constructor
  · rintro ⟨magicNumber, _, rfl, dataOffset, _, rfl, dataSize, _, rfl, encoding, _, rfl,
      sampleRate, _, rfl, channels, _, rfl, h⟩
    split at h
    · rename_i hvalid
      obtain ⟨rfl, rfl⟩ := Prod.mk.inj (Option.some.inj h)
      exact ⟨hvalid, by simp [headerBytes, List.append_assoc]⟩
    · cases h
  · rintro ⟨hvalid, rfl⟩
    refine ⟨_, _, ?_, _, _, rfl, _, _, rfl, _, _, rfl, _, _, rfl, _, _, rfl, if_pos hvalid⟩
    simp [headerBytes, List.append_assoc]

-- An annotation is written up to the end of its buffer.
theorem writeAnnotationLoop_eq (ap left i : Nat) (s : Process) :
    writeAnnotationLoop ap left i s =
      if left = 0 ∨ i + left ≤ annotationMax then some (s.write (memoryBytes s (ap + i) left))
      else none := by
  induction left generalizing i s with
  | zero => simp [ writeAnnotationLoop, memoryBytes]
  | succ left ih =>
      rw [ writeAnnotationLoop, loadByte]
      by_cases hin : i < annotationMax
      · have hiff : left = 0 ∨ i + 1 + left ≤ annotationMax ↔
            left + 1 = 0 ∨ i + (left + 1) ≤ annotationMax := by omega
        rw [if_pos hin, Option.bind_eq_bind, Option.bind_some, ih]
        simp only [hiff]
        congr 2
        rw [putchar_eq, write_write, memoryBytes, memoryBytes, List.range_succ_eq_map]
        simp [Process.write, Nat.add_assoc, Nat.add_comm 1, Function.comp_def]
      · rw [if_neg hin, if_neg (by omega)]
        rfl

theorem writeAnnotation_eq (ap size : Nat) (s : Process) : writeAnnotation ap size s =
    if size ≤ annotationMax then some (s.write (memoryBytes s ap size)) else none := by
  have hiff : size = 0 ∨ 0 + size ≤ annotationMax ↔ size ≤ annotationMax := by omega
  rw [ writeAnnotation, writeAnnotationLoop_eq]
  simp only [hiff]
  rfl

-- A string in the memory.
def storeBytes (addr : Nat) : List Byte → Process → Process
  | [], s => s
  | c :: str, s => storeBytes (addr + 1) str (store addr c s)

theorem storeBytes_with (addr : Nat) (str : List Byte) (s : Process) :
    (storeBytes addr str s).stdin = s.stdin ∧ (storeBytes addr str s).stdout = s.stdout ∧
      (storeBytes addr str s).next = s.next := by
  induction str generalizing addr s with
  | nil => exact ⟨rfl, rfl, rfl⟩
  | cons c str ih => exact ih (addr + 1) (store addr c s)

theorem storeBytes_memory (addr : Nat) (str : List Byte) (s : Process) (a : Nat) :
    (storeBytes addr str s).memory a =
      if addr ≤ a ∧ a < addr + str.length then str.getD (a - addr) 0 else s.memory a := by
  induction str generalizing addr s with
  | nil =>
      rw [if_neg]
      · rfl
      · simp only [List.length_nil]
        omega
  | cons c str ih =>
      rw [storeBytes, ih, store]
      simp only [List.length_cons]
      by_cases haddr : a = addr
      · subst haddr
        rw [if_neg (by omega), if_pos (by omega), Function.update_self, Nat.sub_self]
        rfl
      · rw [Function.update_of_ne haddr]
        by_cases hin : addr + 1 ≤ a ∧ a < addr + 1 + str.length
        · have hsub : a - addr = a - (addr + 1) + 1 := by omega
          rw [if_pos hin, if_pos (by omega), hsub]
          rfl
        · rw [if_neg hin, if_neg (by omega)]

-- An annotation that is accepted is stored, and it ends with NUL.
theorem readAnnotationLoop_accepted {ap size : Nat} {s : Process}
    (h : (readAnnotationLoop ap size s).1 = true) :
    (readAnnotationLoop ap size s).2 =
        storeBytes ap (s.stdin.take size) { s with stdin := s.stdin.drop size } ∧
      size ≤ s.stdin.length ∧ (size = 0 ∨ s.stdin[size - 1]? = some 0) := by
  induction size generalizing ap s with
  | zero => exact ⟨rfl, Nat.zero_le _, Or.inl rfl⟩
  | succ left ih =>
      obtain ⟨stdin, stdout, memory, next⟩ := s
      cases stdin with
      | nil => cases h
      | cons temp stdin =>
          simp only [readAnnotationLoop] at h ⊢
          split at h
          · cases h
          · rename_i hlast
            obtain ⟨hstate, hlen, hend⟩ := ih h
            rw [if_neg hlast, hstate]
            refine ⟨rfl, Nat.succ_le_succ hlen, Or.inr ?_⟩
            cases left with
            | zero =>
                have htemp : temp = 0 := by
                  by_contra hne
                  exact hlast ⟨rfl, hne⟩
                rw [htemp]
                rfl
            | succ left => exact hend.resolve_left (Nat.succ_ne_zero left)

theorem readAnnotationLoop_of_last {ap size : Nat} {s : Process} (hlen : size ≤ s.stdin.length)
    (hend : size = 0 ∨ s.stdin[size - 1]? = some 0) : (readAnnotationLoop ap size s).1 = true := by
  induction size generalizing ap s with
  | zero => rfl
  | succ left ih =>
      obtain ⟨stdin, stdout, memory, next⟩ := s
      cases stdin with
      | nil => simp at hlen
      | cons temp stdin =>
          have hlast := hend.resolve_left (Nat.succ_ne_zero left)
          simp only [readAnnotationLoop]
          split
          · rename_i hbad
            obtain ⟨rfl, hne⟩ := hbad
            exact absurd (Option.some.inj hlast) hne
          · have hrest : left ≤ stdin.length := Nat.le_of_succ_le_succ hlen
            refine ih hrest ?_
            cases left with
            | zero => exact Or.inl rfl
            | succ left => exact Or.inr hlast

def pack (v : BitVec 32) (bytes : List Byte) : BitVec 32 :=
  bytes.foldl (fun v c => v <<< 8 ||| c.setWidth 32) v

-- The bytes of a frame buffer as write_frame writes them.
def frameBytes : Nat → BitVec 32 → List Byte
  | 0, _ => []
  | i + 1, v => Lib.byte v (i % 4) :: frameBytes i v

section

variable (addr addr' : Nat) (value : BitVec 32) (s : Process)

@[simp] theorem storeInt_stdin : (storeInt addr value s).stdin = s.stdin := rfl

@[simp] theorem storeInt_stdout : (storeInt addr value s).stdout = s.stdout := rfl

@[simp] theorem storeInt_next : (storeInt addr value s).next = s.next := rfl

@[simp] theorem loadInt_storeInt : loadInt addr (storeInt addr value s) = value := by
  simp [loadInt, storeInt, store]

theorem storeInt_memory_of_ne (h : addr < addr' ∨ addr' + 4 ≤ addr) :
    (storeInt addr' value s).memory addr = s.memory addr := by
  simp only [storeInt, store]
  rw [Function.update_of_ne (by omega), Function.update_of_ne (by omega),
    Function.update_of_ne (by omega), Function.update_of_ne (by omega)]

theorem loadInt_storeInt_of_ne (h : addr + 4 ≤ addr' ∨ addr' + 4 ≤ addr) :
    loadInt addr (storeInt addr' value s) = loadInt addr s := by
  unfold loadInt
  rw [storeInt_memory_of_ne addr addr' value s (by omega),
    storeInt_memory_of_ne (addr + 1) addr' value s (by omega),
    storeInt_memory_of_ne (addr + 2) addr' value s (by omega),
    storeInt_memory_of_ne (addr + 3) addr' value s (by omega)]

end

-- A frame is shifted into its buffer, up to the end of the input.
theorem readFrameLoop_spec (fp size : Nat) (s : Process) :
    (readFrameLoop fp size s).1 = decide (size ≤ s.stdin.length) ∧
      (readFrameLoop fp size s).2.stdin = s.stdin.drop size ∧
        (readFrameLoop fp size s).2.stdout = s.stdout ∧
      (readFrameLoop fp size s).2.next = s.next ∧
      loadInt fp (readFrameLoop fp size s).2 = pack (loadInt fp s) (s.stdin.take size) := by
  induction size generalizing s with
  | zero => exact ⟨by simp [readFrameLoop], rfl, rfl, rfl, rfl⟩
  | succ left ih =>
      obtain ⟨stdin, stdout, memory, next⟩ := s
      cases stdin with
      | nil => exact ⟨by simp [readFrameLoop], rfl, rfl, rfl, rfl⟩
      | cons temp stdin =>
          have hrest :=
            ih (storeInt fp (loadInt fp ⟨stdin, stdout, memory, next⟩ <<< 8 ||| temp.setWidth 32)
            ⟨stdin, stdout, memory, next⟩)
          simp only [storeInt_stdin, storeInt_stdout, storeInt_next, loadInt_storeInt] at hrest
          rw [readFrameLoop]
          exact ⟨hrest.1.trans (decide_eq_decide.mpr Nat.succ_le_succ_iff.symm), hrest.2⟩

theorem writeFrameLoop_eq (fp size : Nat) (s : Process) :
    writeFrameLoop fp size s = s.write (frameBytes size (loadInt fp s)) := by
  induction size generalizing s with
  | zero => simp [writeFrameLoop, frameBytes]
  | succ i ih =>
      have hshift : i * 8 % 32 = 8 * (i % 4) := by omega
      rw [writeFrameLoop, ih, putchar_eq, write_write, loadInt_write, hshift,
        Lib.setWidth_sshiftRight _ (Nat.mod_lt i (by decide))]
      rfl

-- The bytes that are still in the buffer behind a frame.
theorem byte_pack (v : BitVec 32) (bytes : List Byte) {j : Nat} (hj : j < 4)
    (hlen : j < bytes.length) :
    Lib.byte (pack v bytes) j = bytes.getD (bytes.length - 1 - j) 0 := by
  induction bytes using List.reverseRecOn generalizing j with
  | nil => simp at hlen
  | append_singleton bytes c ih =>
      have hpack : pack v (bytes ++ [c]) = pack v bytes <<< 8 ||| c.setWidth 32 := by
        simp [pack]
      have hlast : (bytes ++ [c]).length - 1 - j = bytes.length - j := by
        simp
      obtain ⟨h0, h1, h2, h3⟩ := byte_shift (pack v bytes) c
      rw [hpack, hlast]
      rw [List.length_append, List.length_singleton] at hlen
      match j with
      | 0 => simp [h0]
      | j + 1 =>
          have hnext : bytes.length - (j + 1) = bytes.length - 1 - j := by omega
          have hshift : Lib.byte (pack v bytes <<< 8 ||| c.setWidth 32) (j + 1) =
              Lib.byte (pack v bytes) j := by
            match j with
            | 0 => exact h1
            | 1 => exact h2
            | 2 => exact h3
          rw [hshift, ih (by omega) (by omega), hnext, List.getD_append _ _ _ _ (by omega)]

-- The result of a run and the bytes that it has written.
def recoded (options : BitVec 64) (argv : List (List Byte)) (stream : List Byte) :
    Option (Bool × List Byte) :=
  (recode options argv (.start stream)).map fun result => (result.1, result.2.stdout)

def frameLength (hp : AudioHeader) : Nat := hp.channels.toNat * (hp.encoding - 1).toNat

-- A stream that the program takes as valid: a header and an annotation that are
-- accepted, and data in complete frames.
structure ValidStream (stream : List Byte) (hp : AudioHeader) (note data : List Byte) : Prop where
  header : readHeader stream = some (hp, note ++ data)
  offset : note.length = (hp.dataOffset - 24).toNat
  accepted : ( readAnnotation inputAnnotation (hp.dataOffset - 24).toNat
    (.start (note ++ data))).1 = true
  frames : (frameSize hp).toNat ∣ hp.dataSize.toNat

theorem encoding_cases {hp : AudioHeader} (h : validHeader hp = true) :
    hp.encoding = 2 ∨ hp.encoding = 3 ∨ hp.encoding = 4 ∨ hp.encoding = 5 := by
  simp only [validHeader, Bool.and_eq_true, Bool.or_eq_true, decide_eq_true_eq] at h
  obtain ⟨⟨-, ((h | h) | h) | h⟩, -⟩ := h
  · exact Or.inl h
  · exact Or.inr (Or.inl h)
  · exact Or.inr (Or.inr (Or.inl h))
  · exact Or.inr (Or.inr (Or.inr h))

theorem channels_cases {hp : AudioHeader} (h : validHeader hp = true) :
    hp.channels = 1 ∨ hp.channels = 2 := by
  simp only [validHeader, Bool.and_eq_true, Bool.or_eq_true, decide_eq_true_eq] at h
  exact h.2

-- The bytes of a sample.
theorem bytes_bounds {hp : AudioHeader} (h : validHeader hp = true) :
    hp.encoding.toNat = (hp.encoding - 1).toNat + 1 ∧ 1 ≤ (hp.encoding - 1).toNat ∧
      (hp.encoding - 1).toNat ≤ 4 := by
  rcases encoding_cases h with he | he | he | he
  all_goals
    rw [he]
    decide

-- The eight layouts of a frame.
theorem frameSize_eq {hp : AudioHeader} (h : validHeader hp = true) :
    (frameSize hp).toNat = frameLength hp ∧ 0 < frameLength hp ∧ frameLength hp ≤ 8 := by
  unfold frameSize frameLength
  rcases encoding_cases h with he | he | he | he
  all_goals
    rcases channels_cases h with hc | hc
    all_goals
      rw [he, hc]
      decide

theorem offset_mod {hp : AudioHeader} (h : validHeader hp = true) :
    (hp.dataOffset - 24) % 8 = 0 := by
  simp only [validHeader, Bool.and_eq_true, decide_eq_true_eq] at h
  obtain ⟨⟨⟨-, hmod⟩, -⟩, -⟩ := h
  apply BitVec.eq_of_toNat_eq
  rw [BitVec.toNat_umod, BitVec.toNat_sub]
  show _ % 8 = 0
  have hlt := hp.dataOffset.isLt
  show (2 ^ 32 - 24 + hp.dataOffset.toNat) % 2 ^ 32 % 8 = 0
  omega

-- The same without anything said about the data.
structure ValidAnnotation (stream : List Byte) (hp : AudioHeader)
    (note data : List Byte) : Prop where
  header : readHeader stream = some (hp, note ++ data)
  offset : note.length = (hp.dataOffset - 24).toNat
  accepted : ( readAnnotation inputAnnotation (hp.dataOffset - 24).toNat
    (.start (note ++ data))).1 = true

theorem ValidStream.annotated {stream note data : List Byte} {hp : AudioHeader}
    (h : ValidStream stream hp note data) :
    ValidAnnotation stream hp note data := ⟨h.header, h.offset, h.accepted⟩

section

variable {stream note data : List Byte} {hp : AudioHeader} (h : ValidAnnotation stream hp note data)

include h

theorem ValidAnnotation.valid : validHeader hp = true := (readHeader_eq_some.mp h.header).1

theorem ValidAnnotation.annotation_spec : note.length ≤ 1023 ∧
    (note = [] ∨ note[note.length - 1]? = some 0) ∧
    readAnnotation inputAnnotation (hp.dataOffset - 24).toNat (.start (note ++ data)) =
      (true, storeBytes inputAnnotation note (.start data)) := by
  have haccepted := h.accepted
  rw [← h.offset] at haccepted ⊢
  unfold readAnnotation at haccepted ⊢
  split at haccepted
  · cases haccepted
  · rename_i hsize
    obtain ⟨hstate, -, hend⟩ := readAnnotationLoop_accepted haccepted
    simp only [Process.start, List.take_left, List.drop_left] at hstate
    refine ⟨by omega, ?_, ?_⟩
    · rcases hend with hend | hend
      · exact Or.inl (List.length_eq_zero_iff.mp hend)
      · rcases Nat.eq_zero_or_pos note.length with hzero | hpos
        · exact Or.inl (List.length_eq_zero_iff.mp hzero)
        · refine Or.inr ?_
          rw [← hend]
          exact (List.getElem?_append_left (by omega)).symm
    · rw [if_neg hsize]
      exact Prod.ext haccepted hstate

-- The header and the annotation are read, and the rest follows.
theorem ValidAnnotation.recode_eq (options : BitVec 64) (argv : List (List Byte)) :
    recode options argv (.start stream) =
      transform options argv hp (storeBytes inputAnnotation note (.start data)) := by
  obtain ⟨hlen, -, hread⟩ := h.annotation_spec
  have hstart : ({ Process.start stream with stdin := note ++ data } : Process) =
      .start (note ++ data) := rfl
  have hpass : ¬((hp.dataOffset - 24) % 8 ≠ 0 ∨ (hp.dataOffset - 24).toNat > annotationMax) := by
    rw [← h.offset, offset_mod h.valid]
    rintro (hne | hgt)
    · exact hne rfl
    · unfold annotationMax at hgt
      omega
  have hheader : readHeader (Process.start stream).stdin = some (hp, note ++ data) := h.header
  unfold recode
  rw [hheader]
  simp only [hstart, if_neg hpass, hread]

end

section

variable {stream note data : List Byte} {hp : AudioHeader} (h : ValidStream stream hp note data)

include h

theorem ValidStream.valid : validHeader hp = true := h.annotated.valid

theorem ValidStream.eq : stream = headerBytes hp ++ (note ++ data) :=
  (readHeader_eq_some.mp h.header).2

theorem ValidStream.annotation_spec : note.length ≤ 1023 ∧
    (note = [] ∨ note[note.length - 1]? = some 0) ∧
    readAnnotation inputAnnotation (hp.dataOffset - 24).toNat (.start (note ++ data)) =
      (true, storeBytes inputAnnotation note (.start data)) := h.annotated.annotation_spec

-- Other data behind the same header and annotation.
theorem ValidStream.with_data (data' : List Byte) :
    ValidStream (headerBytes hp ++ (note ++ data')) hp note data' := by
  obtain ⟨hlen, hend, -⟩ := h.annotation_spec
  refine ⟨readHeader_eq_some.mpr ⟨h.valid, rfl⟩, h.offset, ?_, h.frames⟩
  rw [← h.offset, readAnnotation, if_neg (by omega)]
  refine readAnnotationLoop_of_last (by simp [Process.start]) ?_
  rcases hend with rfl | hend
  · exact Or.inl rfl
  · refine Or.inr ?_
    obtain ⟨hlt, -⟩ := List.getElem?_eq_some_iff.mp hend
    rw [← hend]
    exact List.getElem?_append_left hlt

-- The header and the annotation of a valid stream are read.
theorem recode_eq (options : BitVec 64) (argv : List (List Byte)) :
    recode options argv (.start stream) =
      transform options argv hp (storeBytes inputAnnotation note (.start data)) :=
        h.annotated.recode_eq options argv

end

end CSE320.Audible
