import CSE320.Audible.Options

namespace CSE320.Audible

open Lib (Byte)

structure AudioHeader where
  magicNumber : BitVec 32
  dataOffset : BitVec 32
  dataSize : BitVec 32
  encoding : BitVec 32
  sampleRate : BitVec 32
  channels : BitVec 32
deriving DecidableEq, Repr

-- Bytes left to read, bytes written, the buffers, and the state of myrand.
structure Process where
  stdin : List Byte
  stdout : List Byte
  memory : Nat → Byte
  next : BitVec 64

-- The buffers of const.h. Where a function can leave the buffer that it goes through, each
-- of its accesses is checked, and its result is none when one of them is outside: nothing
-- is said about such a run. So no buffer is reached through another one, and their places
-- do not matter.
def inputAnnotation : Nat := 0

def outputAnnotation : Nat := 1024

def previousFrame : Nat := 2048

def inputFrame : Nat := 2056

def outputFrame : Nat := 2064

def annotationMax : Nat := 1024

-- The words of a frame buffer.
def channelsMax : Nat := 2

def Process.start (stdin : List Byte) : Process where
  stdin := stdin
  stdout := []
  memory := fun _ => 0
  next := 1

def putchar (c : Byte) (s : Process) : Process := { s with stdout := s.stdout ++ [c] }

def store (addr : Nat) (c : Byte) (s : Process) : Process :=
  { s with memory := Function.update s.memory addr c }

def loadInt (addr : Nat) (s : Process) : BitVec 32 :=
  Lib.word (s.memory addr) (s.memory (addr + 1)) (s.memory (addr + 2)) (s.memory (addr + 3))

def storeInt (addr : Nat) (value : BitVec 32) (s : Process) : Process :=
  store addr (Lib.byte value 0) (store (addr + 1) (Lib.byte value 1)
    (store (addr + 2) (Lib.byte value 2) (store (addr + 3) (Lib.byte value 3) s)))

-- The accesses to an annotation buffer and to a frame buffer.
def loadByte (ap i : Nat) (s : Process) : Option Byte :=
  if i < annotationMax then some (s.memory (ap + i)) else none

def storeByte (ap i : Nat) (c : Byte) (s : Process) : Option Process :=
  if i < annotationMax then some (store (ap + i) c s) else none

def loadFrame (fp i : Nat) (s : Process) : Option (BitVec 32) :=
  if i < channelsMax then some (loadInt (fp + 4 * i) s) else none

def storeFrame (fp i : Nat) (value : BitVec 32) (s : Process) : Option Process :=
  if i < channelsMax then some (storeInt (fp + 4 * i) value s) else none

-- Four bytes are shifted into the word.
def readBytes (stdin : List Byte) : Option (BitVec 32 × List Byte) :=
  match stdin with
  | a :: b :: c :: d :: rest =>
    some ((((a.setWidth 32 <<< 8 ||| b.setWidth 32) <<< 8 ||| c.setWidth 32) <<< 8 |||
      d.setWidth 32), rest)
  | _ => none

def validHeader (hp : AudioHeader) : Bool :=
  hp.magicNumber = 0x2e736e64 && hp.dataOffset.toNat % 8 = 0 &&
    (hp.encoding = 2 || hp.encoding = 3 || hp.encoding = 4 || hp.encoding = 5) &&
    (hp.channels = 1 || hp.channels = 2)

def readHeader (stdin : List Byte) : Option (AudioHeader × List Byte) := do
  let (magicNumber, stdin) ← readBytes stdin
  let (dataOffset, stdin) ← readBytes stdin
  let (dataSize, stdin) ← readBytes stdin
  let (encoding, stdin) ← readBytes stdin
  let (sampleRate, stdin) ← readBytes stdin
  let (channels, stdin) ← readBytes stdin
  let hp := ⟨magicNumber, dataOffset, dataSize, encoding, sampleRate, channels⟩
  if validHeader hp then some (hp, stdin) else none

def writeBytes (val : BitVec 32) (s : Process) : Process :=
  putchar (val.setWidth 8) (putchar ((val >>> 8).setWidth 8)
    (putchar ((val >>> 16).setWidth 8) (putchar ((val >>> 24).setWidth 8) s)))

def writeHeader (hp : AudioHeader) (s : Process) : Process :=
  writeBytes hp.channels (writeBytes hp.sampleRate (writeBytes hp.encoding
    (writeBytes hp.dataSize (writeBytes hp.dataOffset (writeBytes hp.magicNumber s)))))

-- The last character must be NUL. No more than 1023 characters are stored, which fit.
def readAnnotationLoop : Nat → Nat → Process → Bool × Process
  | _, 0, s => (true, s)
  | ap, left + 1, s =>
    match s.stdin with
    | [] => (false, s)
    | temp :: stdin =>
      let s := { s with stdin }
      if left = 0 ∧ temp ≠ 0 then (false, s) else readAnnotationLoop (ap + 1) left (store ap temp s)

def readAnnotation (ap size : Nat) (s : Process) : Bool × Process :=
  if size > 1023 then (false, s) else readAnnotationLoop ap size s

def writeAnnotationLoop (ap : Nat) : Nat → Nat → Process → Option Process
  | 0, _, s => some s
  | left + 1, i, s => do
    let c ← loadByte ap i s
    writeAnnotationLoop ap left (i + 1) (putchar c s)

def writeAnnotation (ap size : Nat) (s : Process) : Option Process :=
  writeAnnotationLoop ap size 0 s

-- A frame of any size goes through the first word of its buffer.
def readFrameLoop (fp : Nat) : Nat → Process → Bool × Process
  | 0, s => (true, s)
  | left + 1, s =>
    match s.stdin with
    | [] => (false, s)
    | temp :: stdin =>
      let s := { s with stdin }
      readFrameLoop fp left (storeInt fp (loadInt fp s <<< 8 ||| temp.setWidth 32) s)

def readFrame (fp : Nat) (channels bytesPerSample : Nat) (s : Process) : Bool × Process :=
  readFrameLoop fp (channels * bytesPerSample) s

-- The processor takes the number of bits to shift modulo 32.
def writeFrameLoop (fp : Nat) : Nat → Process → Process
  | 0, s => s
  | i + 1, s =>
      writeFrameLoop fp i (putchar (((loadInt fp s).sshiftRight (i * 8 % 32)).setWidth 8) s)

def writeFrame (fp : Nat) (channels bytesPerSample : Nat) (s : Process) : Process :=
  writeFrameLoop fp (channels * bytesPerSample) s

-- As many words are copied as two frames have bytes.
def copyFrameLoop (one two : Nat) : Nat → Nat → Process → Option Process
  | 0, _, s => some s
  | left + 1, i, s => do
    let value ← loadFrame two i s
    let s ← storeFrame one i value s
    copyFrameLoop one two left (i + 1) s

def copyFrame (one two : Nat) (s : Process) : Option Process :=
  copyFrameLoop one two (channelsMax * 4) 0 s

def storeString (sizeOutput : Nat) : List Byte → Process → Option Process
  | [], s => some s
  | c :: str, s => do
    let s ← storeByte outputAnnotation sizeOutput c s
    storeString (sizeOutput + 1) str s

-- The strings of argv with a blank between them.
def storeArgv (sizeOutput : Nat) : List (List Byte) → Process → Option (Nat × Process)
  | [], s => some (sizeOutput, s)
  | [str], s => do
    let s ← storeString sizeOutput str s
    some (sizeOutput + str.length, s)
  | str :: argv, s => do
    let s ← storeString sizeOutput str s
    let s ← storeByte outputAnnotation (sizeOutput + str.length) 32 s
    storeArgv (sizeOutput + str.length + 1) argv s

-- The original annotation up to its first NUL, which must be in the buffer.
def copyAnnotation (sizeOutput : Nat) : Nat → Nat → Process → Option Process
  | 0, _, _ => none
  | left + 1, sizeInput, s => do
    let c ← loadByte inputAnnotation sizeInput s
    if c ≠ 0 then
      let s ← storeByte outputAnnotation (sizeOutput + sizeInput) c s
      copyAnnotation sizeOutput left (sizeInput + 1) s
    else
      storeByte outputAnnotation (sizeOutput + sizeInput) 0 s

def prepending (argv : List (List Byte)) (s : Process) : Option (Nat × Process) := do
  let (sizeOutput, s) ← storeArgv 0 argv s
  let s ← storeByte outputAnnotation sizeOutput 10 s
  let s ← copyAnnotation (sizeOutput + 1) annotationMax 0 s
  some (sizeOutput + 1, s)

def myrand (s : Process) : BitVec 32 × Process :=
  let next := s.next * 1103515245 + 12345
  ((next / 65536).setWidth 32 % 32768, { s with next })

def mysrand (seed : BitVec 32) (s : Process) : Process := { s with next := seed.setWidth 64 }

def myrand32Loop : Nat → BitVec 32 → Process → BitVec 32 × Process
  | 0, r, s => (r, s)
  | left + 1, r, s =>
    let (v, s) := myrand s
    myrand32Loop left (r <<< 8 ||| (v &&& 0x7fff).sshiftRight 7) s

def myrand32 (s : Process) : BitVec 32 × Process := myrand32Loop 4 0 s

def frameSize (hp : AudioHeader) : BitVec 32 := hp.channels * (hp.encoding - 1)

-- The data size of the output. It stays when neither -u nor -d is given.
def outputSize (options : BitVec 64) (factor : BitVec 32) (hp : AudioHeader) : BitVec 32 :=
  if options &&& optionU ≠ 0 then (hp.dataSize / frameSize hp + 1) * factor
  else if options &&& optionD ≠ 0 then (hp.dataSize / factor - 1) * frameSize hp
  else hp.dataSize

-- The size grows to a multiple of 8, after at most seven rounds. The zeros are stored in the
-- input annotation, where the output annotation is meant.
def padAnnotation : Nat → BitVec 32 → Process → Option (BitVec 32 × Process)
  | 0, annotationSize, s => some (annotationSize, s)
  | rounds + 1, annotationSize, s =>
    if annotationSize % 8 ≠ 0 then do
      let annotationSize := annotationSize + 1
      let s ← storeByte inputAnnotation 0 (s.memory inputAnnotation + 1) s
      let s ← storeByte inputAnnotation annotationSize.toNat 0 s
      padAnnotation rounds annotationSize s
    else
      some (annotationSize, s)

def readInputFrame (hp : AudioHeader) (s : Process) : Bool × Process :=
  readFrame inputFrame hp.channels.toNat (hp.encoding - 1).toNat s

def writeFrameOf (fp : Nat) (hp : AudioHeader) (s : Process) : Process :=
  writeFrame fp hp.channels.toNat (hp.encoding - 1).toNat s

def speedUpLoop (hp : AudioHeader) (factor : BitVec 32) : Nat → Nat → Process → Process
  | 0, _, s => s
  | left + 1, i, s =>
    let (_, s) := readInputFrame hp s
    let s := if i % factor.toNat = 0 then writeFrameOf inputFrame hp s else s
    speedUpLoop hp factor left (i + 1) s

-- A frame of one channel is read as a char, from its first byte.
def interpolateMono (factor i : BitVec 32) (s : Process) : BitVec 32 :=
  let previous := (s.memory previousFrame).signExtend 32
  let input := (s.memory inputFrame).signExtend 32
  (previous + (input - previous) * i) / factor

def between (factor i previous input : BitVec 32) : BitVec 32 :=
  previous + (input - previous) * (i + 1) / factor

-- A frame of two channels is taken as four bytes.
def interpolateStereo (factor i : BitVec 32) (s : Process) : BitVec 32 :=
  let previous := loadInt previousFrame s
  let input := loadInt inputFrame s
  let sample (shift : Nat) :=
    between factor i (previous.sshiftRight shift &&& 0xFF) (input.sshiftRight shift &&& 0xFF)
  ((sample 24 <<< 8 ||| sample 8) <<< 16) ||| (sample 16 <<< 8 ||| sample 0)

def slowDownLoop (hp : AudioHeader) (factor : BitVec 32) :
    Nat → Nat → Bool → Process → Option (Bool × Process)
  | 0, _, noerror, s => some (noerror, s)
  | left + 1, i, noerror, s => do
    let s ← copyFrame previousFrame inputFrame s
    let (ok, s) := readInputFrame hp s
    let output := if hp.channels = 1 then interpolateMono factor (BitVec.ofNat 32 i) s
      else interpolateStereo factor (BitVec.ofNat 32 i) s
    let s := storeInt outputFrame output s
    let s := writeFrameOf inputFrame hp (writeFrameOf outputFrame hp s)
    slowDownLoop hp factor left (i + 1) (noerror && ok) s

def slowDown (hp : AudioHeader) (factor : BitVec 32) (s : Process) : Option (Bool × Process) :=
  let (_, s) := readFrame inputFrame hp.channels.toNat factor.toNat s
  let s := writeFrame inputFrame hp.channels.toNat factor.toNat s
  slowDownLoop hp factor (hp.dataSize / (factor * (hp.encoding + 1))).toNat 0 true s

-- The calls of myrand32 in one expression are made from left to right here; C does
-- not fix their order.
def keyFrame (hp : AudioHeader) (s : Process) : BitVec 32 × Process :=
  let (first, s) := myrand32 s
  let pair (mask : BitVec 32) (shift : Nat) : BitVec 32 × Process :=
    if hp.channels = 2 then
      let (second, s) := myrand32 s
      ((first &&& mask) <<< shift ||| (second &&& mask), s)
    else
      (first &&& mask, s)
  if hp.encoding = 2 then pair 0xFF 24
  else if hp.encoding = 3 then pair 0xFFFF 16
  else if hp.encoding = 4 then pair 0xFFFFFF 8
  else pair 0xFFFFFFFF 0

def cryptLoop (hp : AudioHeader) : Nat → Process → Process
  | 0, s => s
  | left + 1, s =>
    let (_, s) := readInputFrame hp s
    let (output, s) := keyFrame hp s
    let s := storeInt outputFrame output s
    let s := storeInt outputFrame (loadInt outputFrame s ^^^ loadInt inputFrame s) s
    cryptLoop hp left (writeFrameOf outputFrame hp s)

-- The data behind the header and the annotation.
def recodeData (options : BitVec 64) (factor : BitVec 32) (hp : AudioHeader) (s : Process) :
    Option (Bool × Process) := do
  let s := if options &&& optionU ≠ 0 then
    speedUpLoop hp factor (hp.dataSize / factor).toNat 0 s else s
  let (noerror, s) ← (if options &&& optionD ≠ 0 then slowDown hp factor s else some (true, s))
  let s := if options &&& optionC ≠ 0 then
      cryptLoop hp (hp.dataSize / frameSize hp).toNat (mysrand (options.setWidth 32) s)
    else s
  some (noerror, s)

-- The output, when the header and the annotation have been read.
def transform (options : BitVec 64) (argv : List (List Byte)) (hp : AudioHeader) (s : Process) :
    Option (Bool × Process) :=
  let annotationSize := hp.dataOffset - 24
  let factor := ((options >>> 48) &&& 0x03FF).setWidth 32 + 1
  let hp := { hp with dataSize := outputSize options factor hp }
  if options >>> 59 &&& 1 = 0 then do
    let (tempDef, s) ← prepending argv s
    let (annotationSize, s) ← padAnnotation 8 (annotationSize + BitVec.ofNat 32 tempDef) s
    let hp := { hp with dataOffset := annotationSize + 24 }
    if tempDef > annotationMax then some (false, s)
    else
      let s ← writeAnnotation outputAnnotation annotationSize.toNat (writeHeader hp s)
      recodeData options factor hp s
  else do
    let s ← writeAnnotation inputAnnotation annotationSize.toNat (writeHeader hp s)
    recodeData options factor hp s

-- The result is 1 or 0, or none when a buffer is left. A header that is not valid is noticed
-- behind the annotation, with nothing written before.
def recode (options : BitVec 64) (argv : List (List Byte)) (s : Process) :
    Option (Bool × Process) :=
  match readHeader s.stdin with
  | none => some (false, s)
  | some (hp, stdin) =>
    let annotationSize := hp.dataOffset - 24
    if annotationSize % 8 ≠ 0 ∨ annotationSize.toNat > annotationMax then
      some (false, { s with stdin })
    else
      match readAnnotation inputAnnotation annotationSize.toNat { s with stdin } with
      | (false, s) => some (false, s)
      | (true, s) => transform options argv hp s

end CSE320.Audible
