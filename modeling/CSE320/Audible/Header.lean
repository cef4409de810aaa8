import CSE320.Audible.Stream

namespace CSE320.Audible

open Lib (Byte)

-- A word is read into what it held before. The shift comes before the end of the input
-- is noticed.
def readBytesLoop : Nat → BitVec 32 → List Byte → Bool × BitVec 32 × List Byte
  | 0, hp, stdin => (true, hp, stdin)
  | left + 1, hp, stdin =>
    let hp := hp <<< 8
    match stdin with
    | [] => (false, hp, [])
    | temp :: stdin => readBytesLoop left (hp ||| temp.setWidth 32) stdin

def readBytesInto (hp : BitVec 32) (stdin : List Byte) : Bool × BitVec 32 × List Byte :=
  readBytesLoop 4 hp stdin

-- One field of the structure. An error keeps what has been read of it.
def readField (field : BitVec 32) (put : BitVec 32 → AudioHeader) (stdin : List Byte) :
    Except (AudioHeader × List Byte) (AudioHeader × List Byte) :=
  match readBytesInto field stdin with
  | (true, field, stdin) => .ok (put field, stdin)
  | (false, field, stdin) => .error (put field, stdin)

def readFields (hp : AudioHeader) (stdin : List Byte) :
    Except (AudioHeader × List Byte) (AudioHeader × List Byte) := do
  let (hp, stdin) ← readField hp.magicNumber (fun magicNumber => { hp with magicNumber }) stdin
  let (hp, stdin) ← readField hp.dataOffset (fun dataOffset => { hp with dataOffset }) stdin
  let (hp, stdin) ← readField hp.dataSize (fun dataSize => { hp with dataSize }) stdin
  let (hp, stdin) ← readField hp.encoding (fun encoding => { hp with encoding }) stdin
  let (hp, stdin) ← readField hp.sampleRate (fun sampleRate => { hp with sampleRate }) stdin
  let (hp, stdin) ← readField hp.channels (fun channels => { hp with channels }) stdin
  if validHeader hp then .ok (hp, stdin) else .error (hp, stdin)

-- The result, the structure and the rest of the input.
def readHeaderInto (hp : AudioHeader) (stdin : List Byte) : Bool × AudioHeader × List Byte :=
  match readFields hp stdin with
  | .ok read => (true, read)
  | .error read => (false, read)

-- Four shifts leave nothing of the initial content.
theorem readBytesInto_eq (hp : BitVec 32) (a b c d : Byte) (rest : List Byte) :
    readBytesInto hp (a :: b :: c :: d :: rest) = (true, Lib.word d c b a, rest) := by
  have hzero := byte_shift hp a
  have hone := byte_shift (hp <<< 8 ||| a.setWidth 32) b
  have htwo := byte_shift ((hp <<< 8 ||| a.setWidth 32) <<< 8 ||| b.setWidth 32) c
  have hthree :=
    byte_shift (((hp <<< 8 ||| a.setWidth 32) <<< 8 ||| b.setWidth 32) <<< 8 ||| c.setWidth 32) d
  have hword :
      (((hp <<< 8 ||| a.setWidth 32) <<< 8 ||| b.setWidth 32) <<< 8 ||| c.setWidth 32) <<< 8 |||
      d.setWidth 32 = Lib.word d c b a := by
    rw [← Lib.word_bytes (_ ||| d.setWidth 32)]
    simp only [hzero, hone, htwo, hthree]
  simp only [readBytesInto, readBytesLoop, hword]

theorem readBytesInto_short (hp : BitVec 32) {stdin : List Byte} (h : stdin.length < 4) :
    (readBytesInto hp stdin).1 = false := by
  match stdin with
  | [] => rfl
  | [_] => rfl
  | [_, _] => rfl
  | [_, _, _] => rfl
  | _ :: _ :: _ :: _ :: _ => simp at h; omega

theorem readBytesInto_eq_true {hp val : BitVec 32} {stdin rest : List Byte} :
    readBytesInto hp stdin = (true, val, rest) ↔ stdin = wordBytes val ++ rest := by
  constructor
  · intro h
    by_cases hlen : stdin.length < 4
    · have hfalse := readBytesInto_short hp hlen
      rw [h] at hfalse
      cases hfalse
    · obtain ⟨a, b, c, d, stdin, rfl⟩ : ∃ a b c d rest, stdin = a :: b :: c :: d :: rest := by
        match stdin with
        | a :: b :: c :: d :: rest => exact ⟨a, b, c, d, rest, rfl⟩
        | [] | [_] | [_, _] | [_, _, _] => simp at hlen
      rw [readBytesInto_eq] at h
      injection h with _ h
      injection h with hval hrest
      subst hval hrest
      simp [wordBytes]
  · rintro rfl
    rw [wordBytes, List.cons_append, List.cons_append, List.cons_append, List.cons_append,
      readBytesInto_eq, Lib.word_bytes, List.nil_append]

theorem readField_eq_ok {field : BitVec 32} {put : BitVec 32 → AudioHeader} {stdin rest : List Byte}
    {hp : AudioHeader} :
    readField field put stdin = .ok (hp, rest) ↔
      ∃ val, stdin = wordBytes val ++ rest ∧ put val = hp := by
  unfold readField
  split
  · rename_i val stdin' heq
    rw [readBytesInto_eq_true] at heq
    subst heq
    constructor
    · intro h
      injection h with h
      injection h with hput hrest
      exact ⟨val, by rw [hrest], hput⟩
    · rintro ⟨val', heq, hput⟩
      have hval : readBytesInto field (wordBytes val ++ stdin') = (true, val, stdin') :=
        readBytesInto_eq_true.mpr rfl
      rw [heq, readBytesInto_eq_true.mpr rfl] at hval
      injection hval with _ hval
      injection hval with hval hrest
      rw [← hval, ← hrest, hput]
  · rename_i val stdin' heq
    constructor
    · intro h
      cases h
    · rintro ⟨val', rfl, -⟩
      rw [readBytesInto_eq_true.mpr rfl] at heq
      cases heq

-- What the fields are read into does not matter.
theorem readHeaderInto_eq_true {hp read : AudioHeader} {stdin rest : List Byte} :
    readHeaderInto hp stdin = (true, read, rest) ↔
      validHeader read = true ∧ stdin = headerBytes read ++ rest := by
  have hok : readHeaderInto hp stdin = (true, read, rest) ↔
      readFields hp stdin = .ok (read, rest) := by
    unfold readHeaderInto
    split
    · rename_i hread
      simp [hread]
    · rename_i hread
      simp [hread]
  have hbind {α β γ : Type} (x : Except γ α) (f : α → Except γ β) (y : β) :
      x.bind f = .ok y ↔ ∃ a, x = .ok a ∧ f a = .ok y := by
    cases x <;> simp [Except.bind]
  rw [hok, readFields]
  simp only [bind, hbind, Prod.exists, readField_eq_ok]
  constructor
  · rintro ⟨_, _, ⟨magicNumber, rfl, rfl⟩, _, _, ⟨dataOffset, rfl, rfl⟩, _, _, ⟨dataSize, rfl, rfl⟩,
      _, _, ⟨encoding, rfl, rfl⟩, _, _, ⟨sampleRate, rfl, rfl⟩, _, _, ⟨channels, rfl, rfl⟩, h⟩
    split at h
    · rename_i hvalid
      injection h with h
      injection h with hread hrest
      subst hread hrest
      exact ⟨hvalid, by simp [headerBytes, List.append_assoc]⟩
    · cases h
  · rintro ⟨hvalid, rfl⟩
    refine ⟨_, _, ⟨read.magicNumber, ?_, rfl⟩, _, _, ⟨read.dataOffset, rfl, rfl⟩, _, _,
      ⟨read.dataSize, rfl, rfl⟩, _, _, ⟨read.encoding, rfl, rfl⟩, _, _, ⟨read.sampleRate, rfl, rfl⟩,
      _, _, ⟨read.channels, rfl, rfl⟩, if_pos hvalid⟩
    simp [headerBytes, List.append_assoc]

-- A header that is read into fresh words is the one that is read into any structure.
theorem readHeader_eq_into (hp : AudioHeader) (stdin : List Byte) :
    readHeader stdin = if (readHeaderInto hp stdin).1 then some (readHeaderInto hp stdin).2
      else none := by
  rcases hread : readHeaderInto hp stdin with ⟨_ | _, read, rest⟩
  · have hnone : ∀ other, readHeader stdin ≠ some other := by
      intro other hsome
      have hinto : readHeaderInto hp stdin = (true, other.1, other.2) :=
        readHeaderInto_eq_true.mpr (readHeader_eq_some.mp hsome)
      rw [hread] at hinto
      cases hinto
    exact Option.eq_none_iff_forall_ne_some.mpr hnone
  · exact readHeader_eq_some.mpr (readHeaderInto_eq_true.mp hread)

-- What the check of a header stands for.
structure HeaderValues (hp : AudioHeader) : Prop where
  magicNumber : hp.magicNumber.toNat = 0x2e736e64
  dataOffset : 8 ∣ hp.dataOffset.toNat
  encoding : 2 ≤ hp.encoding.toNat ∧ hp.encoding.toNat ≤ 5
  channels : 1 ≤ hp.channels.toNat ∧ hp.channels.toNat ≤ 2

theorem validHeader_iff (hp : AudioHeader) : validHeader hp = true ↔ HeaderValues hp := by
  simp only [validHeader, Bool.and_eq_true, Bool.or_eq_true, decide_eq_true_eq, ← BitVec.toNat_inj,
    BitVec.reduceToNat]
  constructor
  · rintro ⟨⟨⟨hmagic, hoffset⟩, hencoding⟩, hchannels⟩
    exact ⟨hmagic, Nat.dvd_of_mod_eq_zero hoffset, by omega, by omega⟩
  · rintro ⟨hmagic, hoffset, hencoding, hchannels⟩
    exact ⟨⟨⟨hmagic, Nat.mod_eq_zero_of_dvd hoffset⟩, by omega⟩, by omega⟩

@[simp] theorem length_headerBytes (hp : AudioHeader) : (headerBytes hp).length = 24 := rfl

-- The codec of the header, in both directions.
theorem readHeaderInto_iff (hp : AudioHeader) (stdin : List Byte) :
    ((readHeaderInto hp stdin).1 = true ↔
        24 ≤ stdin.length ∧ ∃ header, HeaderValues header ∧ stdin.take 24 = headerBytes header) ∧
      ((readHeaderInto hp stdin).1 = true →
        headerBytes (readHeaderInto hp stdin).2.1 = stdin.take 24 ∧
          (readHeaderInto hp stdin).2.2 = stdin.drop 24) ∧
      ∀ header, HeaderValues header → ∀ s : Process,
        (writeHeader header s).stdout = s.stdout ++ headerBytes header ∧
          readHeaderInto hp ((writeHeader header s).stdout.drop s.stdout.length) =
            (true, header, []) := by
  have hread : ∀ {header rest}, readHeaderInto hp stdin = (true, header, rest) →
      24 ≤ stdin.length ∧ HeaderValues header ∧ stdin.take 24 = headerBytes header ∧
        rest = stdin.drop 24 := by
    intro header rest h
    obtain ⟨hvalid, rfl⟩ := readHeaderInto_eq_true.mp h
    have hdrop : (headerBytes header ++ rest).drop 24 = rest := List.drop_left' rfl
    exact ⟨by simp, (validHeader_iff header).mp hvalid, List.take_left' rfl, hdrop.symm⟩
  refine ⟨⟨?_, ?_⟩, ?_, ?_⟩
  · intro h
    obtain ⟨hlen, hvalues, htake, -⟩ := hread (Prod.ext h rfl)
    exact ⟨hlen, _, hvalues, htake⟩
  · rintro ⟨-, header, hvalues, htake⟩
    have hstdin : stdin = headerBytes header ++ stdin.drop 24 := by
      rw [← htake, List.take_append_drop]
    rw [readHeaderInto_eq_true.mpr ⟨(validHeader_iff header).mpr hvalues, hstdin⟩]
  · intro h
    obtain ⟨-, -, htake, hrest⟩ := hread (Prod.ext h rfl)
    exact ⟨htake.symm, hrest⟩
  · intro header hvalues s
    have hout : (writeHeader header s).stdout = s.stdout ++ headerBytes header := by
      rw [writeHeader_eq]
      rfl
    refine ⟨hout, ?_⟩
    rw [hout, List.drop_left]
    exact readHeaderInto_eq_true.mpr ⟨(validHeader_iff header).mpr hvalues,
      (List.append_nil _).symm⟩

end CSE320.Audible
