import CSE320.Audible.Prepend

namespace CSE320.Audible

open Lib (Byte)

-- The factor as recode takes it from global_options.
def factorWord (options : BitVec 64) : BitVec 32 := ((options >>> 48) &&& 0x03FF).setWidth 32 + 1

-- The header behind -u, -d or -c.
def outputHeader (options : BitVec 64) (hp : AudioHeader) (offset : BitVec 32) : AudioHeader :=
  { hp with dataSize := outputSize options (factorWord options) hp, dataOffset := offset }

-- The rounds of the loop that slows down, from the size that is in the header by then.
def slowDownRounds (options : BitVec 64) (hp : AudioHeader) : Nat :=
  (outputSize options (factorWord options) hp / (factorWord options * (hp.encoding + 1))).toNat

-- The run stays in the buffers: the annotation fits when it is rewritten, and with -d no
-- round copies a frame, for that copy reads and writes behind the frames.
def Inside (options : BitVec 64) (argv : List (List Byte)) (note : List Byte)
    (hp : AudioHeader) : Prop :=
  (options >>> 59 &&& 1 = 0 → AnnotationInside argv note) ∧
    (options &&& optionD ≠ 0 → slowDownRounds options hp = 0)

-- The run ends without an error, and behind a header and an annotation it writes the data.
def WritesData (options : BitVec 64) (argv : List (List Byte)) (stream : List Byte)
    (hp : AudioHeader) (data : List Byte) : Prop :=
  ∃ offset note, offset.toNat = note.length + 24 ∧ recoded options argv stream =
    some (true, headerBytes (outputHeader options hp offset) ++ (note ++ data))

-- The state in which the data begins, behind a header and an annotation that are written.
structure AtData (options : BitVec 64) (argv : List (List Byte)) (note data : List Byte)
    (hp : AudioHeader) (offset : BitVec 32) (note' : List Byte) (s : Process) : Prop where
  size : offset.toNat = note'.length + 24
  stdin : s.stdin = data
  stdout : s.stdout = headerBytes (outputHeader options hp offset) ++ note'
  written : note' = if options >>> 59 &&& 1 = 0 then annotationText argv note ++
      List.replicate (paddedSize argv note - (annotationText argv note).length) 0
    else note

theorem wordBytes_append_inj {val val' : BitVec 32} {rest rest' : List Byte}
    (h : wordBytes val ++ rest = wordBytes val' ++ rest') : val = val' ∧ rest = rest' := by
  have hread : readBytes (wordBytes val ++ rest) = some (val, rest) := readBytes_eq_some.mpr rfl
  rw [readBytes_eq_some.mpr h] at hread
  obtain ⟨hval, hrest⟩ := Prod.mk.inj (Option.some.inj hread)
  exact ⟨hval.symm, hrest.symm⟩

-- The header says where the data begins.
theorem output_inj {options : BitVec 64} {hp : AudioHeader} {offset offset' : BitVec 32}
    {note note' data data' : List Byte} (hoffset : offset.toNat = note.length + 24)
    (hoffset' : offset'.toNat = note'.length + 24)
    (h : headerBytes (outputHeader options hp offset) ++ (note ++ data) =
      headerBytes (outputHeader options hp offset') ++ (note' ++ data')) : note = note' ∧
        data = data' := by
  simp only [headerBytes, outputHeader, List.append_assoc] at h
  obtain ⟨hsame, hrest⟩ := wordBytes_append_inj (List.append_cancel_left h)
  rw [List.append_cancel_left_eq, List.append_cancel_left_eq, List.append_cancel_left_eq,
    List.append_cancel_left_eq] at hrest
  have hlength : note.length = note'.length := by
    rw [hsame] at hoffset
    omega
  exact List.append_inj hrest hlength

theorem writesData_iff {options : BitVec 64} {argv : List (List Byte)} {stream : List Byte}
    {hp : AudioHeader} {offset : BitVec 32} {note written data : List Byte} {ok : Bool}
    (hoffset : offset.toNat = note.length + 24)
    (hout : recoded options argv stream =
      some (ok, headerBytes (outputHeader options hp offset) ++ (note ++ written))) :
    WritesData options argv stream hp data ↔ ok = true ∧ data = written := by
  constructor
  · rintro ⟨offset', note', hoffset', hout'⟩
    rw [hout] at hout'
    obtain ⟨hok, heq⟩ := Prod.mk.inj (Option.some.inj hout')
    exact ⟨hok, (output_inj hoffset hoffset' heq).2.symm⟩
  · rintro ⟨rfl, rfl⟩
    exact ⟨offset, note, hoffset, hout⟩

section

variable {options : BitVec 64} {argv : List (List Byte)} {stream note data : List Byte}
  {hp : AudioHeader} (h : ValidAnnotation stream hp note data)

include h

theorem recode_of_prepends (hprepends : options >>> 59 &&& 1 = 0)
    (hinside : AnnotationInside argv note) :
    ∃ offset note' s, AtData options argv note data hp offset note' s ∧
      recode options argv (.start stream) =
        recodeData options (factorWord options) (outputHeader options hp offset) s := by
  obtain ⟨hmod, hle, -⟩ := annotationText_length h argv
  obtain ⟨s, size, s', hprepending, hpadding, hsize, hin, hout, hbytes⟩ :=
    padded_of_inside h hinside
  obtain ⟨htext, hmost, -⟩ := hinside
  have hargv : ¬(argvText argv).length > annotationMax := by
    rw [annotationText, List.length_append] at htext
    omega
  rw [h.recode_eq, transform]
  simp only [if_pos hprepends, hprepending, hpadding, Option.bind_eq_bind, Option.bind_some,
    if_neg hargv, writeHeader_eq, writeAnnotation_eq, hsize, if_pos hmost]
  refine ⟨size + 24, annotationText argv note ++
    List.replicate (paddedSize argv note - (annotationText argv note).length) 0, _, ?_, rfl⟩
  constructor
  case size =>
    have hmax : annotationMax = 1024 := rfl
    rw [BitVec.toNat_add, hsize, List.length_append, List.length_replicate]
    show (paddedSize argv note + 24) % 2 ^ 32 = _
    omega
  case stdin => exact hin
  case stdout =>
    show s'.stdout ++ _ ++ memoryBytes s' outputAnnotation (paddedSize argv note) = _
    rw [hout, hbytes]
    rfl
  case written => rw [if_pos hprepends]

theorem recode_of_kept (hkept : options >>> 59 &&& 1 ≠ 0) :
    ∃ offset note' s, AtData options argv note data hp offset note' s ∧
      recode options argv (.start stream) =
        recodeData options (factorWord options) (outputHeader options hp offset) s := by
  obtain ⟨hlen, -, -⟩ := h.annotation_spec
  obtain ⟨hin, hout, -⟩ := storeBytes_with inputAnnotation note (.start data)
  have hbytes := memoryBytes_storeBytes inputAnnotation note (.start data)
  have hroom : note.length ≤ annotationMax := Nat.le_succ_of_le hlen
  rw [h.recode_eq, transform]
  simp only [if_neg hkept, ← h.offset, writeHeader_eq, writeAnnotation_eq, if_pos hroom,
    Option.bind_eq_bind, Option.bind_some]
  refine ⟨hp.dataOffset, note, _, ?_, rfl⟩
  constructor
  case size =>
    have hsub : note.length = (2 ^ 32 - 24 + hp.dataOffset.toNat) % 2 ^ 32 :=
      h.offset.trans (BitVec.toNat_sub _ _)
    have hlt := hp.dataOffset.isLt
    omega
  case stdin => exact hin
  case stdout =>
    show (storeBytes inputAnnotation note (.start data)).stdout ++ _ ++
      memoryBytes (storeBytes inputAnnotation note (.start data)) inputAnnotation note.length = _
    rw [hout, hbytes]
    rfl
  case written => rw [if_neg hkept]

-- With -p and without it, the data comes behind a header and an annotation.
theorem recode_eq_data (hfits : options >>> 59 &&& 1 = 0 → AnnotationInside argv note) :
    ∃ offset note' s, AtData options argv note data hp offset note' s ∧
      recode options argv (.start stream) =
        recodeData options (factorWord options) (outputHeader options hp offset) s := by
  by_cases hprepends : options >>> 59 &&& 1 = 0
  · exact recode_of_prepends h hprepends (hfits hprepends)
  · exact recode_of_kept h hprepends

theorem recode_of_outside (hprepends : options >>> 59 &&& 1 = 0)
    (houtside : ¬AnnotationInside argv note) : recode options argv (.start stream) = none := by
  rw [h.recode_eq, transform]
  simp only [if_pos hprepends]
  rcases padded_of_outside h houtside with hnone | ⟨s, hprepending, hargv, hnone | hmany⟩
  · rw [hnone]
    rfl
  · simp only [hprepending, hnone, Option.bind_eq_bind, Option.bind_some, Option.bind_none]
  · obtain ⟨size, s', hpadding, hsize⟩ := hmany
    simp only [hprepending, hpadding, Option.bind_eq_bind, Option.bind_some,
      if_neg (Nat.not_lt.mpr hargv), writeAnnotation_eq, if_neg (Nat.not_le.mpr hsize),
      Option.bind_none]

end

-- The third word is behind the frames.
theorem copyFrame_eq (one two : Nat) (s : Process) : copyFrame one two s = none := by
  simp [copyFrame, copyFrameLoop, loadFrame, storeFrame, channelsMax]

theorem slowDownLoop_eq (hp : AudioHeader) (factor : BitVec 32) (left i : Nat) (noerror : Bool)
    (s : Process) :
    slowDownLoop hp factor left i noerror s = if left = 0 then some (noerror, s) else none := by
  cases left with
  | zero => rfl
  | succ left =>
      rw [slowDownLoop, copyFrame_eq, if_neg (Nat.succ_ne_zero left)]
      rfl

-- Without a round the first frame alone is read and written, with the factor for the size of
-- a sample.
theorem slowDown_eq (hp : AudioHeader) (factor : BitVec 32) (s : Process) :
    slowDown hp factor s =
      if (hp.dataSize / (factor * (hp.encoding + 1))).toNat = 0 then
        some (true, writeFrame inputFrame hp.channels.toNat factor.toNat
          (readFrame inputFrame hp.channels.toNat factor.toNat s).2)
      else none := slowDownLoop_eq hp factor _ 0 true _

section

variable {options : BitVec 64} {factor : BitVec 32} {hp : AudioHeader} {s : Process}

-- Nothing but the loop that slows down can leave a buffer behind the annotation.
theorem recodeData_eq_none_iff : recodeData options factor hp s = none ↔
    options &&& optionD ≠ 0 ∧ (hp.dataSize / (factor * (hp.encoding + 1))).toNat ≠ 0 := by
  rw [recodeData]
  by_cases hd : options &&& optionD ≠ 0
  · rw [if_pos hd, slowDown_eq]
    by_cases hnone : (hp.dataSize / (factor * (hp.encoding + 1))).toNat = 0
    · rw [if_pos hnone]
      exact iff_of_false (Option.some_ne_none _) fun h => h.2 hnone
    · rw [if_neg hnone]
      exact iff_of_true rfl ⟨hd, hnone⟩
  · rw [if_neg hd]
    exact iff_of_false (Option.some_ne_none _) fun h => hd h.1

end

-- The runs that leave a buffer.
theorem recoded_eq_none_iff {options : BitVec 64} {argv : List (List Byte)}
    {stream note data : List Byte} {hp : AudioHeader} (h : ValidAnnotation stream hp note data) :
    recoded options argv stream = none ↔ ¬Inside options argv note hp := by
  rw [recoded, Option.map_eq_none_iff, Inside]
  by_cases hfits : options >>> 59 &&& 1 = 0 → AnnotationInside argv note
  · obtain ⟨offset, note', s, -, hrun⟩ := recode_eq_data h hfits
    rw [hrun, recodeData_eq_none_iff, and_iff_right hfits, Classical.not_imp]
    rfl
  · obtain ⟨hprepends, houtside⟩ := Classical.not_imp.mp hfits
    exact iff_of_true (recode_of_outside h hprepends houtside) fun hinside => hfits hinside.1

section

variable {options : BitVec 64} {argv : List (List Byte)} {stream note data note' : List Byte}
  {hp : AudioHeader} {offset : BitVec 32} {s : Process}
  (hs : AtData options argv note data hp offset note' s)

include hs

-- The last byte of the annotation is NUL unless the input has no annotation and the text of
-- argv fills the last eight bytes.
theorem AtData.last_written (h : ValidAnnotation stream hp note data) :
    8 ∣ note'.length ∧ (note' = [] ∨ note'.getLast? = some 0 ↔
      (options >>> 59 &&& 1 = 0 → note ≠ [] ∨ (argvText argv).length % 8 ≠ 0)) := by
  obtain ⟨hmod, hle, hroom⟩ := annotationText_length h argv
  obtain ⟨-, hend, -⟩ := h.annotation_spec
  have hwritten := hs.written
  by_cases hprepends : options >>> 59 &&& 1 = 0
  · rw [if_pos hprepends] at hwritten
    have hlength : note'.length = paddedSize argv note := by
      rw [hwritten, List.length_append, List.length_replicate]
      omega
    have hne : note' ≠ [] := by
      rw [hwritten]
      simp [annotationText, argvText]
    refine ⟨hlength ▸ Nat.dvd_mul_left 8 _, ?_⟩
    rw [forall_prop_of_true hprepends, or_iff_right hne, ← hroom]
    constructor
    · -- a text that fills the annotation ends with the newline
      intro hzero
      by_contra hfull
      have hneither := mt hroom.mpr hfull
      rw [not_or, not_not] at hneither
      obtain ⟨rfl, -⟩ := hneither
      rw [hwritten, Nat.sub_eq_zero_of_le (Nat.le_of_not_lt hfull), List.replicate_zero,
        List.append_nil, annotationText, List.takeWhile_nil, List.append_nil, argvText,
        List.getLast?_append_of_ne_nil _ (List.cons_ne_nil _ _)] at hzero
      exact absurd hzero (by decide)
    · intro hless
      obtain ⟨k, hk⟩ := Nat.exists_eq_add_of_lt hless
      rw [hwritten, hk, (by omega : (annotationText argv note).length + k + 1 -
        (annotationText argv note).length = k + 1), List.replicate_succ', ← List.append_assoc]
      exact List.getLast?_concat
  · rw [if_neg hprepends] at hwritten
    rw [hwritten, List.getLast?_eq_getElem?]
    exact ⟨Nat.dvd_of_mod_eq_zero hmod, iff_of_true hend fun hzero => absurd hzero hprepends⟩

end

end CSE320.Audible
