import CSE320.Audible.WellFormed

namespace CSE320.Audible

open Lib (Byte)

-- The size of a text with at least one NUL behind it.
def terminatedSize (text : List Byte) : Nat := (text.length + 1 + 7) / 8 * 8

-- Either nothing is written, or the text and the padding.
def AnnotationRewritten (options : BitVec 64) (argv : List (List Byte)) (stream note : List Byte)
    (hp : AudioHeader) : Prop :=
  let text := annotationText argv note
  if terminatedSize text > annotationMax then
    recoded options argv stream = some (false, [])
  else
    ∃ ok offset note' data, offset.toNat = note'.length + 24 ∧
      recoded options argv stream =
        some (ok, headerBytes (outputHeader options hp offset) ++ (note' ++ data)) ∧
      8 ∣ note'.length ∧ ∃ k, 1 ≤ k ∧ note' = text ++ List.replicate k 0

-- Nothing but the mode decides what comes behind the annotation.
theorem recodeData_writes {options : BitVec 64} {factor : BitVec 32} (hpos : 0 < factor.toNat)
    {hp : AudioHeader} {s : Process} {result : Bool × Process}
    (h : recodeData options factor hp s = some result) :
    ∃ bytes, result.2.stdout = s.stdout ++ bytes := by
  have hup : ∃ count, Writes s (if options &&& optionU ≠ 0 then
      speedUpLoop hp factor (hp.dataSize / factor).toNat 0 s else s) count := by
    split
    · exact ⟨_, writes_speedUpLoop hp hpos _ _ s⟩
    · exact ⟨0, Writes.of_eq rfl⟩
  unfold recodeData at h
  generalize (if options &&& optionU ≠ 0 then speedUpLoop hp factor (hp.dataSize / factor).toNat 0 s
    else s) = up at hup h
  obtain ⟨_, hup⟩ := hup
  obtain ⟨down, hdown, hrest⟩ := Option.bind_eq_some_iff.mp h
  have hslow : ∃ count, Writes up down.2 count := by
    split at hdown
    · rw [slowDown_eq] at hdown
      split at hdown
      · obtain rfl := Option.some.inj hdown
        obtain ⟨hreadOut, -, -⟩ := readFrame_io inputFrame hp.channels.toNat factor.toNat up
        obtain ⟨hfirst, -⟩ := writes_writeFrame inputFrame hp.channels.toNat factor.toNat
          (readFrame inputFrame hp.channels.toNat factor.toNat up).2
        exact ⟨_, (Writes.of_eq hreadOut).trans hfirst⟩
      · cases hdown
    · obtain rfl := Option.some.inj hdown
      exact ⟨0, Writes.of_eq rfl⟩
  obtain ⟨_, hslow⟩ := hslow
  have hcrypt : ∃ count, Writes down.2 (if options &&& optionC ≠ 0 then
      cryptLoop hp (hp.dataSize / frameSize hp).toNat (mysrand (options.setWidth 32) down.2)
        else down.2) count := by
    split
    · exact ⟨_, writes_cryptLoop hp _ (mysrand (options.setWidth 32) down.2)⟩
    · exact ⟨0, Writes.of_eq rfl⟩
  obtain ⟨_, hcrypt⟩ := hcrypt
  obtain ⟨bytes, hbytes, -⟩ := (hup.trans hslow).trans hcrypt
  obtain rfl := Option.some.inj hrest
  exact ⟨bytes, hbytes⟩

-- A text that fits with its NUL is shorter than the annotation or fills it.
theorem terminatedSize_of_inside {argv : List (List Byte)} {note : List Byte}
    (h : AnnotationInside argv note) :
    terminatedSize (annotationText argv note) ≤ annotationMax := by
  have hmax : annotationMax = 1024 := rfl
  have htext := h.1
  unfold terminatedSize
  omega

-- In the buffers the annotation is rewritten as it should be exactly when there is an
-- annotation in the input or the text of argv does not fill the last eight bytes. A text
-- that is too long is never noticed: it leaves the buffers.
theorem annotationRewritten_iff {options : BitVec 64} (hprepends : options >>> 59 &&& 1 = 0)
    (argv : List (List Byte)) {stream note data : List Byte} {hp : AudioHeader}
    (h : ValidAnnotation stream hp note data) :
    (recoded options argv stream = none ↔ ¬Inside options argv note hp) ∧
    (Inside options argv note hp → terminatedSize (annotationText argv note) ≤ annotationMax ∧
      (AnnotationRewritten options argv stream note hp ↔
        note ≠ [] ∨ (argvText argv).length % 8 ≠ 0)) := by
  refine ⟨recoded_eq_none_iff h, fun hinside => ?_⟩
  have hshort := terminatedSize_of_inside (hinside.1 hprepends)
  obtain ⟨hmod, hle, hroom⟩ := annotationText_length h argv
  obtain ⟨hfactor, hfactorPos, -⟩ := factor_toNat options
  obtain ⟨offset, note', s, hs, hrun⟩ := recode_eq_data h hinside.1
  have hsome : recode options argv (.start stream) ≠ none := fun hnone =>
    (recoded_eq_none_iff h).mp (congrArg (Option.map _) hnone) hinside
  obtain ⟨⟨ok, s'⟩, hresult⟩ := Option.ne_none_iff_exists'.mp hsome
  obtain ⟨bytes, hbytes⟩ := recodeData_writes (hfactor ▸ hfactorPos) (hrun ▸ hresult)
  have hout : recoded options argv stream =
      some (ok, headerBytes (outputHeader options hp offset) ++ (note' ++ bytes)) := by
    rw [hs.stdout, List.append_assoc] at hbytes
    rw [recoded, hresult, ← hbytes]
    rfl
  have hwritten := hs.written
  rw [if_pos hprepends] at hwritten
  refine ⟨hshort, ?_⟩
  rw [AnnotationRewritten, if_neg (Nat.not_lt.mpr hshort), ← hroom]
  constructor
  · rintro ⟨ok', offset', written, data', hoffset', hout', -, k, hk, rfl⟩
    rw [hout] at hout'
    obtain ⟨-, heq⟩ := Prod.mk.inj (Option.some.inj hout')
    obtain ⟨hsame, -⟩ := output_inj hs.size hoffset' heq
    have hlength := congrArg List.length (hwritten.symm.trans hsame)
    rw [List.length_append, List.length_append, List.length_replicate, List.length_replicate]
      at hlength
    omega
  · intro hless
    exact ⟨ok, offset, note', bytes, hs.size, hout, (hs.last_written h).1, _,
      Nat.sub_pos_of_lt hless, hwritten⟩

def emptyHeader : AudioHeader := ⟨0x2e736e64, 24, 0, 2, 8000, 1⟩

theorem annotationRewritten_of_short :
    let argv := [Lib.ascii "audible", Lib.ascii "-u"]
    Inside optionU argv [] emptyHeader ∧
      AnnotationRewritten optionU argv (headerBytes emptyHeader) [] emptyHeader := by
  intro argv
  have hvalid : ValidAnnotation (headerBytes emptyHeader) emptyHeader [] [] :=
    ⟨by decide +kernel, by decide, by decide⟩
  have hinside : Inside optionU argv [] emptyHeader :=
    ⟨fun _ => ⟨by decide, by decide, by decide⟩, fun hd => absurd (by decide) hd⟩
  obtain ⟨-, hiff⟩ := annotationRewritten_iff (by decide : optionU >>> 59 &&& 1 = 0) argv hvalid
  exact ⟨hinside, (hiff hinside).2.mpr (Or.inr (by decide))⟩

-- The text of argv has 16 characters, and no NUL is written behind it.
theorem not_annotationRewritten_of_full :
    let argv := [Lib.ascii "audible", Lib.ascii "-u", Lib.ascii "-f", Lib.ascii "1"]
    validargs argv = (true, optionU) ∧ ValidAnnotation (headerBytes emptyHeader) emptyHeader [] [] ∧
      Inside optionU argv [] emptyHeader ∧
      recoded optionU argv (headerBytes emptyHeader) =
        some (true, headerBytes (outputHeader optionU emptyHeader 40) ++ (argvText argv ++ [0])) ∧
      ¬AnnotationRewritten optionU argv (headerBytes emptyHeader) [] emptyHeader := by
  intro argv
  have hout : recoded optionU argv (headerBytes emptyHeader) =
      some (true, headerBytes (outputHeader optionU emptyHeader 40) ++ (argvText argv ++ [0])) := by
    decide +kernel
  refine ⟨by decide +kernel, ⟨by decide +kernel, by decide, by decide⟩,
    ⟨fun _ => ⟨by decide, by decide, by decide⟩, fun hd => absurd (by decide) hd⟩, hout, ?_⟩
  unfold AnnotationRewritten
  rw [if_neg (by decide)]
  rintro ⟨ok, offset, note', data, hoffset, hout', -, k, hk, rfl⟩
  rw [hout] at hout'
  obtain ⟨-, heq⟩ := Prod.mk.inj (Option.some.inj hout')
  obtain ⟨hnote, -⟩ := output_inj (by decide) hoffset heq
  have hlength := congrArg List.length hnote
  rw [List.length_append, List.length_replicate, annotationText, List.length_append] at hlength
  omega

end CSE320.Audible
