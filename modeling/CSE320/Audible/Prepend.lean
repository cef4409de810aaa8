import CSE320.Audible.Crypt
import Mathlib.Data.List.TakeWhile

namespace CSE320.Audible

open Lib (Byte)

-- The strings of argv with a blank between them and a newline at the end.
def argvText (argv : List (List Byte)) : List Byte := (List.intersperse [32] argv).flatten ++ [10]

-- The strings of argv and the text of the original annotation.
def annotationText (argv : List (List Byte)) (note : List Byte) : List Byte :=
  argvText argv ++ note.takeWhile (· ≠ 0)

-- The size of the annotation that is written.
def paddedSize (argv : List (List Byte)) (note : List Byte) : Nat :=
  (note.length + (argvText argv).length + 7) / 8 * 8

-- The text with its NUL and the bytes that are written are in the output annotation, and
-- the zeros of the padding in the input annotation.
def AnnotationInside (argv : List (List Byte)) (note : List Byte) : Prop :=
  (annotationText argv note).length < annotationMax ∧ paddedSize argv note ≤ annotationMax ∧
    ((argvText argv).length % 8 ≠ 0 → paddedSize argv note < annotationMax)

theorem storeString_append (sizeOutput : Nat) (str str' : List Byte) (s : Process) :
    storeString sizeOutput (str ++ str') s =
      (storeString sizeOutput str s).bind (storeString (sizeOutput + str.length) str') := by
  induction str generalizing sizeOutput s with
  | nil => rfl
  | cons c str ih =>
      simp only [List.cons_append, storeString, Option.bind_eq_bind, ih, Option.bind_assoc,
        List.length_cons, Nat.add_assoc, Nat.add_comm 1]

theorem storeString_eq (sizeOutput : Nat) (str : List Byte) (s : Process) :
    storeString sizeOutput str s =
      if str = [] ∨ sizeOutput + str.length ≤ annotationMax then
        some (storeBytes ( outputAnnotation + sizeOutput) str s)
      else none := by
  induction str generalizing sizeOutput s with
  | nil => rfl
  | cons c str ih =>
      rw [storeString, storeByte]
      by_cases hin : sizeOutput < annotationMax
      · have hiff : str = [] ∨ sizeOutput + 1 + str.length ≤ annotationMax ↔
            c :: str = [] ∨ sizeOutput + (c :: str).length ≤ annotationMax := by
          simp only [List.length_cons, reduceCtorEq, false_or]
          constructor
          · rintro (rfl | hle)
            · rw [List.length_nil]
              omega
            · omega
          · intro hle
            exact Or.inr (by omega)
        rw [if_pos hin, Option.bind_eq_bind, Option.bind_some, ih]
        simp only [hiff]
        rfl
      · rw [if_neg hin, if_neg]
        · rfl
        · rintro (hnil | hle)
          · cases hnil
          · rw [List.length_cons] at hle
            omega

theorem storeArgv_eq (argv : List (List Byte)) (sizeOutput : Nat) (s : Process) :
    storeArgv sizeOutput argv s =
      (storeString sizeOutput (List.intersperse [32] argv).flatten s).map fun s =>
        (sizeOutput + (List.intersperse [32] argv).flatten.length, s) := by
  induction argv generalizing sizeOutput s with
  | nil => rfl
  | cons str argv ih =>
      cases argv with
      | nil =>
          simp only [storeArgv, List.intersperse_singleton, List.flatten_singleton]
          cases storeString sizeOutput str s with
          | none => rfl
          | some s => rfl
      | cons str' argv =>
          have hsize (rest : List Byte) : sizeOutput + str.length + 1 + rest.length =
              sizeOutput + (str ++ ([32] ++ rest)).length := by
            simp only [List.length_append, List.length_singleton]
            omega
          rw [storeArgv, List.intersperse_cons_cons, List.flatten_cons, List.flatten_cons,
            ← hsize, storeString_append]
          · cases storeString sizeOutput str s with
            | none => rfl
            | some s =>
                simp only [Option.bind_eq_bind, Option.bind_some, List.singleton_append,
                  storeString]
                cases storeByte outputAnnotation (sizeOutput + str.length) 32 s with
                | none => rfl
                | some s => exact ih _ _
          · simp

theorem prepending_eq (argv : List (List Byte)) (s : Process) :
    prepending argv s = (storeString 0 (argvText argv) s).bind fun s =>
      ( copyAnnotation (argvText argv).length annotationMax 0 s).map fun s =>
        ((argvText argv).length, s) := by
  rw [prepending, storeArgv_eq, argvText, storeString_append, List.length_append,
    List.length_singleton, Nat.zero_add]
  cases storeString 0 (List.intersperse [32] argv).flatten s with
  | none => rfl
  | some s =>
      simp only [Option.bind_eq_bind, Option.bind_some, Option.map_some, storeString]
      cases storeByte outputAnnotation (List.intersperse [32] argv).flatten.length 10 s with
      | none => rfl
      | some s =>
          simp only [Option.bind_some]
          cases copyAnnotation _ annotationMax 0 s with
          | none => rfl
          | some s => rfl

theorem store_memory_of_ne {addr addr' : Nat} (h : addr ≠ addr') (c : Byte) (s : Process) :
    (store addr' c s).memory addr = s.memory addr := Function.update_of_ne h _ _

-- The copy of a text in the input annotation.
theorem copyAnnotation_eq {sizeOutput left i : Nat} {text : List Byte} (htext : ∀ c ∈ text, c ≠ 0)
    (s : Process) (hread : ∀ j < text.length, s.memory ( inputAnnotation + (i + j)) = text.getD j 0)
    (hnul : s.memory ( inputAnnotation + (i + text.length)) = 0) (hleft : text.length < left)
    (hroom : i + text.length < annotationMax) :
    copyAnnotation sizeOutput left i s = storeString (sizeOutput + i) (text ++ [0]) s := by
  obtain ⟨left, rfl⟩ := Nat.exists_eq_succ_of_ne_zero (Nat.ne_of_gt (Nat.zero_lt_of_lt hleft))
  induction text generalizing left i s with
  | nil =>
      rw [List.length_nil, Nat.add_zero] at hnul hroom
      simp only [ copyAnnotation, loadByte, hnul, if_pos hroom, Option.bind_eq_bind,
        Option.bind_some, ne_eq, not_true_eq_false, if_false, List.nil_append, storeString]
      cases storeByte outputAnnotation (sizeOutput + i) 0 s with
      | none => rfl
      | some s => rfl
  | cons c text ih =>
      rw [List.length_cons] at hnul hleft hroom
      have hfirst : s.memory ( inputAnnotation + i) = c := hread 0 (Nat.succ_pos _)
      have hne : c ≠ 0 := htext c List.mem_cons_self
      have hin : i < annotationMax := by omega
      simp only [ copyAnnotation, loadByte, hfirst, if_pos hin, if_pos hne, Option.bind_eq_bind,
        Option.bind_some, List.cons_append, storeString, storeByte]
      split
      · obtain ⟨left, rfl⟩ := Nat.exists_eq_succ_of_ne_zero (by omega : left ≠ 0)
        refine ih (fun c' hc' => htext c' (List.mem_cons_of_mem c hc')) _ ?_ ?_ (by omega) left
          (by omega)
        · intro j hj
          have hkept := hread (j + 1) (Nat.succ_lt_succ hj)
          rw [List.getD_cons_succ] at hkept
          rw [← hkept, store_memory_of_ne, Nat.add_right_comm i 1, Nat.add_assoc i]
          unfold inputAnnotation outputAnnotation annotationMax at *
          omega
        · rw [← hnul, store_memory_of_ne, Nat.add_right_comm i 1, Nat.add_assoc i]
          unfold inputAnnotation outputAnnotation annotationMax at *
          omega
      · rfl

-- What the padding leaves as it is.
structure Padded (s s' : Process) : Prop where
  stdin : s'.stdin = s.stdin
  stdout : s'.stdout = s.stdout
  output : ∀ i, s'.memory ( outputAnnotation + i) = s.memory ( outputAnnotation + i)

-- The size is rounded up to a multiple of 8, and the last zero is stored there.
theorem padAnnotation_spec (rounds : Nat) (size : BitVec 32)
    (hsize : (size.toNat + 7) / 8 * 8 < 2 ^ 32)
    (hrounds : (size.toNat + 7) / 8 * 8 < size.toNat + rounds) (s : Process) :
    (size.toNat % 8 = 0 ∨ (size.toNat + 7) / 8 * 8 < annotationMax →
      ∃ size' s', padAnnotation rounds size s = some (size', s') ∧
        size'.toNat = (size.toNat + 7) / 8 * 8 ∧ Padded s s') ∧
    (¬(size.toNat % 8 = 0 ∨ (size.toNat + 7) / 8 * 8 < annotationMax) →
      padAnnotation rounds size s = none) := by
  have hmod : size % 8 = 0 ↔ size.toNat % 8 = 0 := by
    rw [← BitVec.toNat_inj, BitVec.toNat_umod]
    rfl
  induction rounds generalizing size s with
  | zero => omega
  | succ rounds ih =>
      rw [ padAnnotation]
      by_cases hzero : size.toNat % 8 = 0
      · rw [if_neg (not_not.mpr (hmod.mpr hzero))]
        refine ⟨fun _ => ⟨size, s, rfl, by omega, rfl, rfl, fun _ => rfl⟩, fun h => ?_⟩
        exact absurd (Or.inl hzero) h
      · have hnext : (size + 1).toNat = size.toNat + 1 := by
          rw [BitVec.toNat_add]
          show (size.toNat + 1) % 2 ^ 32 = _
          omega
        have hround : (size.toNat + 1 + 7) / 8 * 8 = (size.toNat + 7) / 8 * 8 := by omega
        have hfirst : 0 < annotationMax := by decide
        rw [if_pos (mt hmod.mp hzero)]
        simp only [storeByte, if_pos hfirst, Option.bind_eq_bind, Option.bind_some, hnext]
        by_cases hin : size.toNat + 1 < annotationMax
        · obtain ⟨hinside, houtside⟩ := ih (size + 1) (by omega) (by omega)
            (store ( inputAnnotation + (size.toNat + 1)) 0
              (store ( inputAnnotation + 0) (s.memory inputAnnotation + 1) s))
            (by rw [← BitVec.toNat_inj, BitVec.toNat_umod]; rfl)
          rw [hnext, hround] at hinside houtside
          rw [if_pos hin, Option.bind_some]
          -- the last zero is in the buffer when the size that is reached is
          have hiff : (size.toNat + 1) % 8 = 0 ∨ (size.toNat + 7) / 8 * 8 < annotationMax ↔
              size.toNat % 8 = 0 ∨ (size.toNat + 7) / 8 * 8 < annotationMax := by omega
          rw [hiff] at hinside houtside
          refine ⟨fun h => ?_, houtside⟩
          obtain ⟨size', s', hrun, hresult, hin', hout', hkept⟩ := hinside h
          refine ⟨size', s', hrun, hresult, hin', hout', fun i => (hkept i).trans ?_⟩
          rw [store_memory_of_ne, store_memory_of_ne]
          · unfold inputAnnotation outputAnnotation
            omega
          · unfold inputAnnotation outputAnnotation annotationMax at *
            omega
        · rw [if_neg hin]
          exact ⟨fun h => absurd h (by omega), fun _ => rfl⟩

-- The text of an annotation ends before its first NUL.
theorem text_spec (note : List Byte) :
    (∀ c ∈ note.takeWhile (· ≠ 0), c ≠ 0) ∧
      (∀ j < (note.takeWhile (· ≠ 0)).length, note.getD j 0 = (note.takeWhile (· ≠ 0)).getD j 0) ∧
      note.getD (note.takeWhile (· ≠ 0)).length 0 = 0 ∧
      (note[note.length - 1]? = some 0 → (note.takeWhile (· ≠ 0)).length < note.length) := by
  have hall : ∀ c ∈ note.takeWhile (· ≠ 0), c ≠ 0 := by
    intro c hc
    have hp := List.mem_takeWhile_imp hc
    simpa using hp
  have happend := List.takeWhile_append_dropWhile (p := fun c : Byte => decide (c ≠ 0)) (l := note)
  refine ⟨hall, ?_, ?_, ?_⟩
  · intro j hj
    nth_rewrite 1 [← happend]
    exact List.getD_append _ _ _ _ hj
  · nth_rewrite 1 [← happend]
    rw [List.getD_append_right _ _ _ _ (Nat.le_refl _), Nat.sub_self]
    cases hrest : note.dropWhile fun c => decide (c ≠ 0) with
    | nil => rfl
    | cons c rest =>
        have hc := List.head?_dropWhile_not (fun c : Byte => decide (c ≠ 0)) note
        rw [hrest] at hc
        simpa using hc
  · intro hend
    have hlength := congrArg List.length happend
    rw [List.length_append] at hlength
    by_contra hle
    have hnil : note.dropWhile (fun c => decide (c ≠ 0)) = [] :=
      List.length_eq_zero_iff.mp (by omega)
    rw [hnil, List.append_nil] at happend
    have hzero : (0 : Byte) ∈ note := List.mem_of_getElem? hend
    rw [← happend] at hzero
    exact hall 0 hzero rfl

-- A text in a buffer of zeros.
theorem map_getD_range {text : List Byte} {n : Nat} (h : text.length ≤ n) :
    (List.range n).map (fun i => text.getD i 0) =
      text ++ List.replicate (n - text.length) 0 := by
  refine List.ext_getElem (by simp; omega) fun i hi hi' => ?_
  rw [List.getElem_map, List.getElem_range]
  rcases Nat.lt_or_ge i text.length with hlt | hge
  · rw [List.getD_eq_getElem _ _ hlt, List.getElem_append_left hlt]
  · rw [List.getD_eq_default _ _ hge, List.getElem_append_right hge, List.getElem_replicate]

section

variable {argv : List (List Byte)} {stream note data : List Byte} {hp : AudioHeader}
  (h : ValidAnnotation stream hp note data)

include h

-- The annotation before its padding.
theorem prepending_text (argv : List (List Byte)) :
    prepending argv (storeBytes inputAnnotation note (.start data)) =
      (storeString 0 (annotationText argv note ++ [0])
        (storeBytes inputAnnotation note (.start data))).map fun s =>
          ((argvText argv).length, s) := by
  obtain ⟨hlen, hend, -⟩ := h.annotation_spec
  obtain ⟨hall, hsame, hnul, hless⟩ := text_spec note
  have hle : (note.takeWhile (· ≠ 0)).length ≤ 1022 := by
    rcases hend with rfl | hend
    · exact Nat.zero_le _
    · have hlt := hless hend
      omega
  rw [prepending_eq, annotationText, List.append_assoc, storeString_append, Nat.zero_add,
    storeString_eq]
  split
  · have hmemory (addr : Nat) (haddr : addr < annotationMax) :
        (storeBytes ( outputAnnotation + 0) (argvText argv)
          (storeBytes inputAnnotation note (.start data))).memory addr =
          note.getD addr 0 := by
      rw [storeBytes_memory, if_neg (by unfold outputAnnotation annotationMax at *; omega),
        storeBytes_memory]
      unfold inputAnnotation
      split
      · rw [Nat.sub_zero]
      · rw [List.getD_eq_default]
        · rfl
        · omega
    simp only [Option.bind_some]
    congr 1
    refine copyAnnotation_eq hall _ (fun j hj => ?_) ?_ ?_ ?_
    · rw [hmemory _ (by unfold inputAnnotation annotationMax; omega), ← hsame j hj]
      unfold inputAnnotation
      rw [Nat.zero_add, Nat.zero_add]
    · rw [hmemory _ (by unfold inputAnnotation annotationMax; omega)]
      unfold inputAnnotation
      rw [Nat.zero_add, Nat.zero_add, hnul]
    · unfold annotationMax
      omega
    · unfold annotationMax
      omega
  · rfl

-- The text is shorter than the annotation unless the input has no annotation and the
-- text of argv fills the last eight bytes.
theorem annotationText_length (argv : List (List Byte)) :
    note.length % 8 = 0 ∧
      (annotationText argv note).length ≤ paddedSize argv note ∧
      ((annotationText argv note).length < paddedSize argv note ↔
      note ≠ [] ∨ (argvText argv).length % 8 ≠ 0) := by
  have hmod : note.length % 8 = 0 := by
    have hoffset := congrArg BitVec.toNat (offset_mod h.valid)
    rw [BitVec.toNat_umod, ← h.offset] at hoffset
    exact hoffset
  obtain ⟨-, hend, -⟩ := h.annotation_spec
  rw [annotationText, List.length_append, paddedSize]
  rcases hend with rfl | hend
  · simp
    omega
  · have hless := (text_spec note).2.2.2 hend
    have hne : note ≠ [] := by
      rintro rfl
      exact absurd hless (Nat.not_lt_zero _)
    exact ⟨hmod, by omega, iff_of_true (by omega) (Or.inl hne)⟩

-- The size in the header of the input and the text of argv.
theorem size_toNat (hargv : (argvText argv).length ≤ annotationMax) :
    (hp.dataOffset - 24 + BitVec.ofNat 32 (argvText argv).length).toNat =
      note.length + (argvText argv).length := by
  obtain ⟨hlen, -, -⟩ := h.annotation_spec
  unfold annotationMax at hargv
  rw [BitVec.toNat_add, BitVec.toNat_ofNat, ← h.offset]
  omega

-- The text and its NUL are behind each other in the output annotation when both fit.
theorem prepending_fits (htext : (annotationText argv note).length < annotationMax) :
    prepending argv (storeBytes inputAnnotation note (.start data)) =
      some ((argvText argv).length,
        storeBytes ( outputAnnotation + 0) (annotationText argv note ++ [0])
          (storeBytes inputAnnotation note (.start data))) := by
  have hfits : annotationText argv note ++ [0] = [] ∨
      0 + (annotationText argv note ++ [0]).length ≤ annotationMax := by
    rw [List.length_append, List.length_singleton]
    omega
  rw [prepending_text h argv, storeString_eq, if_pos hfits]
  rfl

theorem memoryBytes_text {size : Nat} (hle : (annotationText argv note).length ≤ size) :
    memoryBytes (storeBytes ( outputAnnotation + 0) (annotationText argv note ++ [0])
        (storeBytes inputAnnotation note (.start data))) outputAnnotation size =
      annotationText argv note ++
        List.replicate (size - (annotationText argv note).length) 0 := by
  obtain ⟨hlen, -, -⟩ := h.annotation_spec
  rw [← map_getD_range hle, memoryBytes]
  refine List.map_congr_left fun i _ => ?_
  have hzero : (storeBytes inputAnnotation note (.start data)).memory ( outputAnnotation + i) =
      0 := by
    rw [storeBytes_memory, if_neg (by unfold inputAnnotation outputAnnotation; omega)]
    rfl
  rw [storeBytes_memory, hzero, Nat.add_zero, Nat.add_sub_cancel_left, List.length_append,
    List.length_singleton]
  generalize annotationText argv note = text
  rcases Nat.lt_or_ge i text.length with hlt | hge
  · rw [if_pos (by omega), List.getD_append _ _ _ _ hlt]
  · rw [List.getD_eq_default text 0 hge, List.getD_append_right _ _ _ _ hge, ite_eq_right_iff]
    rintro ⟨-, hlast⟩
    rw [(by omega : i - text.length = 0)]
    rfl

-- Inside the buffers the text and the padding are what the output annotation holds.
theorem padded_of_inside (hinside : AnnotationInside argv note) :
    ∃ s size s', prepending argv (storeBytes inputAnnotation note (.start data)) =
        some ((argvText argv).length, s) ∧
      padAnnotation 8 (hp.dataOffset - 24 + BitVec.ofNat 32 (argvText argv).length) s =
        some (size, s') ∧
      size.toNat = paddedSize argv note ∧ s'.stdin = data ∧ s'.stdout = [] ∧
      memoryBytes s' outputAnnotation (paddedSize argv note) = annotationText argv note ++
        List.replicate (paddedSize argv note - (annotationText argv note).length) 0 := by
  obtain ⟨htext, hmost, hpad⟩ := hinside
  obtain ⟨hlen, -, -⟩ := h.annotation_spec
  obtain ⟨hmod, hle, -⟩ := annotationText_length h argv
  have hargv : (argvText argv).length ≤ (annotationText argv note).length := by
    simp [annotationText]
  have hsum := size_toNat h (show (argvText argv).length ≤ annotationMax by omega)
  have hmax : annotationMax = 1024 := rfl
  have hprepends := prepending_fits h htext
  have hbytes := memoryBytes_text h hle
  obtain ⟨hin', hout', -⟩ := storeBytes_with inputAnnotation note (.start data)
  obtain ⟨hin'', hout'', -⟩ := storeBytes_with ( outputAnnotation + 0)
    (annotationText argv note ++ [0]) (storeBytes inputAnnotation note (.start data))
  generalize storeBytes ( outputAnnotation + 0) (annotationText argv note ++ [0])
    (storeBytes inputAnnotation note (.start data)) = s at hprepends hbytes hin'' hout''
  obtain ⟨hpads, -⟩ :=
    padAnnotation_spec 8 (hp.dataOffset - 24 + BitVec.ofNat 32 (argvText argv).length)
      (by omega) (by omega) s
  rw [hsum] at hpads
  obtain ⟨size, s', hrun, hsize, hin, hout, hkept⟩ := hpads (by unfold paddedSize at hpad; omega)
  refine ⟨s, size, s', hprepends, hrun, hsize, ?_, ?_, ?_⟩
  · rw [hin, hin'', hin']
    rfl
  · rw [hout, hout'', hout']
    rfl
  · rw [← hbytes]
    exact List.map_congr_left fun i _ => hkept i

-- Otherwise a buffer is left: by the text, by the padding, or when the size that is
-- reached is written.
theorem padded_of_outside (houtside : ¬AnnotationInside argv note) :
    prepending argv (storeBytes inputAnnotation note (.start data)) = none ∨
    ∃ s, prepending argv (storeBytes inputAnnotation note (.start data)) =
        some ((argvText argv).length, s) ∧ (argvText argv).length ≤ annotationMax ∧
      ( padAnnotation 8 (hp.dataOffset - 24 + BitVec.ofNat 32 (argvText argv).length) s = none ∨
      ∃ size s', padAnnotation 8 (hp.dataOffset - 24 + BitVec.ofNat 32 (argvText argv).length) s =
        some (size, s') ∧ size.toNat > annotationMax) := by
  obtain ⟨hlen, -, -⟩ := h.annotation_spec
  obtain ⟨hmod, -, -⟩ := annotationText_length h argv
  have hargv : (argvText argv).length ≤ (annotationText argv note).length := by
    simp [annotationText]
  have hmax : annotationMax = 1024 := rfl
  by_cases htext : (annotationText argv note).length < annotationMax
  · have hsum := size_toNat h (show (argvText argv).length ≤ annotationMax by omega)
    rw [prepending_fits h htext]
    refine Or.inr ⟨_, rfl, by omega, ?_⟩
    obtain ⟨hinside, hleft⟩ :=
      padAnnotation_spec 8 (hp.dataOffset - 24 + BitVec.ofNat 32 (argvText argv).length)
        (by omega) (by omega) (storeBytes ( outputAnnotation + 0) (annotationText argv note ++ [0])
          (storeBytes inputAnnotation note (.start data)))
    rw [hsum] at hinside hleft
    by_cases hpad : (note.length + (argvText argv).length) % 8 = 0 ∨
        (note.length + (argvText argv).length + 7) / 8 * 8 < annotationMax
    · obtain ⟨size, s', hrun, hsize, -⟩ := hinside hpad
      refine Or.inr ⟨size, s', hrun, ?_⟩
      by_contra hmost
      refine houtside ⟨htext, ?_, ?_⟩
      · unfold paddedSize
        omega
      · unfold paddedSize
        omega
    · exact Or.inl (hleft hpad)
  · refine Or.inl ?_
    rw [prepending_text h, storeString_eq, if_neg]
    · rfl
    · rintro (hnil | hle)
      · simp at hnil
      · rw [List.length_append, List.length_singleton] at hle
        omega

end

end CSE320.Audible
