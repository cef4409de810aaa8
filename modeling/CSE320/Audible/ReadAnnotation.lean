import CSE320.Audible.Stream

namespace CSE320.Audible

open Lib (Byte)

-- There are enough bytes, and the last one of them is NUL.
def Terminated (size : Nat) (stdin : List Byte) : Prop :=
  size ≤ stdin.length ∧ stdin[size - 1]? = some 0

-- An annotation of up to 1024 bytes is accepted when it ends with NUL. Its bytes are taken
-- from the input into the buffer, and no others.
structure AnnotationRead (ap size : Nat) (s : Process) : Prop where
  accepted : ( readAnnotation ap size s).1 = true ↔
    size = 0 ∨ size ≤ annotationMax ∧ Terminated size s.stdin
  stored : ( readAnnotation ap size s).1 = true →
    ∀ i < size, s.stdin[i]? = some (( readAnnotation ap size s).2.memory (ap + i))
  kept : ( readAnnotation ap size s).1 = true →
    ∀ a, a < ap ∨ ap + size ≤ a → ( readAnnotation ap size s).2.memory a = s.memory a
  consumed : ( readAnnotation ap size s).1 = true →
    ( readAnnotation ap size s).2.stdin = s.stdin.drop size

section

variable {ap size : Nat} {s : Process}

theorem readAnnotation_eq (h : size ≤ 1023) :
    readAnnotation ap size s = readAnnotationLoop ap size s := if_neg (by omega)

theorem readAnnotation_accepted :
    ( readAnnotation ap size s).1 = true ↔ size ≤ 1023 ∧ (size = 0 ∨ Terminated size s.stdin) := by
  by_cases hsize : size ≤ 1023
  · rw [readAnnotation_eq hsize]
    constructor
    · intro h
      obtain ⟨-, hlen, hend⟩ := readAnnotationLoop_accepted h
      exact ⟨hsize, hend.imp_right fun hlast => ⟨hlen, hlast⟩⟩
    · rintro ⟨-, rfl | ⟨hlen, hlast⟩⟩
      · rfl
      · exact readAnnotationLoop_of_last hlen (Or.inr hlast)
  · have hfalse : readAnnotation ap size s = (false, s) := if_pos (by omega)
    rw [hfalse]
    exact iff_of_false Bool.false_ne_true fun h => hsize h.1

-- What is accepted is stored at its place.
theorem readAnnotation_state (h : ( readAnnotation ap size s).1 = true) :
    ( readAnnotation ap size s).2 =
        storeBytes ap (s.stdin.take size) { s with stdin := s.stdin.drop size } ∧
      (s.stdin.take size).length = size := by
  have hsize := (readAnnotation_accepted.mp h).1
  rw [readAnnotation_eq hsize] at h ⊢
  obtain ⟨hstate, hlen, -⟩ := readAnnotationLoop_accepted h
  exact ⟨hstate, List.length_take_of_le hlen⟩

theorem readAnnotation_memory (h : ( readAnnotation ap size s).1 = true) (a : Nat) :
    ( readAnnotation ap size s).2.memory a =
      if ap ≤ a ∧ a < ap + size then (s.stdin.take size).getD (a - ap) 0 else s.memory a := by
  obtain ⟨hstate, hlen⟩ := readAnnotation_state h
  rw [hstate, storeBytes_memory, hlen]

theorem readAnnotation_stdin (h : ( readAnnotation ap size s).1 = true) :
    ( readAnnotation ap size s).2.stdin = s.stdin.drop size := by
  rw [(readAnnotation_state h).1]
  exact (storeBytes_with ap (s.stdin.take size) _).1

end

-- The function is right but for the annotations of exactly 1024 bytes.
theorem annotationRead_iff (ap size : Nat) (s : Process) :
    AnnotationRead ap size s ↔ ¬(size = annotationMax ∧ Terminated size s.stdin) := by
  constructor
  · rintro h ⟨rfl, hend⟩
    have haccepted := h.accepted.mpr (Or.inr ⟨le_refl _, hend⟩)
    exact absurd (readAnnotation_accepted.mp haccepted).1 (by decide)
  · intro h
    have haccepted : ( readAnnotation ap size s).1 = true ↔
        size = 0 ∨ size ≤ annotationMax ∧ Terminated size s.stdin := by
      rw [readAnnotation_accepted]
      constructor
      · rintro ⟨hsize, hzero | hend⟩
        · exact Or.inl hzero
        · exact Or.inr ⟨Nat.le_succ_of_le hsize, hend⟩
      · rintro (rfl | ⟨hsize, hend⟩)
        · exact ⟨Nat.zero_le _, Or.inl rfl⟩
        · have hne : size ≠ 1024 := fun heq => h ⟨heq, hend⟩
          have hle : size ≤ 1024 := hsize
          exact ⟨by omega, Or.inr hend⟩
    refine ⟨haccepted, fun hread i hi => ?_, fun hread a ha => ?_, readAnnotation_stdin⟩
    · have hlen := (readAnnotation_state hread).2
      rw [List.length_take] at hlen
      have hget : i < s.stdin.length := by omega
      rw [readAnnotation_memory hread, if_pos (by omega), Nat.add_sub_cancel_left,
        List.getD_eq_getElem?_getD, List.getElem?_take_of_lt hi, List.getElem?_eq_getElem hget,
        Option.getD_some]
    · rw [readAnnotation_memory hread, if_neg (by omega)]

-- The limit of recode and of the buffer is not the one that is tested.
theorem not_annotationRead_of_full :
    ¬AnnotationRead inputAnnotation 1024 (.start (List.replicate 1024 0)) := by
  intro h
  have hend : Terminated 1024 (List.replicate 1024 0) := by
    constructor
    · rw [List.length_replicate]
    · rw [List.getElem?_replicate_of_lt (by decide)]
  have haccepted := h.accepted.mpr (Or.inr ⟨le_refl _, hend⟩)
  have hrefused : ( readAnnotation inputAnnotation 1024 (.start (List.replicate 1024 0))).1 =
      false := by
    rw [ readAnnotation, if_pos (by decide)]
  rw [hrefused] at haccepted
  cases haccepted

end CSE320.Audible
