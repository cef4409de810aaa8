import CSE320.Grades.Read

namespace CSE320.Grades.File

open Lib

variable {k k' : Nat}

-- More rounds change nothing where the loops have ended.
theorem extends_blankLines (h : k ≤ k') : Extends (blankLines k) (blankLines k') := by
  induction k generalizing k' with
  | zero => exact Extends.stop _
  | succ k ih =>
      obtain ⟨k', rfl⟩ := Nat.exists_eq_add_one.mpr (Nat.zero_lt_of_lt h)
      have hrest := ih (Nat.le_of_succ_le_succ h)
      refine (Extends.refl _).bind fun c => Extends.ite ?_ ?_
      · exact (Extends.refl _).bind fun _ => (Extends.refl _).bind fun _ => hrest
      · refine (Extends.refl _).bind fun _ => (Extends.refl _).bind fun c =>
          Extends.ite ?_ (Extends.refl _)
        exact (Extends.refl _).bind fun _ => (Extends.refl _).bind fun _ => hrest

theorem extends_gobbleblanklines (h : k ≤ k') :
    Extends (gobbleblanklines k) (gobbleblanklines k') := by
  intro r u r' hrun
  rw [gobbleblanklines] at hrun ⊢
  split at hrun
  · rename_i htoken
    rwa [if_pos htoken]
  · rename_i htoken
    rw [if_neg htoken]
    exact extends_blankLines h r u r' hrun

theorem extends_expectnewline (h : k ≤ k') : Extends (expectnewline k) (expectnewline k') := by
  refine (Extends.refl _).bind fun _ => (Extends.refl _).bind fun c =>
    Extends.ite ?_ (Extends.refl _)
  exact (Extends.refl _).bind fun _ => extends_gobbleblanklines h

theorem extends_readname (h : k ≤ k') : Extends (readname k) (readname k') := by
  refine (Extends.refl _).bind fun _ => (Extends.refl _).bind fun r => Extends.ite ?_ ?_
  · exact (Extends.refl _).bind fun _ => (extends_expectnewline h).bind fun _ => Extends.refl _
  · refine (Extends.refl _).bind fun _ => (Extends.refl _).bind fun _ => ?_
    exact (extends_expectnewline h).bind fun _ => Extends.refl _

theorem extends_readprofessor (h : k ≤ k') : Extends (readprofessor k) (readprofessor k') := by
  refine (Extends.refl _).bind fun c =>
    Extends.ite ((Extends.refl _).bind fun surname => ?_) (Extends.refl _)
  exact (extends_readname h).bind fun _ => Extends.refl _

theorem extends_readassistant (h : k ≤ k') : Extends (readassistant k) (readassistant k') := by
  refine (Extends.refl _).bind fun c =>
    Extends.ite ((Extends.refl _).bind fun surname => ?_) (Extends.refl _)
  exact (extends_readname h).bind fun _ => Extends.refl _

theorem extends_many {α : Type} {key : Text} {item item' : Read α} (hitem : Extends item item')
    (h : k ≤ k') :
    Extends (many key item k) (many key item' k') := by
  induction k generalizing k' with
  | zero => exact Extends.stop _
  | succ k ih =>
      obtain ⟨k', rfl⟩ := Nat.exists_eq_add_one.mpr (Nat.zero_lt_of_lt h)
      have hrest := ih (Nat.le_of_succ_le_succ h)
      refine (Extends.refl _).bind fun c => Extends.ite (hitem.bind fun x => ?_) (Extends.refl _)
      exact hrest.bind fun xs => Extends.refl _

section

variable {F : Type} (nums : Numbers F)

theorem extends_normItems (h : k ≤ k') (found : Bool) (a : Assignment (Option F)) :
    Extends (normItems nums k found a) (normItems nums k' found a) := by
  induction k generalizing k' found a with
  | zero => exact Extends.stop _
  | succ k ih =>
      obtain ⟨k', rfl⟩ := Nat.exists_eq_add_one.mpr (Nat.zero_lt_of_lt h)
      refine (Extends.refl _).bind fun a' => ?_
      cases a' with
      | none => exact Extends.refl _
      | some a' => exact ih (Nat.le_of_succ_le_succ h) true a'

theorem extends_readnorm (h : k ≤ k') (a : Assignment (Option F)) :
    Extends (readnorm k nums a) (readnorm k' nums a) :=
  (extends_normItems nums h false a).bind fun _ => Extends.refl _

theorem extends_declaration (h : k ≤ k') (a : Assignment (Option F)) :
    Extends (declaration k nums a) (declaration k' nums a) := by
  have hline := extends_expectnewline h
  refine (Extends.refl _).bind fun c =>
    Extends.ite ?_ ((Extends.refl _).bind fun c => Extends.ite ?_ ?_)
  · exact (Extends.refl _).bind fun a => hline.bind fun _ => Extends.refl _
  · exact (extends_readnorm nums h a).bind fun a => hline.bind fun _ => Extends.refl _
  · refine (Extends.refl _).bind fun c => Extends.ite ?_ (Extends.refl _)
    exact (Extends.refl _).bind fun a => hline.bind fun _ => Extends.refl _

theorem extends_declarations {m m' : Nat} (h : k ≤ k') (hm : m ≤ m') (a : Assignment (Option F)) :
    Extends (declarations k nums m a) (declarations k' nums m' a) := by
  induction m generalizing m' a with
  | zero => exact Extends.stop _
  | succ m ih =>
      obtain ⟨m', rfl⟩ := Nat.exists_eq_add_one.mpr (Nat.zero_lt_of_lt hm)
      refine (extends_declaration nums h a).bind fun a' => ?_
      cases a' with
      | none => exact Extends.refl _
      | some a' => exact ih (Nat.le_of_succ_le_succ hm) a'

theorem extends_readassignments (h : k ≤ k') :
    Extends (readassignments k nums) (readassignments k' nums) := by
  refine extends_many ?_ h
  refine (Extends.refl _).bind fun name => (Extends.refl _).bind fun atype => ?_
  exact (extends_expectnewline h).bind fun _ => extends_declarations nums h h _

variable {n : Nat} (asgts : Vector (Assignment (Option F)) n)

theorem extends_readscore (h : k ≤ k') :
    Extends (readscore k nums asgts) (readscore k' nums asgts) := by
  refine (Extends.refl _).bind fun _ => (Extends.refl _).bind fun r =>
    Extends.ite ?_ (Extends.refl _)
  cases findassignment asgts (cstring r.token) with
  | none => exact Extends.refl _
  | some i =>
      refine (Extends.refl _).bind fun _ => (Extends.refl _).bind fun s => ?_
      exact (extends_expectnewline h).bind fun _ => Extends.refl _

theorem extends_readstudents (h : k ≤ k') :
    Extends (readstudents k nums asgts) (readstudents k' nums asgts) := by
  refine extends_many ?_ h
  refine (Extends.refl _).bind fun id => (Extends.refl _).bind fun surname =>
    (extends_readname h).bind fun name => ?_
  exact (extends_many (extends_readscore nums asgts h) h).bind fun _ => Extends.refl _

theorem extends_readsections {m m' : Nat} (h : k ≤ k') (hm : m ≤ m') :
    Extends (readsections k nums asgts m) (readsections k' nums asgts m') := by
  induction m generalizing m' with
  | zero => exact Extends.stop _
  | succ m ih =>
      obtain ⟨m', rfl⟩ := Nat.exists_eq_add_one.mpr (Nat.zero_lt_of_lt hm)
      have hsection : Extends (readsection k nums asgts) (readsection k' nums asgts) :=
        (extends_readname h).bind fun name => (extends_readassistant h).bind fun a =>
          (extends_readstudents nums asgts h).bind fun roster => Extends.refl _
      refine (Extends.refl _).bind fun _ => (Extends.refl _).bind fun r =>
        Extends.ite ?_ (Extends.refl _)
      refine (Extends.refl _).bind fun c => Extends.ite (Extends.refl _) ?_
      refine (Extends.refl _).bind fun c => Extends.ite (hsection.bind fun s => ?_) (Extends.refl _)
      exact (ih (Nat.le_of_succ_le_succ hm)).bind fun ss => Extends.refl _

theorem extends_readfile (h : k ≤ k') : Extends (readfile k nums) (readfile k' nums) := by
  have hlines := extends_gobbleblanklines h
  have hcourse : Extends (readcourse k nums) (readcourse k' nums) :=
    (Extends.refl _).bind fun _ => (Extends.refl _).bind fun number =>
      (extends_readname h).bind fun title =>
      (extends_readprofessor h).bind fun p => (extends_readassignments nums h).bind fun as =>
        (extends_readsections nums _ h h).bind fun ss => Extends.refl _
  exact hlines.bind fun _ => hcourse.bind fun c => hlines.bind fun _ => Extends.refl _

end

end CSE320.Grades.File
