import CSE320.Lib.Format

namespace CSE320.Grades

open Lib (Byte)

-- A string is the list of its characters without the NUL at its end.
abbrev Text := List Byte

structure Professor where
  surname : Text
  name : Text
deriving DecidableEq, Repr

structure Assistant where
  surname : Text
  name : Text
deriving DecidableEq, Repr

inductive Gflag where
  | valid
  | invalid
deriving DecidableEq, Repr

inductive Gsubst where
  | useraw
  | usenorm
  | uselikeavg
  | useclassavg
deriving DecidableEq, Repr

inductive Wpolicy where
  | noweight
  | weight
deriving DecidableEq, Repr

inductive Npolicy where
  | raw
  | linear
  | quantile
  | scale
deriving DecidableEq, Repr

inductive Ngroup where
  | byclass
  | bysection
deriving DecidableEq, Repr

-- The numbers are of a type F, and a pointer to an assignment is its place in the
-- list of assignments.
structure Assignment (F : Type) where
  name : Text
  atype : Text
  wpolicy : Wpolicy
  weight : F
  npolicy : Npolicy
  max : F
  mean : F
  stddev : F
  scale : F
  ngroup : Ngroup
deriving DecidableEq

structure Score (F : Type) (n : Nat) where
  asgt : Fin n
  grade : F
  qnorm : F
  lnorm : F
  snorm : F
  flag : Gflag
  code : Text
  subst : Gsubst
deriving DecidableEq

-- The fields of a normalized score that are filled in.
structure Normscore (F : Type) (n : Nat) where
  asgt : Fin n
  grade : F
  flag : Gflag
  subst : Gsubst
deriving DecidableEq

structure Student (F : Type) (n : Nat) where
  id : Text
  surname : Text
  name : Text
  rawscores : List (Score F n)
  normscores : List (Normscore F n)
  composite : F
deriving DecidableEq

structure Section (F : Type) (n : Nat) where
  name : Text
  assistant : Option Assistant
  roster : List (Student F n)
deriving DecidableEq

structure Course (F : Type) (n : Nat) where
  number : Text
  title : Text
  professor : Option Professor
  assignments : Vector (Assignment F) n
  sections : List (Section F n)
deriving DecidableEq

end CSE320.Grades
