import CSE320.Grades.Read

namespace CSE320.Grades.File

open Lib

section

variable {F : Type} (nums : Numbers F) {n : Nat}

def writeprofessor : Option Professor → Text
  | none => []
  | some p => ascii " PROFESSOR " ++ p.surname ++ ascii ", " ++ p.name ++ ascii "\n"

def writeassistant : Option Assistant → Text
  | none => []
  | some a => ascii " ASSISTANT " ++ a.surname ++ ascii ", " ++ a.name ++ ascii "\n"

-- What is written for a substitution. The case USENORM runs on into the next one.
def writesubst (asgt : Assignment (Option F)) (s : Score (Option F) n) : Text :=
  match s.subst with
  | .useraw => ascii " USERAW " ++ printOption nums s.grade
  | .usenorm =>
    (match asgt.npolicy with
      | .quantile => ascii " USENORM " ++ printOption nums s.qnorm
      | .linear => ascii " USENORM " ++ printOption nums s.lnorm
      | .scale => ascii " USENORM " ++ printOption nums s.snorm
      | .raw => []) ++ ascii " USELIKEAVG"
  | .uselikeavg => ascii " USELIKEAVG"
  | .useclassavg => ascii " USECLASSAVG"

def writescore (asgts : Vector (Assignment (Option F)) n) (s : Score (Option F) n) : Text :=
  ascii "   SCORE " ++ asgts[s.asgt].name ++
    (if s.flag = .valid then ascii " " ++ printOption nums s.grade
      else writesubst nums asgts[s.asgt] s ++ ascii " " ++ s.code) ++ ascii "\n"

def writestudent (asgts : Vector (Assignment (Option F)) n) (s : Student (Option F) n) : Text :=
  ascii "  STUDENT " ++ s.id ++ ascii " " ++ s.surname ++ ascii ", " ++ s.name ++ ascii "\n" ++
    s.rawscores.flatMap (writescore nums asgts)

def writesection (asgts : Vector (Assignment (Option F)) n) (s : Section (Option F) n) : Text :=
  ascii " SECTION " ++ s.name ++ ascii "\n" ++ writeassistant s.assistant ++
    s.roster.flatMap (writestudent nums asgts)

def writenorm (a : Assignment (Option F)) : Text :=
  if a.npolicy = .raw then []
  else
    (match a.npolicy with
      | .linear =>
          ascii "  NORMALIZE LINEAR: " ++ printOption nums a.mean ++ ascii ", " ++
          printOption nums a.stddev
      | .quantile => ascii "  NORMALIZE QUANTILE"
      | .scale => ascii "  NORMALIZE SCALE " ++ printOption nums a.scale
      | .raw =>
          []) ++ ascii " " ++ (if a.ngroup = .byclass then ascii "BYCLASS"
          else ascii "BYSECTION") ++ ascii "\n"

def writeassignment (a : Assignment (Option F)) : Text :=
  ascii " ASSIGNMENT " ++ a.name ++ ascii " " ++ a.atype ++ ascii "\n" ++
    (if a.wpolicy = .weight then ascii "  WEIGHT " ++ printOption nums a.weight ++ ascii "\n"
      else []) ++
    writenorm nums a ++
    (if a.max.all nums.isZero then []
      else ascii "  MAXIMUM " ++ printOption nums a.max ++ ascii "\n")

def writecourse (c : Course (Option F) n) : Text :=
  ascii "COURSE " ++ c.number ++ ascii " " ++ c.title ++ ascii "\n" ++ writeprofessor c.professor ++
    c.assignments.toList.flatMap (writeassignment nums) ++
    c.sections.flatMap (writesection nums c.assignments)

end

end CSE320.Grades.File
