import CSE320.Snarf.Args
import Mathlib.Data.List.GetD

namespace CSE320.Snarf

open Lib (Byte)

inductive Item where
  | query (key : List Byte)
  | output (file : List Byte)
deriving DecidableEq, Repr

-- What stands behind the name of the program and the options in front: -o has been given or not.
def IsOption (arg : List Byte) : Prop := ∃ c attached, arg = 45 :: c :: attached

def IsFlag (arg : List Byte) : Prop := arg = Lib.ascii "-o" ∨ arg = Lib.ascii "-q"

instance decidableIsFlag (arg : List Byte) : Decidable (IsFlag arg) :=
  inferInstanceAs (Decidable (_ ∨ _))

inductive Arguments : Bool → List (List Byte) → List Item → Option (List Byte) → Prop
  | none {given : Bool} : Arguments given [] [] none
  | url {given : Bool} {url : List Byte} (hurl : ¬IsOption url) :
      Arguments given [url] [] (some url)
  | dashes {given : Bool} {arg : List Byte} (harg : arg = Lib.ascii "--") :
      Arguments given [arg] [] none
  | behind {given : Bool} {arg url : List Byte} (harg : arg = Lib.ascii "--") :
      Arguments given [arg, url] [] (some url)
  | query {given : Bool} {arg key : List Byte} {rest : List (List Byte)} {items : List Item}
      {url : Option (List Byte)} (harg : arg = Lib.ascii "-q") (hkey : ¬IsFlag key)
      (hrest : Arguments given rest items url) :
      Arguments given (arg :: key :: rest) (.query key :: items) url
  | output {arg file : List Byte} {rest : List (List Byte)} {items : List Item}
      {url : Option (List Byte)} (harg : arg = Lib.ascii "-o") (hfile : ¬IsFlag file)
      (hrest : Arguments true rest items url) :
      Arguments false (arg :: file :: rest) (.output file :: items) url

-- A command line that asks for a document.
def CommandLine (argv : List (List Byte)) (items : List Item) (url : Option (List Byte)) : Prop :=
  Lib.ascii "-h" ∉ argv ∧ ∃ prog rest, argv = prog :: rest ∧ Arguments false rest items url

-- The keys, and the file with the keys that stand in front of it.
structure Given where
  keys : List (List Byte)
  output : Option (List (List Byte) × List Byte)

namespace Given

def add (g : Given) : Item → Given
  | .query key => { g with keys := g.keys ++ [key] }
  | .output file => { g with output := some (g.keys, file) }

def ofItems (items : List Item) : Given := items.foldl add ⟨[], none⟩

def joined (keys : List (List Byte)) : List Byte := [32].intercalate keys

def keyParam (g : Given) : Option (List Byte) := if g.keys = [] then none else some (joined g.keys)

-- What a list of keys takes, a character more for each.
def spread (keys : List (List Byte)) : Nat := (keys.map fun key => key.length + 1).sum

-- Keys behind the file are put over the three characters of each -q in front of it. From there
-- on they are put over the name of the file, which is then the tail of the keys.
def fileName (tail : Nat → List Byte) (g : Given) : Option (List Byte) := do
  let (front, file) ← g.output
  let behind := g.keys.drop front.length
  if front = [] ∨ spread behind ≤ 3 * front.length then return file
  else return tail (spread front + 3 * front.length)

def outputFile (g : Given) : Option (List Byte) := g.fileName fun n => (joined g.keys).drop n

end Given

-- The strings that main finds.
structure Args.Reads (args : Args) (g : Given) (url : Option (List Byte)) : Prop where
  keyParam : args.keyParam.map (stringAt args.mem) = g.keyParam
  outputFile : args.outputFile.map (stringAt args.mem) = g.outputFile
  urlToSnarf : args.urlToSnarf.map (stringAt args.mem) = url

-- A string stands in memory with its NUL.
def Stands (mem : List Byte) (p : Nat) (s : List Byte) : Prop := s ++ [0] <+: mem.drop p

section

variable {mem mem' s t : List Byte} {p k : Nat}

theorem stands_iff : Stands mem p s ↔ ∀ i ≤ s.length, mem[p + i]? = (s ++ [0])[i]? := by
  rw [Stands, List.prefix_iff_getElem?]
  simp only [List.getElem?_drop, List.length_append, List.length_singleton]
  constructor
  · intro h i hi
    rw [h i (by omega), List.getElem?_eq_getElem]
  · intro h i hi
    rw [h i (by omega), List.getElem?_eq_getElem]

theorem Stands.congr (h : Stands mem p s)
    (hsame : ∀ j, p ≤ j → j ≤ p + s.length → mem'[j]? = mem[j]?) : Stands mem' p s := by
  rw [stands_iff] at h ⊢
  intro i hi
  rw [hsame (p + i) (by omega) (by omega), h i hi]

theorem Stands.lt_length (h : Stands mem p s) : p + s.length < mem.length := by
  have hle := h.length_le
  rw [List.length_append, List.length_singleton, List.length_drop] at hle
  omega

theorem Stands.stringAt (h : Stands mem p s) (hs : ∀ c ∈ s, c ≠ 0) :
    Snarf.stringAt mem p = s := by
  obtain ⟨rest, hrest⟩ := h
  rw [Snarf.stringAt, ← hrest, List.append_assoc]
  exact Lib.cstr_append hs rest

-- The end of a string is a string.
theorem Stands.drop (h : Stands mem p s) {n : Nat} (hn : n ≤ s.length) :
    Stands mem (p + n) (s.drop n) := by
  obtain ⟨rest, hrest⟩ := h
  refine ⟨rest, ?_⟩
  rw [← List.drop_drop, ← hrest, List.append_assoc, List.append_assoc,
    List.drop_append_of_le_length hn]

theorem cstr_cons (c : Byte) (s : List Byte) :
    Lib.cstr (c :: s) = if c = 0 then [] else c :: Lib.cstr s := by
  by_cases hc : c = 0
  · rw [if_pos hc]
    exact List.takeWhile_cons_of_neg (by simpa using hc)
  · rw [if_neg hc]
    exact List.takeWhile_cons_of_pos (by simpa using hc)

theorem cstr_eq_nil (s : List Byte) : Lib.cstr s = [] ↔ s.headD 0 = 0 := by
  cases s with
  | nil => exact iff_of_true rfl rfl
  | cons c s =>
      rw [cstr_cons, List.headD_cons]
      split
      · exact iff_of_true rfl ‹_›
      · exact iff_of_false (List.cons_ne_nil _ _) ‹_›

theorem stringEquals_iff : stringEquals s t = true ↔ Lib.cstr s = Lib.cstr t := by
  induction s generalizing t with
  | nil =>
      rw [stringEquals, decide_eq_true_iff, ← cstr_eq_nil, eq_comm]
      rfl
  | cons c s ih =>
      rw [stringEquals, cstr_cons]
      by_cases hc : c = 0
      · subst hc
        rw [if_pos rfl, @eq_comm _ [], cstr_eq_nil]
        by_cases ht : t.headD 0 = 0
        · exact iff_of_true (if_pos ⟨rfl, ht⟩) ht
        · rw [if_neg fun h => ht h.2, if_neg (Ne.symm ht)]
          exact iff_of_false Bool.false_ne_true ht
      · rw [if_neg hc, if_neg fun h => hc h.1]
        cases t with
        | nil =>
            rw [List.headD_nil, if_neg hc]
            exact iff_of_false Bool.false_ne_true (List.cons_ne_nil _ _)
        | cons b t =>
            rw [List.headD_cons, List.tail_cons, cstr_cons]
            by_cases hcb : c = b
            · subst hcb
              rw [if_pos rfl, if_neg hc, List.cons.injEq, ih]
              tauto
            · rw [if_neg hcb]
              refine iff_of_false Bool.false_ne_true fun h => ?_
              split at h
              · cases h
              · exact hcb (List.cons.inj h).1

-- The characters come from a place behind the one they go to.
theorem concatLoop_eq {steps : Nat} {front gap w rest : List Byte} (hw : ∀ c ∈ w, c ≠ 0)
    (hgap : gap ≠ []) (hsteps : w.length < steps) :
    concatLoop steps (front ++ (gap ++ (w ++ 0 :: rest))) front.length
        (front.length + gap.length) =
      some (front ++ (w ++ 0 :: (gap ++ (w ++ 0 :: rest)).drop (w.length + 1))) := by
  induction w generalizing steps front gap with
  | nil =>
      obtain ⟨b, gap, rfl⟩ := List.exists_cons_of_ne_nil hgap
      cases steps with
      | zero => omega
      | succ steps =>
          have hchar : (front ++ (b :: gap ++ ([] ++ 0 :: rest))).getD
              (front.length + (b :: gap).length) 0 = 0 := by
            rw [List.getD_append_right _ _ _ _ (Nat.le_add_right _ _), Nat.add_sub_cancel_left,
              List.getD_append_right _ _ _ _ (Nat.le_refl _), Nat.sub_self]
            rfl
          rw [concatLoop]
          simp only [hchar, if_true]
          rw [List.set_append_right _ _ (Nat.le_refl _), Nat.sub_self]
          rfl
  | cons c w ih =>
      obtain ⟨b, gap, rfl⟩ := List.exists_cons_of_ne_nil hgap
      have hc : c ≠ 0 := hw c List.mem_cons_self
      cases steps with
      | zero => omega
      | succ steps =>
          have hchar : (front ++ (b :: gap ++ (c :: w ++ 0 :: rest))).getD
              (front.length + (b :: gap).length) 0 = c := by
            rw [List.getD_append_right _ _ _ _ (Nat.le_add_right _ _), Nat.add_sub_cancel_left,
              List.getD_append_right _ _ _ _ (Nat.le_refl _), Nat.sub_self]
            rfl
          have hset : (front ++ (b :: gap ++ (c :: w ++ 0 :: rest))).set front.length c =
              (front ++ [c]) ++ ((gap ++ [c]) ++ (w ++ 0 :: rest)) := by
            rw [List.set_append_right _ _ (Nat.le_refl _), Nat.sub_self]
            simp only [List.cons_append, List.set_cons_zero, List.append_assoc, List.nil_append]
          have hnext := @ih steps (front ++ [c]) (gap ++ [c])
            (fun a ha => hw a (List.mem_cons_of_mem c ha)) (by simp)
            (by rw [List.length_cons] at hsteps; omega)
          rw [List.length_append, List.length_append, List.length_singleton] at hnext
          rw [concatLoop]
          simp only [hchar, if_neg hc, hset]
          rw [show front.length + (b :: gap).length + 1 = front.length + 1 + (gap.length + 1) by
            rw [List.length_cons]; omega, hnext]
          simp only [List.append_assoc, List.cons_append, List.nil_append, List.length_cons,
            List.drop_succ_cons]

-- Memory up to two strings, one behind the other, and what is between them.
theorem exists_split {w : List Byte} (hs : Stands mem k s) (hw : Stands mem p w)
    (hbehind : k + s.length + 1 ≤ p) :
    ∃ front gap rest, mem = front ++ (s ++ 0 :: (gap ++ (w ++ 0 :: rest))) ∧ front.length = k ∧
      k + s.length + 1 + gap.length = p := by
  have hlt := hw.lt_length
  obtain ⟨tail, htail⟩ := hs
  obtain ⟨rest, hrest⟩ := hw
  have hgap : tail.drop (p - (k + s.length + 1)) = w ++ 0 :: rest := by
    rw [show p = k + ((s ++ [0]).length + (p - (k + s.length + 1))) by
      rw [List.length_append, List.length_singleton]; omega] at hrest
    rw [← List.drop_drop, ← htail, ← List.drop_drop, List.drop_left, List.append_assoc] at hrest
    exact hrest.symm
  refine ⟨mem.take k, tail.take (p - (k + s.length + 1)), rest, ?_, ?_, ?_⟩
  · rw [← hgap, List.take_append_drop]
    conv_lhs => rw [← List.take_append_drop k mem, ← htail]
    rw [List.append_assoc]
    rfl
  · rw [List.length_take]
    omega
  · have hlength := congrArg List.length htail
    rw [List.length_append, List.length_append, List.length_singleton, List.length_drop] at hlength
    rw [List.length_take]
    omega

-- The first string grows, and memory keeps its other characters.
theorem stringConcat_spec {w : List Byte} (hs : Stands mem k s) (hw : Stands mem p w)
    (hbehind : k + s.length + 1 < p) (hs0 : ∀ c ∈ s, c ≠ 0) (hw0 : ∀ c ∈ w, c ≠ 0) :
    ∃ mem', stringConcat mem k p = some mem' ∧ Stands mem' k (s ++ 32 :: w) ∧
      ∀ j, j < k + s.length ∨ k + (s ++ 32 :: w).length < j → mem'[j]? = mem[j]? := by
  obtain ⟨front, gap, rest, rfl, rfl, rfl⟩ := exists_split hs hw (Nat.le_of_lt hbehind)
  have hgap : gap ≠ [] := by
    rintro rfl
    exact absurd hbehind (Nat.lt_irrefl _)
  have hset : (front ++ (s ++ 0 :: (gap ++ (w ++ 0 :: rest)))).set (front.length + s.length) 32 =
      (front ++ (s ++ [32])) ++ (gap ++ (w ++ 0 :: rest)) := by
    rw [List.set_append_right _ _ (Nat.le_add_right _ _), Nat.add_sub_cancel_left,
      List.set_append_right _ _ (Nat.le_refl _), Nat.sub_self, List.set_cons_zero]
    simp only [List.append_assoc, List.cons_append, List.nil_append]
  have hlength : (front ++ (s ++ [32])).length = front.length + s.length + 1 := by
    rw [List.length_append, List.length_append, List.length_singleton, Nat.add_assoc]
  have hsteps : w.length < (front ++ (s ++ 0 :: (gap ++ (w ++ 0 :: rest)))).length + 1 := by
    simp only [List.length_append, List.length_cons]
    omega
  have hrun : stringConcat (front ++ (s ++ 0 :: (gap ++ (w ++ 0 :: rest)))) front.length
        (front.length + s.length + 1 + gap.length) =
      some ((front ++ (s ++ [32])) ++
        (w ++ 0 :: (gap ++ (w ++ 0 :: rest)).drop (w.length + 1))) := by
    rw [stringConcat, hs.stringAt hs0]
    rw [hset, ← hlength]
    exact concatLoop_eq hw0 hgap hsteps
  refine ⟨_, hrun, ?_, ?_⟩
  · rw [Stands, List.append_assoc front, List.drop_left]
    refine ⟨(gap ++ (w ++ 0 :: rest)).drop (w.length + 1), ?_⟩
    simp only [List.append_assoc, List.cons_append, List.nil_append]
  · intro j hj
    rcases hj with hj | hj
    · rw [← List.length_append] at hj
      have hfront (x : List Byte) : ((front ++ s) ++ x)[j]? = (front ++ s)[j]? :=
        List.getElem?_append_left hj
      have hnew := hfront ([32] ++ (w ++ 0 :: (gap ++ (w ++ 0 :: rest)).drop (w.length + 1)))
      have hold := hfront (0 :: (gap ++ (w ++ 0 :: rest)))
      simp only [List.append_assoc] at hnew hold ⊢
      rw [hnew, hold]
    · rw [List.length_append, List.length_cons] at hj
      have hcut : (gap ++ (w ++ 0 :: rest)).take (w.length + 1) ++
          (gap ++ (w ++ 0 :: rest)).drop (w.length + 1) = gap ++ (w ++ 0 :: rest) :=
        List.take_append_drop _ _
      have htake : ((gap ++ (w ++ 0 :: rest)).take (w.length + 1)).length = w.length + 1 := by
        rw [List.length_take, List.length_append, List.length_append, List.length_cons]
        omega
      have hbehind (a : List Byte) (ha : a.length = front.length + s.length + 1 + (w.length + 1))
          (x : List Byte) :
          (a ++ x)[j]? = x[j - (front.length + s.length + 1 + (w.length + 1))]? := by
        rw [List.getElem?_append_right (by omega), ha]
      have hnew := hbehind (front ++ (s ++ 32 :: (w ++ [0]))) (by
        simp only [List.length_append, List.length_cons, List.length_nil]
        omega) ((gap ++ (w ++ 0 :: rest)).drop (w.length + 1))
      have hold := hbehind (front ++ (s ++ 0 :: (gap ++ (w ++ 0 :: rest)).take (w.length + 1))) (by
        simp only [List.length_append, List.length_cons, htake]
        omega) ((gap ++ (w ++ 0 :: rest)).drop (w.length + 1))
      rw [List.append_assoc, List.append_assoc, List.cons_append, hcut] at hold
      rw [hold, ← hnew]
      simp only [List.append_assoc, List.cons_append, List.nil_append]

end

namespace Given

variable {keys : List (List Byte)} {key : List Byte}

theorem joined_concat (h : keys ≠ []) : joined (keys ++ [key]) = joined keys ++ 32 :: key := by
  induction keys with
  | nil => exact absurd rfl h
  | cons first keys ih =>
      cases keys with
      | nil => simp [joined]
      | cons second keys =>
          have hrest := ih (List.cons_ne_nil _ _)
          unfold joined at hrest ⊢
          rw [List.cons_append, List.cons_append, List.intercalate_cons_cons,
            ← List.cons_append, hrest, List.intercalate_cons_cons, ← List.append_assoc]

theorem spread_append (front behind : List (List Byte)) :
    spread (front ++ behind) = spread front + spread behind := by
  simp [spread]

theorem spread_singleton (key : List Byte) : spread [key] = key.length + 1 := by
  simp [spread]

theorem joined_length (h : keys ≠ []) : (joined keys).length + 1 = spread keys := by
  induction keys using List.reverseRecOn with
  | nil => exact absurd rfl h
  | append_singleton keys key ih =>
      rw [spread_append, spread_singleton]
      by_cases hnil : keys = []
      · subst hnil
        simp [joined, spread]
      · have hkeys := ih hnil
        rw [joined_concat hnil, List.length_append, List.length_cons]
        omega

theorem joined_ne_zero (h : ∀ key ∈ keys, ∀ c ∈ key, c ≠ 0) : ∀ c ∈ joined keys, c ≠ 0 := by
  induction keys using List.reverseRecOn with
  | nil => exact List.forall_mem_nil _
  | append_singleton keys key ih =>
      have hfront := ih fun k hk => h k (List.mem_append_left [key] hk)
      have hkey := h key (List.mem_append_right keys (List.mem_singleton_self key))
      by_cases hnil : keys = []
      · subst hnil
        rwa [List.nil_append, joined, List.intercalate_singleton]
      · intro c hc
        rw [joined_concat hnil, List.mem_append, List.mem_cons] at hc
        rcases hc with hc | rfl | hc
        · exact hfront c hc
        · decide
        · exact hkey c hc

end Given

open Given

-- Where the keys stand.
def KeysLaid (g : Given) (off : Nat) (args : Args) : Prop :=
  match args.keyParam with
  | none => g.keys = []
  | some k => g.keys ≠ [] ∧ Stands args.mem k (joined g.keys) ∧ k + (joined g.keys).length < off

-- Where the file stands. Keys behind it may have been put over it.
def FileLaid (g : Given) (off : Nat) (args : Args) : Prop :=
  match g.output with
  | none => args.outputFile = none ∧
      ∀ k ∈ args.keyParam, off + 3 = k + spread g.keys + 3 * g.keys.length
  | some (front, file) => ∃ o, args.outputFile = some o ∧ o + file.length < off ∧
      front <+: g.keys ∧ (∀ c ∈ file, c ≠ 0) ∧
      if front = [] then Stands args.mem o file ∧ ∀ k ∈ args.keyParam, o + file.length < k
      else ∃ k, args.keyParam = some k ∧ o = k + spread front + 3 * front.length ∧
        ((joined g.keys).length < spread front + 3 * front.length → Stands args.mem o file)

-- The arguments that are left are as they have been given.
structure Laid (g : Given) (rest : List (List Byte)) (off : Nat) (args : Args) : Prop where
  rest : args.mem.drop off = argvMemory rest
  keys : KeysLaid g off args
  file : FileLaid g off args
  url : args.urlToSnarf = none
  string : ∀ key ∈ g.keys, ∀ c ∈ key, c ≠ 0

section

variable {g : Given} {rest : List (List Byte)} {off : Nat} {args : Args} {mem : List Byte}
  {arg key file : List Byte}

theorem stands_of_rest (h : mem.drop off = argvMemory (arg :: rest)) :
    Stands mem off arg ∧ mem.drop (off + arg.length + 1) = argvMemory rest := by
  have hsplit : argvMemory (arg :: rest) = (arg ++ [0]) ++ argvMemory rest := List.flatMap_cons
  refine ⟨⟨argvMemory rest, ?_⟩, ?_⟩
  · rw [h, hsplit]
  · rw [Nat.add_assoc, ← List.drop_drop, h, hsplit,
      show arg.length + 1 = (arg ++ [0]).length by rw [List.length_append]; rfl, List.drop_left]

-- The first key stays where it is.
theorem Laid.query_first (h : Laid g (arg :: key :: rest) off args)
    (harg : arg.length = 2) (hnone : args.keyParam = none) (hkey : ∀ c ∈ key, c ≠ 0) :
    Laid (g.add (.query key)) rest (off + 3 + key.length + 1)
      { args with keyParam := some (off + 3) } := by
  obtain ⟨-, hbehind⟩ := stands_of_rest h.rest
  rw [harg] at hbehind
  obtain ⟨hstands, hrest⟩ := stands_of_rest hbehind
  have hnil : g.keys = [] := by
    have hkeys := h.keys
    rwa [KeysLaid, hnone] at hkeys
  refine ⟨hrest, ?_, ?_, h.url, ?_⟩
  · simp only [KeysLaid, Given.add, hnil, List.nil_append]
    refine ⟨List.cons_ne_nil _ _, ?_, ?_⟩
    · rwa [joined, List.intercalate_singleton]
    · rw [joined, List.intercalate_singleton]
      omega
  · have hfile := h.file
    unfold FileLaid at hfile ⊢
    cases hout : g.output with
    | none =>
        rw [hout] at hfile
        simp only [Given.add, hout, hnil, List.nil_append]
        refine ⟨hfile.1, fun k hk => ?_⟩
        obtain rfl := Option.some.inj hk
        rw [spread_singleton, List.length_singleton]
        omega
    | some out =>
        obtain ⟨front, file⟩ := out
        simp only [hout, hnil] at hfile
        obtain ⟨o, ho, hlt, hfront, hfile0, hfile⟩ := hfile
        obtain rfl := List.prefix_nil.mp hfront
        simp only [Given.add, hout, hnil, List.nil_append, if_true]
        refine ⟨o, ho, by omega, List.nil_prefix, hfile0, hfile.1, fun k hk => ?_⟩
        obtain rfl := Option.some.inj hk
        omega
  · intro k hk
    simp only [Given.add, hnil, List.nil_append, List.mem_singleton] at hk
    rwa [hk]

-- Another key is put behind the keys, and the file keeps its place.
theorem Laid.query_next (h : Laid g (arg :: key :: rest) off args) {k : Nat}
    (harg : arg.length = 2) (hk : args.keyParam = some k) (hkey : ∀ c ∈ key, c ≠ 0) :
    ∃ mem, stringConcat args.mem k (off + 3) = some mem ∧
      Laid (g.add (.query key)) rest (off + 3 + key.length + 1) { args with mem } := by
  obtain ⟨-, hbehind⟩ := stands_of_rest h.rest
  rw [harg] at hbehind
  obtain ⟨hstands, hrest⟩ := stands_of_rest hbehind
  have hkeys := h.keys
  rw [KeysLaid, hk] at hkeys
  obtain ⟨hne, hjoined, hlt⟩ := hkeys
  obtain ⟨mem, hrun, hgrown, hsame⟩ :=
    stringConcat_spec hjoined hstands (by omega) (joined_ne_zero h.string) hkey
  rw [← joined_concat hne] at hgrown hsame
  have hlength := joined_length hne
  have hlength' := joined_length (List.append_ne_nil_of_left_ne_nil hne [key])
  have hspread := spread_append g.keys [key]
  rw [spread_singleton] at hspread
  refine ⟨mem, hrun, ?_, ?_, ?_, h.url, ?_⟩
  · rw [← hrest]
    apply List.ext_getElem?
    intro i
    rw [List.getElem?_drop, List.getElem?_drop]
    exact hsame _ (by omega)
  · simp only [KeysLaid, hk, Given.add]
    exact ⟨List.append_ne_nil_of_left_ne_nil hne [key], hgrown, by omega⟩
  · have hfile := h.file
    unfold FileLaid at hfile ⊢
    cases hout : g.output with
    | none =>
        rw [hout] at hfile
        simp only [Given.add, hout]
        refine ⟨hfile.1, fun k' hk' => ?_⟩
        have hoff := hfile.2 k' hk'
        rw [hspread, List.length_append, List.length_singleton]
        omega
    | some out =>
        obtain ⟨front, file⟩ := out
        simp only [hout] at hfile
        obtain ⟨o, ho, holt, hfront, hfile0, hfile⟩ := hfile
        simp only [Given.add, hout]
        refine ⟨o, ho, by omega, hfront.trans (List.prefix_append _ _), hfile0, ?_⟩
        by_cases hnil : front = []
        · rw [if_pos hnil] at hfile ⊢
          have hplace := hfile.2 k hk
          exact ⟨hfile.1.congr fun j _ hj => hsame j (by omega), hfile.2⟩
        · rw [if_neg hnil] at hfile ⊢
          obtain ⟨k', hk', hplace, hfile⟩ := hfile
          obtain rfl := Option.some.inj (hk.symm.trans hk')
          refine ⟨k, hk, hplace, fun hroom => ?_⟩
          exact (hfile (by omega)).congr fun j hj _ => hsame j (by omega)
  · intro k' hk'
    rcases List.mem_append.mp hk' with hk' | hk'
    · exact h.string k' hk'
    · rwa [List.mem_singleton.mp hk']

-- The file stays where it is.
theorem Laid.output (h : Laid g (arg :: file :: rest) off args) (harg : arg.length = 2)
    (hnone : g.output = none) (hfile : ∀ c ∈ file, c ≠ 0) :
    Laid (g.add (.output file)) rest (off + 3 + file.length + 1)
      { args with outputFile := some (off + 3) } := by
  obtain ⟨-, hbehind⟩ := stands_of_rest h.rest
  rw [harg] at hbehind
  obtain ⟨hstands, hrest⟩ := stands_of_rest hbehind
  have hplaces := h.file
  rw [FileLaid, hnone] at hplaces
  have hkeys := h.keys
  unfold KeysLaid at hkeys
  refine ⟨hrest, ?_, ?_, h.url, h.string⟩
  · simp only [KeysLaid, Given.add]
    cases hk : args.keyParam with
    | none =>
        rw [hk] at hkeys
        exact hkeys
    | some k =>
        rw [hk] at hkeys
        exact ⟨hkeys.1, hkeys.2.1, by omega⟩
  · simp only [FileLaid, Given.add]
    refine ⟨off + 3, rfl, by omega, List.prefix_refl _, hfile, ?_⟩
    cases hk : args.keyParam with
    | none =>
        rw [hk] at hkeys
        rw [if_pos hkeys]
        exact ⟨hstands, fun k hk => absurd hk (Option.not_mem_none k)⟩
    | some k =>
        rw [hk] at hkeys
        rw [if_neg hkeys.1]
        exact ⟨k, rfl, hplaces.2 k hk, fun _ => hstands⟩

-- The name of the file in memory that differs in the keys alone.
theorem Laid.fileName (h : Laid g rest off args) {tail : Nat → List Byte}
    (hother : ∀ j, (∀ k, args.keyParam = some k → j < k ∨ k + (joined g.keys).length ≤ j) →
      mem[j]? = args.mem[j]?)
    (htail : ∀ k n, args.keyParam = some k → n ≤ (joined g.keys).length →
      stringAt mem (k + n) = tail n) :
    args.outputFile.map (stringAt mem) = g.fileName tail := by
  have hfile := h.file
  unfold FileLaid at hfile
  rw [Given.fileName]
  cases hout : g.output with
  | none =>
      rw [hout] at hfile
      rw [hfile.1]
      rfl
  | some out =>
      obtain ⟨front, file⟩ := out
      rw [hout] at hfile
      obtain ⟨o, ho, -, hfront, hfile0, hfile⟩ := hfile
      obtain ⟨behind, hbehind⟩ := hfront
      rw [ho]
      show some (stringAt mem o) = if _ then some file else some _
      rw [← hbehind, List.drop_left]
      by_cases hnil : front = []
      · rw [if_pos hnil] at hfile
        have hsame : Stands mem o file := hfile.1.congr fun j _ hj => hother j fun k hk => by
          have hplace := hfile.2 k hk
          omega
        rw [if_pos (Or.inl hnil), hsame.stringAt hfile0]
      · rw [if_neg hnil] at hfile
        obtain ⟨k, hk, rfl, hfile⟩ := hfile
        have hkeys := h.keys
        rw [KeysLaid, hk] at hkeys
        have hlength := joined_length hkeys.1
        rw [← hbehind, spread_append, hbehind] at hlength
        by_cases hroom : spread behind ≤ 3 * front.length
        · have hsame : Stands mem (k + spread front + 3 * front.length) file :=
            (hfile (by omega)).congr fun j hj _ => hother j fun k' hk' => by
              obtain rfl := Option.some.inj (hk.symm.trans hk')
              omega
          rw [if_pos (Or.inr hroom), hsame.stringAt hfile0]
        · rw [if_neg (not_or.mpr ⟨hnil, hroom⟩), Nat.add_assoc, htail k _ hk (by omega)]

-- What is found at the end.
theorem Laid.reads (h : Laid g rest off args) {url : Option Nat} {name : Option (List Byte)}
    (hurl : url.map (stringAt args.mem) = name) :
    Args.Reads { args with urlToSnarf := url } g name := by
  have hkeys := h.keys
  unfold KeysLaid at hkeys
  refine ⟨?_, ?_, hurl⟩
  · rw [Given.keyParam]
    cases hk : args.keyParam with
    | none =>
        rw [hk] at hkeys
        exact (if_pos hkeys).symm
    | some k =>
        rw [hk] at hkeys
        rw [if_neg hkeys.1]
        exact congrArg some (hkeys.2.1.stringAt (joined_ne_zero h.string))
  · refine h.fileName (fun _ _ => rfl) fun k n hk hn => ?_
    rw [hk] at hkeys
    exact (hkeys.2.1.drop hn).stringAt fun c hc =>
      joined_ne_zero h.string c (List.mem_of_mem_drop hc)

-- What the loop leaves.
def Args.Found (args : Args) (g : Given) (url : Option (List Byte)) : Prop :=
  ∃ rest off, Laid g rest off { args with urlToSnarf := none } ∧
    args.urlToSnarf.map (stringAt args.mem) = url

theorem Laid.found (h : Laid g rest off args) {url : Option Nat} {name : Option (List Byte)}
    (hurl : url.map (stringAt args.mem) = name) :
    Args.Found { args with urlToSnarf := url } g name := by
  refine ⟨rest, off, ?_, hurl⟩
  show Laid g rest off { args with urlToSnarf := none }
  rw [← h.url]
  exact h

theorem Laid.found_none (h : Laid g rest off args) : args.Found g none := by
  have hfound : Args.Found { args with urlToSnarf := none } g none := h.found rfl
  rwa [← h.url] at hfound

theorem Args.Found.reads {url : Option (List Byte)} (h : args.Found g url) : args.Reads g url := by
  obtain ⟨rest, off, hlaid, hurl⟩ := h
  exact hlaid.reads hurl

theorem stringAt_of_rest (h : mem.drop off = argvMemory (arg :: rest))
    (harg : ∀ c ∈ arg, c ≠ 0) : stringAt mem off = arg := (stands_of_rest h).1.stringAt harg

-- An argument behind its option is refused when it is an option itself.
theorem refused_iff (h : mem.drop off = argvMemory (arg :: key :: rest)) (harg : arg.length = 2)
    (hkey : ∀ c ∈ key, c ≠ 0) : refused mem (off + 3) = true ↔ IsFlag key := by
  obtain ⟨hstands, hbehind⟩ := stands_of_rest h
  rw [harg] at hbehind
  have hstring : Lib.cstr (mem.drop (off + 3)) = key := stringAt_of_rest hbehind hkey
  have hend := stands_iff.mp hstands 2 (Nat.le_of_eq harg.symm)
  rw [List.getElem?_append_right (Nat.le_of_eq harg), harg] at hend
  have hchar : mem.getD (off + 3 - 1) 0 = 0 := by
    rw [List.getD_eq_getElem?_getD, show off + 3 - 1 = off + 2 from rfl, hend]
    rfl
  have ho : Lib.cstr (Lib.ascii "-o") = Lib.ascii "-o" := by decide
  have hq : Lib.cstr (Lib.ascii "-q") = Lib.ascii "-q" := by decide
  rw [refused, Bool.or_eq_true, Bool.or_eq_true, stringEquals_iff, stringEquals_iff, hstring, ho,
    hq, hchar]
  simp [IsFlag]

-- An argument that belongs to the option itself is refused.
theorem refused_attached {c : Byte} {attached : List Byte}
    (h : mem.drop off = argvMemory ((45 :: c :: attached) :: rest)) (hc : c ≠ 0) :
    refused mem (off + 2) = true := by
  have hchar := stands_iff.mp (stands_of_rest h).1 1 (by simp)
  rw [refused, Bool.or_eq_true]
  refine Or.inr (decide_eq_true ?_)
  rw [List.getD_eq_getElem?_getD, show off + 2 - 1 = off + 1 from rfl, hchar]
  exact hc

-- The call for -q.
theorem Laid.queryHeader (h : Laid g (arg :: key :: rest) off args) (harg : arg.length = 2)
    (hflag : ¬IsFlag key) (hkey : ∀ c ∈ key, c ≠ 0) :
    ∃ args', Snarf.queryHeader args (off + 3) = some (.args args') ∧
      Laid (g.add (.query key)) rest (off + 3 + key.length + 1) args' := by
  have hrefused := mt (refused_iff h.rest harg hkey).mp hflag
  unfold Snarf.queryHeader
  rw [if_neg hrefused]
  cases hk : args.keyParam with
  | none => exact ⟨_, rfl, h.query_first harg hk hkey⟩
  | some k =>
      obtain ⟨mem, hrun, hlaid⟩ := h.query_next harg hk hkey
      refine ⟨{ args with mem }, ?_, hlaid⟩
      show (stringConcat args.mem k (off + 3) >>= _) = _
      rw [hrun, ← hk]
      rfl

-- The call for -o.
theorem Laid.outputTo (h : Laid g (arg :: file :: rest) off args) (harg : arg.length = 2)
    (hnone : g.output = none) (hflag : ¬IsFlag file) (hfile : ∀ c ∈ file, c ≠ 0) :
    Snarf.outputTo args (off + 3) = .args { args with outputFile := some (off + 3) } ∧
      Laid (g.add (.output file)) rest (off + 3 + file.length + 1)
        { args with outputFile := some (off + 3) } := by
  have hrefused := mt (refused_iff h.rest harg hfile).mp hflag
  have hplaces := h.file
  rw [FileLaid, hnone] at hplaces
  refine ⟨?_, h.output harg hnone hfile⟩
  rw [Snarf.outputTo, hplaces.1, Option.isSome_none, Bool.false_or, if_neg hrefused]

theorem getopt_option {c : Byte} {options : List Byte} {q : Nat} {qs : List Nat}
    (h : mem.drop off = argvMemory (arg :: rest)) (harg : arg = [45, c]) (hc : c ≠ 45)
    (harg0 : ∀ c ∈ arg, c ≠ 0) (hmem : c ∈ options) :
    getopt options mem (off :: q :: qs) = .option c q qs := by
  rw [getopt, stringAt_of_rest h harg0, harg]
  split
  · rename_i heq
    cases heq
    exact absurd rfl hc
  · rename_i heq
    cases heq
    rw [if_pos (List.contains_iff_mem.mpr hmem), if_neg (by simp)]
  · rename_i heq
    exact absurd rfl (heq c [])

theorem loop_nil (steps : Nat) (args : Args) : parseArgsLoop steps [] args = some (.args args) := by
  cases steps with
  | zero => rfl
  | succ steps => rfl

theorem loop_cons (steps p : Nat) (ps : List Nat) (args : Args) :
    parseArgsLoop (steps + 1) (p :: ps) args =
      match getopt (Lib.ascii "qo") args.mem (p :: ps) with
      | .option c optarg rest =>
        if c = 113 then do
          match ← queryHeader args optarg with
          | .usage status => return .usage status
          | .args args => parseArgsLoop steps rest args
        else
          match outputTo args optarg with
          | .usage status => some (.usage status)
          | .args args => parseArgsLoop steps rest args
      | .unknown optopt => some (.usage (if optopt = 104 then 0 else -1))
      | .done [] => some (.args args)
      | .done (url :: rest) =>
        if rest ≠ [] then some (.usage (-1))
        else some (.args { args with urlToSnarf := some url }) := rfl

end

-- A command line that asks for a document is read.
theorem loop_of_arguments {given : Bool} {rest : List (List Byte)} {items : List Item}
    {url : Option (List Byte)} (h : Arguments given rest items url) :
    ∀ {g : Given} {off : Nat} {args : Args} {steps : Nat}, given = g.output.isSome →
      Laid g rest off args → (∀ arg ∈ rest, ∀ c ∈ arg, c ≠ 0) → rest.length ≤ steps →
      ∃ args', parseArgsLoop steps (argvPointers off rest) args = some (.args args') ∧
        args'.Found (items.foldl Given.add g) url := by
  induction h with
  | none =>
      intro g off args steps _ hlaid _ _
      exact ⟨args, loop_nil steps args, hlaid.found_none⟩
  | @url given name hurl =>
      intro g off args steps _ hlaid hstring hsteps
      obtain ⟨steps, rfl⟩ := Nat.exists_eq_succ_of_ne_zero (Nat.pos_iff_ne_zero.mp hsteps)
      have hname := stringAt_of_rest hlaid.rest (hstring name List.mem_cons_self)
      have hgetopt : getopt (Lib.ascii "qo") args.mem [off] = .done [off] := by
        rw [getopt, hname]
        split
        · exact absurd ⟨45, [], rfl⟩ hurl
        · exact absurd ⟨_, _, rfl⟩ hurl
        · rfl
      refine ⟨{ args with urlToSnarf := some off }, ?_, hlaid.found (congrArg some hname)⟩
      rw [argvPointers, argvPointers, loop_cons, hgetopt]
      rfl
  | @dashes given arg harg =>
      intro g off args steps _ hlaid hstring hsteps
      obtain ⟨steps, rfl⟩ := Nat.exists_eq_succ_of_ne_zero (Nat.pos_iff_ne_zero.mp hsteps)
      have hname := stringAt_of_rest hlaid.rest (hstring arg List.mem_cons_self)
      have hgetopt : getopt (Lib.ascii "qo") args.mem [off] = .done [] := by
        rw [getopt, hname, harg]
        rfl
      refine ⟨args, ?_, hlaid.found_none⟩
      rw [argvPointers, argvPointers, loop_cons, hgetopt]
  | @behind given arg name harg =>
      intro g off args steps _ hlaid hstring hsteps
      obtain ⟨steps, rfl⟩ := Nat.exists_eq_succ_of_ne_zero
        (Nat.pos_iff_ne_zero.mp (Nat.lt_of_lt_of_le (Nat.zero_lt_succ _) hsteps))
      have harg' := stringAt_of_rest hlaid.rest (hstring arg List.mem_cons_self)
      have hname := stringAt_of_rest (stands_of_rest hlaid.rest).2
        (hstring name (List.mem_cons_of_mem _ List.mem_cons_self))
      have hgetopt : getopt (Lib.ascii "qo") args.mem [off, off + arg.length + 1] =
          .done [off + arg.length + 1] := by
        rw [getopt, harg', harg]
        rfl
      refine ⟨{ args with urlToSnarf := some (off + arg.length + 1) }, ?_,
        hlaid.found (congrArg some hname)⟩
      rw [argvPointers, argvPointers, argvPointers, loop_cons, hgetopt]
      rfl
  | @query given arg key rest items url harg hkey hrest ih =>
      intro g off args steps hgiven hlaid hstring hsteps
      obtain ⟨steps, rfl⟩ := Nat.exists_eq_succ_of_ne_zero
        (Nat.pos_iff_ne_zero.mp (Nat.lt_of_lt_of_le (Nat.zero_lt_succ _) hsteps))
      have hlength : arg.length = 2 := by rw [harg]; rfl
      have hkey0 := hstring key (List.mem_cons_of_mem _ List.mem_cons_self)
      obtain ⟨args', hquery, hlaid'⟩ := hlaid.queryHeader hlength hkey hkey0
      obtain ⟨final, hloop, hfound⟩ := @ih (g.add (.query key)) _ args' steps hgiven hlaid'
        (fun a ha => hstring a (List.mem_cons_of_mem _ (List.mem_cons_of_mem _ ha)))
        (by simp only [List.length_cons] at hsteps; omega)
      refine ⟨final, ?_, hfound⟩
      have hword : arg = [45, 113] := harg.trans (by decide)
      rw [argvPointers, argvPointers, loop_cons, getopt_option hlaid.rest hword (by decide)
        (hstring arg List.mem_cons_self) (by decide), hlength]
      dsimp only
      rw [if_pos rfl, hquery]
      exact hloop
  | @output arg file rest items url harg hfile hrest ih =>
      intro g off args steps hgiven hlaid hstring hsteps
      obtain ⟨steps, rfl⟩ := Nat.exists_eq_succ_of_ne_zero
        (Nat.pos_iff_ne_zero.mp (Nat.lt_of_lt_of_le (Nat.zero_lt_succ _) hsteps))
      have hlength : arg.length = 2 := by rw [harg]; rfl
      have hfile0 := hstring file (List.mem_cons_of_mem _ List.mem_cons_self)
      have hnone : g.output = none := by
        cases hout : g.output with
        | none => rfl
        | some out =>
            rw [hout] at hgiven
            cases hgiven
      obtain ⟨houtput, hlaid'⟩ := hlaid.outputTo hlength hnone hfile hfile0
      obtain ⟨final, hloop, hfound⟩ := @ih (g.add (.output file)) _ _ steps rfl hlaid'
        (fun a ha => hstring a (List.mem_cons_of_mem _ (List.mem_cons_of_mem _ ha)))
        (by simp only [List.length_cons] at hsteps; omega)
      refine ⟨final, ?_, hfound⟩
      have hword : arg = [45, 111] := harg.trans (by decide)
      rw [argvPointers, argvPointers, loop_cons, getopt_option hlaid.rest hword (by decide)
        (hstring arg List.mem_cons_self) (by decide), hlength]
      dsimp only
      rw [if_neg (by decide), houtput]
      exact hloop

-- What is in front of -q or -o, or is no option that there is.
theorem getopt_unknown {mem : List Byte} {off : Nat} {c : Byte} {attached : List Byte}
    {rest : List (List Byte)} {ps : List Nat}
    (h : mem.drop off = argvMemory ((45 :: c :: attached) :: rest))
    (harg0 : ∀ b ∈ 45 :: c :: attached, b ≠ 0) (harg : 45 :: c :: attached ≠ Lib.ascii "--")
    (hmem : c ∉ Lib.ascii "qo") : getopt (Lib.ascii "qo") mem (off :: ps) = .unknown c := by
  rw [getopt, stringAt_of_rest h harg0]
  split
  · rename_i heq
    exact absurd (heq.trans (by decide)) harg
  · rename_i heq
    cases heq
    rw [if_neg (mt List.contains_iff_mem.mp hmem)]
  · rename_i heq
    exact absurd rfl (heq c attached)

theorem getopt_attached {mem : List Byte} {off : Nat} {c : Byte} {attached : List Byte}
    {rest : List (List Byte)} {ps : List Nat}
    (h : mem.drop off = argvMemory ((45 :: c :: attached) :: rest))
    (harg0 : ∀ b ∈ 45 :: c :: attached, b ≠ 0) (hmem : c ∈ Lib.ascii "qo")
    (hne : attached ≠ []) :
    getopt (Lib.ascii "qo") mem (off :: ps) = .option c (off + 2) ps := by
  rw [getopt, stringAt_of_rest h harg0]
  split
  · rename_i heq
    cases heq
    exact absurd hmem (by decide)
  · rename_i heq
    cases heq
    rw [if_pos (List.contains_iff_mem.mpr hmem), if_pos hne]
  · rename_i heq
    exact absurd rfl (heq c attached)

theorem getopt_done {mem : List Byte} {off : Nat} {arg : List Byte} {rest : List (List Byte)}
    {ps : List Nat} (h : mem.drop off = argvMemory (arg :: rest)) (harg0 : ∀ b ∈ arg, b ≠ 0)
    (harg : ¬IsOption arg) : getopt (Lib.ascii "qo") mem (off :: ps) = .done (off :: ps) := by
  rw [getopt, stringAt_of_rest h harg0]
  split
  · exact absurd ⟨45, [], rfl⟩ harg
  · exact absurd ⟨_, _, rfl⟩ harg
  · rfl

-- What the loop does with an argument that is refused.
theorem loop_refused {steps : Nat} {p optarg : Nat} {ps rest : List Nat} {args : Args} {c : Byte}
    (hgetopt : getopt (Lib.ascii "qo") args.mem (p :: ps) = .option c optarg rest)
    (hrefused : refused args.mem optarg = true) :
    parseArgsLoop (steps + 1) (p :: ps) args = some (.usage (-1)) := by
  rw [loop_cons, hgetopt]
  dsimp only
  split
  · rw [queryHeader, if_pos hrefused]
    rfl
  · rw [outputTo, hrefused, Bool.or_true, if_pos rfl]

theorem getopt_missing {mem : List Byte} {off : Nat} {c : Byte} {rest : List (List Byte)}
    (h : mem.drop off = argvMemory ([45, c] :: rest)) (harg0 : ∀ b ∈ [45, c], b ≠ 0)
    (hmem : c ∈ Lib.ascii "qo") : getopt (Lib.ascii "qo") mem [off] = .unknown c := by
  rw [getopt, stringAt_of_rest h harg0]
  split
  · rename_i heq
    cases heq
    exact absurd hmem (by decide)
  · rename_i heq
    cases heq
    rw [if_pos (List.contains_iff_mem.mpr hmem)]
    rfl
  · rename_i heq
    exact absurd rfl (heq c [])

-- An option and its argument, when what stands behind them ends the program.
theorem usage_of_pair {steps : Nat} {g : Given} {c : Byte} {key : List Byte}
    {rest : List (List Byte)} {off : Nat} {args : Args}
    (ih : ∀ {g : Given} {rest : List (List Byte)} {off : Nat} {args : Args}, Laid g rest off args →
      (∀ arg ∈ rest, ∀ c ∈ arg, c ≠ 0) → rest.length ≤ steps →
      (¬∃ items url, Arguments g.output.isSome rest items url) →
      ∃ status, parseArgsLoop steps (argvPointers off rest) args = some (.usage status))
    (hlaid : Laid g ([45, c] :: key :: rest) off args)
    (hstring : ∀ arg ∈ [45, c] :: key :: rest, ∀ b ∈ arg, b ≠ 0)
    (hsteps : rest.length ≤ steps) (hc : c = 113 ∨ c = 111)
    (hno : ¬∃ items url, Arguments g.output.isSome ([45, c] :: key :: rest) items url) :
    ∃ status, parseArgsLoop (steps + 1) (argvPointers off ([45, c] :: key :: rest)) args =
      some (.usage status) := by
  have harg0 := hstring [45, c] List.mem_cons_self
  have hkey0 := hstring key (List.mem_cons_of_mem _ List.mem_cons_self)
  have hrest (arg : List Byte) (harg : arg ∈ rest) :=
    hstring arg (List.mem_cons_of_mem _ (List.mem_cons_of_mem _ harg))
  have hmem : c ∈ Lib.ascii "qo" := by
    rcases hc with rfl | rfl
    · decide
    · decide
  have hdash : c ≠ 45 := by
    rcases hc with rfl | rfl
    · decide
    · decide
  have hgetopt : getopt (Lib.ascii "qo") args.mem
      (off :: (off + 3) :: argvPointers (off + 3 + key.length + 1) rest) =
        .option c (off + 3) (argvPointers (off + 3 + key.length + 1) rest) :=
    getopt_option hlaid.rest rfl hdash harg0 hmem
  rw [argvPointers, argvPointers]
  show ∃ status, parseArgsLoop (steps + 1)
    (off :: (off + 3) :: argvPointers (off + 3 + key.length + 1) rest) args = some (.usage status)
  by_cases hflag : IsFlag key
  · exact ⟨-1, loop_refused hgetopt ((refused_iff hlaid.rest rfl hkey0).mpr hflag)⟩
  · rw [loop_cons, hgetopt]
    dsimp only
    rcases hc with rfl | rfl
    · obtain ⟨args', hquery, hlaid'⟩ := hlaid.queryHeader rfl hflag hkey0
      obtain ⟨status, hloop⟩ := ih hlaid' hrest hsteps fun ⟨items, url, h⟩ =>
        hno ⟨.query key :: items, url, .query (by decide) hflag h⟩
      refine ⟨status, ?_⟩
      rw [if_pos rfl, hquery]
      exact hloop
    · rw [if_neg (by decide)]
      cases hout : g.output with
      | none =>
          obtain ⟨houtput, hlaid'⟩ := hlaid.outputTo rfl hout hflag hkey0
          obtain ⟨status, hloop⟩ := ih hlaid' hrest hsteps fun ⟨items, url, h⟩ => by
            rw [hout] at hno
            exact hno ⟨.output key :: items, url, .output (by decide) hflag h⟩
          refine ⟨status, ?_⟩
          rw [houtput]
          exact hloop
      | some out =>
          have hfile := hlaid.file
          rw [FileLaid, hout] at hfile
          obtain ⟨o, ho, -⟩ := hfile
          refine ⟨-1, ?_⟩
          rw [outputTo, ho]
          rfl

theorem usage_of_option {steps : Nat} {g : Given} {c : Byte} {attached : List Byte}
    {rest : List (List Byte)} {off : Nat} {args : Args}
    (ih : ∀ {g : Given} {rest : List (List Byte)} {off : Nat} {args : Args}, Laid g rest off args →
      (∀ arg ∈ rest, ∀ c ∈ arg, c ≠ 0) → rest.length ≤ steps →
      (¬∃ items url, Arguments g.output.isSome rest items url) →
      ∃ status, parseArgsLoop steps (argvPointers off rest) args = some (.usage status))
    (hlaid : Laid g ((45 :: c :: attached) :: rest) off args)
    (hstring : ∀ arg ∈ (45 :: c :: attached) :: rest, ∀ b ∈ arg, b ≠ 0)
    (hsteps : ((45 :: c :: attached) :: rest).length ≤ steps + 1) (hmem : c ∈ Lib.ascii "qo")
    (hno : ¬∃ items url, Arguments g.output.isSome ((45 :: c :: attached) :: rest) items url) :
    ∃ status, parseArgsLoop (steps + 1) (argvPointers off ((45 :: c :: attached) :: rest)) args =
      some (.usage status) := by
  have harg0 := hstring _ List.mem_cons_self
  have hc : c = 113 ∨ c = 111 := by
    rw [show Lib.ascii "qo" = [113, 111] by decide] at hmem
    simpa using hmem
  by_cases hne : attached = []
  · subst hne
    cases rest with
    | nil =>
        refine ⟨if c = 104 then 0 else -1, ?_⟩
        rw [argvPointers, argvPointers, loop_cons, getopt_missing hlaid.rest harg0 hmem]
    | cons key rest =>
        simp only [List.length_cons] at hsteps
        exact usage_of_pair ih hlaid hstring (by omega) hc hno
  · refine ⟨-1, ?_⟩
    rw [argvPointers]
    exact loop_refused (getopt_attached hlaid.rest harg0 hmem hne)
      (refused_attached hlaid.rest (harg0 c (by simp)))

-- The other command lines end the program.
theorem loop_usage {steps : Nat} : ∀ {g : Given} {rest : List (List Byte)} {off : Nat}
    {args : Args}, Laid g rest off args → (∀ arg ∈ rest, ∀ c ∈ arg, c ≠ 0) →
      rest.length ≤ steps → (¬∃ items url, Arguments g.output.isSome rest items url) →
      ∃ status, parseArgsLoop steps (argvPointers off rest) args = some (.usage status) := by
  induction steps with
  | zero =>
      intro g rest off args _ _ hsteps hno
      obtain rfl := List.length_eq_zero_iff.mp (Nat.le_zero.mp hsteps)
      exact absurd ⟨[], none, .none⟩ hno
  | succ steps ih =>
      intro g rest off args hlaid hstring hsteps hno
      cases rest with
      | nil => exact absurd ⟨[], none, .none⟩ hno
      | cons arg rest =>
          have harg0 := hstring arg List.mem_cons_self
          by_cases hdashes : arg = Lib.ascii "--"
          · cases rest with
            | nil => exact absurd ⟨[], none, .dashes hdashes⟩ hno
            | cons url rest =>
                cases rest with
                | nil => exact absurd ⟨[], some url, .behind hdashes⟩ hno
                | cons other rest =>
                    refine ⟨-1, ?_⟩
                    rw [argvPointers, loop_cons, getopt, stringAt_of_rest hlaid.rest harg0, hdashes]
                    rfl
          · by_cases hoption : IsOption arg
            · obtain ⟨c, attached, rfl⟩ := hoption
              by_cases hmem : c ∈ Lib.ascii "qo"
              · exact usage_of_option ih hlaid hstring hsteps hmem hno
              · refine ⟨if c = 104 then 0 else -1, ?_⟩
                rw [argvPointers, loop_cons, getopt_unknown hlaid.rest harg0 hdashes hmem]
            · cases rest with
              | nil => exact absurd ⟨[], some arg, .url hoption⟩ hno
              | cons other rest =>
                  refine ⟨-1, ?_⟩
                  rw [argvPointers, loop_cons, getopt_done hlaid.rest harg0 hoption]
                  rfl

theorem any_help {mem : List Byte} {argv : List (List Byte)} {off : Nat}
    (h : mem.drop off = argvMemory argv) (hstring : ∀ arg ∈ argv, ∀ c ∈ arg, c ≠ 0) :
    (argvPointers off argv).any (fun p => stringEquals (mem.drop p) (Lib.ascii "-h")) = true ↔
      Lib.ascii "-h" ∈ argv := by
  induction argv generalizing off with
  | nil => exact iff_of_false Bool.false_ne_true List.not_mem_nil
  | cons arg argv ih =>
      have hhelp : Lib.cstr (Lib.ascii "-h") = Lib.ascii "-h" := by decide
      have hrest := ih (stands_of_rest h).2 fun a ha => hstring a (List.mem_cons_of_mem arg ha)
      have hstring : Lib.cstr (mem.drop off) = arg :=
        stringAt_of_rest h (hstring arg List.mem_cons_self)
      rw [argvPointers, List.any_cons, Bool.or_eq_true, hrest, stringEquals_iff, hstring, hhelp,
        List.mem_cons, @eq_comm _ arg]

theorem laid_start (prog : List Byte) (rest : List (List Byte)) :
    Laid ⟨[], none⟩ rest (prog.length + 1) ⟨argvMemory (prog :: rest), none, none, none⟩ := by
  have hmem : (argvMemory (prog :: rest)).drop 0 = argvMemory (prog :: rest) := rfl
  have hdrop := (stands_of_rest hmem).2
  rw [Nat.zero_add] at hdrop
  exact ⟨hdrop, rfl, ⟨rfl, fun k hk => absurd hk (Option.not_mem_none k)⟩, rfl,
    List.forall_mem_nil _⟩

section

variable {argv : List (List Byte)} {prog : List Byte} {rest : List (List Byte)}
  {items : List Item} {url : Option (List Byte)}

theorem parseArgs_help (hstring : ∀ arg ∈ argv, ∀ c ∈ arg, c ≠ 0) (h : Lib.ascii "-h" ∈ argv) :
    parseArgs argv = some (.usage 0) := by
  have hmem : (argvMemory argv).drop 0 = argvMemory argv := rfl
  rw [parseArgs, if_pos ((any_help hmem hstring).mpr h)]

theorem parseArgs_loop (hstring : ∀ arg ∈ prog :: rest, ∀ c ∈ arg, c ≠ 0)
    (h : Lib.ascii "-h" ∉ prog :: rest) :
    parseArgs (prog :: rest) =
      parseArgsLoop ((prog :: rest).length + 1) (argvPointers (prog.length + 1) rest)
        ⟨argvMemory (prog :: rest), none, none, none⟩ := by
  have hmem : (argvMemory (prog :: rest)).drop 0 = argvMemory (prog :: rest) := rfl
  rw [parseArgs, if_neg (mt (any_help hmem hstring).mp h), argvPointers, List.tail_cons,
    Nat.zero_add]

theorem CommandLine.found (h : CommandLine argv items url)
    (hstring : ∀ arg ∈ argv, ∀ c ∈ arg, c ≠ 0) :
    ∃ args, parseArgs argv = some (.args args) ∧ args.Found (.ofItems items) url := by
  obtain ⟨hno, prog, rest, rfl, harguments⟩ := h
  rw [parseArgs_loop hstring hno]
  apply loop_of_arguments harguments rfl (laid_start prog rest)
  · exact fun arg harg => hstring arg (List.mem_cons_of_mem prog harg)
  · rw [List.length_cons]
    omega

end

-- The command lines that ask for a document are those that are read, with their keys, their
-- document and, when the keys leave room, their file.
theorem parseArgs_iff (argv : List (List Byte)) (hargv : argv ≠ [])
    (hstring : ∀ arg ∈ argv, ∀ c ∈ arg, c ≠ 0) :
    (∀ items url, CommandLine argv items url →
      ∃ args, parseArgs argv = some (.args args) ∧ args.Reads (.ofItems items) url) ∧
    ((¬∃ items url, CommandLine argv items url) →
      ∃ status, parseArgs argv = some (.usage status)) := by
  constructor
  · intro items url hline
    obtain ⟨args, hparse, hfound⟩ := hline.found hstring
    exact ⟨args, hparse, hfound.reads⟩
  · intro hno
    obtain ⟨prog, rest, rfl⟩ := List.exists_cons_of_ne_nil hargv
    by_cases h : Lib.ascii "-h" ∈ prog :: rest
    · exact ⟨0, parseArgs_help hstring h⟩
    · rw [parseArgs_loop hstring h]
      apply loop_usage (laid_start prog rest)
      · exact fun arg harg => hstring arg (List.mem_cons_of_mem prog harg)
      · rw [List.length_cons]
        omega
      · exact fun ⟨items, url, harguments⟩ => hno ⟨items, url, h, prog, rest, rfl, harguments⟩

-- The second key is put over the name of the file.
theorem parseArgs_of_keys :
    let argv := [Lib.ascii "snarf", Lib.ascii "-q", Lib.ascii "a", Lib.ascii "-o", Lib.ascii "f",
      Lib.ascii "-q", Lib.ascii "content-type", Lib.ascii "http://h/"]
    ∃ args, parseArgs argv = some (.args args) ∧
      args.keyParam.map (stringAt args.mem) = some (Lib.ascii "a content-type") ∧
      args.outputFile.map (stringAt args.mem) = some (Lib.ascii "tent-type") ∧
      args.urlToSnarf.map (stringAt args.mem) = some (Lib.ascii "http://h/") := by
  intro argv
  have hurl : ¬IsOption (Lib.ascii "http://h/") := by
    rintro ⟨c, attached, heq⟩
    have hhead : (Lib.ascii "http://h/").head? = some 45 := congrArg List.head? heq
    exact absurd hhead (by decide)
  have hline : CommandLine argv [.query (Lib.ascii "a"), .output (Lib.ascii "f"),
      .query (Lib.ascii "content-type")] (some (Lib.ascii "http://h/")) :=
    ⟨by decide, _, _, rfl, .query rfl (by decide) (.output rfl (by decide)
      (.query rfl (by decide) (.url hurl)))⟩
  obtain ⟨args, hparse, hreads⟩ := (parseArgs_iff argv (by decide) (by decide)).1 _ _ hline
  refine ⟨args, hparse, hreads.keyParam.trans ?_, hreads.outputFile.trans ?_, hreads.urlToSnarf⟩
  · decide
  · decide

end CSE320.Snarf
