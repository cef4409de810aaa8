import CSE320.Snarf.Http
import Mathlib.Data.List.DropRight

namespace CSE320.Snarf

open Lib (Byte)

def isTerminator (c : Byte) : Bool := c = 10 || c = 13

-- A line without its terminators, and the terminators.
def content (ll : List Byte) : List Byte := ll.rdropWhile isTerminator

def ending (ll : List Byte) : List Byte := ll.rtakeWhile isTerminator

-- Spaces, a key without a colon, the colon, at least one space, and the value.
structure IsHeader (l key value : List Byte) : Prop where
  shape : ∃ n m, l = List.replicate n 32 ++ (key ++ 58 :: 32 :: (List.replicate m 32 ++ value))
  keyStart : key.head? ≠ some 32
  colonFree : ∀ c ∈ key, c ≠ 58
  valueStart : value.head? ≠ some 32

def WellFormed (ll : List Byte) : Prop := ∃ key value, IsHeader (content ll) key value

-- The headers in front of the first blank line. The other lines that are not well formed
-- have none.
inductive HeaderPairs : List (List Byte) → List (List Byte × List Byte) → Prop
  | nil : HeaderPairs [] []
  | blank {ll : List Byte} {rest : List (List Byte)} (hblank : content ll = []) :
      HeaderPairs (ll :: rest) []
  | header {ll key value : List Byte} {rest : List (List Byte)}
      {pairs : List (List Byte × List Byte)} (hheader : IsHeader (content ll) key value)
      (hrest : HeaderPairs rest pairs) : HeaderPairs (ll :: rest) ((key, value) :: pairs)
  | illFormed {ll : List Byte} {rest : List (List Byte)} {pairs : List (List Byte × List Byte)}
      (hne : content ll ≠ []) (hbad : ¬WellFormed ll) (hrest : HeaderPairs rest pairs) :
      HeaderPairs (ll :: rest) pairs

-- The length of the line as an int is that of a line that ends with all its terminators.
def Measured (ll : List Byte) : Prop :=
  ending ll = [] ∨ (ending ll).length ≤ ll.length % 2 ^ 32 ∧ ll.length % 2 ^ 32 < 2 ^ 31

-- The lines in front of the first blank one.
def headerLines (lines : List (List Byte)) : List (List Byte) :=
  lines.takeWhile fun ll => content ll ≠ []

-- The last line in front of a blank one or the end is that of a header, and the lines that
-- count are recognized by their ends.
structure LinesFit (lines : List (List Byte)) : Prop where
  last : ∀ ll ∈ (headerLines lines).getLast?, WellFormed ll
  headers : ∀ ll ∈ headerLines lines, WellFormed ll → Measured ll
  blank : ∀ ll ∈ (lines.dropWhile fun ll => content ll ≠ []).head?, Measured ll

-- What the parser makes of the lines, and whether it leaves a node behind that is freed.
def outcome : List (List Byte) → Bool → List (List Byte × List Byte) × Bool
  | [], dangling => ([], dangling)
  | ll :: rest, dangling =>
    if chomp ll = [] then ([], dangling)
    else match splitHeader (chomp ll) with
      | none => outcome rest true
      | some pair => (pair :: (outcome rest false).1, (outcome rest false).2)

theorem flatten_getlines (f : List Byte) : (getlines f).flatten = f := by
  induction f with
  | nil => rfl
  | cons c f ih =>
      rw [getlines]
      by_cases hnewline : c = 10
      · rw [if_pos hnewline, List.flatten_cons, ih, List.singleton_append]
      · rw [if_neg hnewline]
        cases hlines : getlines f with
        | nil =>
            rw [hlines] at ih
            rw [← ih]
            rfl
        | cons ll rest =>
            rw [hlines] at ih
            rw [← ih]
            rfl

section

variable {l t ll : List Byte}

-- What a loop over characters of a kind leaves behind.
theorem dropWhile_stop {kind : Byte → Bool} (ht : ∀ c ∈ t, kind c = true)
    (hl : ∀ c, l.head? = some c → ¬kind c = true) : (t ++ l).dropWhile kind = l := by
  rw [List.dropWhile_append_of_pos ht]
  cases l with
  | nil => rfl
  | cons c l => rw [List.dropWhile_cons_of_neg (hl c rfl)]

theorem takeWhile_stop {kind : Byte → Bool} (ht : ∀ c ∈ t, kind c = true)
    (hl : ∀ c, l.head? = some c → ¬kind c = true) : (t ++ l).takeWhile kind = t := by
  rw [List.takeWhile_append_of_pos ht]
  cases l with
  | nil => exact List.append_nil t
  | cons c l => rw [List.takeWhile_cons_of_neg (hl c rfl), List.append_nil]

theorem head_dropWhile {kind : Byte → Bool} {c : Byte} (h : (l.dropWhile kind).head? = some c) :
    ¬kind c = true := by
  have hnot := List.head?_dropWhile_not kind l
  rw [h] at hnot
  exact Bool.eq_false_iff.mp hnot

theorem spaces_eq (l : List Byte) : ∃ n, l = List.replicate n 32 ++ l.dropWhile (· = 32) := by
  refine ⟨(l.takeWhile (· = 32)).length, ?_⟩
  have hall : l.takeWhile (· = 32) = List.replicate (l.takeWhile (· = 32)).length 32 := by
    rw [List.eq_replicate_iff]
    exact ⟨rfl, fun c hc => by simpa using List.mem_takeWhile_imp hc⟩
  rw [← hall, List.takeWhile_append_dropWhile]

theorem toInt_pos_iff (n : Nat) :
    0 < (BitVec.ofNat 32 n).toInt ↔ 0 < n % 2 ^ 32 ∧ n % 2 ^ 32 < 2 ^ 31 := by
  rw [BitVec.toInt_eq_toNat_cond, BitVec.toNat_ofNat]
  split <;> omega

-- The terminators are dropped as long as the length is positive as an int.
theorem chompLoop_append (ht : ∀ c ∈ t, isTerminator c = true)
    (hl : ∀ c, l.head? = some c → ¬isTerminator c = true) :
    ∃ kept, chompLoop (t ++ l) = kept ++ l ∧ kept <:+ t ∧
      (kept = [] ↔ t = [] ∨ t.length ≤ (t ++ l).length % 2 ^ 32 ∧
        (t ++ l).length % 2 ^ 32 < 2 ^ 31) := by
  induction t with
  | nil =>
      refine ⟨[], ?_, List.suffix_refl [], iff_of_true rfl (Or.inl rfl)⟩
      cases l with
      | nil => rfl
      | cons c l =>
          have hc : ¬(c = 10 ∨ c = 13) := by simpa [isTerminator] using hl c rfl
          exact if_neg fun h => hc h.2
  | cons c t ih =>
      have hc : c = 10 ∨ c = 13 := by simpa [isTerminator] using ht c List.mem_cons_self
      obtain ⟨kept, hloop, hsuffix, hnil⟩ := ih fun a ha => ht a (List.mem_cons_of_mem c ha)
      rw [List.cons_append, chompLoop]
      simp only [List.length_cons, List.cons_ne_nil, false_or]
      by_cases hpos : 0 < (BitVec.ofNat 32 ((t ++ l).length + 1)).toInt
      · rw [if_pos ⟨hpos, hc⟩]
        refine ⟨kept, hloop, hsuffix.trans (List.suffix_cons c t), hnil.trans ?_⟩
        rw [toInt_pos_iff] at hpos
        rw [← List.length_eq_zero_iff]
        omega
      · rw [if_neg fun h => hpos h.1]
        refine ⟨c :: t, rfl, List.suffix_refl _, iff_of_false (List.cons_ne_nil c t) ?_⟩
        rw [toInt_pos_iff] at hpos
        omega

-- The code leaves a line without its terminators, and some of them when it is too long.
theorem chomp_eq (ll : List Byte) : ∃ kept, chomp ll = content ll ++ kept ∧
    (∀ c ∈ kept, isTerminator c = true) ∧ (kept = [] ↔ Measured ll) := by
  have ht (c : Byte) (hc : c ∈ ll.reverse.takeWhile isTerminator) : isTerminator c = true :=
    List.mem_takeWhile_imp hc
  obtain ⟨kept, hloop, hsuffix, hnil⟩ := chompLoop_append ht fun c hc => head_dropWhile hc
  rw [List.takeWhile_append_dropWhile] at hloop hnil
  refine ⟨kept.reverse, ?_, fun c hc => ht c (hsuffix.subset (List.mem_reverse.mp hc)), ?_⟩
  · rw [chomp, hloop, List.reverse_append]
    rfl
  · rw [List.reverse_eq_nil_iff, hnil, Measured, ending, List.rtakeWhile,
      List.reverse_eq_nil_iff, List.length_reverse, List.length_reverse]

end

section

variable {l key value t : List Byte}

theorem head_append_colon {c : Byte} {cp : List Byte} (hstart : key.head? ≠ some 32)
    (h : (key ++ 58 :: cp).head? = some c) : c ≠ 32 := by
  cases key with
  | nil =>
      obtain rfl := Option.some.inj h
      decide
  | cons a key =>
      rintro rfl
      exact hstart h

-- A header as the loops of the parser find it.
theorem isHeader_iff : IsHeader l key value ↔
    ∃ cp, l.dropWhile (· = 32) = key ++ 58 :: cp ∧ (∀ c ∈ key, c ≠ 58) ∧ cp.head? = some 32 ∧
      cp.dropWhile (· = 32) = value := by
  have hspace (c : Byte) : (decide (c = 32)) = true ↔ c = 32 := decide_eq_true_iff
  constructor
  · rintro ⟨⟨n, m, rfl⟩, hstart, hkey, hvalue⟩
    refine ⟨32 :: (List.replicate m 32 ++ value), ?_, hkey, rfl, ?_⟩
    · apply dropWhile_stop
      · exact fun c hc => (hspace c).mpr (List.eq_of_mem_replicate hc)
      · exact fun c hc => mt (hspace c).mp (head_append_colon hstart hc)
    · rw [← List.cons_append]
      apply dropWhile_stop
      · exact fun c hc => (hspace c).mpr (List.eq_of_mem_replicate (n := m + 1) hc)
      · rintro c hc h
        rw [hc, (hspace c).mp h] at hvalue
        exact hvalue rfl
  · rintro ⟨cp, hdrop, hkey, hhead, hvalue⟩
    obtain ⟨n, hl⟩ := spaces_eq l
    obtain ⟨m, hcp⟩ := spaces_eq cp
    have hstart : value.head? ≠ some 32 := by
      rw [← hvalue]
      exact fun h => head_dropWhile h rfl
    rw [hdrop] at hl
    rw [hvalue] at hcp
    cases m with
    | zero =>
        rw [hcp] at hhead
        exact absurd hhead hstart
    | succ m =>
        refine ⟨⟨n, m, ?_⟩, fun h => ?_, hkey, hstart⟩
        · rw [hl, hcp]
          rfl
        · have hfirst : (l.dropWhile (· = 32)).head? = some 32 := by
            rw [hdrop, List.head?_append, h]
            rfl
          exact head_dropWhile hfirst rfl

theorem headD_eq_space (cp : List Byte) : cp.headD 0 = 32 ↔ cp.head? = some 32 := by
  cases cp with
  | nil => exact iff_of_false (by decide) nofun
  | cons c cp => exact Option.some_inj.symm

theorem span_colon (hkey : ∀ c ∈ key, c ≠ 58) (cp : List Byte) :
    (key ++ 58 :: cp).takeWhile (· ≠ 58) = key ∧
      (key ++ 58 :: cp).dropWhile (· ≠ 58) = 58 :: cp := by
  have hall (c : Byte) (hc : c ∈ key) : decide (c ≠ 58) = true := decide_eq_true (hkey c hc)
  have hcolon (c : Byte) (hc : (58 :: cp).head? = some c) : ¬decide (c ≠ 58) = true := by
    obtain rfl := Option.some.inj hc
    decide
  exact ⟨takeWhile_stop hall hcolon, dropWhile_stop hall hcolon⟩

-- The parser accepts the headers, and finds their keys and values.
theorem splitHeader_eq_some (hl : ∀ c ∈ l, c ≠ 0) :
    splitHeader l = some (key, value) ↔ IsHeader l key value := by
  rw [isHeader_iff, splitHeader, Lib.cstr_eq_self hl]
  constructor
  · intro h
    split at h
    · cases h
    · rename_i a cp hcp
      split at h
      · cases h
      · rename_i hspace
        obtain ⟨rfl, rfl⟩ := Prod.mk.inj (Option.some.inj h)
        obtain rfl : a = 58 := by
          have hnot := head_dropWhile (congrArg List.head? hcp)
          simpa using hnot
        refine ⟨cp, ?_, fun c hc => ?_, (headD_eq_space cp).mp (not_not.mp hspace), rfl⟩
        · rw [← hcp, List.takeWhile_append_dropWhile]
        · simpa using List.mem_takeWhile_imp hc
  · rintro ⟨cp, hdrop, hkey, hhead, rfl⟩
    obtain ⟨htake, hrest⟩ := span_colon hkey cp
    rw [hdrop, htake, hrest]
    exact if_neg (not_not.mpr ((headD_eq_space cp).mpr hhead))

-- Terminators that are left become the end of the value.
theorem isHeader_append (ht : ∀ c ∈ t, isTerminator c = true) {value' : List Byte} :
    IsHeader (l ++ t) key value' ↔ ∃ value, IsHeader l key value ∧ value' = value ++ t := by
  have hspace : (32 : Byte) ∉ t := fun hmem => absurd (ht 32 hmem) (by decide)
  constructor
  · rintro ⟨⟨n, m, hshape⟩, hstart, hkey, hvalue⟩
    have hassoc : l ++ t =
        (List.replicate n 32 ++ key ++ 58 :: List.replicate (m + 1) 32) ++ value' := by
      rw [hshape, List.replicate_succ]
      simp only [List.append_assoc, List.cons_append]
    rcases List.append_eq_append_iff.mp hassoc with ⟨back, hl, rfl⟩ | ⟨value, rfl, rfl⟩
    · have hback : back = [] := by
        by_contra hne
        have hlast : (l ++ back).getLast? = some 32 := by
          rw [← hl, List.replicate_succ', ← List.cons_append, ← List.append_assoc,
            List.getLast?_concat]
        rw [List.getLast?_append, List.getLast?_eq_some_getLast hne, Option.some_or] at hlast
        obtain hmem := List.getLast_mem hne
        rw [Option.some.inj hlast] at hmem
        exact hspace (List.mem_append_left value' hmem)
      subst hback
      refine ⟨[], ⟨⟨n, m, ?_⟩, hstart, hkey, nofun⟩, rfl⟩
      rw [List.append_nil] at hl
      rw [← hl, List.replicate_succ]
      simp only [List.append_assoc, List.append_nil]
    · refine ⟨value, ⟨⟨n, m, ?_⟩, hstart, hkey, fun h => ?_⟩, rfl⟩
      · rw [List.replicate_succ]
        simp only [List.append_assoc, List.cons_append]
      · rw [List.head?_append, h] at hvalue
        exact hvalue rfl
  · rintro ⟨value, ⟨⟨n, m, rfl⟩, hstart, hkey, hvalue⟩, rfl⟩
    refine ⟨⟨n, m, ?_⟩, hstart, hkey, fun h => ?_⟩
    · simp only [List.append_assoc, List.cons_append]
    · cases value with
      | nil => exact hspace (List.mem_of_mem_head? h)
      | cons c value => exact hvalue h

end

section

variable {ll : List Byte} {rest lines : List (List Byte)}

theorem content_ne_zero (hll : ∀ c ∈ ll, c ≠ 0) : ∀ c ∈ content ll, c ≠ 0 :=
  fun c hc => hll c ((List.rdropWhile_prefix _ _).subset hc)

-- A line of less than 2 ^ 31 characters.
theorem measured_of_short (h : ll.length < 2 ^ 31) : Measured ll := by
  have hending := (List.rtakeWhile_suffix isTerminator ll).length_le
  rw [Measured, Nat.mod_eq_of_lt (by omega)]
  exact Or.inr ⟨hending, h⟩

theorem splitHeader_chomp (hll : ∀ c ∈ ll, c ≠ 0) {kept key value' : List Byte}
    (hchomp : chomp ll = content ll ++ kept) (hkept : ∀ c ∈ kept, isTerminator c = true) :
    splitHeader (chomp ll) = some (key, value') ↔
      ∃ value, IsHeader (content ll) key value ∧ value' = value ++ kept := by
  have hcontent := content_ne_zero hll
  have hne : ∀ c ∈ content ll ++ kept, c ≠ 0 := by
    intro c hc
    rcases List.mem_append.mp hc with hc | hc
    · exact hcontent c hc
    · rintro rfl
      exact absurd (hkept 0 hc) (by decide)
  rw [hchomp, splitHeader_eq_some hne, isHeader_append hkept]

theorem not_wellFormed_blank (h : content ll = []) : ¬WellFormed ll := by
  rintro ⟨key, value, ⟨n, m, hshape⟩, -⟩
  rw [h] at hshape
  simp at hshape

theorem headerLines_blank (h : content ll = []) : headerLines (ll :: rest) = [] :=
  List.takeWhile_cons_of_neg (by simpa using h)

theorem headerLines_cons (h : content ll ≠ []) :
    headerLines (ll :: rest) = ll :: headerLines rest :=
  List.takeWhile_cons_of_pos (by simpa using h)

theorem linesFit_blank (h : content ll = []) : LinesFit (ll :: rest) ↔ Measured ll := by
  have hdrop : (ll :: rest).dropWhile (fun ll => content ll ≠ []) = ll :: rest :=
    List.dropWhile_cons_of_neg (by simpa using h)
  constructor
  · intro hfit
    apply hfit.blank
    rw [hdrop]
    rfl
  · intro hmeasured
    refine ⟨?_, ?_, ?_⟩
    · rw [headerLines_blank h]
      exact nofun
    · rw [headerLines_blank h]
      exact nofun
    · rw [hdrop]
      rintro _ ⟨⟩
      exact hmeasured

theorem linesFit_cons (h : content ll ≠ []) :
    LinesFit (ll :: rest) ↔ (headerLines rest = [] → WellFormed ll) ∧
      (WellFormed ll → Measured ll) ∧ LinesFit rest := by
  have hhead : headerLines (ll :: rest) = ll :: headerLines rest := headerLines_cons h
  have hdrop : (ll :: rest).dropWhile (fun ll => content ll ≠ []) =
      rest.dropWhile fun ll => content ll ≠ [] := List.dropWhile_cons_of_pos (by simpa using h)
  have hlast : (∀ line ∈ (ll :: headerLines rest).getLast?, WellFormed line) ↔
      (headerLines rest = [] → WellFormed ll) ∧
        ∀ line ∈ (headerLines rest).getLast?, WellFormed line := by
    cases headerLines rest with
    | nil => simp
    | cons first others => simp
  constructor
  · rintro ⟨hend, hheaders, hblank⟩
    rw [hhead] at hend hheaders
    rw [hdrop] at hblank
    obtain ⟨hfirst, hothers⟩ := hlast.mp hend
    exact ⟨hfirst, hheaders ll List.mem_cons_self, hothers,
      fun line hline => hheaders line (List.mem_cons_of_mem ll hline), hblank⟩
  · rintro ⟨hfirst, hmeasured, hothers, hheaders, hblank⟩
    refine ⟨?_, ?_, ?_⟩
    · rw [hhead]
      exact hlast.mpr ⟨hfirst, hothers⟩
    · rw [hhead]
      intro line hline
      rcases List.mem_cons.mp hline with rfl | hline
      · exact hmeasured
      · exact hheaders line hline
    · rw [hdrop]
      exact hblank

-- A node that is freed is replaced by the next header only.
theorem outcome_dangling (lines : List (List Byte)) : outcome lines true ≠ ([], false) := by
  induction lines with
  | nil => simp [outcome]
  | cons ll rest ih =>
      rw [outcome]
      split
      · simp
      · split
        · exact ih
        · simp

-- A blank line ends the headers.
theorem outcome_blank (hll : ∀ c ∈ ll, c ≠ 0) (h : content ll = []) (dangling : Bool) :
    (∃ pairs, HeaderPairs (ll :: rest) pairs ∧ outcome (ll :: rest) dangling = (pairs, false)) ↔
      dangling = false ∧ Measured ll := by
  obtain ⟨kept, hchomp, hkept, hnil⟩ := chomp_eq ll
  have hpairs {pairs : List (List Byte × List Byte)} (hp : HeaderPairs (ll :: rest) pairs) :
      pairs = [] := by
    cases hp with
    | blank => rfl
    | header hheader => exact absurd ⟨_, _, hheader⟩ (not_wellFormed_blank h)
    | illFormed hne => exact absurd h hne
  rw [← hnil, outcome]
  rw [h, List.nil_append] at hchomp
  by_cases hzero : kept = []
  · rw [if_pos (hchomp.trans hzero)]
    constructor
    · rintro ⟨pairs, -, heq⟩
      exact ⟨(Prod.mk.inj heq).2, hzero⟩
    · rintro ⟨rfl, -⟩
      exact ⟨[], .blank h, rfl⟩
  · have hnone : splitHeader (chomp ll) = none := by
      cases hsplit : splitHeader (chomp ll) with
      | none => rfl
      | some pair =>
          obtain ⟨value, hheader, -⟩ := (splitHeader_chomp hll (by rw [h]; exact hchomp) hkept).mp
            (hsplit : splitHeader (chomp ll) = some (pair.1, pair.2))
          exact absurd ⟨_, _, hheader⟩ (not_wellFormed_blank h)
    rw [if_neg (hchomp ▸ hzero), hnone]
    apply iff_of_false
    · rintro ⟨pairs, hp, heq⟩
      rw [hpairs hp] at heq
      exact outcome_dangling rest heq
    · exact fun hfit => hzero hfit.2

theorem content_ne_nil (h : WellFormed ll) : content ll ≠ [] :=
  fun hnil => not_wellFormed_blank hnil h

theorem chomp_ne_nil (h : content ll ≠ []) : chomp ll ≠ [] := by
  obtain ⟨kept, hchomp, -⟩ := chomp_eq ll
  rw [hchomp]
  exact List.append_ne_nil_of_left_ne_nil h kept

theorem isHeader_unique {l key value key' value' : List Byte} (hl : ∀ c ∈ l, c ≠ 0)
    (h : IsHeader l key value) (h' : IsHeader l key' value') : key = key' ∧ value = value' := by
  have hsplit := (splitHeader_eq_some hl).mpr h
  rw [(splitHeader_eq_some hl).mpr h'] at hsplit
  obtain ⟨hkey, hvalue⟩ := Prod.mk.inj (Option.some.inj hsplit)
  exact ⟨hkey.symm, hvalue.symm⟩

-- The headers of lines are determined, and their keys are strings.
theorem HeaderPairs.unique {pairs pairs' : List (List Byte × List Byte)}
    (hlines : ∀ ll ∈ lines, ∀ c ∈ ll, c ≠ 0) (h : HeaderPairs lines pairs)
    (h' : HeaderPairs lines pairs') : pairs = pairs' := by
  induction h generalizing pairs' with
  | nil =>
      cases h'
      rfl
  | blank hblank =>
      cases h' with
      | blank => rfl
      | header hheader => exact absurd ⟨_, _, hheader⟩ (not_wellFormed_blank hblank)
      | illFormed hne => exact absurd hblank hne
  | @header ll key value rest pairs hheader hrest ih =>
      have hll := hlines ll List.mem_cons_self
      have hothers := fun line hline => hlines line (List.mem_cons_of_mem ll hline)
      cases h' with
      | blank hblank => exact absurd ⟨_, _, hheader⟩ (not_wellFormed_blank hblank)
      | header hheader' hrest' =>
          obtain ⟨rfl, rfl⟩ := isHeader_unique (content_ne_zero hll) hheader hheader'
          rw [ih hothers hrest']
      | illFormed _ hbad => exact absurd ⟨_, _, hheader⟩ hbad
  | illFormed hne hbad hrest ih =>
      have hothers := fun line hline => hlines line (List.mem_cons_of_mem _ hline)
      cases h' with
      | blank hblank => exact absurd hblank hne
      | header hheader => exact absurd ⟨_, _, hheader⟩ hbad
      | illFormed _ _ hrest' => exact ih hothers hrest'

theorem exists_headerPairs (lines : List (List Byte)) : ∃ pairs, HeaderPairs lines pairs := by
  induction lines with
  | nil => exact ⟨[], .nil⟩
  | cons ll rest ih =>
      obtain ⟨pairs, hrest⟩ := ih
      by_cases hblank : content ll = []
      · exact ⟨[], .blank hblank⟩
      · by_cases hwell : WellFormed ll
        · obtain ⟨key, value, hheader⟩ := hwell
          exact ⟨(key, value) :: pairs, .header hheader hrest⟩
        · exact ⟨pairs, .illFormed hblank hwell hrest⟩

theorem HeaderPairs.key_ne_zero {pairs : List (List Byte × List Byte)}
    (hlines : ∀ ll ∈ lines, ∀ c ∈ ll, c ≠ 0) (h : HeaderPairs lines pairs) :
    ∀ pair ∈ pairs, ∀ c ∈ pair.1, c ≠ 0 := by
  induction h with
  | nil => exact nofun
  | blank => exact nofun
  | @header ll key value rest pairs hheader hrest ih =>
      have hothers := fun line hline => hlines line (List.mem_cons_of_mem ll hline)
      intro pair hpair c hc
      rcases List.mem_cons.mp hpair with rfl | hpair
      · obtain ⟨n, m, hshape⟩ := hheader.shape
        apply content_ne_zero (hlines ll List.mem_cons_self)
        rw [hshape]
        exact List.mem_append_right _ (List.mem_append_left _ hc)
      · exact ih hothers pair hpair c hc
  | illFormed hne hbad hrest ih =>
      exact ih fun line hline => hlines line (List.mem_cons_of_mem _ hline)

-- A header takes the place of a freed node.
theorem outcome_header (hll : ∀ c ∈ ll, c ≠ 0) (h : WellFormed ll) (dangling : Bool) :
    (∃ pairs, HeaderPairs (ll :: rest) pairs ∧ outcome (ll :: rest) dangling = (pairs, false)) ↔
      Measured ll ∧ ∃ pairs, HeaderPairs rest pairs ∧ outcome rest false = (pairs, false) := by
  have hcontent := content_ne_zero hll
  obtain ⟨kept, hchomp, hkept, hnil⟩ := chomp_eq ll
  obtain ⟨key, value, hheader⟩ := h
  have hwell : WellFormed ll := ⟨key, value, hheader⟩
  have hsplit : splitHeader (chomp ll) = some (key, value ++ kept) :=
    (splitHeader_chomp hll hchomp hkept).mpr ⟨value, hheader, rfl⟩
  rw [← hnil, outcome, if_neg (chomp_ne_nil (content_ne_nil hwell)), hsplit]
  constructor
  · rintro ⟨pairs, hp, heq⟩
    obtain ⟨rfl, hfalse⟩ := Prod.mk.inj heq
    cases hp with
    | header hheader' hrest =>
        obtain ⟨-, hvalue⟩ := isHeader_unique hcontent hheader hheader'
        have hlength := congrArg List.length hvalue
        rw [List.length_append] at hlength
        exact ⟨List.length_eq_zero_iff.mp (by omega), _, hrest, Prod.ext rfl hfalse⟩
    | illFormed _ hbad _ => exact absurd hwell hbad
  · rintro ⟨rfl, pairs, hp, heq⟩
    refine ⟨(key, value) :: pairs, .header hheader hp, ?_⟩
    rw [heq, List.append_nil]

-- Another line leaves a freed node behind.
theorem outcome_illFormed (hll : ∀ c ∈ ll, c ≠ 0) (hne : content ll ≠ []) (h : ¬WellFormed ll)
    (dangling : Bool) :
    (∃ pairs, HeaderPairs (ll :: rest) pairs ∧ outcome (ll :: rest) dangling = (pairs, false)) ↔
      ∃ pairs, HeaderPairs rest pairs ∧ outcome rest true = (pairs, false) := by
  obtain ⟨kept, hchomp, hkept, -⟩ := chomp_eq ll
  have hnone : splitHeader (chomp ll) = none := by
    cases hsplit : splitHeader (chomp ll) with
    | none => rfl
    | some pair =>
        obtain ⟨value, hheader, -⟩ := (splitHeader_chomp hll hchomp hkept).mp
          (hsplit : splitHeader (chomp ll) = some (pair.1, pair.2))
        exact absurd ⟨_, _, hheader⟩ h
  rw [outcome, if_neg (chomp_ne_nil hne), hnone]
  apply exists_congr
  intro pairs
  apply and_congr_left
  intro _
  constructor
  · intro hp
    cases hp with
    | blank hblank => exact absurd hblank hne
    | header hheader => exact absurd ⟨_, _, hheader⟩ h
    | illFormed _ _ hrest => exact hrest
  · exact HeaderPairs.illFormed hne h

-- The parser finds the pairs of the headers, and leaves no freed node, exactly when the
-- lines fit.
theorem outcome_iff (hlines : ∀ ll ∈ lines, ∀ c ∈ ll, c ≠ 0) (dangling : Bool) :
    (∃ pairs, HeaderPairs lines pairs ∧ outcome lines dangling = (pairs, false)) ↔
      (headerLines lines = [] → dangling = false) ∧ LinesFit lines := by
  induction lines generalizing dangling with
  | nil =>
      constructor
      · rintro ⟨pairs, -, heq⟩
        exact ⟨fun _ => (Prod.mk.inj heq).2, nofun, nofun, nofun⟩
      · rintro ⟨hfalse, -⟩
        exact ⟨[], .nil, Prod.ext rfl (hfalse rfl)⟩
  | cons ll rest ih =>
      have hll := hlines ll List.mem_cons_self
      have hrest := ih fun line hline => hlines line (List.mem_cons_of_mem ll hline)
      by_cases hblank : content ll = []
      · rw [outcome_blank hll hblank, headerLines_blank hblank, linesFit_blank hblank]
        exact and_congr_left' ⟨fun h _ => h, fun h => h rfl⟩
      · rw [headerLines_cons hblank, linesFit_cons hblank]
        by_cases hwell : WellFormed ll
        · rw [outcome_header hll hwell, hrest]
          simp [hwell]
        · rw [outcome_illFormed hll hblank hwell, hrest]
          simp [hwell]

end

end CSE320.Snarf
