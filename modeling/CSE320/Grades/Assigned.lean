import CSE320.Grades.Written

namespace CSE320.Grades.File

open Lib

variable {F : Type} {nums : Numbers F} {rounds n : Nat} {a b : Assignment (Option F)}
  {t rest : Text} {r : Reader}

structure SameAssignment (nums : Numbers F) (a b : Assignment (Option F)) : Prop where
  name : a.name = b.name
  atype : a.atype = b.atype
  wpolicy : a.wpolicy = b.wpolicy
  weight : SameNumber nums a.weight b.weight
  npolicy : a.npolicy = b.npolicy
  max : SameNumber nums a.max b.max
  mean : SameNumber nums a.mean b.mean
  stddev : SameNumber nums a.stddev b.stddev
  scale : SameNumber nums a.scale b.scale
  ngroup : a.ngroup = b.ngroup

-- An assignment that can be read back. It is not LINEAR, it has no group where none is
-- written, and no number of a normalization that has been declared before its last one.
structure RereadableAssignment (a : Assignment (Option F)) : Prop where
  linear : a.npolicy ≠ .linear
  ngroup : a.npolicy = .raw → a.ngroup = .byclass
  mean : a.mean = none
  stddev : a.stddev = none
  scale : a.npolicy ≠ .scale → a.scale = none

def groupword : Ngroup → Text
  | .byclass => ascii "BYCLASS"
  | .bysection => ascii "BYSECTION"

theorem normItem_group {g : Ngroup} (h : Ahead t r) (hleads : Leads t (groupword g) rest) :
    Runs (normItem nums a r) (some { a with ngroup := g }) (At rest) := by
  rw [normItem]
  cases g with
  | byclass =>
      refine keyword_no h hleads (by decide) fun r₁ h₁ =>
        keyword_no h₁ hleads (by decide) fun r₂ h₂ => ?_
      refine keyword_no h₂ hleads (by decide) fun r₃ h₃ =>
        keyword_no h₃ hleads (by decide) fun r₄ h₄ => ?_
      refine keyword_no h₄ hleads (by decide) fun r₅ h₅ => keyword_yes h₅ hleads fun r' h' =>
        ⟨r', rfl, h'⟩
  | bysection =>
      refine keyword_no h hleads (by decide) fun r₁ h₁ =>
        keyword_no h₁ hleads (by decide) fun r₂ h₂ => ?_
      refine keyword_no h₂ hleads (by decide) fun r₃ h₃ =>
        keyword_no h₃ hleads (by decide) fun r₄ h₄ => ?_
      refine keyword_no h₄ hleads (by decide) fun r₅ h₅ =>
        keyword_no h₅ hleads (by decide) fun r₆ h₆ => ?_
      exact keyword_yes h₆ hleads fun r' h' => ⟨r', rfl, h'⟩

theorem normItem_quantile (h : Ahead t r) (hleads : Leads t (ascii "QUANTILE") rest) :
    Runs (normItem nums a r) (some { a with npolicy := .quantile }) (At rest) := by
  rw [normItem]
  refine keyword_no h hleads (by decide) fun r₁ h₁ =>
    keyword_no h₁ hleads (by decide) fun r₂ h₂ => ?_
  refine keyword_no h₂ hleads (by decide) fun r₃ h₃ => keyword_yes h₃ hleads fun r' h' =>
    ⟨r', rfl, h'⟩

theorem normItem_scale {x y : F} (h : Ahead t r)
    (hleads : Leads t (ascii "SCALE") (32 :: (nums.print x ++ rest))) (hrest : EndsWord rest)
    (hnums : Lawful nums) (hy : nums.scan (nums.print x) = some y) :
    Runs (normItem nums a r) (some { a with npolicy := .scale, scale := some y }) (At rest) := by
  rw [normItem]
  refine keyword_no h hleads (by decide) fun r₁ h₁ =>
    keyword_no h₁ hleads (by decide) fun r₂ h₂ => ?_
  refine keyword_no h₂ hleads (by decide) fun r₃ h₃ =>
    keyword_no h₃ hleads (by decide) fun r₄ h₄ => ?_
  refine keyword_yes h₄ hleads fun r₅ h₅ => Runs.bind ?_ fun r' h' => ⟨r', rfl, h'⟩
  rw [readparam]
  exact advancetoken_number h₅ hrest hnums hy fun r' h' => ⟨r', rfl, h'⟩

theorem normItem_newline (h : At (newline :: t) r) : normItem nums a r = .ok (none, r) := by
  rw [normItem, keyword_newline h, keyword_newline h, keyword_newline h, keyword_newline h,
    keyword_newline h, keyword_newline h, keyword_newline h]
  rfl

theorem normItem_linear (h : Ahead t r) (hleads : Leads t (ascii "LINEAR") rest) :
    Runs (normItem nums a r) none (Ahead t) := by
  rw [normItem]
  refine keyword_no h hleads (by decide) fun r₁ h₁ =>
    keyword_no h₁ hleads (by decide) fun r₂ h₂ => ?_
  refine keyword_no h₂ hleads (by decide) fun r₃ h₃ =>
    keyword_no h₃ hleads (by decide) fun r₄ h₄ => ?_
  refine keyword_no h₄ hleads (by decide) fun r₅ h₅ =>
    keyword_no h₅ hleads (by decide) fun r₆ h₆ => ?_
  exact keyword_no h₆ hleads (by decide) fun r' h' => ⟨r', rfl, h'⟩

-- A policy and a group are all of the normalization.
theorem readnorm_items {b c : Assignment (Option F)} {mid : Text} {g : Ngroup}
    (hrounds : 3 ≤ rounds) (hpolicy : Runs (normItem nums a r) (some b) (At mid))
    (hgroup : Leads mid (groupword g) (newline :: t)) (hc : c = { b with ngroup := g }) :
    Runs (readnorm rounds nums a r) c (At (newline :: t)) := by
  obtain ⟨k, rfl⟩ := Nat.exists_eq_add_of_le hrounds
  subst hc
  have hitems : Runs (normItems nums (3 + k) false a r) (true,
      { b with ngroup := g }) (At (newline :: t)) := by
    rw [show 3 + k = k + 1 + 1 + 1 by omega, normItems]
    refine hpolicy.bind fun r₁ h₁ => ?_
    change Runs (normItems nums (k + 1 + 1) true b r₁) _ _
    rw [normItems]
    refine (normItem_group (Or.inl h₁) hgroup).bind fun r₂ h₂ => ?_
    change Runs (normItems nums (k + 1) true { b with ngroup := g } r₂) _ _
    rw [normItems, stateT_bind_of (normItem_newline h₂)]
    exact ⟨r₂, rfl, h₂⟩
  rw [readnorm]
  exact hitems.bind fun r' h' => ⟨r', rfl, h'⟩

-- LINEAR is what the writer puts for what the reader knows as GENLINEAR.
theorem readnorm_linear (hrounds : 0 < rounds) (h : Ahead t r)
    (hleads : Leads t (ascii "LINEAR") rest) :
    Spoils Clean (readnorm rounds nums a r) := by
  obtain ⟨k, rfl⟩ := Nat.exists_eq_add_one.mpr hrounds
  have hitems : Runs (normItems nums (k + 1) false a r) (false, a) (Ahead t) := by
    rw [normItems]
    exact (normItem_linear h hleads).bind fun r' h' => ⟨r', rfl, h'⟩
  rw [readnorm]
  refine Spoils.after hitems fun r₁ h₁ => ?_
  change Spoils Clean ((error (ascii "Expected normalization information.") >>= fun _ => pure _) r₁)
  exact Spoils.bind h₁.sound spoils_error returns_error fun _ =>
    Ensures.pure (p := fun _ => True) trivial

section

variable {words : List Text} {mid : Text} {c : Assignment (Option F)} {x y : F}

theorem readweight_run (hnums : Lawful nums) (h : At (32 :: (nums.print x ++ newline :: rest)) r)
    (hy : nums.scan (nums.print x) = some y) :
    Runs (readweight nums b r) { b with wpolicy := .weight, weight := some y }
      (At (newline :: rest)) := by
  rw [readweight]
  exact advancetoken_number h (endsWord_newline rest) hnums hy fun r' h' => ⟨r', rfl, h'⟩

theorem readmax_run (hnums : Lawful nums) (h : At (32 :: (nums.print x ++ newline :: rest)) r)
    (hy : nums.scan (nums.print x) = some y) :
    Runs (readmax nums b r) { b with max := some y } (At (newline :: rest)) := by
  rw [readmax]
  exact advancetoken_number h (endsWord_newline rest) hnums hy fun r' h' => ⟨r', rfl, h'⟩

theorem declaration_weight (hrounds : 0 < rounds) (hnums : Lawful nums) (h : Ahead t r)
    (hleads : Leads t (ascii "WEIGHT") (32 :: (nums.print x ++ newline :: rest)))
    (hy : nums.scan (nums.print x) = some y) (hrest : Next words rest) :
    Runs (declaration rounds nums b r) (some { b with wpolicy := .weight, weight := some y })
      (At rest) := by
  rw [declaration]
  refine keyword_yes h hleads fun r₁ h₁ => (readweight_run hnums h₁ hy).bind fun r₂ h₂ => ?_
  exact (expectnewline_run h₂ hrest hrounds).bind fun r' h' => ⟨r', rfl, h'⟩

theorem declaration_norm (hrounds : 0 < rounds) (h : Ahead t r)
    (hleads : Leads t (ascii "NORMALIZE") mid)
    (hnorm : ∀ r, At mid r → Runs (readnorm rounds nums b r) c (At (newline :: rest)))
    (hrest : Next words rest) :
    Runs (declaration rounds nums b r) (some c) (At rest) := by
  rw [declaration]
  refine keyword_no h hleads (by decide) fun r₁ h₁ => keyword_yes h₁ hleads fun r₂ h₂ => ?_
  refine (hnorm r₂ h₂).bind fun r₃ h₃ => ?_
  exact (expectnewline_run h₃ hrest hrounds).bind fun r' h' => ⟨r', rfl, h'⟩

theorem declaration_max (hrounds : 0 < rounds) (hnums : Lawful nums) (h : Ahead t r)
    (hleads : Leads t (ascii "MAXIMUM") (32 :: (nums.print x ++ newline :: rest)))
    (hy : nums.scan (nums.print x) = some y) (hrest : Next words rest) :
    Runs (declaration rounds nums b r) (some { b with max := some y }) (At rest) := by
  rw [declaration]
  refine keyword_no h hleads (by decide) fun r₁ h₁ =>
    keyword_no h₁ hleads (by decide) fun r₂ h₂ => ?_
  refine keyword_yes h₂ hleads fun r₃ h₃ => (readmax_run hnums h₃ hy).bind fun r₄ h₄ => ?_
  exact (expectnewline_run h₄ hrest hrounds).bind fun r' h' => ⟨r', rfl, h'⟩

theorem declaration_none (h : Ahead t r) (ht : Next words t) (hweight : ascii "WEIGHT" ∉ words)
    (hnorm : ascii "NORMALIZE" ∉ words) (hmax : ascii "MAXIMUM" ∉ words) :
    Runs (declaration rounds nums b r) none (Ahead t) := by
  rw [declaration]
  refine keyword_next h ht hweight fun r₁ h₁ => keyword_next h₁ ht hnorm fun r₂ h₂ => ?_
  exact keyword_next h₂ ht hmax fun r' h' => ⟨r', rfl, h'⟩

theorem declaration_linear (hrounds : 0 < rounds) (h : Ahead t r)
    (hleads : Leads t (ascii "NORMALIZE") mid) (hlinear : Leads mid (ascii "LINEAR") rest) :
    Spoils Clean (declaration rounds nums b r) := by
  rw [declaration]
  refine Spoils.after (checktoken_no h hleads (by decide)) fun r₁ h₁ => ?_
  refine Spoils.after (checktoken_yes (Or.inr ⟨_, _, hleads, h₁⟩) hleads) fun r₂ h₂ => ?_
  rw [if_pos rfl]
  refine Spoils.bind (q := fun _ => True) h₂.sound (readnorm_linear hrounds (Or.inl h₂) hlinear)
    (returns_readnorm rounds b) fun a => ?_
  exact Ensures.bind (returns_expectnewline rounds) fun _ => Ensures.pure fun _ => trivial

end

-- The lines of an assignment that are not always written.
def weightline (nums : Numbers F) (a : Assignment (Option F)) : Text :=
  if a.wpolicy = .weight then ascii "  WEIGHT " ++ printOption nums a.weight ++ ascii "\n" else []

def maxline (nums : Numbers F) (a : Assignment (Option F)) : Text :=
  if a.max.all nums.isZero then [] else ascii "  MAXIMUM " ++ printOption nums a.max ++ ascii "\n"

def bodyassignment (nums : Numbers F) (a : Assignment (Option F)) : Text :=
  32 ::
    (a.name ++
    (32 :: (a.atype ++ newline :: (weightline nums a ++ (writenorm nums a ++ maxline nums a)))))

theorem writeassignment_eq :
    writeassignment nums a = [32] ++ (ascii "ASSIGNMENT" ++ bodyassignment nums a) := by
  rw [writeassignment, bodyassignment, weightline, maxline]
  simp only [List.append_assoc]
  rfl

def declaring : List Text :=
  [ascii "WEIGHT", ascii "NORMALIZE", ascii "MAXIMUM", ascii "ASSIGNMENT", ascii "SECTION",
    ascii "FILE"]

section

variable {x : F}

theorem weightline_eq (h : a.wpolicy = .weight) (hx : a.weight = some x) (t : Text) :
    weightline nums a ++ t =
      32 :: 32 :: (ascii "WEIGHT" ++ (32 :: (nums.print x ++ newline :: t))) := by
  rw [weightline, if_pos h, hx]
  simp only [printOption, Option.elim, List.append_assoc]
  rfl

theorem maxline_eq (h : nums.isZero x = false) (hx : a.max = some x) (t : Text) :
    maxline nums a ++ t =
      32 :: 32 :: (ascii "MAXIMUM" ++ (32 :: (nums.print x ++ newline :: t))) := by
  rw [maxline, hx, if_neg (by simp [h])]
  simp only [printOption, Option.elim, List.append_assoc]
  rfl

-- A normalization that is written, up to its group.
theorem writenorm_eq (nums : Numbers F) (h : a.npolicy ≠ .raw) (t : Text) : ∃ policy,
    writenorm nums a ++ t = 32 :: 32 ::
      (ascii "NORMALIZE" ++ (32 :: (policy ++ 32 :: (groupword a.ngroup ++ newline :: t)))) ∧
      policy = match a.npolicy with
        | .linear =>
            ascii "LINEAR: " ++ printOption nums a.mean ++ ascii ", " ++ printOption nums a.stddev
        | .quantile => ascii "QUANTILE"
        | .scale => ascii "SCALE " ++ printOption nums a.scale
        | .raw => [] := by
  refine ⟨_, ?_, rfl⟩
  have hgroup : (if a.ngroup = .byclass then ascii "BYCLASS" else ascii "BYSECTION") =
      groupword a.ngroup := by
    cases a.ngroup <;> rfl
  rw [writenorm, if_neg h, hgroup]
  cases hpolicy : a.npolicy with
  | raw => exact absurd hpolicy h
  | linear =>
      simp only [List.append_assoc]
      rfl
  | quantile =>
      simp only [List.append_assoc]
      rfl
  | scale =>
      simp only [List.append_assoc]
      rfl

theorem next_maxline (ht : Next declaring t) (hmax : ∃ x, a.max = some x) :
    Next declaring (maxline nums a ++ t) := by
  obtain ⟨x, hx⟩ := hmax
  by_cases hzero : nums.isZero x = true
  · rwa [maxline, hx, if_pos (by simpa using hzero)]
  · rw [maxline_eq (by simpa using hzero) hx]
    exact Next.of_line (isWord_keyword (by decide)) (by decide) _

theorem next_writenorm (ht : Next declaring t) : Next declaring (writenorm nums a ++ t) := by
  by_cases hraw : a.npolicy = .raw
  · rwa [writenorm, if_pos hraw]
  · obtain ⟨policy, heq, -⟩ := writenorm_eq nums hraw t
    rw [heq]
    exact Next.of_line (isWord_keyword (by decide)) (by decide) _

theorem next_weightline (ht : Next declaring t) (hweight : ∃ x, a.weight = some x) :
    Next declaring (weightline nums a ++ t) := by
  obtain ⟨x, hx⟩ := hweight
  by_cases hpolicy : a.wpolicy = .weight
  · rw [weightline_eq hpolicy hx]
    exact Next.of_line (isWord_keyword (by decide)) (by decide) _
  · rwa [weightline, if_neg hpolicy]

end

section

variable {i : Nat}

theorem declarations_some {c : Assignment (Option F)} (hn : i < n)
    (h : Runs (declaration rounds nums b r) (some c) (At t)) :
    ∃ m r', i ≤ m ∧ declarations rounds nums n b r = declarations rounds nums m c r' ∧
      Ahead t r' := by
  obtain ⟨n, rfl⟩ := Nat.exists_eq_add_one.mpr (Nat.zero_lt_of_lt hn)
  obtain ⟨r', hrun, hat⟩ := h
  exact ⟨n, r', Nat.le_of_lt_succ hn, by rw [declarations, stateT_bind_of hrun], Or.inl hat⟩

-- The line of a weight takes at most one round.
theorem declarations_weightline (hrounds : 0 < rounds) (hnums : Lawful nums)
    (ha : Declared False nums a) (ht : Next declaring t)
    (hb : b.wpolicy = .noweight ∧ b.weight = some nums.zero) (hn : i < n)
    (h : Ahead (weightline nums a ++ t) r) :
    ∃ m y r', i ≤ m ∧ SameNumber nums a.weight y ∧ Ahead t r' ∧ declarations rounds nums n b r =
      declarations rounds nums m { b with wpolicy := a.wpolicy, weight := y } r' := by
  obtain ⟨w, hw, hzero⟩ := ha.weight
  cases hpolicy : a.wpolicy with
  | noweight =>
      have hsame :
          ({ b with wpolicy := .noweight, weight := some nums.zero } : Assignment (Option F)) =
          b := by
        rw [← hb.1, ← hb.2]
      refine ⟨n, some nums.zero, r, Nat.le_of_lt hn, ?_, ?_, by rw [hsame]⟩
      · rw [hw, hzero hpolicy]
        exact Or.inl ⟨hnums.zero, hnums.zero⟩
      · rwa [weightline, if_neg (by simp [hpolicy])] at h
  | weight =>
      rw [weightline_eq hpolicy hw] at h
      obtain ⟨y, hy⟩ := hnums.scan w
      have hrun := declaration_weight (b := b) hrounds hnums h
        (leads_line (isWord_keyword (by decide)) _) hy ht
      obtain ⟨m, r', hm, heq, hahead⟩ := declarations_some hn hrun
      exact ⟨m, some y, r', hm, by rw [hw]; exact Or.inr hy, hahead, heq⟩

theorem declarations_maxline (hrounds : 0 < rounds) (hnums : Lawful nums)
    (ha : Declared False nums a) (ht : Next declaring t) (hb : b.max = some nums.zero) (hn : i < n)
    (h : Ahead (maxline nums a ++ t) r) :
    ∃ m y r', i ≤ m ∧ SameNumber nums a.max y ∧ Ahead t r' ∧ declarations rounds nums n b r =
      declarations rounds nums m { b with max := y } r' := by
  obtain ⟨x, hx⟩ := ha.max
  by_cases hzero : nums.isZero x = true
  · have hsame : ({ b with max := some nums.zero } : Assignment (Option F)) = b := by rw [← hb]
    refine ⟨n, some nums.zero, r, Nat.le_of_lt hn, ?_, ?_, by rw [hsame]⟩
    · rw [hx]
      exact Or.inl ⟨hzero, hnums.zero⟩
    · rwa [maxline, hx, if_pos (by simpa using hzero)] at h
  · rw [maxline_eq (by simpa using hzero) hx] at h
    obtain ⟨y, hy⟩ := hnums.scan x
    have hrun := declaration_max (b := b) hrounds hnums h
      (leads_line (isWord_keyword (by decide)) _) hy ht
    obtain ⟨m, r', hm, heq, hahead⟩ := declarations_some hn hrun
    exact ⟨m, some y, r', hm, by rw [hx]; exact Or.inr hy, hahead, heq⟩

def writtengroup (a : Assignment (Option F)) : Ngroup :=
  if a.npolicy = .raw then .byclass else a.ngroup

theorem declarations_writenorm (hrounds : 3 ≤ rounds) (hnums : Lawful nums)
    (ha : Declared False nums a) (hlinear : a.npolicy ≠ .linear) (ht : Next declaring t)
    (hb : b.npolicy = .raw ∧ b.ngroup = .byclass ∧ b.scale = none) (hn : i < n)
    (h : Ahead (writenorm nums a ++ t) r) :
    ∃ m y r', i ≤ m ∧ (if a.npolicy = .scale then SameNumber nums a.scale y else y = none) ∧
      Ahead t r' ∧
      declarations rounds nums n b r =
        declarations rounds nums m { b with npolicy := a.npolicy, ngroup := writtengroup a, scale :=
          y } r' := by
  by_cases hraw : a.npolicy = .raw
  · have hsame :
        ({ b with npolicy := .raw, ngroup := .byclass, scale := none } : Assignment (Option F)) =
        b := by
      rw [← hb.1, ← hb.2.1, ← hb.2.2]
    refine ⟨n, none, r, Nat.le_of_lt hn, by rw [if_neg (by simp [hraw])], ?_, ?_⟩
    · rwa [writenorm, if_pos hraw] at h
    · rw [hraw, writtengroup, if_pos hraw, hsame]
  · obtain ⟨policy, htext, hwritten⟩ := writenorm_eq nums hraw t
    rw [htext] at h
    have hgroup : Leads (32 :: (groupword a.ngroup ++ newline :: t)) (groupword a.ngroup)
        (newline :: t) :=
      leads_word (by cases a.ngroup <;> exact isWord_keyword (by decide)) (endsWord_newline t)
    rw [writtengroup, if_neg hraw]
    have hrun {c : Assignment (Option F)}
        (hnorm : ∀ r, At (32 :: (policy ++ 32 :: (groupword a.ngroup ++ newline :: t))) r →
          Runs (readnorm rounds nums b r) c (At (newline :: t))) :=
      declarations_some hn
        (declaration_norm (by omega) h (leads_line (isWord_keyword (by decide)) _) hnorm ht)
    cases hpolicy : a.npolicy with
    | raw => exact absurd hpolicy hraw
    | linear => exact absurd hpolicy hlinear
    | quantile =>
        rw [hpolicy] at hwritten
        change policy = ascii "QUANTILE" at hwritten
        subst hwritten
        obtain ⟨m, r', hm, heq, hahead⟩ :=
          hrun (c := { b with npolicy := .quantile, ngroup := a.ngroup }) fun r₁ h₁ =>
          readnorm_items hrounds
            (normItem_quantile (Or.inl h₁)
            (leads_word (isWord_keyword (by decide)) (endsWord_blank _))) hgroup rfl
        refine ⟨m, none, r', hm, by simp, hahead, ?_⟩
        rw [heq, ← hb.2.2]
    | scale =>
        obtain ⟨x, hx⟩ := ha.scale hpolicy
        obtain ⟨y, hy⟩ := hnums.scan x
        rw [hpolicy, hx] at hwritten
        change policy = ascii "SCALE " ++ nums.print x at hwritten
        subst hwritten
        obtain ⟨m, r', hm, heq, hahead⟩ :=
          hrun (c := { b with npolicy := .scale, scale := some y, ngroup := a.ngroup })
            fun r₁ h₁ => by
            rw [List.append_assoc] at h₁
            refine readnorm_items hrounds
              (normItem_scale (Or.inl h₁) ?_ (endsWord_blank _) hnums hy) hgroup rfl
            exact leads_word (isWord_keyword (s := "SCALE") (by decide)) (endsWord_blank _)
        refine ⟨m, some y, r', hm, ?_, hahead, heq⟩
        rw [if_pos rfl, hx]
        exact Or.inr hy

theorem spoils_declarations (hrounds : 0 < rounds) (hlinear : a.npolicy = .linear) (hn : 0 < n)
    (h : Ahead (writenorm nums a ++ t) r) : Spoils Clean (declarations rounds nums n b r) := by
  obtain ⟨n, rfl⟩ := Nat.exists_eq_add_one.mpr hn
  obtain ⟨policy, htext, hwritten⟩ := writenorm_eq nums (show a.npolicy ≠ .raw by simp [hlinear]) t
  rw [hlinear] at hwritten
  change policy = ascii "LINEAR" ++ 58 ::
    (32 :: printOption nums a.mean ++ ascii ", " ++ printOption nums a.stddev)
    at hwritten
  subst hwritten
  have hsound := h.sound
  rw [htext, List.append_assoc] at h
  rw [declarations]
  refine Spoils.bind (q := fun _ => True) hsound ?_ (returns_declaration rounds b) fun c => ?_
  · refine declaration_linear hrounds h (leads_line (isWord_keyword (by decide)) _)
      (leads_word (isWord_keyword (by decide)) ?_)
    exact ⟨58, _, rfl, Or.inl (by decide)⟩
  · cases c with
    | none => exact Ensures.pure trivial
    | some c => exact (returns_declarations rounds n c).mono fun _ _ => trivial

end

-- What is read back of an assignment that is not LINEAR.
def rereadassignment (a : Assignment (Option F)) (weight max scale : Option F) :
    Assignment (Option F) where
  name := a.name
  atype := a.atype
  wpolicy := a.wpolicy
  weight
  npolicy := a.npolicy
  max
  mean := none
  stddev := none
  scale
  ngroup := writtengroup a

theorem sameAssignment_iff {weight max scale : Option F} (hlinear : a.npolicy ≠ .linear)
    (hweight : SameNumber nums a.weight weight) (hmax : SameNumber nums a.max max)
    (hscale : if a.npolicy = .scale then SameNumber nums a.scale scale else scale = none) :
    SameAssignment nums a (rereadassignment a weight max scale) ↔ RereadableAssignment a := by
  have hnone {x : Option F} : SameNumber nums x none ↔ x = none := by
    cases x with
    | none => exact ⟨fun _ => rfl, fun _ => rfl⟩
    | some x => exact ⟨False.elim, fun h => by cases h⟩
  constructor
  · intro h
    refine ⟨hlinear, fun hraw => ?_, hnone.mp h.mean, hnone.mp h.stddev, fun hother => ?_⟩
    · exact h.ngroup.trans (if_pos hraw)
    · rw [if_neg hother] at hscale
      subst hscale
      exact hnone.mp h.scale
  · intro h
    have hgroup : a.ngroup = writtengroup a := by
      rw [writtengroup]
      split
      · rename_i hraw
        exact h.ngroup hraw
      · rfl
    refine ⟨rfl, rfl, rfl, hweight, rfl, hmax, hnone.mpr h.mean, hnone.mpr h.stddev, ?_, hgroup⟩
    split at hscale
    · exact hscale
    · rename_i hother
      rw [hscale]
      exact hnone.mpr (h.scale hother)

theorem readassignment_recovers (hrounds : 4 ≤ rounds) (hnums : Lawful nums)
    (ha : Declared False nums a) (ht : Next [ascii "ASSIGNMENT", ascii "SECTION", ascii "FILE"] t)
    (h : At (bodyassignment nums a ++ t) r) :
    Recovers Clean (RereadableAssignment a) (SameAssignment nums a) (readassignment rounds nums r)
      (Ahead t) := by
  have hbody : bodyassignment nums a ++ t =
      32 :: (a.name ++ (32 :: (a.atype ++ newline :: (weightline nums a ++
      (writenorm nums a ++ (maxline nums a ++ t)))))) := by
    simp only [bodyassignment, List.cons_append, List.append_assoc]
  have hpos : 0 < rounds := by omega
  have hend : Next declaring t := ht.mono (by decide)
  have hmax : Next declaring (maxline nums a ++ t) := next_maxline hend ha.max
  have hnorm : Next declaring (writenorm nums a ++ (maxline nums a ++ t)) := next_writenorm hmax
  have hweight :
      Next declaring (weightline nums a ++ (writenorm nums a ++ (maxline nums a ++ t))) :=
    next_weightline hnorm (ha.weight.imp fun _ => And.left)
  rw [hbody] at h
  rw [readassignment]
  refine Recovers.after (readword_run (Or.inl h) (leads_word ha.name (endsWord_blank _)) _)
    fun r₁ h₁ => ?_
  refine Recovers.after (readword_run (Or.inl h₁) (leads_word ha.atype (endsWord_newline _)) _)
    fun r₂ h₂ => ?_
  refine Recovers.after (expectnewline_run h₂ hweight hpos) fun r₃ h₃ => ?_
  obtain ⟨m₁, weight, r₄, hm₁, hsame₁, h₄, hrun₁⟩ := declarations_weightline (n := rounds) (i := 3)
    (b := freshAssignment nums a.name a.atype) hpos hnums ha hnorm ⟨rfl, rfl⟩ hrounds (Or.inl h₃)
  rw [hrun₁]
  by_cases hlinear : a.npolicy = .linear
  · have hm : 0 < m₁ := by omega
    exact Recovers.of_spoils (spoils_declarations hpos hlinear hm h₄) fun hgood =>
      hgood.linear hlinear
  · obtain ⟨m₂, scale, r₅, hm₂, hsame₂, h₅, hrun₂⟩ := declarations_writenorm (n := m₁) (i := 2)
      (b := { freshAssignment nums a.name a.atype with wpolicy := a.wpolicy, weight })
        (Nat.le_of_lt hrounds) hnums ha
      hlinear hmax ⟨rfl, rfl, rfl⟩ hm₁ h₄
    rw [hrun₂]
    generalize hb : ({ freshAssignment nums a.name a.atype with
      wpolicy := a.wpolicy, weight, npolicy := a.npolicy, ngroup :=
        writtengroup a, scale } : Assignment _) = b
    have hzero : b.max = some nums.zero := by rw [← hb]; rfl
    obtain ⟨m₃, max, r₆, hm₃, hsame₃, h₆, hrun₃⟩ :=
      declarations_maxline (n := m₂) (i := 1) hpos hnums ha hend hzero hm₂ h₅
    rw [hrun₃, ← hb]
    obtain ⟨m₃, rfl⟩ := Nat.exists_eq_add_one.mpr hm₃
    rw [declarations]
    refine Recovers.of_runs
      ((declaration_none h₆ ht (by decide) (by decide) (by decide)).bind fun r' h' => ⟨r', rfl, h'⟩)
      ?_
    exact sameAssignment_iff hlinear hsame₁ hsame₃ hsame₂

theorem writeassignment_leads (a : Assignment (Option F)) (t : Text) :
    (writeassignment nums a ++ t).head? = some 32 ∧
    Leads (writeassignment nums a ++ t) (ascii "ASSIGNMENT") (bodyassignment nums a ++ t) := by
  rw [writeassignment_eq, List.append_assoc, List.append_assoc]
  exact leads_indented _ (by decide) (isWord_keyword (by decide)) _

theorem readassignments_recovers (hrounds : 4 ≤ rounds) (hnums : Lawful nums)
    {l : List (Assignment (Option F))} (hl : ∀ a ∈ l, Declared False nums a)
    (ht : Next [ascii "SECTION", ascii "FILE"] t) (hn : l.length < rounds)
    (h : Ahead (l.flatMap (writeassignment nums) ++ t) r) :
    Recovers Clean (∀ a ∈ l, RereadableAssignment a) (List.Forall₂ (SameAssignment nums) l)
      (readassignments rounds nums r) (Ahead t) := by
  refine many_recovers (bodyassignment nums) writeassignment_leads (by decide)
    ((returns_readassignment rounds).mono fun _ _ => trivial) l (fun a ha t r ht h => ?_) ht hn h
  exact readassignment_recovers hrounds hnums (hl a ha) ht h

end CSE320.Grades.File
