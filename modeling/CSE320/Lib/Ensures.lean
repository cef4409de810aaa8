import CSE320.Lib.Run

namespace CSE320.Lib

variable {σ ε α β : Type}

-- A first part that returns is followed by the rest.
theorem stateT_bind_of {x : StateT σ (Except ε) α} {f : α → StateT σ (Except ε) β}
    {s s' : σ} {a : α} (h : x s = .ok (a, s')) : (x >>= f) s = f a s' := by
  simp only [bind, StateT.bind, h, Except.bind]

theorem stateT_bind_error {x : StateT σ (Except ε) α} {f : α → StateT σ (Except ε) β}
    {s : σ} {e : ε} (h : x s = .error e) : (x >>= f) s = .error e := by
  simp only [bind, StateT.bind, h, Except.bind]

theorem stateT_bind_ok {x : StateT σ (Except ε) α} {f : α → StateT σ (Except ε) β}
    {s s' : σ} {b : β} (h : (x >>= f) s = .ok (b, s')) :
    ∃ a s₁, x s = .ok (a, s₁) ∧ f a s₁ = .ok (b, s') := by
  cases hx : x s with
  | error e =>
      rw [stateT_bind_error hx] at h
      cases h
  | ok p =>
      rw [stateT_bind_of hx] at h
      exact ⟨p.1, p.2, rfl, h⟩

-- Where a computation returns, an invariant is kept. What it returns is as promised
-- when the state is still clean, and a state that is not clean stays so.
def Ensures (inv clean : σ → Prop) (x : StateT σ (Except ε) α) (post : α → Prop) : Prop :=
  ∀ s a s', inv s → x s = .ok (a, s') → inv s' ∧ (clean s' → clean s ∧ post a)

variable {inv clean : σ → Prop} {x : StateT σ (Except ε) α} {f : α → StateT σ (Except ε) β}
  {p p' : α → Prop} {q : β → Prop}

namespace Ensures

theorem pure {a : α} (h : p a) : Ensures inv clean (pure a : StateT σ (Except ε) α) p := by
  intro s b s' hs hrun
  obtain ⟨rfl, rfl⟩ := Prod.mk.inj (Except.ok.inj hrun)
  exact ⟨hs, fun hclean => ⟨hclean, h⟩⟩

theorem bind (hx : Ensures inv clean x p) (hf : ∀ a, Ensures inv clean (f a) fun b => p a → q b) :
    Ensures inv clean (x >>= f) q := by
  intro s b s' hs hrun
  obtain ⟨a, s₁, hfirst, hrest⟩ := stateT_bind_ok hrun
  obtain ⟨hs₁, hpost⟩ := hx s a s₁ hs hfirst
  obtain ⟨hs', hpost'⟩ := hf a s₁ b s' hs₁ hrest
  refine ⟨hs', fun hclean => ?_⟩
  obtain ⟨hclean₁, hq⟩ := hpost' hclean
  obtain ⟨hclean, hp⟩ := hpost hclean₁
  exact ⟨hclean, hq hp⟩

theorem mono (hx : Ensures inv clean x p) (h : ∀ a, p a → p' a) : Ensures inv clean x p' := by
  intro s a s' hs hrun
  obtain ⟨hs', hpost⟩ := hx s a s' hs hrun
  exact ⟨hs', fun hclean => (hpost hclean).imp id (h a)⟩

theorem ite {c : Prop} [Decidable c] {y : StateT σ (Except ε) α} (hx : c → Ensures inv clean x p)
    (hy : ¬c → Ensures inv clean y p) : Ensures inv clean (if c then x else y) p := by
  by_cases h : c
  · rw [if_pos h]
    exact hx h
  · rw [if_neg h]
    exact hy h

-- A computation that never returns.
theorem stop {e : ε} : Ensures inv clean (fun _ => .error e : StateT σ (Except ε) α) p := by
  intro s a s' _ hrun
  cases hrun

end Ensures

-- What the first computation returns, the second one returns too.
def Extends (x y : StateT σ (Except ε) α) : Prop := ∀ s a s', x s = .ok (a, s') → y s = .ok (a, s')

namespace Extends

theorem refl (x : StateT σ (Except ε) α) : Extends x x := fun _ _ _ => id

theorem bind {y : StateT σ (Except ε) α} {g : α → StateT σ (Except ε) β} (hx : Extends x y)
    (hf : ∀ a, Extends (f a) (g a)) : Extends (x >>= f) (y >>= g) := by
  intro s b s' hrun
  obtain ⟨a, s₁, hfirst, hrest⟩ := stateT_bind_ok hrun
  rw [stateT_bind_of (hx s a s₁ hfirst)]
  exact hf a s₁ b s' hrest

theorem ite {c : Prop} [Decidable c] {x' y y' : StateT σ (Except ε) α} (hx : Extends x x')
    (hy : Extends y y') :
    Extends (if c then x else y) (if c then x' else y') := by
  by_cases h : c
  · rw [if_pos h, if_pos h]
    exact hx
  · rw [if_neg h, if_neg h]
    exact hy

theorem stop {e : ε} (y : StateT σ (Except ε) α) : Extends (fun _ => .error e) y := by
  intro s a s' hrun
  cases hrun

end Extends

-- A run that returns this value.
def Runs (run : Except ε (α × σ)) (a : α) (post : σ → Prop) : Prop :=
  ∃ s', run = .ok (a, s') ∧ post s'

theorem Runs.bind {a : α} {b : β} {s : σ} {mid post : σ → Prop} (hx : Runs (x s) a mid)
    (hf : ∀ s₁, mid s₁ → Runs (f a s₁) b post) : Runs ((x >>= f) s) b post := by
  obtain ⟨s₁, hrun, hmid⟩ := hx
  rw [stateT_bind_of hrun]
  exact hf s₁ hmid

-- A run after which the state is not clean, if it returns.
def Spoils (clean : σ → Prop) (run : Except ε (α × σ)) : Prop :=
  ∀ a s', run = .ok (a, s') → ¬clean s'

theorem Spoils.after {a : α} {s : σ} {mid : σ → Prop} (hx : Runs (x s) a mid)
    (hf : ∀ s₁, mid s₁ → Spoils clean (f a s₁)) : Spoils clean ((x >>= f) s) := by
  obtain ⟨s₁, hrun, hmid⟩ := hx
  rw [stateT_bind_of hrun]
  exact hf s₁ hmid

theorem Spoils.bind {s : σ} (hs : inv s) (hx : Spoils clean (x s)) (hxret : Ensures inv clean x p)
    (hfret : ∀ a, Ensures inv clean (f a) q) : Spoils clean ((x >>= f) s) := by
  intro b s' hrun hclean
  obtain ⟨a, s₁, hfirst, hrest⟩ := stateT_bind_ok hrun
  have hs₁ := (hxret s a s₁ hs hfirst).1
  exact hx a s₁ hfirst ((hfret a s₁ b s' hs₁ hrest).2 hclean).1

-- A run that is to find a value again. It finds one that is the same when the value is
-- good, and otherwise no clean run does.
def Recovers (clean : σ → Prop) (good : Prop) (same : α → Prop) (run : Except ε (α × σ))
    (post : σ → Prop) : Prop :=
  (good → ∃ a s', run = .ok (a, s') ∧ same a ∧ post s') ∧
    (¬good → ∀ a s', run = .ok (a, s') → clean s' → ¬same a)

variable {good good' : Prop} {same : α → Prop} {same' : β → Prop} {mid post : σ → Prop} {s : σ}

namespace Recovers

theorem of_runs {run : Except ε (α × σ)} {a : α} (h : Runs run a post) (hsame : same a ↔ good) :
    Recovers clean good same run post := by
  obtain ⟨s', hrun, hpost⟩ := h
  refine ⟨fun hgood => ⟨a, s', hrun, hsame.mpr hgood, hpost⟩,
    fun hbad b s₁ hrun' _ hb => hbad (hsame.mp ?_)⟩
  rw [hrun] at hrun'
  obtain ⟨rfl, -⟩ := Prod.mk.inj (Except.ok.inj hrun')
  exact hb

theorem of_spoils {run : Except ε (α × σ)} (h : Spoils clean run) (hbad : ¬good) :
    Recovers clean good same run post :=
  ⟨fun hgood => absurd hgood hbad, fun _ a s' hrun hclean _ => h a s' hrun hclean⟩

theorem congr {run : Except ε (α × σ)} (h : Recovers clean good same run post)
    (hiff : good ↔ good') :
    Recovers clean good' same run post := by
  rwa [Recovers, ← hiff]

-- A first part whose result is known.
theorem after {a : α} (hx : Runs (x s) a mid)
    (hf : ∀ s₁, mid s₁ → Recovers clean good same' (f a s₁) post) :
    Recovers clean good same' ((x >>= f) s) post := by
  obtain ⟨s₁, hrun, hmid⟩ := hx
  rw [stateT_bind_of hrun]
  exact hf s₁ hmid

theorem map {g : α → β} {p : Prop} (hx : Recovers clean good same (x s) post)
    (h : ∀ a, same' (g a) ↔ same a ∧ p) :
    Recovers clean (good ∧ p) same' ((x >>= fun a => Pure.pure (g a)) s) post := by
  refine ⟨fun hgood => ?_, fun hbad b s' hrun hclean hb => ?_⟩
  · obtain ⟨a, s', hrun, hsame, hpost⟩ := hx.1 hgood.1
    exact ⟨g a, s', stateT_bind_of hrun, (h a).mpr ⟨hsame, hgood.2⟩, hpost⟩
  · obtain ⟨a, s₁, hfirst, hpure⟩ := stateT_bind_ok hrun
    obtain ⟨rfl, rfl⟩ := Prod.mk.inj (Except.ok.inj hpure)
    obtain ⟨hsame, hp⟩ := (h a).mp hb
    exact hx.2 (fun hgood => hbad ⟨hgood, hp⟩) a s₁ hfirst hclean hsame

-- The second part starts where the first one has found its value.
theorem bind (hs : inv s) (hx : Recovers clean good same (x s) mid) (hxret : Ensures inv clean x p)
    (hf : ∀ a s₁, same a → mid s₁ → Recovers clean good' same' (f a s₁) post)
    (hfret : ∀ a, Ensures inv clean (f a) fun b => same' b → same a) :
    Recovers clean (good ∧ good') same' ((x >>= f) s) post := by
  refine ⟨fun hgood => ?_, fun hbad b s' hrun hclean hb => ?_⟩
  · obtain ⟨a, s₁, hrun, hsame, hmid⟩ := hx.1 hgood.1
    rw [stateT_bind_of hrun]
    exact (hf a s₁ hsame hmid).1 hgood.2
  · obtain ⟨a, s₁, hfirst, hrest⟩ := stateT_bind_ok hrun
    have hs₁ := (hxret s a s₁ hs hfirst).1
    obtain ⟨hclean₁, hback⟩ := (hfret a s₁ b s' hs₁ hrest).2 hclean
    by_cases hgood : good
    · obtain ⟨a', s₁', hfirst', hsame, hmid⟩ := hx.1 hgood
      rw [hfirst] at hfirst'
      obtain ⟨rfl, rfl⟩ := Prod.mk.inj (Except.ok.inj hfirst')
      exact (hf a s₁ hsame hmid).2 (fun hgood' => hbad ⟨hgood, hgood'⟩) b s' hrest hclean hb
    · exact hx.2 hgood a s₁ hfirst hclean₁ (hback hb)

end Recovers

end CSE320.Lib
