import Mathlib.Data.List.Basic

namespace CSE320.Lib

variable {σ α ε : Type}

@[simp] theorem ok_bind {β γ : Type} (a : β) (f : β → Except ε γ) : Except.ok a >>= f = f a := rfl

@[simp] theorem error_bind {β γ : Type} (e : ε) (f : β → Except ε γ) :
    Except.error e >>= f = .error e := rfl

@[simp] theorem pure_eq_ok {β : Type} (a : β) : (pure a : Except ε β) = .ok a := rfl

@[simp] theorem throw_eq_error {β : Type} (e : ε) : (throw e : Except ε β) = .error e := rfl

-- A successful bind is a successful first part followed by a successful rest.
theorem bind_ok {β γ : Type} {x : Except ε β} {f : β → Except ε γ} {r : γ}
    (h : x >>= f = .ok r) : ∃ a, x = .ok a ∧ f a = .ok r := by
  cases x with
  | error e => cases h
  | ok a => exact ⟨a, rfl, h⟩

-- The same for a computation that passes a state along and may fail.
theorem stateT_bind_some {β γ : Type} {x : StateT σ Option β} {f : β → StateT σ Option γ}
    {s : σ} {r : γ × σ} (h : (x >>= f) s = some r) :
    ∃ a s', x s = some (a, s') ∧ f a s' = some r := by
  cases hx : x s with
  | none => simp [bind, StateT.bind, hx] at h
  | some p => exact ⟨p.1, p.2, rfl, by simpa [bind, StateT.bind, hx] using h⟩

-- A loop over a list whose body returns and keeps the invariant.
theorem foldlM_ok {body : σ → α → Except ε σ} (inv : σ → Prop)
    (hbody : ∀ s a, inv s → ∃ next, body s a = .ok next ∧ inv next) (labels : List α) {s : σ}
    (hs : inv s) :
    ∃ final, labels.foldlM body s = .ok final ∧ inv final := by
  induction labels generalizing s with
  | nil => exact ⟨s, rfl, hs⟩
  | cons a rest ih =>
      obtain ⟨next, hnext, hinv⟩ := hbody s a hs
      obtain ⟨final, hfinal, hlast⟩ := ih hinv
      refine ⟨final, ?_, hlast⟩
      rw [List.foldlM_cons, hnext]
      exact hfinal

-- A loop over a list that returns, with an invariant that its body keeps.
theorem foldlM_invariant {body : σ → α → Except ε σ} (inv : σ → Prop) {labels : List α}
    (hbody : ∀ s next, ∀ a ∈ labels, inv s → body s a = .ok next → inv next) {s final : σ}
    (hs : inv s) (h : labels.foldlM body s = .ok final) : inv final := by
  induction labels generalizing s with
  | nil =>
      obtain rfl := Except.ok.inj h
      exact hs
  | cons a rest ih =>
      rw [List.foldlM_cons] at h
      obtain ⟨next, hnext, hrest⟩ := bind_ok h
      have hinv := hbody s next a List.mem_cons_self hs hnext
      exact ih (fun s next b hb => hbody s next b (List.mem_cons_of_mem a hb)) hinv hrest

-- Two loops over one list whose bodies return and keep a relation between their states.
theorem foldlM_rel {τ : Type} {body : σ → α → Except ε σ} {body' : τ → α → Except ε τ}
    (rel : σ → τ → Prop) {labels : List α}
    (hbody : ∀ s t, ∀ a ∈ labels, rel s t →
      ∃ next next', body s a = .ok next ∧ body' t a = .ok next' ∧ rel next next')
    {s : σ} {t : τ} (hrel : rel s t) :
    ∃ final final', labels.foldlM body s = .ok final ∧ labels.foldlM body' t = .ok final' ∧
      rel final final' := by
  induction labels generalizing s t with
  | nil => exact ⟨s, t, rfl, rfl, hrel⟩
  | cons a rest ih =>
      obtain ⟨next, next', hnext, hnext', hrel'⟩ := hbody s t a List.mem_cons_self hrel
      obtain ⟨final, final', hfinal, hfinal', hlast⟩ :=
        ih (fun s t b hb => hbody s t b (List.mem_cons_of_mem a hb)) hrel'
      refine ⟨final, final', ?_, ?_, hlast⟩
      · rw [List.foldlM_cons, hnext]
        exact hfinal
      · rw [List.foldlM_cons, hnext']
        exact hfinal'

-- A finite run of a partial step function. Each label is admitted by the
-- guard in the state in which its step starts, and each step returns.
inductive Steps (step : σ → α → Except ε σ) (guard : σ → α → Prop) : σ → List α → σ → Prop
  | nil (s : σ) : Steps step guard s [] s
  | cons {s next final : σ} {a : α} {rest : List α} (hguard : guard s a)
      (hstep : step s a = .ok next) (hrest : Steps step guard next rest final) :
      Steps step guard s (a :: rest) final

variable {step : σ → α → Except ε σ} {guard weaker : σ → α → Prop}

theorem Steps.invariant (inv : σ → Prop)
    (hpres : ∀ s a next, inv s → guard s a → step s a = .ok next → inv next)
    {s final : σ} {labels : List α} (hrun : Steps step guard s labels final) (hs : inv s) :
    inv final := by
  induction hrun with
  | nil => exact hs
  | cons hguard hstep _ ih => exact ih (hpres _ _ _ hs hguard hstep)

theorem Steps.weaken (himp : ∀ s a, guard s a → weaker s a)
    {s final : σ} {labels : List α} (hrun : Steps step guard s labels final) :
    Steps step weaker s labels final := by
  induction hrun with
  | nil s => exact .nil s
  | cons hguard hstep _ ih => exact .cons (himp _ _ hguard) hstep ih

theorem Steps.append {s middle final : σ} {first second : List α}
    (hfirst : Steps step guard s first middle) (hsecond : Steps step guard middle second final) :
    Steps step guard s (first ++ second) final := by
  induction hfirst with
  | nil => exact hsecond
  | cons hguard hstep _ ih => exact .cons hguard hstep (ih hsecond)

-- The run of a list of labels, for a guard that can be tested.
def checkedRun (step : σ → α → Except ε σ) (guard : σ → α → Prop) [∀ s a, Decidable (guard s a)] :
    σ → List α → Option σ
  | s, [] => some s
  | s, a :: rest =>
    if guard s a then
      match step s a with
      | .ok next => checkedRun step guard next rest
      | .error _ => none
    else
      none

theorem Steps.of_checkedRun [∀ s a, Decidable (guard s a)] {s final : σ} {labels : List α}
    (h : checkedRun step guard s labels = some final) : Steps step guard s labels final := by
  induction labels generalizing s with
  | nil =>
      obtain rfl := Option.some.inj h
      exact .nil s
  | cons a rest ih =>
      unfold checkedRun at h
      split at h
      · split at h
        · exact .cons ‹_› ‹_› (ih h)
        · cases h
      · cases h

-- A property of every step of a run of a total step function.
def Throughout (move : σ → α → σ) (p : σ → α → Prop) : List α → σ → Prop
  | [], _ => True
  | a :: rest, s => p s a ∧ Throughout move p rest (move s a)

-- Two properties that agree at each step as long as an invariant holds, which a step with
-- the property keeps.
theorem throughout_iff {move : σ → α → σ} {p q : σ → α → Prop} (inv : σ → Prop)
    (hagree : ∀ s a, inv s → (p s a ↔ q s a))
    (hkeep : ∀ s a, inv s → p s a → inv (move s a)) (labels : List α) {s : σ} (hs : inv s) :
    Throughout move p labels s ↔ Throughout move q labels s := by
  induction labels generalizing s with
  | nil => exact Iff.rfl
  | cons a rest ih =>
      have hstep := hagree s a hs
      constructor
      · rintro ⟨hp, hall⟩
        exact ⟨hstep.mp hp, (ih (hkeep s a hs hp)).mp hall⟩
      · rintro ⟨hq, hall⟩
        exact ⟨hstep.mpr hq, (ih (hkeep s a hs (hstep.mpr hq))).mpr hall⟩

-- Two total step functions that agree through a view at exactly those labels that fit.
-- The views agree behind every part of a run exactly when each label fits.
theorem foldl_agree_iff {τ : Type} {move : σ → α → σ} {move' : τ → α → τ} (view : σ → τ)
    {fits : σ → α → Prop}
    (hstep : ∀ s a, view (move s a) = move' (view s) a ↔ fits s a) (labels : List α) (s : σ) :
    (∀ front, front <+: labels → view (front.foldl move s) = front.foldl move' (view s)) ↔
      Throughout move fits labels s := by
  induction labels generalizing s with
  | nil =>
      refine ⟨fun _ => trivial, fun _ front hfront => ?_⟩
      rw [List.prefix_nil.mp hfront]
      rfl
  | cons a rest ih =>
      constructor
      · intro h
        have hfirst : view (move s a) = move' (view s) a := h [a] (by simp)
        refine ⟨(hstep s a).mp hfirst, (ih (move s a)).mp fun front hfront => ?_⟩
        have hfront' := h (a :: front) (List.cons_prefix_cons.mpr ⟨rfl, hfront⟩)
        rw [hfirst]
        exact hfront'
      · rintro ⟨hfits, hrest⟩ front hfront
        have hfirst := (hstep s a).mpr hfits
        rcases List.prefix_cons_iff.mp hfront with rfl | ⟨front, rfl, hpart⟩
        · rfl
        · rw [List.foldl_cons, List.foldl_cons, ← hfirst]
          exact (ih (move s a)).mpr hrest front hpart

-- What a machine answers to a list of calls, and the state behind them.
def answers {ω : Type} (call : σ → α → ω × σ) : List α → σ → List ω × σ
  | [], s => ([], s)
  | a :: rest, s =>
    let (b, s) := call s a
    let (bs, s) := answers call rest s
    (b :: bs, s)

-- Two machines that give the same answer to each call and keep a relation.
theorem answers_rel {τ ω : Type} {call : σ → α → ω × σ} {call' : τ → α → ω × τ}
    (rel : σ → τ → Prop)
    (hcall : ∀ s t a, rel s t → (call s a).1 = (call' t a).1 ∧ rel (call s a).2 (call' t a).2)
    (calls : List α) {s : σ} {t : τ} (h : rel s t) :
    (answers call calls s).1 = (answers call' calls t).1 ∧
      rel (answers call calls s).2 (answers call' calls t).2 := by
  induction calls generalizing s t with
  | nil => exact ⟨rfl, h⟩
  | cons a rest ih =>
      obtain ⟨hsame, hnext⟩ := hcall s t a h
      obtain ⟨hrest, hlast⟩ := ih hnext
      refine ⟨?_, hlast⟩
      show (call s a).1 :: _ = (call' t a).1 :: _
      rw [hsame, hrest]

end CSE320.Lib
