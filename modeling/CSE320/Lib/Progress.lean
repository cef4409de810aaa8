import CSE320.Lib.Run

namespace CSE320.Lib

variable {σ α ε : Type} {step : σ → α → Except ε σ} {guard : σ → α → Prop} {s final : σ}
  {labels : List α}

-- No admitted label leads on.
def Stuck (step : σ → α → Except ε σ) (guard : σ → α → Prop) (s : σ) : Prop :=
  ∀ a, guard s a → ∀ next, step s a ≠ .ok next

-- An invariant of the state together with the labels that have led to it.
theorem Steps.history (inv : List α → σ → Prop)
    (hpres : ∀ past s a next, inv past s → guard s a → step s a = .ok next → inv (past ++ [a]) next)
    {past : List α} (hrun : Steps step guard s labels final) (hs : inv past s) :
    inv (past ++ labels) final := by
  induction hrun generalizing past with
  | nil =>
      rw [List.append_nil]
      exact hs
  | @cons s next final a rest hguard hstep _ ih =>
      have hnext := ih (hpres past s a next hs hguard hstep)
      rw [List.append_assoc] at hnext
      exact hnext

section

variable (inv : σ → Prop) (measure : σ → Nat)
  (hpres : ∀ s a next, inv s → guard s a → step s a = .ok next → inv next)
  (hdrop : ∀ s a next, inv s → guard s a → step s a = .ok next → measure next < measure s)

include hpres hdrop

-- Steps that lower a measure are no more than the measure allows.
theorem Steps.length_le (hrun : Steps step guard s labels final) (hs : inv s) :
    labels.length + measure final ≤ measure s := by
  induction hrun with
  | nil => simp
  | @cons s next final a rest hguard hstep _ ih =>
      have hrest := ih (hpres s a next hs hguard hstep)
      have hlt := hdrop s a next hs hguard hstep
      rw [List.length_cons]
      omega

-- Such steps can be taken until there is none left.
theorem exists_stuck (hs : inv s) :
    ∃ labels final, Steps step guard s labels final ∧ Stuck step guard final := by
  induction hn : measure s using Nat.strongRecOn generalizing s with
  | ind n ih =>
      by_cases hstuck : Stuck step guard s
      · exact ⟨[], s, .nil s, hstuck⟩
      · simp only [Stuck, not_forall, not_not] at hstuck
        obtain ⟨a, hguard, next, hstep⟩ := hstuck
        obtain ⟨labels, final, hrun, hfinal⟩ :=
          ih (measure next) (hn ▸ hdrop s a next hs hguard hstep) (hpres s a next hs hguard hstep)
            rfl
        exact ⟨a :: labels, final, .cons hguard hstep hrun, hfinal⟩

end

end CSE320.Lib
