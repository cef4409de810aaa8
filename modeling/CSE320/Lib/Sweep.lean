import Mathlib.Data.List.Basic

namespace CSE320.Lib

variable {α σ : Type}

-- The places of a list are served one behind the other.
def sweep (serve : α → σ → σ) (places : List α) (s : σ) : σ :=
  places.foldl (fun s a => serve a s) s

-- A place that has been served is idle, and the service of one place leaves those idle that
-- are.
structure Serving (serve : α → σ → σ) : Prop where
  served : ∀ a s, serve a (serve a s) = serve a s
  kept : ∀ a b s, serve a s = s → serve a (serve b s) = serve b s

variable {serve : α → σ → σ}

theorem sweep_of_idle {places : List α} {s : σ} (h : ∀ a ∈ places, serve a s = s) :
    sweep serve places s = s := by
  induction places with
  | nil => rfl
  | cons a places ih =>
      have hfirst : serve a s = s := h a List.mem_cons_self
      show sweep serve places (serve a s) = s
      rw [hfirst]
      exact ih fun b hb => h b (List.mem_cons_of_mem a hb)

theorem sweep_append (first second : List α) (s : σ) :
    sweep serve (first ++ second) s = sweep serve second (sweep serve first s) :=
  List.foldl_append

variable (h : Serving serve)

include h

theorem Serving.idle_sweep {a : α} (places : List α) {s : σ} (ha : serve a s = s) :
    serve a (sweep serve places s) = sweep serve places s := by
  induction places generalizing s with
  | nil => exact ha
  | cons b places ih => exact ih (h.kept a b s ha)

-- Behind a sweep there is nothing left to do.
theorem Serving.idle_of_mem {a : α} {places : List α} (ha : a ∈ places) (s : σ) :
    serve a (sweep serve places s) = sweep serve places s := by
  obtain ⟨before, behind, rfl⟩ := List.append_of_mem ha
  rw [sweep_append]
  exact h.idle_sweep behind (h.served a (sweep serve before s))

-- A sweep may begin again at the first place whenever one behind idle ones has been served.
theorem Serving.sweep_again {before behind : List α} {a : α} {s : σ}
    (hbefore : ∀ b ∈ before, serve b s = s) :
    sweep serve (before ++ a :: behind) (serve a s) = sweep serve (before ++ a :: behind) s := by
  have hbefore' : ∀ b ∈ before, serve b (serve a s) = serve a s :=
    fun b hb => h.kept b a s (hbefore b hb)
  have hfirst (t : σ) : sweep serve (a :: behind) t = sweep serve behind (serve a t) := rfl
  rw [sweep_append, sweep_append, sweep_of_idle hbefore, sweep_of_idle hbefore', hfirst, hfirst,
    h.served]

end CSE320.Lib
