import CSE320.Lib.Progress
import Mathlib.Data.List.Basic

namespace CSE320.Lib

variable {α ω : Type}

-- A program that reads from a stream and tells results on its way. It gets what it
-- asks for, and less only at the end of the stream.
inductive Reader (α ω : Type) where
  | done
  | tell (result : ω) (next : Reader α ω)
  | ask (n : Nat) (next : List α → Reader α ω)

namespace Reader

-- The results for a whole stream, and the rest of the stream.
def run : Reader α ω → List α → List ω × List α
  | .done, s => ([], s)
  | .tell result next, s => (result :: (next.run s).1, (next.run s).2)
  | .ask n next, s => (next (s.take n)).run (s.drop n)

-- How often the program asks.
def requests : Reader α ω → List α → Nat
  | .done, _ => 0
  | .tell _ next, s => next.requests s
  | .ask n next, s => (next (s.take n)).requests (s.drop n) + 1

-- The program up to its next request for something.
def settle : Reader α ω → List ω × Reader α ω
  | .done => ([], .done)
  | .tell result next => (result :: next.settle.1, next.settle.2)
  | .ask 0 next => (next []).settle
  | .ask (n + 1) next => ([], .ask (n + 1) next)

theorem settle_run (r : Reader α ω) (s : List α) :
    r.run s = (r.settle.1 ++ (r.settle.2.run s).1, (r.settle.2.run s).2) := by
  induction r with
  | done => rfl
  | tell result next ih => rw [run, settle, ih, List.cons_append]
  | ask n next ih =>
      cases n with
      | zero => exact ih []
      | succ n => rfl

theorem settle_requests (r : Reader α ω) (s : List α) :
    r.settle.2.requests s ≤ r.requests s := by
  induction r with
  | done => exact Nat.le_refl _
  | tell result next ih => exact ih
  | ask n next ih =>
      cases n with
      | zero => exact Nat.le_succ_of_le (ih [])
      | succ n => exact Nat.le_refl _

-- A settled program is done or asks for something.
theorem settle_cases (r : Reader α ω) :
    r.settle.2 = .done ∨ ∃ n next, r.settle.2 = .ask n next ∧ 0 < n := by
  induction r with
  | done => exact Or.inl rfl
  | tell result next ih => exact ih
  | ask n next ih =>
      cases n with
      | zero => exact ih []
      | succ n => exact Or.inr ⟨n + 1, next, rfl, Nat.succ_pos n⟩

end Reader

-- A writer and a reader at the two ends of a pipe: the buffers that are still to be
-- written, the items on the way, what the reader has of its current request, and
-- what it has told.
structure Pipe (α ω : Type) where
  buffers : List (List α)
  way : List α
  reader : Reader α ω
  got : List α
  told : List ω

-- One call of either end. It may move less than it is asked to, it may be
-- interrupted, and the reader may learn that the stream has ended.
inductive Transfer where
  | write (k : Nat)
  | read (k : Nat)
  | ended
  | interrupted
deriving DecidableEq, Repr

namespace Pipe

def start (buffers : List (List α)) (reader : Reader α ω) : Pipe α ω where
  buffers := buffers
  way := []
  reader := reader.settle.2
  got := []
  told := reader.settle.1

-- The reader goes on with what it has got.
def resume (p : Pipe α ω) (next : List α → Reader α ω) : Pipe α ω :=
  { p with
    reader := (next p.got).settle.2
    got := []
    told := p.told ++ (next p.got).settle.1 }

def step (capacity : Nat) (p : Pipe α ω) : Transfer → Except Unit (Pipe α ω)
  | .write k =>
    match p.buffers with
    | [] => .error ()
    | buffer :: rest =>
      if 0 < k ∧ k ≤ buffer.length ∧ p.way.length + k ≤ capacity then
        .ok { p with
          buffers := if k = buffer.length then rest else buffer.drop k :: rest
          way := p.way ++ buffer.take k }
      else
        .error ()
  | .read k =>
    match p.reader with
    | .ask n next =>
      if 0 < k ∧ p.got.length + k ≤ n ∧ k ≤ p.way.length then
        let p := { p with way := p.way.drop k, got := p.got ++ p.way.take k }
        .ok (if p.got.length = n then p.resume next else p)
      else
        .error ()
    | _ => .error ()
  | .ended =>
    match p.reader with
    | .ask _ next => if p.buffers = [] ∧ p.way = [] then .ok (p.resume next) else .error ()
    | _ => .error ()
  | .interrupted => .ok p

-- The calls that move something or end the stream.
def Moving (_ : Pipe α ω) (t : Transfer) : Prop := t ≠ .interrupted

-- All that the reader has not been given yet.
def ahead (p : Pipe α ω) : List α := p.got ++ p.way ++ p.buffers.flatten

-- What the reader has told, and what it would tell if the rest came at once.
def outcome (p : Pipe α ω) : List ω × List α :=
  (p.told ++ (p.reader.run p.ahead).1, (p.reader.run p.ahead).2)

structure WellFormed (p : Pipe α ω) : Prop where
  asking : p.reader = .done ∧ p.got = [] ∨
    ∃ n next, p.reader = .ask n next ∧ p.got.length < n
  buffers : ∀ b ∈ p.buffers, b ≠ []

def cost (p : Pipe α ω) : Nat :=
  2 * p.buffers.flatten.length + p.way.length + p.reader.requests p.ahead

variable {p after : Pipe α ω} {t : Transfer} {capacity : Nat} {n : Nat}
  {next : List α → Reader α ω}

-- A request is over when it is filled, or when nothing is left to fill it with.
def Filled (p : Pipe α ω) (n : Nat) : Prop :=
  p.got.length = n ∨ p.got.length ≤ n ∧ p.way ++ p.buffers.flatten = []

theorem ahead_of_filled (h : p.Filled n) :
    p.ahead.take n = p.got ∧ p.ahead.drop n = p.way ++ p.buffers.flatten := by
  unfold ahead
  rw [List.append_assoc]
  rcases h with heq | ⟨hle, hnil⟩
  · rw [← heq]
    exact ⟨List.take_left, List.drop_left⟩
  · rw [hnil, List.append_nil]
    exact ⟨List.take_of_length_le hle, List.drop_eq_nil_of_le hle⟩

theorem resume_outcome (hp : p.reader = .ask n next) (h : p.Filled n) :
    (p.resume next).outcome = p.outcome := by
  obtain ⟨htake, hdrop⟩ := ahead_of_filled h
  unfold outcome
  rw [hp, Reader.run, htake, hdrop, Reader.settle_run (next p.got)]
  simp only [resume, ahead, List.nil_append, List.append_assoc]

theorem resume_wellFormed (hbuffers : ∀ b ∈ p.buffers, b ≠ []) : (p.resume next).WellFormed :=
  ⟨(Reader.settle_cases (next p.got)).imp_left fun hdone => ⟨hdone, rfl⟩, hbuffers⟩

theorem resume_cost (hp : p.reader = .ask n next) (h : p.Filled n) :
    (p.resume next).cost < p.cost := by
  obtain ⟨htake, hdrop⟩ := ahead_of_filled h
  have hle := Reader.settle_requests (next p.got) (p.way ++ p.buffers.flatten)
  unfold cost
  rw [hp, Reader.requests, htake, hdrop]
  simp only [resume, ahead, List.nil_append]
  omega

-- What every call keeps, and what the moving ones lower.
structure Keeps (p after : Pipe α ω) (t : Transfer) : Prop where
  wellFormed : after.WellFormed
  outcome : after.outcome = p.outcome
  cost : t ≠ .interrupted → after.cost < p.cost

theorem write_keeps {k : Nat} {buffer : List α} {rest : List (List α)} (h : p.WellFormed)
    (hp : p.buffers = buffer :: rest) (hpos : 0 < k) (hk : k ≤ buffer.length) :
    Keeps p { p with
      buffers := if k = buffer.length then rest else buffer.drop k :: rest
      way := p.way ++ buffer.take k } (.write k) := by
  have hflatten : buffer.take k ++
      (if k = buffer.length then rest else buffer.drop k :: rest).flatten = p.buffers.flatten := by
    rw [hp, List.flatten_cons]
    by_cases hall : k = buffer.length
    · rw [if_pos hall, hall, List.take_length]
    · rw [if_neg hall, List.flatten_cons, ← List.append_assoc, List.take_append_drop]
  have hahead : p.got ++ (p.way ++ buffer.take k) ++
      (if k = buffer.length then rest else buffer.drop k :: rest).flatten = p.ahead := by
    rw [ahead, ← hflatten]
    simp only [List.append_assoc]
  refine ⟨⟨h.asking, fun b hb => ?_⟩, ?_, fun _ => ?_⟩
  · have hrest : ∀ b ∈ rest, b ≠ [] := fun b hb => h.buffers b (hp ▸ List.mem_cons_of_mem _ hb)
    simp only at hb
    by_cases hall : k = buffer.length
    · rw [if_pos hall] at hb
      exact hrest b hb
    · rw [if_neg hall] at hb
      rcases List.mem_cons.mp hb with rfl | hb
      · exact fun hnil => hall (Nat.le_antisymm hk (List.drop_eq_nil_iff.mp hnil))
      · exact hrest b hb
  · unfold outcome
    rw [ahead, hahead]
  · have hlength := congrArg List.length hflatten
    rw [List.length_append, List.length_take_of_le hk] at hlength
    unfold cost
    rw [ahead, hahead]
    simp only [List.length_append, List.length_take_of_le hk]
    omega

theorem read_keeps {k : Nat} (h : p.WellFormed) (hp : p.reader = .ask n next) (hpos : 0 < k)
    (hroom : p.got.length + k ≤ n) (hk : k ≤ p.way.length) :
    Keeps p (if p.got.length + k = n then
      resume { p with way := p.way.drop k, got := p.got ++ p.way.take k } next
      else { p with way := p.way.drop k, got := p.got ++ p.way.take k }) (.read k) := by
  generalize hm : ({ p with way := p.way.drop k, got := p.got ++ p.way.take k } : Pipe α ω) = middle
  have hgot : middle.got.length = p.got.length + k := by
    rw [← hm, List.length_append, List.length_take_of_le hk]
  have hask : middle.reader = .ask n next := by rw [← hm, hp]
  have hahead : middle.ahead = p.ahead := by
    rw [← hm]
    simp only [ahead, List.append_assoc]
    rw [← List.append_assoc (p.way.take k), List.take_append_drop]
  have hout : middle.outcome = p.outcome := by
    unfold outcome
    rw [hahead, hask, hp, ← hm]
  have hcost : middle.cost < p.cost := by
    unfold cost
    rw [hahead, hask, hp, ← hm]
    simp only [List.length_drop]
    omega
  have hbuffers : ∀ b ∈ middle.buffers, b ≠ [] := by
    rw [← hm]
    exact h.buffers
  by_cases hfull : p.got.length + k = n
  · rw [if_pos hfull]
    have hfilled : middle.Filled n := Or.inl (hgot.trans hfull)
    exact ⟨resume_wellFormed hbuffers, (resume_outcome hask hfilled).trans hout,
      fun _ => Nat.lt_trans (resume_cost hask hfilled) hcost⟩
  · rw [if_neg hfull]
    exact ⟨⟨Or.inr ⟨n, next, hask, by omega⟩, hbuffers⟩, hout, fun _ => hcost⟩

theorem step_keeps (h : p.WellFormed) (hstep : p.step capacity t = .ok after) :
    Keeps p after t := by
  cases t with
  | write k =>
      unfold step at hstep
      cases hp : p.buffers with
      | nil => simp [hp] at hstep
      | cons buffer rest =>
          simp only [hp] at hstep
          split at hstep
          · rename_i hk
            obtain rfl := Except.ok.inj hstep
            exact write_keeps h hp hk.1 hk.2.1
          · cases hstep
  | read k =>
      unfold step at hstep
      cases hp : p.reader with
      | done => simp [hp] at hstep
      | tell result next => simp [hp] at hstep
      | ask n next =>
          simp only [hp] at hstep
          split at hstep
          · rename_i hk
            obtain rfl := Except.ok.inj hstep
            have hlength : (p.got ++ p.way.take k).length = p.got.length + k := by
              rw [List.length_append, List.length_take_of_le hk.2.2]
            have hkeeps := read_keeps h hp hk.1 hk.2.1 hk.2.2
            simp only [hp] at hkeeps
            simp only [hlength]
            exact hkeeps
          · cases hstep
  | ended =>
      unfold step at hstep
      cases hp : p.reader with
      | done => simp [hp] at hstep
      | tell result next => simp [hp] at hstep
      | ask n next =>
          simp only [hp] at hstep
          split at hstep
          · rename_i hnil
            obtain rfl := Except.ok.inj hstep
            have hlt : p.got.length < n := by
              rcases h.asking with ⟨hdone, -⟩ | ⟨m, next', hask, hlt⟩
              · rw [hp] at hdone
                cases hdone
              · rw [hp] at hask
                obtain ⟨rfl, -⟩ := Reader.ask.inj hask
                exact hlt
            have hfilled : p.Filled n := Or.inr ⟨Nat.le_of_lt hlt, by rw [hnil.1, hnil.2]; rfl⟩
            exact ⟨resume_wellFormed h.buffers, resume_outcome hp hfilled,
              fun _ => resume_cost hp hfilled⟩
          · cases hstep
  | interrupted =>
      obtain rfl := Except.ok.inj hstep
      exact ⟨h, rfl, fun hne => absurd rfl hne⟩

theorem start_wellFormed {buffers : List (List α)} (reader : Reader α ω)
    (hbuffers : ∀ b ∈ buffers, b ≠ []) : (start buffers reader).WellFormed :=
  ⟨(Reader.settle_cases reader).imp_left fun hdone => ⟨hdone, rfl⟩, hbuffers⟩

theorem start_outcome (buffers : List (List α)) (reader : Reader α ω) :
    (start buffers reader).outcome = reader.run buffers.flatten := by
  rw [Reader.settle_run reader]
  rfl

section

variable {guard : Pipe α ω → Transfer → Prop} {buffers : List (List α)} {reader : Reader α ω}
  {transfers : List Transfer}

-- However the stream is cut into pieces, it is the stream that the reader reads.
theorem run_keeps (hbuffers : ∀ b ∈ buffers, b ≠ [])
    (hrun : Steps (step capacity) guard (start buffers reader) transfers p) :
    p.WellFormed ∧ p.outcome = reader.run buffers.flatten := by
  apply hrun.invariant (fun p => p.WellFormed ∧ p.outcome = reader.run buffers.flatten)
  · rintro p t after ⟨hwf, hout⟩ - hstep
    have h := step_keeps hwf hstep
    exact ⟨h.wellFormed, h.outcome.trans hout⟩
  · exact ⟨start_wellFormed reader hbuffers, start_outcome buffers reader⟩

theorem told_prefix (hbuffers : ∀ b ∈ buffers, b ≠ [])
    (hrun : Steps (step capacity) guard (start buffers reader) transfers p) :
    p.told <+: (reader.run buffers.flatten).1 := by
  rw [← (run_keeps hbuffers hrun).2]
  exact List.prefix_append _ _

-- The calls that move something are bounded, whatever is interrupted between them.
theorem moving_le_cost {q : Pipe α ω} (h : q.WellFormed)
    (hrun : Steps (step capacity) guard q transfers p) :
    transfers.countP (· ≠ .interrupted) + p.cost ≤ q.cost := by
  induction hrun with
  | nil => simp
  | @cons q next final t rest hguard hstep _ ih =>
      have hkeeps := step_keeps h hstep
      have hrest := ih hkeeps.wellFormed
      rw [List.countP_cons]
      by_cases ht : t = .interrupted
      · subst t
        obtain rfl := Except.ok.inj hstep
        simpa using hrest
      · have hlt := hkeeps.cost ht
        rw [if_pos (decide_eq_true ht)]
        omega

theorem buffers_eq_nil (h : p.WellFormed) (hnil : p.buffers.flatten = []) : p.buffers = [] := by
  cases hb : p.buffers with
  | nil => rfl
  | cons buffer rest =>
      rw [hb, List.flatten_cons] at hnil
      exact absurd (List.append_eq_nil_iff.mp hnil).1
        (h.buffers buffer (by rw [hb]; exact List.mem_cons_self))

theorem done_of_stuck (h : p.WellFormed) (hcapacity : 0 < capacity)
    (hstuck : Stuck (step capacity) Moving p) : p.reader = .done := by
  rcases h.asking with ⟨hdone, -⟩ | ⟨n, next, hask, hlt⟩
  · exact hdone
  · exfalso
    have hmoves {t : Transfer} (ht : t ≠ .interrupted) : ¬∃ after, p.step capacity t = .ok after :=
      fun ⟨after, hstep⟩ => hstuck t ht after hstep
    cases hway : p.way with
    | cons x rest =>
        refine hmoves (t := .read 1) (by simp) ?_
        unfold step
        simp only [hask]
        rw [if_pos ⟨Nat.one_pos, hlt, by rw [hway]; exact Nat.succ_le_succ (Nat.zero_le _)⟩]
        exact ⟨_, rfl⟩
    | nil =>
        cases hb : p.buffers with
        | cons buffer rest =>
            have hpos : 0 < buffer.length :=
              List.length_pos_iff.mpr (h.buffers buffer (by rw [hb]; exact List.mem_cons_self))
            refine hmoves (t := .write 1) (by simp) ?_
            unfold step
            simp only [hb]
            have hroom : p.way.length + 1 ≤ capacity := by
              rw [hway, List.length_nil, Nat.zero_add]
              exact hcapacity
            rw [if_pos ⟨Nat.one_pos, hpos, hroom⟩]
            exact ⟨_, rfl⟩
        | nil =>
            refine hmoves (t := .ended) (by simp) ?_
            unfold step
            simp only [hask]
            rw [if_pos ⟨hb, hway⟩]
            exact ⟨_, rfl⟩

theorem stuck_of_done (hdone : p.reader = .done) (hbuffers : p.buffers = []) :
    Stuck (step capacity) Moving p := by
  intro t ht after hstep
  unfold step at hstep
  cases t with
  | write k => simp [hbuffers] at hstep
  | read k => simp [hdone] at hstep
  | ended => simp [hdone] at hstep
  | interrupted => exact ht rfl

-- A reader that cannot go on has told everything.
theorem told_of_stuck (hbuffers : ∀ b ∈ buffers, b ≠ []) (hcapacity : 0 < capacity)
    (hrun : Steps (step capacity) guard (start buffers reader) transfers p)
    (hstuck : Stuck (step capacity) Moving p) :
    p.reader = .done ∧ (p.told, p.way ++ p.buffers.flatten) = reader.run buffers.flatten := by
  obtain ⟨hwf, hout⟩ := run_keeps hbuffers hrun
  have hdone := done_of_stuck hwf hcapacity hstuck
  refine ⟨hdone, ?_⟩
  have hgot : p.got = [] := by
    rcases hwf.asking with ⟨-, hgot⟩ | ⟨n, next, hask, -⟩
    · exact hgot
    · rw [hdone] at hask
      cases hask
  rw [← hout, outcome, hdone, ahead, hgot]
  simp [Reader.run]

end

end Pipe

end CSE320.Lib
