import CSE320.Xacto.Server
import Mathlib.Data.List.Infix

namespace CSE320.Xacto.Service

-- The calls of trans_commit and trans_abort on the transaction of the service.
def finishes (log : List Event) : Nat := log.count .commit + log.count .abort

@[simp] theorem finishes_append (log log' : List Event) :
    finishes (log ++ log') = finishes log + finishes log' := by
  simp only [finishes, List.count_append]
  omega

-- A commit that did not abort, followed by a reply that could not be sent.
def ReplyLost (outcomes : List Outcome) : Prop :=
  ∃ status, status ≠ .aborted ∧ [.commit status, .send false] <:+: outcomes

def Uncommitted (outcomes : List Outcome) : Prop := ∀ status, .commit status ∉ outcomes

-- Part of a run: the outcomes it used and the finishing calls it made.
structure Used (s s' : Session) (used : List Outcome) (calls : Nat) : Prop where
  outcomes : s.outcomes = used ++ s'.outcomes
  finished : finishes s'.log = finishes s.log + calls

theorem Used.trans {s₁ s₂ s₃ : Session} {used used' : List Outcome} {calls calls' : Nat}
    (h : Used s₁ s₂ used calls) (h' : Used s₂ s₃ used' calls') :
    Used s₁ s₃ (used ++ used') (calls + calls') := by
  constructor
  · rw [h.outcomes, h'.outcomes, List.append_assoc]
  · have hfirst := h.finished
    have hsecond := h'.finished
    omega

theorem next_some {s s' : Session} {outcome : Outcome} (h : next s = some (outcome, s')) :
    Used s s' [outcome] 0 := by
  unfold next at h
  split at h
  · cases h
  · cases h
    exact ⟨‹_›, rfl⟩

theorem emit_some {s s' : Session} {event : Event} {u : Unit} (h : emit event s = some (u, s')) :
    Used s s' [] (finishes [event]) := by
  cases h
  exact ⟨rfl, finishes_append _ _⟩

theorem protoRecvPacket_some {s s' : Session}
    {received : Option (Packet × Option (List (BitVec 8)))}
    (h : protoRecvPacket s = some (received, s')) : Used s s' [.recv received] 0 := by
  obtain ⟨outcome, s₁, hnext, h⟩ := Lib.stateT_bind_some h
  cases outcome <;> cases h
  exact next_some hnext

theorem protoSendPacket_some {s s' : Session} {packet : Packet} {data : Option (List (BitVec 8))}
    {sent : Bool} (h : protoSendPacket packet data s = some (sent, s')) :
    Used s s' [.send sent] 0 := by
  obtain ⟨_, s₁, hemit, h⟩ := Lib.stateT_bind_some h
  obtain ⟨outcome, s₂, hnext, h⟩ := Lib.stateT_bind_some h
  cases outcome <;> cases h
  exact (emit_some hemit).trans (next_some hnext)

theorem reply_some {s s' : Session} {type : PacketType} {status : TransStatus} {bp : Option Blob}
    {sent : Bool} (h : reply type status bp s = some (sent, s')) : Used s s' [.send sent] 0 := by
  obtain ⟨time, s₁, hclock, h⟩ := Lib.stateT_bind_some h
  cases hclock
  exact protoSendPacket_some h

theorem storePut_some {s s' : Session} {key value : Blob} {status : TransStatus}
    (h : storePut key value s = some (status, s')) : Used s s' [.put status] 0 := by
  obtain ⟨_, s₁, hemit, h⟩ := Lib.stateT_bind_some h
  obtain ⟨outcome, s₂, hnext, h⟩ := Lib.stateT_bind_some h
  cases outcome <;> cases h
  exact (emit_some hemit).trans (next_some hnext)

theorem storeGet_some {s s' : Session} {key : Blob} {result : TransStatus × Option Blob}
    (h : storeGet key s = some (result, s')) : Used s s' [.get result.1 result.2] 0 := by
  obtain ⟨_, s₁, hemit, h⟩ := Lib.stateT_bind_some h
  obtain ⟨outcome, s₂, hnext, h⟩ := Lib.stateT_bind_some h
  cases outcome <;> cases h
  exact (emit_some hemit).trans (next_some hnext)

theorem transCommit_some {s s' : Session} {status : TransStatus}
    (h : transCommit s = some (status, s')) : Used s s' [.commit status] 1 := by
  obtain ⟨_, s₁, hemit, h⟩ := Lib.stateT_bind_some h
  obtain ⟨outcome, s₂, hnext, h⟩ := Lib.stateT_bind_some h
  cases outcome <;> cases h
  exact (emit_some hemit).trans (next_some hnext)

theorem unrefValue_some {s s' : Session} {bp1 : Option Blob} {u : Unit}
    (h : unrefValue bp1 s = some (u, s')) : Used s s' [] 0 := by
  unfold unrefValue at h
  split at h
  · exact emit_some h
  · cases h
    exact ⟨rfl, rfl⟩

theorem abortEnd_some {s s' : Session} {endloop : Bool} (h : abortEnd s = some (endloop, s')) :
    endloop = false ∧ ∃ sent, Used s s' [.send sent] 1 := by
  obtain ⟨sent, s₁, hreply, h⟩ := Lib.stateT_bind_some h
  obtain ⟨_, s₂, hemit, h⟩ := Lib.stateT_bind_some h
  cases h
  exact ⟨rfl, sent, (reply_some hreply).trans (emit_some hemit)⟩

-- A pass that saw no commit makes one finishing call when it ends the loop, and
-- none otherwise.
def Handled (s s' : Session) (endloop : Bool) : Prop :=
  ∃ used, Uncommitted used ∧ Used s s' used (if endloop then 0 else 1)

theorem handled_abortEnd {s s₁ s' : Session} {used : List Outcome} {endloop : Bool}
    (hused : Used s s₁ used 0) (hun : Uncommitted used) (h : abortEnd s₁ = some (endloop, s')) :
    Handled s s' endloop := by
  obtain ⟨rfl, sent, habort⟩ := abortEnd_some h
  refine ⟨used ++ [.send sent], fun status hmem => ?_, by simpa using hused.trans habort⟩
  rcases List.mem_append.mp hmem with hold | hnew
  · exact hun status hold
  · simp at hnew

theorem handled_true {s s' : Session} {used : List Outcome} (hused : Used s s' used 0)
    (hun : Uncommitted used) : Handled s s' true := ⟨used, hun, hused⟩

theorem xactoPutPkt_some {s s' : Session} {endloop : Bool}
    (h : xactoPutPkt s = some (endloop, s')) :
    Handled s s' endloop := by
  obtain ⟨received, s₁, hrecv, h⟩ := Lib.stateT_bind_some h
  have h₁ := protoRecvPacket_some hrecv
  cases received with
  | none => exact handled_abortEnd h₁ (by simp [Uncommitted]) h
  | some received =>
      obtain ⟨received', s₂, hrecv', h⟩ := Lib.stateT_bind_some h
      have h₂ := h₁.trans (protoRecvPacket_some hrecv')
      cases received' with
      | none => exact handled_abortEnd h₂ (by simp [Uncommitted]) h
      | some received' =>
          obtain ⟨status, s₃, hput, h⟩ := Lib.stateT_bind_some h
          have h₃ := h₂.trans (storePut_some hput)
          split at h
          · exact handled_abortEnd h₃ (by simp [Uncommitted]) h
          · obtain ⟨sent, s₄, hreply, h⟩ := Lib.stateT_bind_some h
            have h₄ := h₃.trans (reply_some hreply)
            cases sent with
            | false => exact handled_abortEnd h₄ (by simp [Uncommitted]) h
            | true =>
                cases h
                exact handled_true h₄ (by simp [Uncommitted])

theorem xactoGetPkt_some {s s' : Session} {endloop : Bool}
    (h : xactoGetPkt s = some (endloop, s')) :
    Handled s s' endloop := by
  obtain ⟨received, s₁, hrecv, h⟩ := Lib.stateT_bind_some h
  have h₁ := protoRecvPacket_some hrecv
  cases received with
  | none => exact handled_abortEnd h₁ (by simp [Uncommitted]) h
  | some received =>
      obtain ⟨result, s₂, hget, h⟩ := Lib.stateT_bind_some h
      have h₂ := h₁.trans (storeGet_some hget)
      split at h
      · exact handled_abortEnd h₂ (by simp [Uncommitted]) h
      · obtain ⟨sent, s₃, hreply, h⟩ := Lib.stateT_bind_some h
        have h₃ := h₂.trans (reply_some hreply)
        cases sent with
        | false => exact handled_abortEnd h₃ (by simp [Uncommitted]) h
        | true =>
            obtain ⟨_, s₄, hunref, h⟩ := Lib.stateT_bind_some h
            obtain ⟨sent, s₅, hreply', h⟩ := Lib.stateT_bind_some h
            have h₅ := h₃.trans ((unrefValue_some hunref).trans (reply_some hreply'))
            cases sent with
            | false => exact handled_abortEnd h₅ (by simp [Uncommitted]) h
            | true =>
                cases h
                exact handled_true h₅ (by simp [Uncommitted])

theorem not_replyLost_of_uncommitted {outcomes : List Outcome} (h : Uncommitted outcomes) :
    ¬ReplyLost outcomes := by
  rintro ⟨status, -, hfound⟩
  exact h status (hfound.subset (by simp))

-- Outcomes without a commit in front do not matter.
theorem replyLost_append {outcomes rest : List Outcome} (h : Uncommitted outcomes) :
    ReplyLost (outcomes ++ rest) ↔ ReplyLost rest := by
  induction outcomes with
  | nil => rfl
  | cons first outcomes ih =>
      have hrest : Uncommitted outcomes := fun status hmem => h status (List.mem_cons_of_mem _ hmem)
      rw [← ih hrest]
      refine exists_congr fun status => and_congr_right fun _ => ?_
      have hfirst : first ≠ .commit status := fun he => h status (he ▸ List.mem_cons_self)
      rw [List.cons_append, List.infix_cons_iff, List.cons_prefix_cons]
      constructor
      · rintro (⟨he, -⟩ | hfound)
        · exact absurd he.symm hfirst
        · exact hfound
      · exact Or.inr

-- One finishing call, or two when the reply to a commit was lost.
def Finished (used : List Outcome) (calls : Nat) : Prop :=
  (calls = 1 ∧ ¬ReplyLost used) ∨ (calls = 2 ∧ ReplyLost used)

theorem Handled.after {s s₁ s' : Session} {received : Option (Packet × Option (List (BitVec 8)))}
    {endloop : Bool} (h : Handled s₁ s' endloop) (hused : Used s s₁ [.recv received] 0) :
    Handled s s' endloop := by
  obtain ⟨used, hun, hrest⟩ := h
  refine ⟨[.recv received] ++ used, fun status hmem => ?_, by simpa using hused.trans hrest⟩
  rcases List.mem_append.mp hmem with hfirst | hmem
  · simp at hfirst
  · exact hun status hmem

theorem handlePacket_some {s s' : Session} {endloop : Bool}
    (h : handlePacket s = some (endloop, s')) :
    ∃ used calls, Used s s' used calls ∧
      if endloop then Uncommitted used ∧ calls = 0 else Finished used calls := by
  have hhandled (h : Handled s s' endloop) : ∃ used calls, Used s s' used calls ∧
      if endloop then Uncommitted used ∧ calls = 0 else Finished used calls := by
    obtain ⟨used, hun, hused⟩ := h
    refine ⟨used, _, hused, ?_⟩
    cases endloop with
    | true => exact ⟨hun, rfl⟩
    | false => exact Or.inl ⟨rfl, not_replyLost_of_uncommitted hun⟩
  obtain ⟨received, s₁, hrecv, h⟩ := Lib.stateT_bind_some h
  have h₁ := protoRecvPacket_some hrecv
  cases received with
  | none => exact hhandled (handled_abortEnd h₁ (by simp [Uncommitted]) h)
  | some received =>
      dsimp only at h
      split at h
      · exact hhandled ((xactoPutPkt_some h).after h₁)
      split at h
      · exact hhandled ((xactoGetPkt_some h).after h₁)
      split at h
      · obtain ⟨status, s₂, hcommit, h⟩ := Lib.stateT_bind_some h
        have h₂ := h₁.trans (transCommit_some hcommit)
        by_cases hstatus : status = .aborted
        · subst status
          obtain ⟨sent, s₃, hreply, h⟩ := Lib.stateT_bind_some h
          cases h
          refine ⟨_, _, h₂.trans (reply_some hreply), Or.inl ⟨rfl, ?_⟩⟩
          rintro ⟨status, hne, hfound⟩
          have hmem := hfound.subset (List.mem_cons_self)
          simp [hne] at hmem
        · simp only [hstatus, if_false] at h
          obtain ⟨sent, s₃, hreply, h⟩ := Lib.stateT_bind_some h
          have h₃ := h₂.trans (reply_some hreply)
          cases sent with
          | true =>
              cases h
              refine ⟨_, _, h₃, Or.inl ⟨rfl, ?_⟩⟩
              rintro ⟨status, hne, hfound⟩
              have hmem := hfound.subset (List.mem_cons_of_mem _ List.mem_cons_self)
              simp at hmem
          | false =>
              -- the second finishing call
              obtain ⟨rfl, sent, habort⟩ := abortEnd_some h
              refine ⟨_, _, h₃.trans habort, Or.inr ⟨rfl, status, hstatus, ?_⟩⟩
              exact ⟨[.recv (some received)], [.send sent], rfl⟩
      · exact hhandled (handled_abortEnd h₁ (by simp [Uncommitted]) h)

theorem serve_some {s s' : Session} {passes : Nat} {u : Unit} (h : serve passes s = some (u, s')) :
    ∃ used calls, Used s s' used calls ∧ Finished used calls := by
  induction passes generalizing s with
  | zero => cases h
  | succ passes ih =>
      obtain ⟨endloop, s₁, hpass, h⟩ := Lib.stateT_bind_some h
      obtain ⟨used, calls, hused, hend⟩ := handlePacket_some hpass
      cases endloop with
      | false =>
          cases h
          exact ⟨used, calls, hused, hend⟩
      | true =>
          obtain ⟨hun, rfl⟩ := hend
          obtain ⟨used', calls', hused', hfinished⟩ := ih h
          refine ⟨_, _, hused.trans hused', ?_⟩
          rw [Finished, replyLost_append hun, Nat.zero_add]
          exact hfinished

-- A service that ends makes exactly one finishing call on its transaction, unless
-- it could not send the reply to a commit that did not abort.
theorem finishes_eq_one_iff {passes : Nat} {outcomes : List Outcome}
    {clock : Nat → BitVec 32 × BitVec 32} {u : Unit} {s : Session}
    (hrun : xactoClientService passes ⟨outcomes, [], clock⟩ = some (u, s))
    (hall : s.outcomes = []) :
    finishes s.log = 1 ↔ ¬ReplyLost outcomes := by
  obtain ⟨_, s₁, hregister, hrun⟩ := Lib.stateT_bind_some hrun
  obtain ⟨_, s₂, hcreate, hrun⟩ := Lib.stateT_bind_some hrun
  obtain ⟨_, s₃, hserve, hrun⟩ := Lib.stateT_bind_some hrun
  obtain ⟨_, s₄, hunregister, hrun⟩ := Lib.stateT_bind_some hrun
  obtain ⟨used, calls, hused, hfinished⟩ := serve_some hserve
  have hstart := (emit_some hregister).trans (emit_some hcreate)
  have hfinish := (emit_some hunregister).trans (emit_some hrun)
  have hservice := hstart.trans (hused.trans hfinish)
  have hcalls : finishes s.log = calls := by
    have h := hservice.finished
    simpa [finishes] using h
  have hlist : outcomes = used := by
    have h := hservice.outcomes
    simpa [hall] using h
  rw [hcalls, hlist]
  rcases hfinished with ⟨rfl, hkept⟩ | ⟨rfl, hlost⟩
  · simp [hkept]
  · simp [hlost]

def commitPacket : Packet where
  type := PacketType.commit.toByte
  status := 0
  null := 0
  size := 0
  timestampSec := 0
  timestampNsec := 0

def committing (sent : List Bool) : Session where
  outcomes := [.recv (some (commitPacket, none)), .commit .committed] ++ sent.map .send
  log := []
  clock := fun _ => (0, 0)

-- A commit whose reply is sent.
theorem finishes_eq_one_of_commit :
    ∃ s, xactoClientService 1 (committing [true]) = some ((), s) ∧ s.outcomes = [] ∧
      (finishes s.log = 1 ↔ ¬ReplyLost (committing [true]).outcomes) := by
  obtain ⟨s, hrun, hall⟩ : ∃ s, xactoClientService 1 (committing [true]) = some ((), s) ∧
      s.outcomes = [] := ⟨_, rfl, rfl⟩
  exact ⟨s, hrun, hall, finishes_eq_one_iff hrun hall⟩

-- The transaction commits, the reply fails, and the service aborts it.
theorem finishes_eq_two_of_lost_reply :
    ∃ s, xactoClientService 1 (committing [false, false]) = some ((), s) ∧ s.outcomes = [] ∧
      finishes s.log = 2 :=
  ⟨_, rfl, rfl, rfl⟩

end CSE320.Xacto.Service
