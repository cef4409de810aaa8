import CSE320.Lib.Run
import CSE320.Xacto.Transaction
import Mathlib.Algebra.Group.Nat.Defs
import Mathlib.Logic.Function.Basic

namespace CSE320.Xacto

open Function (update)

-- The mutex is left out: each section under it is one step.
structure ClientRegistry where
  fds : Nat → Bool
  sem : Nat
  val : BitVec 32

def cregInit : ClientRegistry where
  fds := fun _ => false
  sem := 0
  val := 0

namespace ClientRegistry

-- The section of creg_register.
def register (cr : ClientRegistry) (fd : Nat) : ClientRegistry :=
  { cr with val := cr.val + 1, fds := update cr.fds fd true }

-- The section of creg_unregister.
def unregister (cr : ClientRegistry) (fd : Nat) : ClientRegistry :=
  { cr with val := cr.val - 1, fds := update cr.fds fd false }

end ClientRegistry

namespace Registry

-- Where a client thread is in creg_unregister: it has left the section and will
-- read val, or it has read zero and will do its V.
inductive Pc where
  | outside
  | unlocked
  | posting
deriving DecidableEq, Repr

-- The clients are those that are registered now, with the descriptor of each.
structure State where
  cr : ClientRegistry
  clients : List Nat
  pc : Nat → Pc
  returned : Bool

def start : State where
  cr := cregInit
  clients := []
  pc := fun _ => .outside
  returned := false

-- The steps of the client threads, and the P of the thread in
-- creg_wait_for_empty.
inductive Action where
  | register (thread fd : Nat)
  | unregister (thread fd : Nat)
  | readVal (thread : Nat)
  | post (thread : Nat)
  | wait
deriving DecidableEq, Repr

def step (s : State) : Action → Except Stop State
  | .register thread fd =>
    if s.pc thread = .outside then
      .ok { s with cr := s.cr.register fd, clients := fd :: s.clients }
    else
      .error .blocked
  | .unregister thread fd =>
    if s.pc thread = .outside then
      .ok { s with
        cr := s.cr.unregister fd
        clients := s.clients.erase fd
        pc := update s.pc thread .unlocked }
    else
      .error .blocked
  | .readVal thread =>
    if s.pc thread = .unlocked then
      .ok { s with pc := update s.pc thread (if s.cr.val = 0 then .posting else .outside) }
    else
      .error .blocked
  | .post thread =>
    if s.pc thread = .posting then
      .ok { s with
        cr := { s.cr with sem := s.cr.sem + 1 }
        pc := update s.pc thread .outside }
    else
      .error .blocked
  | .wait =>
    if s.returned ∨ s.cr.sem = 0 then
      .error .blocked
    else
      .ok { s with cr := { s.cr with sem := s.cr.sem - 1 }, returned := true }

-- A descriptor is registered before it is unregistered.
def Paired (s : State) : Action → Prop
  | .unregister _ fd => fd ∈ s.clients
  | _ => True

-- No client comes while a V is left over from an earlier moment without clients,
-- whether it is done or still to be done, and the count does not overflow.
def Timely (s : State) : Action → Prop
  | .register _ _ =>
      s.cr.sem = 0 ∧ (∀ thread, s.pc thread ≠ .posting) ∧ s.clients.length + 1 < 2 ^ 32
  | _ => True

instance (s : State) (a : Action) : Decidable (Paired s a) :=
  match a with
  | .unregister _ fd => inferInstanceAs (Decidable (fd ∈ s.clients))
  | .register _ _ | .readVal _ | .post _ | .wait => .isTrue trivial

-- A V that is done or about to be done says that there are no clients.
structure Sound (s : State) : Prop where
  bounded : s.clients.length < 2 ^ 32
  val : s.cr.val = BitVec.ofNat 32 s.clients.length
  empty : (0 < s.cr.sem ∨ ∃ thread, s.pc thread = .posting) → s.clients = []

variable {s s' : State}

-- A thread that moves to a position other than posting adds no V.
theorem posting_of_update {thread : Nat} {pc : Pc} (hpc : pc ≠ .posting)
    (h : ∃ t, update s.pc thread pc t = .posting) : ∃ t, s.pc t = .posting := by
  obtain ⟨t, ht⟩ := h
  by_cases htt : t = thread
  · rw [htt, Function.update_self] at ht
    exact absurd ht hpc
  · rw [Function.update_of_ne htt] at ht
    exact ⟨t, ht⟩

theorem Sound.step {a : Action} (h : Sound s) (hpaired : Paired s a) (htimely : Timely s a)
    (hstep : step s a = .ok s') : Sound s' := by
  cases a with
  | register thread fd =>
      obtain ⟨hsem, hnone, hroom⟩ := htimely
      simp only [Registry.step] at hstep
      split at hstep
      · obtain rfl := Except.ok.inj hstep
        refine ⟨hroom, ?_, ?_⟩
        · show s.cr.val + 1 = BitVec.ofNat 32 (s.clients.length + 1)
          rw [h.val]
          exact (BitVec.ofNat_add _ 1).symm
        · rintro (hpos | ⟨t, ht⟩)
          · have hpos' : 0 < s.cr.sem := hpos
            omega
          · exact absurd ht (hnone t)
      · cases hstep
  | unregister thread fd =>
      simp only [Registry.step] at hstep
      split at hstep
      · obtain rfl := Except.ok.inj hstep
        have hmem : fd ∈ s.clients := hpaired
        have hlength : (s.clients.erase fd).length = s.clients.length - 1 :=
          List.length_erase_of_mem hmem
        have hpos : 0 < s.clients.length := List.length_pos_of_mem hmem
        have hbounded := h.bounded
        refine ⟨?_, ?_, ?_⟩
        · show (s.clients.erase fd).length < 2 ^ 32
          omega
        · show s.cr.val - 1 = BitVec.ofNat 32 (s.clients.erase fd).length
          rw [h.val, hlength]
          apply BitVec.eq_of_toNat_eq
          have hone : (1 : BitVec 32).toNat = 1 := rfl
          simp only [BitVec.toNat_sub, BitVec.toNat_ofNat, hone]
          omega
        · intro hv
          have hempty : s.clients = [] :=
            h.empty (hv.imp_right fun ht => posting_of_update (by decide) ht)
          rw [hempty] at hmem
          cases hmem
      · cases hstep
  | readVal thread =>
      simp only [Registry.step] at hstep
      split at hstep
      · obtain rfl := Except.ok.inj hstep
        refine ⟨h.bounded, h.val, ?_⟩
        by_cases hzero : s.cr.val = 0
        · -- the count that has been read is the number of clients
          intro _
          have hval := h.val
          rw [hzero] at hval
          have hnat := congrArg BitVec.toNat hval
          rw [BitVec.toNat_ofNat, Nat.mod_eq_of_lt h.bounded] at hnat
          exact List.length_eq_zero_iff.mp hnat.symm
        · simp only [hzero, if_false]
          exact fun hv => h.empty (hv.imp_right fun ht => posting_of_update (by decide) ht)
      · cases hstep
  | post thread =>
      simp only [Registry.step] at hstep
      split at hstep
      · obtain rfl := Except.ok.inj hstep
        exact ⟨h.bounded, h.val, fun _ => h.empty (Or.inr ⟨thread, by assumption⟩)⟩
      · cases hstep
  | wait =>
      simp only [Registry.step] at hstep
      split at hstep
      · cases hstep
      · obtain rfl := Except.ok.inj hstep
        refine ⟨h.bounded, h.val, fun hv => h.empty (hv.imp_left fun hpos => ?_)⟩
        have hpos' : 0 < s.cr.sem - 1 := hpos
        omega

end Registry

end CSE320.Xacto
