import CSE320.Lib.Number
import CSE320.Lib.Rounding
import Mathlib.Order.WithBot

namespace CSE320.Lib

-- The conversion of a number to an integer drops what is behind the point.
def trunc (x : ℚ) : ℤ := if 0 ≤ x then ⌊x⌋ else ⌈x⌉

theorem trunc_range (x : ℚ) {k : ℤ} (hk : 0 < k) : 0 ≤ trunc x ∧ trunc x < k ↔ -1 < x ∧ x < k := by
  rw [trunc]
  by_cases hx : 0 ≤ x
  · rw [if_pos hx, Int.floor_lt]
    exact ⟨fun h => ⟨by linarith, h.2⟩, fun h => ⟨Int.floor_nonneg.mpr hx, h.2⟩⟩
  · have hceil : (-1 < ⌈x⌉ ↔ -1 < x) := by exact_mod_cast Int.lt_ceil (z := -1) (a := x)
    have hneg : ⌈x⌉ ≤ 0 := Int.ceil_le.mpr (by push_cast; linarith)
    have hk' : (0 : ℚ) < k := by exact_mod_cast hk
    rw [if_neg hx, ← hceil]
    exact ⟨fun h => ⟨by omega, by linarith⟩, fun h => ⟨by omega, by omega⟩⟩

namespace Binary

variable (f : Binary)

def bound : ℚ := 2 ^ (f.emax + 1)

-- The finite numbers of a format. The sign of a zero is left out.
@[ext]
structure Finite where
  val : ℚ
  exact : f.Exact val
  small : |val| < f.bound

inductive Extended where
  | neg
  | finite (x : f.Finite)
  | pos

namespace Extended

variable {f}

-- The place of a number among all of them.
def rank : f.Extended → WithBot (WithTop ℚ)
  | neg => ⊥
  | finite x => ((x.val : WithTop ℚ) : WithBot (WithTop ℚ))
  | pos => ((⊤ : WithTop ℚ) : WithBot (WithTop ℚ))

theorem rank_injective : Function.Injective (rank (f := f)) := by
  intro x y h
  cases x with
  | neg => cases y <;> simp_all [rank]
  | pos => cases y <;> simp_all [rank]
  | finite x =>
      cases y with
      | neg => simp [rank] at h
      | pos => simp [rank] at h
      | finite y =>
          simp only [rank, WithBot.coe_inj, WithTop.coe_inj] at h
          exact congrArg finite (Finite.ext h)

instance instLinearOrder : LinearOrder f.Extended := LinearOrder.lift' rank rank_injective

section

variable {x y : f.Finite} {z : f.Extended}

theorem lt_def {z z' : f.Extended} : z < z' ↔ z.rank < z'.rank := Iff.rfl

@[simp] theorem finite_lt_finite : finite x < finite y ↔ x.val < y.val := by
  rw [lt_def]
  simp [rank]

@[simp] theorem finite_le_finite : finite x ≤ finite y ↔ x.val ≤ y.val := by
  rw [← not_lt, finite_lt_finite, not_lt]

@[simp] theorem neg_lt_finite : neg < finite x := by
  rw [lt_def]
  simp [rank]

@[simp] theorem finite_lt_pos : finite x < pos :=
  WithBot.coe_lt_coe.mpr (WithTop.coe_lt_top _)

@[simp] theorem le_pos : z ≤ pos := by
  cases z with
  | neg => exact not_lt.mp fun h => by simp [lt_def, rank] at h
  | finite x => exact finite_lt_pos.le
  | pos => exact le_rfl

@[simp] theorem neg_le : neg ≤ z := by
  cases z with
  | neg => exact le_rfl
  | finite x => exact neg_lt_finite.le
  | pos => exact le_pos

end

end Extended

theorem bound_pos : 0 < f.bound := zpow_pos two_pos _

instance instZero : Zero f.Finite := ⟨⟨0, f.nearest_zero, by rw [abs_zero]; exact f.bound_pos⟩⟩

instance instZeroExtended : Zero f.Extended := ⟨.finite 0⟩

@[simp] theorem val_zero : (0 : f.Finite).val = 0 := rfl

-- The number that a result is rounded to.
def round (q : ℚ) : f.Extended :=
  if h : |f.nearest q| < f.bound then .finite ⟨f.nearest q, f.exact_nearest q, h⟩
  else if 0 < q then .pos
  else .neg

-- An integer as a number.
def ofInt (k : ℤ) : Number f.Extended := .value (f.round k)

section

variable {f}

def sub : Number f.Extended → Number f.Extended → Number f.Extended
  | .value (.finite x), .value (.finite y) => .value (f.round (x.val - y.val))
  | .value (.finite _), .value .pos => .value .neg
  | .value (.finite _), .value .neg => .value .pos
  | .value .pos, .value .pos => .nan
  | .value .pos, .value _ => .value .pos
  | .value .neg, .value .neg => .nan
  | .value .neg, .value _ => .value .neg
  | .value _, .nan => .nan
  | .nan, _ => .nan

def mul : Number f.Extended → Number f.Extended → Number f.Extended
  | .value (.finite x), .value (.finite y) => .value (f.round (x.val * y.val))
  | .value x, .value y =>
    if x = 0 ∨ y = 0 then .nan else if x < 0 ↔ y < 0 then .value .pos else .value .neg
  | .value _, .nan => .nan
  | .nan, _ => .nan

-- A quotient by zero depends on the sign of the zero, and is left out.
def div : Number f.Extended → Number f.Extended → Number f.Extended
  | .value (.finite x), .value (.finite y) =>
    if y.val = 0 then .nan else .value (f.round (x.val / y.val))
  | .value .pos, .value (.finite y) =>
    if y.val = 0 then .nan else if y.val < 0 then .value .neg else .value .pos
  | .value .neg, .value (.finite y) =>
    if y.val = 0 then .nan else if y.val < 0 then .value .pos else .value .neg
  | .value (.finite _), .value _ => .value 0
  | .value _, .value _ => .nan
  | .value _, .nan => .nan
  | .nan, _ => .nan

instance instSub : Sub (Number f.Extended) := ⟨sub⟩

instance instMul : Mul (Number f.Extended) := ⟨mul⟩

instance instDiv : Div (Number f.Extended) := ⟨div⟩

-- The conversion to an int of 32 bits. What does not fit in has no result.
def toInt : Number f.Extended → Option ℤ
  | .value (.finite x) =>
    if -2 ^ 31 ≤ trunc x.val ∧ trunc x.val < 2 ^ 31 then some (trunc x.val) else none
  | .value _ => none
  | .nan => none

end

section

variable {f} {q : ℚ} {k : ℤ} (z : Number f.Extended)

theorem round_of_lt (h : |f.nearest q| < f.bound) :
    f.round q = .finite ⟨f.nearest q, f.exact_nearest q, h⟩ := dif_pos h

theorem round_of_bound_le (h : f.bound ≤ f.nearest q) : f.round q = .pos := by
  have hpos : 0 < q := by
    by_contra hle
    have hround := f.nearest_mono (not_lt.mp hle)
    rw [nearest_zero] at hround
    exact (f.bound_pos.trans_le h).not_ge hround
  rw [round, dif_neg (not_lt.mpr (h.trans (le_abs_self _))), if_pos hpos]

theorem round_infinite (h : f.bound ≤ |f.nearest q|) : f.round q = .pos ∨ f.round q = .neg := by
  rw [round, dif_neg (not_lt.mpr h)]
  split
  · exact Or.inl rfl
  · exact Or.inr rfl

theorem ofInt_of_digits (hk : |k| ≤ 2 ^ f.digits) (hemin : f.emin + 1 ≤ f.digits)
    (hbound : |(k : ℚ)| < f.bound) :
    ∃ x : f.Finite, f.ofInt k = .value (.finite x) ∧ x.val = k := by
  have hexact := f.nearest_of_digits (e := 0) hk (by omega)
  rw [zpow_zero, mul_one] at hexact
  rw [← hexact] at hbound
  exact ⟨_, congrArg Number.value (round_of_lt hbound), hexact⟩

@[simp] theorem nan_sub : .nan - z = .nan := rfl

@[simp] theorem mul_nan : z * .nan = .nan := by
  rcases z with _ | _ | _ | _ <;> rfl

@[simp] theorem nan_div : .nan / z = .nan := rfl

@[simp] theorem div_nan : z / .nan = .nan := by
  rcases z with _ | _ | _ | _ <;> rfl

-- An infinite dividend leaves no integer.
theorem toInt_infinite_div {x : f.Extended} (hx : x = .pos ∨ x = .neg) :
    toInt (.value x / z) = none := by
  have hfinite (y : f.Finite) {w w' : f.Extended} (hw : toInt (.value w) = none)
      (hw' : toInt (.value w') = none) :
      toInt (if y.val = 0 then .nan else if y.val < 0 then .value w else .value w') = none := by
    split
    · rfl
    · split
      · exact hw
      · exact hw'
  rcases hx with rfl | rfl
  · rcases z with _ | _ | y | _
    · rfl
    · rfl
    · exact hfinite y rfl rfl
    · rfl
  · rcases z with _ | _ | y | _
    · rfl
    · rfl
    · exact hfinite y rfl rfl
    · rfl

theorem toInt_range (hk : 0 < k) (hint : k ≤ 2 ^ 31) :
    (∃ i, toInt z = some i ∧ 0 ≤ i ∧ i < k) ↔
      ∃ x : f.Finite, z = .value (.finite x) ∧ -1 < x.val ∧ x.val < k := by
  constructor
  · rintro ⟨i, hi, hrange⟩
    rcases z with _ | _ | x | _
    · cases hi
    · cases hi
    · refine ⟨x, rfl, (trunc_range x.val hk).mp ?_⟩
      rw [toInt] at hi
      split at hi
      · rwa [Option.some.inj hi]
      · cases hi
    · cases hi
  · rintro ⟨x, rfl, hrange⟩
    have htrunc := (trunc_range x.val hk).mpr hrange
    exact ⟨trunc x.val, if_pos ⟨by omega, by omega⟩, htrunc⟩

-- The quotient of finite numbers, when it is in such a range.
theorem div_range {x y : f.Finite} (hy : y.val ≠ 0) (hk : 0 < k) (hint : k ≤ 2 ^ 31)
    (hbound : (k : ℚ) ≤ f.bound) :
    (∃ i, toInt (.value (.finite x) / .value (.finite y)) = some i ∧ 0 ≤ i ∧ i < k) ↔
      -1 < f.nearest (x.val / y.val) ∧ f.nearest (x.val / y.val) < k := by
  have hdiv : (.value (.finite x) / .value (.finite y) : Number f.Extended) =
      .value (f.round (x.val / y.val)) := if_neg hy
  have hone : (1 : ℚ) ≤ k := by exact_mod_cast hk
  rw [hdiv, toInt_range _ hk hint]
  constructor
  · rintro ⟨z, hz, hrange⟩
    have hround := Number.value_injective hz
    by_cases hsmall : |f.nearest (x.val / y.val)| < f.bound
    · rw [round_of_lt hsmall] at hround
      obtain rfl := Extended.finite.inj hround
      exact hrange
    · rcases round_infinite (not_lt.mp hsmall) with h | h <;> rw [h] at hround <;> cases hround
  · intro hrange
    have hsmall : |f.nearest (x.val / y.val)| < f.bound :=
      abs_lt.mpr ⟨by linarith, by linarith⟩
    exact ⟨_, congrArg Number.value (round_of_lt hsmall), hrange⟩

end

-- The format of a float.
def single : Binary := ⟨24, -126, 127, Nat.succ_pos 23⟩

end Binary

end CSE320.Lib
