import Mathlib.Data.Int.Log
import Mathlib.Data.Rat.Floor
import Mathlib.Tactic.Linarith
import Mathlib.Tactic.Positivity
import Mathlib.Tactic.Ring

namespace CSE320.Lib

-- The integer that is closest to x, and the even one if two are.
def roundEven (x : ℚ) : ℤ :=
  if x - ⌊x⌋ < 1 / 2 ∨ x - ⌊x⌋ = 1 / 2 ∧ ⌊x⌋ % 2 = 0 then ⌊x⌋ else ⌊x⌋ + 1

section

variable {x y : ℚ} {k : ℤ}

theorem roundEven_le_iff : roundEven x ≤ k ↔ x < k + 1 / 2 ∨ x = k + 1 / 2 ∧ k % 2 = 0 := by
  have hlow := Int.floor_le x
  have hhigh := Int.lt_floor_add_one x
  rw [roundEven]
  generalize ⌊x⌋ = m at hlow hhigh ⊢
  rcases lt_trichotomy m k with hlt | rfl | hgt
  · have hle : (m : ℚ) + 1 ≤ k := by exact_mod_cast hlt
    refine ⟨fun _ => Or.inl (by linarith), fun _ => ?_⟩
    split <;> omega
  · have hless : x - m < 1 / 2 ↔ x < m + 1 / 2 := by constructor <;> intro h <;> linarith
    have hsame : x - m = 1 / 2 ↔ x = m + 1 / 2 := by constructor <;> intro h <;> linarith
    simp only [hless, hsame]
    split
    · exact ⟨fun _ => ‹_›, fun _ => le_rfl⟩
    · exact ⟨fun h => by omega, fun h => absurd h ‹_›⟩
  · have hle : (k : ℚ) + 1 ≤ m := by exact_mod_cast hgt
    constructor
    · intro h
      split at h <;> omega
    · rintro (h | ⟨h, -⟩) <;> linarith

theorem le_roundEven_iff : k ≤ roundEven x ↔ k - 1 / 2 < x ∨ x = k - 1 / 2 ∧ k % 2 = 0 := by
  have h := not_congr (roundEven_le_iff (x := x) (k := k - 1))
  rw [not_le, Int.sub_one_lt_iff] at h
  rw [h, not_or, not_lt, not_and]
  push_cast
  constructor
  · rintro ⟨hle, hodd⟩
    rcases hle.lt_or_eq with hlt | heq
    · exact Or.inl (by linarith)
    · have hparity := hodd heq.symm
      exact Or.inr ⟨by linarith, by omega⟩
  · rintro (hlt | ⟨heq, heven⟩)
    · exact ⟨by linarith, fun h => by linarith⟩
    · exact ⟨by linarith, fun _ => by omega⟩

theorem roundEven_lt_iff (hk : k % 2 = 0) : roundEven x < k ↔ x < k - 1 / 2 := by
  rw [← not_le, le_roundEven_iff, not_or, not_lt, not_and]
  constructor
  · rintro ⟨hle, hne⟩
    exact lt_of_le_of_ne hle fun h => hne h hk
  · exact fun h => ⟨h.le, fun heq => absurd heq h.ne⟩

theorem roundEven_intCast (k : ℤ) : roundEven k = k := by
  apply le_antisymm
  · exact roundEven_le_iff.mpr (Or.inl (by linarith))
  · exact le_roundEven_iff.mpr (Or.inl (by linarith))

theorem roundEven_mono (h : x ≤ y) : roundEven x ≤ roundEven y := by
  rw [roundEven_le_iff]
  rcases roundEven_le_iff.mp (le_refl (roundEven y)) with hlt | ⟨heq, heven⟩
  · exact Or.inl (h.trans_lt hlt)
  · rcases h.lt_or_eq with hlt | rfl
    · exact Or.inl (hlt.trans_eq heq)
    · exact Or.inr ⟨heq, heven⟩

theorem roundEven_neg (x : ℚ) : roundEven (-x) = -roundEven x := by
  have hle (k : ℤ) : roundEven (-x) ≤ k ↔ -roundEven x ≤ k := by
    rw [neg_le, roundEven_le_iff, le_roundEven_iff]
    push_cast
    refine or_congr ?_ (and_congr ?_ ?_)
    · constructor <;> intro h <;> linarith
    · constructor <;> intro h <;> linarith
    · omega
  exact le_antisymm ((hle _).mpr le_rfl) ((hle _).mp le_rfl)

theorem abs_roundEven_sub_le (x : ℚ) : |roundEven x - x| ≤ 1 / 2 := by
  rw [abs_le]
  constructor
  · rcases roundEven_le_iff.mp (le_refl (roundEven x)) with h | ⟨h, -⟩ <;> linarith
  · rcases le_roundEven_iff.mp (le_refl (roundEven x)) with h | ⟨h, -⟩ <;> linarith

end

-- A binary floating-point format: the digits of a significand, and the least and the greatest
-- exponent of its normal numbers.
structure Binary where
  digits : Nat
  emin : ℤ
  emax : ℤ
  digits_pos : 0 < digits

namespace Binary

variable (f : Binary)

-- The exponent of the numbers around q, and their distance.
def exponent (q : ℚ) : ℤ := Int.log 2 (max |q| (2 ^ f.emin))

def ulp (q : ℚ) : ℚ := 2 ^ (f.exponent q + 1 - f.digits)

-- The number that is closest to q, without a bound on the exponent.
def nearest (q : ℚ) : ℚ := roundEven (q / f.ulp q) * f.ulp q

variable {q r : ℚ} {k e : ℤ}

theorem exponent_lt_iff : f.exponent q < e ↔ |q| < 2 ^ e ∧ f.emin < e := by
  have hpos : 0 < max |q| (2 ^ f.emin) := lt_max_of_lt_right (zpow_pos two_pos _)
  have hlog := Int.lt_zpow_iff_log_lt (x := e) Nat.one_lt_two hpos
  push_cast at hlog
  rw [exponent, ← hlog, max_lt_iff, zpow_lt_zpow_iff_right₀ one_lt_two]

theorem emin_le_exponent (q : ℚ) : f.emin ≤ f.exponent q :=
  Int.lt_add_one_iff.mp (f.exponent_lt_iff.mp (lt_add_one (f.exponent q))).2

theorem abs_lt_two_zpow (q : ℚ) : |q| < 2 ^ (f.exponent q + 1) :=
  (f.exponent_lt_iff.mp (lt_add_one _)).1

theorem le_exponent (h : 2 ^ e ≤ |q|) : e ≤ f.exponent q :=
  not_lt.mp fun hlt => (f.exponent_lt_iff.mp hlt).1.not_ge h

theorem two_zpow_le_abs (h : f.emin < f.exponent q) : 2 ^ f.exponent q ≤ |q| :=
  not_lt.mp fun hlt => lt_irrefl _ (f.exponent_lt_iff.mpr ⟨hlt, h⟩)

theorem exponent_mono (h : |q| ≤ |r|) : f.exponent q ≤ f.exponent r := by
  obtain ⟨hlt, hemin⟩ := f.exponent_lt_iff.mp (lt_add_one (f.exponent r))
  exact Int.lt_add_one_iff.mp (f.exponent_lt_iff.mpr ⟨h.trans_lt hlt, hemin⟩)

section

variable (q)

theorem ulp_pos : 0 < f.ulp q := zpow_pos two_pos _

theorem ulp_neg : f.ulp (-q) = f.ulp q := by rw [ulp, ulp, exponent, exponent, abs_neg]

theorem nearest_neg : f.nearest (-q) = -f.nearest q := by
  rw [nearest, nearest, ulp_neg, neg_div, roundEven_neg]
  push_cast
  ring

@[simp] theorem nearest_zero : f.nearest 0 = 0 := by
  have hzero : roundEven 0 = 0 := by exact_mod_cast roundEven_intCast 0
  rw [nearest, zero_div, hzero, Int.cast_zero, zero_mul]

-- A power of two is so many of the distances below it.
theorem two_zpow_mul_ulp : 2 ^ f.digits * f.ulp q = 2 ^ (f.exponent q + 1) := by
  rw [ulp, ← zpow_natCast, ← zpow_add₀ two_ne_zero]
  congr 1
  ring

theorem abs_nearest_sub_le : |f.nearest q - q| ≤ f.ulp q / 2 := by
  have hpos := f.ulp_pos q
  have hscaled : f.nearest q - q = (roundEven (q / f.ulp q) - q / f.ulp q) * f.ulp q := by
    rw [nearest, sub_mul, div_mul_cancel₀ _ hpos.ne']
  rw [hscaled, abs_mul, abs_of_pos hpos]
  have hle := mul_le_mul_of_nonneg_right (abs_roundEven_sub_le (q / f.ulp q)) hpos.le
  linarith

end

theorem nearest_le_of_le (h : q ≤ k * f.ulp q) : f.nearest q ≤ k * f.ulp q := by
  have hpos := f.ulp_pos q
  have hround := roundEven_mono ((div_le_iff₀ hpos).mpr h)
  rw [roundEven_intCast] at hround
  exact mul_le_mul_of_nonneg_right (by exact_mod_cast hround) hpos.le

theorem le_nearest_of_le (h : k * f.ulp q ≤ q) : k * f.ulp q ≤ f.nearest q := by
  have hpos := f.ulp_pos q
  have hround := roundEven_mono ((le_div_iff₀ hpos).mpr h)
  rw [roundEven_intCast] at hround
  exact mul_le_mul_of_nonneg_right (by exact_mod_cast hround) hpos.le

-- A multiple of the distance around it is not rounded.
theorem nearest_of_multiple (h : q = k * f.ulp q) : f.nearest q = q := by
  rw [nearest, (div_eq_iff (f.ulp_pos q).ne').mpr h, roundEven_intCast]
  exact h.symm

theorem two_zpow_multiple {i j : ℤ} (h : i ≤ j) : ∃ m : ℕ, (2 : ℚ) ^ j = 2 ^ m * 2 ^ i := by
  refine ⟨(j - i).toNat, ?_⟩
  rw [← zpow_natCast, ← zpow_add₀ two_ne_zero]
  congr 1
  omega

-- Neither is a number of so few digits.
theorem nearest_of_digits (hk : |k| ≤ 2 ^ f.digits) (he : f.emin + 1 ≤ e + f.digits) :
    f.nearest (k * 2 ^ e) = k * 2 ^ e := by
  have hpos : (0 : ℚ) < 2 ^ e := zpow_pos two_pos e
  rcases hk.lt_or_eq with hk | hk
  · have hlt : f.exponent (k * 2 ^ e) < e + f.digits := by
      refine f.exponent_lt_iff.mpr ⟨?_, by omega⟩
      rw [abs_mul, abs_of_pos hpos, add_comm, zpow_add₀ two_ne_zero, zpow_natCast]
      exact mul_lt_mul_of_pos_right (by exact_mod_cast hk) hpos
    obtain ⟨m, hm⟩ := two_zpow_multiple
      (show f.exponent (k * 2 ^ e) + 1 - f.digits ≤ e by omega)
    refine f.nearest_of_multiple (k := k * 2 ^ m) ?_
    rw [ulp]
    push_cast
    rw [mul_assoc, ← hm]
  · -- a power of two, of which the next distance is a part as well
    have habs : |(k : ℚ) * 2 ^ e| = 2 ^ (e + f.digits) := by
      rw [abs_mul, abs_of_pos hpos, add_comm, zpow_add₀ two_ne_zero, zpow_natCast]
      congr 1
      exact_mod_cast hk
    have hexponent : f.exponent (k * 2 ^ e) < e + f.digits + 1 := by
      refine f.exponent_lt_iff.mpr ⟨?_, by omega⟩
      rw [habs]
      exact zpow_lt_zpow_right₀ one_lt_two (by omega)
    have hdigits := f.digits_pos
    obtain ⟨m, hm⟩ := two_zpow_multiple
      (show f.exponent (k * 2 ^ e) + 1 - f.digits ≤ e + f.digits by omega)
    have hmultiple (i : ℤ) (hi : (k : ℚ) * 2 ^ e = i * 2 ^ (e + f.digits)) :
        f.nearest (k * 2 ^ e) = k * 2 ^ e := by
      refine f.nearest_of_multiple (k := i * 2 ^ m) ?_
      rw [ulp]
      push_cast
      rw [mul_assoc, ← hm]
      exact hi
    rcases abs_eq_abs.mp (habs.trans (abs_of_pos (zpow_pos two_pos _)).symm) with h | h
    · exact hmultiple 1 (by rw [h, Int.cast_one, one_mul])
    · exact hmultiple (-1) (by rw [h, Int.cast_neg, Int.cast_one, neg_one_mul])

theorem nearest_two_zpow (he : f.emin ≤ e) : f.nearest (2 ^ e) = 2 ^ e := by
  have hpow : |((1 : ℤ) : ℤ)| ≤ 2 ^ f.digits := by
    rw [abs_one]
    exact one_le_pow₀ one_le_two
  have hdigits := f.digits_pos
  have h := f.nearest_of_digits (e := e) hpow (by omega)
  rwa [Int.cast_one, one_mul] at h

theorem nearest_nonneg (h : 0 ≤ q) : 0 ≤ f.nearest q := by
  have hle := f.le_nearest_of_le (q := q) (k := 0) (by simpa using h)
  simpa using hle

theorem nearest_le_two_zpow (q : ℚ) : f.nearest q ≤ 2 ^ (f.exponent q + 1) := by
  rw [← two_zpow_mul_ulp]
  have hle := (le_abs_self q).trans (f.abs_lt_two_zpow q).le
  rw [← two_zpow_mul_ulp] at hle
  exact_mod_cast f.nearest_le_of_le (k := 2 ^ f.digits) (by exact_mod_cast hle)

theorem nearest_mono_of_nonneg (hq : 0 ≤ q) (h : q ≤ r) : f.nearest q ≤ f.nearest r := by
  have hr := hq.trans h
  have hexponent : f.exponent q ≤ f.exponent r :=
    f.exponent_mono (by rwa [abs_of_nonneg hq, abs_of_nonneg hr])
  rcases hexponent.eq_or_lt with heq | hlt
  · have hulp : f.ulp q = f.ulp r := by rw [ulp, ulp, heq]
    have hpos := f.ulp_pos r
    have hround := roundEven_mono (div_le_div_of_nonneg_right h hpos.le)
    rw [nearest, nearest, hulp]
    exact mul_le_mul_of_nonneg_right (by exact_mod_cast hround) hpos.le
  · -- a power of two lies between them
    have hpow : (2 : ℚ) ^ f.exponent r ≤ r := by
      have hle := f.two_zpow_le_abs ((f.emin_le_exponent q).trans_lt hlt)
      rwa [abs_of_nonneg hr] at hle
    have hmultiple : ((2 ^ (f.digits - 1) : ℤ) : ℚ) * f.ulp r = 2 ^ f.exponent r := by
      have hdigits := f.digits_pos
      rw [ulp]
      push_cast
      rw [← zpow_natCast, ← zpow_add₀ two_ne_zero]
      congr 1
      omega
    calc f.nearest q ≤ 2 ^ (f.exponent q + 1) := f.nearest_le_two_zpow q
      _ ≤ 2 ^ f.exponent r := zpow_le_zpow_right₀ one_le_two hlt
      _ ≤ f.nearest r := by
        rw [← hmultiple] at hpow ⊢
        exact f.le_nearest_of_le hpow

theorem nearest_mono (h : q ≤ r) : f.nearest q ≤ f.nearest r := by
  rcases le_total 0 q with hq | hq
  · exact f.nearest_mono_of_nonneg hq h
  · rcases le_total 0 r with hr | hr
    · have hneg := f.nearest_nonneg (neg_nonneg.mpr hq)
      rw [nearest_neg] at hneg
      exact (by linarith : f.nearest q ≤ 0).trans (f.nearest_nonneg hr)
    · have hneg := f.nearest_mono_of_nonneg (neg_nonneg.mpr hr) (neg_le_neg h)
      rwa [nearest_neg, nearest_neg, neg_le_neg_iff] at hneg

-- The numbers of the format, when their exponent is not bounded.
def Exact (q : ℚ) : Prop := f.nearest q = q

theorem Exact.multiple (h : f.Exact q) : ∃ k : ℤ, q = k * f.ulp q :=
  ⟨roundEven (q / f.ulp q), h.symm⟩

theorem exact_nearest (q : ℚ) : f.Exact (f.nearest q) := by
  have hpos := f.ulp_pos q
  have hle : |roundEven (q / f.ulp q)| ≤ 2 ^ f.digits := by
    have hlt := f.abs_lt_two_zpow q
    rw [← two_zpow_mul_ulp] at hlt
    obtain ⟨hlow, hhigh⟩ := abs_lt.mp hlt
    rw [abs_le]
    constructor
    · have hround := f.le_nearest_of_le (q := q) (k := -2 ^ f.digits) (by push_cast; linarith)
      exact_mod_cast le_of_mul_le_mul_right hround hpos
    · have hround := f.nearest_le_of_le (q := q) (k := 2 ^ f.digits) (by push_cast; linarith)
      exact_mod_cast le_of_mul_le_mul_right hround hpos
  have hemin := f.emin_le_exponent q
  exact f.nearest_of_digits hle (by omega)

-- The least distance of all.
def tiny : ℚ := 2 ^ (f.emin + 1 - f.digits)

theorem tiny_multiple (q : ℚ) : ∃ m : ℕ, f.ulp q = 2 ^ m * f.tiny := by
  have hemin := f.emin_le_exponent q
  exact two_zpow_multiple (by omega)

theorem Exact.tiny (h : f.Exact q) : ∃ k : ℤ, q = k * f.tiny := by
  obtain ⟨k, hk⟩ := h.multiple
  obtain ⟨m, hm⟩ := f.tiny_multiple q
  refine ⟨k * 2 ^ m, ?_⟩
  push_cast
  rw [mul_assoc, ← hm]
  exact hk

-- Multiples of it have a small relative error, even where the numbers are subnormal.
theorem abs_nearest_sub_le_of_tiny (h : ∃ k : ℤ, q = k * f.tiny) :
    |f.nearest q - q| ≤ |q| / 2 ^ f.digits := by
  rcases (f.emin_le_exponent q).eq_or_lt with heq | hlt
  · obtain ⟨k, hk⟩ := h
    have hulp : f.ulp q = f.tiny := by rw [ulp, ← heq, Binary.tiny]
    rw [f.nearest_of_multiple (k := k) (by rw [hulp]; exact hk), sub_self, abs_zero]
    positivity
  · refine (f.abs_nearest_sub_le q).trans ?_
    have hle := f.two_zpow_le_abs hlt
    have hpow := f.two_zpow_mul_ulp q
    rw [zpow_add_one₀ two_ne_zero] at hpow
    rw [le_div_iff₀ (by positivity)]
    linarith

-- Where the numbers below an even multiple of their distance begin.
theorem nearest_lt_iff (he : f.emin ≤ e) (hlow : 2 ^ (f.digits - 1) < k) (hhigh : k ≤ 2 ^ f.digits)
    (heven : k % 2 = 0) : f.nearest q < k * 2 ^ (e + 1 - f.digits) ↔
      q < (k - 1 / 2) * 2 ^ (e + 1 - f.digits) := by
  have hunit : (0 : ℚ) < 2 ^ (e + 1 - f.digits) := zpow_pos two_pos _
  have hdigits := f.digits_pos
  have hbottom : (2 : ℚ) ^ e = 2 ^ (f.digits - 1) * 2 ^ (e + 1 - f.digits) := by
    rw [← zpow_natCast, ← zpow_add₀ two_ne_zero]
    congr 1
    omega
  have htop : (2 : ℚ) ^ (e + 1) = 2 ^ f.digits * 2 ^ (e + 1 - f.digits) := by
    rw [← zpow_natCast, ← zpow_add₀ two_ne_zero]
    congr 1
    omega
  have hlow' : (2 : ℚ) ^ (f.digits - 1) + 1 ≤ k := by exact_mod_cast hlow
  have hhigh' : (k : ℚ) ≤ 2 ^ f.digits := by exact_mod_cast hhigh
  rcases lt_or_ge q (2 ^ e) with hsmall | hlarge
  · have hle := f.nearest_mono hsmall.le
    rw [f.nearest_two_zpow he] at hle
    exact ⟨fun _ => by nlinarith, fun _ => by nlinarith⟩
  · rcases lt_or_ge q (2 ^ (e + 1)) with hsmall | hlarge'
    · have hnonneg : 0 ≤ q := (zpow_pos two_pos e).le.trans hlarge
      have hexponent : f.exponent q = e := by
        apply le_antisymm
        · exact Int.lt_add_one_iff.mp
            (f.exponent_lt_iff.mpr ⟨by rwa [abs_of_nonneg hnonneg], by omega⟩)
        · exact f.le_exponent (by rwa [abs_of_nonneg hnonneg])
      rw [nearest, ulp, hexponent, mul_lt_mul_iff_left₀ hunit, ← div_lt_iff₀ hunit,
        ← roundEven_lt_iff heven, Int.cast_lt]
    · have hle := f.nearest_mono hlarge'
      rw [f.nearest_two_zpow (by omega)] at hle
      exact ⟨fun _ => by nlinarith, fun _ => by nlinarith⟩

theorem nearest_lt_two_zpow_iff (he : f.emin < e) :
    f.nearest q < 2 ^ e ↔ q < 2 ^ e - 2 ^ (e - f.digits - 1) := by
  have hdigits := f.digits_pos
  obtain ⟨d, hd⟩ := Nat.exists_eq_add_of_lt hdigits
  rw [Nat.zero_add] at hd
  have heven : (2 : ℤ) ^ f.digits % 2 = 0 := by
    rw [hd, pow_succ]
    exact Int.mul_emod_left _ _
  have hless : (2 : ℤ) ^ (f.digits - 1) < 2 ^ f.digits := pow_lt_pow_right₀ one_lt_two (by omega)
  have h := f.nearest_lt_iff (q := q) (e := e - 1) (by omega) hless le_rfl heven
  have hpow : (2 : ℚ) ^ e = 2 ^ f.digits * 2 ^ (e - 1 + 1 - f.digits) := by
    rw [← zpow_natCast, ← zpow_add₀ two_ne_zero]
    congr 1
    omega
  have hhalf : (2 : ℚ) ^ (e - 1 + 1 - f.digits) = 2 * 2 ^ (e - f.digits - 1) := by
    rw [← zpow_one_add₀ two_ne_zero]
    congr 1
    omega
  push_cast at h
  rw [sub_mul, ← hpow] at h
  rw [h, hhalf]
  constructor <;> intro h' <;> linarith

-- Two numbers are half a distance apart at least.
theorem Exact.gap {a b : ℚ} (ha : f.Exact a) (hb : f.Exact b) (h0 : 0 ≤ a) (h : a < b) :
    a + f.ulp b / 2 ≤ b := by
  have hpos := f.ulp_pos b
  have hb0 : 0 < b := h0.trans_lt h
  have hexponent : f.exponent a ≤ f.exponent b :=
    f.exponent_mono (by rw [abs_of_nonneg h0, abs_of_pos hb0]; exact h.le)
  -- both are multiples of half the distance around b, unless a is far below
  have hstep {i j : ℤ} (hi : a = i * (f.ulp b / 2)) (hj : b = j * (f.ulp b / 2)) :
      a + f.ulp b / 2 ≤ b := by
    have hhalf := half_pos hpos
    generalize f.ulp b / 2 = half at hhalf hi hj ⊢
    have hlt : i + 1 ≤ j := by
      rw [hi, hj] at h
      exact_mod_cast lt_of_mul_lt_mul_right h hhalf.le
    have hle : (i : ℚ) + 1 ≤ j := by exact_mod_cast hlt
    rw [hi, hj]
    nlinarith
  obtain ⟨j, hj⟩ := hb.multiple
  obtain ⟨i, hi⟩ := ha.multiple
  rcases hexponent.eq_or_lt with heq | hlt
  · have hulp : f.ulp a = f.ulp b := by rw [ulp, ulp, heq]
    refine hstep (i := 2 * i) (j := 2 * j) ?_ ?_
    · rw [hulp] at hi
      push_cast
      linarith
    · push_cast
      linarith
  · have hpow := f.two_zpow_le_abs ((f.emin_le_exponent a).trans_lt hlt)
    rw [abs_of_pos hb0] at hpow
    rcases (Int.add_one_le_iff.mpr hlt).eq_or_lt with hnext | hfar
    · have hulp : f.ulp b = 2 * f.ulp a := by
        rw [ulp, ulp, ← hnext, ← zpow_one_add₀ two_ne_zero]
        congr 1
        ring
      refine hstep (i := i) (j := 2 * j) ?_ ?_
      · rw [hulp, mul_div_cancel_left₀ _ two_ne_zero]
        exact hi
      · push_cast
        linarith
    · have hdigits := f.digits_pos
      have ha' := (le_abs_self a).trans_lt (f.abs_lt_two_zpow a)
      have hbelow : (2 : ℚ) ^ (f.exponent a + 1) ≤ 2 ^ (f.exponent b - 1) :=
        zpow_le_zpow_right₀ one_le_two (by omega)
      have hulp : f.ulp b ≤ 2 ^ f.exponent b := zpow_le_zpow_right₀ one_le_two (by omega)
      have hhalf : (2 : ℚ) ^ f.exponent b = 2 * 2 ^ (f.exponent b - 1) := by
        rw [← zpow_one_add₀ two_ne_zero]
        congr 1
        ring
      linarith

-- So their quotient stays below one when the first one is the smaller one.
theorem nearest_div_lt_one_iff {a b : ℚ} (ha : f.Exact a) (hb : f.Exact b) (h0 : 0 ≤ a)
    (hb0 : 0 < b) (hemin : f.emin < 0) : f.nearest (a / b) < 1 ↔ a < b := by
  refine ⟨fun h => ?_, fun h => ?_⟩
  · by_contra hle
    have hmono := f.nearest_mono ((one_le_div hb0).mpr (not_lt.mp hle))
    have hone := f.nearest_two_zpow hemin.le
    rw [zpow_zero] at hone
    rw [hone] at hmono
    exact hmono.not_gt h
  have hgap := ha.gap f hb h0 h
  have hlt := f.abs_lt_two_zpow b
  rw [← two_zpow_mul_ulp, abs_of_pos hb0] at hlt
  have hone := f.nearest_lt_two_zpow_iff (q := a / b) hemin
  rw [zpow_zero] at hone
  rw [hone, div_lt_iff₀ hb0]
  have hshare : (2 : ℚ) ^ (0 - (f.digits : ℤ) - 1) * (2 * 2 ^ f.digits) = 1 := by
    rw [← zpow_natCast, ← zpow_one_add₀ two_ne_zero, ← zpow_add₀ two_ne_zero]
    have hzero : (0 - (f.digits : ℤ) - 1) + (1 + f.digits) = 0 := by omega
    rw [hzero, zpow_zero]
  have hpos : (0 : ℚ) < 2 ^ (0 - (f.digits : ℤ) - 1) := zpow_pos two_pos _
  nlinarith

end Binary

end CSE320.Lib
