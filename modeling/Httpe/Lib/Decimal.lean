/-
Httpe.Lib.Decimal — decimal arithmetic rounded to a context's precision.

A finite decimal is read as the rational it denotes. An operation
computes its result exactly and then rounds it: to `prec` significant
digits, half to even, with the unit in the last place never below
`etiny`; a result whose leading digit lies above `emax` is an overflow,
here `none`.

What later proofs use of rounding is `le_nearest` and `nearest_le` (it
never crosses a point of its own grid), `round_eq_self` (a number of few
enough digits is left alone), `round_eq_some_iff` (what is rounded to a
number of few digits is what lies within half a unit of it) and
`round_eq_none_of_le` (what is too large overflows). `HasScale s` are the
numbers of at most `s` decimal places, what a fixed-point column can hold.

A program that computes with decimals need not know its context: a
`Rounding` is any arithmetic that leaves zero alone and does not make a
negative number of one that is not.
-/
import Mathlib.Algebra.BigOperators.Group.Finset.Basic
import Mathlib.Algebra.Order.Field.Rat
import Mathlib.Data.Int.Log
import Mathlib.Data.Rat.Floor
import Mathlib.Tactic.Linarith
import Mathlib.Tactic.NormNum
import Mathlib.Tactic.Positivity
import Mathlib.Tactic.Ring

namespace Httpe.Decimal

/-! ## Rounding to an integer -/

/-- The nearest integer, a tie to the even one. -/
def roundHalfEven (x : ℚ) : ℤ :=
  if x - ⌊x⌋ < 1 / 2 then ⌊x⌋
  else if 1 / 2 < x - ⌊x⌋ then ⌊x⌋ + 1
  else if ⌊x⌋ % 2 = 0 then ⌊x⌋ else ⌊x⌋ + 1

theorem roundHalfEven_intCast (n : ℤ) : roundHalfEven n = n := by
  simp [roundHalfEven]

theorem abs_sub_roundHalfEven_le (x : ℚ) : |x - roundHalfEven x| ≤ 1 / 2 := by
  have hlow := Int.floor_le x
  have hhigh := Int.lt_floor_add_one x
  unfold roundHalfEven
  rw [abs_le]
  split_ifs
  all_goals
    push_cast
    constructor <;> linarith

/-- Half a unit away from it an even number still wins. -/
theorem roundHalfEven_of_even {n : ℤ} {x : ℚ} (hn : n % 2 = 0) (h : |x - n| ≤ 1 / 2) :
    roundHalfEven x = n := by
  obtain ⟨hlow, hhigh⟩ := abs_le.mp h
  rcases le_or_gt (n : ℚ) x with hle | hlt
  · have hfloor : ⌊x⌋ = n := Int.floor_eq_iff.mpr ⟨hle, by linarith⟩
    unfold roundHalfEven
    rw [hfloor, if_neg (by linarith : ¬ (1 / 2 < x - n))]
    simp [hn]
  · have hfloor : ⌊x⌋ = n - 1 := by
      refine Int.floor_eq_iff.mpr ⟨?_, ?_⟩
      · push_cast
        linarith
      · push_cast
        linarith
    have hodd : ¬ (n - 1) % 2 = 0 := by omega
    unfold roundHalfEven
    rw [hfloor, if_neg (by push_cast; linarith), if_neg hodd]
    simp

theorem le_roundHalfEven {n : ℤ} {x : ℚ} (h : (n : ℚ) ≤ x) : n ≤ roundHalfEven x := by
  have hfloor : n ≤ ⌊x⌋ := Int.le_floor.mpr h
  unfold roundHalfEven
  split_ifs <;> omega

theorem roundHalfEven_le {n : ℤ} {x : ℚ} (h : x ≤ n) : roundHalfEven x ≤ n := by
  rcases h.lt_or_eq with hlt | rfl
  · have hfloor : ⌊x⌋ < n := Int.floor_lt.mpr hlt
    unfold roundHalfEven
    split_ifs <;> omega
  · rw [roundHalfEven_intCast]

/-! ## Rounding to a context -/

structure Context where
  prec : ℕ
  emin : ℤ
  emax : ℤ
  prec_pos : 0 < prec
  emax_nonneg : 0 ≤ emax

namespace Context

variable {c : Context} {x y : ℚ} {n k e : ℤ}

/-- The smallest exponent a result's last digit can have. -/
def etiny (c : Context) : ℤ := c.emin - (c.prec - 1)

/-- The exponent of the last digit that is kept of `x`. -/
def ulp (c : Context) (x : ℚ) : ℤ := max (Int.log 10 |x| - (c.prec - 1)) c.etiny

def nearest (c : Context) (x : ℚ) : ℚ := roundHalfEven (x / 10 ^ c.ulp x) * 10 ^ c.ulp x

/-- Half a unit of the last digit that is kept of `x`. -/
def halfUnit (c : Context) (x : ℚ) : ℚ := 10 ^ c.ulp x / 2

/-- The result of an operation whose exact value is `x`; `none` is an
overflow. -/
def round (c : Context) (x : ℚ) : Option ℚ :=
  if c.emax < Int.log 10 |c.nearest x| then none else some (c.nearest x)

theorem eq_nearest_of_round (h : c.round x = some y) : y = c.nearest x := by
  unfold round at h
  split at h
  · cases h
  · exact (Option.some.inj h).symm

theorem ten_zpow_pos (e : ℤ) : (0 : ℚ) < 10 ^ e := zpow_pos (by norm_num) e

theorem le_nearest (h : n * (10 : ℚ) ^ c.ulp x ≤ x) : n * (10 : ℚ) ^ c.ulp x ≤ c.nearest x := by
  have hpos := ten_zpow_pos (c.ulp x)
  have hint : n ≤ roundHalfEven (x / 10 ^ c.ulp x) :=
    le_roundHalfEven ((le_div_iff₀ hpos).mpr h)
  unfold nearest
  exact mul_le_mul_of_nonneg_right (by exact_mod_cast hint) hpos.le

theorem nearest_le (h : x ≤ n * (10 : ℚ) ^ c.ulp x) : c.nearest x ≤ n * (10 : ℚ) ^ c.ulp x := by
  have hpos := ten_zpow_pos (c.ulp x)
  have hint : roundHalfEven (x / 10 ^ c.ulp x) ≤ n :=
    roundHalfEven_le ((div_le_iff₀ hpos).mpr h)
  unfold nearest
  exact mul_le_mul_of_nonneg_right (by exact_mod_cast hint) hpos.le

/-- A point of the grid is a multiple of the unit in the last place. -/
theorem exists_mul_ulp (he : c.ulp x ≤ e) :
    ∃ N : ℤ, n * (10 : ℚ) ^ e = N * (10 : ℚ) ^ c.ulp x := by
  obtain ⟨d, hd⟩ := Int.le.dest he
  refine ⟨n * 10 ^ d, ?_⟩
  rw [← hd, zpow_add₀ (by norm_num : (10 : ℚ) ≠ 0), zpow_natCast]
  push_cast
  ring

theorem nearest_eq_self (hx : x = n * 10 ^ e) (he : c.ulp x ≤ e) : c.nearest x = x := by
  obtain ⟨N, hN⟩ := exists_mul_ulp (n := n) he
  have hgrid : x = N * (10 : ℚ) ^ c.ulp x := hx.trans hN
  refine le_antisymm ?_ ?_
  · exact (nearest_le hgrid.le).trans hgrid.ge
  · exact hgrid.le.trans (le_nearest hgrid.ge)

theorem ulp_le (he : c.etiny ≤ e) (hx : |x| < 10 ^ (e + c.prec)) (hx0 : x ≠ 0) :
    c.ulp x ≤ e := by
  have hlog : Int.log 10 |x| < e + c.prec := by
    refine (Int.lt_zpow_iff_log_lt (b := 10) (by norm_num) (abs_pos.mpr hx0)).mp ?_
    exact_mod_cast hx
  unfold ulp
  exact max_le (by omega) he

@[simp] theorem nearest_zero : c.nearest 0 = 0 := by
  simp [nearest, roundHalfEven]

/-- A result in range is not an overflow. -/
theorem round_of_nearest (hnearest : c.nearest x = y) (hrange : |y| < 10 ^ (c.emax + 1)) :
    c.round x = some y := by
  have hlog : Int.log 10 |y| ≤ c.emax := by
    by_cases hy0 : y = 0
    · simpa [hy0] using c.emax_nonneg
    · refine Int.lt_add_one_iff.mp ?_
      refine (Int.lt_zpow_iff_log_lt (b := 10) (by norm_num) (abs_pos.mpr hy0)).mp ?_
      exact_mod_cast hrange
  unfold round
  rw [hnearest, if_neg (not_lt.mpr hlog)]

/-- A number of at most `prec` digits, in range, is its own rounding. -/
theorem round_eq_self (hx : x = n * 10 ^ e) (he : c.etiny ≤ e) (hdigits : |x| < 10 ^ (e + c.prec))
    (hrange : |x| < 10 ^ (c.emax + 1)) : c.round x = some x := by
  refine round_of_nearest ?_ hrange
  by_cases hx0 : x = 0
  · rw [hx0, nearest_zero]
  · exact nearest_eq_self hx (ulp_le he hdigits hx0)

@[simp] theorem round_zero : c.round 0 = some 0 :=
  round_of_nearest nearest_zero (by rw [abs_zero]; exact ten_zpow_pos _)

theorem nearest_nonneg (hx : 0 ≤ x) : 0 ≤ c.nearest x := by
  have hgrid : ((0 : ℤ) : ℚ) * (10 : ℚ) ^ c.ulp x ≤ x := by simpa using hx
  simpa using le_nearest hgrid

theorem abs_sub_nearest_le : |x - c.nearest x| ≤ c.halfUnit x := by
  have hpos := ten_zpow_pos (c.ulp x)
  have hround := abs_sub_roundHalfEven_le (x / 10 ^ c.ulp x)
  have hscale : x - c.nearest x
      = (x / 10 ^ c.ulp x - roundHalfEven (x / 10 ^ c.ulp x)) * 10 ^ c.ulp x := by
    rw [sub_mul, div_mul_cancel₀ _ hpos.ne', nearest]
  rw [hscale, abs_mul, abs_of_pos hpos, halfUnit]
  calc |x / 10 ^ c.ulp x - roundHalfEven (x / 10 ^ c.ulp x)| * 10 ^ c.ulp x
      ≤ 1 / 2 * 10 ^ c.ulp x := mul_le_mul_of_nonneg_right hround hpos.le
    _ = 10 ^ c.ulp x / 2 := by ring

/-- A point of a coarser grid is an even one, so it wins its ties. -/
theorem nearest_eq_of_coarse (hy : y = n * 10 ^ e) (he : c.ulp x < e)
    (hclose : |x - y| ≤ c.halfUnit x) : c.nearest x = y := by
  have hpos := ten_zpow_pos (c.ulp x)
  obtain ⟨d, hd⟩ := Int.le.dest (Int.add_one_le_iff.mpr he)
  have hgrid : y = ((n * 10 ^ d * 10 : ℤ) : ℚ) * (10 : ℚ) ^ c.ulp x := by
    rw [hy, ← hd, zpow_add₀ (by norm_num : (10 : ℚ) ≠ 0),
      zpow_add₀ (by norm_num : (10 : ℚ) ≠ 0), zpow_natCast, zpow_one]
    push_cast
    ring
  have hunits : |x / 10 ^ c.ulp x - ((n * 10 ^ d * 10 : ℤ) : ℚ)| ≤ 1 / 2 := by
    have hscale : x / 10 ^ c.ulp x - ((n * 10 ^ d * 10 : ℤ) : ℚ) = (x - y) / 10 ^ c.ulp x := by
      rw [sub_div, hgrid, mul_div_cancel_right₀ _ hpos.ne']
    rw [hscale, abs_div, abs_of_pos hpos, div_le_iff₀ hpos]
    calc |x - y| ≤ c.halfUnit x := hclose
      _ = 1 / 2 * 10 ^ c.ulp x := by unfold halfUnit; ring
  have heven : (n * 10 ^ d * 10) % 2 = 0 := by omega
  rw [nearest, roundHalfEven_of_even heven hunits, ← hgrid]

/-- What is close to a small number has a small unit. -/
theorem ulp_lt_of_close (htiny : c.etiny < e) (hprec : 2 ≤ c.prec) (hk : 0 ≤ k)
    (hdigits : k + 2 ≤ e + c.prec) (hy : |y| < 10 ^ k) (hclose : |x - y| ≤ c.halfUnit x) :
    c.ulp x < e := by
  have hprec' : (2 : ℤ) ≤ c.prec := by exact_mod_cast hprec
  rw [← not_le]
  intro hulp
  have hlog : c.ulp x = Int.log 10 |x| - (c.prec - 1) := by
    unfold ulp at hulp ⊢
    omega
  by_cases hx0 : x = 0
  · rw [hx0] at hlog hulp
    simp only [abs_zero, Int.log_zero_right] at hlog
    omega
  · -- `x` is at least ten times `p`, which bounds both `y` and the unit
    set p : ℚ := 10 ^ (c.ulp x + c.prec - 2) with hp
    have hyp : (10 : ℚ) ^ k ≤ p := zpow_le_zpow_right₀ (by norm_num) (by omega)
    have hup : (10 : ℚ) ^ c.ulp x ≤ p := zpow_le_zpow_right₀ (by norm_num) (by omega)
    have hxp : 10 * p ≤ |x| := by
      have hlead : (10 : ℚ) ^ Int.log 10 |x| ≤ |x| := by
        exact_mod_cast Int.zpow_log_le_self (b := 10) (by norm_num) (abs_pos.mpr hx0)
      have hten : (10 : ℚ) * p = 10 ^ Int.log 10 |x| := by
        rw [hp, show Int.log 10 |x| = 1 + (c.ulp x + c.prec - 2) by omega,
          zpow_add₀ (by norm_num : (10 : ℚ) ≠ 0), zpow_one]
      rw [hten]
      exact hlead
    have hpos : 0 < p := ten_zpow_pos _
    have htriangle : |x| ≤ |x - y| + |y| := by
      calc |x| = |x - y + y| := by rw [sub_add_cancel]
        _ ≤ |x - y| + |y| := abs_add_le _ _
    unfold halfUnit at hclose
    linarith

/-- What is rounded to a number of few digits lies within half a unit of
it, and nothing else does. -/
theorem round_eq_some_iff (hy : y = n * 10 ^ e) (hlt : |y| < 10 ^ k) (htiny : c.etiny < e)
    (hprec : 2 ≤ c.prec) (hk : 0 ≤ k) (hdigits : k + 2 ≤ e + c.prec) (hrange : k ≤ c.emax + 1) :
    c.round x = some y ↔ |x - y| ≤ c.halfUnit x := by
  constructor
  · intro hround
    rw [eq_nearest_of_round hround]
    exact abs_sub_nearest_le
  · intro hclose
    have hulp := ulp_lt_of_close htiny hprec hk hdigits hlt hclose
    refine round_of_nearest (nearest_eq_of_coarse hy hulp hclose) (hlt.trans_le ?_)
    exact zpow_le_zpow_right₀ (by norm_num) hrange

/-- Between a power of ten and a magnitude at or above it lies a point
of the grid. -/
theorem exists_grid_point (hk : c.etiny ≤ k) (hx : 10 ^ k ≤ |x|) :
    ∃ N : ℤ, 10 ^ k ≤ N * (10 : ℚ) ^ c.ulp x ∧ N * (10 : ℚ) ^ c.ulp x ≤ |x| := by
  have hpos : 0 < |x| := lt_of_lt_of_le (ten_zpow_pos k) hx
  have hlog : k ≤ Int.log 10 |x| := by
    refine (Int.zpow_le_iff_le_log (b := 10) (by norm_num) hpos).mp ?_
    exact_mod_cast hx
  have hulp : c.ulp x ≤ Int.log 10 |x| := by
    have hprec := c.prec_pos
    unfold ulp
    exact max_le (by omega) (hk.trans hlog)
  -- the leading digit's power of ten
  obtain ⟨N, hN⟩ := exists_mul_ulp (n := 1) hulp
  rw [Int.cast_one, one_mul] at hN
  refine ⟨N, ?_, ?_⟩
  · rw [← hN]
    exact zpow_le_zpow_right₀ (by norm_num) hlog
  · rw [← hN]
    exact_mod_cast Int.zpow_log_le_self (b := 10) (by norm_num) hpos

/-- Rounding keeps a number at or above a power of ten. -/
theorem zpow_le_nearest (hk : c.etiny ≤ k) (hx : 10 ^ k ≤ x) : 10 ^ k ≤ c.nearest x := by
  have hpos : 0 < x := lt_of_lt_of_le (ten_zpow_pos k) hx
  obtain ⟨N, hlow, hhigh⟩ := exists_grid_point hk (hx.trans (le_abs_self x))
  rw [abs_of_pos hpos] at hhigh
  exact hlow.trans (le_nearest hhigh)

/-- What lies beyond the largest exponent overflows. -/
theorem round_eq_none_of_le (hk : c.etiny ≤ c.emax + 1) (hx : 10 ^ (c.emax + 1) ≤ x) :
    c.round x = none := by
  have hle := zpow_le_nearest hk hx
  have hpos : 0 < c.nearest x := lt_of_lt_of_le (ten_zpow_pos _) hle
  have hlog : c.emax + 1 ≤ Int.log 10 |c.nearest x| := by
    refine (Int.zpow_le_iff_le_log (b := 10) (by norm_num) (abs_pos.mpr hpos.ne')).mp ?_
    rw [abs_of_pos hpos]
    exact_mod_cast hle
  exact if_pos (by omega)

end Context

/-! ## Any arithmetic -/

/-- What an operation makes of its exact result; `none` is an overflow. -/
structure Rounding where
  round : ℚ → Option ℚ
  round_zero : round 0 = some 0
  round_nonneg : ∀ x y, 0 ≤ x → round x = some y → 0 ≤ y

/-- Nothing is rounded. -/
def Rounding.exact : Rounding where
  round := some
  round_zero := rfl
  round_nonneg := by
    rintro x y hx ⟨⟩
    exact hx

@[simp] theorem Rounding.exact_round (x : ℚ) : Rounding.exact.round x = some x := rfl

/-- `x` with the numbers added to it one after the other. -/
def Rounding.addAll (rd : Rounding) (x : ℚ) (ys : List ℚ) : Option ℚ :=
  ys.foldlM (fun x y => rd.round (x + y)) x

@[simp] theorem Rounding.addAll_nil (rd : Rounding) (x : ℚ) : rd.addAll x [] = some x := rfl

theorem Rounding.addAll_append (rd : Rounding) (x : ℚ) (ys zs : List ℚ) :
    rd.addAll x (ys ++ zs) = (rd.addAll x ys).bind fun y => rd.addAll y zs :=
  List.foldlM_append

@[simp] theorem Rounding.addAll_singleton (rd : Rounding) (x y : ℚ) :
    rd.addAll x [y] = rd.round (x + y) := by
  simp [addAll]

/-- No sum on the way is rounded. -/
def Rounding.AddsExactly (rd : Rounding) (x : ℚ) (ys : List ℚ) : Prop :=
  ∀ l y r, ys = l ++ y :: r → rd.round (x + (l ++ [y]).sum) = some (x + (l ++ [y]).sum)

theorem Rounding.AddsExactly.addAll {rd : Rounding} {x : ℚ} {ys : List ℚ}
    (h : rd.AddsExactly x ys) : rd.addAll x ys = some (x + ys.sum) := by
  induction ys using List.reverseRecOn with
  | nil => simp
  | append_singleton ys y ih =>
      have hfront : rd.AddsExactly x ys := by
        rintro l z r rfl
        exact h l z (r ++ [y]) (by simp)
      have hlast := h ys y [] rfl
      rw [addAll_append, ih hfront, Option.bind_some, addAll_singleton, add_assoc]
      simpa using hlast

/-- The arithmetic of a context. -/
def Context.rounding (c : Context) : Rounding where
  round := c.round
  round_zero := Context.round_zero
  round_nonneg := by
    intro x y hx hround
    rw [Context.eq_nearest_of_round hround]
    exact Context.nearest_nonneg hx

/-! ## Fixed-point numbers -/

/-- A number of at most `s` decimal places. -/
def HasScale (s : ℕ) (x : ℚ) : Prop := ∃ n : ℤ, x = n * 10 ^ (-s : ℤ)

theorem HasScale.add {s : ℕ} {x y : ℚ} (hx : HasScale s x) (hy : HasScale s y) :
    HasScale s (x + y) := by
  obtain ⟨n, rfl⟩ := hx
  obtain ⟨k, rfl⟩ := hy
  exact ⟨n + k, by push_cast; ring⟩

theorem HasScale.sub {s : ℕ} {x y : ℚ} (hx : HasScale s x) (hy : HasScale s y) :
    HasScale s (x - y) := by
  obtain ⟨n, rfl⟩ := hx
  obtain ⟨k, rfl⟩ := hy
  exact ⟨n - k, by push_cast; ring⟩

theorem HasScale.neg {s : ℕ} {x : ℚ} (hx : HasScale s x) : HasScale s (-x) := by
  obtain ⟨n, rfl⟩ := hx
  exact ⟨-n, by push_cast; ring⟩

theorem hasScale_intCast (s : ℕ) (n : ℤ) : HasScale s n := by
  refine ⟨n * 10 ^ s, ?_⟩
  rw [zpow_neg, zpow_natCast]
  push_cast
  rw [mul_inv_cancel_right₀ (by positivity)]

theorem HasScale.sum {ι : Type*} {s : ℕ} {f : ι → ℚ} (A : Finset ι)
    (h : ∀ i ∈ A, HasScale s (f i)) : HasScale s (∑ i ∈ A, f i) := by
  classical
  induction A using Finset.induction_on with
  | empty => exact_mod_cast hasScale_intCast s 0
  | insert i A hi ih =>
      rw [Finset.sum_insert hi]
      exact (h i (Finset.mem_insert_self i A)).add
        (ih fun j hj => h j (Finset.mem_insert_of_mem hj))

/-- Few enough digits after the point and before it. -/
theorem HasScale.round_eq_self {c : Context} {s : ℕ} {x : ℚ} (hx : HasScale s x)
    (htiny : c.etiny ≤ -s) (hdigits : |x| < 10 ^ (-s + c.prec : ℤ))
    (hrange : |x| < 10 ^ (c.emax + 1)) : c.round x = some x := by
  obtain ⟨n, hn⟩ := hx
  exact Context.round_eq_self hn htiny hdigits hrange

end Httpe.Decimal
