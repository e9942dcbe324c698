/-
Httpe.Occ.Numeric — what the `accounts` table of
`schemas/ddl/001-accounts.sql` would accept, against what the shard
commits.

The table keeps `available_balance` as NUMERIC(18, 4) and checks that it
is not negative. The shard computes in Python's default decimal context,
which rounds every sum to 28 significant digits and raises on overflow.

`onlyAcceptable_iff_amountsFit` is the exact condition, call by call: the
balance and the signed amount must add up to a number the table accepts,
up to half a unit in the 28th digit. The debit tests one half of the lower
bound and the credit tests nothing.
-/
import Httpe.Occ.Accounting

namespace Httpe.Occ

open Decimal

/-! ## The table's constraints -/

/-- A value of NUMERIC(18, 4). -/
def Numeric (x : ℚ) : Prop := HasScale 4 x ∧ |x| < 10 ^ 14

/-- What the `accounts` table accepts as `available_balance`. -/
def Accepted (balance : ℚ) : Prop := Numeric balance ∧ 0 ≤ balance

def TableAccepts (db : MockDatabaseShard) : Prop :=
  ∀ a row, db.store a = some row → Accepted row.availableBalance

/-- The call has no balance to write that the table accepts. -/
def WouldViolate (c : CasCall) (row : AccountRecord) : Prop :=
  ∀ balance, c.newBalance decimalContext.rounding row = some balance → ¬ Accepted balance

/-- Every state reached is one the table accepts, and a call that would
violate its constraints returns `False` and leaves the store. -/
def OnlyAcceptable (tr : List CasTransition) : Prop :=
  (∀ t ∈ tr, TableAccepts t.post) ∧
    ∀ t ∈ tr, ∀ row, t.pre.store t.event.accountId = some row → WouldViolate t.event row →
      t.event.execute decimalContext.rounding t.pre = (.ok false, t.pre)

/-- Some number of at most four decimals from zero up to 10 ^ 14 lies
within half a unit, in the 28th digit, of the balance and the signed
amount added up. -/
def AmountFits (c : CasCall) (row : AccountRecord) : Prop :=
  ∃ y, HasScale 4 y ∧ 0 ≤ y ∧ y < 10 ^ 14 ∧
    |row.availableBalance + c.delta - y|
      ≤ decimalContext.halfUnit (row.availableBalance + c.delta)

/-- Every call whose guards pass has an amount that fits. -/
def AmountsFit (tr : List CasTransition) : Prop :=
  ∀ t ∈ tr, ∀ row, t.pre.store t.event.accountId = some row → t.event.Admits row →
    AmountFits t.event row

variable {c : CasCall} {db db₀ : MockDatabaseShard} {row : AccountRecord} {x y : ℚ}
  {tr : List CasTransition} {t : CasTransition}

/-! ## Rounding to a balance -/

theorem accepted_iff : Accepted y ↔ HasScale 4 y ∧ 0 ≤ y ∧ y < 10 ^ 14 := by
  constructor
  · rintro ⟨⟨hscale, habs⟩, hnonneg⟩
    exact ⟨hscale, hnonneg, (abs_lt.mp habs).2⟩
  · rintro ⟨hscale, hnonneg, hlt⟩
    exact ⟨⟨hscale, by rwa [abs_of_nonneg hnonneg]⟩, hnonneg⟩

/-- What is rounded to a balance the table accepts. -/
theorem round_eq_accepted_iff (hy : Accepted y) :
    decimalContext.round x = some y ↔ |x - y| ≤ decimalContext.halfUnit x := by
  obtain ⟨⟨⟨n, hn⟩, habs⟩, -⟩ := hy
  exact Context.round_eq_some_iff (e := -4) (k := 14) hn (by exact_mod_cast habs) (by decide)
    (by decide) (by decide) (by decide) (by decide)

/-- An amount fits exactly when the balance it leads to is accepted. -/
theorem amountFits_iff : AmountFits c row ↔
    ∃ balance, c.newBalance decimalContext.rounding row = some balance ∧ Accepted balance := by
  constructor
  · rintro ⟨y, hscale, hnonneg, hlt, hclose⟩
    have hy : Accepted y := accepted_iff.mpr ⟨hscale, hnonneg, hlt⟩
    exact ⟨y, (round_eq_accepted_iff hy).mpr hclose, hy⟩
  · rintro ⟨balance, hround, haccepted⟩
    obtain ⟨hscale, hnonneg, hlt⟩ := accepted_iff.mp haccepted
    exact ⟨balance, hscale, hnonneg, hlt, (round_eq_accepted_iff haccepted).mp hround⟩

theorem not_wouldViolate_iff : ¬ WouldViolate c row ↔ AmountFits c row := by
  rw [amountFits_iff]
  unfold WouldViolate
  push Not
  rfl

/-! ## One call -/

/-- A call whose amount fits keeps the table's constraints. -/
theorem TableAccepts.step (h : TableAccepts t.pre)
    (hstep : casStep decimalContext.rounding t.pre t.event = some t.post)
    (hfits : ∀ row, t.pre.store t.event.accountId = some row → t.event.Admits row →
      AmountFits t.event row) : TableAccepts t.post := by
  obtain ⟨pre, c, post⟩ := t
  obtain rfl : (c.execute decimalContext.rounding pre).2 = post := Option.some.inj hstep
  rcases c.execute_commits_or_keeps decimalContext.rounding pre with
    ⟨row, balance, hrow, hcommits, hex⟩ | ⟨-, hkept⟩
  · obtain ⟨balance', hbalance, haccepted⟩ := amountFits_iff.mp (hfits row hrow hcommits.admits)
    rw [hcommits.newBalance, Option.some.injEq] at hbalance
    intro a row' hrow'
    simp only [hex] at hrow'
    by_cases ha : a = c.accountId
    · rw [ha, MockDatabaseShard.put_store_self] at hrow'
      cases hrow'
      exact hbalance ▸ haccepted
    · rw [MockDatabaseShard.put_store_of_ne _ ha] at hrow'
      exact h a row' hrow'
  · simp only [hkept]
    exact h

/-- A call that answers as it should has an amount that fits. -/
theorem amountFits_of_acceptable (hrow : t.pre.store t.event.accountId = some row)
    (hadm : t.event.Admits row)
    (hcomplies : WouldViolate t.event row →
      t.event.execute decimalContext.rounding t.pre = (.ok false, t.pre)) :
    AmountFits t.event row := by
  refine not_wouldViolate_iff.mp fun hviolates => ?_
  -- its guards pass, so it returns `True` or raises
  have hfalse := hcomplies hviolates
  rw [CasCall.execute_of_admits hrow hadm] at hfalse
  cases hbalance : t.event.newBalance decimalContext.rounding row with
  | none => rw [hbalance] at hfalse; cases hfalse
  | some balance => rw [hbalance] at hfalse; cases hfalse

/-! ## A run of calls -/

theorem tableAccepts_of_run (hdb : TableAccepts db₀)
    (hrun : Run (casStep decimalContext.rounding) db₀ tr db)
    (hposts : ∀ t ∈ tr, TableAccepts t.post) : TableAccepts db := by
  cases hrun with
  | refl => exact hdb
  | @tail tr s _ e hr hs => exact hposts ⟨s, e, db⟩ (by simp)

theorem tableAccepts_of_amountsFit (hdb : TableAccepts db₀)
    (hrun : Run (casStep decimalContext.rounding) db₀ tr db) (hfits : AmountsFit tr) :
    TableAccepts db := by
  refine hrun.invariant_of_forall (fun t : CasTransition =>
    ∀ row, t.pre.store t.event.accountId = some row → t.event.Admits row →
      AmountFits t.event row) (fun _ db => TableAccepts db) hdb ?_ hfits
  exact fun tr s e s' _ ih hstep hfit => TableAccepts.step (t := ⟨s, e, s'⟩) ih hstep hfit

/-- The amounts that need no rounding: for them the condition is the
plain range. -/
theorem amountFits_iff_of_scale (hrow : Accepted row.availableBalance)
    (hscale : HasScale 4 c.delta) :
    AmountFits c row ↔
      -row.availableBalance ≤ c.delta ∧ c.delta < 10 ^ 14 - row.availableBalance := by
  set sum := row.availableBalance + c.delta with hsum
  have hsumscale : HasScale 4 sum := hrow.1.1.add hscale
  constructor
  · rintro ⟨y, hyscale, hnonneg, hlt, hclose⟩
    have hy : Accepted y := accepted_iff.mpr ⟨hyscale, hnonneg, hlt⟩
    have hulp : decimalContext.ulp sum < -4 :=
      Context.ulp_lt_of_close (k := 14) (by decide) (by decide) (by decide) (by decide)
        (by exact_mod_cast hy.1.2) hclose
    have hunit : decimalContext.halfUnit sum ≤ 1 := by
      have hpow : (10 : ℚ) ^ decimalContext.ulp sum ≤ 10 ^ (-4 : ℤ) :=
        zpow_le_zpow_right₀ (by norm_num) hulp.le
      unfold Context.halfUnit
      norm_num at hpow
      linarith
    obtain ⟨hlow, hhigh⟩ := abs_le.mp (hclose.trans hunit)
    -- a sum of four decimals is not rounded
    have hexact : decimalContext.round sum = some sum :=
      decimalContext_round_of_scale hsumscale (abs_lt.mpr ⟨by linarith, by linarith⟩)
    have heq := (round_eq_accepted_iff hy).mpr hclose
    rw [hexact, Option.some.injEq] at heq
    constructor <;> linarith
  · rintro ⟨hlow, hhigh⟩
    refine ⟨sum, hsumscale, by linarith, by linarith, ?_⟩
    rw [← hsum, sub_self, abs_zero]
    exact div_nonneg (Context.ten_zpow_pos _).le (by norm_num)

/-- **Exactly when the shard commits only what the table would accept.**
For a call whose amount has at most four decimals the condition is that
the balance it leads to lies between zero and 10 ^ 14. -/
theorem onlyAcceptable_iff_amountsFit (hdb : TableAccepts db₀)
    (hrun : Run (casStep decimalContext.rounding) db₀ tr db) :
    (OnlyAcceptable tr ↔ AmountsFit tr) ∧
    ∀ c row, Accepted row.availableBalance → HasScale 4 (CasCall.delta c) →
      (AmountFits c row ↔
        -row.availableBalance ≤ c.delta ∧ c.delta < 10 ^ 14 - row.availableBalance) := by
  refine ⟨⟨fun ⟨_, hcomplies⟩ t ht row hrow hadm => ?_, fun hfits => ?_⟩,
    fun c row hrow hscale => amountFits_iff_of_scale hrow hscale⟩
  · exact amountFits_of_acceptable hrow hadm (hcomplies t ht row hrow)
  · have hreach : ∀ t ∈ tr, TableAccepts t.pre := by
      intro t ht
      obtain ⟨l, r, rfl, hreached, -⟩ := hrun.reached_of_mem ht
      exact tableAccepts_of_amountsFit hdb hreached fun u hu => hfits u (by simp [hu])
    refine ⟨fun t ht => ?_, fun t ht row hrow hviolates => ?_⟩
    · exact (hreach t ht).step (hrun.step_of_mem t ht) (hfits t ht)
    · refine CasCall.execute_of_not_admits fun row' hrow' hadm => ?_
      rw [hrow] at hrow'
      cases hrow'
      exact not_wouldViolate_iff.mpr (hfits t ht row hrow hadm) hviolates

/-- The source's shard with INR 1000.00 in the account. -/
def thousandShard : MockDatabaseShard :=
  MockDatabaseShard.empty.insertAccount ⟨"acc-1", "usr-101", 1000, 1000, 1, .active⟩

theorem thousandShard_accepts : TableAccepts thousandShard := by
  intro a row hrow
  by_cases ha : a = "acc-1"
  · subst ha
    simp only [thousandShard, MockDatabaseShard.insertAccount, MockDatabaseShard.put_store_self,
      Option.some.injEq] at hrow
    subst hrow
    refine ⟨⟨⟨10000000, ?_⟩, ?_⟩, ?_⟩ <;> norm_num
  · rw [thousandShard, MockDatabaseShard.insertAccount,
      MockDatabaseShard.put_store_of_ne _ ha] at hrow
    cases hrow

/-- A credit of minus 2000 returns `True` and leaves minus 1000. -/
theorem not_onlyAcceptable_negativeCredit :
    let run := exec (casStep decimalContext.rounding) thousandShard [.credit "acc-1" (-2000) 1]
    TableAccepts thousandShard ∧ Run (casStep decimalContext.rounding) thousandShard run.1 run.2 ∧
    ((CasCall.credit "acc-1" (-2000) 1).execute decimalContext.rounding thousandShard).1
      = .ok true ∧
    (run.2.store "acc-1").map (·.availableBalance) = some (-1000) ∧
    ¬ OnlyAcceptable run.1 := by
  intro run
  have hbalance : (run.2.store "acc-1").map (·.availableBalance) = some (-1000) := by
    decide +kernel
  have hrun : Run (casStep decimalContext.rounding) thousandShard run.1 run.2 := run_exec _ _ _
  refine ⟨thousandShard_accepts, hrun, by decide +kernel, hbalance, fun honly => ?_⟩
  obtain ⟨row, hrow, hnegative⟩ := Option.map_eq_some_iff.mp hbalance
  have hnonneg := (tableAccepts_of_run thousandShard_accepts hrun honly.1 "acc-1" row hrow).2
  rw [hnegative] at hnonneg
  exact absurd hnonneg (by norm_num)

theorem onlyAcceptable_iff_amountsFit_negativeCredit :
    let run := exec (casStep decimalContext.rounding) thousandShard [.credit "acc-1" (-2000) 1]
    OnlyAcceptable run.1 ↔ AmountsFit run.1 := by
  intro run
  exact (onlyAcceptable_iff_amountsFit thousandShard_accepts (run_exec _ _ _)).1

end Httpe.Occ
