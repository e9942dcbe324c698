/-
Httpe.Occ.Accounting — what any sequence of `execute_occ_debit` and
`execute_occ_credit` calls does to the balances.

The calls come from anywhere, in any order, with any expected version.
`Accounted` ties one account's row to the history of calls made so far:
the balance is the initial one plus the credits minus the debits that
returned `True`, the version counts those calls, and every version a
winning call named is behind the row's own version. That last field is
what makes a second winner on one version impossible: the compare needs
the row's version, and it has already moved past.

The balance alone asks for exact arithmetic, that is, for a history none
of whose sums was rounded (`ExactSum`).
-/
import Httpe.Lib.Run
import Httpe.Occ.Shard
import Mathlib.Algebra.BigOperators.Group.List.Basic

namespace Httpe.Occ

open Decimal

/-- A call is always enabled; one that refuses or raises leaves the
store. -/
def casStep (rd : Rounding) (db : MockDatabaseShard) (c : CasCall) : Option MockDatabaseShard :=
  some (c.execute rd db).2

abbrev CasTransition := Transition MockDatabaseShard CasCall

/-- The call returned `True`. -/
def returnedTrue (rd : Rounding) (t : CasTransition) : Bool :=
  (t.event.execute rd t.pre).1 = .ok true

/-- What the call adds to the row it finds is not rounded. -/
def ExactSum (rd : Rounding) (t : CasTransition) : Prop :=
  ∀ row, t.pre.store t.event.accountId = some row → t.event.Admits row →
    t.event.newBalance rd row = some (row.availableBalance + t.event.delta)

instance (rd : Rounding) (t : CasTransition) : Decidable (ExactSum rd t) :=
  inferInstanceAs (Decidable (∀ row ∈ t.pre.store t.event.accountId, _ → _))

/-- What a call that returned `True` credited to `a`. -/
def creditOf (rd : Rounding) (a : String) (t : CasTransition) : ℚ :=
  match t.event with
  | .credit b x _ => if b = a ∧ returnedTrue rd t then x else 0
  | .debit _ _ _ => 0

/-- What a call that returned `True` debited from `a`. -/
def debitOf (rd : Rounding) (a : String) (t : CasTransition) : ℚ :=
  match t.event with
  | .debit b x _ => if b = a ∧ returnedTrue rd t then x else 0
  | .credit _ _ _ => 0

/-- The sum of the amounts credited to `a` by calls that returned `True`. -/
def creditedTo (rd : Rounding) (a : String) (tr : List CasTransition) : ℚ :=
  (tr.map (creditOf rd a)).sum

/-- The sum of the amounts debited from `a` by calls that returned `True`. -/
def debitedFrom (rd : Rounding) (a : String) (tr : List CasTransition) : ℚ :=
  (tr.map (debitOf rd a)).sum

/-- How many calls on `a` returned `True`. -/
def committedOn (rd : Rounding) (a : String) (tr : List CasTransition) : ℕ :=
  tr.countP fun t => t.event.accountId = a ∧ returnedTrue rd t

/-- How many calls on `a` with expected version `v` returned `True`. -/
def winners (rd : Rounding) (a : String) (v : ℤ) (tr : List CasTransition) : ℕ :=
  tr.countP fun t => t.event.accountId = a ∧ t.event.expectedVersion = v ∧ returnedTrue rd t

/-! ## One call at the end of a history -/

section Snoc

variable {rd : Rounding} {a : String} {tr : List CasTransition} {t : CasTransition}

theorem creditOf_sub_debitOf (rd : Rounding) (a : String) (t : CasTransition) :
    creditOf rd a t - debitOf rd a t
      = if t.event.accountId = a ∧ returnedTrue rd t then t.event.delta else 0 := by
  obtain ⟨pre, c, post⟩ := t
  by_cases h : c.accountId = a ∧ returnedTrue rd ⟨pre, c, post⟩ = true
  · obtain ⟨rfl, ht⟩ := h
    cases c <;> simp [creditOf, debitOf, CasCall.accountId, CasCall.delta, ht]
  · cases c <;> simp only [CasCall.accountId] at h <;>
      simp [creditOf, debitOf, CasCall.accountId, h]

/-- A call moves the net sum by its signed amount if it returned `True`
on `a`, and not at all otherwise. -/
theorem net_snoc (rd : Rounding) (a : String) (tr : List CasTransition) (t : CasTransition) :
    creditedTo rd a (tr ++ [t]) - debitedFrom rd a (tr ++ [t])
      = creditedTo rd a tr - debitedFrom rd a tr
        + if t.event.accountId = a ∧ returnedTrue rd t then t.event.delta else 0 := by
  rw [← creditOf_sub_debitOf]
  simp only [creditedTo, debitedFrom, List.map_append, List.sum_append, List.map_cons,
    List.map_nil, List.sum_cons, List.sum_nil]
  ring

theorem committedOn_snoc (h : returnedTrue rd t = true) (ha : t.event.accountId = a) :
    committedOn rd a (tr ++ [t]) = committedOn rd a tr + 1 := by
  simp [committedOn, h, ha]

theorem committedOn_snoc_of_not (h : ¬ (t.event.accountId = a ∧ returnedTrue rd t = true)) :
    committedOn rd a (tr ++ [t]) = committedOn rd a tr := by
  simp [committedOn, h]

end Snoc

/-! ## The step lemma -/

/-- `row` is what the calls in `tr` make of account `a`'s initial row. -/
structure Accounted (rd : Rounding) (a : String) (row₀ : AccountRecord) (tr : List CasTransition)
    (row : AccountRecord) : Prop where
  balance : (∀ t ∈ tr, ExactSum rd t) → row.availableBalance
    = row₀.availableBalance + (creditedTo rd a tr - debitedFrom rd a tr)
  version : row.version = row₀.version + committedOn rd a tr
  nonneg : 0 ≤ row.availableBalance
  accountId : row.accountId = row₀.accountId
  userId : row.userId = row₀.userId
  ledgerBalance : row.ledgerBalance = row₀.ledgerBalance
  status : row.status = row₀.status
  behind : ∀ t ∈ tr, t.event.accountId = a → returnedTrue rd t = true →
    t.event.expectedVersion < row.version
  unique : ∀ v, winners rd a v tr ≤ 1

variable {rd : Rounding} {a : String} {row₀ row : AccountRecord} {tr : List CasTransition}
  {db db₀ : MockDatabaseShard}

/-- No winner has named the row's present version yet. -/
theorem Accounted.winners_eq_zero (h : Accounted rd a row₀ tr row) :
    winners rd a row.version tr = 0 := by
  rw [winners, List.countP_eq_zero]
  intro t ht hp
  simp only [decide_eq_true_eq] at hp
  exact absurd hp.2.1 (h.behind t ht hp.1 hp.2.2).ne

/-- A winning call on `a` extends the account's history. -/
theorem Accounted.commit (h : Accounted rd a row₀ tr row) {t : CasTransition} {balance : ℚ}
    (hta : t.event.accountId = a) (hrow : t.pre.store a = some row)
    (hcommits : t.event.Commits rd row balance) (hpos : 0 < t.event.amount)
    (htrue : returnedTrue rd t = true) : Accounted rd a row₀ (tr ++ [t]) (row.updated balance) := by
  have hver : row.version = t.event.expectedVersion := hcommits.admits.version_eq
  refine { h with
    balance := ?_, version := ?_, nonneg := hcommits.balance_nonneg hpos h.nonneg,
    behind := ?_, unique := ?_ }
  · intro hexact
    have hsum : t.event.newBalance rd row = some (row.availableBalance + t.event.delta) :=
      hexact t (by simp) row (hta ▸ hrow) hcommits.admits
    rw [hcommits.newBalance, Option.some.injEq] at hsum
    rw [net_snoc, if_pos ⟨hta, htrue⟩, AccountRecord.updated_availableBalance, hsum,
      h.balance fun u hu => hexact u (List.mem_append_left _ hu)]
    ring
  · rw [committedOn_snoc htrue hta, AccountRecord.updated_version, h.version]
    push_cast
    ring
  · rw [AccountRecord.updated_version]
    refine forall_mem_snoc (fun u hu hua hutrue => ?_) fun _ _ => ?_
    · exact (h.behind u hu hua hutrue).trans (Int.lt_succ _)
    · rw [← hver]
      exact Int.lt_succ _
  · intro v
    by_cases hv : t.event.expectedVersion = v
    · have h0 : winners rd a v tr = 0 := by rw [← hv, ← hver]; exact h.winners_eq_zero
      simp only [winners] at h0 ⊢
      rw [List.countP_append, h0, zero_add, List.countP_singleton]
      split_ifs <;> simp
    · have h1 := h.unique v
      simp only [winners] at h1 ⊢
      simpa [hv] using h1

/-- A call that refused, or that was on another account, keeps it. -/
theorem Accounted.keep (h : Accounted rd a row₀ tr row) {t : CasTransition}
    (hnot : ¬ (t.event.accountId = a ∧ returnedTrue rd t = true)) :
    Accounted rd a row₀ (tr ++ [t]) row := by
  refine { h with balance := ?_, version := ?_, behind := ?_, unique := ?_ }
  · intro hexact
    rw [net_snoc, if_neg hnot, add_zero]
    exact h.balance fun u hu => hexact u (List.mem_append_left _ hu)
  · rw [committedOn_snoc_of_not hnot]; exact h.version
  · exact forall_mem_snoc h.behind fun hua hutrue => absurd ⟨hua, hutrue⟩ hnot
  · intro v
    have hnot' : ¬ (t.event.accountId = a ∧ t.event.expectedVersion = v ∧
        returnedTrue rd t = true) := fun hp => hnot ⟨hp.1, hp.2.2⟩
    have h1 := h.unique v
    simp only [winners] at h1 ⊢
    simpa [hnot'] using h1

/-! ## Runs -/

/-- The account's row after a run is accounted for by the run's history. -/
theorem accounted_of_run (hrow₀ : db₀.store a = some row₀) (hnonneg : 0 ≤ row₀.availableBalance)
    (hrun : Run (casStep rd) db₀ tr db) (hpos : ∀ t ∈ tr, 0 < t.event.amount) :
    ∃ row, db.store a = some row ∧ Accounted rd a row₀ tr row := by
  refine hrun.invariant_of_forall (fun t => 0 < t.event.amount)
    (fun tr db => ∃ row, db.store a = some row ∧ Accounted rd a row₀ tr row) ?_ ?_ hpos
  · refine ⟨row₀, hrow₀, ?_⟩
    constructor <;> simp [creditedTo, debitedFrom, committedOn, winners, hnonneg]
  · rintro tr db c db' - ⟨row, hrow, hacc⟩ hstep hamount
    obtain rfl : (c.execute rd db).2 = db' := by simpa [casStep] using hstep
    rcases c.execute_commits_or_keeps rd db with
      ⟨crow, balance, hcrow, hcommits, hex⟩ | ⟨hno, hkept⟩
    · have htrue : returnedTrue rd ⟨db, c, (c.execute rd db).2⟩ = true := by
        simp [returnedTrue, hex]
      by_cases hca : c.accountId = a
      · obtain rfl : crow = row := by rw [hca, hrow] at hcrow; exact (Option.some.inj hcrow).symm
        exact ⟨crow.updated balance, by simp [hex, hca],
          hacc.commit hca hrow hcommits hamount htrue⟩
      · refine ⟨row, ?_, hacc.keep fun hp => hca hp.1⟩
        rw [hex, MockDatabaseShard.put_store_of_ne _ (Ne.symm hca)]
        exact hrow
    · refine ⟨row, by rw [hkept]; exact hrow, hacc.keep fun hp => ?_⟩
      simp [returnedTrue, hno] at hp

/-- A refused call changes nothing at all, and an accepted one only the
row it names. -/
theorem casStep_frame {t : CasTransition} (hstep : casStep rd t.pre t.event = some t.post) :
    (returnedTrue rd t = false → t.post = t.pre) ∧
      ∀ b, b ≠ t.event.accountId → t.post.store b = t.pre.store b := by
  obtain ⟨pre, c, post⟩ := t
  obtain rfl : (c.execute rd pre).2 = post := by simpa [casStep] using hstep
  rcases c.execute_commits_or_keeps rd pre with ⟨row, balance, -, -, hex⟩ | ⟨-, hkept⟩
  · refine ⟨by simp [returnedTrue, hex], fun b hb => ?_⟩
    simp [hex, MockDatabaseShard.put_store_of_ne _ hb]
  · exact ⟨fun _ => hkept, fun b _ => by simp [hkept]⟩

/-- An account that no winning call names keeps its row. -/
theorem store_eq_of_no_winner (hrun : Run (casStep rd) db₀ tr db)
    (hnone : ∀ t ∈ tr, returnedTrue rd t = true → t.event.accountId ≠ a) :
    db.store a = db₀.store a := by
  refine hrun.invariant_of_forall (fun t => returnedTrue rd t = true → t.event.accountId ≠ a)
    (fun _ db => db.store a = db₀.store a) rfl ?_ hnone
  intro tr db c db' _ ih hstep hne
  obtain ⟨hfalse, hframe⟩ := casStep_frame (t := ⟨db, c, db'⟩) hstep
  cases htrue : returnedTrue rd ⟨db, c, db'⟩ with
  | true => exact (hframe a (Ne.symm (hne htrue))).trans ih
  | false => rw [show db' = db from hfalse htrue]; exact ih

/-- No call opens or closes an account. -/
theorem store_isSome_of_run (hrun : Run (casStep rd) db₀ tr db) (a : String) :
    (db.store a).isSome = (db₀.store a).isSome := by
  refine hrun.invariant (fun _ db => (db.store a).isSome = (db₀.store a).isSome) rfl ?_
  intro tr db c db' _ ih hstep
  obtain rfl : (c.execute rd db).2 = db' := by simpa [casStep] using hstep
  rcases c.execute_commits_or_keeps rd db with ⟨row, balance, hrow, -, hex⟩ | ⟨-, hkept⟩
  · by_cases hca : c.accountId = a
    · rw [← ih, ← hca, hrow, hex]; simp
    · rw [hex, MockDatabaseShard.put_store_of_ne _ (Ne.symm hca)]; exact ih
  · rw [hkept]; exact ih

/-- **Accounting of every run.** From any store with non-negative
balances, under any sequence of positive debits and credits with any
expected versions: versions are exactly what the calls that returned
`True` account for, each version has at most one winner, no account is
overdrawn, and nothing else in the store moves; and where no sum is
rounded, the balances are what these calls account for too. -/
theorem occ_run_accounting (hnonneg : ∀ a row, db₀.store a = some row → 0 ≤ row.availableBalance)
    (hrun : Run (casStep rd) db₀ tr db) (hpos : ∀ t ∈ tr, 0 < t.event.amount) :
    (∀ a, (db.store a).isSome = (db₀.store a).isSome) ∧
    (∀ a row₀ row, db₀.store a = some row₀ → db.store a = some row →
      ((∀ t ∈ tr, ExactSum rd t) → row.availableBalance
        = row₀.availableBalance + creditedTo rd a tr - debitedFrom rd a tr) ∧
      row.version = row₀.version + committedOn rd a tr ∧
      0 ≤ row.availableBalance ∧
      row.accountId = row₀.accountId ∧ row.userId = row₀.userId ∧
      row.ledgerBalance = row₀.ledgerBalance ∧ row.status = row₀.status) ∧
    (∀ a v, winners rd a v tr ≤ 1) ∧
    (∀ a, (∀ t ∈ tr, returnedTrue rd t = true → t.event.accountId ≠ a) →
      db.store a = db₀.store a) ∧
    (∀ t ∈ tr, (returnedTrue rd t = false → t.post = t.pre) ∧
      ∀ b, b ≠ t.event.accountId → t.post.store b = t.pre.store b) := by
  refine ⟨store_isSome_of_run hrun, ?_, ?_, fun a => store_eq_of_no_winner hrun,
    fun t ht => casStep_frame (hrun.step_of_mem t ht)⟩
  · intro a row₀ row hrow₀ hrow
    obtain ⟨row', hrow', hacc⟩ := accounted_of_run hrow₀ (hnonneg a row₀ hrow₀) hrun hpos
    obtain rfl : row' = row := by rw [hrow] at hrow'; exact (Option.some.inj hrow').symm
    refine ⟨fun hexact => ?_, hacc.version, hacc.nonneg, hacc.accountId, hacc.userId,
      hacc.ledgerBalance, hacc.status⟩
    rw [hacc.balance hexact]
    ring
  · intro a v
    cases hrow₀ : db₀.store a with
    | some row₀ =>
        obtain ⟨row, -, hacc⟩ := accounted_of_run hrow₀ (hnonneg a row₀ hrow₀) hrun hpos
        exact hacc.unique v
    | none =>
        -- a missing account stays missing, so nothing on it ever wins
        refine le_of_eq_of_le ?_ (Nat.zero_le 1)
        rw [winners, List.countP_eq_zero]
        intro t ht hp
        simp only [decide_eq_true_eq] at hp
        obtain ⟨l, r, -, hl, -⟩ := hrun.reached_of_mem ht
        have hmiss := store_isSome_of_run hl a
        rw [hrow₀] at hmiss
        rcases t.event.execute_commits_or_keeps rd t.pre with ⟨row, balance, hrow, -⟩ | ⟨hno, -⟩
        · rw [hp.1] at hrow; simp [hrow] at hmiss
        · simp [returnedTrue, hno] at hp

/-- The self-test's debit, a credit with the version it used up, and a
debit that read again: the credit is refused and INR 100.00 is left. -/
theorem occ_run_accounting_selfTest :
    let rd := decimalContext.rounding
    let run := exec (casStep rd) .selfTest
      [.debit "acc-1" 500 1, .credit "acc-1" 70 1, .debit "acc-1" 900 2]
    (∀ row, run.2.store "acc-1" = some row → row.availableBalance
      = 1500 + creditedTo rd "acc-1" run.1 - debitedFrom rd "acc-1" run.1) ∧
    (run.2.store "acc-1").map (·.availableBalance) = some 100 ∧
    ∀ v, winners rd "acc-1" v run.1 ≤ 1 := by
  intro rd run
  have hrun : Run (casStep rd) .selfTest run.1 run.2 := run_exec _ _ _
  have hopen : MockDatabaseShard.selfTest.store "acc-1"
      = some ⟨"acc-1", "usr-101", 1500, 1500, 1, .active⟩ := MockDatabaseShard.put_store_self _ _ _
  obtain ⟨-, hrows, hwinners, -⟩ := occ_run_accounting MockDatabaseShard.selfTest_nonneg hrun
    (by decide +kernel)
  exact ⟨fun row hrow => (hrows "acc-1" _ row hopen hrow).1 (by decide +kernel),
    by decide +kernel, hwinners "acc-1"⟩

end Httpe.Occ
