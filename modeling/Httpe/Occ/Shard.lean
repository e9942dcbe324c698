/-
Httpe.Occ.Shard — `MockDatabaseShard` of `pseudocode/occ-balance-update.py`:
the row store and its two compare-and-swap updates.

A Python `dict` of records is a function `String → Option AccountRecord`;
the in-place `current.available_balance -= …; current.version += 1` is
`put` of the changed row. A `Decimal` is the rational it denotes and the
two operators round their exact result as the context in force says
(`Rounding`); where that is an overflow the update raises before it has
written anything. Versions are Python integers, read in `ℤ`.

`execute_occ_debit` and `execute_occ_credit` keep their own bodies (the
credit has no funds check). `CasCall` is either call with its arguments,
and `CasCall.execute_cases` is the one fact every later proof uses about
them: a call refuses or raises and leaves the store as it was, or it
writes a new balance to an ACTIVE row at exactly the expected version and
bumps that version by one.
-/
import Httpe.Lib.Decimal

namespace Httpe.Occ

open Decimal

/-- Python's default decimal context. -/
def decimalContext : Context where
  prec := 28
  emin := -999999
  emax := 999999
  prec_pos := by decide
  emax_nonneg := by decide

/-- Four decimals and not too long: the context leaves it alone. -/
theorem decimalContext_round_of_scale {x : ℚ} (hx : HasScale 4 x) (hlt : |x| < 10 ^ 24) :
    decimalContext.round x = some x := by
  refine hx.round_eq_self (by decide) (by exact_mod_cast hlt) (hlt.trans_le ?_)
  exact_mod_cast zpow_le_zpow_right₀ (by norm_num : (1 : ℚ) ≤ 10)
    (by decide : (24 : ℤ) ≤ decimalContext.emax + 1)

/-- What `-=` and `+=` on a `Decimal` can raise. -/
inductive DecimalException where
  | overflow
  deriving DecidableEq, Repr

inductive AccountStatus where
  | active
  | frozen
  | suspended
  deriving DecidableEq, Repr

structure AccountRecord where
  accountId : String
  userId : String
  availableBalance : ℚ
  ledgerBalance : ℚ
  version : ℤ
  status : AccountStatus
  deriving DecidableEq, Repr

/-- The row after `available_balance = balance; version += 1`. -/
def AccountRecord.updated (row : AccountRecord) (balance : ℚ) : AccountRecord :=
  { row with availableBalance := balance, version := row.version + 1 }

@[simp] theorem AccountRecord.updated_version (row : AccountRecord) (balance : ℚ) :
    (row.updated balance).version = row.version + 1 := rfl

@[simp] theorem AccountRecord.updated_availableBalance (row : AccountRecord) (balance : ℚ) :
    (row.updated balance).availableBalance = balance := rfl

@[simp] theorem AccountRecord.updated_status (row : AccountRecord) (balance : ℚ) :
    (row.updated balance).status = row.status := rfl

/-- `MockDatabaseShard._store`. -/
@[ext] structure MockDatabaseShard where
  store : String → Option AccountRecord

namespace MockDatabaseShard

/-- `MockDatabaseShard()`. -/
def empty : MockDatabaseShard := ⟨fun _ => none⟩

/-- `self._store[account_id] = row`. -/
def put (db : MockDatabaseShard) (accountId : String) (row : AccountRecord) :
    MockDatabaseShard :=
  ⟨Function.update db.store accountId (some row)⟩

@[simp] theorem put_store_self (db : MockDatabaseShard) (a : String) (row : AccountRecord) :
    (db.put a row).store a = some row := by
  simp [put]

theorem put_store_of_ne (db : MockDatabaseShard) {a b : String} (h : b ≠ a)
    (row : AccountRecord) : (db.put a row).store b = db.store b := by
  simp [put, h]

def insertAccount (db : MockDatabaseShard) (account : AccountRecord) : MockDatabaseShard :=
  db.put account.accountId account

/-- The snapshot read: a fresh record with the stored fields. -/
def getAccountForRead (db : MockDatabaseShard) (accountId : String) : Option AccountRecord :=
  match db.store accountId with
  | none => none
  | some rec =>
      some { accountId := rec.accountId, userId := rec.userId,
             availableBalance := rec.availableBalance, ledgerBalance := rec.ledgerBalance,
             version := rec.version, status := rec.status }

@[simp] theorem getAccountForRead_eq (db : MockDatabaseShard) (a : String) :
    db.getAccountForRead a = db.store a := by
  unfold getAccountForRead
  cases db.store a <;> rfl

/-- The answer of `execute_occ_debit` or `execute_occ_credit`, if it does
not raise. -/
abbrev UpdateResult := Except DecimalException Bool

def executeOccDebit (rd : Rounding) (db : MockDatabaseShard) (accountId : String)
    (debitAmount : ℚ) (expectedVersion : ℤ) : UpdateResult × MockDatabaseShard :=
  match db.store accountId with
  | none => (.ok false, db)
  | some current =>
      if current.status ≠ .active then (.ok false, db)
      else if current.version ≠ expectedVersion then (.ok false, db)
      else if current.availableBalance < debitAmount then (.ok false, db)
      else
        match rd.round (current.availableBalance - debitAmount) with
        | none => (.error .overflow, db)
        | some balance => (.ok true, db.put accountId (current.updated balance))

def executeOccCredit (rd : Rounding) (db : MockDatabaseShard) (accountId : String)
    (creditAmount : ℚ) (expectedVersion : ℤ) : UpdateResult × MockDatabaseShard :=
  match db.store accountId with
  | none => (.ok false, db)
  | some current =>
      if current.status ≠ .active then (.ok false, db)
      else if current.version ≠ expectedVersion then (.ok false, db)
      else
        match rd.round (current.availableBalance + creditAmount) with
        | none => (.error .overflow, db)
        | some balance => (.ok true, db.put accountId (current.updated balance))

/-- The shard of the source's self-test: one ACTIVE account with INR
1500.00 at version 1. -/
def selfTest : MockDatabaseShard :=
  empty.insertAccount ⟨"acc-1", "usr-101", 1500, 1500, 1, .active⟩

theorem selfTest_nonneg :
    ∀ a row, selfTest.store a = some row → 0 ≤ row.availableBalance := by
  intro a row h
  by_cases ha : a = "acc-1"
  · subst ha
    simp only [selfTest, insertAccount, put_store_self, Option.some.injEq] at h
    subst h; norm_num
  · rw [selfTest, insertAccount, put_store_of_ne _ ha] at h
    simp [empty] at h

end MockDatabaseShard

/-! ## The two updates as one kind of call -/

/-- A call of `execute_occ_debit` or `execute_occ_credit` with its
arguments; a client may pass any of them. -/
inductive CasCall where
  | debit (accountId : String) (amount : ℚ) (expectedVersion : ℤ)
  | credit (accountId : String) (amount : ℚ) (expectedVersion : ℤ)
  deriving DecidableEq, Repr

namespace CasCall

def accountId : CasCall → String
  | debit a _ _ => a
  | credit a _ _ => a

def amount : CasCall → ℚ
  | debit _ x _ => x
  | credit _ x _ => x

def expectedVersion : CasCall → ℤ
  | debit _ _ v => v
  | credit _ _ v => v

/-- What a successful call adds to the balance. -/
def delta : CasCall → ℚ
  | debit _ x _ => -x
  | credit _ x _ => x

def execute (rd : Rounding) : CasCall → MockDatabaseShard →
    MockDatabaseShard.UpdateResult × MockDatabaseShard
  | debit a x v, db => db.executeOccDebit rd a x v
  | credit a x v, db => db.executeOccCredit rd a x v

/-- The row predicate both updates test before they write. -/
def Admits : CasCall → AccountRecord → Prop
  | debit _ x v, row => row.status = .active ∧ row.version = v ∧ x ≤ row.availableBalance
  | credit _ _ v, row => row.status = .active ∧ row.version = v

instance (c : CasCall) (row : AccountRecord) : Decidable (c.Admits row) :=
  match c with
  | debit _ _ _ => inferInstanceAs (Decidable (_ ∧ _))
  | credit _ _ _ => inferInstanceAs (Decidable (_ ∧ _))

/-- The new balance, if it does not overflow. -/
def newBalance (rd : Rounding) (c : CasCall) (row : AccountRecord) : Option ℚ :=
  rd.round (row.availableBalance + c.delta)

/-- The call passes its tests on the row and computes a balance. -/
structure Commits (rd : Rounding) (c : CasCall) (row : AccountRecord) (balance : ℚ) : Prop where
  admits : c.Admits row
  newBalance : c.newBalance rd row = some balance

theorem Admits.version_eq {c : CasCall} {row : AccountRecord} (h : c.Admits row) :
    row.version = c.expectedVersion := by
  cases c with
  | debit a x v => exact h.2.1
  | credit a x v => exact h.2

theorem Admits.active {c : CasCall} {row : AccountRecord} (h : c.Admits row) :
    row.status = .active := by
  cases c <;> exact h.1

variable {rd : Rounding} {c : CasCall} {db : MockDatabaseShard} {row : AccountRecord} {balance : ℚ}

/-- What a call with a positive amount computes, before it is rounded. -/
theorem Admits.sum_bounds (h : c.Admits row) (hpos : 0 < c.amount)
    (hrow : 0 ≤ row.availableBalance) :
    0 ≤ row.availableBalance + c.delta ∧
      row.availableBalance + c.delta ≤ row.availableBalance + c.amount := by
  cases c with
  | debit a x v =>
      have hle : x ≤ row.availableBalance := h.2.2
      have hx : 0 < x := hpos
      simp only [delta, amount]
      constructor <;> linarith
  | credit a x v =>
      have hx : 0 < x := hpos
      simp only [delta, amount]
      constructor <;> linarith

/-- A commit with a positive amount leaves no overdraft behind, rounded or
not. -/
theorem Commits.balance_nonneg (h : c.Commits rd row balance) (hpos : 0 < c.amount)
    (hrow : 0 ≤ row.availableBalance) : 0 ≤ balance :=
  rd.round_nonneg _ _ (h.admits.sum_bounds hpos hrow).1 h.newBalance

theorem hasScale_delta {s : ℕ} (h : HasScale s c.amount) : HasScale s c.delta := by
  cases c with
  | debit a x v => exact h.neg
  | credit a x v => exact h

/-- A call on a row that admits it, by what its sum comes to. -/
theorem execute_of_admits (hrow : db.store c.accountId = some row) (h : c.Admits row) :
    c.execute rd db =
      match c.newBalance rd row with
      | none => (.error .overflow, db)
      | some balance => (.ok true, db.put c.accountId (row.updated balance)) := by
  cases c with
  | debit a x v =>
      obtain ⟨hst, hv, hle⟩ := h
      simp only [accountId] at hrow
      simp only [execute, MockDatabaseShard.executeOccDebit, hrow, hst, hv, not_lt.mpr hle, ne_eq,
        not_true_eq_false, if_false, newBalance, delta, accountId, sub_eq_add_neg]
  | credit a x v =>
      obtain ⟨hst, hv⟩ := h
      simp only [accountId] at hrow
      simp only [execute, MockDatabaseShard.executeOccCredit, hrow, hst, hv, ne_eq,
        not_true_eq_false, if_false, newBalance, delta, accountId]

theorem execute_of_commits (hrow : db.store c.accountId = some row)
    (h : c.Commits rd row balance) :
    c.execute rd db = (.ok true, db.put c.accountId (row.updated balance)) := by
  rw [execute_of_admits hrow h.admits, h.newBalance]

theorem execute_of_overflow (hrow : db.store c.accountId = some row) (h : c.Admits row)
    (hnone : c.newBalance rd row = none) : c.execute rd db = (.error .overflow, db) := by
  rw [execute_of_admits hrow h, hnone]

/-- A call that no row admits returns `False` and leaves the store. -/
theorem execute_of_not_admits (h : ∀ row, db.store c.accountId = some row → ¬ c.Admits row) :
    c.execute rd db = (.ok false, db) := by
  cases hrow : db.store c.accountId with
  | none =>
      cases c <;> simp only [accountId] at hrow <;>
        simp [execute, MockDatabaseShard.executeOccDebit, MockDatabaseShard.executeOccCredit,
          hrow]
  | some row =>
      have hrow' := h row hrow
      cases c with
      | debit a x v =>
          simp only [accountId] at hrow
          simp only [Admits, not_and, not_le] at hrow'
          simp only [execute, MockDatabaseShard.executeOccDebit, hrow]
          split_ifs with hst hv hlt
          · rfl
          · rfl
          · rfl
          · exact absurd (hrow' (not_not.mp hst) (not_not.mp hv)) hlt
      | credit a x v =>
          simp only [accountId] at hrow
          simp only [Admits, not_and] at hrow'
          simp only [execute, MockDatabaseShard.executeOccCredit, hrow]
          split_ifs with hst hv
          · rfl
          · rfl
          · exact absurd (not_not.mp hv) (hrow' (not_not.mp hst))

/-- Everything a call can do. -/
theorem execute_cases (rd : Rounding) (c : CasCall) (db : MockDatabaseShard) :
    (∃ row balance, db.store c.accountId = some row ∧ c.Commits rd row balance ∧
      c.execute rd db = (.ok true, db.put c.accountId (row.updated balance))) ∨
    (∃ row, db.store c.accountId = some row ∧ c.Admits row ∧ c.newBalance rd row = none ∧
      c.execute rd db = (.error .overflow, db)) ∨
    ((∀ row, db.store c.accountId = some row → ¬ c.Admits row) ∧
      c.execute rd db = (.ok false, db)) := by
  by_cases h : ∃ row, db.store c.accountId = some row ∧ c.Admits row
  · obtain ⟨row, hrow, hadm⟩ := h
    cases hbalance : c.newBalance rd row with
    | none => exact .inr (.inl ⟨row, hrow, hadm, hbalance, execute_of_overflow hrow hadm hbalance⟩)
    | some balance =>
        have hcommits : c.Commits rd row balance := ⟨hadm, hbalance⟩
        exact .inl ⟨row, balance, hrow, hcommits, execute_of_commits hrow hcommits⟩
  · push Not at h
    exact .inr (.inr ⟨h, execute_of_not_admits h⟩)

/-- Two arithmetics that agree on the call's sum. -/
theorem execute_congr {rd' : Rounding} (h : ∀ row, db.store c.accountId = some row →
    c.Admits row → c.newBalance rd row = c.newBalance rd' row) :
    c.execute rd db = c.execute rd' db := by
  by_cases hadm : ∃ row, db.store c.accountId = some row ∧ c.Admits row
  · obtain ⟨row, hrow, hadm⟩ := hadm
    rw [execute_of_admits hrow hadm, execute_of_admits hrow hadm, h row hrow hadm]
  · push Not at hadm
    rw [execute_of_not_admits hadm, execute_of_not_admits hadm]

/-- It commits, or the store is as it was. -/
theorem execute_commits_or_keeps (rd : Rounding) (c : CasCall) (db : MockDatabaseShard) :
    (∃ row balance, db.store c.accountId = some row ∧ c.Commits rd row balance ∧
      c.execute rd db = (.ok true, db.put c.accountId (row.updated balance))) ∨
    ((c.execute rd db).1 ≠ .ok true ∧ (c.execute rd db).2 = db) := by
  rcases c.execute_cases rd db with hcommit | ⟨row, -, -, -, hex⟩ | ⟨-, hex⟩
  · exact .inl hcommit
  · exact .inr ⟨by simp [hex], by rw [hex]⟩
  · exact .inr ⟨by simp [hex], by rw [hex]⟩

end CasCall

end Httpe.Occ
