/-
Httpe.Schema.Accounts — the `accounts` table of
`schemas/ddl/001-accounts.sql` and the statements on it that
`pseudocode/occ-balance-update.py` quotes.

An account id and a user id come as texts and must be UUIDs; a statement
with another text is an error. `shard_key` is an INTEGER that has no
default, so an INSERT has to give one. A value that goes into a
NUMERIC(18, 4) column is rounded half away from zero; that it then fits,
that a version fits in a BIGINT and the two CHECKs are what a row is
tested for. A statement that leaves a row which fails is an error and
changes nothing.

The columns no statement here reads or writes (`account_type`,
`currency`, `tier`, `daily_limit`, `created_at`, `updated_at` with its
trigger) have defaults and are left out.
-/
import Httpe.Lib.Table
import Httpe.Schema.Columns

namespace Httpe.Schema

/-- `account_status_enum`. -/
inductive AccountStatusEnum where
  | active
  | frozen
  | suspended
  | closed
  deriving DecidableEq, Repr

structure AccountRow where
  accountId : Uuid
  userId : Uuid
  availableBalance : ℚ
  ledgerBalance : ℚ
  version : ℤ
  status : AccountStatusEnum
  shardKey : ℤ
  deriving DecidableEq, Repr

/-- A number as a NUMERIC(18, 4) column takes it, if it fits. -/
def scaled (x : ℚ) : ℚ := roundHalfAway (x * 10 ^ 4) / 10 ^ 4

/-- NUMERIC(18, 4). -/
def IsNumeric (x : ℚ) : Prop := scaled x = x ∧ |x| < 10 ^ 14

/-- BIGINT. -/
def IsBigint (n : ℤ) : Prop := -2 ^ 63 ≤ n ∧ n < 2 ^ 63

/-- The types of the columns, `CHECK (available_balance >= 0.0000)` and
`chk_positive_ledger`. -/
def AccountRow.Valid (row : AccountRow) : Prop :=
  IsNumeric row.availableBalance ∧ IsNumeric row.ledgerBalance ∧ IsBigint row.version ∧
    0 ≤ row.availableBalance ∧ -10000000 ≤ row.ledgerBalance

instance (x : ℚ) : Decidable (IsNumeric x) := inferInstanceAs (Decidable (_ ∧ _))

instance (n : ℤ) : Decidable (IsBigint n) := inferInstanceAs (Decidable (_ ∧ _))

instance (row : AccountRow) : Decidable row.Valid := inferInstanceAs (Decidable (_ ∧ _))

/-- `INSERT INTO accounts`. -/
structure AccountInsert where
  accountId : String
  userId : String
  availableBalance : ℚ
  ledgerBalance : ℚ
  version : ℤ
  status : AccountStatusEnum
  shardKey : ℤ
  deriving DecidableEq, Repr

/-- The row an INSERT makes, if its ids are UUIDs and its shard key is an
INTEGER. -/
def AccountInsert.row (stmt : AccountInsert) : Option AccountRow := do
  let accountId ← uuid stmt.accountId
  let userId ← uuid stmt.userId
  let shardKey ← integer stmt.shardKey
  some { accountId, userId, availableBalance := scaled stmt.availableBalance,
         ledgerBalance := scaled stmt.ledgerBalance, version := stmt.version,
         status := stmt.status, shardKey }

abbrev AccountsTable := Table AccountRow.accountId fun row => decide row.Valid

/-- What `SELECT account_id, available_balance, version, status` shows of
a row. -/
structure AccountView where
  accountId : String
  availableBalance : ℚ
  version : ℤ
  status : AccountStatusEnum
  deriving DecidableEq, Repr

def AccountRow.view (row : AccountRow) : AccountView :=
  ⟨uuidText row.accountId, row.availableBalance, row.version, row.status⟩

namespace AccountsTable

/-- `INSERT`; `none` is an error. -/
def insertAccount (table : AccountsTable) (stmt : AccountInsert) : Option AccountsTable :=
  stmt.row.bind table.insert

/-- `SELECT account_id, available_balance, version, status FROM accounts
WHERE account_id = :id`. -/
def selectAccount (table : AccountsTable) (accountId : String) : Option (List AccountView) :=
  (uuid accountId).map fun id => (table.select fun row => row.accountId = id).map AccountRow.view

/-- `SET available_balance = available_balance + :delta, version =
version + 1`. -/
def addToBalance (delta : ℚ) : Assignment AccountRow.accountId where
  set row := { row with availableBalance := scaled (row.availableBalance + delta)
                        version := row.version + 1 }
  key_set _ := rfl

/-- `UPDATE accounts SET available_balance = available_balance -
:debit_amount, version = version + 1 WHERE account_id = :account_id AND
version = :expected_version AND available_balance >= :debit_amount AND
status = 'ACTIVE'`. -/
def updateDebit (table : AccountsTable) (accountId : String) (debitAmount : ℚ)
    (expectedVersion : ℤ) : Option (ℕ × AccountsTable) :=
  (uuid accountId).bind fun id =>
    table.update
      (fun row => row.accountId = id ∧ row.version = expectedVersion ∧
        debitAmount ≤ row.availableBalance ∧ row.status = .active)
      (addToBalance (-debitAmount))

/-- `UPDATE accounts SET available_balance = available_balance +
:credit_amount, version = version + 1 WHERE account_id = :account_id AND
version = :expected_version AND status = 'ACTIVE'`. -/
def updateCredit (table : AccountsTable) (accountId : String) (creditAmount : ℚ)
    (expectedVersion : ℤ) : Option (ℕ × AccountsTable) :=
  (uuid accountId).bind fun id =>
    table.update
      (fun row => row.accountId = id ∧ row.version = expectedVersion ∧ row.status = .active)
      (addToBalance creditAmount)

end AccountsTable

end Httpe.Schema
