/-
Httpe.Schema.Transactions — the `transactions` table of
`schemas/ddl/002-transactions.sql` and what an INSERT into it does.

The table is partitioned by `created_at`, and an index on it is one index
per partition. The only unique one is the primary key's, so an INSERT is
refused exactly when a column refuses its value, a CHECK fails or its
partition has a row with the same `transaction_id` and `created_at`.
`transactions_is_one_table` says that the test of one partition is a test
of them all.

`source_account_id`, `destination_account_id`, `metadata` and
`completed_at` take any value of their types and no constraint reads
them; they are left out.
-/
import Httpe.Lib.Partitioned
import Httpe.Lib.Simulation
import Httpe.Schema.Columns

namespace Httpe.Schema

inductive TransactionType where
  | p2p
  | merchantPayment
  | settlement
  | reversal
  | fee
  deriving DecidableEq, Repr

inductive TransactionStatus where
  | initiated
  | processing
  | completed
  | failed
  | reversed
  deriving DecidableEq, Repr

/-! ## Rows -/

structure TransactionRow where
  transactionId : Uuid
  idempotencyKey : String
  transactionType : TransactionType
  amount : Numeric
  feeAmount : Numeric
  currency : String
  status : TransactionStatus
  sagaId : Uuid
  failureReason : Option String
  riskScore : Option ℤ
  createdAt : Timestamptz
  deriving DecidableEq

/-- `INSERT INTO transactions`, issued at `currentTimestamp`. -/
structure Insert where
  transactionId : Cell Uuid
  idempotencyKey : Cell String
  transactionType : Cell TransactionType
  amount : Cell Numeric
  feeAmount : Cell Numeric := .default
  currency : Cell String := .default
  status : Cell TransactionStatus := .default
  sagaId : Cell Uuid
  failureReason : Cell String := .default
  riskScore : Cell ℤ := .default
  createdAt : Cell Timestamptz := .default
  currentTimestamp : ℤ
  deriving DecidableEq

/-- The row an INSERT makes, if it passes the types and the NOT NULLs. -/
def Insert.row (stmt : Insert) : Option TransactionRow := do
  let transactionId ← stmt.transactionId.resolve none
  let idempotencyKey ← (stmt.idempotencyKey.resolve none).bind (varchar 128)
  let transactionType ← stmt.transactionType.resolve none
  let amount ← (stmt.amount.resolve none).bind Numeric.column
  let feeAmount ← (stmt.feeAmount.resolve (some (.finite 0))).bind Numeric.column
  let currency ← (stmt.currency.resolve (some "INR")).bind (bpchar 3)
  let status ← stmt.status.resolve (some .initiated)
  let sagaId ← stmt.sagaId.resolve none
  let failureReason ← nullable (varchar 500) (stmt.failureReason.resolve none)
  let riskScore ← nullable integer (stmt.riskScore.resolve (some 0))
  let createdAt ← stmt.createdAt.resolve (some (.at stmt.currentTimestamp))
  some { transactionId, idempotencyKey, transactionType, amount, feeAmount, currency, status,
         sagaId, failureReason, riskScore, createdAt }

namespace TransactionRow

/-- `PRIMARY KEY (transaction_id, created_at)`. -/
def primaryKey (row : TransactionRow) : Uuid × Timestamptz := (row.transactionId, row.createdAt)

/-- `CHECK (amount > 0)` and `CHECK (fee_amount >= 0)`. -/
def checked (row : TransactionRow) : Bool := row.amount.gtZero && row.feeAmount.geZero

end TransactionRow

/-! ## Partitions -/

inductive Partition where
  | transactions202609
  | transactions202610
  | transactions202611
  | transactionsDefault
  deriving DecidableEq, Repr

instance : Fintype Partition where
  elems := {.transactions202609, .transactions202610, .transactions202611, .transactionsDefault}
  complete p := by cases p <;> decide

def partitionOf (row : TransactionRow) : Partition :=
  if row.createdAt.within 1788220800000000 1790812800000000 then .transactions202609
  else if row.createdAt.within 1790812800000000 1793491200000000 then .transactions202610
  else if row.createdAt.within 1793491200000000 1796083200000000 then .transactions202611
  else .transactionsDefault

abbrev TransactionsTable :=
  Partitioned TransactionRow.primaryKey TransactionRow.checked partitionOf

/-- The transactions as one table. -/
abbrev Transactions := Table TransactionRow.primaryKey TransactionRow.checked

/-- One INSERT, accepted or not. -/
def TransactionsTable.execute (table : TransactionsTable) (stmt : Insert) :
    Bool × TransactionsTable :=
  table.insertRow stmt.row

def Transactions.execute (transactions : Transactions) (stmt : Insert) : Bool × Transactions :=
  transactions.insertRow stmt.row

/-- The key has the column the partitions are cut by. -/
theorem partitionOf_of_primaryKey (q row : TransactionRow) (h : q.primaryKey = row.primaryKey) :
    partitionOf q = partitionOf row := by
  have hcreated : q.createdAt = row.createdAt := congrArg Prod.snd h
  unfold partitionOf
  rw [hcreated]

/-- After any INSERTs the partitions are those of one table with the same
primary key, and it has accepted the same INSERTs. -/
theorem transactions_is_one_table (stmts : List Insert) :
    outputs TransactionsTable.execute .empty stmts = outputs Transactions.execute .empty stmts ∧
      (after TransactionsTable.execute .empty stmts).Represents
        (after Transactions.execute .empty stmts) :=
  Partitioned.represents_after partitionOf_of_primaryKey Insert.row stmts

end Httpe.Schema
