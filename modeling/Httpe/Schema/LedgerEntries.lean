/-
Httpe.Schema.LedgerEntries — the `ledger_entries` table of
`schemas/ddl/003-ledger-entries.sql`.

Like `transactions` it is partitioned by `created_at`, with the primary
key `(entry_id, created_at)`; but it has partitions for September and
October 2026 only, and everything else is in the default one. The columns
are typed as in `Httpe.Schema.Columns`.

An audit reads the whole ledger, whose primary key no index covers as a
whole. `ledger_is_one_table` says that the partitions are those of one
table with that key all the same.
-/
import Httpe.Lib.Partitioned
import Httpe.Lib.Simulation
import Httpe.Schema.Columns

namespace Httpe.Schema

inductive EntryDirection where
  | debit
  | credit
  deriving DecidableEq, Repr

inductive LedgerEntryType where
  | payment
  | fee
  | refund
  | settlementPayout
  | adjustment
  deriving DecidableEq, Repr

structure LedgerEntryRow where
  entryId : Uuid
  transactionId : Uuid
  accountId : Uuid
  entryType : LedgerEntryType
  direction : EntryDirection
  amount : Numeric
  balanceAfter : Numeric
  currency : String
  description : Option String
  createdAt : Timestamptz
  deriving DecidableEq

/-- `INSERT INTO ledger_entries`, issued at `currentTimestamp`. -/
structure LedgerInsert where
  entryId : Cell Uuid
  transactionId : Cell Uuid
  accountId : Cell Uuid
  entryType : Cell LedgerEntryType
  direction : Cell EntryDirection
  amount : Cell Numeric
  balanceAfter : Cell Numeric
  currency : Cell String := .default
  description : Cell String := .default
  createdAt : Cell Timestamptz := .default
  currentTimestamp : ℤ
  deriving DecidableEq

/-- The row an INSERT makes, if it passes the types and the NOT NULLs. -/
def LedgerInsert.row (stmt : LedgerInsert) : Option LedgerEntryRow := do
  let entryId ← stmt.entryId.resolve none
  let transactionId ← stmt.transactionId.resolve none
  let accountId ← stmt.accountId.resolve none
  let entryType ← stmt.entryType.resolve none
  let direction ← stmt.direction.resolve none
  let amount ← (stmt.amount.resolve none).bind Numeric.column
  let balanceAfter ← (stmt.balanceAfter.resolve none).bind Numeric.column
  let currency ← (stmt.currency.resolve (some "INR")).bind (bpchar 3)
  let description ← nullable (varchar 255) (stmt.description.resolve none)
  let createdAt ← stmt.createdAt.resolve (some (.at stmt.currentTimestamp))
  some { entryId, transactionId, accountId, entryType, direction, amount, balanceAfter, currency,
         description, createdAt }

namespace LedgerEntryRow

/-- `PRIMARY KEY (entry_id, created_at)`. -/
def primaryKey (row : LedgerEntryRow) : Uuid × Timestamptz := (row.entryId, row.createdAt)

/-- `CHECK (amount > 0)`. -/
def positive (row : LedgerEntryRow) : Bool := row.amount.gtZero

end LedgerEntryRow

inductive LedgerPartition where
  | ledgerEntries202609
  | ledgerEntries202610
  | ledgerEntriesDefault
  deriving DecidableEq, Repr

instance : Fintype LedgerPartition where
  elems := {.ledgerEntries202609, .ledgerEntries202610, .ledgerEntriesDefault}
  complete p := by cases p <;> decide

def ledgerPartitionOf (row : LedgerEntryRow) : LedgerPartition :=
  if row.createdAt.within 1788220800000000 1790812800000000 then .ledgerEntries202609
  else if row.createdAt.within 1790812800000000 1793491200000000 then .ledgerEntries202610
  else .ledgerEntriesDefault

abbrev LedgerEntriesTable :=
  Partitioned LedgerEntryRow.primaryKey LedgerEntryRow.positive ledgerPartitionOf

/-- The ledger as one table. -/
abbrev Ledger := Table LedgerEntryRow.primaryKey LedgerEntryRow.positive

/-- One INSERT, accepted or not. -/
def LedgerEntriesTable.execute (table : LedgerEntriesTable) (stmt : LedgerInsert) :
    Bool × LedgerEntriesTable :=
  table.insertRow stmt.row

def Ledger.execute (ledger : Ledger) (stmt : LedgerInsert) : Bool × Ledger :=
  ledger.insertRow stmt.row

/-- The key has the column the partitions are cut by. -/
theorem ledgerPartitionOf_of_primaryKey (q row : LedgerEntryRow)
    (h : q.primaryKey = row.primaryKey) : ledgerPartitionOf q = ledgerPartitionOf row := by
  have hcreated : q.createdAt = row.createdAt := congrArg Prod.snd h
  unfold ledgerPartitionOf
  rw [hcreated]

/-- **The ledger is one table.** Whatever INSERTs come, each is accepted
or refused as it would be by one table with the primary key; no two
entries, in one partition or in two, share it; each partition has the
entries of its time, in the order they came; and a sum over the entries
is the sum over the partitions. -/
theorem ledger_is_one_table (stmts : List LedgerInsert) :
    let table := after LedgerEntriesTable.execute .empty stmts
    let ledger := after Ledger.execute .empty stmts
    outputs LedgerEntriesTable.execute .empty stmts = outputs Ledger.execute .empty stmts ∧
    (∀ p, (table.part p).rows = ledger.rows.filter fun row => ledgerPartitionOf row = p) ∧
    (∀ p p' row row', row ∈ (table.part p).rows → row' ∈ (table.part p').rows →
      row.primaryKey = row'.primaryKey → row = row') ∧
    ∀ f : LedgerEntryRow → ℚ,
      ∑ p, ((table.part p).rows.map f).sum = (ledger.rows.map f).sum := by
  obtain ⟨houtputs, hrepresents⟩ :=
    Partitioned.represents_after ledgerPartitionOf_of_primaryKey LedgerInsert.row stmts
  exact ⟨houtputs, hrepresents, fun p p' row row' hrow hrow' hkey =>
    hrepresents.eq_of_key hrow hrow' hkey, hrepresents.sum_eq⟩

end Httpe.Schema
