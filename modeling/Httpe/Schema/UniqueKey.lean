/-
Httpe.Schema.UniqueKey — `idempotency_key` in the `transactions` table.

The documents describe `idx_transactions_idempotency` as a unique index;
the DDL creates an ordinary one, and a unique index on the key alone
could not be declared on a table partitioned by `created_at`. What is
enforced is the primary key `(transaction_id, created_at)`, so a key is
stored twice as soon as it comes with another transaction id or another
timestamp. `noSharedKey_iff_keysFresh` is the exact condition on a
sequence of INSERTs. Its proof is about the one table that the partitions
make up.
-/
import Httpe.Lib.Run
import Httpe.Schema.Transactions
import Mathlib.Data.List.Induction

namespace Httpe.Schema

/-- No two rows of the table, in one partition or in two, carry the same
idempotency key. -/
def NoSharedKey (table : TransactionsTable) : Prop :=
  ∀ key, ∑ p, ((table.part p).rows.countP fun q => q.idempotencyKey = key) ≤ 1

/-- If the INSERT makes a valid row with a new primary key, its
idempotency key is new as well. -/
def KeyFresh (table : TransactionsTable) (stmt : Insert) : Prop :=
  ∀ row, stmt.row = some row → row.checked = true →
    (∀ p, ∀ q ∈ (table.part p).rows, q.primaryKey ≠ row.primaryKey) →
    ∀ p, ∀ q ∈ (table.part p).rows, q.idempotencyKey ≠ row.idempotencyKey

def KeysFresh (stmts : List Insert) : Prop :=
  ∀ l stmt r, stmts = l ++ stmt :: r →
    KeyFresh (after TransactionsTable.execute .empty l) stmt

/-- The rows of one table carry different keys. -/
def KeysDiffer (rows : List TransactionRow) : Prop :=
  ∀ key, (rows.countP fun q => q.idempotencyKey = key) ≤ 1

variable {table : TransactionsTable} {flat : Transactions} {rows : List TransactionRow}
  {row : TransactionRow} {stmt : Insert}

theorem keysDiffer_snoc :
    KeysDiffer (rows ++ [row]) ↔
      KeysDiffer rows ∧ ∀ q ∈ rows, q.idempotencyKey ≠ row.idempotencyKey := by
  have hnew : (∀ q ∈ rows, q.idempotencyKey ≠ row.idempotencyKey) ↔
      (rows.countP fun q => q.idempotencyKey = row.idempotencyKey) = 0 := by
    rw [List.countP_eq_zero]
    simp
  rw [hnew]
  unfold KeysDiffer
  simp only [List.countP_append, List.countP_singleton, decide_eq_true_eq]
  refine ⟨fun h => ⟨fun key => ?_, ?_⟩, fun ⟨h, hzero⟩ key => ?_⟩
  · have hkey := h key
    omega
  · have hkey := h row.idempotencyKey
    rw [if_pos rfl] at hkey
    omega
  · by_cases hkey : row.idempotencyKey = key
    · rw [← hkey, if_pos rfl, hzero]
    · rw [if_neg hkey]
      exact h key

theorem noSharedKey_iff (h : table.Represents flat) : NoSharedKey table ↔ KeysDiffer flat.rows :=
  forall_congr' fun _ => by rw [h.countP_eq]

theorem keyFresh_iff (h : table.Represents flat) :
    KeyFresh table stmt ↔ ∀ row, stmt.row = some row → row.checked = true →
      (∀ q ∈ flat.rows, q.primaryKey ≠ row.primaryKey) →
      ∀ q ∈ flat.rows, q.idempotencyKey ≠ row.idempotencyKey := by
  have hall : ∀ P : TransactionRow → Prop,
      (∀ p, ∀ q ∈ (table.part p).rows, P q) ↔ ∀ q ∈ flat.rows, P q := by
    intro P
    simp only [← h.mem]
    exact ⟨fun hparts q ⟨p, hq⟩ => hparts p q hq, fun hrows p q hq => hrows q ⟨p, hq⟩⟩
  unfold KeyFresh
  simp only [hall]

/-- One INSERT, accepted or not: the keys stay different exactly when its
row is refused or has a new key. -/
theorem keysDiffer_execute :
    KeysDiffer (Transactions.execute flat stmt).2.rows ↔
      KeysDiffer flat.rows ∧ ∀ row, stmt.row = some row → row.checked = true →
        (∀ q ∈ flat.rows, q.primaryKey ≠ row.primaryKey) →
        ∀ q ∈ flat.rows, q.idempotencyKey ≠ row.idempotencyKey := by
  unfold Transactions.execute
  cases hrow : stmt.row with
  | none =>
      refine (and_iff_left fun row hsome => ?_).symm
      cases hsome
  | some row =>
      have htaken : flat.find row.primaryKey = none ↔
          ∀ q ∈ flat.rows, q.primaryKey ≠ row.primaryKey := by
        rw [Table.find_eq_none]
        simp
      cases hinsert : flat.insert row with
      | none =>
          simp only [Table.insertRow, Table.insertInto, hinsert]
          refine (and_iff_left ?_).symm
          rintro row' ⟨⟩ hchecked hnew
          rcases Table.insert_eq_none.mp hinsert with hfails | hkey
          · rw [hchecked] at hfails
            cases hfails
          · exact absurd (htaken.mpr hnew) hkey
      | some flat' =>
          simp only [Table.insertRow, Table.insertInto, hinsert, Table.rows_insert hinsert]
          rw [keysDiffer_snoc]
          have hstored : ¬ (flat.insert row = none) := by simp [hinsert]
          rw [Table.insert_eq_none, not_or, not_not, Bool.not_eq_false] at hstored
          refine and_congr_right fun _ => ⟨?_, fun h => ?_⟩
          · rintro hnew row' ⟨⟩ - -
            exact hnew
          · exact h row rfl hstored.1 (htaken.mp hstored.2)

/-- **Exactly when no two rows share an idempotency key.** -/
theorem noSharedKey_iff_keysFresh (stmts : List Insert) :
    NoSharedKey (after TransactionsTable.execute .empty stmts) ↔ KeysFresh stmts := by
  induction stmts using List.reverseRecOn with
  | nil =>
      refine ⟨fun _ l stmt r h => by simp at h, fun _ key => ?_⟩
      simp [after, Partitioned.empty, Table.empty]
  | append_singleton l stmt ih =>
      have hbefore := (transactions_is_one_table l).2
      have hafter := (transactions_is_one_table (l ++ [stmt])).2
      have hsnoc : KeysFresh (l ++ [stmt]) ↔
          KeysFresh l ∧ KeyFresh (after TransactionsTable.execute .empty l) stmt :=
        forall_split_snoc
      rw [noSharedKey_iff hafter, after_snoc, keysDiffer_execute, hsnoc, ← ih,
        noSharedKey_iff hbefore, keyFresh_iff hbefore]

/-- A payment of 500 and its retry a month later under a new transaction
id. -/
def retriedPayment (transactionId : Uuid) (createdAt : ℤ) : Insert where
  transactionId := .value transactionId
  idempotencyKey := .value "idem-1"
  transactionType := .value .p2p
  amount := .value (.finite 500)
  sagaId := .value 7
  currentTimestamp := createdAt

/-- Both are accepted, in two partitions. -/
theorem not_noSharedKey_retriedPayment :
    let table := after TransactionsTable.execute .empty
      [retriedPayment 1 1788300000000000, retriedPayment 2 1790900000000000]
    (table.part .transactions202609).rows.length = 1 ∧
    (table.part .transactions202610).rows.length = 1 ∧ ¬ NoSharedKey table := by
  intro table
  refine ⟨by decide +kernel, by decide +kernel, fun h => ?_⟩
  have honce := h "idem-1"
  have htwice : ∑ p, ((table.part p).rows.countP fun q => q.idempotencyKey = "idem-1") = 2 := by
    decide +kernel
  omega

end Httpe.Schema
