/-
Httpe.Schema.TransactionEvents — the `transaction_events` table of
`schemas/ddl/005-transaction-events.sql`.

The ids of a transaction and a saga come as texts and are read as UUIDs.
The three names are VARCHAR(50), the payload is JSONB, which takes any
text without a NUL in it.

`retry_count` and `created_at` are left to their defaults; no constraint
reads them.
-/
import Httpe.Lib.Simulation
import Httpe.Lib.Table
import Httpe.Schema.Columns

namespace Httpe.Schema

structure TransactionEventRow where
  eventId : Uuid
  transactionId : Uuid
  sagaId : Uuid
  fromState : String
  toState : String
  eventType : String
  payload : String
  deriving DecidableEq, Repr

/-- `INSERT INTO transaction_events`. -/
structure EventInsert where
  eventId : Uuid
  transactionId : String
  sagaId : String
  fromState : String
  toState : String
  eventType : String
  payload : String
  deriving DecidableEq, Repr

/-- The row an INSERT makes, if it passes the types. -/
def EventInsert.row (stmt : EventInsert) : Option TransactionEventRow := do
  let transactionId ← uuid stmt.transactionId
  let sagaId ← uuid stmt.sagaId
  let fromState ← varchar 50 stmt.fromState
  let toState ← varchar 50 stmt.toState
  let eventType ← varchar 50 stmt.eventType
  let payload ← jsonb stmt.payload
  some { eventId := stmt.eventId, transactionId, sagaId, fromState, toState, eventType, payload }

abbrev TransactionEventsTable := Table TransactionEventRow.eventId fun _ => true

namespace TransactionEventsTable

/-- One INSERT, accepted or not. -/
def execute (table : TransactionEventsTable) (stmt : EventInsert) :
    Bool × TransactionEventsTable :=
  table.insertRow stmt.row

end TransactionEventsTable

variable {stmt : EventInsert} {stmts : List EventInsert} {row : TransactionEventRow}
  {table : TransactionEventsTable}

end Httpe.Schema
