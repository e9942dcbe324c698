import Httpe.Lib.Run
import Httpe.Lib.Compensation
import Httpe.Lib.Simulation
import Httpe.Lib.Charging
import Httpe.Lib.Spacing
import Httpe.Lib.Refinement
import Httpe.Lib.Pacing
import Httpe.Lib.Decimal
import Httpe.Lib.Table
import Httpe.Lib.Partitioned
import Httpe.Occ.Shard
import Httpe.Occ.Accounting
import Httpe.Occ.Manager
import Httpe.Occ.Linearizable
import Httpe.Occ.Contention
import Httpe.Occ.Commits
import Httpe.Occ.Retries
import Httpe.Occ.Receipt
import Httpe.Occ.Snapshot
import Httpe.Occ.Numeric
import Httpe.Occ.Serial
import Httpe.Occ.Throughput
import Httpe.Occ.Statements
import Httpe.Saga.Orchestrator
import Httpe.Saga.Passes
import Httpe.Saga.Trace
import Httpe.Saga.Restored
import Httpe.Saga.Ledger
import Httpe.Saga.Undo
import Httpe.Saga.Ambiguous
import Httpe.Saga.Repeated
import Httpe.Saga.Interleaved
import Httpe.Saga.Conservation
import Httpe.Saga.Transfers
import Httpe.Saga.AuditTrail
import Httpe.Idempotency.Redis
import Httpe.Idempotency.Expiry
import Httpe.Idempotency.Manager
import Httpe.Idempotency.History
import Httpe.Idempotency.ExactlyOnce
import Httpe.Idempotency.Lease
import Httpe.Idempotency.Durable
import Httpe.Idempotency.HashReuse
import Httpe.Idempotency.Recursion
import Httpe.Idempotency.Atomic
import Httpe.Idempotency.Isolation
import Httpe.Idempotency.Reexecution
import Httpe.Breaker.CircuitBreaker
import Httpe.Breaker.Fsm
import Httpe.Breaker.Probes
import Httpe.Breaker.DeadDependency
import Httpe.Breaker.Lock
import Httpe.Breaker.UserCode
import Httpe.Breaker.Recovery
import Httpe.Breaker.SectionCode
import Httpe.Breaker.Accesses
import Httpe.Breaker.Shadow
import Httpe.Breaker.Sections
import Httpe.Schema.Columns
import Httpe.Schema.Transactions
import Httpe.Schema.UniqueKey
import Httpe.Schema.Accounts
import Httpe.Schema.LedgerEntries
import Httpe.Schema.TransactionEvents
import Httpe.Lab.Account
import Httpe.Lab.CompareAndSwap
import Httpe.Lab.Books
