/-
Httpe.Occ.Manager — `OCCBalanceManager.debit_with_occ` of
`pseudocode/occ-balance-update.py` as a machine that makes one store
access per step, and the system in which any number of such calls and
of other clients' updates interleave.

`DebitPc` is where a call stands: before its amount check, at the
`while` test, between the snapshot read and the compare-and-swap,
between the compare-and-swap and the second read, finished. `debitStep`
is the code between two such points. The jittered sleep of step 3 moves
nothing in the store, so it is no step of its own; but it may raise, and
what it raises ends the call. Floats are read in `ℚ`, and the values
`random.uniform` gives are an argument of the call.

`DebitMove` lists every move a call can make, once; `debitMove_of_step`
is the only place that takes `debitStep` apart.
-/
import Httpe.Lib.Run
import Httpe.Occ.Shard

namespace Httpe.Occ

open Decimal

def AccountStatus.value : AccountStatus → String
  | active => "ACTIVE"
  | frozen => "FROZEN"
  | suspended => "SUSPENDED"

/-- What the backoff can raise. -/
inductive SleepError where
  /-- `2 ** (attempts - 1)` has no float. -/
  | intTooLarge
  | timestampTooLarge
  | negative
  deriving DecidableEq, Repr

def SleepError.message : SleepError → String
  | intTooLarge => "int too large to convert to float"
  | timestampTooLarge => "timestamp too large to convert to C PyTime_t"
  | negative => "sleep length must be non-negative"

/-- What `debit_with_occ` raises, with the values its message shows. -/
inductive DebitError where
  | valueError
  | notFound (accountId : String)
  | accountFrozen (accountId : String) (status : AccountStatus)
  | insufficientFunds (available requested : ℚ)
  | versionConflict (txnId : String) (maxRetries : ℤ)
  /-- `updated.available_balance` on a `None` row. -/
  | attributeError
  /-- The subtraction of the compare-and-swap. -/
  | decimal (e : DecimalException)
  | sleep (e : SleepError)
  deriving DecidableEq, Repr

/-- The exception's text; `str` prints a `Decimal`. -/
def DebitError.message (str : ℚ → String) : DebitError → String
  | valueError => "Debit amount must be strictly positive"
  | notFound accountId => s!"Account {accountId} not found"
  | accountFrozen accountId status => s!"Account {accountId} is in {status.value} status"
  | insufficientFunds available requested =>
      s!"Insufficient balance: Available INR {str available}, Requested INR {str requested}"
  | versionConflict txnId maxRetries =>
      s!"Transaction {txnId} aborted: Max OCC retries ({maxRetries}) exhausted due to high contention"
  | attributeError => "'NoneType' object has no attribute 'available_balance'"
  | decimal .overflow => "[<class 'decimal.Overflow'>]"
  | sleep e => e.message

/-- What a call raises because of the row it finds: the three refusals and
an overflow. -/
def DebitError.decidedByRow : DebitError → Bool
  | notFound _ | accountFrozen _ _ | insufficientFunds _ _ | decimal _ => true
  | valueError | versionConflict _ _ | attributeError | sleep _ => false

structure OCCBalanceManager where
  maxRetries : ℤ := 3
  baseBackoffMs : ℚ := 10
  deriving DecidableEq, Repr

/-- The arguments of one `debit_with_occ` call, and what
`random.uniform(1.0, 10.0)` gives it after each attempt. -/
structure DebitCall where
  accountId : String
  amount : ℚ
  txnId : String
  jitter : ℕ → ℚ := fun _ => 1

def OCCBalanceManager.backoffSeconds (m : OCCBalanceManager) (attempts : ℕ) (jitter : ℚ) : ℚ :=
  (m.baseBackoffMs * 2 ^ (attempts - 1) + jitter) / 1000

/-- `time.sleep(backoff_seconds)`, whose clock counts nanoseconds in 64
bits. -/
def OCCBalanceManager.sleepError (m : OCCBalanceManager) (attempts : ℕ) (jitter : ℚ) :
    Option SleepError :=
  let nanoseconds := m.backoffSeconds attempts jitter * 10 ^ 9
  if 1024 ≤ attempts - 1 then some .intTooLarge
  else if nanoseconds < -2 ^ 63 ∨ 2 ^ 63 ≤ nanoseconds then some .timestampTooLarge
  else if nanoseconds < 0 then some .negative
  else none

/-- `(success, attempts, new_balance)` or the exception. -/
abbrev DebitResult := Except DebitError (Bool × ℕ × ℚ)

inductive DebitPc where
  | entry
  | loop (attempts : ℕ)
  | cas (attempts : ℕ) (account : AccountRecord)
  | reread (attempts : ℕ)
  | done (result : DebitResult)
  deriving DecidableEq

/-- The compare-and-swap a call issues from its snapshot. -/
def DebitCall.cas (call : DebitCall) (account : AccountRecord) : CasCall :=
  .debit call.accountId call.amount account.version

/-- One step of a call: the code up to and including its next store
access. A finished call has no step. -/
def debitStep (rd : Rounding) (m : OCCBalanceManager) (call : DebitCall)
    (db : MockDatabaseShard) : DebitPc → Option (DebitPc × MockDatabaseShard)
  | .entry =>
      if call.amount ≤ 0 then some (.done (.error .valueError), db)
      else some (.loop 0, db)
  | .loop attempts =>
      if (attempts : ℤ) < m.maxRetries then
        match db.getAccountForRead call.accountId with
        | none => some (.done (.error (.notFound call.accountId)), db)
        | some account =>
            if account.status ≠ .active then
              some (.done (.error (.accountFrozen call.accountId account.status)), db)
            else if account.availableBalance < call.amount then
              some (.done (.error (.insufficientFunds account.availableBalance call.amount)), db)
            else some (.cas (attempts + 1) account, db)
      else some (.done (.error (.versionConflict call.txnId m.maxRetries)), db)
  | .cas attempts account =>
      match db.executeOccDebit rd call.accountId call.amount account.version with
      | (.ok true, db') => some (.reread attempts, db')
      | (.ok false, db') =>
          match m.sleepError attempts (call.jitter attempts) with
          | none => some (.loop attempts, db')
          | some e => some (.done (.error (.sleep e)), db')
      | (.error e, db') => some (.done (.error (.decimal e)), db')
  | .reread attempts =>
      match db.getAccountForRead call.accountId with
      | some updated => some (.done (.ok (true, attempts, updated.availableBalance)), db)
      | none => some (.done (.error .attributeError), db)
  | .done _ => none

/-- The store access a call makes in its next step. -/
inductive StoreAccess where
  | read
  | cas
  deriving DecidableEq, Repr

def DebitPc.access (m : OCCBalanceManager) : DebitPc → Option StoreAccess
  | .loop attempts => if (attempts : ℤ) < m.maxRetries then some .read else none
  | .cas _ _ => some .cas
  | .reread _ => some .read
  | .entry | .done _ => none

/-! ## Every move of a call -/

inductive DebitMove (rd : Rounding) (m : OCCBalanceManager) (call : DebitCall)
    (db : MockDatabaseShard) : DebitPc → DebitPc → MockDatabaseShard → Prop
  | invalid (hamount : call.amount ≤ 0) :
      DebitMove rd m call db .entry (.done (.error .valueError)) db
  | begin (hamount : 0 < call.amount) : DebitMove rd m call db .entry (.loop 0) db
  | exhausted {a : ℕ} (ha : m.maxRetries ≤ a) :
      DebitMove rd m call db (.loop a)
        (.done (.error (.versionConflict call.txnId m.maxRetries))) db
  | missing {a : ℕ} (ha : (a : ℤ) < m.maxRetries) (hrow : db.store call.accountId = none) :
      DebitMove rd m call db (.loop a) (.done (.error (.notFound call.accountId))) db
  | frozen {a : ℕ} {row : AccountRecord} (ha : (a : ℤ) < m.maxRetries)
      (hrow : db.store call.accountId = some row) (hst : row.status ≠ .active) :
      DebitMove rd m call db (.loop a)
        (.done (.error (.accountFrozen call.accountId row.status))) db
  | insufficient {a : ℕ} {row : AccountRecord} (ha : (a : ℤ) < m.maxRetries)
      (hrow : db.store call.accountId = some row) (hst : row.status = .active)
      (hlt : row.availableBalance < call.amount) :
      DebitMove rd m call db (.loop a)
        (.done (.error (.insufficientFunds row.availableBalance call.amount))) db
  | snapshot {a : ℕ} {row : AccountRecord} (ha : (a : ℤ) < m.maxRetries)
      (hrow : db.store call.accountId = some row) (hst : row.status = .active)
      (hle : call.amount ≤ row.availableBalance) :
      DebitMove rd m call db (.loop a) (.cas (a + 1) row) db
  | commit {a : ℕ} {account row : AccountRecord} {balance : ℚ}
      (hrow : db.store call.accountId = some row)
      (hcommits : (call.cas account).Commits rd row balance) :
      DebitMove rd m call db (.cas a account) (.reread a)
        (db.put call.accountId (row.updated balance))
  | overflow {a : ℕ} {account row : AccountRecord} (hrow : db.store call.accountId = some row)
      (hadm : (call.cas account).Admits row) (hnone : (call.cas account).newBalance rd row = none) :
      DebitMove rd m call db (.cas a account) (.done (.error (.decimal .overflow))) db
  | conflict {a : ℕ} {account : AccountRecord}
      (hno : ∀ row, db.store call.accountId = some row → ¬ (call.cas account).Admits row)
      (hsleep : m.sleepError a (call.jitter a) = none) :
      DebitMove rd m call db (.cas a account) (.loop a) db
  /-- A conflict whose backoff raises. -/
  | sleepless {a : ℕ} {account : AccountRecord} {e : SleepError}
      (hno : ∀ row, db.store call.accountId = some row → ¬ (call.cas account).Admits row)
      (hsleep : m.sleepError a (call.jitter a) = some e) :
      DebitMove rd m call db (.cas a account) (.done (.error (.sleep e))) db
  | report {a : ℕ} {row : AccountRecord} (hrow : db.store call.accountId = some row) :
      DebitMove rd m call db (.reread a) (.done (.ok (true, a, row.availableBalance))) db
  | vanished {a : ℕ} (hrow : db.store call.accountId = none) :
      DebitMove rd m call db (.reread a) (.done (.error .attributeError)) db

theorem debitMove_of_step {rd : Rounding} {m : OCCBalanceManager} {call : DebitCall}
    {db db' : MockDatabaseShard} {pc pc' : DebitPc}
    (h : debitStep rd m call db pc = some (pc', db')) : DebitMove rd m call db pc pc' db' := by
  cases pc with
  | entry =>
      simp only [debitStep] at h
      split at h <;> cases h
      · exact .invalid ‹_›
      · exact .begin (not_le.mp ‹_›)
  | loop a =>
      simp only [debitStep, MockDatabaseShard.getAccountForRead_eq] at h
      split at h
      · rename_i ha
        cases hrow : db.store call.accountId with
        | none => rw [hrow] at h; cases h; exact .missing ha hrow
        | some row =>
            rw [hrow] at h
            simp only at h
            split_ifs at h with hst hlt <;> cases h
            · exact .frozen ha hrow hst
            · exact .insufficient ha hrow (not_not.mp hst) hlt
            · exact .snapshot ha hrow (not_not.mp hst) (not_lt.mp hlt)
      · cases h; exact .exhausted (not_lt.mp ‹_›)
  | cas a account =>
      simp only [debitStep] at h
      rcases (call.cas account).execute_cases rd db with
        ⟨row, balance, hrow, hcommits, hex⟩ | ⟨row, hrow, hadm, hnone, hex⟩ | ⟨hno, hex⟩ <;>
        simp only [CasCall.execute, DebitCall.cas] at hex <;> rw [hex] at h
      · cases h
        exact .commit hrow hcommits
      · cases h
        exact .overflow hrow hadm hnone
      · cases hsleep : m.sleepError a (call.jitter a) with
        | none =>
            simp only [hsleep] at h
            cases h
            exact .conflict hno hsleep
        | some e =>
            simp only [hsleep] at h
            cases h
            exact .sleepless hno hsleep
  | reread a =>
      simp only [debitStep, MockDatabaseShard.getAccountForRead_eq] at h
      cases hrow : db.store call.accountId with
      | none => rw [hrow] at h; cases h; exact .vanished hrow
      | some row => rw [hrow] at h; cases h; exact .report hrow
  | done r => cases h

/-- A call that has not finished can always move. -/
theorem debitStep_isSome (rd : Rounding) (m : OCCBalanceManager) (call : DebitCall)
    (db : MockDatabaseShard) {pc : DebitPc} (h : ∀ r, pc ≠ .done r) :
    (debitStep rd m call db pc).isSome := by
  cases pc with
  | entry => simp only [debitStep]; split <;> rfl
  | loop a => simp only [debitStep]; repeat' split <;> try rfl
  | cas a account => simp only [debitStep]; repeat' split <;> try rfl
  | reread a => simp only [debitStep]; split <;> rfl
  | done r => exact absurd rfl (h r)

/-! ## The system -/

/-- The shared shard and where each call stands. -/
structure OccSystem (ι : Type*) where
  db : MockDatabaseShard
  pc : ι → DebitPc

/-- No call has started. -/
def OccSystem.start {ι : Type*} (db : MockDatabaseShard) : OccSystem ι := ⟨db, fun _ => .entry⟩

/-- The next step of call `i`, or one update by another client. -/
inductive OccEvent (ι : Type*) where
  | call (i : ι)
  | client (c : CasCall)
  deriving DecidableEq

variable {ι : Type*} [DecidableEq ι]

def occStep (rd : Rounding) (m : OCCBalanceManager) (calls : ι → DebitCall) (s : OccSystem ι) :
    OccEvent ι → Option (OccSystem ι)
  | .call i =>
      (debitStep rd m (calls i) s.db (s.pc i)).map fun r =>
        ⟨r.2, Function.update s.pc i r.1⟩
  | .client c => some { s with db := (c.execute rd s.db).2 }

abbrev OccTransition (ι : Type*) := Transition (OccSystem ι) (OccEvent ι)

variable {rd : Rounding} {m : OCCBalanceManager} {calls : ι → DebitCall} {s s' : OccSystem ι}

theorem occStep_call {i : ι} (h : occStep rd m calls s (.call i) = some s') :
    DebitMove rd m (calls i) s.db (s.pc i) (s'.pc i) s'.db ∧ ∀ j, j ≠ i → s'.pc j = s.pc j := by
  simp only [occStep, Option.map_eq_some_iff] at h
  obtain ⟨⟨pc', db'⟩, hstep, rfl⟩ := h
  exact ⟨by simpa using debitMove_of_step hstep, fun j hj => Function.update_of_ne hj _ _⟩

theorem occStep_client {c : CasCall} (h : occStep rd m calls s (.client c) = some s') :
    s'.db = (c.execute rd s.db).2 ∧ s'.pc = s.pc := by
  simp only [occStep, Option.some.injEq] at h
  subst h
  exact ⟨rfl, rfl⟩

/-- A step of anyone else leaves the call where it stands. -/
theorem pc_of_not_own {e : OccEvent ι} {i : ι} (h : occStep rd m calls s e = some s')
    (he : e ≠ .call i) : s'.pc i = s.pc i := by
  cases e with
  | call j => exact (occStep_call h).2 i fun hij => he (by rw [hij])
  | client c => rw [(occStep_client h).2]

/-! ## A call ends -/

/-- An upper bound on the steps a call has left. -/
def DebitPc.stepsLeft (m : OCCBalanceManager) : DebitPc → ℕ
  | .entry => 2 * m.maxRetries.toNat + 2
  | .loop a => 2 * (m.maxRetries.toNat - a) + 1
  | .cas a _ => 2 * (m.maxRetries.toNat - a) + 2
  | .reread _ => 1
  | .done _ => 0

theorem DebitMove.stepsLeft_lt {call : DebitCall} {db db' : MockDatabaseShard}
    {pc pc' : DebitPc} (h : DebitMove rd m call db pc pc' db') :
    pc'.stepsLeft m < pc.stepsLeft m := by
  cases h <;> simp only [DebitPc.stepsLeft] <;> omega

/-- However its steps interleave with others', a call makes at most
`2 * max_retries + 2` of them. -/
theorem ownSteps_add_stepsLeft_le {db₀ : MockDatabaseShard} {tr : List (OccTransition ι)} (i : ι)
    (hrun : Run (occStep rd m calls) (.start db₀) tr s) :
    tr.countP (fun t => t.event = .call i) + (s.pc i).stepsLeft m
      ≤ 2 * m.maxRetries.toNat + 2 := by
  refine hrun.invariant (fun tr s => tr.countP (fun t => t.event = .call i) +
    (s.pc i).stepsLeft m ≤ 2 * m.maxRetries.toNat + 2) ?_ ?_
  · simp [OccSystem.start, DebitPc.stepsLeft]
  · intro tr s e s' _ ih hstep
    rw [List.countP_append, List.countP_singleton]
    by_cases he : e = .call i
    · subst he
      have hlt := (occStep_call hstep).1.stepsLeft_lt
      simp only [decide_true, if_true]
      omega
    · rw [pc_of_not_own hstep he]
      simpa [he] using ih

end Httpe.Occ
