/-
Httpe.Lab.Account — the OCC lab of `simulation-app/app.js`: the account
and the three button handlers that change it.

A handler runs without interruption until it awaits or ends. Only
`btn-fire-race-debits` awaits, once for each of its five transactions,
after the snapshot and before the check, so a click on it is a `RaceRun`
that waits for its timer between two segments. Any number of them
overlap, and their timers fire in any order among themselves and with
the other clicks.

Balances are whole rupees: they start at 1000 and change by 200 and 300,
so the floating-point operations of the source are exact. The console's
lines are kept without their time of day; rendering and sound are left
out, and so are the account's `id` and `status`, which nothing reads.
-/
import Httpe.Lib.Run
import Mathlib.Algebra.Order.Ring.Int
import Mathlib.Logic.Function.Basic

namespace Httpe.Lab

structure LabAccount where
  balance : ℤ := 1000
  version : ℕ := 1
  deriving DecidableEq, Repr

inductive LogType where
  | info
  | success
  | warn
  | error
  deriving DecidableEq, Repr

structure LogEntry where
  msg : String
  type : LogType
  deriving DecidableEq, Repr

/-- `balance.toFixed(2)`. -/
def toFixed (balance : ℤ) : String := s!"{balance}.00"

/-- A race handler at its `await`. -/
structure RaceWait where
  txnNum : ℕ
  /-- The transactions after this one. -/
  rest : List ℕ
  snapshotVer : ℕ
  successfulCommits : ℕ
  rejectedCount : ℕ
  deriving DecidableEq, Repr

inductive RaceRun where
  | notStarted
  | waiting (w : RaceWait)
  | finished (successfulCommits rejectedCount : ℕ)
  deriving DecidableEq, Repr

def RaceRun.commits : RaceRun → ℕ
  | notStarted => 0
  | waiting w => w.successfulCommits
  | finished successfulCommits _ => successfulCommits

/-! ## The console's lines -/

/-- The line the page comes with. -/
def systemInit : LogEntry :=
  ⟨"[SYSTEM INIT] OCC Balance Engine Initialized. Version = 1, Balance = INR 1,000.00", .info⟩

def txnStart (amount : ℤ) (currentVer : ℕ) : LogEntry :=
  ⟨s!"[TXN START] Attempting OCC Debit of INR {toFixed amount} " ++
    s!"with expected version v{currentVer}...", .info⟩

def casSuccess (account : LabAccount) (currentVer : ℕ) : LogEntry :=
  ⟨s!"[CAS SUCCESS] UPDATE accounts SET available_balance = {toFixed account.balance}, " ++
    s!"version = {account.version} WHERE version = {currentVer}. Committed with 0 locks!", .success⟩

def insufficientFunds (balance amount : ℤ) : LogEntry :=
  ⟨s!"[ERROR 422] INSUFFICIENT_FUNDS: Available balance INR {toFixed balance} " ++
    s!"< Requested INR {toFixed amount}. Aborted cleanly.", .error⟩

def raceTest (balance : ℤ) : LogEntry :=
  ⟨"⚡ [RACE TEST] Launching 5 concurrent transactions (Txn 1..5) " ++
    s!"demanding INR 300.00 each from initial balance INR {toFixed balance}...", .warn⟩

def occRetry (txnNum snapshotVer version : ℕ) : LogEntry :=
  ⟨s!"[OCC RETRY] Txn {txnNum} encountered version conflict " ++
    s!"(Expected v{snapshotVer}, Found v{version}). Retrying with backoff...", .warn⟩

def txnCommitted (txnNum : ℕ) (account : LabAccount) : LogEntry :=
  ⟨s!"[TXN {txnNum} COMMITTED] Balance now INR {toFixed account.balance}, " ++
    s!"Version = v{account.version}", .success⟩

def txnRejected (txnNum : ℕ) (balance amount : ℤ) : LogEntry :=
  ⟨s!"[TXN {txnNum} REJECTED] Overdraft prevented! Balance INR {toFixed balance} " ++
    s!"< INR {toFixed amount}. Status: 422 INSUFFICIENT_FUNDS", .error⟩

def raceSummary (successfulCommits rejectedCount : ℕ) : LogEntry :=
  ⟨s!"🏁 [RACE SUMMARY] {successfulCommits} debits succeeded, {rejectedCount} rejected. " ++
    "Zero double-spend anomaly verified!", .info⟩

def accountReset : LogEntry :=
  ⟨"[ACCOUNT RESET] Balance restored to INR 1,000.00 (v1)", .info⟩

/-! ## The handlers -/

def singleDebitAmount : ℤ := 200

def raceAmount : ℤ := 300

def txns : List ℕ := [1, 2, 3, 4, 5]

def LabAccount.debit (account : LabAccount) (amount : ℤ) : LabAccount :=
  ⟨account.balance - amount, account.version + 1⟩

/-- A click on `btn-fire-single-debit`. The comparison of versions its
message speaks of is not made. -/
def fireSingleDebit (account : LabAccount) (console : List LogEntry) :
    LabAccount × List LogEntry :=
  let currentVer := account.version
  let console := console ++ [txnStart singleDebitAmount currentVer]
  if singleDebitAmount ≤ account.balance then
    let account := account.debit singleDebitAmount
    (account, console ++ [casSuccess account currentVer])
  else (account, console ++ [insufficientFunds account.balance singleDebitAmount])

/-- The head of the race's loop: the next transaction takes its snapshot
and awaits, or the race is over. -/
def raceLoop (account : LabAccount) (console : List LogEntry)
    (successfulCommits rejectedCount : ℕ) : List ℕ → RaceRun × List LogEntry
  | txnNum :: rest =>
      (.waiting ⟨txnNum, rest, account.version, successfulCommits, rejectedCount⟩, console)
  | [] =>
      (.finished successfulCommits rejectedCount,
        console ++ [raceSummary successfulCommits rejectedCount])

/-- A click on `btn-fire-race-debits`, up to its first `await`. -/
def fireRaceDebits (account : LabAccount) (console : List LogEntry) : RaceRun × List LogEntry :=
  raceLoop account (console ++ [raceTest account.balance]) 0 0 txns

/-- A transaction after its `await`. A version conflict is logged as a
retry, and the transaction goes on as if there were none. -/
def afterAwait (account : LabAccount) (console : List LogEntry) (w : RaceWait) :
    LabAccount × RaceRun × List LogEntry :=
  let console :=
    if account.version ≠ w.snapshotVer then
      console ++ [occRetry w.txnNum w.snapshotVer account.version]
    else console
  if raceAmount ≤ account.balance then
    let account := account.debit raceAmount
    (account, raceLoop account (console ++ [txnCommitted w.txnNum account])
      (w.successfulCommits + 1) w.rejectedCount w.rest)
  else
    (account, raceLoop account (console ++ [txnRejected w.txnNum account.balance raceAmount])
      w.successfulCommits (w.rejectedCount + 1) w.rest)

/-- A click on `btn-reset-lab-account`. -/
def resetLabAccount (console : List LogEntry) : LabAccount × List LogEntry :=
  (⟨1000, 1⟩, console ++ [accountReset])

/-! ## The page -/

/-- A click, or the timer of a race run. -/
inductive LabEvent (ρ : Type*) where
  | raceDebits (r : ρ)
  | timer (r : ρ)
  | singleDebit
  | reset
  deriving DecidableEq

/-- The race run whose code the event runs. -/
def LabEvent.run {ρ : Type*} : LabEvent ρ → Option ρ
  | raceDebits r | timer r => some r
  | singleDebit | reset => none

structure LabState (ρ : Type*) where
  account : LabAccount
  race : ρ → RaceRun
  console : List LogEntry

/-- The page as it loads. -/
def LabState.start {ρ : Type*} : LabState ρ := ⟨{}, fun _ => .notStarted, [systemInit]⟩

variable {ρ : Type*} [DecidableEq ρ]

def labStep (s : LabState ρ) : LabEvent ρ → Option (LabState ρ)
  | .raceDebits r =>
      match s.race r with
      | .notStarted =>
          let (race, console) := fireRaceDebits s.account s.console
          some ⟨s.account, Function.update s.race r race, console⟩
      | _ => none
  | .timer r =>
      match s.race r with
      | .waiting w =>
          let (account, race, console) := afterAwait s.account s.console w
          some ⟨account, Function.update s.race r race, console⟩
      | _ => none
  | .singleDebit =>
      let (account, console) := fireSingleDebit s.account s.console
      some ⟨account, s.race, console⟩
  | .reset =>
      let (account, console) := resetLabAccount s.console
      some ⟨account, s.race, console⟩

abbrev LabTransition (ρ : Type*) := Transition (LabState ρ) (LabEvent ρ)

/-! ## Every step -/

/-- What a step does to the account and to its race run. -/
inductive LabMove (s : LabState ρ) : LabEvent ρ → LabState ρ → Prop
  | launched {r : ρ} {console : List LogEntry} (hrace : s.race r = .notStarted) :
      LabMove s (.raceDebits r)
        ⟨s.account, Function.update s.race r (.waiting ⟨1, [2, 3, 4, 5], s.account.version, 0, 0⟩),
          console⟩
  | committed {r : ρ} {w : RaceWait} {next : RaceRun} {console : List LogEntry}
      (hrace : s.race r = .waiting w) (hfunds : raceAmount ≤ s.account.balance)
      (hcommits : next.commits = w.successfulCommits + 1)
      (hsnapshot : ∀ w', next = .waiting w' → w'.snapshotVer = s.account.version + 1) :
      LabMove s (.timer r)
        ⟨s.account.debit raceAmount, Function.update s.race r next, console⟩
  | rejected {r : ρ} {w : RaceWait} {next : RaceRun} {console : List LogEntry}
      (hrace : s.race r = .waiting w) (hfunds : s.account.balance < raceAmount)
      (hcommits : next.commits = w.successfulCommits)
      (hsnapshot : ∀ w', next = .waiting w' → w'.snapshotVer = s.account.version) :
      LabMove s (.timer r) ⟨s.account, Function.update s.race r next, console⟩
  | debited {console : List LogEntry} (hfunds : singleDebitAmount ≤ s.account.balance) :
      LabMove s .singleDebit ⟨s.account.debit singleDebitAmount, s.race, console⟩
  | refused {console : List LogEntry} (hfunds : s.account.balance < singleDebitAmount) :
      LabMove s .singleDebit ⟨s.account, s.race, console⟩
  | reset {console : List LogEntry} : LabMove s .reset ⟨{}, s.race, console⟩

/-- The loop's head snapshots the version it finds. -/
theorem raceLoop_spec (account : LabAccount) (console : List LogEntry) (i j : ℕ) (rest : List ℕ) :
    (raceLoop account console i j rest).1.commits = i ∧
      ∀ w, (raceLoop account console i j rest).1 = .waiting w →
        w.snapshotVer = account.version := by
  cases rest with
  | nil => exact ⟨rfl, nofun⟩
  | cons txnNum rest =>
      refine ⟨rfl, fun w hw => ?_⟩
      cases hw
      rfl

theorem labMove_of_step {s s' : LabState ρ} {e : LabEvent ρ} (h : labStep s e = some s') :
    LabMove s e s' := by
  cases e with
  | raceDebits r =>
      simp only [labStep] at h
      split at h
      · rename_i hrace
        cases h
        exact .launched hrace
      · cases h
  | timer r =>
      simp only [labStep] at h
      split at h
      · rename_i w hrace
        simp only [afterAwait] at h
        by_cases hfunds : raceAmount ≤ s.account.balance
        · rw [if_pos hfunds] at h
          cases h
          obtain ⟨hcommits, hsnapshot⟩ := raceLoop_spec (s.account.debit raceAmount) _ _ _ w.rest
          exact .committed hrace hfunds hcommits hsnapshot
        · rw [if_neg hfunds] at h
          cases h
          obtain ⟨hcommits, hsnapshot⟩ := raceLoop_spec s.account _ _ _ w.rest
          exact .rejected hrace (not_le.mp hfunds) hcommits hsnapshot
      · cases h
  | singleDebit =>
      simp only [labStep, fireSingleDebit] at h
      by_cases hfunds : singleDebitAmount ≤ s.account.balance
      · rw [if_pos hfunds] at h
        cases h
        exact .debited hfunds
      · rw [if_neg hfunds] at h
        cases h
        exact .refused (not_le.mp hfunds)
  | reset =>
      cases h
      exact .reset

end Httpe.Lab
