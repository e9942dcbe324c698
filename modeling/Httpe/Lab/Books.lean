/-
Httpe.Lab.Books — the books of the OCC lab.

The race handlers compare versions and go on whatever they find, and any
number of them overlap with each other, with single debits and with
resets. What keeps the account in order all the same is that a handler runs from its check of
the balance to its debit without awaiting. `Books` is what every history
of clicks and timers leaves: the balance and the version are those of the
debits since the last reset, a race has as many outcomes behind it as
transactions, and the console has one green line for each debit and one
red line for each refusal.
-/
import Httpe.Lab.CompareAndSwap
import Mathlib.Algebra.BigOperators.Group.Finset.Basic
import Mathlib.Data.List.DropRight
import Mathlib.Tactic.Linarith

namespace Httpe.Lab

variable {ρ : Type*}

/-- A single debit goes through. -/
def singleCommit (t : LabTransition ρ) : Bool :=
  match t.event with
  | .singleDebit => commits t
  | .raceDebits _ | .timer _ | .reset => false

/-- A race transaction goes through. -/
def raceCommit (t : LabTransition ρ) : Bool :=
  match t.event with
  | .timer _ => commits t
  | .raceDebits _ | .singleDebit | .reset => false

/-- A debit does not go through. -/
def turnedDown (t : LabTransition ρ) : Bool :=
  match t.event with
  | .timer _ | .singleDebit => !commits t
  | .raceDebits _ | .reset => false

def isReset (t : LabTransition ρ) : Bool :=
  match t.event with
  | .reset => true
  | .raceDebits _ | .timer _ | .singleDebit => false

/-- The steps since the last reset. -/
def sinceReset (tr : List (LabTransition ρ)) : List (LabTransition ρ) :=
  tr.rtakeWhile fun t => !isReset t

/-- The outcomes a race has behind it are of its first transactions. -/
def RaceRun.Booked : RaceRun → Prop
  | notStarted => True
  | waiting w => w.txnNum :: w.rest = txns.drop (w.successfulCommits + w.rejectedCount)
  | finished successfulCommits rejectedCount => successfulCommits + rejectedCount = txns.length

def isSuccess (l : LogEntry) : Bool := decide (l.type = .success)

def isError (l : LogEntry) : Bool := decide (l.type = .error)

/-- What a history of clicks and timers leaves. -/
structure Books (tr : List (LabTransition ρ)) (s : LabState ρ) : Prop where
  balance : s.account.balance + singleDebitAmount * (sinceReset tr).countP singleCommit
    + raceAmount * (sinceReset tr).countP raceCommit = 1000
  version : s.account.version
    = 1 + (sinceReset tr).countP singleCommit + (sinceReset tr).countP raceCommit
  nonneg : 0 ≤ s.account.balance
  epochs : tr.countP raceCommit ≤ 3 * tr.countP isReset + (sinceReset tr).countP raceCommit
  race : ∀ r, (s.race r).Booked
  summary : ∀ r i j, s.race r = .finished i j → raceSummary i j ∈ s.console
  successes : s.console.countP isSuccess = tr.countP commits
  errors : s.console.countP isError = tr.countP turnedDown

/-! ## What a step does, with its lines -/

section Lines

variable (n v v' : ℕ) (b x : ℤ) (account : LabAccount)

@[simp] theorem txnStart_type : (txnStart x v).type = .info := rfl
@[simp] theorem casSuccess_type : (casSuccess account v).type = .success := rfl
@[simp] theorem insufficientFunds_type : (insufficientFunds b x).type = .error := rfl
@[simp] theorem raceTest_type : (raceTest b).type = .warn := rfl
@[simp] theorem occRetry_type : (occRetry n v v').type = .warn := rfl
@[simp] theorem txnCommitted_type : (txnCommitted n account).type = .success := rfl
@[simp] theorem txnRejected_type : (txnRejected n b x).type = .error := rfl
@[simp] theorem raceSummary_type : (raceSummary v v').type = .info := rfl
@[simp] theorem accountReset_type : accountReset.type = .info := rfl

end Lines

/-- The line of a transaction that finds another version. -/
def retryLines (account : LabAccount) (w : RaceWait) : List LogEntry :=
  if account.version ≠ w.snapshotVer then [occRetry w.txnNum w.snapshotVer account.version] else []

/-- The head of the race's loop writes at the console's end. -/
theorem raceLoop_append (account : LabAccount) (console : List LogEntry) (i j : ℕ)
    (rest : List ℕ) :
    raceLoop account console i j rest
      = ((raceLoop account [] i j rest).1, console ++ (raceLoop account [] i j rest).2) := by
  cases rest with
  | nil => rfl
  | cons txnNum rest => simp [raceLoop]

/-- Of the loop's head: what it leaves is booked, and a race that is over
is summed up. -/
theorem raceLoop_books (account : LabAccount) {i j : ℕ} {rest : List ℕ}
    (hrest : rest = txns.drop (i + j)) (hle : i + j ≤ txns.length) :
    (raceLoop account [] i j rest).1.Booked ∧
      (∀ i' j', (raceLoop account [] i j rest).1 = .finished i' j' →
        raceSummary i' j' ∈ (raceLoop account [] i j rest).2) ∧
      (raceLoop account [] i j rest).2.countP isSuccess = 0 ∧
      (raceLoop account [] i j rest).2.countP isError = 0 := by
  cases rest with
  | nil =>
      have hge : txns.length ≤ i + j := List.drop_eq_nil_iff.mp hrest.symm
      refine ⟨le_antisymm hle hge, ?_, ?_, ?_⟩
      · rintro i' j' ⟨⟩
        exact List.mem_singleton.mpr rfl
      · simp [raceLoop, isSuccess]
      · simp [raceLoop, isError]
  | cons txnNum rest => exact ⟨hrest, nofun, rfl, rfl⟩

variable [DecidableEq ρ] {s s' : LabState ρ} {e : LabEvent ρ} {tr : List (LabTransition ρ)}

/-- What a step leaves, line by line. -/
inductive LabEffect (s : LabState ρ) : LabEvent ρ → LabState ρ → Prop
  | launched {r : ρ} (hrace : s.race r = .notStarted) :
      LabEffect s (.raceDebits r)
        ⟨s.account, Function.update s.race r (.waiting ⟨1, [2, 3, 4, 5], s.account.version, 0, 0⟩),
          s.console ++ [raceTest s.account.balance]⟩
  | committed {r : ρ} {w : RaceWait} (hrace : s.race r = .waiting w)
      (hfunds : raceAmount ≤ s.account.balance) (account : LabAccount)
      (haccount : account = s.account.debit raceAmount) (next : RaceRun × List LogEntry)
      (hnext : next = raceLoop account [] (w.successfulCommits + 1) w.rejectedCount w.rest) :
      LabEffect s (.timer r)
        ⟨account, Function.update s.race r next.1,
          s.console ++ retryLines s.account w ++ [txnCommitted w.txnNum account] ++ next.2⟩
  | rejected {r : ρ} {w : RaceWait} (hrace : s.race r = .waiting w)
      (hfunds : s.account.balance < raceAmount) (next : RaceRun × List LogEntry)
      (hnext : next
        = raceLoop s.account [] w.successfulCommits (w.rejectedCount + 1) w.rest) :
      LabEffect s (.timer r)
        ⟨s.account, Function.update s.race r next.1, s.console ++ retryLines s.account w ++
          [txnRejected w.txnNum s.account.balance raceAmount] ++ next.2⟩
  | debited (hfunds : singleDebitAmount ≤ s.account.balance) :
      LabEffect s .singleDebit
        ⟨s.account.debit singleDebitAmount, s.race,
          s.console ++ [txnStart singleDebitAmount s.account.version] ++
            [casSuccess (s.account.debit singleDebitAmount) s.account.version]⟩
  | refused (hfunds : s.account.balance < singleDebitAmount) :
      LabEffect s .singleDebit
        ⟨s.account, s.race, s.console ++ [txnStart singleDebitAmount s.account.version] ++
          [insufficientFunds s.account.balance singleDebitAmount]⟩
  | reset : LabEffect s .reset ⟨{}, s.race, s.console ++ [accountReset]⟩

theorem labEffect_of_step (h : labStep s e = some s') : LabEffect s e s' := by
  cases e with
  | raceDebits r =>
      simp only [labStep] at h
      split at h
      · rename_i hrace
        cases h
        exact .launched hrace
      · cases h
  | timer r =>
      simp only [labStep] at h
      split at h
      · rename_i w hrace
        have hretry : (if s.account.version ≠ w.snapshotVer then
            s.console ++ [occRetry w.txnNum w.snapshotVer s.account.version] else s.console)
            = s.console ++ retryLines s.account w := by
          unfold retryLines
          split_ifs <;> simp
        simp only [afterAwait, hretry] at h
        by_cases hfunds : raceAmount ≤ s.account.balance
        · rw [if_pos hfunds, raceLoop_append] at h
          cases h
          exact .committed hrace hfunds _ rfl _ rfl
        · rw [if_neg hfunds, raceLoop_append] at h
          cases h
          exact .rejected hrace (not_le.mp hfunds) _ rfl
      · cases h
  | singleDebit =>
      simp only [labStep, fireSingleDebit] at h
      by_cases hfunds : singleDebitAmount ≤ s.account.balance
      · rw [if_pos hfunds] at h
        cases h
        exact .debited hfunds
      · rw [if_neg hfunds] at h
        cases h
        exact .refused (not_le.mp hfunds)
  | reset =>
      cases h
      exact .reset

/-! ## The books along a run -/

section Snoc

variable {t : LabTransition ρ}

omit [DecidableEq ρ] in
theorem sinceReset_snoc (h : isReset t = false) : sinceReset (tr ++ [t]) = sinceReset tr ++ [t] :=
  List.rtakeWhile_concat_pos _ _ _ (by simp [h])

omit [DecidableEq ρ] in
theorem sinceReset_snoc_of_reset (h : isReset t = true) : sinceReset (tr ++ [t]) = [] :=
  List.rtakeWhile_concat_neg _ _ _ (by simp [h])

omit [DecidableEq ρ] in
theorem countP_snoc (p : LabTransition ρ → Bool) :
    (tr ++ [t]).countP p = tr.countP p + if p t then 1 else 0 := by
  rw [List.countP_append, List.countP_singleton]

end Snoc

omit [DecidableEq ρ] in
/-- The funds of a thousand rupees are three race debits at most. -/
theorem Books.epoch_le (h : Books tr s) : (sinceReset tr).countP raceCommit ≤ 3 := by
  have hbalance := h.balance
  have hnonneg := h.nonneg
  simp only [singleDebitAmount, raceAmount] at hbalance
  omega

omit [DecidableEq ρ] in
/-- A step that debits nothing and is no reset. -/
theorem Books.same (h : Books tr s) {t : LabTransition ρ} (hreset : isReset t = false)
    (hcommit : commits t = false) (haccount : s'.account = s.account)
    (hrace : ∀ r, (s'.race r).Booked)
    (hsummary : ∀ r i j, s'.race r = .finished i j → raceSummary i j ∈ s'.console)
    (hsuccesses : s'.console.countP isSuccess = s.console.countP isSuccess)
    (herrors : s'.console.countP isError
      = s.console.countP isError + if turnedDown t then 1 else 0) :
    Books (tr ++ [t]) s' := by
  have hsingle : singleCommit t = false := by
    unfold singleCommit
    split <;> first | exact hcommit | rfl
  have hraceCommit : raceCommit t = false := by
    unfold raceCommit
    split <;> first | exact hcommit | rfl
  constructor
  · rw [sinceReset_snoc hreset, countP_snoc, countP_snoc, hsingle, hraceCommit, haccount]
    exact h.balance
  · rw [sinceReset_snoc hreset, countP_snoc, countP_snoc, hsingle, hraceCommit, haccount]
    exact h.version
  · rw [haccount]
    exact h.nonneg
  · rw [sinceReset_snoc hreset, countP_snoc, countP_snoc, countP_snoc, hraceCommit, hreset]
    exact h.epochs
  · exact hrace
  · exact hsummary
  · rw [hsuccesses, countP_snoc, hcommit]
    exact h.successes
  · rw [herrors, countP_snoc, h.errors]

omit [DecidableEq ρ] in
/-- A step that debits the account, by one kind of debit or the other. -/
theorem Books.debited (h : Books tr s) {t : LabTransition ρ} (amount : ℤ)
    (hreset : isReset t = false) (hcommit : commits t = true) (hturned : turnedDown t = false)
    (hkind : amount = singleDebitAmount ∧ singleCommit t = true ∧ raceCommit t = false ∨
      amount = raceAmount ∧ singleCommit t = false ∧ raceCommit t = true)
    (haccount : s'.account = s.account.debit amount) (hfunds : amount ≤ s.account.balance)
    (hrace : ∀ r, (s'.race r).Booked)
    (hsummary : ∀ r i j, s'.race r = .finished i j → raceSummary i j ∈ s'.console)
    (hsuccesses : s'.console.countP isSuccess = s.console.countP isSuccess + 1)
    (herrors : s'.console.countP isError = s.console.countP isError) : Books (tr ++ [t]) s' := by
  have hbalance := h.balance
  have hversion := h.version
  have hepochs := h.epochs
  have hpaid : s'.account.balance = s.account.balance - amount := by rw [haccount]; rfl
  have hnext : s'.account.version = s.account.version + 1 := by rw [haccount]; rfl
  constructor
  · rw [sinceReset_snoc hreset, countP_snoc, countP_snoc, hpaid]
    rcases hkind with ⟨rfl, hsingle, hraceCommit⟩ | ⟨rfl, hsingle, hraceCommit⟩
    · rw [hsingle, hraceCommit]
      simp
      linarith
    · rw [hsingle, hraceCommit]
      simp
      linarith
  · rw [sinceReset_snoc hreset, countP_snoc, countP_snoc, hnext, hversion]
    rcases hkind with ⟨-, hsingle, hraceCommit⟩ | ⟨-, hsingle, hraceCommit⟩
    · simp [hsingle, hraceCommit]
      omega
    · simp [hsingle, hraceCommit]
      omega
  · rw [hpaid]
    omega
  · rw [sinceReset_snoc hreset, countP_snoc, countP_snoc, countP_snoc, hreset]
    simp
    omega
  · exact hrace
  · exact hsummary
  · rw [hsuccesses, countP_snoc, hcommit, h.successes]
    rfl
  · rw [herrors, countP_snoc, hturned, h.errors]
    rfl

omit [DecidableEq ρ] in
/-- A reset begins the books anew. -/
theorem Books.reset (h : Books tr s) {t : LabTransition ρ} (hreset : t.event = .reset)
    (haccount : s'.account = {}) (hrace : s'.race = s.race)
    (hconsole : s'.console = s.console ++ [accountReset]) : Books (tr ++ [t]) s' := by
  have hsince : sinceReset (tr ++ [t]) = [] := sinceReset_snoc_of_reset (by simp [isReset, hreset])
  have hepoch := h.epoch_le
  have hepochs := h.epochs
  constructor
  · rw [hsince, haccount]
    rfl
  · rw [hsince, haccount]
    rfl
  · rw [haccount]
    decide
  · rw [hsince, countP_snoc, countP_snoc]
    simp [raceCommit, isReset, hreset]
    omega
  · rw [hrace]
    exact h.race
  · intro r i j hr
    rw [hrace] at hr
    rw [hconsole]
    exact List.mem_append_left _ (h.summary r i j hr)
  · rw [hconsole, countP_snoc, List.countP_append, h.successes]
    simp [isSuccess, commits, hreset]
  · rw [hconsole, countP_snoc, List.countP_append, h.errors]
    simp [isError, turnedDown, hreset]

theorem RaceRun.Booked.rest {w : RaceWait} (h : (RaceRun.waiting w).Booked) :
    w.rest = txns.drop (w.successfulCommits + w.rejectedCount + 1) ∧
      w.successfulCommits + w.rejectedCount + 1 ≤ txns.length := by
  have hdrop : w.txnNum :: w.rest = txns.drop (w.successfulCommits + w.rejectedCount) := h
  constructor
  · rw [← List.tail_drop, ← hdrop]
    rfl
  · have hlength := congrArg List.length hdrop
    rw [List.length_cons, List.length_drop] at hlength
    omega

/-- The run whose code a step runs is booked, and the others as before. -/
theorem booked_update {race : ρ → RaceRun} {r : ρ} {next : RaceRun}
    (h : ∀ k, (race k).Booked) (hnext : next.Booked) :
    ∀ k, (Function.update race r next k).Booked := by
  intro k
  by_cases hk : k = r
  · subst hk
    rwa [Function.update_self]
  · rw [Function.update_of_ne hk]
    exact h k

theorem summary_update {race : ρ → RaceRun} {r : ρ} {next : RaceRun}
    {console lines : List LogEntry}
    (h : ∀ k i j, race k = .finished i j → raceSummary i j ∈ console)
    (hnext : ∀ i j, next = .finished i j → raceSummary i j ∈ console ++ lines) :
    ∀ k i j, Function.update race r next k = .finished i j →
      raceSummary i j ∈ console ++ lines := by
  intro k i j hk
  by_cases hkr : k = r
  · subst hkr
    rw [Function.update_self] at hk
    exact hnext i j hk
  · rw [Function.update_of_ne hkr] at hk
    exact List.mem_append_left _ (h k i j hk)

theorem countP_retryLines (account : LabAccount) (w : RaceWait) :
    (retryLines account w).countP isSuccess = 0 ∧ (retryLines account w).countP isError = 0 := by
  unfold retryLines
  split_ifs
  · simp [isSuccess, isError]
  · simp

theorem Books.step (h : Books tr s) (heffect : LabEffect s e s') :
    Books (tr ++ [⟨s, e, s'⟩]) s' := by
  cases heffect with
  | @launched r hrace =>
      apply h.same
      · rfl
      · simp [commits]
      · rfl
      · exact booked_update h.race rfl
      · exact summary_update h.summary fun i j hk => by cases hk
      · simp [List.countP_append, isSuccess]
      · simp [List.countP_append, isError, turnedDown]
  | @committed r w hrace hfunds account haccount next hnext =>
      subst haccount
      obtain ⟨hrest, hle⟩ := RaceRun.Booked.rest (hrace ▸ h.race r)
      have hrest' : w.rest = txns.drop (w.successfulCommits + 1 + w.rejectedCount) := by
        rw [hrest, Nat.add_right_comm]
      have hloop := raceLoop_books (s.account.debit raceAmount) hrest' (by omega)
      obtain ⟨hbooked, hsummed, hgreen, hred⟩ := hloop
      rw [← hnext] at hbooked hsummed hgreen hred
      apply h.debited raceAmount
      · rfl
      · simp [commits, debit_ne]
      · simp [turnedDown, commits, debit_ne]
      · exact .inr ⟨rfl, rfl, by simp [raceCommit, commits, debit_ne]⟩
      · rfl
      · exact hfunds
      · exact booked_update h.race hbooked
      · rw [List.append_assoc, List.append_assoc]
        exact summary_update h.summary fun i j hij => by simp [hsummed i j hij]
      · simp [List.countP_append, countP_retryLines, hgreen, isSuccess]
      · simp [List.countP_append, countP_retryLines, hred, isError]
  | @rejected r w hrace hfunds next hnext =>
      obtain ⟨hrest, hle⟩ := RaceRun.Booked.rest (hrace ▸ h.race r)
      have hrest' : w.rest = txns.drop (w.successfulCommits + (w.rejectedCount + 1)) := by
        rw [hrest, Nat.add_assoc]
      have hloop := raceLoop_books s.account hrest' (by omega)
      obtain ⟨hbooked, hsummed, hgreen, hred⟩ := hloop
      rw [← hnext] at hbooked hsummed hgreen hred
      apply h.same
      · rfl
      · simp [commits]
      · rfl
      · exact booked_update h.race hbooked
      · rw [List.append_assoc, List.append_assoc]
        exact summary_update h.summary fun i j hij => by simp [hsummed i j hij]
      · simp [List.countP_append, countP_retryLines, hgreen, isSuccess]
      · simp [List.countP_append, countP_retryLines, hred, isError, turnedDown, commits]
  | debited hfunds =>
      apply h.debited singleDebitAmount
      · rfl
      · simp [commits, debit_ne]
      · simp [turnedDown, commits, debit_ne]
      · exact .inl ⟨rfl, by simp [singleCommit, commits, debit_ne], rfl⟩
      · rfl
      · exact hfunds
      · exact h.race
      · intro k i j hk
        simp [h.summary k i j hk]
      · simp [List.countP_append, isSuccess]
      · simp [List.countP_append, isError]
  | refused hfunds =>
      apply h.same
      · rfl
      · simp [commits]
      · rfl
      · exact h.race
      · intro k i j hk
        simp [h.summary k i j hk]
      · simp [List.countP_append, isSuccess]
      · simp [List.countP_append, isError, turnedDown, commits]
  | reset => exact h.reset rfl rfl rfl rfl

theorem books_of_run (hrun : Run labStep .start tr s) : Books tr s := by
  refine hrun.invariant (fun tr s => Books tr s) ?_
    fun _ _ _ _ _ ih hstep => ih.step (labEffect_of_step hstep)
  constructor
  · rfl
  · rfl
  · show (0 : ℤ) ≤ 1000
    decide
  · exact Nat.zero_le _
  · exact fun _ => trivial
  · exact fun r i j hr => by cases hr
  · rfl
  · rfl

theorem sum_commits_update [Fintype ρ] (race : ρ → RaceRun) (r : ρ) (next : RaceRun) :
    ∑ k, (Function.update race r next k).commits + (race r).commits
      = ∑ k, (race k).commits + next.commits := by
  rw [← Finset.add_sum_erase _ _ (Finset.mem_univ r),
    ← Finset.add_sum_erase Finset.univ (fun k => (race k).commits) (Finset.mem_univ r)]
  have hothers : ∑ k ∈ Finset.univ.erase r, (Function.update race r next k).commits
      = ∑ k ∈ Finset.univ.erase r, (race k).commits :=
    Finset.sum_congr rfl fun k hk => by rw [Function.update_of_ne (Finset.ne_of_mem_erase hk)]
  rw [hothers, Function.update_self]
  omega

/-- What the races report is what they debited. -/
theorem sum_commits_of_run [Fintype ρ] (hrun : Run labStep .start tr s) :
    ∑ r, (s.race r).commits = tr.countP raceCommit := by
  refine hrun.invariant (fun tr s => ∑ r, (s.race r).commits = tr.countP raceCommit) ?_ ?_
  · simp [LabState.start, RaceRun.commits]
  · intro tr s e s' _ ih hstep
    rw [countP_snoc, ← ih]
    cases labMove_of_step hstep with
    | @launched r console hrace =>
        have hsum := sum_commits_update s.race r
          (.waiting ⟨1, [2, 3, 4, 5], s.account.version, 0, 0⟩)
        simpa [hrace, RaceRun.commits, raceCommit] using hsum
    | @committed r w next console hrace hfunds hcommits hsnapshot =>
        have hsum := sum_commits_update s.race r next
        rw [hrace, hcommits] at hsum
        have hcommit : raceCommit (⟨s, .timer r, ⟨s.account.debit raceAmount,
            Function.update s.race r next, console⟩⟩ : LabTransition ρ) = true := by
          simp [raceCommit, Httpe.Lab.commits, debit_ne]
        rw [hcommit]
        simp only [RaceRun.commits, if_true] at hsum ⊢
        omega
    | @rejected r w next console hrace hfunds hcommits hsnapshot =>
        have hsum := sum_commits_update s.race r next
        rw [hrace, hcommits] at hsum
        have hcommit : raceCommit (⟨s, .timer r, ⟨s.account, Function.update s.race r next,
            console⟩⟩ : LabTransition ρ) = false := by
          simp [raceCommit, Httpe.Lab.commits]
        rw [hcommit]
        simp only [RaceRun.commits] at hsum ⊢
        simp
        omega
    | debited | refused | reset => rfl

/-- **The books of the lab.** However races, single debits and resets
interleave, and although a handler that finds another version goes on as
if it had not: the balance is never negative, and it and the version are
those of the debits since the last reset; the races together succeed at
most `3 * (resets + 1)` times; a finished race has five outcomes and its
summary on the console, and the console shows each debit and each refusal
once. -/
theorem lab_books [Fintype ρ] (hrun : Run labStep (.start : LabState ρ) tr s) :
    (0 ≤ s.account.balance ∧
      s.account.balance = 1000 - singleDebitAmount * (sinceReset tr).countP singleCommit
        - raceAmount * (sinceReset tr).countP raceCommit ∧
      s.account.version
        = 1 + (sinceReset tr).countP singleCommit + (sinceReset tr).countP raceCommit) ∧
    ∑ r, (s.race r).commits ≤ 3 * (tr.countP isReset + 1) ∧
    (∀ r i j, s.race r = .finished i j → i + j = 5 ∧ raceSummary i j ∈ s.console) ∧
    s.console.countP isSuccess = tr.countP commits ∧
    s.console.countP isError = tr.countP turnedDown := by
  have hbooks := books_of_run hrun
  have hbalance := hbooks.balance
  have hepochs := hbooks.epochs
  have hepoch := hbooks.epoch_le
  refine ⟨⟨hbooks.nonneg, by linarith, hbooks.version⟩, ?_, fun r i j hr => ⟨?_, ?_⟩,
    hbooks.successes, hbooks.errors⟩
  · rw [sum_commits_of_run hrun]
    omega
  · have hbooked := hbooks.race r
    rw [hr] at hbooked
    exact hbooked
  · exact hbooks.summary r i j hr

/-- Two races overlap with a single debit. -/
def overlappingRaces : List (LabEvent Bool) :=
  [.raceDebits false, .raceDebits true, .timer false, .timer true, .singleDebit, .timer true,
    .timer false, .timer false, .timer false, .timer false]

theorem lab_books_overlappingRaces :
    let run := exec labStep (.start : LabState Bool) overlappingRaces
    run.2.account = ⟨200, 4⟩ ∧ run.2.race false = .finished 1 4 ∧
      raceSummary 1 4 ∈ run.2.console ∧ ∑ r, (run.2.race r).commits ≤ 3 := by
  intro run
  have hrun : Run labStep .start run.1 run.2 := run_exec _ _ _
  have hbooks := lab_books hrun
  have hfinished : run.2.race false = .finished 1 4 := by decide +kernel
  have hnone : run.1.countP isReset = 0 := by decide +kernel
  have hsum := hbooks.2.1
  rw [hnone] at hsum
  exact ⟨by decide +kernel, hfinished, (hbooks.2.2.1 false 1 4 hfinished).2, hsum⟩

end Httpe.Lab
