/-
Httpe.Occ.Linearizable — `debit_with_occ` is linearizable.

`sequentialDebit` is the whole call as one indivisible operation on the
shard. A `LinearizationPoint` of a call is a store access it makes at
which that operation, run on the store as it was just before, gives the
call's outcome and the store the access left behind:

* for a refusal it is the snapshot read the refusal was decided on;
* for a success it is the compare-and-swap that returned `True`. Between
  the read and that swap anything may have happened, but the swap tests
  the row again, so the sequential operation succeeds there too; and if
  its subtraction overflows, so does the sequential one.

`CallInv` carries this along a run, one clause per program point. Every
step of the call itself is one `DebitMove`; every other step leaves the
call's program point and only adds foreign transitions to the history.
-/
import Httpe.Occ.Manager

namespace Httpe.Occ

open Decimal

/-- The sequential specification: missing, not ACTIVE, too little, or
take the amount and add one to the version. -/
def sequentialDebit (rd : Rounding) (call : DebitCall) (db : MockDatabaseShard) :
    Except DebitError Bool × MockDatabaseShard :=
  match db.store call.accountId with
  | none => (.error (.notFound call.accountId), db)
  | some account =>
      if account.status ≠ .active then
        (.error (.accountFrozen call.accountId account.status), db)
      else if account.availableBalance < call.amount then
        (.error (.insufficientFunds account.availableBalance call.amount), db)
      else
        match rd.round (account.availableBalance - call.amount) with
        | none => (.error (.decimal .overflow), db)
        | some balance => (.ok true, db.put call.accountId (account.updated balance))

section Sequential

variable {rd : Rounding} {call : DebitCall} {db : MockDatabaseShard} {row account : AccountRecord}
  {balance : ℚ}

theorem sequentialDebit_missing (hrow : db.store call.accountId = none) :
    sequentialDebit rd call db = (.error (.notFound call.accountId), db) := by
  simp [sequentialDebit, hrow]

theorem sequentialDebit_frozen (hrow : db.store call.accountId = some row)
    (hst : row.status ≠ .active) :
    sequentialDebit rd call db = (.error (.accountFrozen call.accountId row.status), db) := by
  simp [sequentialDebit, hrow, hst]

theorem sequentialDebit_insufficient (hrow : db.store call.accountId = some row)
    (hst : row.status = .active) (hlt : row.availableBalance < call.amount) :
    sequentialDebit rd call db
      = (.error (.insufficientFunds row.availableBalance call.amount), db) := by
  simp [sequentialDebit, hrow, hst, hlt]

/-- Whatever snapshot the swap was computed from, if the row admits it
the sequential operation computes the same balance from that row. -/
theorem sequentialDebit_of_admits (hrow : db.store call.accountId = some row)
    (hadm : (call.cas account).Admits row) :
    sequentialDebit rd call db =
      match (call.cas account).newBalance rd row with
      | none => (.error (.decimal .overflow), db)
      | some balance => (.ok true, db.put call.accountId (row.updated balance)) := by
  obtain ⟨hst, -, hle⟩ := hadm
  simp only [sequentialDebit, hrow, hst, not_lt.mpr hle, ne_eq, not_true_eq_false, if_false,
    CasCall.newBalance, DebitCall.cas, CasCall.delta, sub_eq_add_neg]

theorem sequentialDebit_of_commits (hrow : db.store call.accountId = some row)
    (hcommits : (call.cas account).Commits rd row balance) :
    sequentialDebit rd call db = (.ok true, db.put call.accountId (row.updated balance)) := by
  rw [sequentialDebit_of_admits hrow hcommits.admits, hcommits.newBalance]

theorem sequentialDebit_overflow (hrow : db.store call.accountId = some row)
    (hadm : (call.cas account).Admits row) (hnone : (call.cas account).newBalance rd row = none) :
    sequentialDebit rd call db = (.error (.decimal .overflow), db) := by
  rw [sequentialDebit_of_admits hrow hadm, hnone]

end Sequential

variable {ι : Type*}

/-- Call `i`'s own store access `t` is where `outcome` takes effect. -/
structure LinearizationPoint (rd : Rounding) (m : OCCBalanceManager) (calls : ι → DebitCall)
    (i : ι) (outcome : Except DebitError Bool) (t : OccTransition ι) : Prop where
  own : t.event = .call i
  access : ((t.pre.pc i).access m).isSome
  sequential : sequentialDebit rd (calls i) t.pre.db = (outcome, t.post.db)

/-- Call `i` itself changed nothing in the store. -/
def Quiet (i : ι) (tr : List (OccTransition ι)) : Prop :=
  ∀ t ∈ tr, t.event = .call i → t.post.db = t.pre.db

/-- Call `i` changed the store exactly once, where its success takes effect. -/
def CommittedOnce (rd : Rounding) (m : OCCBalanceManager) (calls : ι → DebitCall) (i : ι)
    (tr : List (OccTransition ι)) : Prop :=
  ∃ l t r, tr = l ++ t :: r ∧ LinearizationPoint rd m calls i (.ok true) t ∧
    t.post.db ≠ t.pre.db ∧ Quiet i (l ++ r)

/-- What the history of a run says about call `i` at each program point. -/
def CallInv (rd : Rounding) (m : OCCBalanceManager) (calls : ι → DebitCall) (i : ι)
    (tr : List (OccTransition ι)) : DebitPc → MockDatabaseShard → Prop
  | .entry, _ => Quiet i tr
  | .loop _, _ | .cas _ _, _ => Quiet i tr ∧ 0 < (calls i).amount
  | .reread _, db => CommittedOnce rd m calls i tr ∧ (db.store (calls i).accountId).isSome
  | .done (.ok r), _ => r.1 = true ∧ CommittedOnce rd m calls i tr
  | .done (.error e), _ => Quiet i tr ∧ e ≠ .attributeError ∧
      (e.decidedByRow = true → ∃ t ∈ tr, LinearizationPoint rd m calls i (.error e) t)

variable {rd : Rounding} {m : OCCBalanceManager} {calls : ι → DebitCall} {i : ι}
  {tr : List (OccTransition ι)} {t : OccTransition ι}

theorem Quiet.snoc (h : Quiet i tr) (ht : t.event = .call i → t.post.db = t.pre.db) :
    Quiet i (tr ++ [t]) :=
  forall_mem_snoc h ht

theorem CommittedOnce.snoc (h : CommittedOnce rd m calls i tr)
    (ht : t.event = .call i → t.post.db = t.pre.db) : CommittedOnce rd m calls i (tr ++ [t]) := by
  obtain ⟨l, u, r, rfl, hpoint, hne, hquiet⟩ := h
  refine ⟨l, u, r ++ [t], by simp, hpoint, hne, ?_⟩
  rw [← List.append_assoc]
  exact hquiet.snoc ht

/-- What a row decides is linearized at the access that finds the row. -/
theorem CallInv.refuse (hquiet : Quiet i tr) (hown : t.event = .call i) {e : DebitError}
    (haccess : ((t.pre.pc i).access m).isSome) (hdb : t.post.db = t.pre.db)
    (hdecided : e.decidedByRow = true)
    (hseq : sequentialDebit rd (calls i) t.pre.db = (.error e, t.pre.db)) :
    CallInv rd m calls i (tr ++ [t]) (.done (.error e)) t.post.db := by
  refine ⟨hquiet.snoc fun _ => hdb, ?_, fun _ => ⟨t, by simp, hown, haccess, ?_⟩⟩
  · rintro rfl
    simp [DebitError.decidedByRow] at hdecided
  · rw [hdb]
    exact hseq

/-- A step of the call itself. -/
theorem CallInv.own (h : CallInv rd m calls i tr (t.pre.pc i) t.pre.db) (hown : t.event = .call i)
    (hmove : DebitMove rd m (calls i) t.pre.db (t.pre.pc i) (t.post.pc i) t.post.db) :
    CallInv rd m calls i (tr ++ [t]) (t.post.pc i) t.post.db := by
  have hread : ∀ {a : ℕ}, (a : ℤ) < m.maxRetries → t.pre.pc i = .loop a →
      ((t.pre.pc i).access m).isSome := fun ha hpc => by simp [hpc, DebitPc.access, ha]
  generalize hpc : t.pre.pc i = pc at h hmove
  generalize t.post.pc i = pc' at hmove ⊢
  generalize hdb : t.post.db = db' at hmove
  cases hmove with
  | invalid _ => exact ⟨Quiet.snoc h fun _ => hdb, nofun, nofun⟩
  | begin hamount => exact ⟨Quiet.snoc h fun _ => hdb, hamount⟩
  | exhausted _ => exact ⟨h.1.snoc fun _ => hdb, nofun, nofun⟩
  | missing ha hrow =>
      rw [← hdb]
      exact .refuse h.1 hown (hread ha hpc) hdb rfl (sequentialDebit_missing hrow)
  | frozen ha hrow hst =>
      rw [← hdb]
      exact .refuse h.1 hown (hread ha hpc) hdb rfl (sequentialDebit_frozen hrow hst)
  | insufficient ha hrow hst hlt =>
      rw [← hdb]
      exact .refuse h.1 hown (hread ha hpc) hdb rfl (sequentialDebit_insufficient hrow hst hlt)
  | overflow hrow hadm hnone =>
      rw [← hdb]
      exact .refuse h.1 hown (by simp [hpc, DebitPc.access]) hdb rfl
        (sequentialDebit_overflow hrow hadm hnone)
  | snapshot _ _ _ _ => exact ⟨h.1.snoc fun _ => hdb, h.2⟩
  | conflict _ _ => exact ⟨h.1.snoc fun _ => hdb, h.2⟩
  | sleepless _ _ => exact ⟨h.1.snoc fun _ => hdb, nofun, nofun⟩
  | @commit a account row balance hrow hcommits =>
      refine ⟨⟨tr, t, [], by simp, ⟨hown, by simp [hpc, DebitPc.access], ?_⟩, ?_, ?_⟩, by simp⟩
      · rw [hdb]; exact sequentialDebit_of_commits hrow hcommits
      · -- the version moved, so the store did
        intro heq
        have hstore := congrArg (fun db => (db.store (calls i).accountId)) (hdb.symm.trans heq)
        simp only [MockDatabaseShard.put_store_self, hrow, Option.some.injEq] at hstore
        have hver := congrArg AccountRecord.version hstore
        simp at hver
      · simpa using h.1
  | report _ => exact ⟨rfl, h.1.snoc fun _ => hdb⟩
  | vanished hrow => have hsome := h.2; simp [hrow] at hsome

variable [DecidableEq ι]

/-- A compare-and-swap or a read never removes a row. -/
theorem isSome_of_occStep {s s' : OccSystem ι} {e : OccEvent ι} {a : String}
    (hstep : occStep rd m calls s e = some s') (h : (s.db.store a).isSome) :
    (s'.db.store a).isSome := by
  have hput : ∀ b row, ((s.db.put b row).store a).isSome := by
    intro b row
    by_cases hab : a = b
    · simp [hab]
    · rwa [MockDatabaseShard.put_store_of_ne _ hab]
  cases e with
  | call j =>
      have hmove := (occStep_call hstep).1
      generalize s.pc j = pc at hmove
      generalize s'.pc j = pc' at hmove
      generalize s'.db = db' at hmove ⊢
      cases hmove <;> first | exact h | exact hput _ _
  | client c =>
      rw [(occStep_client hstep).1]
      rcases c.execute_commits_or_keeps rd s.db with ⟨row, balance, -, -, hex⟩ | ⟨-, hkept⟩
      · rw [hex]
        exact hput _ _
      · rw [hkept]
        exact h

/-- A step of anyone else keeps what the history says about call `i`. -/
theorem CallInv.other (h : CallInv rd m calls i tr (t.pre.pc i) t.pre.db)
    (hstep : occStep rd m calls t.pre t.event = some t.post) (hne : t.event ≠ .call i) :
    CallInv rd m calls i (tr ++ [t]) (t.post.pc i) t.post.db := by
  rw [pc_of_not_own hstep hne]
  have hforeign : t.event = .call i → t.post.db = t.pre.db := fun ht => absurd ht hne
  cases hpc : t.pre.pc i with
  | entry => rw [hpc] at h; exact Quiet.snoc h hforeign
  | loop a => rw [hpc] at h; exact ⟨h.1.snoc hforeign, h.2⟩
  | cas a account => rw [hpc] at h; exact ⟨h.1.snoc hforeign, h.2⟩
  | reread a => rw [hpc] at h; exact ⟨h.1.snoc hforeign, isSome_of_occStep hstep h.2⟩
  | done result =>
      rw [hpc] at h
      cases result with
      | ok r => exact ⟨h.1, h.2.snoc hforeign⟩
      | error e =>
          refine ⟨h.1.snoc hforeign, h.2.1, fun hdecided => ?_⟩
          obtain ⟨u, hu, hpoint⟩ := h.2.2 hdecided
          exact ⟨u, List.mem_append_left _ hu, hpoint⟩

theorem callInv_of_run {db₀ : MockDatabaseShard} {s : OccSystem ι} (i : ι)
    (hrun : Run (occStep rd m calls) (.start db₀) tr s) :
    CallInv rd m calls i tr (s.pc i) s.db := by
  refine hrun.invariant (fun tr s => CallInv rd m calls i tr (s.pc i) s.db) ?_ ?_
  · intro t ht; simp at ht
  · intro tr s e s' _ ih hstep
    by_cases he : e = .call i
    · subst he
      exact CallInv.own (t := ⟨s, .call i, s'⟩) ih rfl (occStep_call hstep).1
    · exact CallInv.other (t := ⟨s, e, s'⟩) ih hstep he

/-- **Linearizability.** In every interleaving of `debit_with_occ` calls
with each other and with other clients' updates, and for every retry
budget: a call that succeeded changed the store at exactly one of its
own accesses, where the sequential operation succeeds with that store;
a call that raised never changed the store, and a refusal (or an
overflow) it raised is what the sequential operation answers at one of its
own accesses. -/
theorem debitWithOcc_linearizable {db₀ : MockDatabaseShard} {s : OccSystem ι}
    (hrun : Run (occStep rd m calls) (.start db₀) tr s) {result : DebitResult}
    (hdone : s.pc i = .done result) :
    (∀ r, result = .ok r → r.1 = true ∧
      ∃ l t rest, tr = l ++ t :: rest ∧ LinearizationPoint rd m calls i (.ok true) t ∧
        t.post.db ≠ t.pre.db ∧
        ∀ u ∈ l ++ rest, u.event = .call i → u.post.db = u.pre.db) ∧
    (∀ e, result = .error e →
      (∀ t ∈ tr, t.event = .call i → t.post.db = t.pre.db) ∧
      (e.decidedByRow = true →
        ∃ t ∈ tr, LinearizationPoint rd m calls i (.error e) t ∧ t.post.db = t.pre.db)) := by
  have hinv := callInv_of_run i hrun
  rw [hdone] at hinv
  constructor
  · rintro r rfl
    exact hinv
  · rintro e rfl
    refine ⟨hinv.1, fun hdecided => ?_⟩
    obtain ⟨t, ht, hpoint⟩ := hinv.2.2 hdecided
    exact ⟨t, ht, hpoint, hinv.1 t ht hpoint.own⟩

/-- Two debits of the self-test's account. -/
def raceCalls : Bool → DebitCall
  | false => { accountId := "acc-1", amount := 800, txnId := "txn-1" }
  | true => { accountId := "acc-1", amount := 900, txnId := "txn-2" }

/-- Both calls read INR 1500.00; the first one swaps, the second one
loses the swap and finds too little when it reads again. -/
def raceSchedule : List (OccEvent Bool) :=
  [.call false, .call false, .call true, .call true, .call false, .call true, .call true,
   .call false]

theorem debitWithOcc_linearizable_race :
    let rd := decimalContext.rounding
    let run := exec (occStep rd {} raceCalls) (.start .selfTest) raceSchedule
    (∃ l t rest, run.1 = l ++ t :: rest ∧
      LinearizationPoint rd {} raceCalls false (.ok true) t ∧ t.post.db ≠ t.pre.db ∧
      ∀ u ∈ l ++ rest, u.event = .call false → u.post.db = u.pre.db) ∧
    (∃ t ∈ run.1,
      LinearizationPoint rd {} raceCalls true (.error (.insufficientFunds 700 900)) t ∧
      t.post.db = t.pre.db) := by
  intro rd run
  have hrun : Run (occStep rd {} raceCalls) (.start .selfTest) run.1 run.2 := run_exec _ _ _
  have hfst : run.2.pc false = .done (.ok (true, 1, 700)) := by decide +kernel
  have hsnd : run.2.pc true = .done (.error (.insufficientFunds 700 900)) := by decide +kernel
  exact ⟨((debitWithOcc_linearizable hrun hfst).1 _ rfl).2,
    ((debitWithOcc_linearizable hrun hsnd).2 _ rfl).2 rfl⟩

end Httpe.Occ
