/-
Httpe.Occ.Serial — `debit_with_occ` is serializable.

`Httpe.Occ.Linearizable` places each call by itself. Here all of them are
placed at once: the bank of this module makes every debit in one
indivisible step (`sequentialDebit`) and knows no snapshot, no version
check and no retry. A run of the code shows such a step where a call
commits or is refused by the row it finds, and a `giveUp` where it raises
for another reason. That one is no operation of a bank, only a mark of
where such a call ended: it changes nothing, and it may stand anywhere.
An outcome says whether the call succeeded and if not what it raised; the
attempts and the reported balance are not part of it.

* `serial_simulation`: whatever the code does, the bank does too, in the
  order of what is shown, with the same store and the same outcomes.
* `serial_realizes`: whatever the bank does without giving up on a
  positive amount, the code can do, if it tries at all.
-/
import Httpe.Lib.Refinement
import Httpe.Occ.Linearizable

namespace Httpe.Occ

open Decimal

/-- Why a call raises without a row having decided it. -/
inductive GiveUp where
  | invalidAmount
  | exhausted
  | sleepless (attempts : ℕ)
  deriving DecidableEq

/-- What it raises then, if it can give up so. -/
def GiveUp.error (m : OCCBalanceManager) (call : DebitCall) : GiveUp → Option DebitError
  | invalidAmount => if call.amount ≤ 0 then some .valueError else none
  | exhausted =>
      if call.amount ≤ 0 then none else some (.versionConflict call.txnId m.maxRetries)
  | sleepless attempts =>
      if call.amount ≤ 0 then none
      else (m.sleepError attempts (call.jitter attempts)).map .sleep

theorem GiveUp.decidedByRow_of_error {m : OCCBalanceManager} {call : DebitCall} {g : GiveUp}
    {e : DebitError} (h : g.error m call = some e) : e.decidedByRow = false := by
  cases g with
  | invalidAmount => simp only [error] at h; split at h <;> cases h; rfl
  | exhausted => simp only [error] at h; split at h <;> cases h; rfl
  | sleepless k =>
      simp only [error] at h
      split at h
      · cases h
      · obtain ⟨x, -, rfl⟩ := Option.map_eq_some_iff.mp h
        rfl

/-- The way out there is from a program point. -/
def DebitPc.giveUp : DebitPc → GiveUp
  | .loop _ => .exhausted
  | .cas attempts _ => .sleepless attempts
  | .entry | .reread _ | .done _ => .invalidAmount

/-- A call's outcome, from the moment its compare-and-swap has decided it. -/
def DebitPc.outcome : DebitPc → Option (Except DebitError Bool)
  | .entry | .loop _ | .cas _ _ => none
  | .reread _ => some (.ok true)
  | .done result => some (result.map Prod.fst)

/-- One whole call, or one update by another client. -/
inductive SerialEvent (ι : Type*) where
  | debit (i : ι)
  | giveUp (i : ι) (reason : GiveUp)
  | client (c : CasCall)
  deriving DecidableEq

/-- The store and the outcomes of the calls made so far. -/
structure SerialBank (ι : Type*) where
  db : MockDatabaseShard
  outcome : ι → Option (Except DebitError Bool)

def SerialBank.start {ι : Type*} (db : MockDatabaseShard) : SerialBank ι := ⟨db, fun _ => none⟩

variable {ι : Type*} [DecidableEq ι]

def serialStep (rd : Rounding) (m : OCCBalanceManager) (calls : ι → DebitCall)
    (b : SerialBank ι) : SerialEvent ι → Option (SerialBank ι)
  | .debit i =>
      if (b.outcome i).isNone ∧ 0 < (calls i).amount then
        some ⟨(sequentialDebit rd (calls i) b.db).2,
          Function.update b.outcome i (some (sequentialDebit rd (calls i) b.db).1)⟩
      else none
  | .giveUp i reason =>
      if (b.outcome i).isNone then
        (reason.error m (calls i)).map fun e =>
          { b with outcome := Function.update b.outcome i (some (.error e)) }
      else none
  | .client c => some { b with db := (c.execute rd b.db).2 }

omit [DecidableEq ι] in
/-- What a transition of the code shows. -/
def effect (t : OccTransition ι) : Option (SerialEvent ι) :=
  match t.event with
  | .client c => some (.client c)
  | .call i =>
      match (t.pre.pc i).outcome, (t.post.pc i).outcome with
      | none, some (.ok _) => some (.debit i)
      | none, some (.error e) =>
          if e.decidedByRow then some (.debit i) else some (.giveUp i (t.pre.pc i).giveUp)
      | _, _ => none

/-- The bank holds the code's store and its outcomes. -/
structure Serializes (s : OccSystem ι) (b : SerialBank ι) : Prop where
  db : b.db = s.db
  outcome : ∀ i, b.outcome i = (s.pc i).outcome

variable {rd : Rounding} {m : OCCBalanceManager} {calls : ι → DebitCall} {i : ι}
  {tr : List (OccTransition ι)} {s s' : OccSystem ι} {b : SerialBank ι} {db₀ : MockDatabaseShard}

/-! ## What one step of a call decides -/

omit [DecidableEq ι] in
/-- A step of a call decides nothing and writes nothing, or it decides
the call as the sequential operation does, or the call gives up. -/
theorem CallInv.decided {db db' : MockDatabaseShard} {pc pc' : DebitPc}
    (hinv : CallInv rd m calls i tr pc db) (hmove : DebitMove rd m (calls i) db pc pc' db') :
    (pc'.outcome = pc.outcome ∧ db' = db) ∨
    (pc.outcome = none ∧ 0 < (calls i).amount ∧
      ∃ o, pc'.outcome = some o ∧ sequentialDebit rd (calls i) db = (o, db') ∧
        ∀ e, o = .error e → e.decidedByRow = true) ∨
    (pc.outcome = none ∧ (∃ e, pc.giveUp.error m (calls i) = some e ∧
      pc'.outcome = some (.error e)) ∧ db' = db) := by
  cases hmove with
  | invalid hamount =>
      exact .inr (.inr ⟨rfl, ⟨_, by simp [DebitPc.giveUp, GiveUp.error, hamount], rfl⟩, rfl⟩)
  | begin _ => exact .inl ⟨rfl, rfl⟩
  | exhausted _ =>
      have hpos : ¬ (calls i).amount ≤ 0 := not_le.mpr hinv.2
      exact .inr (.inr ⟨rfl, ⟨_, by simp [DebitPc.giveUp, GiveUp.error, hpos], rfl⟩, rfl⟩)
  | missing _ hrow =>
      refine .inr (.inl ⟨rfl, hinv.2, _, rfl, sequentialDebit_missing hrow, ?_⟩)
      rintro e ⟨⟩
      rfl
  | frozen _ hrow hst =>
      refine .inr (.inl ⟨rfl, hinv.2, _, rfl, sequentialDebit_frozen hrow hst, ?_⟩)
      rintro e ⟨⟩
      rfl
  | insufficient _ hrow hst hlt =>
      refine .inr (.inl ⟨rfl, hinv.2, _, rfl, sequentialDebit_insufficient hrow hst hlt, ?_⟩)
      rintro e ⟨⟩
      rfl
  | snapshot _ _ _ _ => exact .inl ⟨rfl, rfl⟩
  | conflict _ _ => exact .inl ⟨rfl, rfl⟩
  | sleepless _ hsleep =>
      have hpos : ¬ (calls i).amount ≤ 0 := not_le.mpr hinv.2
      exact .inr (.inr ⟨rfl, ⟨_, by simp [DebitPc.giveUp, GiveUp.error, hpos, hsleep], rfl⟩, rfl⟩)
  | overflow hrow hadm hnone =>
      refine .inr (.inl ⟨rfl, hinv.2, _, rfl, sequentialDebit_overflow hrow hadm hnone, ?_⟩)
      rintro e ⟨⟩
      rfl
  | commit hrow hcommits =>
      exact .inr (.inl ⟨rfl, hinv.2, _, rfl, sequentialDebit_of_commits hrow hcommits, nofun⟩)
  | report _ => exact .inl ⟨rfl, rfl⟩
  | vanished hrow => exact absurd hinv.2 (by simp [hrow])

/-! ## The code's runs are the bank's -/

theorem Serializes.update {pc' : DebitPc} {o : Except DebitError Bool} {db' : MockDatabaseShard}
    (h : Serializes s b) (hpc : s'.pc i = pc') (hother : ∀ j, j ≠ i → s'.pc j = s.pc j)
    (hdb : s'.db = db') (ho : pc'.outcome = some o) :
    Serializes s' ⟨db', Function.update b.outcome i (some o)⟩ := by
  constructor
  · exact hdb.symm
  · intro j
    by_cases hj : j = i
    · subst hj
      simp [hpc, ho]
    · simp [hj, hother j hj, h.outcome j]

/-- Every step of the code is one step of the bank, or shows nothing. -/
theorem serial_simulation :
    StutterSimulation (occStep rd m calls) (.start db₀) (serialStep rd m calls) effect id
      Serializes := by
  intro tr s e s' b hrun h hstep
  cases e with
  | client c =>
      obtain ⟨hdb, hpc⟩ := occStep_client hstep
      refine ⟨.client c, _, rfl, rfl, ?_⟩
      constructor
      · show (c.execute rd b.db).2 = s'.db
        rw [h.db, hdb]
      · intro j
        rw [hpc]
        exact h.outcome j
  | call i =>
      obtain ⟨hmove, hother⟩ := occStep_call hstep
      rcases (callInv_of_run i hrun).decided hmove with ⟨hsame, hdb⟩ |
        ⟨hnone, hpos, o, ho, hseq, hread⟩ | ⟨hnone, ⟨e, he, ho⟩, hdb⟩
      · -- nothing is decided
        have hquiet : effect ⟨s, .call i, s'⟩ = none := by
          simp only [effect, hsame]
          cases (s.pc i).outcome <;> rfl
        rw [hquiet]
        constructor
        · exact h.db.trans hdb.symm
        · intro j
          by_cases hj : j = i
          · rw [hj, hsame]
            exact h.outcome i
          · rw [hother j hj]
            exact h.outcome j
      · -- the call is decided, on this store
        have heffect : effect ⟨s, .call i, s'⟩ = some (.debit i) := by
          simp only [effect, hnone, ho]
          cases o with
          | ok _ => rfl
          | error e => simp [hread e rfl]
        have hfree : b.outcome i = none := (h.outcome i).trans hnone
        rw [heffect]
        refine ⟨.debit i, ⟨s'.db, Function.update b.outcome i (some o)⟩, rfl, ?_,
          h.update rfl hother rfl ho⟩
        simp [serialStep, hfree, hpos, h.db, hseq]
      · -- the call gives up
        have heffect : effect ⟨s, .call i, s'⟩ = some (.giveUp i (s.pc i).giveUp) := by
          simp [effect, hnone, ho, GiveUp.decidedByRow_of_error he]
        have hfree : b.outcome i = none := (h.outcome i).trans hnone
        rw [heffect]
        refine ⟨.giveUp i _, ⟨s'.db, Function.update b.outcome i _⟩, rfl, ?_,
          h.update rfl hother rfl ho⟩
        simp [serialStep, hfree, h.db, hdb, he]

/-! ## The bank's runs are the code's -/

/-- Nobody is in the middle of a call, and the bank holds the code's store
and its outcomes. -/
structure AtRest (s : OccSystem ι) (b : SerialBank ι) : Prop extends Serializes s b where
  idle : ∀ i, b.outcome i = none → s.pc i = .entry

/-- Call `i` moved on, and the store with it. -/
def OccSystem.moved (s : OccSystem ι) (i : ι) (pc : DebitPc) (db : MockDatabaseShard) :
    OccSystem ι :=
  ⟨db, Function.update s.pc i pc⟩

@[simp] theorem OccSystem.moved_pc (s : OccSystem ι) (i : ι) (pc : DebitPc)
    (db : MockDatabaseShard) : (s.moved i pc db).pc i = pc := by
  simp [moved]

@[simp] theorem OccSystem.moved_moved (s : OccSystem ι) (i : ι) (pc pc' : DebitPc)
    (db db' : MockDatabaseShard) : (s.moved i pc db).moved i pc' db' = s.moved i pc' db' := by
  simp [moved]

/-- One step of a call is one step of the system. -/
theorem occStep_of_debitStep {pc pc' : DebitPc} {db' : MockDatabaseShard} (hpc : s.pc i = pc)
    (h : debitStep rd m (calls i) s.db pc = some (pc', db')) :
    occStep rd m calls s (.call i) = some (s.moved i pc' db') := by
  simp [occStep, hpc, h, OccSystem.moved]

theorem run_begin (hentry : s.pc i = .entry) (hpos : 0 < (calls i).amount) :
    Run (occStep rd m calls) s [⟨s, .call i, s.moved i (.loop 0) s.db⟩]
      (s.moved i (.loop 0) s.db) :=
  Run.refl.tail (occStep_of_debitStep hentry (by simp [debitStep, not_le.mpr hpos]))

/-- A call refused on its first read. -/
theorem refused_alone (hentry : s.pc i = .entry) (hpos : 0 < (calls i).amount) {e : DebitError}
    (hread : e.decidedByRow = true)
    (hrefuse : debitStep rd m (calls i) s.db (.loop 0) = some (.done (.error e), s.db)) :
    ∃ tr, Run (occStep rd m calls) s tr (s.moved i (.done (.error e)) s.db) ∧
      tr.filterMap effect = [.debit i] := by
  have hstep : occStep rd m calls (s.moved i (.loop 0) s.db) (.call i) = some _ :=
    occStep_of_debitStep (s.moved_pc i _ _) hrefuse
  rw [OccSystem.moved_moved] at hstep
  refine ⟨_, (run_begin hentry hpos).tail hstep, ?_⟩
  simp [effect, hentry, DebitPc.outcome, Except.map, hread]

/-- A call that finds the money gets as far as its first swap. -/
theorem run_read (hentry : s.pc i = .entry) (hpos : 0 < (calls i).amount)
    (hbudget : 1 ≤ m.maxRetries) {row : AccountRecord}
    (hrow : s.db.store (calls i).accountId = some row) (hst : row.status = .active)
    (hle : (calls i).amount ≤ row.availableBalance) :
    ∃ tr, Run (occStep rd m calls) s tr (s.moved i (.cas 1 row) s.db) ∧
      tr.filterMap effect = [] := by
  have hread : debitStep rd m (calls i) s.db (.loop 0) = some (.cas 1 row, s.db) := by
    have htry : 0 < m.maxRetries := by omega
    simp [debitStep, htry, hrow, hst, not_lt.mpr hle]
  have hstep : occStep rd m calls (s.moved i (.loop 0) s.db) (.call i) = some _ :=
    occStep_of_debitStep (s.moved_pc i _ _) hread
  rw [OccSystem.moved_moved] at hstep
  refine ⟨_, (run_begin hentry hpos).tail hstep, ?_⟩
  simp [effect, hentry, DebitPc.outcome]

/-- The swap takes the amount. -/
theorem committed_alone (hentry : s.pc i = .entry) (hpos : 0 < (calls i).amount)
    (hbudget : 1 ≤ m.maxRetries) {row : AccountRecord} {balance : ℚ}
    (hrow : s.db.store (calls i).accountId = some row)
    (hcommits : ((calls i).cas row).Commits rd row balance) :
    ∃ tr, Run (occStep rd m calls) s tr (s.moved i (.done (.ok (true, 1, balance)))
        (s.db.put (calls i).accountId (row.updated balance))) ∧
      tr.filterMap effect = [.debit i] := by
  obtain ⟨hst, -, hle⟩ := hcommits.admits
  have hswap : s.db.executeOccDebit rd (calls i).accountId (calls i).amount row.version
      = (.ok true, s.db.put (calls i).accountId (row.updated balance)) :=
    CasCall.execute_of_commits hrow hcommits
  generalize hdb : s.db.put (calls i).accountId (row.updated balance) = db' at hswap ⊢
  have hwrite : debitStep rd m (calls i) s.db (.cas 1 row) = some (.reread 1, db') := by
    simp [debitStep, hswap]
  have hreport : debitStep rd m (calls i) db' (.reread 1)
      = some (.done (.ok (true, 1, balance)), db') := by
    simp [debitStep, ← hdb]
  have hthird : occStep rd m calls (s.moved i (.cas 1 row) s.db) (.call i) = some _ :=
    occStep_of_debitStep (s.moved_pc i _ _) hwrite
  have hfourth : occStep rd m calls (s.moved i (.reread 1) db') (.call i) = some _ :=
    occStep_of_debitStep (s.moved_pc i _ _) hreport
  rw [OccSystem.moved_moved] at hthird hfourth
  obtain ⟨tr, hrun, hquiet⟩ := run_read hentry hpos hbudget hrow hst hle
  refine ⟨_, (hrun.tail hthird).tail hfourth, ?_⟩
  simp [List.filterMap_append, hquiet, effect, DebitPc.outcome, Except.map]

/-- The swap overflows. -/
theorem overflowed_alone (hentry : s.pc i = .entry) (hpos : 0 < (calls i).amount)
    (hbudget : 1 ≤ m.maxRetries) {row : AccountRecord}
    (hrow : s.db.store (calls i).accountId = some row) (hadm : ((calls i).cas row).Admits row)
    (hnone : ((calls i).cas row).newBalance rd row = none) :
    ∃ tr, Run (occStep rd m calls) s tr (s.moved i (.done (.error (.decimal .overflow))) s.db) ∧
      tr.filterMap effect = [.debit i] := by
  have hswap : s.db.executeOccDebit rd (calls i).accountId (calls i).amount row.version
      = (.error .overflow, s.db) :=
    CasCall.execute_of_overflow hrow hadm hnone
  have hraise : debitStep rd m (calls i) s.db (.cas 1 row)
      = some (.done (.error (.decimal .overflow)), s.db) := by
    simp [debitStep, hswap]
  have hthird : occStep rd m calls (s.moved i (.cas 1 row) s.db) (.call i) = some _ :=
    occStep_of_debitStep (s.moved_pc i _ _) hraise
  rw [OccSystem.moved_moved] at hthird
  obtain ⟨tr, hrun, hquiet⟩ := run_read hentry hpos hbudget hrow hadm.1 hadm.2.2
  refine ⟨_, hrun.tail hthird, ?_⟩
  simp [List.filterMap_append, hquiet, effect, DebitPc.outcome, Except.map,
    DebitError.decidedByRow]

/-- A call that nobody disturbs makes the sequential operation. -/
theorem debit_alone (hentry : s.pc i = .entry) (hpos : 0 < (calls i).amount)
    (hbudget : 1 ≤ m.maxRetries) :
    ∃ tr result, Run (occStep rd m calls) s tr
        (s.moved i (.done result) (sequentialDebit rd (calls i) s.db).2) ∧
      result.map Prod.fst = (sequentialDebit rd (calls i) s.db).1 ∧
      tr.filterMap effect = [.debit i] := by
  have htry : 0 < m.maxRetries := by omega
  cases hrow : s.db.store (calls i).accountId with
  | none =>
      rw [sequentialDebit_missing hrow]
      obtain ⟨tr, hrun, hshown⟩ := refused_alone (m := m) hentry hpos
        (e := .notFound (calls i).accountId) rfl (by simp [debitStep, htry, hrow])
      exact ⟨tr, _, hrun, rfl, hshown⟩
  | some row =>
      by_cases hst : row.status = .active
      · by_cases hle : (calls i).amount ≤ row.availableBalance
        · have hadm : ((calls i).cas row).Admits row := ⟨hst, rfl, hle⟩
          cases hbalance : ((calls i).cas row).newBalance rd row with
          | none =>
              rw [sequentialDebit_overflow hrow hadm hbalance]
              obtain ⟨tr, hrun, hshown⟩ :=
                overflowed_alone hentry hpos hbudget hrow hadm hbalance
              exact ⟨tr, _, hrun, rfl, hshown⟩
          | some balance =>
              have hcommits : ((calls i).cas row).Commits rd row balance := ⟨hadm, hbalance⟩
              rw [sequentialDebit_of_commits hrow hcommits]
              obtain ⟨tr, hrun, hshown⟩ := committed_alone hentry hpos hbudget hrow hcommits
              exact ⟨tr, _, hrun, rfl, hshown⟩
        · rw [sequentialDebit_insufficient hrow hst (not_le.mp hle)]
          obtain ⟨tr, hrun, hshown⟩ := refused_alone (m := m) hentry hpos
            (e := .insufficientFunds row.availableBalance (calls i).amount) rfl
            (by simp [debitStep, htry, hrow, hst, not_le.mp hle])
          exact ⟨tr, _, hrun, rfl, hshown⟩
      · rw [sequentialDebit_frozen hrow hst]
        obtain ⟨tr, hrun, hshown⟩ := refused_alone (m := m) hentry hpos
          (e := .accountFrozen (calls i).accountId row.status) rfl
          (by simp [debitStep, htry, hrow, hst])
        exact ⟨tr, _, hrun, rfl, hshown⟩

theorem AtRest.finish (h : AtRest s b) {result : DebitResult} {o : Except DebitError Bool}
    {db' : MockDatabaseShard} (ho : result.map Prod.fst = o) :
    AtRest (s.moved i (.done result) db') ⟨db', Function.update b.outcome i (some o)⟩ := by
  have hother : ∀ j, j ≠ i → (s.moved i (.done result) db').pc j = s.pc j := fun j hj => by
    simp [OccSystem.moved, hj]
  constructor
  · exact h.toSerializes.update (s.moved_pc i _ _) hother rfl (congrArg some ho)
  · intro j hj
    by_cases hji : j = i
    · subst hji
      simp at hj
    · rw [hother j hji]
      exact h.idle j (by simpa [hji] using hj)

/-- Every step of the bank is made by a run of the code. -/
theorem serial_realizes (hbudget : 1 ≤ m.maxRetries) :
    Realizes (occStep rd m calls) (serialStep rd m calls) effect
      (fun f => ∀ i reason, f = .giveUp i reason → (calls i).amount ≤ 0) AtRest := by
  intro s b f b' h hgive hstep
  cases f with
  | client c =>
      cases hstep
      refine ⟨_, _, Run.refl.tail (e := .client c) rfl, ?_, rfl⟩
      constructor
      · constructor
        · show (c.execute rd b.db).2 = (c.execute rd s.db).2
          rw [h.db]
        · exact h.outcome
      · exact h.idle
  | debit i =>
      simp only [serialStep] at hstep
      split_ifs at hstep with hfree
      cases hstep
      obtain ⟨hnone, hpos⟩ := hfree
      have hentry : s.pc i = .entry := h.idle i (Option.isNone_iff_eq_none.mp hnone)
      obtain ⟨tr, result, hrun, hresult, hshown⟩ := debit_alone (m := m) hentry hpos hbudget
      refine ⟨tr, _, hrun, ?_, hshown⟩
      rw [h.db]
      exact h.finish hresult
  | giveUp i reason =>
      simp only [serialStep] at hstep
      split_ifs at hstep with hnone
      obtain ⟨e, he, rfl⟩ := Option.map_eq_some_iff.mp hstep
      have hinvalid : (calls i).amount ≤ 0 := hgive i reason rfl
      have hentry : s.pc i = .entry := h.idle i (Option.isNone_iff_eq_none.mp hnone)
      have hraise : occStep rd m calls s (.call i)
          = some (s.moved i (.done (.error .valueError)) s.db) :=
        occStep_of_debitStep hentry (by simp [debitStep, hinvalid])
      -- there is only one way to give up on such an amount
      cases reason with
      | exhausted => simp [GiveUp.error, hinvalid] at he
      | sleepless k => simp [GiveUp.error, hinvalid] at he
      | invalidAmount =>
          obtain rfl : DebitError.valueError = e := by simpa [GiveUp.error, hinvalid] using he
          refine ⟨_, _, Run.refl.tail hraise, ?_, ?_⟩
          · rw [h.db]
            exact h.finish (by simp [Except.map])
          · simp [effect, hentry, DebitPc.outcome, DebitPc.giveUp, Except.map,
              DebitError.decidedByRow]

/-! ## The two together -/

/-- **Serializability.** Take any interleaving of `debit_with_occ` calls
with each other and with other clients' updates, on any accounts and for
every retry budget. The calls that a row decides, made one whole call at a
time in the order in which they commit or are refused, leave the same
store and the same answers, success or exception; the calls that give up
change nothing in between. And a manager that tries at all can be made to
follow any order in which the calls could be made one at a time, as long
as it gives up on no positive amount. -/
theorem debits_serializable :
    (∀ tr s, Run (occStep rd m calls) (.start db₀) tr s →
      ∃ tr' b, Run (serialStep rd m calls) (.start db₀) tr' b ∧
        tr'.map Transition.event = tr.filterMap effect ∧ b.db = s.db ∧
        ∀ i, b.outcome i = (s.pc i).outcome) ∧
    (1 ≤ m.maxRetries → ∀ tr' b, Run (serialStep rd m calls) (.start db₀) tr' b →
      (∀ t ∈ tr', ∀ i reason, t.event = .giveUp i reason → (calls i).amount ≤ 0) →
      ∃ tr s, Run (occStep rd m calls) (.start db₀) tr s ∧
        tr.filterMap effect = tr'.map Transition.event ∧ b.db = s.db ∧
        ∀ i, b.outcome i = (s.pc i).outcome) := by
  have hstart : Serializes (.start db₀ : OccSystem ι) (.start db₀) := ⟨rfl, fun _ => rfl⟩
  constructor
  · intro tr s hrun
    obtain ⟨tr', b, hrun', hserial, hshown⟩ := serial_simulation.follow hstart hrun
    exact ⟨tr', b, hrun', hshown, hserial.db, hserial.outcome⟩
  · intro hbudget tr' b hrun' hgive
    obtain ⟨tr, s, hrun, hrest, hshown⟩ :=
      (serial_realizes hbudget).run ⟨hstart, fun _ _ => rfl⟩ hrun' hgive
    exact ⟨tr, s, hrun, hshown, hrest.db, hrest.outcome⟩

/-- Both calls of the race have read the same row; the one that commits
first comes first, and the other one is refused after it. The other order
is possible as well. -/
theorem debits_serializable_race :
    let rd := decimalContext.rounding
    (∃ tr' b, Run (serialStep rd {} raceCalls) (.start .selfTest) tr' b ∧
      tr'.map Transition.event = [.debit false, .debit true] ∧
      b.outcome true = some (.error (.insufficientFunds 700 900))) ∧
    ∃ tr s, Run (occStep rd {} raceCalls) (.start .selfTest) tr s ∧
      tr.filterMap effect = [.debit true, .debit false] ∧
      (s.pc false).outcome = some (.error (.insufficientFunds 600 800)) := by
  intro rd
  constructor
  · obtain ⟨tr', b, hrun, hevents, -, houtcome⟩ := debits_serializable.1 _ _
      (run_exec (occStep rd {} raceCalls) raceSchedule (.start .selfTest))
    exact ⟨tr', b, hrun, hevents.trans (by decide +kernel),
      (houtcome true).trans (by decide +kernel)⟩
  · let serial := exec (serialStep rd {} raceCalls) (.start .selfTest) [.debit true, .debit false]
    have hserial : Run (serialStep rd {} raceCalls) (.start .selfTest) serial.1 serial.2 :=
      run_exec _ _ _
    have hdebits : ∀ t ∈ serial.1, ∃ i, t.event = .debit i := by decide +kernel
    obtain ⟨tr, s, hrun, hevents, -, houtcome⟩ := debits_serializable.2 (by decide) _ _ hserial
      fun t ht i reason hgive => by
        obtain ⟨j, hj⟩ := hdebits t ht
        rw [hj] at hgive
        cases hgive
    exact ⟨tr, s, hrun, hevents.trans (by decide +kernel),
      (houtcome false).symm.trans (by decide +kernel)⟩

end Httpe.Occ
