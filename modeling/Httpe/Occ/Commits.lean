/-
Httpe.Occ.Commits — which compare-and-swap committed at a transition.

Calls of `debit_with_occ` and the other clients write through the same
two updates. `commitOf` names the one that returned `True` at a
transition, whoever issued it, and `row_of_step` is the only fact later
modules use about a transition's effect on a row: it is left as it was,
or a commit on its account replaced it. `Snapshotted` carries it from the
read of a call to its swap.
-/
import Httpe.Occ.Manager

namespace Httpe.Occ

open Decimal

variable {ι : Type*}

/-- The compare-and-swap a transition attempts, if it attempts one. -/
def swapOf (calls : ι → DebitCall) (t : OccTransition ι) : Option CasCall :=
  match t.event with
  | .client c => some c
  | .call i =>
      match t.pre.pc i with
      | .cas _ account => some ((calls i).cas account)
      | .entry | .loop _ | .reread _ | .done _ => none

/-- The compare-and-swap that returned `True` at a transition. -/
def commitOf (rd : Rounding) (calls : ι → DebitCall) (t : OccTransition ι) : Option CasCall :=
  (swapOf calls t).filter fun c => (c.execute rd t.pre.db).1 = .ok true

/-- A commit on call `i`'s account by anyone but call `i`. -/
def ForeignCommit (rd : Rounding) (calls : ι → DebitCall) (i : ι) (t : OccTransition ι) : Prop :=
  t.event ≠ .call i ∧ ∃ c, commitOf rd calls t = some c ∧ c.accountId = (calls i).accountId

/-- What a transition adds to the balance of account `a`, if anything. -/
def commitDelta (rd : Rounding) (calls : ι → DebitCall) (a : String) (t : OccTransition ι) :
    Option ℚ :=
  ((commitOf rd calls t).filter fun c => c.accountId = a).map CasCall.delta

variable [DecidableEq ι] {rd : Rounding} {m : OCCBalanceManager} {calls : ι → DebitCall}
  {t : OccTransition ι} {a : String} {row : AccountRecord} {c : CasCall}

/-- Between its compare-and-swaps a call leaves the store alone. -/
theorem DebitMove.db_of_not_cas {call : DebitCall} {db db' : MockDatabaseShard} {pc pc' : DebitPc}
    (h : DebitMove rd m call db pc pc' db') (hpc : ∀ k account, pc ≠ .cas k account) :
    db' = db := by
  cases h with
  | commit _ _ => exact absurd rfl (hpc _ _)
  | _ => rfl

/-- A transition does to the store what the swap it attempts does. -/
theorem db_of_step (hstep : occStep rd m calls t.pre t.event = some t.post) :
    t.post.db = ((swapOf calls t).map fun c => (c.execute rd t.pre.db).2).getD t.pre.db := by
  obtain ⟨pre, e, post⟩ := t
  cases e with
  | client c => exact (occStep_client hstep).1
  | call i =>
      have hmove := (occStep_call hstep).1
      cases hpc : pre.pc i with
      | cas k account =>
          rw [hpc] at hmove
          simp only [swapOf, hpc, Option.map_some, Option.getD_some]
          generalize post.pc i = pc' at hmove
          generalize post.db = db' at hmove ⊢
          cases hmove with
          | commit hrow hcommits =>
              rw [CasCall.execute_of_commits hrow hcommits]
              rfl
          | overflow hrow hadm hnone => rw [CasCall.execute_of_overflow hrow hadm hnone]
          | conflict hno _ => rw [CasCall.execute_of_not_admits hno]
          | sleepless hno _ => rw [CasCall.execute_of_not_admits hno]
      | entry => simpa [swapOf, hpc] using hmove.db_of_not_cas (by simp [hpc])
      | loop k => simpa [swapOf, hpc] using hmove.db_of_not_cas (by simp [hpc])
      | reread k => simpa [swapOf, hpc] using hmove.db_of_not_cas (by simp [hpc])
      | done r => simpa [swapOf, hpc] using hmove.db_of_not_cas (by simp [hpc])

/-- A row is left as it was, or a commit on its account replaced it. -/
theorem row_of_step (hstep : occStep rd m calls t.pre t.event = some t.post)
    (hrow : t.pre.db.store a = some row) :
    ((∀ c, commitOf rd calls t = some c → c.accountId ≠ a) ∧ t.post.db.store a = some row) ∨
    ∃ c balance, commitOf rd calls t = some c ∧ c.accountId = a ∧ c.Commits rd row balance ∧
      t.post.db.store a = some (row.updated balance) := by
  have hdb := db_of_step hstep
  unfold commitOf
  cases hswap : swapOf calls t with
  | none =>
      rw [hswap] at hdb
      refine .inl ⟨fun c hc => by simp at hc, ?_⟩
      rw [hdb]
      exact hrow
  | some c =>
      rw [hswap] at hdb
      simp only [Option.map_some, Option.getD_some] at hdb
      rcases c.execute_commits_or_keeps rd t.pre.db with
        ⟨row', balance, hrow', hcommits, hex⟩ | ⟨hno, hkept⟩
      · rw [hex] at hdb
        by_cases hac : c.accountId = a
        · subst hac
          rw [hrow] at hrow'
          cases hrow'
          refine .inr ⟨c, balance, by simp [Option.filter, hex], rfl, hcommits, ?_⟩
          rw [hdb, MockDatabaseShard.put_store_self]
        · refine .inl ⟨fun d hd => ?_, ?_⟩
          · simp only [Option.filter, hex, decide_true, if_true, Option.some.injEq] at hd
            rwa [← hd]
          · rw [hdb, MockDatabaseShard.put_store_of_ne _ (Ne.symm hac)]
            exact hrow
      · refine .inl ⟨fun d hd => by simp [Option.filter, hno] at hd, ?_⟩
        rw [hdb, hkept]
        exact hrow

/-- The balance moves by the commit's signed amount, rounded. -/
theorem balance_of_step (hstep : occStep rd m calls t.pre t.event = some t.post)
    (hrow : t.pre.db.store a = some row) :
    ∃ row', t.post.db.store a = some row' ∧
      rd.addAll row.availableBalance (commitDelta rd calls a t).toList
        = some row'.availableBalance := by
  unfold commitDelta
  rcases row_of_step hstep hrow with ⟨hno, hpost⟩ | ⟨c, balance, hc, hac, hcommits, hpost⟩
  · refine ⟨row, hpost, ?_⟩
    cases hc : commitOf rd calls t with
    | none => simp
    | some c => simp [Option.filter, hno c hc]
  · refine ⟨_, hpost, ?_⟩
    have hbalance := hcommits.newBalance
    simpa [hc, Option.filter, hac, CasCall.newBalance] using hbalance

/-! ## Between a read and the swap -/

/-- A call has read `snap` and found it fit. The row still is `snap`, or
its version has moved on, and that has been `paid` for. -/
structure Snapshotted (call : DebitCall) (snap : AccountRecord) (db : MockDatabaseShard)
    (paid : Prop) : Prop where
  active : snap.status = .active
  funds : call.amount ≤ snap.availableBalance
  current : db.store call.accountId = some snap ∨
    ∃ row, db.store call.accountId = some row ∧ snap.version < row.version ∧ paid

namespace Snapshotted

variable {i : ι} {call : DebitCall} {snap : AccountRecord} {db : MockDatabaseShard}
  {paid paid' : Prop}

/-- A step of anyone else: what it commits on the account is the
payment. -/
theorem other (h : Snapshotted (calls i) snap t.pre.db paid)
    (hstep : occStep rd m calls t.pre t.event = some t.post) (hne : t.event ≠ .call i)
    (hkeep : paid → paid') (hpay : ForeignCommit rd calls i t → paid') :
    Snapshotted (calls i) snap t.post.db paid' := by
  refine ⟨h.active, h.funds, ?_⟩
  rcases h.current with hsnap | ⟨row, hrow, hlt, hpaid⟩
  · rcases row_of_step hstep hsnap with ⟨-, hpost⟩ | ⟨c, balance, hc, hac, -, hpost⟩
    · exact .inl hpost
    · exact .inr ⟨_, hpost, by simp, hpay ⟨hne, c, hc, hac⟩⟩
  · rcases row_of_step hstep hrow with ⟨-, hpost⟩ | ⟨c, balance, -, -, -, hpost⟩
    · exact .inr ⟨row, hpost, hlt, hkeep hpaid⟩
    · refine .inr ⟨_, hpost, ?_, hkeep hpaid⟩
      rw [AccountRecord.updated_version]
      omega

omit [DecidableEq ι] in
/-- A swap that fails was overtaken. -/
theorem paid_of_conflict (h : Snapshotted call snap db paid)
    (hno : ∀ row, db.store call.accountId = some row → ¬ (call.cas snap).Admits row) : paid := by
  rcases h.current with hsnap | ⟨-, -, -, hpaid⟩
  · exact absurd ⟨h.active, rfl, h.funds⟩ (hno snap hsnap)
  · exact hpaid

omit [DecidableEq ι] in
/-- A row that still has the snapshot's version is the snapshot. -/
theorem row_eq (h : Snapshotted call snap db paid) {row : AccountRecord}
    (hrow : db.store call.accountId = some row) (hver : row.version = snap.version) :
    row = snap := by
  rcases h.current with hsnap | ⟨row', hrow', hlt, -⟩
  · rw [hrow] at hsnap
    exact Option.some.inj hsnap
  · rw [hrow] at hrow'
    cases hrow'
    omega

end Snapshotted

end Httpe.Occ
