/-
Httpe.Occ.Contention — `n` concurrent debits of one account, with a
retry budget of at least `n`.

The account's row is a function of who has committed: the balance is
what the committed amounts leave, the version is the initial one plus
their number (`RaceInv.row`). Two observations then carry the proof.

* A compare-and-swap that fails has been overtaken: the row's version is
  ahead of the snapshot's, so another call committed since. Counting
  from the initial version, a call at its `k`-th attempt has seen at
  least `k - 1` commits of others (`AttemptsPaid`), and as there are
  only `n - 1` others the budget is never exhausted.
* The balance only goes down, so the balance a refusal was decided on is
  at least the final one.

Both take two things for granted. What the balance can come to must be
exact in the decimal context (`DifferencesExact`): a context that rounds
the difference up again gives the money out twice. And the backoff of the
attempts that can fail must be one that `time.sleep` takes.
-/
import Httpe.Occ.Manager
import Mathlib.Algebra.BigOperators.Group.Finset.Basic
import Mathlib.Algebra.Order.BigOperators.Group.Finset
import Mathlib.Data.Fin.VecNotation
import Mathlib.Data.Fintype.Card
import Mathlib.Tactic.FinCases

namespace Httpe.Occ

open Decimal

/-- The call's compare-and-swap has returned `True`. -/
def DebitPc.committed : DebitPc → Bool
  | .reread _ | .done (.ok _) => true
  | .entry | .loop _ | .cas _ _ | .done (.error _) => false

section Race

variable {ι : Type*} [Fintype ι]

/-- The calls that have committed. -/
def committedSet (s : OccSystem ι) : Finset ι :=
  Finset.univ.filter fun i => (s.pc i).committed = true

/-- What the committed calls have taken together. -/
def spent (calls : ι → DebitCall) (s : OccSystem ι) : ℚ :=
  ∑ i ∈ committedSet s, (calls i).amount

/-- The row that `row₀` becomes once the committed calls are paid out. -/
def raceRow (calls : ι → DebitCall) (row₀ : AccountRecord) (s : OccSystem ι) : AccountRecord :=
  { row₀ with availableBalance := row₀.availableBalance - spent calls s
              version := row₀.version + (committedSet s).card }

@[simp] theorem mem_committedSet {s : OccSystem ι} {i : ι} :
    i ∈ committedSet s ↔ (s.pc i).committed = true := by
  simp [committedSet]

theorem committedSet_congr {s s' : OccSystem ι}
    (h : ∀ j, (s'.pc j).committed = (s.pc j).committed) : committedSet s' = committedSet s := by
  ext j; simp [h]

/-- An uncommitted call is one of the `n` that the committed ones leave. -/
theorem card_committedSet_lt {s : OccSystem ι} {i : ι} (h : (s.pc i).committed = false) :
    (committedSet s).card < Fintype.card ι := by
  refine Finset.card_lt_univ_of_notMem (x := i) ?_
  simp [h]

variable (calls : ι → DebitCall) (row₀ : AccountRecord)

/-- Every failed attempt is paid for by a commit of another call, and a
refusal was decided on no less than is there now. -/
def AttemptsPaid (s : OccSystem ι) (i : ι) : Prop :=
  match s.pc i with
  | .entry | .reread _ => True
  | .done (.ok r) => r.1 = true
  | .loop k => k ≤ (committedSet s).card
  | .cas k snap =>
      1 ≤ k ∧ snap.status = .active ∧ (calls i).amount ≤ snap.availableBalance ∧
      k ≤ snap.version - row₀.version + 1 ∧
      snap.version ≤ (raceRow calls row₀ s).version ∧
      (snap.version = (raceRow calls row₀ s).version → snap = raceRow calls row₀ s)
  | .done (.error e) =>
      (∃ available, e = .insufficientFunds available (calls i).amount) ∧
      row₀.availableBalance - spent calls s < (calls i).amount

/-- What any of the calls can leave of the balance is not rounded. -/
def DifferencesExact (rd : Rounding) (calls : ι → DebitCall) (balance : ℚ) : Prop :=
  ∀ A : Finset ι, ∑ i ∈ A, (calls i).amount ≤ balance →
    rd.round (balance - ∑ i ∈ A, (calls i).amount) = some (balance - ∑ i ∈ A, (calls i).amount)

/-- No backoff of the first `n - 1` attempts raises. -/
def BackoffsAccepted (m : OCCBalanceManager) (calls : ι → DebitCall) (n : ℕ) : Prop :=
  ∀ i k, 1 ≤ k → k < n → m.sleepError k ((calls i).jitter k) = none

structure RaceInv (a : String) (s : OccSystem ι) : Prop where
  row : s.db.store a = some (raceRow calls row₀ s)
  affordable : spent calls s ≤ row₀.availableBalance
  paid : ∀ i, AttemptsPaid calls row₀ s i

variable {calls row₀} {a : String} {s s' : OccSystem ι}

theorem raceRow_congr (h : committedSet s' = committedSet s) :
    raceRow calls row₀ s' = raceRow calls row₀ s := by
  simp [raceRow, spent, h]

/-- `AttemptsPaid` speaks of a call's own program point and of who has
committed, so a step that moves neither keeps it. -/
theorem AttemptsPaid.congr {i : ι} (h : AttemptsPaid calls row₀ s i)
    (hset : committedSet s' = committedSet s) (hpc : s'.pc i = s.pc i) :
    AttemptsPaid calls row₀ s' i := by
  have hspent : spent calls s' = spent calls s := by simp [spent, hset]
  unfold AttemptsPaid at h ⊢
  rw [hpc, hset, hspent, raceRow_congr hset]
  exact h

/-- A finished call that has not committed found too little money, and
there is too little for it still. -/
theorem RaceInv.rejected {i : ι} (h : RaceInv calls row₀ a s) (hdone : ∃ r, s.pc i = .done r)
    (hi : i ∉ committedSet s) :
    (∃ available, s.pc i = .done (.error (.insufficientFunds available (calls i).amount))) ∧
      row₀.availableBalance - spent calls s < (calls i).amount := by
  obtain ⟨r, hr⟩ := hdone
  have hpaid := h.paid i
  unfold AttemptsPaid at hpaid
  rw [hr] at hpaid
  cases r with
  | ok r => simp [hr, DebitPc.committed] at hi
  | error e =>
      obtain ⟨⟨available, rfl⟩, hlt⟩ := hpaid
      exact ⟨⟨available, hr⟩, hlt⟩

theorem RaceInv.accepted {i : ι} (h : RaceInv calls row₀ a s) (hdone : ∃ r, s.pc i = .done r)
    (hi : i ∈ committedSet s) :
    ∃ attempts balance, s.pc i = .done (.ok (true, attempts, balance)) := by
  obtain ⟨r, hr⟩ := hdone
  cases r with
  | ok r =>
      have hpaid := h.paid i
      unfold AttemptsPaid at hpaid
      rw [hr] at hpaid
      obtain ⟨b, attempts, balance⟩ := r
      obtain rfl : b = true := hpaid
      exact ⟨attempts, balance, hr⟩
  | error e => simp [hr, DebitPc.committed] at hi

variable [DecidableEq ι] {rd : Rounding} {m : OCCBalanceManager}

theorem spent_insert {i : ι} (hset : committedSet s' = insert i (committedSet s))
    (hi : i ∉ committedSet s) : spent calls s' = spent calls s + (calls i).amount := by
  rw [spent, hset, Finset.sum_insert hi, spent, add_comm]

theorem card_insert {i : ι} (hset : committedSet s' = insert i (committedSet s))
    (hi : i ∉ committedSet s) : (committedSet s').card = (committedSet s).card + 1 := by
  rw [hset, Finset.card_insert_of_notMem hi]

/-- A commit of `i` only helps the others: one more commit to pay for
their attempts, and a lower balance under every refusal. -/
theorem AttemptsPaid.commit {i j : ι} (h : AttemptsPaid calls row₀ s j)
    (hset : committedSet s' = insert i (committedSet s)) (hi : i ∉ committedSet s)
    (hpos : 0 < (calls i).amount) (hpc : s'.pc j = s.pc j) : AttemptsPaid calls row₀ s' j := by
  have hcard := card_insert hset hi
  have hspent : spent calls s' = spent calls s + (calls i).amount := spent_insert hset hi
  unfold AttemptsPaid at h ⊢
  rw [hpc]
  cases hpcj : s.pc j with
  | entry => trivial
  | reread k => trivial
  | loop k => rw [hpcj] at h; simp only at h ⊢; omega
  | cas k snap =>
      rw [hpcj] at h
      obtain ⟨hone, hst, hle, hk, hver, -⟩ := h
      simp only [raceRow] at hver ⊢
      rw [hcard]
      push_cast
      -- the snapshot is behind now, so its last clause has nothing to say
      exact ⟨hone, hst, hle, hk, by omega, fun heq => absurd heq (by omega)⟩
  | done result =>
      rw [hpcj] at h
      cases result with
      | ok r => exact h
      | error e => exact ⟨h.1, by rw [hspent]; linarith [h.2]⟩

/-- A step of `i` that neither commits nor takes a commit back. -/
theorem committedSet_of_own {i : ι} (hothers : ∀ j, j ≠ i → s'.pc j = s.pc j)
    (hi : (s'.pc i).committed = (s.pc i).committed) : committedSet s' = committedSet s := by
  refine committedSet_congr fun j => ?_
  by_cases hj : j = i
  · rw [hj]; exact hi
  · rw [hothers j hj]

/-- A step that commits nothing only has to answer for the call itself. -/
theorem RaceInv.keep {i : ι} (h : RaceInv calls row₀ a s)
    (hothers : ∀ j, j ≠ i → s'.pc j = s.pc j) (hset : committedSet s' = committedSet s)
    (hdb : s'.db = s.db) (hown : AttemptsPaid calls row₀ s' i) : RaceInv calls row₀ a s' := by
  refine ⟨by rw [hdb, raceRow_congr hset]; exact h.row, by simpa [spent, hset] using h.affordable,
    fun j => ?_⟩
  by_cases hj : j = i
  · rw [hj]; exact hown
  · exact (h.paid j).congr hset (hothers j hj)

/-- What a swap of `i` that passes its tests leaves. -/
theorem newBalance_raceRow {i : ι} {snap : AccountRecord}
    (hexact : DifferencesExact rd calls row₀.availableBalance) (hi : i ∉ committedSet s)
    (hadm : ((calls i).cas snap).Admits (raceRow calls row₀ s)) :
    ((calls i).cas snap).newBalance rd (raceRow calls row₀ s)
      = some (row₀.availableBalance - (spent calls s + (calls i).amount)) := by
  have hle : (calls i).amount ≤ row₀.availableBalance - spent calls s := hadm.2.2
  have hround := hexact (insert i (committedSet s))
  rw [Finset.sum_insert hi, add_comm] at hround
  have hsum : (raceRow calls row₀ s).availableBalance + ((calls i).cas snap).delta
      = row₀.availableBalance - (spent calls s + (calls i).amount) := by
    simp only [raceRow, DebitCall.cas, CasCall.delta]
    ring
  rw [CasCall.newBalance, hsum]
  exact hround (by rw [← spent]; linarith)

omit [DecidableEq ι] in
/-- A swap that fails was overtaken by a commit. -/
theorem RaceInv.overtaken {i : ι} {k : ℕ} {snap : AccountRecord} (h : RaceInv calls row₀ a s)
    (hactive : row₀.status = .active) (hacc : (calls i).accountId = a)
    (hpc : s.pc i = .cas k snap)
    (hno : ∀ row, s.db.store (calls i).accountId = some row →
      ¬ ((calls i).cas snap).Admits row) : 1 ≤ k ∧ k ≤ (committedSet s).card := by
  have hpaid := h.paid i
  unfold AttemptsPaid at hpaid
  rw [hpc] at hpaid
  obtain ⟨hone, -, hle, hk, hver, hcur⟩ := hpaid
  have hne : snap.version ≠ (raceRow calls row₀ s).version := by
    intro heq
    have hfunds : (calls i).amount ≤ (raceRow calls row₀ s).availableBalance := by
      rw [← hcur heq]
      exact hle
    exact hno (raceRow calls row₀ s) (by rw [hacc]; exact h.row) ⟨hactive, heq.symm, hfunds⟩
  simp only [raceRow] at hver hne
  exact ⟨hone, by omega⟩

/-- A step of `i` that commits against the row as it is. -/
theorem RaceInv.commit {i : ι} {k : ℕ} {snap : AccountRecord} {balance : ℚ}
    (h : RaceInv calls row₀ a s) (hexact : DifferencesExact rd calls row₀.availableBalance)
    (hacc : (calls i).accountId = a) (hpos : 0 < (calls i).amount)
    (hothers : ∀ j, j ≠ i → s'.pc j = s.pc j) (hpc : s.pc i = .cas k snap)
    (hpc' : s'.pc i = .reread k)
    (hcommits : ((calls i).cas snap).Commits rd (raceRow calls row₀ s) balance)
    (hdb : s'.db = s.db.put (calls i).accountId ((raceRow calls row₀ s).updated balance)) :
    RaceInv calls row₀ a s' := by
  have hi : i ∉ committedSet s := by simp [hpc, DebitPc.committed]
  have hset : committedSet s' = insert i (committedSet s) := by
    ext j
    by_cases hj : j = i
    · subst hj; simp [hpc', DebitPc.committed]
    · simp [hothers j hj, hj]
  have hspent : spent calls s' = spent calls s + (calls i).amount := spent_insert hset hi
  have hle : (calls i).amount ≤ row₀.availableBalance - spent calls s := hcommits.admits.2.2
  have haffordable : spent calls s' ≤ row₀.availableBalance := by rw [hspent]; linarith
  have hbalance : balance = row₀.availableBalance - spent calls s' := by
    have hround := hcommits.newBalance
    rw [newBalance_raceRow hexact hi hcommits.admits, ← hspent] at hround
    exact (Option.some.inj hround).symm
  refine ⟨?_, haffordable, fun j => ?_⟩
  · rw [hdb, ← hacc, MockDatabaseShard.put_store_self, hbalance]
    simp only [raceRow, AccountRecord.updated, card_insert hset hi]
    congr 2
    push_cast
    ring
  · by_cases hj : j = i
    · subst hj; unfold AttemptsPaid; rw [hpc']; trivial
    · exact (h.paid j).commit hset hi hpos (hothers j hj)

/-- One step of the race. -/
theorem RaceInv.step {i : ι} (h : RaceInv calls row₀ a s) (hactive : row₀.status = .active)
    (hacc : ∀ j, (calls j).accountId = a) (hpos : ∀ j, 0 < (calls j).amount)
    (hexact : DifferencesExact rd calls row₀.availableBalance)
    (hbudget : (Fintype.card ι : ℤ) ≤ m.maxRetries)
    (hsleep : BackoffsAccepted m calls (Fintype.card ι))
    (hstep : occStep rd m calls s (.call i) = some s') : RaceInv calls row₀ a s' := by
  obtain ⟨hmove, hothers⟩ := occStep_call hstep
  have hmine := h.paid i
  have hrow := h.row
  have quiet : committedSet s' = committedSet s → s'.db = s.db →
      AttemptsPaid calls row₀ s' i → RaceInv calls row₀ a s' := h.keep hothers
  have hsame : (s'.pc i).committed = (s.pc i).committed → committedSet s' = committedSet s :=
    committedSet_of_own hothers
  have hcard : (s.pc i).committed = false → ((committedSet s).card : ℤ) < m.maxRetries :=
    fun hi => lt_of_lt_of_le (by exact_mod_cast card_committedSet_lt hi) hbudget
  rw [← hacc i] at hrow
  unfold AttemptsPaid at hmine quiet
  generalize hpc : s.pc i = pc at hmove hmine hsame hcard
  generalize hpc' : s'.pc i = pc' at hmove quiet hsame
  generalize hdb : s'.db = db' at hmove
  cases hmove with
  | invalid hamount => exact absurd hamount (not_le.mpr (hpos i))
  | begin _ => exact quiet (hsame rfl) hdb (Nat.zero_le _)
  | exhausted ha => have := hcard rfl; simp only at hmine; omega
  | missing _ hnone => rw [hrow] at hnone; cases hnone
  | frozen _ hsome hst =>
      rw [hrow] at hsome; cases hsome
      exact absurd hactive hst
  | insufficient _ hsome _ hlt =>
      rw [hrow] at hsome; cases hsome
      have hset := hsame rfl
      refine quiet hset hdb ⟨⟨_, rfl⟩, ?_⟩
      simpa [raceRow, spent, hset] using hlt
  | snapshot _ hsome hst hle =>
      rw [hrow] at hsome; cases hsome
      have hset := hsame rfl
      refine quiet hset hdb ?_
      rw [raceRow_congr hset]
      refine ⟨by omega, hst, hle, ?_, le_rfl, fun _ => rfl⟩
      simp only [raceRow] at hmine ⊢
      push_cast
      omega
  | @conflict k snap hno _ =>
      have hset := hsame rfl
      refine quiet hset hdb ?_
      rw [hset]
      exact (h.overtaken hactive (hacc i) hpc hno).2
  | @sleepless k snap e hno he =>
      -- the attempt is one of the first `n - 1`
      obtain ⟨hone, hpaid⟩ := h.overtaken hactive (hacc i) hpc hno
      have hlt : (committedSet s).card < Fintype.card ι :=
        card_committedSet_lt (i := i) (by rw [hpc]; rfl)
      rw [hsleep i k hone (by omega)] at he
      cases he
  | @overflow k snap row hsome hadm hnone =>
      rw [hrow] at hsome; cases hsome
      rw [newBalance_raceRow hexact (by simp [hpc, DebitPc.committed]) hadm] at hnone
      cases hnone
  | @commit k snap row balance hsome hcommits =>
      rw [hrow] at hsome; cases hsome
      exact h.commit hexact (hacc i) (hpos i) hothers hpc hpc' hcommits hdb
  | report _ => exact quiet (hsame rfl) hdb rfl
  | vanished hnone => rw [hrow] at hnone; cases hnone

theorem raceInv_of_run {db₀ : MockDatabaseShard} {tr : List (OccTransition ι)}
    (hrow₀ : db₀.store a = some row₀) (hactive : row₀.status = .active)
    (hnonneg : 0 ≤ row₀.availableBalance) (hacc : ∀ j, (calls j).accountId = a)
    (hpos : ∀ j, 0 < (calls j).amount)
    (hexact : DifferencesExact rd calls row₀.availableBalance)
    (hbudget : (Fintype.card ι : ℤ) ≤ m.maxRetries)
    (hsleep : BackoffsAccepted m calls (Fintype.card ι))
    (hrun : Run (occStep rd m calls) (.start db₀) tr s)
    (honly : ∀ t ∈ tr, ∃ i, t.event = .call i) : RaceInv calls row₀ a s := by
  refine hrun.invariant_of_forall (fun t => ∃ i, t.event = .call i)
    (fun _ s => RaceInv calls row₀ a s) ?_ ?_ honly
  · have hnone : committedSet (OccSystem.start (ι := ι) db₀) = ∅ := by
      ext j; simp [OccSystem.start, DebitPc.committed]
    have hopen : raceRow calls row₀ (.start db₀) = row₀ := by simp [raceRow, spent, hnone]
    exact ⟨by rw [hopen]; exact hrow₀, by simpa [spent, hnone] using hnonneg, fun i => trivial⟩
  · rintro tr s e s' - ih hstep ⟨i, rfl⟩
    exact ih.step hactive hacc hpos hexact hbudget hsleep hstep

/-- If all amounts fit, nobody can be rejected. -/
theorem RaceInv.all_commit (h : RaceInv calls row₀ a s) (hdone : ∀ i, ∃ r, s.pc i = .done r)
    (hpos : ∀ j, 0 < (calls j).amount) (hfit : ∑ i, (calls i).amount ≤ row₀.availableBalance) :
    committedSet s = Finset.univ := by
  refine Finset.eq_univ_iff_forall.mpr fun i => by_contra fun hi => ?_
  have hlt := (h.rejected (hdone i) hi).2
  have hsplit : (calls i).amount + spent calls s ≤ ∑ j, (calls j).amount := by
    rw [spent, ← Finset.sum_insert (f := fun j => (calls j).amount) hi]
    exact Finset.sum_le_sum_of_subset_of_nonneg (Finset.subset_univ _) fun j _ _ => (hpos j).le
  linarith

end Race

/-- Amounts of four decimals and a balance below 10²⁴ keep the whole race
within the digits of the context. -/
theorem differences_exact {ι : Type*} {calls : ι → DebitCall} {balance : ℚ}
    (hbalance : HasScale 4 balance) (hlt : balance < 10 ^ 24)
    (hamounts : ∀ i, HasScale 4 (calls i).amount) (hpos : ∀ i, 0 < (calls i).amount) :
    DifferencesExact decimalContext.rounding calls balance := by
  intro A hA
  have hnonneg : 0 ≤ ∑ i ∈ A, (calls i).amount := Finset.sum_nonneg fun i _ => (hpos i).le
  refine decimalContext_round_of_scale (hbalance.sub (HasScale.sum A fun i _ => hamounts i)) ?_
  rw [abs_of_nonneg (by linarith)]
  linarith

/-- **`n` concurrent debits.** On an ACTIVE account, `n` positive debits
with a budget of at least `n` tries each and no other writer: a call
takes boundedly many steps and is never stuck, and in every complete
schedule no call runs out of tries, each one commits or finds too little
money, the committed ones are a maximal affordable set, and the final
row is what they leave. If all of them fit, all of them commit. -/
theorem debits_commit_maximal_set {n : ℕ} {rd : Rounding} {m : OCCBalanceManager}
    {calls : Fin n → DebitCall} {a : String} {row₀ : AccountRecord} {db₀ : MockDatabaseShard}
    (hrow₀ : db₀.store a = some row₀) (hactive : row₀.status = .active)
    (hnonneg : 0 ≤ row₀.availableBalance) (hbudget : (n : ℤ) ≤ m.maxRetries)
    (hacc : ∀ i, (calls i).accountId = a) (hpos : ∀ i, 0 < (calls i).amount)
    (hexact : DifferencesExact rd calls row₀.availableBalance)
    (hsleep : BackoffsAccepted m calls n)
    {tr : List (OccTransition (Fin n))} {s : OccSystem (Fin n)}
    (hrun : Run (occStep rd m calls) (.start db₀) tr s)
    (honly : ∀ t ∈ tr, ∃ i, t.event = .call i) :
    (∀ i, tr.countP (fun t => t.event = .call i) ≤ 2 * m.maxRetries.toNat + 2 ∧
      ((∀ r, s.pc i ≠ .done r) → (occStep rd m calls s (.call i)).isSome)) ∧
    ((∀ i, ∃ r, s.pc i = .done r) →
      (∀ i, (∃ attempts balance, s.pc i = .done (.ok (true, attempts, balance))) ∨
        ∃ available, s.pc i = .done (.error (.insufficientFunds available (calls i).amount))) ∧
      ∑ i ∈ committedSet s, (calls i).amount ≤ row₀.availableBalance ∧
      s.db.store a = some { row₀ with
        availableBalance := row₀.availableBalance - ∑ i ∈ committedSet s, (calls i).amount
        version := row₀.version + (committedSet s).card } ∧
      (∀ i, i ∉ committedSet s →
        row₀.availableBalance - ∑ j ∈ committedSet s, (calls j).amount < (calls i).amount) ∧
      (∑ i, (calls i).amount ≤ row₀.availableBalance →
        committedSet s = Finset.univ ∧
        s.db.store a = some { row₀ with
          availableBalance := row₀.availableBalance - ∑ i, (calls i).amount
          version := row₀.version + n })) := by
  have hinv := raceInv_of_run hrow₀ hactive hnonneg hacc hpos hexact
    (by simpa using hbudget) (by simpa using hsleep) hrun honly
  refine ⟨fun i => ⟨?_, fun hgoing => ?_⟩, fun hdone => ⟨fun i => ?_, hinv.affordable, hinv.row,
    fun i hi => (hinv.rejected (hdone i) hi).2, fun hfit => ?_⟩⟩
  · exact (Nat.le_add_right _ _).trans (ownSteps_add_stepsLeft_le i hrun)
  · simpa [occStep] using debitStep_isSome rd m (calls i) s.db hgoing
  · by_cases hi : i ∈ committedSet s
    · exact .inl (hinv.accepted (hdone i) hi)
    · exact .inr (hinv.rejected (hdone i) hi).1
  · have huniv := hinv.all_commit hdone hpos hfit
    refine ⟨huniv, ?_⟩
    rw [hinv.row]
    simp [raceRow, spent, huniv]

/-- The documented race, 800 and 600 on 1000: both read, the first swap
wins, and the second call aborts after its second read. -/
theorem debits_commit_maximal_set_double_spend :
    let rd := decimalContext.rounding
    let db := MockDatabaseShard.empty.insertAccount ⟨"A", "usr", 1000, 1000, 1, .active⟩
    let calls : Fin 2 → DebitCall :=
      ![{ accountId := "A", amount := 800, txnId := "T1" },
        { accountId := "A", amount := 600, txnId := "T2" }]
    let run := exec (occStep rd {} calls) (.start db)
      [.call 0, .call 0, .call 1, .call 1, .call 0, .call 1, .call 1, .call 0]
    run.2.db.store "A" = some ⟨"A", "usr", 1000 - ∑ i ∈ committedSet run.2, (calls i).amount,
        1000, 1 + (committedSet run.2).card, .active⟩ ∧
      committedSet run.2 = {0} := by
  intro rd db calls run
  have hrun : Run (occStep rd {} calls) (.start db) run.1 run.2 := run_exec _ _ _
  have hdone : ∀ i, ∃ r, run.2.pc i = .done r := by
    intro i
    fin_cases i
    · exact ⟨.ok (true, 1, 200), by decide +kernel⟩
    · exact ⟨.error (.insufficientFunds 200 600), by decide +kernel⟩
  have honly : ∀ t ∈ run.1, ∃ i, t.event = .call i := by decide +kernel
  have hopen : db.store "A" = some ⟨"A", "usr", 1000, 1000, 1, .active⟩ :=
    MockDatabaseShard.put_store_self _ _ _
  have hpos : ∀ i, 0 < (calls i).amount := by decide +kernel
  have hexact : DifferencesExact rd calls 1000 := by
    refine differences_exact (by exact_mod_cast hasScale_intCast 4 1000) (by norm_num)
      (fun i => ?_) hpos
    fin_cases i
    · exact_mod_cast hasScale_intCast 4 800
    · exact_mod_cast hasScale_intCast 4 600
  have hsleep : BackoffsAccepted {} calls 2 := by
    intro i k hone hlt
    obtain rfl : k = 1 := by omega
    revert i
    decide +kernel
  exact ⟨((debits_commit_maximal_set hopen rfl (by norm_num) (by decide) (by decide +kernel)
    hpos hexact hsleep hrun honly).2 hdone).2.2.1, by decide +kernel⟩

/-- 10⁻²⁶ and 1000 debited from 1000: the first difference is rounded up
to 1000 again, so both commit. And with a negative `base_backoff_ms` the
loser of a swap raises the `ValueError` of `time.sleep`. -/
theorem not_maximalSet_roundedDebit :
    (let rd := decimalContext.rounding
     let db := MockDatabaseShard.empty.insertAccount ⟨"A", "usr", 1000, 1000, 1, .active⟩
     let calls : Fin 2 → DebitCall :=
       ![{ accountId := "A", amount := 1 / 10 ^ 26, txnId := "T1" },
         { accountId := "A", amount := 1000, txnId := "T2" }]
     let s := (exec (occStep rd {} calls) (.start db)
       [.call 0, .call 0, .call 0, .call 0, .call 1, .call 1, .call 1, .call 1]).2
     (∀ i, s.pc i = .done (.ok (true, 1, ![1000, 0] i))) ∧
       1000 < ∑ i ∈ committedSet s, (calls i).amount ∧
       s.db.store "A" = some ⟨"A", "usr", 0, 1000, 3, .active⟩) ∧
    (let rd := decimalContext.rounding
     let db := MockDatabaseShard.empty.insertAccount ⟨"A", "usr", 1000, 1000, 1, .active⟩
     let calls : Fin 2 → DebitCall :=
       ![{ accountId := "A", amount := 300, txnId := "T1" },
         { accountId := "A", amount := 600, txnId := "T2" }]
     let s := (exec (occStep rd { baseBackoffMs := -20 } calls) (.start db)
       [.call 0, .call 0, .call 1, .call 1, .call 0, .call 1, .call 0]).2
     (∀ i, ∃ r, s.pc i = .done r) ∧ s.pc 1 = .done (.error (.sleep .negative))) := by
  refine ⟨⟨by decide +kernel, by decide +kernel, by decide +kernel⟩, fun i => ?_,
    by decide +kernel⟩
  fin_cases i
  · exact ⟨.ok (true, 1, 700), by decide +kernel⟩
  · exact ⟨.error (.sleep .negative), by decide +kernel⟩

end Httpe.Occ
