/-
Httpe.Occ.Retries — every retry of `debit_with_occ` is paid for.

A compare-and-swap that returns `False` has four possible reasons and
tells the caller none of them. Within this system only one is left: the
call checked status and funds on its snapshot, rows never vanish, and a
row whose version still is the snapshot's is the snapshot, so a failed
swap means the version moved, and only a commit moves it. `CallPaid`
carries this along a run: a call between its read and its swap is
`Snapshotted`, and what pays for a moved version is a foreign commit since
that read (`Charged`).

The commits charged for different attempts are different because they
lie between different reads of the call: `Paid.chargedInOrder` turns the
list of charges into a strictly increasing choice of positions.
-/
import Httpe.Lib.Charging
import Httpe.Occ.Commits
import Httpe.Occ.Linearizable

namespace Httpe.Occ

open Decimal

variable {ι : Type*} [DecidableEq ι]

/-- Call `i` reads its account at the head of an attempt. -/
def attemptRead (m : OCCBalanceManager) (i : ι) (t : OccTransition ι) : Bool :=
  decide (t.event = .call i) &&
    match t.pre.pc i with
    | .loop a => decide ((a : ℤ) < m.maxRetries)
    | .entry | .cas _ _ | .reread _ | .done _ => false

/-- Call `i` attempts its compare-and-swap. -/
def attemptSwap (i : ι) (t : OccTransition ι) : Bool :=
  decide (t.event = .call i) &&
    match t.pre.pc i with
    | .cas _ _ => true
    | .entry | .loop _ | .reread _ | .done _ => false

def reads (m : OCCBalanceManager) (i : ι) (tr : List (OccTransition ι)) : ℕ :=
  tr.countP (attemptRead m i)

def swaps (i : ι) (tr : List (OccTransition ι)) : ℕ := tr.countP (attemptSwap i)

/-- A foreign commit lies between the read and the swap of attempt `j`,
counting from zero. -/
def Charged (rd : Rounding) (m : OCCBalanceManager) (calls : ι → DebitCall) (i : ι)
    (tr : List (OccTransition ι)) (j : ℕ) : Prop :=
  ∃ l t r, tr = l ++ t :: r ∧ ForeignCommit rd calls i t ∧ reads m i l = j + 1 ∧ swaps i l = j

/-- The first `n` attempts are paid for. -/
def Paid (rd : Rounding) (m : OCCBalanceManager) (calls : ι → DebitCall) (i : ι)
    (tr : List (OccTransition ι)) (n : ℕ) : Prop :=
  ∀ j < n, Charged rd m calls i tr j

/-- What the history of a run says about the attempts of call `i`. -/
def CallPaid (rd : Rounding) (m : OCCBalanceManager) (calls : ι → DebitCall) (i : ι)
    (tr : List (OccTransition ι)) : DebitPc → MockDatabaseShard → Prop
  | .entry, _ => reads m i tr = 0 ∧ swaps i tr = 0
  | .loop a, _ => reads m i tr = a ∧ swaps i tr = a ∧ Paid rd m calls i tr a
  | .cas a snap, db => ∃ k, a = k + 1 ∧ reads m i tr = k + 1 ∧ swaps i tr = k ∧
      Paid rd m calls i tr k ∧ Snapshotted (calls i) snap db (Charged rd m calls i tr k)
  | .reread a, _ | .done (.ok (_, a, _)), _ =>
      reads m i tr = a ∧ swaps i tr = a ∧ Paid rd m calls i tr (a - 1)
  | .done (.error (.versionConflict _ _)), _ => Paid rd m calls i tr m.maxRetries.toNat
  | .done (.error _), _ => True

variable {rd : Rounding} {m : OCCBalanceManager} {calls : ι → DebitCall} {i : ι}
  {tr : List (OccTransition ι)} {t : OccTransition ι} {j n : ℕ}

/-! ## One transition at the end of the history -/

theorem reads_snoc : reads m i (tr ++ [t]) = reads m i tr + if attemptRead m i t then 1 else 0 := by
  rw [reads, List.countP_append, List.countP_singleton, reads]

theorem swaps_snoc : swaps i (tr ++ [t]) = swaps i tr + if attemptSwap i t then 1 else 0 := by
  rw [swaps, List.countP_append, List.countP_singleton, swaps]

theorem reads_snoc_of_not_own (h : t.event ≠ .call i) : reads m i (tr ++ [t]) = reads m i tr := by
  simp [reads_snoc, attemptRead, h]

theorem swaps_snoc_of_not_own (h : t.event ≠ .call i) : swaps i (tr ++ [t]) = swaps i tr := by
  simp [swaps_snoc, attemptSwap, h]

theorem Charged.snoc (h : Charged rd m calls i tr j) : Charged rd m calls i (tr ++ [t]) j :=
  exists_split_snoc h

theorem Paid.snoc (h : Paid rd m calls i tr n) : Paid rd m calls i (tr ++ [t]) n :=
  fun j hj => (h j hj).snoc

theorem Paid.succ (h : Paid rd m calls i tr n) (hn : Charged rd m calls i tr n) :
    Paid rd m calls i tr (n + 1) :=
  Nat.forall_lt_succ_right.mpr ⟨h, hn⟩

/-- A step of the call itself. -/
theorem CallPaid.own (h : CallPaid rd m calls i tr (t.pre.pc i) t.pre.db) (hown : t.event = .call i)
    (hmove : DebitMove rd m (calls i) t.pre.db (t.pre.pc i) (t.post.pc i) t.post.db) :
    CallPaid rd m calls i (tr ++ [t]) (t.post.pc i) t.post.db := by
  have hreads : reads m i (tr ++ [t]) = _ := reads_snoc
  have hswaps : swaps i (tr ++ [t]) = _ := swaps_snoc
  unfold attemptRead at hreads
  unfold attemptSwap at hswaps
  rw [hown] at hreads hswaps
  generalize t.pre.pc i = pc at h hmove hreads hswaps
  generalize t.post.pc i = pc' at hmove ⊢
  generalize t.post.db = db' at hmove ⊢
  simp only [decide_true, Bool.true_and] at hreads hswaps
  cases hmove with
  | invalid _ => trivial
  | begin _ => exact ⟨hreads.trans (by simp [h.1]), hswaps.trans (by simp [h.2]), nofun⟩
  | @exhausted a ha =>
      obtain ⟨-, -, hpaid⟩ := h
      exact fun j hj => (hpaid j (by omega)).snoc
  | missing _ _ => trivial
  | frozen _ _ _ => trivial
  | insufficient _ _ _ _ => trivial
  | @snapshot a row ha hrow hst hle =>
      obtain ⟨hr, hs, hpaid⟩ := h
      refine ⟨a, rfl, ?_, ?_, hpaid.snoc, hst, hle, .inl hrow⟩
      · rw [hreads, hr]; simp [ha]
      · rw [hswaps, hs]; simp
  | @commit a snap row balance hrow hcommits =>
      obtain ⟨k, rfl, hr, hs, hpaid, -⟩ := h
      refine ⟨?_, ?_, by simpa using hpaid.snoc⟩
      · rw [hreads, hr]; simp
      · rw [hswaps, hs]; simp
  | @conflict a snap hno _ =>
      obtain ⟨k, rfl, hr, hs, hpaid, hsnap⟩ := h
      refine ⟨?_, ?_, (hpaid.succ (hsnap.paid_of_conflict hno)).snoc⟩
      · rw [hreads, hr]; simp
      · rw [hswaps, hs]; simp
  | overflow _ _ _ => trivial
  | sleepless _ _ => trivial
  | @report a row hrow =>
      obtain ⟨hr, hs, hpaid⟩ := h
      refine ⟨?_, ?_, hpaid.snoc⟩
      · rw [hreads, hr]; simp
      · rw [hswaps, hs]; simp
  | vanished _ => trivial

/-- A step of anyone else; a commit on the account pays for the attempt
under way. -/
theorem CallPaid.other (h : CallPaid rd m calls i tr (t.pre.pc i) t.pre.db)
    (hstep : occStep rd m calls t.pre t.event = some t.post) (hne : t.event ≠ .call i) :
    CallPaid rd m calls i (tr ++ [t]) (t.post.pc i) t.post.db := by
  have hreads : reads m i (tr ++ [t]) = reads m i tr := reads_snoc_of_not_own hne
  have hswaps : swaps i (tr ++ [t]) = swaps i tr := swaps_snoc_of_not_own hne
  rw [pc_of_not_own hstep hne]
  cases hpc : t.pre.pc i with
  | entry =>
      rw [hpc] at h
      exact ⟨hreads.trans h.1, hswaps.trans h.2⟩
  | loop a =>
      rw [hpc] at h
      exact ⟨hreads.trans h.1, hswaps.trans h.2.1, h.2.2.snoc⟩
  | cas a snap =>
      rw [hpc] at h
      obtain ⟨k, rfl, hr, hs, hpaid, hsnap⟩ := h
      refine ⟨k, rfl, hreads.trans hr, hswaps.trans hs, hpaid.snoc, ?_⟩
      exact hsnap.other hstep hne Charged.snoc fun hforeign => ⟨tr, t, [], rfl, hforeign, hr, hs⟩
  | reread a =>
      rw [hpc] at h
      exact ⟨hreads.trans h.1, hswaps.trans h.2.1, h.2.2.snoc⟩
  | done result =>
      rw [hpc] at h
      rcases result with e | ⟨b, a, balance⟩
      · cases e with
        | versionConflict _ _ => exact Paid.snoc h
        | _ => trivial
      · exact ⟨hreads.trans h.1, hswaps.trans h.2.1, h.2.2.snoc⟩

variable {s₀ s : OccSystem ι}

theorem callPaid_of_run (hentry : s₀.pc i = .entry) (hrun : Run (occStep rd m calls) s₀ tr s) :
    CallPaid rd m calls i tr (s.pc i) s.db := by
  refine hrun.invariant (fun tr s => CallPaid rd m calls i tr (s.pc i) s.db) ?_ ?_
  · rw [hentry]; exact ⟨rfl, rfl⟩
  · intro tr s e s' _ ih hstep
    by_cases he : e = .call i
    · subst he
      exact CallPaid.own (t := ⟨s, .call i, s'⟩) ih rfl (occStep_call hstep).1
    · exact CallPaid.other (t := ⟨s, e, s'⟩) ih hstep he

/-- A row that still has the snapshot's version is the snapshot. -/
theorem row_eq_snapshot (hentry : s₀.pc i = .entry) (hrun : Run (occStep rd m calls) s₀ tr s)
    {a : ℕ} {snap row : AccountRecord} (hpc : s.pc i = .cas a snap)
    (hrow : s.db.store (calls i).accountId = some row) (hver : row.version = snap.version) :
    row = snap := by
  have hinv := callPaid_of_run hentry hrun
  rw [hpc] at hinv
  obtain ⟨k, -, -, -, -, hsnap⟩ := hinv
  exact hsnap.row_eq hrow hver

/-! ## Charges at different positions -/

/-- Positions of the history, in increasing order, of commits charged for
attempts `0`, …, `n - 1`: each is a foreign commit after the attempt's
read and before its swap. -/
def ChargedInOrder (rd : Rounding) (m : OCCBalanceManager) (calls : ι → DebitCall) (i : ι)
    (tr : List (OccTransition ι)) (n : ℕ) : Prop :=
  ∃ charge : Fin n → Fin tr.length, StrictMono charge ∧
    ∀ j, ForeignCommit rd calls i (tr.get (charge j)) ∧
      reads m i (tr.take (charge j)) = j + 1 ∧ swaps i (tr.take (charge j)) = j

theorem reads_le_of_prefix (l l' : List (OccTransition ι)) (h : l <+: l') :
    reads m i l ≤ reads m i l' :=
  h.countP_le

/-- A later attempt has made more reads, so its charge lies further on. -/
theorem Paid.chargedInOrder (h : Paid rd m calls i tr n) : ChargedInOrder rd m calls i tr n := by
  obtain ⟨charge, hmono, hcharge⟩ := exists_strictMono_positions
    (P := fun j l t => ForeignCommit rd calls i t ∧ reads m i l = j + 1 ∧ swaps i l = j)
    reads_le_of_prefix (fun j l t hP => hP.2.1) h
  exact ⟨charge, hmono, hcharge⟩

/-! ## A call nobody interferes with -/

/-- Where a call stands after `n` steps of its own, if its account's row
is `row₀` and nobody else commits on it; `balance` is what its swap
computes. -/
def Undisturbed (call : DebitCall) (row₀ : AccountRecord) (balance : ℚ) (n : ℕ) (pc : DebitPc)
    (db : MockDatabaseShard) : Prop :=
  (n = 0 ∧ pc = .entry ∧ db.store call.accountId = some row₀) ∨
  (n = 1 ∧ pc = .loop 0 ∧ db.store call.accountId = some row₀) ∨
  (n = 2 ∧ pc = .cas 1 row₀ ∧ db.store call.accountId = some row₀) ∨
  (n = 3 ∧ pc = .reread 1 ∧ db.store call.accountId = some (row₀.updated balance)) ∨
  (n = 4 ∧ pc = .done (.ok (true, 1, balance)))

theorem Undisturbed.own {call : DebitCall} {row₀ : AccountRecord} {balance : ℚ}
    {pc pc' : DebitPc} {db db' : MockDatabaseShard} (h : Undisturbed call row₀ balance n pc db)
    (hactive : row₀.status = .active) (hpos : 0 < call.amount)
    (hfunds : call.amount ≤ row₀.availableBalance)
    (hbalance : rd.round (row₀.availableBalance - call.amount) = some balance)
    (hbudget : 1 ≤ m.maxRetries) (hmove : DebitMove rd m call db pc pc' db') :
    Undisturbed call row₀ balance (n + 1) pc' db' := by
  have hnew : (call.cas row₀).newBalance rd row₀ = some balance := by
    rwa [sub_eq_add_neg] at hbalance
  rcases h with ⟨rfl, rfl, hrow⟩ | ⟨rfl, rfl, hrow⟩ | ⟨rfl, rfl, hrow⟩ | ⟨rfl, rfl, hrow⟩ |
    ⟨rfl, rfl⟩
  · cases hmove with
    | invalid hamount => exact absurd hamount (not_le.mpr hpos)
    | begin _ => exact .inr (.inl ⟨rfl, rfl, hrow⟩)
  · cases hmove with
    | exhausted ha => exact absurd ha (by push_cast; omega)
    | missing _ hnone => rw [hrow] at hnone; cases hnone
    | frozen _ hsome hst =>
        rw [hrow] at hsome; cases hsome
        exact absurd hactive hst
    | insufficient _ hsome _ hlt =>
        rw [hrow] at hsome; cases hsome
        exact absurd hfunds (not_le.mpr hlt)
    | snapshot _ hsome _ _ =>
        have heq := hsome
        rw [hrow] at hsome; cases hsome
        exact .inr (.inr (.inl ⟨rfl, rfl, heq⟩))
  · cases hmove with
    | commit hsome hcommits =>
        rw [hrow] at hsome; cases hsome
        rw [hcommits.newBalance] at hnew; cases hnew
        exact .inr (.inr (.inr (.inl ⟨rfl, rfl, MockDatabaseShard.put_store_self _ _ _⟩)))
    | overflow hsome _ hnone =>
        rw [hrow] at hsome; cases hsome
        rw [hnone] at hnew; cases hnew
    | conflict hno _ => exact absurd ⟨hactive, rfl, hfunds⟩ (hno row₀ hrow)
    | sleepless hno _ => exact absurd ⟨hactive, rfl, hfunds⟩ (hno row₀ hrow)
  · cases hmove with
    | report hsome =>
        rw [hrow] at hsome; cases hsome
        exact .inr (.inr (.inr (.inr ⟨rfl, rfl⟩)))
    | vanished hnone => rw [hrow] at hnone; cases hnone
  · cases hmove

theorem Undisturbed.other {row₀ : AccountRecord} {balance : ℚ}
    (h : Undisturbed (calls i) row₀ balance n (t.pre.pc i) t.pre.db)
    (hstep : occStep rd m calls t.pre t.event = some t.post) (hne : t.event ≠ .call i)
    (hquiet : ¬ ForeignCommit rd calls i t) :
    Undisturbed (calls i) row₀ balance n (t.post.pc i) t.post.db := by
  have hkeep : ∀ row, t.pre.db.store (calls i).accountId = some row →
      t.post.db.store (calls i).accountId = some row := by
    intro row hrow
    rcases row_of_step hstep hrow with ⟨-, hpost⟩ | ⟨c, _, hc, hac, -⟩
    · exact hpost
    · exact absurd ⟨hne, c, hc, hac⟩ hquiet
  rw [pc_of_not_own hstep hne]
  rcases h with ⟨hn, hpc, hrow⟩ | ⟨hn, hpc, hrow⟩ | ⟨hn, hpc, hrow⟩ | ⟨hn, hpc, hrow⟩ | ⟨hn, hpc⟩
  · exact .inl ⟨hn, hpc, hkeep _ hrow⟩
  · exact .inr (.inl ⟨hn, hpc, hkeep _ hrow⟩)
  · exact .inr (.inr (.inl ⟨hn, hpc, hkeep _ hrow⟩))
  · exact .inr (.inr (.inr (.inl ⟨hn, hpc, hkeep _ hrow⟩)))
  · exact .inr (.inr (.inr (.inr ⟨hn, hpc⟩)))

theorem undisturbed_of_run {row₀ : AccountRecord} {balance : ℚ} (hentry : s₀.pc i = .entry)
    (hrow : s₀.db.store (calls i).accountId = some row₀) (hactive : row₀.status = .active)
    (hpos : 0 < (calls i).amount) (hfunds : (calls i).amount ≤ row₀.availableBalance)
    (hbalance : rd.round (row₀.availableBalance - (calls i).amount) = some balance)
    (hbudget : 1 ≤ m.maxRetries) (hrun : Run (occStep rd m calls) s₀ tr s)
    (hquiet : ∀ t ∈ tr, ¬ ForeignCommit rd calls i t) :
    Undisturbed (calls i) row₀ balance (tr.countP fun t => t.event = .call i) (s.pc i) s.db := by
  refine hrun.invariant_of_forall (fun t => ¬ ForeignCommit rd calls i t)
    (fun tr s => Undisturbed (calls i) row₀ balance (tr.countP fun t => t.event = .call i)
      (s.pc i) s.db)
    (.inl ⟨rfl, hentry, hrow⟩) ?_ hquiet
  intro tr s e s' _ ih hstep hno
  rw [List.countP_append, List.countP_singleton]
  by_cases he : e = .call i
  · subst he
    simp only [decide_true, if_true]
    exact ih.own hactive hpos hfunds hbalance hbudget (occStep_call hstep).1
  · simp only [he, decide_false, Bool.false_eq_true, if_false, Nat.add_zero]
    exact Undisturbed.other (t := ⟨s, e, s'⟩) ih hstep he hno

theorem Undisturbed.eq_four_of_done {call : DebitCall} {row₀ : AccountRecord} {balance : ℚ}
    {pc : DebitPc} {db : MockDatabaseShard} {r : DebitResult}
    (h : Undisturbed call row₀ balance n pc db)
    (hdone : pc = .done r) : n = 4 := by
  subst hdone
  rcases h with ⟨-, hpc, -⟩ | ⟨-, hpc, -⟩ | ⟨-, hpc, -⟩ | ⟨-, hpc, -⟩ | ⟨hn, -⟩
  · cases hpc
  · cases hpc
  · cases hpc
  · cases hpc
  · exact hn

/-- **Retries are paid for by progress.** Whatever else goes on, from the
moment a call starts: if it reports `k` attempts, it made `k` reads and
`k` swaps, and for each of the first `k - 1` a different foreign commit
on its account lies between that attempt's read and its swap; if it gives
up, this holds of all `max_retries` attempts. If nobody else commits on
the account, an admissible debit of a manager that tries at all, whose
difference does not overflow, is through after four steps of its own,
which are always enabled, on its first attempt, and reports that
difference. -/
theorem retries_paid_by_commits (hentry : s₀.pc i = .entry)
    (hrun : Run (occStep rd m calls) s₀ tr s) :
    (∀ b k balance, s.pc i = .done (.ok (b, k, balance)) →
      reads m i tr = k ∧ swaps i tr = k ∧ ChargedInOrder rd m calls i tr (k - 1)) ∧
    (∀ txnId retries, s.pc i = .done (.error (.versionConflict txnId retries)) →
      ChargedInOrder rd m calls i tr m.maxRetries.toNat) ∧
    (∀ row₀ balance, s₀.db.store (calls i).accountId = some row₀ → row₀.status = .active →
      0 < (calls i).amount → (calls i).amount ≤ row₀.availableBalance →
      rd.round (row₀.availableBalance - (calls i).amount) = some balance → 1 ≤ m.maxRetries →
      (∀ t ∈ tr, ¬ ForeignCommit rd calls i t) →
      (s.pc i = .done (.ok (true, 1, balance)) ↔
        tr.countP (fun t => t.event = .call i) = 4) ∧
      (tr.countP (fun t => t.event = .call i) < 4 →
        (occStep rd m calls s (.call i)).isSome)) := by
  have hinv := callPaid_of_run hentry hrun
  refine ⟨fun b k balance hdone => ?_, fun txnId retries hdone => ?_,
    fun row₀ balance hrow hactive hpos hfunds hbalance hbudget hquiet => ?_⟩
  · rw [hdone] at hinv
    exact ⟨hinv.1, hinv.2.1, hinv.2.2.chargedInOrder⟩
  · rw [hdone] at hinv
    exact Paid.chargedInOrder hinv
  · have hstands :=
      undisturbed_of_run hentry hrow hactive hpos hfunds hbalance hbudget hrun hquiet
    refine ⟨⟨fun hdone => hstands.eq_four_of_done hdone, fun hcount => ?_⟩, fun hlt => ?_⟩
    · rw [hcount] at hstands
      simpa [Undisturbed] using hstands
    · have hgoing : ∀ r, s.pc i ≠ .done r := by
        intro r hr
        have hfour := hstands.eq_four_of_done hr
        omega
      simpa [occStep] using debitStep_isSome rd m (calls i) s.db hgoing

/-- The self-test's account is credited between the read and the swap of
the first attempt, and once more between those of the second. -/
def creditedSchedule : List (OccEvent Bool) :=
  [.call false, .call false, .client (.credit "acc-1" 50 1), .call false,
   .call false, .client (.credit "acc-1" 70 2), .call false,
   .call false, .call false, .call false]

theorem retries_paid_by_commits_credited :
    let rd := decimalContext.rounding
    let twice : OCCBalanceManager := { maxRetries := 2 }
    let run := exec (occStep rd {} raceCalls) (.start .selfTest) creditedSchedule
    let alone := exec (occStep rd {} raceCalls) (.start .selfTest)
      [.call false, .call false, .call false, .call false]
    let hasty := exec (occStep rd twice raceCalls) (.start .selfTest) creditedSchedule
    ChargedInOrder rd {} raceCalls false run.1 2 ∧
    ChargedInOrder rd twice raceCalls false hasty.1 2 ∧
    alone.2.pc false = .done (.ok (true, 1, 700)) := by
  intro rd twice run alone hasty
  have hrun : Run (occStep rd {} raceCalls) (.start .selfTest) run.1 run.2 := run_exec _ _ _
  have hhasty : Run (occStep rd twice raceCalls) (.start .selfTest) hasty.1 hasty.2 :=
    run_exec _ _ _
  have halone : Run (occStep rd {} raceCalls) (.start .selfTest) alone.1 alone.2 :=
    run_exec _ _ _
  have hthird : run.2.pc false = .done (.ok (true, 3, 820)) := by decide +kernel
  have hgave : hasty.2.pc false = .done (.error (.versionConflict "txn-1" 2)) := by decide +kernel
  have hopen : MockDatabaseShard.selfTest.store "acc-1"
      = some ⟨"acc-1", "usr-101", 1500, 1500, 1, .active⟩ := MockDatabaseShard.put_store_self _ _ _
  have hown : ∀ t ∈ alone.1, t.event = .call false := by decide +kernel
  refine ⟨((retries_paid_by_commits rfl hrun).1 _ _ _ hthird).2.2,
    (retries_paid_by_commits rfl hhasty).2.1 _ _ hgave, ?_⟩
  exact ((retries_paid_by_commits (i := false) rfl halone).2.2 _ 700 hopen rfl (by decide +kernel)
    (by decide +kernel) (by decide +kernel) (by decide)
    fun t ht hforeign => hforeign.1 (hown t ht)).1.mpr (by decide +kernel)

/-- With `max_retries` 0 there is no attempt: an admissible debit raises
although nobody else commits. So does one whose difference overflows. -/
theorem not_commits_first_noRetries :
    let rd := decimalContext.rounding
    (let never : OCCBalanceManager := { maxRetries := 0 }
     let run := exec (occStep rd never raceCalls) (.start .selfTest) [.call false, .call false]
     Run (occStep rd never raceCalls) (.start .selfTest) run.1 run.2 ∧
     (∃ row, MockDatabaseShard.selfTest.store "acc-1" = some row ∧ row.status = .active ∧
       0 < (raceCalls false).amount ∧ (raceCalls false).amount ≤ row.availableBalance ∧
       rd.round (row.availableBalance - (raceCalls false).amount) = some 700) ∧
     (∀ t ∈ run.1, ¬ ForeignCommit rd raceCalls false t) ∧
     run.2.pc false = .done (.error (.versionConflict "txn-1" 0)) ∧
     ¬ ∃ balance, run.2.pc false = .done (.ok (true, 1, balance))) ∧
    (let rich := MockDatabaseShard.empty.insertAccount
       ⟨"acc-1", "usr-101", 2 * 10 ^ (10 ^ 6 : ℤ), 0, 1, .active⟩
     let run := exec (occStep rd {} raceCalls) (.start rich)
       [.call false, .call false, .call false]
     (∀ t ∈ run.1, ¬ ForeignCommit rd raceCalls false t) ∧
     run.2.pc false = .done (.error (.decimal .overflow))) := by
  intro rd
  refine ⟨?_, ?_⟩
  · intro never run
    have hraised : run.2.pc false = .done (.error (.versionConflict "txn-1" 0)) := by
      decide +kernel
    have hown : ∀ t ∈ run.1, t.event = .call false :=
      fun t ht => by simpa using event_of_mem_exec ht
    refine ⟨run_exec _ _ _, ?_, fun t ht hforeign => hforeign.1 (hown t ht), hraised, ?_⟩
    · exact ⟨_, MockDatabaseShard.put_store_self _ _ _, rfl, by decide +kernel,
        by decide +kernel, by decide +kernel⟩
    · rintro ⟨balance, hdone⟩
      rw [hraised] at hdone
      cases hdone
  · intro rich run
    have hown : ∀ t ∈ run.1, t.event = .call false :=
      fun t ht => by simpa using event_of_mem_exec ht
    refine ⟨fun t ht hforeign => hforeign.1 (hown t ht), ?_⟩
    have hlarge : (1000 : ℚ) ≤ 10 ^ (10 ^ 6 : ℤ) := by
      calc (1000 : ℚ) = 10 ^ (3 : ℤ) := by norm_num
        _ ≤ 10 ^ (10 ^ 6 : ℤ) := zpow_le_zpow_right₀ (by norm_num) (by norm_num)
    have hoverflow : ∀ x, (10 : ℚ) ^ (10 ^ 6 : ℤ) ≤ x → rd.round x = none := fun x hx =>
      Context.round_eq_none_of_le (by decide) (hx.trans' (by norm_num [decimalContext]))
    have hstore : rich.store "acc-1"
        = some ⟨"acc-1", "usr-101", 2 * 10 ^ (10 ^ 6 : ℤ), 0, 1, .active⟩ :=
      MockDatabaseShard.put_store_self _ _ _
    -- nothing may evaluate the power
    generalize (10 : ℚ) ^ (10 ^ 6 : ℤ) = big at *
    have hfunds : ¬ 2 * big < 800 := by linarith
    have hnone : rd.round (2 * big - 800) = none := hoverflow _ (by linarith)
    have hpositive : ¬ (800 : ℚ) ≤ 0 := by norm_num
    simp [run, exec, occStep, OccSystem.start, debitStep, raceCalls,
      MockDatabaseShard.getAccountForRead, hstore, hfunds, hpositive,
      MockDatabaseShard.executeOccDebit, hnone]

end Httpe.Occ
