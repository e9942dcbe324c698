/-
Httpe.Occ.Receipt — the balance `debit_with_occ` reports.

The reported balance does not come from the compare-and-swap: the call
reads the account once more after it. What it reports is therefore the
balance its own swap wrote with whatever others have committed on the
account by then added to it, amount after amount (`window`), and
`reportsOwn_iff_window_leadsBack` says it is the call's own balance exactly
when these additions lead back to that balance. Where no addition is
rounded, they do if the amounts sum to zero.
-/
import Httpe.Occ.Retries

namespace Httpe.Occ

open Decimal

variable {ι : Type*} [DecidableEq ι]

/-- The call has swapped and not read again yet. -/
def DebitPc.awaitsReread : DebitPc → Bool
  | .reread _ => true
  | .entry | .loop _ | .cas _ _ | .done _ => false

/-- What a transition of anyone else commits on call `i`'s account while
the call stands between its swap and its second read. -/
def windowDelta (rd : Rounding) (calls : ι → DebitCall) (i : ι) (t : OccTransition ι) : Option ℚ :=
  if t.event ≠ .call i ∧ (t.pre.pc i).awaitsReread then
    commitDelta rd calls (calls i).accountId t
  else none

/-- The signed amounts committed in that window, in order. -/
def window (rd : Rounding) (calls : ι → DebitCall) (i : ι) (tr : List (OccTransition ι)) :
    List ℚ :=
  tr.filterMap (windowDelta rd calls i)

/-- Call `i` commits at `t` against the snapshot `snap`: the row is the
snapshot, and what it writes is the snapshot less the amount. -/
structure OwnCommit (rd : Rounding) (calls : ι → DebitCall) (i : ι) (t : OccTransition ι)
    (snap : AccountRecord) (balance : ℚ) : Prop where
  own : t.event = .call i
  swap : ∃ a, t.pre.pc i = .cas a snap
  current : t.pre.db.store (calls i).accountId = some snap
  computed : rd.round (snap.availableBalance - (calls i).amount) = some balance
  written : t.post.db.store (calls i).accountId = some (snap.updated balance)

/-- If call `i` returns a balance, it is the one its own swap wrote. -/
def ReportsOwn (rd : Rounding) (calls : ι → DebitCall) (i : ι) (tr : List (OccTransition ι))
    (s : OccSystem ι) : Prop :=
  ∀ b k balance, s.pc i = .done (.ok (b, k, balance)) →
    ∃ t ∈ tr, ∃ snap, OwnCommit rd calls i t snap balance

/-- Added to the snapshot less the amount, what others commit in the window
comes to nothing. -/
def WindowLeadsBack (rd : Rounding) (calls : ι → DebitCall) (i : ι)
    (tr : List (OccTransition ι)) : Prop :=
  ∀ t ∈ tr, ∀ snap balance, OwnCommit rd calls i t snap balance →
    rd.addAll balance (window rd calls i tr) = some balance

/-- No addition in the window is rounded. -/
def WindowExact (rd : Rounding) (calls : ι → DebitCall) (i : ι)
    (tr : List (OccTransition ι)) : Prop :=
  ∀ t ∈ tr, ∀ snap balance, OwnCommit rd calls i t snap balance →
    rd.AddsExactly balance (window rd calls i tr)

/-- Call `i` committed `balance` against `snap`, and that only. -/
def CommittedAgainst (rd : Rounding) (calls : ι → DebitCall) (i : ι) (tr : List (OccTransition ι))
    (snap : AccountRecord) (balance : ℚ) : Prop :=
  (∃ t ∈ tr, OwnCommit rd calls i t snap balance) ∧
    ∀ t ∈ tr, ∀ snap' balance', OwnCommit rd calls i t snap' balance' → balance' = balance

/-- What the history says about the balance call `i` is going to report. -/
def ReceiptInv (rd : Rounding) (calls : ι → DebitCall) (i : ι) (tr : List (OccTransition ι)) :
    DebitPc → MockDatabaseShard → Prop
  | .entry, _ | .loop _, _ | .cas _ _, _ =>
      (∀ t ∈ tr, ∀ snap balance, ¬ OwnCommit rd calls i t snap balance) ∧
        window rd calls i tr = []
  | .reread _, db => ∃ snap balance row, CommittedAgainst rd calls i tr snap balance ∧
      db.store (calls i).accountId = some row ∧
      rd.addAll balance (window rd calls i tr) = some row.availableBalance
  | .done (.ok (_, _, reported)), _ => ∃ snap balance,
      CommittedAgainst rd calls i tr snap balance ∧
      rd.addAll balance (window rd calls i tr) = some reported
  | .done (.error _), _ => True

variable {rd : Rounding} {m : OCCBalanceManager} {calls : ι → DebitCall} {i : ι}
  {tr : List (OccTransition ι)} {t : OccTransition ι} {snap : AccountRecord} {balance : ℚ}
  {s₀ s : OccSystem ι}

theorem window_snoc : window rd calls i (tr ++ [t]) =
    window rd calls i tr ++ (windowDelta rd calls i t).toList := by
  unfold window
  rw [List.filterMap_append]
  cases h : windowDelta rd calls i t <;> simp [h]

theorem window_snoc_own (h : t.event = .call i) :
    window rd calls i (tr ++ [t]) = window rd calls i tr := by
  simp [window_snoc, windowDelta, h]

theorem window_snoc_of_not_awaits (h : (t.pre.pc i).awaitsReread = false) :
    window rd calls i (tr ++ [t]) = window rd calls i tr := by
  simp [window_snoc, windowDelta, h]

omit [DecidableEq ι] in
theorem not_ownCommit_of_pc (h : ∀ a, t.pre.pc i ≠ .cas a snap) :
    ¬ OwnCommit rd calls i t snap balance :=
  fun hown => hown.swap.elim fun a ha => h a ha

omit [DecidableEq ι] in
theorem CommittedAgainst.snoc (h : CommittedAgainst rd calls i tr snap balance)
    (ht : ∀ snap' balance', ¬ OwnCommit rd calls i t snap' balance') :
    CommittedAgainst rd calls i (tr ++ [t]) snap balance := by
  obtain ⟨⟨u, hu, hcommit⟩, hunique⟩ := h
  refine ⟨⟨u, List.mem_append_left _ hu, hcommit⟩, forall_mem_snoc hunique ?_⟩
  exact fun snap' balance' hcommit' => absurd hcommit' (ht snap' balance')

/-- A step of the call itself. The hypothesis says that a swap which
finds the snapshot's version finds the snapshot. -/
theorem ReceiptInv.own (h : ReceiptInv rd calls i tr (t.pre.pc i) t.pre.db)
    (hown : t.event = .call i)
    (hsnap : ∀ a snap row, t.pre.pc i = .cas a snap →
      t.pre.db.store (calls i).accountId = some row → row.version = snap.version → row = snap)
    (hmove : DebitMove rd m (calls i) t.pre.db (t.pre.pc i) (t.post.pc i) t.post.db) :
    ReceiptInv rd calls i (tr ++ [t]) (t.post.pc i) t.post.db := by
  have hwindow : window rd calls i (tr ++ [t]) = window rd calls i tr := window_snoc_own hown
  have hno : (∀ a snap, t.pre.pc i ≠ .cas a snap) →
      ∀ snap balance, ¬ OwnCommit rd calls i t snap balance :=
    fun hpc snap balance => not_ownCommit_of_pc fun a => hpc a snap
  generalize hpc : t.pre.pc i = pc at h hmove hsnap hno
  generalize hpc' : t.post.pc i = pc' at hmove ⊢
  generalize hdb : t.post.db = db' at hmove ⊢
  cases hmove with
  | invalid _ => trivial
  | begin _ => exact ⟨forall_mem_snoc h.1 (hno (by simp)), hwindow.trans h.2⟩
  | exhausted _ => trivial
  | missing _ _ => trivial
  | frozen _ _ _ => trivial
  | insufficient _ _ _ _ => trivial
  | snapshot _ _ _ _ => exact ⟨forall_mem_snoc h.1 (hno (by simp)), hwindow.trans h.2⟩
  | @commit a snap row balance hrow hcommits =>
      obtain rfl : row = snap := hsnap a snap row rfl hrow hcommits.admits.version_eq
      have hcomputed : rd.round (row.availableBalance - (calls i).amount) = some balance := by
        rw [sub_eq_add_neg]
        exact hcommits.newBalance
      have hcommit : OwnCommit rd calls i t row balance :=
        ⟨hown, ⟨a, hpc⟩, hrow, hcomputed, by rw [hdb, MockDatabaseShard.put_store_self]⟩
      refine ⟨row, balance, _, ⟨⟨t, by simp, hcommit⟩, forall_mem_snoc ?_ ?_⟩,
        MockDatabaseShard.put_store_self _ _ _, by rw [hwindow, h.2]; rfl⟩
      · exact fun u hu snap' balance' hu' => absurd hu' (h.1 u hu snap' balance')
      · intro snap' balance' hcommit'
        have hwritten := hcommit'.written
        rw [hcommit.written] at hwritten
        exact (congrArg AccountRecord.availableBalance (Option.some.inj hwritten)).symm
  | overflow _ _ _ => trivial
  | @conflict a snap hnone _ =>
      refine ⟨forall_mem_snoc h.1 fun snap' balance' hcommit => ?_, hwindow.trans h.2⟩
      -- a commit would have changed the store
      have hwritten := hcommit.written
      rw [hdb, hcommit.current] at hwritten
      have hver := congrArg AccountRecord.version (Option.some.inj hwritten)
      simp at hver
  | sleepless _ _ => trivial
  | @report a row hrow =>
      obtain ⟨snap, balance, row', hcommitted, hrow', hbalance⟩ := h
      rw [hrow] at hrow'
      cases hrow'
      exact ⟨snap, balance, hcommitted.snoc (hno (by simp)), by rw [hwindow, hbalance]⟩
  | vanished _ => trivial

/-- A step of anyone else; what it commits between the swap and the
second read goes into the window. -/
theorem ReceiptInv.other (h : ReceiptInv rd calls i tr (t.pre.pc i) t.pre.db)
    (hstep : occStep rd m calls t.pre t.event = some t.post) (hne : t.event ≠ .call i) :
    ReceiptInv rd calls i (tr ++ [t]) (t.post.pc i) t.post.db := by
  have hno : ∀ snap balance, ¬ OwnCommit rd calls i t snap balance :=
    fun snap balance hcommit => hne hcommit.own
  have hwindow : (t.pre.pc i).awaitsReread = false →
      window rd calls i (tr ++ [t]) = window rd calls i tr := window_snoc_of_not_awaits
  rw [pc_of_not_own hstep hne]
  cases hpc : t.pre.pc i with
  | entry =>
      rw [hpc] at h hwindow
      exact ⟨forall_mem_snoc h.1 hno, (hwindow rfl).trans h.2⟩
  | loop a =>
      rw [hpc] at h hwindow
      exact ⟨forall_mem_snoc h.1 hno, (hwindow rfl).trans h.2⟩
  | cas a snap =>
      rw [hpc] at h hwindow
      exact ⟨forall_mem_snoc h.1 hno, (hwindow rfl).trans h.2⟩
  | reread a =>
      rw [hpc] at h
      obtain ⟨snap, balance, row, hcommitted, hrow, hbalance⟩ := h
      obtain ⟨row', hrow', hmoved⟩ := balance_of_step hstep hrow
      have hdelta : windowDelta rd calls i t = commitDelta rd calls (calls i).accountId t := by
        simp [windowDelta, hne, hpc, DebitPc.awaitsReread]
      refine ⟨snap, balance, row', hcommitted.snoc hno, hrow', ?_⟩
      rw [window_snoc, hdelta, Rounding.addAll_append, hbalance, Option.bind_some, hmoved]
  | done result =>
      rw [hpc] at h hwindow
      rcases result with e | ⟨b, a, reported⟩
      · trivial
      · obtain ⟨snap, balance, hcommitted, hbalance⟩ := h
        exact ⟨snap, balance, hcommitted.snoc hno, by rw [hwindow rfl, hbalance]⟩

theorem receiptInv_of_run (hentry : s₀.pc i = .entry) (hrun : Run (occStep rd m calls) s₀ tr s) :
    ReceiptInv rd calls i tr (s.pc i) s.db := by
  refine hrun.invariant (fun tr s => ReceiptInv rd calls i tr (s.pc i) s.db) ?_ ?_
  · rw [hentry]; exact ⟨by simp, rfl⟩
  · intro tr s e s' hreached ih hstep
    by_cases he : e = .call i
    · subst he
      exact ReceiptInv.own (t := ⟨s, .call i, s'⟩) ih rfl
        (fun a snap row hpc hrow hver => row_eq_snapshot hentry hreached hpc hrow hver)
        (occStep_call hstep).1
    · exact ReceiptInv.other (t := ⟨s, e, s'⟩) ih hstep he

/-- A call that returns has committed one balance, and reports what the
window makes of it. -/
theorem reported_of_run (hentry : s₀.pc i = .entry) (hrun : Run (occStep rd m calls) s₀ tr s)
    {b : Bool} {k : ℕ} {reported : ℚ} (hdone : s.pc i = .done (.ok (b, k, reported))) :
    ∃ snap balance, CommittedAgainst rd calls i tr snap balance ∧
      rd.addAll balance (window rd calls i tr) = some reported := by
  have hinv := receiptInv_of_run hentry hrun
  rw [hdone] at hinv
  exact hinv

/-- The report is the call's own balance when the window comes to it. -/
theorem reportsOwn_iff (hentry : s₀.pc i = .entry) (hrun : Run (occStep rd m calls) s₀ tr s) :
    ReportsOwn rd calls i tr s ↔
      ((∃ r, s.pc i = .done (.ok r)) → WindowLeadsBack rd calls i tr) := by
  constructor
  · rintro hown ⟨⟨b, k, reported⟩, hdone⟩ u hu snap' balance' hcommit'
    obtain ⟨snap, balance, ⟨-, hunique⟩, hreported⟩ := reported_of_run hentry hrun hdone
    obtain ⟨t, ht, snap'', hcommit⟩ := hown b k reported hdone
    rw [hunique u hu snap' balance' hcommit', hreported, hunique t ht snap'' reported hcommit]
  · intro hback b k reported hdone
    obtain ⟨snap, balance, ⟨⟨t, ht, hcommit⟩, -⟩, hreported⟩ := reported_of_run hentry hrun hdone
    rw [hback ⟨_, hdone⟩ t ht snap balance hcommit] at hreported
    cases hreported
    exact ⟨t, ht, snap, hcommit⟩

/-- Exact additions lead back when they sum to zero. -/
theorem windowLeadsBack_iff_sum_eq_zero (hexact : WindowExact rd calls i tr)
    (hcommitted : ∃ snap balance, CommittedAgainst rd calls i tr snap balance) :
    WindowLeadsBack rd calls i tr ↔ (window rd calls i tr).sum = 0 := by
  constructor
  · intro hback
    obtain ⟨snap, balance, ⟨t, ht, hcommit⟩, -⟩ := hcommitted
    have hsame := hback t ht snap balance hcommit
    rw [(hexact t ht snap balance hcommit).addAll, Option.some.injEq] at hsame
    linarith
  · intro hzero t ht snap balance hcommit
    rw [(hexact t ht snap balance hcommit).addAll, hzero, add_zero]

/-- **Exactly when the reported balance is the call's own**: when what
others commit between its swap and its second read leads back to that
balance; without rounding, when it sums to zero. -/
theorem reportsOwn_iff_window_leadsBack (hentry : s₀.pc i = .entry)
    (hrun : Run (occStep rd m calls) s₀ tr s) :
    (ReportsOwn rd calls i tr s ↔
      ((∃ r, s.pc i = .done (.ok r)) → WindowLeadsBack rd calls i tr)) ∧
    (WindowExact rd calls i tr →
      (ReportsOwn rd calls i tr s ↔
        ((∃ r, s.pc i = .done (.ok r)) → (window rd calls i tr).sum = 0))) := by
  refine ⟨reportsOwn_iff hentry hrun, fun hexact => (reportsOwn_iff hentry hrun).trans ?_⟩
  refine forall_congr' fun ⟨⟨b, k, reported⟩, hdone⟩ => ?_
  obtain ⟨snap, balance, hcommitted, -⟩ := reported_of_run hentry hrun hdone
  exact windowLeadsBack_iff_sum_eq_zero hexact ⟨snap, balance, hcommitted⟩

/-- The self-test's debit, with a credit of INR 25.00 by another client
between its swap and its second read. -/
def lateCredit : List (OccEvent Bool) :=
  [.call false, .call false, .call false, .client (.credit "acc-1" 25 2), .call false]

/-- The call debits 800 from 1500 and reports 725. -/
theorem not_reports_own_lateCredit :
    let rd := decimalContext.rounding
    let run := exec (occStep rd {} raceCalls) (.start .selfTest) lateCredit
    Run (occStep rd {} raceCalls) (.start .selfTest) run.1 run.2 ∧
    run.2.pc false = .done (.ok (true, 1, 725)) ∧
    ¬ ReportsOwn rd raceCalls false run.1 run.2 := by
  intro rd run
  have hrun : Run (occStep rd {} raceCalls) (.start .selfTest) run.1 run.2 := run_exec _ _ _
  have hdone : run.2.pc false = .done (.ok (true, 1, 725)) := by decide +kernel
  have hwindow : window rd raceCalls false run.1 = [25] := by decide +kernel
  refine ⟨hrun, hdone, fun hown => ?_⟩
  obtain ⟨t, ht, snap, hcommit⟩ := hown _ _ _ hdone
  have hback := (reportsOwn_iff (i := false) rfl hrun).mp hown ⟨_, hdone⟩ t ht snap 725 hcommit
  rw [hwindow] at hback
  exact absurd hback (by decide +kernel)

/-- Nobody else commits in the window of the bare self-test, and the two
conditions agree on it. -/
theorem reportsOwn_iff_window_leadsBack_selfTest :
    let rd := decimalContext.rounding
    let run := exec (occStep rd {} raceCalls) (.start .selfTest)
      [.call false, .call false, .call false, .call false]
    ReportsOwn rd raceCalls false run.1 run.2 ∧ WindowLeadsBack rd raceCalls false run.1 := by
  intro rd run
  have hrun : Run (occStep rd {} raceCalls) (.start .selfTest) run.1 run.2 := run_exec _ _ _
  have hdone : run.2.pc false = .done (.ok (true, 1, 700)) := by decide +kernel
  have hwindow : window rd raceCalls false run.1 = [] := by decide +kernel
  have hexact : WindowExact rd raceCalls false run.1 := by
    rintro t - snap balance - l y r hsplit
    rw [hwindow] at hsplit
    simp at hsplit
  have hown : ReportsOwn rd raceCalls false run.1 run.2 :=
    ((reportsOwn_iff_window_leadsBack rfl hrun).2 hexact).mpr fun _ => by rw [hwindow]; rfl
  exact ⟨hown, (reportsOwn_iff_window_leadsBack rfl hrun).1.mp hown ⟨_, hdone⟩⟩

end Httpe.Occ
