/-
Httpe.Lab.CompareAndSwap — whether the OCC lab compares before it swaps.

`SwapLaw` is what a compare-and-swap would do at a race timer: change the
account only if its version is the transaction's snapshot. The handler
makes the comparison, logs a conflict as a retry, and debits all the
same. So the law holds in a run exactly as long as no transaction finds
another version and enough funds (`staleWithFunds`).

`versionAfter` reads the version a transaction finds off the events of
its wait: a reset sets it back to 1, every commit moves it by one.
-/
import Httpe.Lab.Account
import Mathlib.Data.List.Induction

namespace Httpe.Lab

variable {ρ : Type*}

/-- A race transaction swaps only what it compared. -/
structure SwapLaw (t : LabTransition ρ) : Prop where
  /-- It changes the account only at the version it snapshotted. -/
  changes : ∀ r w, t.event = .timer r → t.pre.race r = .waiting w →
    t.post.account ≠ t.pre.account → t.pre.account.version = w.snapshotVer
  /-- At another version it commits nothing. -/
  conflict : ∀ r w, t.event = .timer r → t.pre.race r = .waiting w →
    t.pre.account.version ≠ w.snapshotVer →
    t.post.account = t.pre.account ∧ (t.post.race r).commits = w.successfulCommits

/-- The timer of a race transaction fires, the version is not its
snapshot, and the balance covers the debit. -/
def staleWithFunds (t : LabTransition ρ) : Bool :=
  match t.event with
  | .timer r =>
      match t.pre.race r with
      | .waiting w =>
          decide (t.pre.account.version ≠ w.snapshotVer) &&
            decide (raceAmount ≤ t.pre.account.balance)
      | .notStarted | .finished _ _ => false
  | .raceDebits _ | .singleDebit | .reset => false

/-- A debit goes through. -/
def commits (t : LabTransition ρ) : Bool :=
  match t.event with
  | .reset => false
  | .raceDebits _ | .timer _ | .singleDebit => decide (t.post.account ≠ t.pre.account)

/-- The version after some steps from `ver`. -/
def versionAfter (ver : ℕ) (mid : List (LabTransition ρ)) : ℕ :=
  mid.foldl (fun ver t =>
    match t.event with
    | .reset => 1
    | .raceDebits _ | .timer _ | .singleDebit => if commits t then ver + 1 else ver) ver

theorem debit_ne (account : LabAccount) (amount : ℤ) : account.debit amount ≠ account := by
  intro h
  have hversion : account.version + 1 = account.version := congrArg LabAccount.version h
  omega

theorem staleWithFunds_iff {t : LabTransition ρ} : staleWithFunds t = true ↔
    ∃ r w, t.event = .timer r ∧ t.pre.race r = .waiting w ∧
      t.pre.account.version ≠ w.snapshotVer ∧ raceAmount ≤ t.pre.account.balance := by
  unfold staleWithFunds
  constructor
  · intro h
    split at h
    · rename_i r hevent
      split at h
      · rename_i w hrace
        obtain ⟨hversion, hfunds⟩ := Bool.and_eq_true_iff.mp h
        exact ⟨r, w, hevent, hrace, of_decide_eq_true hversion, of_decide_eq_true hfunds⟩
      · cases h
      · cases h
    · cases h
    · cases h
    · cases h
  · intro h
    obtain ⟨r, w, hevent, hrace, hversion, hfunds⟩ := h
    simp [hevent, hrace, hversion, hfunds]

variable [DecidableEq ρ] {s s' : LabState ρ} {e : LabEvent ρ} {tr mid : List (LabTransition ρ)}

/-! ## One step -/

/-- A transaction that finds enough funds commits, whatever the version. -/
theorem commits_of_funds {r : ρ} (h : LabMove s (.timer r) s')
    (hfunds : raceAmount ≤ s.account.balance) :
    s'.account = s.account.debit raceAmount := by
  cases h with
  | committed _ _ _ _ => rfl
  | rejected _ hpoor _ _ => exact absurd hfunds (not_le.mpr hpoor)

theorem rejected_of_no_funds {r : ρ} {w : RaceWait} (h : LabMove s (.timer r) s')
    (hrace : s.race r = .waiting w) (hfunds : s.account.balance < raceAmount) :
    s'.account = s.account ∧ (s'.race r).commits = w.successfulCommits := by
  cases h with
  | committed _ hrich _ _ => exact absurd hrich (not_le.mpr hfunds)
  | rejected hrace' _ hcommits _ =>
      rw [hrace] at hrace'
      cases hrace'
      exact ⟨rfl, (congrArg RaceRun.commits (Function.update_self ..)).trans hcommits⟩

theorem swapLaw_iff {t : LabTransition ρ} (hstep : labStep t.pre t.event = some t.post) :
    SwapLaw t ↔ staleWithFunds t = false := by
  constructor
  · intro hlaw
    by_contra hstale
    obtain ⟨r, w, hevent, hrace, hversion, hfunds⟩ :=
      staleWithFunds_iff.mp (Bool.not_eq_false _ ▸ hstale)
    have hmove := labMove_of_step hstep
    rw [hevent] at hmove
    have hpost := commits_of_funds hmove hfunds
    refine hversion (hlaw.changes r w hevent hrace ?_)
    rw [hpost]
    exact debit_ne _ _
  · intro hfresh
    have hpoor : ∀ r w, t.event = .timer r → t.pre.race r = .waiting w →
        t.pre.account.version ≠ w.snapshotVer → t.pre.account.balance < raceAmount := by
      intro r w hevent hrace hversion
      by_contra hfunds
      have hstale := staleWithFunds_iff.mpr ⟨r, w, hevent, hrace, hversion, not_lt.mp hfunds⟩
      rw [hfresh] at hstale
      cases hstale
    have hconflict : ∀ r w, t.event = .timer r → t.pre.race r = .waiting w →
        t.pre.account.version ≠ w.snapshotVer →
        t.post.account = t.pre.account ∧ (t.post.race r).commits = w.successfulCommits := by
      intro r w hevent hrace hversion
      have hmove := labMove_of_step hstep
      rw [hevent] at hmove
      exact rejected_of_no_funds hmove hrace (hpoor r w hevent hrace hversion)
    refine ⟨fun r w hevent hrace hchanged => ?_, hconflict⟩
    by_contra hversion
    exact hchanged (hconflict r w hevent hrace hversion).1

/-! ## The version during a wait -/

omit [DecidableEq ρ] in
theorem versionAfter_snoc {ver : ℕ} {t : LabTransition ρ} :
    versionAfter ver (mid ++ [t]) = versionAfter (versionAfter ver mid) [t] := by
  rw [versionAfter, List.foldl_append]
  rfl

omit [DecidableEq ρ] in
theorem versionAfter_of_no_reset {ver : ℕ} (h : ∀ v ∈ mid, v.event ≠ .reset) :
    versionAfter ver mid = ver + mid.countP commits := by
  induction mid using List.reverseRecOn with
  | nil => rfl
  | append_singleton mid t ih =>
      have ht : t.event ≠ .reset := h t (by simp)
      rw [versionAfter_snoc, ih fun v hv => h v (List.mem_append_left _ hv), List.countP_append,
        List.countP_singleton, ← Nat.add_assoc]
      simp only [versionAfter, List.foldl_cons, List.foldl_nil]
      cases hevent : t.event with
      | reset => exact absurd hevent ht
      | raceDebits r => simp only; split <;> rfl
      | timer r => simp only; split <;> rfl
      | singleDebit => simp only; split <;> rfl

theorem version_of_step (hstep : labStep s e = some s') :
    s'.account.version = versionAfter s.account.version [⟨s, e, s'⟩] := by
  simp only [versionAfter, List.foldl_cons, List.foldl_nil, commits]
  cases labMove_of_step hstep with
  | launched => simp
  | committed =>
      simp only [ne_eq, debit_ne, not_false_eq_true, decide_true, if_true]
      rfl
  | rejected => simp
  | debited =>
      simp only [ne_eq, debit_ne, not_false_eq_true, decide_true, if_true]
      rfl
  | refused => simp
  | reset => rfl

/-- A run that awaits after one of its own steps has just taken its
snapshot. -/
theorem snapshot_of_own {k : ρ} {w : RaceWait} (hstep : labStep s e = some s')
    (hown : e.run = some k) (hrace : s'.race k = .waiting w) :
    w.snapshotVer = s'.account.version := by
  cases labMove_of_step hstep with
  | launched =>
      cases hown
      have hw := (Function.update_self ..).symm.trans hrace
      cases hw
      rfl
  | committed _ _ _ hsnapshot =>
      cases hown
      exact hsnapshot w ((Function.update_self ..).symm.trans hrace)
  | rejected _ _ _ hsnapshot =>
      cases hown
      exact hsnapshot w ((Function.update_self ..).symm.trans hrace)
  | debited => cases hown
  | refused => cases hown
  | reset => cases hown

theorem race_of_other {k : ρ} (hstep : labStep s e = some s') (hother : e.run ≠ some k) :
    s'.race k = s.race k := by
  cases labMove_of_step hstep with
  | launched => exact Function.update_of_ne (fun h => hother (congrArg some h.symm)) _ _
  | committed => exact Function.update_of_ne (fun h => hother (congrArg some h.symm)) _ _
  | rejected => exact Function.update_of_ne (fun h => hother (congrArg some h.symm)) _ _
  | debited => rfl
  | refused => rfl
  | reset => rfl

/-- The history ends with the wait of run `k`: after its own last step
`u`, which took the snapshot, the steps `mid` of others. -/
structure WaitOf (k : ρ) (snapshotVer version : ℕ) (tr : List (LabTransition ρ))
    (u : LabTransition ρ) (mid : List (LabTransition ρ)) : Prop where
  ends : ∃ l, tr = l ++ u :: mid
  own : u.event.run = some k
  others : ∀ v ∈ mid, v.event.run ≠ some k
  version : version = versionAfter snapshotVer mid

theorem waitOf_of_run (hrun : Run labStep .start tr s) {k : ρ} {w : RaceWait}
    (hrace : s.race k = .waiting w) :
    ∃ u mid, WaitOf k w.snapshotVer s.account.version tr u mid := by
  have hinv : ∀ k w, s.race k = .waiting w →
      ∃ u mid, WaitOf k w.snapshotVer s.account.version tr u mid := by
    refine hrun.invariant (fun tr s => ∀ k w, s.race k = .waiting w →
      ∃ u mid, WaitOf k w.snapshotVer s.account.version tr u mid) (fun k w h => by cases h) ?_
    intro tr s e s' _ ih hstep k w hrace
    by_cases hown : e.run = some k
    · exact ⟨⟨s, e, s'⟩, [], ⟨tr, rfl⟩, hown, nofun, (snapshot_of_own hstep hown hrace).symm⟩
    · rw [race_of_other hstep hown] at hrace
      obtain ⟨u, mid, ⟨l, rfl⟩, hu, hothers, hversion⟩ := ih k w hrace
      refine ⟨u, mid ++ [⟨s, e, s'⟩], ⟨l, by simp⟩, hu, forall_mem_snoc hothers hown, ?_⟩
      rw [version_of_step hstep, hversion, versionAfter_snoc]
  exact hinv k w hrace

omit [DecidableEq ρ] in
/-- In a wait without a reset the version has moved if someone committed. -/
theorem WaitOf.moved_iff {k : ρ} {ver version : ℕ} {u : LabTransition ρ}
    (h : WaitOf k ver version tr u mid) (hreset : ∀ v ∈ mid, v.event ≠ .reset) :
    version ≠ ver ↔ ∃ v ∈ mid, commits v = true := by
  rw [h.version, versionAfter_of_no_reset hreset, ← List.countP_pos_iff]
  omega

/-- **The lab's compare-and-swap.** In a run every race transaction swaps
only what it compared exactly if no timer fires with another version than
the transaction's snapshot and enough funds. The version it finds follows
from what happened since its run's last step `u`, when it took the
snapshot; without a reset, it is another one if anybody committed. -/
theorem swapLaw_iff_fresh (hrun : Run labStep .start tr s) :
    ((∀ t ∈ tr, SwapLaw t) ↔ ∀ t ∈ tr, staleWithFunds t = false) ∧
    ∀ l t r, tr = l ++ t :: r → ∀ k w, t.event = .timer k → t.pre.race k = .waiting w →
      ∃ u mid, WaitOf k w.snapshotVer t.pre.account.version l u mid ∧
        ((∀ v ∈ mid, v.event ≠ .reset) →
          (t.pre.account.version ≠ w.snapshotVer ↔ ∃ v ∈ mid, commits v = true)) := by
  constructor
  · constructor
    · exact fun hlaw t ht => (swapLaw_iff (hrun.step_of_mem t ht)).mp (hlaw t ht)
    · exact fun hfresh t ht => (swapLaw_iff (hrun.step_of_mem t ht)).mpr (hfresh t ht)
  · intro l t r htr k w _ hrace
    subst htr
    obtain ⟨u, mid, hwait⟩ := waitOf_of_run hrun.split.1 hrace
    exact ⟨u, mid, hwait, hwait.moved_iff⟩

/-- A reset during the wait brings the snapshot's version back, and a
debit after it finds the account too poor for the third transaction. -/
theorem swapLaw_iff_fresh_reset :
    let run := exec (labStep (ρ := Unit)) .start
      [.raceDebits (), .singleDebit, .reset, .timer (), .timer (), .singleDebit, .timer ()]
    run.2.account = ⟨200, 4⟩ ∧ ∀ t ∈ run.1, SwapLaw t := by
  intro run
  have hrun : Run labStep .start run.1 run.2 := run_exec _ _ _
  exact ⟨by decide +kernel, (swapLaw_iff_fresh hrun).1.mpr (by decide +kernel)⟩

/-- A single debit during the wait of the first transaction: it finds
version 2 for its snapshot 1, logs a retry and debits at once. -/
theorem not_swapLaw_singleDebit :
    let run := exec (labStep (ρ := Unit)) .start [.raceDebits (), .singleDebit, .timer ()]
    Run labStep .start run.1 run.2 ∧ ¬ ∀ t ∈ run.1, SwapLaw t := by
  intro run
  refine ⟨run_exec _ _ _, fun hlaw => ?_⟩
  have hlast : run.1.get ⟨2, by decide +kernel⟩ ∈ run.1 := List.get_mem _ _
  have hversion := (hlaw _ hlast).changes () ⟨1, [2, 3, 4, 5], 1, 0, 0⟩ (by decide +kernel)
    (by decide +kernel) (by decide +kernel)
  exact absurd hversion (by decide +kernel)

end Httpe.Lab
