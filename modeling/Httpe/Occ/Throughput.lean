/-
Httpe.Occ.Throughput — what contention costs.

`Httpe.Occ.Retries` finds a payment for every retry of one call. Here the
payments are counted, over all calls of a system. A call of its own takes
four steps; every further one of its swaps fails because somebody else
committed on its account meanwhile (`Contended`). A commit can fail a swap
of each other call on the account once, so the swaps that fail are at most
so many times the commits, and a call whose retry budget exceeds the
commits that can come between never runs out of it.
-/
import Httpe.Occ.Commits
import Httpe.Occ.Serial
import Mathlib.Algebra.BigOperators.Ring.Finset
import Mathlib.Algebra.Order.BigOperators.Group.Finset

namespace Httpe.Occ

open Decimal

variable {ι : Type*} [DecidableEq ι]

/-- Call `i`'s compare-and-swap returns `False`: it goes back to the
`while`, unless its backoff raises. -/
def failedSwap (i : ι) (t : OccTransition ι) : Bool :=
  decide (t.event = .call i) &&
    match t.pre.pc i, t.post.pc i with
    | .cas _ _, .loop _ | .cas _ _, .done (.error (.sleep _)) => true
    | _, _ => false

omit [DecidableEq ι] in
/-- A compare-and-swap on account `a` returns `True`. -/
def commitOn (rd : Rounding) (calls : ι → DebitCall) (a : String) (t : OccTransition ι) : Bool :=
  match commitOf rd calls t with
  | some c => decide (c.accountId = a)
  | none => false

omit [DecidableEq ι] in
def byClient (t : OccTransition ι) : Bool :=
  match t.event with
  | .client _ => true
  | .call _ => false

/-- The steps call `i` has made. -/
def ownSteps (i : ι) (tr : List (OccTransition ι)) : ℕ := tr.countP fun t => t.event = .call i

def failedSwaps (i : ι) (tr : List (OccTransition ι)) : ℕ := tr.countP (failedSwap i)

/-- The commits on call `i`'s account by anyone but call `i`. -/
def foreignCommits (rd : Rounding) (calls : ι → DebitCall) (i : ι)
    (tr : List (OccTransition ι)) : ℕ :=
  tr.countP fun t => decide (t.event ≠ .call i) && commitOn rd calls (calls i).accountId t

omit [DecidableEq ι] in
/-- The commits of `debit_with_occ` calls on an account. -/
def callCommits (rd : Rounding) (calls : ι → DebitCall) (a : String)
    (tr : List (OccTransition ι)) : ℕ :=
  tr.countP fun t => !byClient t && commitOn rd calls a t

omit [DecidableEq ι] in
/-- The commits of other clients on an account. -/
def clientCommits (rd : Rounding) (calls : ι → DebitCall) (a : String)
    (tr : List (OccTransition ι)) : ℕ :=
  tr.countP fun t => byClient t && commitOn rd calls a t

/-- The calls on an account. -/
def callsOn [Fintype ι] (calls : ι → DebitCall) (a : String) : Finset ι :=
  Finset.univ.filter fun i => (calls i).accountId = a

/-- What a run has cost call `i`, at each program point. -/
def Contended (rd : Rounding) (m : OCCBalanceManager) (calls : ι → DebitCall) (i : ι)
    (tr : List (OccTransition ι)) : DebitPc → MockDatabaseShard → Prop
  | .entry, _ => ownSteps i tr = 0 ∧ failedSwaps i tr = 0
  | .loop a, _ => failedSwaps i tr = a ∧ ownSteps i tr = 2 * a + 1 ∧
      failedSwaps i tr ≤ foreignCommits rd calls i tr
  | .cas a snap, db => failedSwaps i tr + 1 = a ∧ ownSteps i tr = 2 * a ∧
      failedSwaps i tr ≤ foreignCommits rd calls i tr ∧
      Snapshotted (calls i) snap db (failedSwaps i tr < foreignCommits rd calls i tr)
  | .reread _, _ => ownSteps i tr ≤ 2 * failedSwaps i tr + 3 ∧
      failedSwaps i tr ≤ foreignCommits rd calls i tr
  | .done result, _ => ownSteps i tr ≤ 2 * failedSwaps i tr + 4 ∧
      failedSwaps i tr ≤ foreignCommits rd calls i tr ∧
      ∀ txnId n, result = .error (.versionConflict txnId n) →
        m.maxRetries ≤ failedSwaps i tr

variable {rd : Rounding} {m : OCCBalanceManager} {calls : ι → DebitCall} {i j : ι} {a : String}
  {tr : List (OccTransition ι)} {t : OccTransition ι} {s : OccSystem ι}
  {db₀ : MockDatabaseShard}

/-! ## One transition at the end of the history -/

theorem ownSteps_snoc :
    ownSteps i (tr ++ [t]) = ownSteps i tr + if t.event = .call i then 1 else 0 := by
  simp [ownSteps, List.countP_append, List.countP_singleton]

theorem failedSwaps_snoc :
    failedSwaps i (tr ++ [t]) = failedSwaps i tr + if failedSwap i t then 1 else 0 := by
  simp [failedSwaps, List.countP_append, List.countP_singleton]

theorem foreignCommits_snoc : foreignCommits rd calls i (tr ++ [t]) = foreignCommits rd calls i tr
    + if t.event ≠ .call i ∧ commitOn rd calls (calls i).accountId t then 1 else 0 := by
  simp [foreignCommits, List.countP_append, List.countP_singleton]

theorem foreignCommits_mono :
    foreignCommits rd calls i tr ≤ foreignCommits rd calls i (tr ++ [t]) := by
  rw [foreignCommits_snoc]
  exact Nat.le_add_right _ _

/-! ## What a call pays -/

/-- A step of the call itself. -/
theorem Contended.own (h : Contended rd m calls i tr (t.pre.pc i) t.pre.db)
    (hown : t.event = .call i)
    (hmove : DebitMove rd m (calls i) t.pre.db (t.pre.pc i) (t.post.pc i) t.post.db) :
    Contended rd m calls i (tr ++ [t]) (t.post.pc i) t.post.db := by
  have hsteps : ownSteps i (tr ++ [t]) = ownSteps i tr + 1 := by simp [ownSteps_snoc, hown]
  have hforeign : foreignCommits rd calls i (tr ++ [t]) = foreignCommits rd calls i tr := by
    simp [foreignCommits_snoc, hown]
  have hfailed : failedSwaps i (tr ++ [t]) = _ := failedSwaps_snoc
  unfold failedSwap at hfailed
  rw [hown] at hfailed
  generalize t.pre.pc i = pc at h hmove hfailed
  generalize t.post.pc i = pc' at hmove hfailed ⊢
  generalize t.post.db = db' at hmove ⊢
  simp only [decide_true, Bool.true_and] at hfailed
  unfold Contended at h ⊢
  rw [hsteps, hforeign, hfailed]
  cases hmove with
  | invalid _ =>
      obtain ⟨hsteps, hfailed⟩ := h
      refine ⟨?_, ?_, nofun⟩ <;> simp [hsteps, hfailed]
  | begin _ =>
      obtain ⟨hsteps, hfailed⟩ := h
      simp [hsteps, hfailed]
  | exhausted ha =>
      obtain ⟨rfl, hsteps, hpaid⟩ := h
      refine ⟨?_, by simpa using hpaid, fun _ _ _ => by simpa using ha⟩
      simp [hsteps]
  | missing | frozen | insufficient =>
      obtain ⟨rfl, hsteps, hpaid⟩ := h
      refine ⟨?_, by simpa using hpaid, nofun⟩
      simp [hsteps]
  | snapshot _ hrow hst hle =>
      obtain ⟨rfl, hsteps, hpaid⟩ := h
      refine ⟨by simp, ?_, by simpa using hpaid, hst, hle, .inl hrow⟩
      rw [hsteps]
      ring
  | commit _ _ =>
      obtain ⟨rfl, hsteps, hpaid, -⟩ := h
      refine ⟨?_, by simpa using hpaid⟩
      simp [hsteps]
      omega
  | overflow _ _ _ =>
      obtain ⟨rfl, hsteps, hpaid, -⟩ := h
      refine ⟨?_, by simpa using hpaid, nofun⟩
      simp [hsteps]
      omega
  | conflict hno _ =>
      obtain ⟨rfl, hsteps, -, hsnap⟩ := h
      have hpaid := hsnap.paid_of_conflict hno
      exact ⟨by simp, by simp [hsteps], by simpa using Nat.succ_le_of_lt hpaid⟩
  | sleepless hno _ =>
      obtain ⟨rfl, hsteps, -, hsnap⟩ := h
      have hpaid := hsnap.paid_of_conflict hno
      refine ⟨?_, by simpa using Nat.succ_le_of_lt hpaid, nofun⟩
      simp [hsteps]
  | report | vanished =>
      obtain ⟨hsteps, hpaid⟩ := h
      exact ⟨by simpa using hsteps, by simpa using hpaid, nofun⟩

/-- A step of anyone else; a commit on the account is one more. -/
theorem Contended.other (h : Contended rd m calls i tr (t.pre.pc i) t.pre.db)
    (hstep : occStep rd m calls t.pre t.event = some t.post) (hne : t.event ≠ .call i) :
    Contended rd m calls i (tr ++ [t]) (t.post.pc i) t.post.db := by
  have hsteps : ownSteps i (tr ++ [t]) = ownSteps i tr := by simp [ownSteps_snoc, hne]
  have hfailed : failedSwaps i (tr ++ [t]) = failedSwaps i tr := by
    simp [failedSwaps_snoc, failedSwap, hne]
  have hmono : foreignCommits rd calls i tr ≤ foreignCommits rd calls i (tr ++ [t]) :=
    foreignCommits_mono
  rw [pc_of_not_own hstep hne]
  cases hpc : t.pre.pc i with
  | entry =>
      rw [hpc] at h
      exact ⟨hsteps.trans h.1, hfailed.trans h.2⟩
  | loop a =>
      rw [hpc] at h
      obtain ⟨hcount, hown, hpaid⟩ := h
      exact ⟨hfailed.trans hcount, hsteps.trans hown, hfailed ▸ hpaid.trans hmono⟩
  | cas a snap =>
      rw [hpc] at h
      obtain ⟨hcount, hown, hpaid, hsnap⟩ := h
      unfold Contended
      rw [hfailed, hsteps]
      refine ⟨hcount, hown, hpaid.trans hmono, ?_⟩
      refine hsnap.other hstep hne (fun hlt => hlt.trans_le hmono) fun hforeign => ?_
      obtain ⟨-, c, hc, hac⟩ := hforeign
      have hcommit : commitOn rd calls (calls i).accountId t = true := by
        simp [commitOn, hc, hac]
      rw [foreignCommits_snoc, if_pos ⟨hne, hcommit⟩]
      exact Nat.lt_succ_of_le hpaid
  | reread a =>
      rw [hpc] at h
      unfold Contended
      rw [hfailed, hsteps]
      exact ⟨h.1, h.2.trans hmono⟩
  | done result =>
      rw [hpc] at h
      unfold Contended
      rw [hfailed, hsteps]
      exact ⟨h.1, h.2.1.trans hmono, h.2.2⟩

theorem contended_of_run (i : ι) (hrun : Run (occStep rd m calls) (.start db₀) tr s) :
    Contended rd m calls i tr (s.pc i) s.db := by
  refine hrun.invariant (fun tr s => Contended rd m calls i tr (s.pc i) s.db) ?_ ?_
  · exact ⟨rfl, rfl⟩
  · intro tr s e s' _ ih hstep
    by_cases he : e = .call i
    · subst he
      exact Contended.own (t := ⟨s, .call i, s'⟩) ih rfl (occStep_call hstep).1
    · exact Contended.other (t := ⟨s, e, s'⟩) ih hstep he

theorem Contended.bounds {pc : DebitPc} {db : MockDatabaseShard}
    (h : Contended rd m calls i tr pc db) :
    failedSwaps i tr ≤ foreignCommits rd calls i tr ∧ ownSteps i tr ≤ 2 * failedSwaps i tr + 4 := by
  cases pc with
  | entry =>
      obtain ⟨hsteps, hfailed⟩ := h
      omega
  | loop a =>
      obtain ⟨hcount, hsteps, hpaid⟩ := h
      omega
  | cas a snap =>
      obtain ⟨hcount, hsteps, hpaid, -⟩ := h
      omega
  | reread a =>
      obtain ⟨hsteps, hpaid⟩ := h
      omega
  | done result => exact ⟨h.2.1, h.1⟩

/-! ## What the commits pay for -/

omit [DecidableEq ι] in
/-- A call commits with the swap it stands before, on its own account. -/
theorem swap_of_commitOn (h : commitOn rd calls a t = true) (hcall : t.event = .call j) :
    ∃ k snap, t.pre.pc j = .cas k snap ∧ (calls j).accountId = a ∧
      (((calls j).cas snap).execute rd t.pre.db).1 = .ok true := by
  simp only [commitOn, commitOf, swapOf, hcall] at h
  cases hpc : t.pre.pc j with
  | cas k snap =>
      simp only [hpc] at h
      split at h
      · rename_i c hc
        obtain ⟨hswap, hok⟩ := Option.filter_eq_some_iff.mp hc
        cases hswap
        exact ⟨k, snap, rfl, of_decide_eq_true h, of_decide_eq_true hok⟩
      · cases h
  | _ => simp [hpc] at h

variable (rd) in
/-- A commit disturbs the other calls on the account, each of them once. -/
theorem card_disturbed_le {A : Finset ι} (hA : ∀ i ∈ A, (calls i).accountId = a)
    (hown : ∀ j, (calls j).accountId = a → j ∈ A) (t : OccTransition ι) :
    (A.filter fun i => t.event ≠ .call i ∧ commitOn rd calls (calls i).accountId t).card
      ≤ (A.card - 1) * (if !byClient t && commitOn rd calls a t then 1 else 0)
        + A.card * (if byClient t && commitOn rd calls a t then 1 else 0) := by
  cases hcommit : commitOn rd calls a t with
  | false =>
      have hnone : A.filter (fun i => t.event ≠ .call i ∧ commitOn rd calls (calls i).accountId t)
          = ∅ := by
        refine Finset.filter_eq_empty_iff.mpr fun i hi h => ?_
        rw [hA i hi, hcommit] at h
        exact absurd h.2 (by simp)
      rw [hnone]
      simp
  | true =>
      cases hevent : t.event with
      | client c =>
          simp only [byClient, hevent]
          simpa using Finset.card_filter_le A _
      | call j =>
          obtain ⟨-, -, -, haccount, -⟩ := swap_of_commitOn hcommit hevent
          have hj : j ∈ A := hown j haccount
          have hsub : A.filter (fun i => OccEvent.call j ≠ .call i ∧
              commitOn rd calls (calls i).accountId t) ⊆ A.erase j := by
            intro i hi
            obtain ⟨hmem, hne, -⟩ := Finset.mem_filter.mp hi
            exact Finset.mem_erase.mpr ⟨fun hij => hne (by rw [hij]), hmem⟩
          have hle := Finset.card_le_card hsub
          rw [Finset.card_erase_of_mem hj] at hle
          simpa [byClient, hevent] using hle

/-- The swaps that fail on an account, against the commits on it. -/
theorem sum_foreignCommits_le {A : Finset ι} (hA : ∀ i ∈ A, (calls i).accountId = a)
    (hown : ∀ j, (calls j).accountId = a → j ∈ A) (tr : List (OccTransition ι)) :
    ∑ i ∈ A, foreignCommits rd calls i tr
      ≤ (A.card - 1) * callCommits rd calls a tr + A.card * clientCommits rd calls a tr := by
  induction tr with
  | nil => simp [foreignCommits]
  | cons t tr ih =>
      have hdisturbed := card_disturbed_le rd hA hown t
      have hone : ∑ i ∈ A, foreignCommits rd calls i (t :: tr)
          = ∑ i ∈ A, foreignCommits rd calls i tr
            + (A.filter fun i =>
                t.event ≠ .call i ∧ commitOn rd calls (calls i).accountId t).card := by
        simp only [foreignCommits, List.countP_cons, Finset.sum_add_distrib, Finset.card_filter,
          Bool.and_eq_true, decide_eq_true_eq]
      rw [hone]
      simp only [callCommits, clientCommits, List.countP_cons, Nat.mul_add] at ih ⊢
      omega

/-- The commits of one call. -/
def ownCommits (rd : Rounding) (calls : ι → DebitCall) (j : ι) (tr : List (OccTransition ι)) : ℕ :=
  tr.countP fun t => decide (t.event = .call j) && commitOn rd calls (calls j).accountId t

theorem ownCommits_snoc : ownCommits rd calls j (tr ++ [t]) = ownCommits rd calls j tr
    + if t.event = .call j ∧ commitOn rd calls (calls j).accountId t then 1 else 0 := by
  simp [ownCommits, List.countP_append, List.countP_singleton]

omit [DecidableEq ι] in
/-- A call that commits was undecided before and is not after. -/
theorem outcome_of_commitOn (hmove : DebitMove rd m (calls j) t.pre.db (t.pre.pc j) (t.post.pc j)
      t.post.db) (hcall : t.event = .call j) (hcommit : commitOn rd calls a t = true) :
    (t.pre.pc j).outcome = none ∧ (t.post.pc j).outcome ≠ none := by
  obtain ⟨k, snap, hpc, -, hok⟩ := swap_of_commitOn hcommit hcall
  rw [hpc] at hmove ⊢
  generalize t.post.pc j = pc' at hmove ⊢
  generalize t.post.db = db' at hmove
  cases hmove with
  | commit hrow hcommits => exact ⟨rfl, nofun⟩
  | overflow hrow hadm hnone =>
      rw [CasCall.execute_of_overflow (c := (calls j).cas snap) hrow hadm hnone] at hok
      cases hok
  | conflict hno _ | sleepless hno _ =>
      rw [CasCall.execute_of_not_admits (c := (calls j).cas snap) hno] at hok
      cases hok

/-- Nothing undoes what was decided. -/
theorem DebitMove.outcome_ne_none {call : DebitCall} {db db' : MockDatabaseShard}
    {pc pc' : DebitPc} (h : DebitMove rd m call db pc pc' db') (hpc : pc.outcome ≠ none) :
    pc'.outcome ≠ none := by
  cases h with
  | report | vanished => nofun
  | _ => exact absurd rfl hpc

/-- A call commits once at most. -/
theorem ownCommits_le_of_run (hrun : Run (occStep rd m calls) (.start db₀) tr s) :
    ownCommits rd calls j tr ≤ if (s.pc j).outcome = none then 0 else 1 := by
  refine hrun.invariant
    (fun tr s => ownCommits rd calls j tr ≤ if (s.pc j).outcome = none then 0 else 1) ?_ ?_
  · exact Nat.zero_le _
  · intro tr s e s' _ ih hstep
    rw [ownCommits_snoc]
    by_cases he : e = .call j
    · subst he
      have hmove := (occStep_call hstep).1
      by_cases hcommit : commitOn rd calls (calls j).accountId ⟨s, .call j, s'⟩ = true
      · obtain ⟨hpre, hpost⟩ := outcome_of_commitOn (t := ⟨s, .call j, s'⟩) hmove rfl hcommit
        rw [if_pos hpre] at ih
        rw [if_pos ⟨rfl, hcommit⟩, if_neg hpost]
        omega
      · rw [if_neg (fun h => hcommit h.2), Nat.add_zero]
        by_cases hpre : (s.pc j).outcome = none
        · rw [if_pos hpre] at ih
          exact ih.trans (Nat.zero_le _)
        · rw [if_neg (hmove.outcome_ne_none hpre)]
          rwa [if_neg hpre] at ih
    · rw [if_neg (fun h => he h.1), Nat.add_zero, pc_of_not_own hstep he]
      exact ih

variable (rd) in
/-- The commits that can disturb a call: one of each other call on the
account, and the other clients'. -/
theorem foreignCommits_le {A : Finset ι}
    (hown : ∀ j, j ≠ i → (calls j).accountId = (calls i).accountId → j ∈ A)
    (tr : List (OccTransition ι)) :
    foreignCommits rd calls i tr
      ≤ ∑ j ∈ A, ownCommits rd calls j tr + clientCommits rd calls (calls i).accountId tr := by
  induction tr with
  | nil => simp [foreignCommits]
  | cons t tr ih =>
      have hone : (if t.event ≠ .call i ∧ commitOn rd calls (calls i).accountId t then 1 else 0)
          ≤ ∑ j ∈ A, (if t.event = .call j ∧ commitOn rd calls (calls j).accountId t then 1 else 0)
            + if byClient t && commitOn rd calls (calls i).accountId t then 1 else 0 := by
        by_cases hforeign : t.event ≠ .call i ∧ commitOn rd calls (calls i).accountId t
        · rw [if_pos hforeign]
          cases hevent : t.event with
          | client c => simp [byClient, hevent, hforeign.2]
          | call j =>
              obtain ⟨-, -, -, haccount, -⟩ := swap_of_commitOn hforeign.2 hevent
              have hj : j ∈ A := hown j (fun hji => hforeign.1 (by rw [hevent, hji])) haccount
              have hcounted : OccEvent.call j = .call j ∧ commitOn rd calls (calls j).accountId t :=
                ⟨rfl, haccount ▸ hforeign.2⟩
              have hle := Finset.single_le_sum (f := fun k => if OccEvent.call j = .call k ∧
                commitOn rd calls (calls k).accountId t then 1 else 0) (fun _ _ => Nat.zero_le _) hj
              rw [if_pos hcounted] at hle
              exact hle.trans (Nat.le_add_right _ _)
        · rw [if_neg hforeign]
          exact Nat.zero_le _
      simp only [foreignCommits, ownCommits, clientCommits, List.countP_cons,
        Finset.sum_add_distrib, Bool.and_eq_true, decide_eq_true_eq] at ih hone ⊢
      omega

omit [DecidableEq ι] in
@[simp] theorem mem_callsOn [Fintype ι] : j ∈ callsOn calls a ↔ (calls j).accountId = a := by
  simp [callsOn]

/-- **The cost of contention.** In every interleaving of `debit_with_occ`
calls with each other and with other clients' updates, and for every
retry budget:

* a call's swaps fail at most once for each commit of others on its
  account, and it takes at most four steps and two more for each of them;
* on an account with `n` calls, all their swaps that fail are at most
  `n - 1` for each commit of a call and `n` for each of another client;
* a call whose budget reaches the number of calls on its account and of
  the other clients' commits there is not aborted. -/
theorem contention_bounded [Fintype ι] (hrun : Run (occStep rd m calls) (.start db₀) tr s) :
    (∀ i, failedSwaps i tr ≤ foreignCommits rd calls i tr ∧
      ownSteps i tr ≤ 4 + 2 * foreignCommits rd calls i tr) ∧
    (∀ a, ∑ i ∈ callsOn calls a, failedSwaps i tr
      ≤ ((callsOn calls a).card - 1) * callCommits rd calls a tr
        + (callsOn calls a).card * clientCommits rd calls a tr) ∧
    ∀ i, ((callsOn calls (calls i).accountId).card
        + clientCommits rd calls (calls i).accountId tr : ℤ) ≤ m.maxRetries →
      ∀ txnId n, s.pc i ≠ .done (.error (.versionConflict txnId n)) := by
  refine ⟨fun i => ?_, fun a => ?_, fun i hbudget txnId n hdone => ?_⟩
  · obtain ⟨hfailed, hsteps⟩ := (contended_of_run i hrun).bounds
    exact ⟨hfailed, by omega⟩
  · have hpaid : ∀ i, failedSwaps i tr ≤ foreignCommits rd calls i tr := fun i =>
      (contended_of_run i hrun).bounds.1
    exact (Finset.sum_le_sum fun i _ => hpaid i).trans
      (sum_foreignCommits_le (fun _ => mem_callsOn.mp) (fun _ => mem_callsOn.mpr) tr)
  · have hinv := contended_of_run i hrun
    rw [hdone] at hinv
    obtain ⟨-, hpaid, hexhausted⟩ := hinv
    have hfailed : m.maxRetries ≤ failedSwaps i tr := hexhausted txnId n rfl
    have hforeign := foreignCommits_le rd
      (A := (callsOn calls (calls i).accountId).erase i)
      (fun j hj hacc => Finset.mem_erase.mpr ⟨hj, mem_callsOn.mpr hacc⟩) tr
    -- each of the others commits once at most
    have honce : ∀ j, ownCommits rd calls j tr ≤ 1 := fun j =>
      (ownCommits_le_of_run hrun).trans (by split <;> omega)
    have hsum := Finset.sum_le_sum
      (s := (callsOn calls (calls i).accountId).erase i) fun j _ => honce j
    have hmem : i ∈ callsOn calls (calls i).accountId := mem_callsOn.mpr rfl
    have hpos : 0 < (callsOn calls (calls i).accountId).card := Finset.card_pos.mpr ⟨i, hmem⟩
    rw [← Finset.card_eq_sum_ones, Finset.card_erase_of_mem hmem] at hsum
    omega

/-- A client's credit fails both calls' swaps, and the commit of one of
them fails the other's once more: the bound is met. -/
theorem contention_bounded_tight :
    let rd := decimalContext.rounding
    let run := exec (occStep rd {} raceCalls) (.start .selfTest)
      [.call false, .call true, .call false, .call true, .client (.credit "acc-1" 500 1),
        .call false, .call true, .call false, .call true, .call false, .call true]
    ∑ i ∈ callsOn raceCalls "acc-1", failedSwaps i run.1
        ≤ (2 - 1) * callCommits rd raceCalls "acc-1" run.1
          + 2 * clientCommits rd raceCalls "acc-1" run.1 ∧
      ∑ i ∈ callsOn raceCalls "acc-1", failedSwaps i run.1 = 3 ∧
      callCommits rd raceCalls "acc-1" run.1 = 1 ∧
      clientCommits rd raceCalls "acc-1" run.1 = 1 := by
  intro rd run
  have hrun : Run (occStep rd {} raceCalls) (.start .selfTest) run.1 run.2 := run_exec _ _ _
  have htwo : (callsOn raceCalls "acc-1").card = 2 := by decide
  have hbound := (contention_bounded hrun).2.1 "acc-1"
  rw [htwo] at hbound
  exact ⟨hbound, by decide +kernel, by decide +kernel, by decide +kernel⟩

end Httpe.Occ
