/-
Httpe.Breaker.UserCode — the caller's code and the breaker's lock.

The fallback of a refused call is the only code of the caller's that runs
under the lock. Where no call is refused on a breaker with a fallback,
whoever holds a lock is in the section it took it for
(`LockInv.in_section`): it waits for nobody, so nobody can be deadlocked.
Where one is, its fallback may call `execute` on the same breaker and
wait for the lock its own thread holds.
-/
import Httpe.Breaker.Lock
import Mathlib.Data.Set.Basic

namespace Httpe.Breaker

variable {τ β : Type*} [DecidableEq τ] [DecidableEq β] {config : β → BreakerConfig}
  {s s' : LockSystem τ β} {e : LockEvent τ β} {tr : List (LockTransition τ β)}
  {breaker : β → CircuitBreaker}

/-- No thread runs the caller's code of a call while it holds the lock of
that call's breaker. -/
def UserCodeUnlocked (s : LockSystem τ β) : Prop :=
  ∀ i b, s.userCode i = some b → s.lock b ≠ some i

/-- No call is in the fallback it was refused with. -/
def NoOpenFallback (s : LockSystem τ β) : Prop :=
  ∀ i, ∀ f ∈ s.stack i, f.userCode.isSome = true → f.holds = none

/-- Every thread of `D` waits for a lock that a thread of `D` holds. -/
def Deadlocked (s : LockSystem τ β) (D : Set τ) : Prop :=
  D.Nonempty ∧ ∀ i ∈ D, ∃ b, s.waitsFor i = some b ∧ ∃ j ∈ D, s.lock b = some j

omit [DecidableEq β] in
theorem NoOpenFallback.setStack (h : NoOpenFallback s) {i : τ} {rest : List (Frame β)}
    (top : List (Frame β)) (hrest : ∀ f ∈ rest, f ∈ s.stack i)
    (htop : ∀ f ∈ top, f.userCode.isSome = true → f.holds = none) :
    NoOpenFallback (s.setStack i (top ++ rest)) := by
  intro j f hf huser
  by_cases hj : j = i
  · rw [hj, LockSystem.setStack_stack] at hf
    rcases List.mem_append.mp hf with hf | hf
    · exact htop f hf huser
    · exact h i f (hrest f hf) huser
  · rw [LockSystem.setStack_stack_of_ne hj] at hf
    exact h j f hf huser

theorem NoOpenFallback.step (h : NoOpenFallback s) (hmove : LockMove config s e s')
    (hno : ¬ RefusesWithFallback config s e) : NoOpenFallback s' := by
  cases hmove with
  | call huser => exact h.setStack [_] (fun _ hf => hf) (by simp [Frame.userCode])
  | @acquire f b rest hstack hwaits hfree =>
      have hlock : NoOpenFallback (s.setLock b (some e.thread)) := h
      refine hlock.setStack [_] (fun g hg => ?_) fun g hg huser => ?_
      · rw [LockSystem.setLock_stack, hstack]
        exact List.mem_cons_of_mem _ hg
      · rw [List.mem_singleton.mp hg, (Frame.acquired_holds hwaits).2.2] at huser
        cases huser
  | @release f b cb rest top hstack hholds htop hlength =>
      have hlock : NoOpenFallback ((s.setBreaker b cb).setLock b none) := h
      refine hlock.setStack top (fun g hg => ?_) fun g hg _ => htop g hg
      show g ∈ s.stack e.thread
      rw [hstack]
      exact List.mem_cons_of_mem _ hg
  | refuse _ hrefuses => exact absurd hrefuses hno
  | ends top hstack hholds htop hlength =>
      refine h.setStack top (fun g hg => ?_) fun g hg _ => htop g hg
      rw [hstack]
      exact List.mem_cons_of_mem _ hg

theorem noOpenFallback_of_run (hrun : Run (lockStep config) (.start breaker) tr s)
    (hno : ∀ t ∈ tr, ¬ RefusesWithFallback config t.pre t.event) : NoOpenFallback s := by
  refine hrun.invariant_of_forall (fun t => ¬ RefusesWithFallback config t.pre t.event)
    (fun _ s => NoOpenFallback s) ?_ ?_ hno
  · exact nofun
  · exact fun _ _ _ _ _ ih hstep ht => ih.step (lockMove_of_step hstep) ht

/-- Unless a refused call's fallback runs, a thread that holds a lock is
in the section it took it for. -/
theorem LockInv.in_section (h : LockInv s) (hno : NoOpenFallback s) {i : τ} {b : β}
    (hlock : s.lock b = some i) :
    ∃ f rest, s.stack i = f :: rest ∧ f.holds = some b ∧ f.userCode = none := by
  have hheld := h.held i b
  rw [if_pos hlock] at hheld
  have hpos : 0 < (s.stack i).countP fun f => f.holds = some b := by
    rw [← holdCount, hheld]
    exact Nat.one_pos
  obtain ⟨f, hf, hholds⟩ := List.countP_pos_iff.mp hpos
  have hholds' : f.holds = some b := of_decide_eq_true hholds
  have hcode : f.userCode = none := by
    by_contra hsome
    have hnone := hno i f hf (Option.isSome_iff_ne_none.mpr hsome)
    rw [hholds'] at hnone
    cases hnone
  cases hstack : s.stack i with
  | nil =>
      rw [hstack] at hf
      cases hf
  | cons g rest =>
      have hsuspended := h.suspended i
      rw [hstack] at hf hsuspended
      rcases List.mem_cons.mp hf with rfl | hf
      · exact ⟨f, rest, rfl, hholds', hcode⟩
      · have hsome := hsuspended f hf
        rw [hcode] at hsome
        cases hsome

section Unlocked

variable (h : LockInv s) (hno : NoOpenFallback s)
include h hno

theorem not_holder_of_userCode {i : τ} {b b' : β} (huser : s.userCode i = some b) :
    s.lock b' ≠ some i := by
  intro hlock
  obtain ⟨f, rest, hstack, -, hcode⟩ := h.in_section hno hlock
  rw [LockSystem.userCode, hstack, List.head?_cons, Option.bind_some, hcode] at huser
  cases huser

theorem not_holder_of_waitsFor {i : τ} {b b' : β} (hwaits : s.waitsFor i = some b) :
    s.lock b' ≠ some i := by
  intro hlock
  obtain ⟨f, rest, hstack, hholds, -⟩ := h.in_section hno hlock
  rw [LockSystem.waitsFor, hstack, List.head?_cons, Option.bind_some,
    Frame.waitsFor_of_holds hholds] at hwaits
  cases hwaits

/-- Who waits holds nothing, so nobody waits for a thread that waits. -/
theorem not_deadlocked (D : Set τ) : ¬ Deadlocked s D := by
  intro hdead
  obtain ⟨⟨i, hi⟩, hall⟩ := hdead
  obtain ⟨b, -, j, hj, hlock⟩ := hall i hi
  obtain ⟨b', hwaits, -⟩ := hall j hj
  exact not_holder_of_waitsFor h hno hwaits hlock

/-- The holder of a lock can finish its section at once. -/
theorem locked_isSome {j : τ} {b : β} (hlock : s.lock b = some j) (time later : ℚ) :
    (lockStep config s ⟨j, .locked time later⟩).isSome := by
  obtain ⟨f, rest, hstack, hholds, hcode⟩ := h.in_section hno hlock
  simp only [lockStep, hstack]
  cases f with
  | prologue b' =>
      simp only [lockedStep]
      split
      · rfl
      · split <;> rfl
  | recording b' outcome =>
      simp only [lockedStep]
      split <;> rfl
  | openFallback b' => cases hcode
  | entering b' => cases hholds
  | action b' => cases hholds
  | leaving b' outcome => cases hholds
  | fallback b' => cases hholds

/-- A thread that waits can go on, or the lock's holder can. -/
theorem acquire_isSome_or {i : τ} {b : β} (hwaits : s.waitsFor i = some b) :
    (lockStep config s ⟨i, .acquire⟩).isSome ∨
      ∃ j, s.lock b = some j ∧ ∀ time later,
        (lockStep config s ⟨j, .locked time later⟩).isSome := by
  cases hlock : s.lock b with
  | some j => exact .inr ⟨j, rfl, locked_isSome h hno hlock⟩
  | none =>
      left
      cases hstack : s.stack i with
      | nil =>
          rw [LockSystem.waitsFor, hstack] at hwaits
          cases hwaits
      | cons f rest =>
          rw [LockSystem.waitsFor, hstack, List.head?_cons, Option.bind_some] at hwaits
          simp only [lockStep, hstack, hwaits, Option.bind_some, hlock, if_true]
          rfl

end Unlocked

/-- A refused call's fallback starts under the lock. -/
theorem not_unlocked_of_refuses (h : LockInv s) (hstep : lockStep config s e = some s')
    (hrefuses : RefusesWithFallback config s e) : ¬ UserCodeUnlocked s' := by
  obtain ⟨i, op⟩ := e
  obtain ⟨b, rest, time, later, rfl, hstack, hopened, hearly, hfallback⟩ := hrefuses
  have hlock : s.lock b = some i := by
    by_contra hother
    have hholds : (Frame.prologue b).holds = some b := rfl
    have hheld := h.held i b
    rw [show s.stack i = _ from hstack, holdCount_cons, hholds, if_pos rfl, if_neg hother] at hheld
    omega
  have hprologue : (s.breaker b).prologue (config b) time later = (false, s.breaker b) := by
    rw [CircuitBreaker.prologue, if_pos hopened, if_neg (not_le.mpr hearly)]
  simp only [lockStep, show s.stack i = _ from hstack, lockedStep, hprologue,
    handleOpenCircuit_eq_fallback_iff.mpr hfallback] at hstep
  cases hstep
  intro hunlocked
  refine hunlocked i b ?_ hlock
  rw [LockSystem.userCode, LockSystem.setStack_stack]
  rfl

/-- **User code and the lock.** In a run the caller's code is never run by
a thread that holds the lock of its breaker exactly if no call is refused
on a breaker that has a fallback. As long as that is so, a thread that
runs the caller's code or waits for a lock holds none, no set of threads
is deadlocked, and whoever a thread waits for can go on. -/
theorem userCodeUnlocked_iff (hrun : Run (lockStep config) (.start breaker) tr s) :
    ((∀ t ∈ tr, UserCodeUnlocked t.post) ↔
      ∀ t ∈ tr, ¬ RefusesWithFallback config t.pre t.event) ∧
    ((∀ t ∈ tr, ¬ RefusesWithFallback config t.pre t.event) →
      (∀ i b b', s.userCode i = some b → s.lock b' ≠ some i) ∧
      (∀ i b b', s.waitsFor i = some b → s.lock b' ≠ some i) ∧
      (∀ D, ¬ Deadlocked s D) ∧
      ∀ i b, s.waitsFor i = some b → (lockStep config s ⟨i, .acquire⟩).isSome ∨
        ∃ j, s.lock b = some j ∧ ∀ time later,
          (lockStep config s ⟨j, .locked time later⟩).isSome) := by
  constructor
  · constructor
    · intro hunlocked t ht hrefuses
      obtain ⟨l, r, -, hreached, -⟩ := hrun.reached_of_mem ht
      exact not_unlocked_of_refuses (lockInv_of_run hreached) (hrun.step_of_mem t ht) hrefuses
        (hunlocked t ht)
    · intro hno t ht i b huser
      obtain ⟨l, r, rfl, hreached, -⟩ := hrun.reached_of_mem ht
      have hpost := hreached.tail (hrun.step_of_mem t ht)
      have hclean := noOpenFallback_of_run hpost fun u hu => hno u (by
        rcases List.mem_append.mp hu with hu | hu
        · exact List.mem_append_left _ hu
        · rw [List.mem_singleton.mp hu]
          exact ht)
      exact not_holder_of_userCode (lockInv_of_run hpost) hclean huser
  · intro hno
    have hinv := lockInv_of_run hrun
    have hclean := noOpenFallback_of_run hrun hno
    exact ⟨fun i b b' => not_holder_of_userCode hinv hclean,
      fun i b b' => not_holder_of_waitsFor hinv hclean, not_deadlocked hinv hclean,
      fun i b => acquire_isSome_or hinv hclean⟩

/-- Two new breakers with fallbacks, and two threads. -/
def newBreakers : LockSystem Bool Bool := .start fun _ => { lastStateChangeTime := 0 }

/-- A call whose action raises, up to its fallback. -/
def failingCall (i b : Bool) : List (LockEvent Bool Bool) :=
  [⟨i, .call b⟩, ⟨i, .acquire⟩, ⟨i, .locked 0 0⟩, ⟨i, .ends .raised⟩, ⟨i, .acquire⟩,
   ⟨i, .locked 0 0⟩]

/-- The fallback after a failure calls the other breaker, and the other
thread waits meanwhile. -/
theorem userCodeUnlocked_iff_nestedFallback :
    let config : Bool → BreakerConfig := fun _ => { name := "CB", fallback := true }
    let run := exec (lockStep config) newBreakers
      (failingCall false false ++ [⟨false, .call true⟩, ⟨false, .acquire⟩, ⟨true, .call true⟩])
    run.2.lock true = some false ∧ run.2.waitsFor true = some true ∧
    (∀ t ∈ run.1, UserCodeUnlocked t.post) ∧ ∀ D, ¬ Deadlocked run.2 D := by
  intro config run
  have hrun : Run (lockStep config) newBreakers run.1 run.2 := run_exec _ _ _
  have hclosed : ∀ t ∈ run.1, ∀ b, (t.pre.breaker b).state ≠ .opened := by decide +kernel
  have hno : ∀ t ∈ run.1, ¬ RefusesWithFallback config t.pre t.event := by
    intro t ht hrefuses
    obtain ⟨b, rest, time, later, -, -, hopened, -⟩ := hrefuses
    exact hclosed t ht b hopened
  obtain ⟨hiff, hfree⟩ := userCodeUnlocked_iff hrun
  exact ⟨by decide +kernel, by decide +kernel, hiff.mpr hno, (hfree hno).2.2.1⟩

/-- After a trip, a call that is refused and goes on to its fallback. -/
def refusedCall (i b : Bool) : List (LockEvent Bool Bool) :=
  [⟨i, .call b⟩, ⟨i, .acquire⟩, ⟨i, .locked 1 1⟩]

/-- The fallback of a refused call runs under the lock. If it calls
`execute` on the same breaker its thread waits for itself, and if two
breakers' fallbacks call each other both threads wait for ever. -/
theorem not_userCodeUnlocked_openFallback :
    let config : Bool → BreakerConfig := fun _ =>
      { name := "CB", failureThreshold := 1, fallback := true }
    let refused := exec (lockStep config) newBreakers
      (failingCall false false ++ [⟨false, .ends .returned⟩] ++ refusedCall false false)
    let again := exec (lockStep config) newBreakers
      (failingCall false false ++ [⟨false, .ends .returned⟩] ++ refusedCall false false ++
        [⟨false, .call false⟩])
    let crossed := exec (lockStep config) newBreakers
      (failingCall false false ++ [⟨false, .ends .returned⟩] ++ failingCall true true ++
        [⟨true, .ends .returned⟩] ++ refusedCall false false ++ refusedCall true true ++
        [⟨false, .call true⟩, ⟨true, .call false⟩])
    (Run (lockStep config) newBreakers refused.1 refused.2 ∧ ¬ UserCodeUnlocked refused.2) ∧
    (Run (lockStep config) newBreakers again.1 again.2 ∧ again.2.waitsFor false = some false ∧
      again.2.lock false = some false) ∧
    Run (lockStep config) newBreakers crossed.1 crossed.2 ∧ Deadlocked crossed.2 Set.univ := by
  intro config refused again crossed
  refine ⟨⟨run_exec _ _ _, fun hunlocked => ?_⟩, ⟨run_exec _ _ _, ?_, ?_⟩, run_exec _ _ _, ?_⟩
  · exact hunlocked false false (by decide +kernel) (by decide +kernel)
  · decide +kernel
  · decide +kernel
  · have hwaits : ∀ i, crossed.2.waitsFor i = some (!i) := by decide +kernel
    have hlock : ∀ b, crossed.2.lock b = some b := by decide +kernel
    exact ⟨Set.univ_nonempty, fun i _ => ⟨!i, hwaits i, !i, Set.mem_univ _, hlock _⟩⟩

end Httpe.Breaker
