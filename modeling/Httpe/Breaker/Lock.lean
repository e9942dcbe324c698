/-
Httpe.Breaker.Lock — whose code runs while a breaker's lock is held.

Here the lock of a breaker is explicit: it is not reentrant, and a thread
that asks for it while it is held waits. Any number of threads and
breakers are involved. The caller's code is arbitrary: an action or a
fallback may call `execute` again, on the same breaker or on another, so
each thread has a stack of `Frame`s, one for every `execute` it is in,
which says how far that call has come. Clock readings are not restricted.

An action runs between the two locked sections, and so does the fallback
of a call that failed; but `_handle_open_circuit` is called inside the
first one, so the fallback of a refused call runs under the lock.

`LockMove` says what each step does to the locks and the stacks.
`LockInv` is what every run keeps: a lock is with the thread whose stack
has taken it.
-/
import Httpe.Breaker.CircuitBreaker

namespace Httpe.Breaker

/-- How far one `execute` on a breaker has come. -/
inductive Frame (β : Type*) where
  /-- It waits for the lock of the prologue. -/
  | entering (b : β)
  | prologue (b : β)
  | action (b : β)
  /-- It waits for the lock of `_on_success` or `_on_failure`. -/
  | leaving (b : β) (outcome : Outcome)
  | recording (b : β) (outcome : Outcome)
  /-- The fallback after a failure. -/
  | fallback (b : β)
  /-- The fallback of a refused call, called in the prologue. -/
  | openFallback (b : β)
  deriving DecidableEq

namespace Frame

variable {β : Type*}

/-- The breaker whose caller's code the frame runs. -/
def userCode : Frame β → Option β
  | action b | fallback b | openFallback b => some b
  | entering _ | prologue _ | leaving _ _ | recording _ _ => none

/-- The breaker whose lock the frame waits for. -/
def waitsFor : Frame β → Option β
  | entering b | leaving b _ => some b
  | prologue _ | action _ | recording _ _ | fallback _ | openFallback _ => none

/-- The breaker whose lock the frame has taken. -/
def holds : Frame β → Option β
  | prologue b | recording b _ | openFallback b => some b
  | entering _ | action _ | leaving _ _ | fallback _ => none

/-- The lock is there. -/
def acquired : Frame β → Frame β
  | entering b => prologue b
  | leaving b outcome => recording b outcome
  | f => f

end Frame

/-- How the caller's code ends: it returns, raises an `Exception`, or
raises something `except Exception` does not catch. -/
inductive UserEnd where
  | returned
  | raised
  | interrupted
  deriving DecidableEq, Repr

/-- What a thread does next. -/
inductive LockOp (β : Type*) where
  /-- The caller's code calls `execute`. -/
  | call (b : β)
  /-- It takes the lock it waits for. -/
  | acquire
  /-- It runs the section it holds the lock for; `later` is the reading of
  the clock for a transition. -/
  | locked (time later : ℚ)
  /-- The caller's code ends. -/
  | ends (how : UserEnd)
  deriving DecidableEq

structure LockEvent (τ β : Type*) where
  thread : τ
  op : LockOp β
  deriving DecidableEq

structure LockSystem (τ β : Type*) where
  breaker : β → CircuitBreaker
  /-- The thread that holds the breaker's lock. -/
  lock : β → Option τ
  /-- The calls of `execute` a thread is in, the innermost first. -/
  stack : τ → List (Frame β)

variable {τ β : Type*}

/-- Breakers in any state, and no call yet. -/
def LockSystem.start (breaker : β → CircuitBreaker) : LockSystem τ β :=
  ⟨breaker, fun _ => none, fun _ => []⟩

namespace LockSystem

/-- The breaker whose caller's code the thread is running. -/
def userCode (s : LockSystem τ β) (i : τ) : Option β := (s.stack i).head?.bind Frame.userCode

/-- The breaker whose lock the thread waits for. -/
def waitsFor (s : LockSystem τ β) (i : τ) : Option β := (s.stack i).head?.bind Frame.waitsFor

section Stack

variable [DecidableEq τ] {s : LockSystem τ β} {i j : τ} {stack : List (Frame β)}

def setStack (s : LockSystem τ β) (i : τ) (stack : List (Frame β)) : LockSystem τ β :=
  { s with stack := Function.update s.stack i stack }

@[simp] theorem setStack_stack : (s.setStack i stack).stack i = stack := Function.update_self ..
@[simp] theorem setStack_stack_of_ne (h : j ≠ i) : (s.setStack i stack).stack j = s.stack j :=
  Function.update_of_ne h ..
@[simp] theorem setStack_lock : (s.setStack i stack).lock = s.lock := rfl

end Stack

section Lock

variable [DecidableEq β] {s : LockSystem τ β} {b b' : β} {holder : Option τ}

def setLock (s : LockSystem τ β) (b : β) (holder : Option τ) : LockSystem τ β :=
  { s with lock := Function.update s.lock b holder }

def setBreaker (s : LockSystem τ β) (b : β) (cb : CircuitBreaker) : LockSystem τ β :=
  { s with breaker := Function.update s.breaker b cb }

@[simp] theorem setLock_lock : (s.setLock b holder).lock b = holder := Function.update_self ..
@[simp] theorem setLock_lock_of_ne (h : b' ≠ b) : (s.setLock b holder).lock b' = s.lock b' :=
  Function.update_of_ne h ..
@[simp] theorem setLock_stack : (s.setLock b holder).stack = s.stack := rfl

end Lock

end LockSystem

variable [DecidableEq τ] [DecidableEq β]

/-- The section a thread holds the lock for. `with self._lock` ends by
returning or raising, so the lock is released wherever it is left; the
fallback of a refused call is still inside. -/
def lockedStep (config : β → BreakerConfig) (s : LockSystem τ β) (i : τ) (time later : ℚ) :
    List (Frame β) → Option (LockSystem τ β)
  | .prologue b :: rest =>
      match (s.breaker b).prologue (config b) time later with
      | (true, cb) => some (((s.setBreaker b cb).setLock b none).setStack i (.action b :: rest))
      | (false, cb) =>
          match (config b).handleOpenCircuit with
          | .fallback => some ((s.setBreaker b cb).setStack i (.openFallback b :: rest))
          | _ => some (((s.setBreaker b cb).setLock b none).setStack i rest)
  | .recording b outcome :: rest =>
      let s := (s.setBreaker b ((s.breaker b).record (config b) later outcome)).setLock b none
      match (config b).afterOutcome outcome with
      | .fallback => some (s.setStack i (.fallback b :: rest))
      | _ => some (s.setStack i rest)
  | _ => none

/-- The caller's code ends. -/
def endsStep (s : LockSystem τ β) (i : τ) (how : UserEnd) :
    List (Frame β) → Option (LockSystem τ β)
  | .action b :: rest =>
      match how with
      | .returned => some (s.setStack i (.leaving b .success :: rest))
      | .raised => some (s.setStack i (.leaving b .failure :: rest))
      | .interrupted => some (s.setStack i rest)
  | .fallback _ :: rest => some (s.setStack i rest)
  | .openFallback b :: rest => some ((s.setLock b none).setStack i rest)
  | _ => none

/-- One step of a thread. Outside `execute` it runs the caller's code too. -/
def lockStep (config : β → BreakerConfig) (s : LockSystem τ β) (e : LockEvent τ β) :
    Option (LockSystem τ β) :=
  match e.op with
  | .call b =>
      if (s.stack e.thread).head?.all fun f => f.userCode.isSome then
        some (s.setStack e.thread (.entering b :: s.stack e.thread))
      else none
  | .acquire =>
      match s.stack e.thread with
      | f :: rest => f.waitsFor.bind fun b =>
          if s.lock b = none then
            some ((s.setLock b (some e.thread)).setStack e.thread (f.acquired :: rest))
          else none
      | [] => none
  | .locked time later => lockedStep config s e.thread time later (s.stack e.thread)
  | .ends how => endsStep s e.thread how (s.stack e.thread)

abbrev LockTransition (τ β : Type*) := Transition (LockSystem τ β) (LockEvent τ β)

/-! ## Every step -/

/-- The event refuses a call on a breaker that has a fallback: the breaker
is OPEN and its recovery time is not over. -/
def RefusesWithFallback (config : β → BreakerConfig) (s : LockSystem τ β) (e : LockEvent τ β) :
    Prop :=
  ∃ b rest time later, e.op = .locked time later ∧ s.stack e.thread = .prologue b :: rest ∧
    (s.breaker b).state = .opened ∧
    time - (s.breaker b).lastStateChangeTime < (config b).recoveryTimeSeconds ∧
    (config b).fallback = true

/-- What a step of a thread does to the locks and to its stack; of what it
does to the breakers nothing is said. -/
inductive LockMove (config : β → BreakerConfig) (s : LockSystem τ β) (e : LockEvent τ β) :
    LockSystem τ β → Prop
  | call {b : β} (huser : (s.stack e.thread).head?.all (fun f => f.userCode.isSome) = true) :
      LockMove config s e (s.setStack e.thread (.entering b :: s.stack e.thread))
  | acquire {f : Frame β} {b : β} {rest : List (Frame β)} (hstack : s.stack e.thread = f :: rest)
      (hwaits : f.waitsFor = some b) (hfree : s.lock b = none) :
      LockMove config s e
        ((s.setLock b (some e.thread)).setStack e.thread (f.acquired :: rest))
  /-- The lock is released; what goes on may be the caller's code. -/
  | release {f : Frame β} {b : β} {cb : CircuitBreaker} {rest : List (Frame β)}
      (top : List (Frame β)) (hstack : s.stack e.thread = f :: rest) (hholds : f.holds = some b)
      (htop : ∀ g ∈ top, g.holds = none) (hlength : top.length ≤ 1) :
      LockMove config s e (((s.setBreaker b cb).setLock b none).setStack e.thread (top ++ rest))
  | refuse {b : β} {cb : CircuitBreaker} {rest : List (Frame β)}
      (hstack : s.stack e.thread = .prologue b :: rest)
      (hrefuses : RefusesWithFallback config s e) :
      LockMove config s e ((s.setBreaker b cb).setStack e.thread (.openFallback b :: rest))
  /-- The caller's code ends, and not under the lock. -/
  | ends {f : Frame β} {rest : List (Frame β)} (top : List (Frame β))
      (hstack : s.stack e.thread = f :: rest) (hholds : f.holds = none)
      (htop : ∀ g ∈ top, g.holds = none) (hlength : top.length ≤ 1) :
      LockMove config s e (s.setStack e.thread (top ++ rest))

variable {config : β → BreakerConfig} {s s' : LockSystem τ β} {e : LockEvent τ β}

/-- A call that finds its breaker OPEN too early. -/
theorem prologue_of_not_admitted {c : BreakerConfig} {cb cb' : CircuitBreaker} {time later : ℚ}
    (h : cb.prologue c time later = (false, cb')) :
    cb.state = .opened ∧ time - cb.lastStateChangeTime < c.recoveryTimeSeconds := by
  unfold CircuitBreaker.prologue at h
  split_ifs at h with hstate hlate
  · cases h
  · exact ⟨hstate, not_le.mp hlate⟩
  · cases h

theorem handleOpenCircuit_eq_fallback_iff {c : BreakerConfig} :
    c.handleOpenCircuit = .fallback ↔ c.fallback = true := by
  unfold BreakerConfig.handleOpenCircuit
  split_ifs with h
  · exact ⟨fun _ => h, fun _ => rfl⟩
  · exact ⟨nofun, fun htrue => absurd htrue h⟩

theorem lockMove_of_locked {i : τ} {time later : ℚ} {stack : List (Frame β)}
    (hstack : s.stack i = stack) (h : lockedStep config s i time later stack = some s') :
    LockMove config s ⟨i, .locked time later⟩ s' := by
  unfold lockedStep at h
  split at h
  · rename_i b rest
    split at h
    · cases h
      exact .release [.action b] hstack rfl (by simp [Frame.holds]) le_rfl
    · rename_i cb hprologue
      obtain ⟨hopened, hearly⟩ := prologue_of_not_admitted hprologue
      split at h
      · rename_i hfallback
        cases h
        exact .refuse hstack ⟨b, rest, time, later, rfl, hstack, hopened, hearly,
          handleOpenCircuit_eq_fallback_iff.mp hfallback⟩
      · cases h
        exact .release [] hstack rfl (by simp) (by simp)
  · rename_i b outcome rest
    split at h
    · cases h
      exact .release [.fallback b] hstack rfl (by simp [Frame.holds]) le_rfl
    · cases h
      exact .release [] hstack rfl (by simp) (by simp)
  · cases h

theorem lockMove_of_ends {i : τ} {how : UserEnd} {stack : List (Frame β)}
    (hstack : s.stack i = stack) (h : endsStep s i how stack = some s') :
    LockMove config s ⟨i, .ends how⟩ s' := by
  unfold endsStep at h
  split at h
  · rename_i b rest
    cases how with
    | returned =>
        cases h
        exact .ends [.leaving b .success] hstack rfl (by simp [Frame.holds]) le_rfl
    | raised =>
        cases h
        exact .ends [.leaving b .failure] hstack rfl (by simp [Frame.holds]) le_rfl
    | interrupted =>
        cases h
        exact .ends [] hstack rfl (by simp) (by simp)
  · cases h
    exact .ends [] hstack rfl (by simp) (by simp)
  · rename_i b rest
    cases h
    have hsame : s.setBreaker b (s.breaker b) = s := by
      rw [LockSystem.setBreaker, Function.update_eq_self]
    have hmove : LockMove config s ⟨i, .ends how⟩
        (((s.setBreaker b (s.breaker b)).setLock b none).setStack i ([] ++ rest)) :=
      .release [] hstack rfl (by simp) (by simp)
    rw [hsame] at hmove
    exact hmove
  · cases h

theorem lockMove_of_step (h : lockStep config s e = some s') : LockMove config s e s' := by
  obtain ⟨i, op⟩ := e
  cases op with
  | call b =>
      simp only [lockStep] at h
      split_ifs at h with huser
      cases h
      exact .call huser
  | acquire =>
      simp only [lockStep] at h
      cases hstack : s.stack i with
      | nil =>
          rw [hstack] at h
          cases h
      | cons f rest =>
          rw [hstack] at h
          obtain ⟨b, hwaits, hacquired⟩ := Option.bind_eq_some_iff.mp h
          split_ifs at hacquired with hfree
          cases hacquired
          exact .acquire hstack hwaits hfree
  | locked time later => exact lockMove_of_locked rfl h
  | ends how => exact lockMove_of_ends rfl h

/-! ## Who holds the lock -/

/-- How often a stack has taken the lock of a breaker. -/
def holdCount (b : β) (stack : List (Frame β)) : ℕ := stack.countP fun f => f.holds = some b

/-- A suspended call waits for the caller's code it runs, and the lock is
with the thread whose stack has taken it, which has done so once. -/
structure LockInv (s : LockSystem τ β) : Prop where
  suspended : ∀ i, ∀ f ∈ (s.stack i).tail, f.userCode.isSome = true
  held : ∀ i b, holdCount b (s.stack i) = if s.lock b = some i then 1 else 0

omit [DecidableEq β] in
theorem Frame.acquired_holds {f : Frame β} {b : β} (h : f.waitsFor = some b) :
    f.acquired.holds = some b ∧ f.holds = none ∧ f.acquired.userCode = none := by
  cases f with
  | entering b' => exact ⟨h, rfl, rfl⟩
  | leaving b' outcome => exact ⟨h, rfl, rfl⟩
  | prologue b' => cases h
  | action b' => cases h
  | recording b' outcome => cases h
  | fallback b' => cases h
  | openFallback b' => cases h

omit [DecidableEq β] in
/-- A frame that has taken a lock is in its section, or it is a refused
call's fallback. -/
theorem Frame.waitsFor_of_holds {f : Frame β} {b : β} (h : f.holds = some b) :
    f.waitsFor = none := by
  cases f with
  | entering b' => cases h
  | leaving b' outcome => cases h
  | prologue b' => rfl
  | action b' => cases h
  | recording b' outcome => rfl
  | fallback b' => cases h
  | openFallback b' => rfl

theorem holdCount_cons (b : β) (f : Frame β) (rest : List (Frame β)) :
    holdCount b (f :: rest) = holdCount b rest + if f.holds = some b then 1 else 0 := by
  rw [holdCount, List.countP_cons, ← holdCount]
  simp

theorem holdCount_append_of_none {b : β} {top rest : List (Frame β)}
    (h : ∀ g ∈ top, g.holds = none) : holdCount b (top ++ rest) = holdCount b rest := by
  have hzero : top.countP (fun f => f.holds = some b) = 0 := by
    rw [List.countP_eq_zero]
    intro g hg
    rw [h g hg]
    simp
  rw [holdCount, List.countP_append, hzero, Nat.zero_add, ← holdCount]

omit [DecidableEq β] in
theorem mem_of_mem_tail_append {top rest : List (Frame β)} (hlength : top.length ≤ 1)
    {f : Frame β} (hf : f ∈ (top ++ rest).tail) : f ∈ rest := by
  match top with
  | [] => exact List.mem_of_mem_tail hf
  | [g] => exact hf

theorem LockInv.suspended_setStack (h : LockInv s) {i : τ} {stack : List (Frame β)}
    (hsuspended : ∀ f ∈ stack.tail, f.userCode.isSome = true) (j : τ) :
    ∀ f ∈ ((s.setStack i stack).stack j).tail, f.userCode.isSome = true := by
  by_cases hj : j = i
  · rw [hj, LockSystem.setStack_stack]
    exact hsuspended
  · rw [LockSystem.setStack_stack_of_ne hj]
    exact h.suspended j

/-- A step that takes and releases nothing. -/
theorem LockInv.setStack (h : LockInv s) {i : τ} {stack : List (Frame β)}
    (hsuspended : ∀ f ∈ stack.tail, f.userCode.isSome = true)
    (hcount : ∀ b, holdCount b stack = holdCount b (s.stack i)) : LockInv (s.setStack i stack) := by
  constructor
  · exact h.suspended_setStack hsuspended
  · intro j b
    rw [LockSystem.setStack_lock, ← h.held j b]
    by_cases hj : j = i
    · rw [hj, LockSystem.setStack_stack, hcount]
    · rw [LockSystem.setStack_stack_of_ne hj]

/-- A step that changes the holder of one lock. -/
theorem LockInv.setLock (h : LockInv s) {i : τ} {b : β} {holder : Option τ}
    {stack : List (Frame β)} (hsuspended : ∀ f ∈ stack.tail, f.userCode.isSome = true)
    (hbefore : ∀ j, j ≠ i → s.lock b ≠ some j) (hafter : ∀ j, j ≠ i → holder ≠ some j)
    (hcount : holdCount b stack = if holder = some i then 1 else 0)
    (hothers : ∀ b', b' ≠ b → holdCount b' stack = holdCount b' (s.stack i)) :
    LockInv ((s.setLock b holder).setStack i stack) := by
  constructor
  · exact h.suspended_setStack hsuspended
  · intro j b'
    have hold := h.held j b'
    rw [LockSystem.setStack_lock]
    by_cases hb : b' = b
    · rw [hb, LockSystem.setLock_lock]
      by_cases hj : j = i
      · rw [hj, LockSystem.setStack_stack, hcount]
      · rw [hb, if_neg (hbefore j hj)] at hold
        rw [LockSystem.setStack_stack_of_ne hj, if_neg (hafter j hj)]
        exact hold
    · rw [LockSystem.setLock_lock_of_ne hb, ← hold]
      by_cases hj : j = i
      · rw [hj, LockSystem.setStack_stack, hothers b' hb]
      · rw [LockSystem.setStack_stack_of_ne hj]
        rfl

/-- A step that takes a free lock. -/
theorem LockInv.take (h : LockInv s) {i : τ} {b : β} {f g : Frame β} {rest : List (Frame β)}
    (hstack : s.stack i = f :: rest) (hf : f.holds = none) (hg : g.holds = some b)
    (hfree : s.lock b = none) :
    LockInv ((s.setLock b (some i)).setStack i (g :: rest)) := by
  have hsuspended := h.suspended i
  rw [hstack, List.tail_cons] at hsuspended
  have hrest : ∀ b', holdCount b' rest = holdCount b' (s.stack i) := by
    intro b'
    rw [hstack, holdCount_cons, hf]
    rfl
  apply h.setLock (show ∀ f ∈ (g :: rest).tail, f.userCode.isSome = true from hsuspended)
  · intro j _ hlock
    rw [hfree] at hlock
    cases hlock
  · exact fun j hj hlock => hj (Option.some.inj hlock).symm
  · rw [holdCount_cons, hrest, h.held, hfree, hg, if_pos rfl, if_pos rfl]
    rfl
  · intro b' hb
    rw [holdCount_cons, hrest, hg, if_neg fun heq => hb (Option.some.inj heq).symm, Nat.add_zero]

/-- A step that releases the lock its thread has taken. -/
theorem LockInv.release (h : LockInv s) {i : τ} {b : β} {f : Frame β} {top rest : List (Frame β)}
    (hstack : s.stack i = f :: rest) (hf : f.holds = some b) (htop : ∀ g ∈ top, g.holds = none)
    (hlength : top.length ≤ 1) : LockInv ((s.setLock b none).setStack i (top ++ rest)) := by
  have hsuspended := h.suspended i
  rw [hstack, List.tail_cons] at hsuspended
  have hheld := h.held i b
  rw [hstack, holdCount_cons, hf, if_pos rfl] at hheld
  have hholder : s.lock b = some i := by
    by_contra hother
    rw [if_neg hother] at hheld
    omega
  apply h.setLock fun g hg => hsuspended g (mem_of_mem_tail_append hlength hg)
  · intro j hj hlock
    rw [hholder] at hlock
    exact hj (Option.some.inj hlock).symm
  · exact nofun
  · rw [if_pos hholder] at hheld
    rw [holdCount_append_of_none htop, if_neg nofun]
    omega
  · intro b' hb
    rw [holdCount_append_of_none htop, hstack, holdCount_cons, hf,
      if_neg fun heq => hb (Option.some.inj heq).symm, Nat.add_zero]

theorem LockInv.setBreaker (h : LockInv s) {b : β} {cb : CircuitBreaker} :
    LockInv (s.setBreaker b cb) :=
  ⟨h.suspended, h.held⟩

theorem LockInv.step (h : LockInv s) (hmove : LockMove config s e s') : LockInv s' := by
  have hsuspended := h.suspended e.thread
  cases hmove with
  | call huser =>
      apply h.setStack
      · intro f hf
        rw [List.tail_cons] at hf
        cases hstack : s.stack e.thread with
        | nil =>
            rw [hstack] at hf
            cases hf
        | cons g rest =>
            rw [hstack] at hf huser hsuspended
            rcases List.mem_cons.mp hf with rfl | hf
            · exact huser
            · exact hsuspended f hf
      · intro b
        rw [holdCount_cons]
        rfl
  | acquire hstack hwaits hfree =>
      obtain ⟨hacquired, hf, -⟩ := Frame.acquired_holds hwaits
      exact h.take hstack hf hacquired hfree
  | release top hstack hholds htop hlength =>
      exact h.setBreaker.release hstack hholds htop hlength
  | refuse hstack =>
      rw [hstack] at hsuspended
      apply h.setBreaker.setStack
      · exact hsuspended
      · intro b
        show holdCount b _ = holdCount b (s.stack e.thread)
        rw [hstack, holdCount_cons, holdCount_cons]
        rfl
  | ends top hstack hholds htop hlength =>
      rw [hstack] at hsuspended
      apply h.setStack
      · exact fun g hg => hsuspended g (mem_of_mem_tail_append hlength hg)
      · intro b
        rw [hstack, holdCount_append_of_none htop, holdCount_cons, hholds]
        rfl

variable {tr : List (LockTransition τ β)} {breaker : β → CircuitBreaker}

theorem lockInv_of_run (hrun : Run (lockStep config) (.start breaker) tr s) : LockInv s := by
  refine hrun.invariant (fun _ s => LockInv s) ?_
    fun _ _ _ _ _ ih hstep => ih.step (lockMove_of_step hstep)
  constructor
  · exact nofun
  · exact fun _ _ => rfl

end Httpe.Breaker
