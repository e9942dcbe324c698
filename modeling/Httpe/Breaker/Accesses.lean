/-
Httpe.Breaker.Accesses — the threads of `Httpe.Breaker.Lock` with
sections that take time.

A thread that has the lock makes one access of its section's code at a
time: it reads an attribute, assigns one or reads the clock. Any other
thread may move between two accesses, and only the lock keeps it from the
same breaker. There is one clock, and no reading is before an earlier one.
Outside the sections a step is one of `Httpe.Breaker.Lock`.

`AccessMove` lists what a step can do, by where the thread is.
`LockInv.alone` is what the lock is for: no two threads are in sections of
one breaker.
-/
import Httpe.Breaker.Lock
import Httpe.Breaker.SectionCode

namespace Httpe.Breaker

/-! ## The system -/

namespace Frame

variable {β : Type*}

/-- The breaker in whose section the frame is. -/
def inSection : Frame β → Option β
  | prologue b | recording b _ => some b
  | entering _ | action _ | leaving _ _ | fallback _ | openFallback _ => none

/-- The section the frame is in. -/
def sectionCode (config : β → BreakerConfig) : Frame β → SectionCode
  | prologue b => .prologue (config b)
  | recording b outcome => .record (config b) outcome
  | entering _ | action _ | leaving _ _ | fallback _ | openFallback _ => .leave false

end Frame

variable {τ β : Type*}

/-- The breaker in whose section a thread is. -/
def LockSystem.inSection (s : LockSystem τ β) (i : τ) : Option β :=
  (s.stack i).head?.bind Frame.inSection

inductive AccessOp (β : Type*) where
  | call (b : β)
  | acquire
  /-- It reads or assigns an attribute, or leaves the section. -/
  | access
  | clock (t : ℚ)
  | ends (how : UserEnd)
  deriving DecidableEq

structure AccessEvent (τ β : Type*) where
  thread : τ
  op : AccessOp β
  deriving DecidableEq

/-- The breakers, locks and stacks; the last reading of the clock; and of
each thread what is left of its section and the readings it has made
there. -/
structure AccessSystem (τ β : Type*) where
  sys : LockSystem τ β
  now : ℚ
  code : τ → SectionCode
  readings : τ → List ℚ

namespace AccessSystem

/-- New breakers made at time `t₀`, and no call yet. -/
def start (t₀ : ℚ) : AccessSystem τ β :=
  ⟨.start fun _ => { lastStateChangeTime := t₀ }, t₀, fun _ => .leave false, fun _ => []⟩

/-- A section's first and last reading; any time is as good for one that
reads no clock. -/
def firstReading (s : AccessSystem τ β) (i : τ) : ℚ := (s.readings i).head?.getD s.now

def lastReading (s : AccessSystem τ β) (i : τ) : ℚ := (s.readings i).getLast?.getD s.now

end AccessSystem

variable [DecidableEq τ] [DecidableEq β]

/-- A thread is through with its section. The breaker is as the section
has left it. -/
def leaveStep (config : β → BreakerConfig) (s : LockSystem τ β) (i : τ) (refused : Bool) :
    List (Frame β) → Option (LockSystem τ β)
  | .prologue b :: rest =>
      if refused then
        match (config b).handleOpenCircuit with
        | .fallback => some (s.setStack i (.openFallback b :: rest))
        | _ => some ((s.setLock b none).setStack i rest)
      else some ((s.setLock b none).setStack i (.action b :: rest))
  | .recording b outcome :: rest =>
      match (config b).afterOutcome outcome with
      | .fallback => some ((s.setLock b none).setStack i (.fallback b :: rest))
      | _ => some ((s.setLock b none).setStack i rest)
  | _ => none

/-- A thread's next access in its section. -/
def sectionStep (config : β → BreakerConfig) (s : AccessSystem τ β) (i : τ) (b : β) :
    SectionCode → Option (AccessSystem τ β)
  | .leave refused =>
      (leaveStep config s.sys i refused (s.sys.stack i)).map fun sys => { s with sys }
  | .read a next =>
      some { s with code := Function.update s.code i (next ((s.sys.breaker b).get a)) }
  | .write a v next => some
      { s with
        sys := s.sys.setBreaker b ((s.sys.breaker b).set a v)
        code := Function.update s.code i next }
  | .clock _ => none

/-- One step of a thread. Outside the sections it is one of
`Httpe.Breaker.Lock`. -/
def accessStep (config : β → BreakerConfig) (s : AccessSystem τ β) (e : AccessEvent τ β) :
    Option (AccessSystem τ β) :=
  match e.op with
  | .call b => (lockStep config s.sys ⟨e.thread, .call b⟩).map fun sys => { s with sys }
  | .acquire => (lockStep config s.sys ⟨e.thread, .acquire⟩).bind fun sys =>
      (sys.stack e.thread).head?.map fun f =>
        { s with
          sys
          code := Function.update s.code e.thread (f.sectionCode config)
          readings := Function.update s.readings e.thread [] }
  | .access => (s.sys.inSection e.thread).bind fun b =>
      sectionStep config s e.thread b (s.code e.thread)
  | .clock t =>
      match s.sys.inSection e.thread, s.code e.thread with
      | some _, .clock next =>
          if s.now ≤ t then
            some
              { s with
                now := t
                code := Function.update s.code e.thread (next t)
                readings := Function.update s.readings e.thread (s.readings e.thread ++ [t]) }
          else none
      | _, _ => none
  | .ends how => (lockStep config s.sys ⟨e.thread, .ends how⟩).map fun sys => { s with sys }

/-- The step of `Httpe.Breaker.Lock` that a step makes; a section is run
when it ends, with its first and its last reading of the clock. -/
def lockEvent (s : AccessSystem τ β) (e : AccessEvent τ β) : Option (LockEvent τ β) :=
  match e.op with
  | .call b => some ⟨e.thread, .call b⟩
  | .acquire => some ⟨e.thread, .acquire⟩
  | .access =>
      match s.code e.thread with
      | .leave _ => some ⟨e.thread, .locked (s.firstReading e.thread) (s.lastReading e.thread)⟩
      | _ => none
  | .clock _ => none
  | .ends how => some ⟨e.thread, .ends how⟩

omit [DecidableEq τ] [DecidableEq β] in
theorem thread_of_lockEvent {s : AccessSystem τ β} {e : AccessEvent τ β} {f : LockEvent τ β}
    (h : lockEvent s e = some f) : f.thread = e.thread := by
  unfold lockEvent at h
  split at h
  · cases h
    rfl
  · cases h
    rfl
  · split at h
    · cases h
      rfl
    · cases h
  · cases h
  · cases h
    rfl

/-! ## Every step -/

variable {config : β → BreakerConfig} {s s' : LockSystem τ β} {i j : τ} {b : β}

section Frames

variable {f : Frame β} {stack : List (Frame β)}

omit [DecidableEq β] in
theorem Frame.inSection_of_userCode (h : f.userCode.isSome = true) : f.inSection = none := by
  cases f with
  | entering b => rfl
  | prologue b => cases h
  | action b => rfl
  | leaving b outcome => rfl
  | recording b outcome => cases h
  | fallback b => rfl
  | openFallback b => rfl

omit [DecidableEq β] in
theorem Frame.holds_of_inSection (h : f.inSection = some b) : f.holds = some b := by
  cases f with
  | entering b => cases h
  | prologue b => exact h
  | action b => cases h
  | leaving b outcome => cases h
  | recording b outcome => exact h
  | fallback b => cases h
  | openFallback b => cases h

omit [DecidableEq β] in
/-- A frame that gets its lock enters a section. -/
theorem Frame.inSection_acquired (h : f.waitsFor = some b) :
    f.inSection = none ∧ f.acquired.inSection = some b := by
  cases f with
  | entering b => exact ⟨rfl, h⟩
  | prologue b => cases h
  | action b => cases h
  | leaving b outcome => exact ⟨rfl, h⟩
  | recording b outcome => cases h
  | fallback b => cases h
  | openFallback b => cases h

end Frames

/-- The lock is with the thread that is in the section. -/
theorem LockInv.lock_of_inSection (h : LockInv s) (hi : s.inSection i = some b) :
    s.lock b = some i := by
  obtain ⟨f, hhead, hf⟩ := Option.bind_eq_some_iff.mp hi
  obtain ⟨rest, hstack⟩ := List.head?_eq_some_iff.mp hhead
  have hheld := h.held i b
  rw [hstack, holdCount_cons, Frame.holds_of_inSection hf, if_pos rfl] at hheld
  by_contra hother
  rw [if_neg hother] at hheld
  omega

/-- No two threads are in sections of one breaker. -/
theorem LockInv.alone (h : LockInv s) (hi : s.inSection i = some b) (hj : s.inSection j = some b) :
    i = j := by
  have hlock := h.lock_of_inSection hi
  rw [h.lock_of_inSection hj] at hlock
  exact (Option.some.inj hlock).symm

/-- Below the top of a stack there is no section. -/
theorem LockInv.inSection_of_tail (h : LockInv s) {f : Frame β} {rest : List (Frame β)}
    (hstack : s.stack i = f :: rest) : rest.head?.bind Frame.inSection = none := by
  have hsuspended := h.suspended i
  rw [hstack, List.tail_cons] at hsuspended
  cases rest with
  | nil => rfl
  | cons g rest => exact Frame.inSection_of_userCode (hsuspended g List.mem_cons_self)

section Breakers

variable {shadow : β → CircuitBreaker} {f : LockEvent τ β} {stack : List (Frame β)}

/-- The same locks and stacks over other breakers. -/
def LockSystem.withBreakers (s : LockSystem τ β) (shadow : β → CircuitBreaker) : LockSystem τ β :=
  { s with breaker := shadow }

theorem lockInv_withBreakers : LockInv (s.withBreakers shadow) ↔ LockInv s :=
  ⟨fun h => ⟨h.suspended, h.held⟩, fun h => ⟨h.suspended, h.held⟩⟩

theorem LockInv.step_withBreakers {shadow' : β → CircuitBreaker} (h : LockInv s)
    (hlock : lockStep config (s.withBreakers shadow) f = some (s'.withBreakers shadow')) :
    LockInv s' :=
  lockInv_withBreakers.mp ((lockInv_withBreakers.mpr h).step (lockMove_of_step hlock))

/-- A thread's step that touches no breaker and no other thread's stack. -/
structure Keeps (s s' : LockSystem τ β) (i : τ) : Prop where
  breaker : s'.breaker = s.breaker
  stack : ∀ j, j ≠ i → s'.stack j = s.stack j

omit [DecidableEq τ] [DecidableEq β] in
theorem Keeps.inSection (h : Keeps s s' i) (hj : j ≠ i) : s'.inSection j = s.inSection j := by
  rw [LockSystem.inSection, h.stack j hj, LockSystem.inSection]

omit [DecidableEq β] in
theorem keeps_update {lock : β → Option τ} :
    Keeps s ⟨s.breaker, lock, Function.update s.stack i stack⟩ i :=
  ⟨rfl, fun _ hj => Function.update_of_ne hj _ _⟩

omit [DecidableEq τ] [DecidableEq β] in
theorem LockSystem.inSection_of_stack {f : Frame β} {rest : List (Frame β)}
    (h : s.stack i = f :: rest) : s.inSection i = f.inSection := by
  simp [LockSystem.inSection, h]

omit [DecidableEq β] in
theorem LockSystem.inSection_update {lock : β → Option τ} :
    LockSystem.inSection ⟨shadow, lock, Function.update s.stack i stack⟩ i
      = stack.head?.bind Frame.inSection := by
  simp [LockSystem.inSection]

theorem lockStep_call (h : lockStep config s ⟨i, .call b⟩ = some s') :
    Keeps s s' i ∧ s.inSection i = none ∧ s'.inSection i = none ∧ ∀ shadow,
      lockStep config (s.withBreakers shadow) ⟨i, .call b⟩ = some (s'.withBreakers shadow) := by
  simp only [lockStep] at h
  split_ifs at h with huser
  cases h
  refine ⟨keeps_update, ?_, ?_, fun shadow => if_pos huser⟩
  · unfold LockSystem.inSection
    cases hhead : (s.stack i).head? with
    | none => rfl
    | some f =>
        rw [hhead] at huser
        exact Frame.inSection_of_userCode huser
  · exact LockSystem.inSection_update

theorem lockStep_acquire (h : lockStep config s ⟨i, .acquire⟩ = some s') :
    Keeps s s' i ∧ s.inSection i = none ∧
      (∃ f b, (s'.stack i).head? = some f ∧ f.inSection = some b ∧ s.lock b = none) ∧
      ∀ shadow,
        lockStep config (s.withBreakers shadow) ⟨i, .acquire⟩ = some (s'.withBreakers shadow) := by
  simp only [lockStep] at h
  cases hstack : s.stack i with
  | nil =>
      rw [hstack] at h
      cases h
  | cons f rest =>
      rw [hstack] at h
      obtain ⟨b, hwaits, hacquired⟩ := Option.bind_eq_some_iff.mp h
      split_ifs at hacquired with hfree
      cases hacquired
      obtain ⟨hbefore, hafter⟩ := Frame.inSection_acquired hwaits
      refine ⟨keeps_update, (LockSystem.inSection_of_stack hstack).trans hbefore,
        ⟨f.acquired, b, by simp, hafter, hfree⟩, fun shadow => ?_⟩
      have hstack' : (s.withBreakers shadow).stack i = f :: rest := hstack
      simp only [lockStep, hstack', hwaits, Option.bind_some]
      exact if_pos hfree

theorem lockStep_ends {how : UserEnd} (hinv : LockInv s)
    (h : lockStep config s ⟨i, .ends how⟩ = some s') :
    Keeps s s' i ∧ s.inSection i = none ∧ s'.inSection i = none ∧ ∀ shadow,
      lockStep config (s.withBreakers shadow) ⟨i, .ends how⟩ = some (s'.withBreakers shadow) := by
  have hends : ∀ shadow, lockStep config (s.withBreakers shadow) ⟨i, .ends how⟩
      = endsStep (s.withBreakers shadow) i how (s.stack i) := fun _ => rfl
  simp only [lockStep] at h
  simp only [hends]
  generalize hstack : s.stack i = old at h
  unfold endsStep at h
  split at h
  · rename_i b rest
    have hbefore : s.inSection i = none := LockSystem.inSection_of_stack hstack
    cases how with
    | returned =>
        cases h
        exact ⟨keeps_update, hbefore, LockSystem.inSection_update, fun _ => rfl⟩
    | raised =>
        cases h
        exact ⟨keeps_update, hbefore, LockSystem.inSection_update, fun _ => rfl⟩
    | interrupted =>
        cases h
        exact ⟨keeps_update, hbefore,
          LockSystem.inSection_update.trans (hinv.inSection_of_tail hstack), fun _ => rfl⟩
  · cases h
    exact ⟨keeps_update, LockSystem.inSection_of_stack hstack,
      LockSystem.inSection_update.trans (hinv.inSection_of_tail hstack), fun _ => rfl⟩
  · cases h
    exact ⟨keeps_update, LockSystem.inSection_of_stack hstack,
      LockSystem.inSection_update.trans (hinv.inSection_of_tail hstack), fun _ => rfl⟩
  · cases h

/-- A thread leaves the section it is in for a frame outside, or for
none. -/
theorem leaveStep_cases {refused : Bool} (hinv : LockInv s)
    (h : leaveStep config s i refused (s.stack i) = some s') :
    Keeps s s' i ∧ s'.inSection i = none ∧
      ∃ f rest b, s.stack i = f :: rest ∧ f.inSection = some b := by
  generalize hstack : s.stack i = old at h
  unfold leaveStep at h
  split at h
  · rename_i b rest
    have hrest := hinv.inSection_of_tail hstack
    refine and_assoc.mp ⟨?_, _, _, b, rfl, rfl⟩
    split_ifs at h
    · split at h
      · cases h
        exact ⟨keeps_update, LockSystem.inSection_update⟩
      · cases h
        exact ⟨keeps_update, LockSystem.inSection_update.trans hrest⟩
    · cases h
      exact ⟨keeps_update, LockSystem.inSection_update⟩
  · rename_i b outcome rest
    have hrest := hinv.inSection_of_tail hstack
    refine and_assoc.mp ⟨?_, _, _, b, rfl, rfl⟩
    split at h
    · cases h
      exact ⟨keeps_update, LockSystem.inSection_update⟩
    · cases h
      exact ⟨keeps_update, LockSystem.inSection_update.trans hrest⟩
  · cases h

/-- It is the section in one step on a breaker that takes its whole code to
where the thread has come. -/
theorem lockStep_of_leave {refused : Bool} {cb : CircuitBreaker} {ts : List ℚ} {f : Frame β}
    {rest : List (Frame β)} (hstack : s.stack i = f :: rest) (hb : f.inSection = some b)
    (hleave : leaveStep config s i refused (s.stack i) = some s')
    (hrun : (f.sectionCode config).run (shadow b) ts = some (refused, cb)) (now : ℚ) :
    lockStep config (s.withBreakers shadow) ⟨i, .locked (ts.head?.getD now) (ts.getLast?.getD now)⟩
      = some (s'.withBreakers (Function.update shadow b cb)) := by
  show lockedStep config (s.withBreakers shadow) i _ _ (s.stack i) = _
  rw [hstack] at hleave ⊢
  cases f with
  | prologue b' =>
      cases hb
      have hprologue : ((s.withBreakers shadow).breaker b).prologue (config b)
          (ts.head?.getD now) (ts.getLast?.getD now) = (!refused, cb) :=
        SectionCode.prologue_of_run hrun now
      simp only [lockedStep, hprologue]
      cases refused with
      | false =>
          cases hleave
          rfl
      | true =>
          simp only [leaveStep, if_true] at hleave
          simp only [Bool.not_true]
          cases hend : (config b).handleOpenCircuit with
          | fallback =>
              rw [hend] at hleave
              cases hleave
              rfl
          | result | reraised | circuitOpen message =>
              rw [hend] at hleave
              cases hleave
              rfl
  | recording b' outcome =>
      cases hb
      have hrecord : ((s.withBreakers shadow).breaker b).record (config b)
          (ts.getLast?.getD now) outcome = cb := SectionCode.record_of_run hrun now
      simp only [leaveStep] at hleave
      simp only [lockedStep, hrecord]
      cases hend : (config b).afterOutcome outcome with
      | fallback =>
          rw [hend] at hleave
          cases hleave
          rfl
      | result | reraised | circuitOpen message =>
          rw [hend] at hleave
          cases hleave
          rfl
  | entering b' => cases hb
  | action b' => cases hb
  | leaving b' outcome => cases hb
  | fallback b' => cases hb
  | openFallback b' => cases hb

end Breakers

section Accesses

variable {s s' : AccessSystem τ β} {e : AccessEvent τ β} {shadow : β → CircuitBreaker}

/-- What a step does, by where the thread is. -/
inductive AccessMove (config : β → BreakerConfig) (s : AccessSystem τ β) (e : AccessEvent τ β) :
    AccessSystem τ β → Prop
  | outside {f : LockEvent τ β} {sys : LockSystem τ β} (hevent : lockEvent s e = some f)
      (hkeeps : Keeps s.sys sys e.thread) (hbefore : s.sys.inSection e.thread = none)
      (hafter : sys.inSection e.thread = none)
      (hshadow : ∀ shadow, lockStep config (s.sys.withBreakers shadow) f
        = some (sys.withBreakers shadow)) :
      AccessMove config s e { s with sys }
  | entered {f : LockEvent τ β} {sys : LockSystem τ β} {g : Frame β} {b : β}
      (hevent : lockEvent s e = some f) (hkeeps : Keeps s.sys sys e.thread)
      (hbefore : s.sys.inSection e.thread = none)
      (hhead : (sys.stack e.thread).head? = some g) (hb : g.inSection = some b)
      (hfree : s.sys.lock b = none)
      (hshadow : ∀ shadow, lockStep config (s.sys.withBreakers shadow) f
        = some (sys.withBreakers shadow)) :
      AccessMove config s e
        { s with
          sys
          code := Function.update s.code e.thread (g.sectionCode config)
          readings := Function.update s.readings e.thread [] }
  /-- What is read, assigned or told by the clock goes into the rest of the
  code. -/
  | accessed {s' : AccessSystem τ β} {b : β} {cb : CircuitBreaker} {next : SectionCode}
      (new : List ℚ) (hevent : lockEvent s e = none)
      (hsection : s.sys.inSection e.thread = some b) (hsys : s'.sys = s.sys.setBreaker b cb)
      (hcode : s'.code = Function.update s.code e.thread next)
      (hreadings : s'.readings
        = Function.update s.readings e.thread (s.readings e.thread ++ new))
      (hnow : s.now ≤ s'.now) (hnew : new = [] ∨ new = [s'.now])
      (hrun : ∀ ts, next.run cb ts = (s.code e.thread).run (s.sys.breaker b) (new ++ ts)) :
      AccessMove config s e s'
  | left {sys : LockSystem τ β} {refused : Bool} {f : Frame β} {rest : List (Frame β)} {b : β}
      (hevent : lockEvent s e
        = some ⟨e.thread, .locked (s.firstReading e.thread) (s.lastReading e.thread)⟩)
      (hstack : s.sys.stack e.thread = f :: rest) (hb : f.inSection = some b)
      (hcode : s.code e.thread = .leave refused)
      (hleave : leaveStep config s.sys e.thread refused (s.sys.stack e.thread) = some sys)
      (hkeeps : Keeps s.sys sys e.thread) (hafter : sys.inSection e.thread = none) :
      AccessMove config s e { s with sys }

theorem accessMove_of_step (hinv : LockInv s.sys) (h : accessStep config s e = some s') :
    AccessMove config s e s' := by
  obtain ⟨i, op⟩ := e
  cases op with
  | call b =>
      obtain ⟨sys, hlock, rfl⟩ := Option.map_eq_some_iff.mp h
      obtain ⟨hkeeps, hbefore, hafter, hshadow⟩ := lockStep_call hlock
      exact .outside rfl hkeeps hbefore hafter hshadow
  | ends how =>
      obtain ⟨sys, hlock, rfl⟩ := Option.map_eq_some_iff.mp h
      obtain ⟨hkeeps, hbefore, hafter, hshadow⟩ := lockStep_ends hinv hlock
      exact .outside rfl hkeeps hbefore hafter hshadow
  | acquire =>
      obtain ⟨sys, hlock, hentered⟩ := Option.bind_eq_some_iff.mp h
      obtain ⟨hkeeps, hbefore, ⟨f, b, hhead, hb, hfree⟩, hshadow⟩ := lockStep_acquire hlock
      obtain ⟨g, hhead', rfl⟩ := Option.map_eq_some_iff.mp hentered
      obtain rfl : f = g := Option.some.inj (hhead.symm.trans hhead')
      exact .entered rfl hkeeps hbefore hhead hb hfree hshadow
  | access =>
      obtain ⟨b, hsection, haccess⟩ := Option.bind_eq_some_iff.mp h
      have hreadings : s.readings = Function.update s.readings i (s.readings i ++ []) := by
        rw [List.append_nil, Function.update_eq_self]
      simp only at haccess
      cases hcode : s.code i with
      | leave refused =>
          rw [hcode] at haccess
          obtain ⟨sys, hleave, rfl⟩ := Option.map_eq_some_iff.mp haccess
          obtain ⟨hkeeps, hafter, f, rest, b', hstack, hb⟩ := leaveStep_cases hinv hleave
          exact .left (by simp [lockEvent, hcode]) hstack hb hcode hleave hkeeps hafter
      | read a next =>
          rw [hcode] at haccess
          cases haccess
          have hsys : s.sys = s.sys.setBreaker b (s.sys.breaker b) := by
            rw [LockSystem.setBreaker, Function.update_eq_self]
          refine .accessed [] (by simp [lockEvent, hcode]) hsection hsys rfl hreadings le_rfl
            (.inl rfl) fun ts => ?_
          rw [hcode]
          rfl
      | write a v next =>
          rw [hcode] at haccess
          cases haccess
          refine .accessed [] (by simp [lockEvent, hcode]) hsection rfl rfl hreadings le_rfl
            (.inl rfl) fun ts => ?_
          rw [hcode]
          rfl
      | clock next =>
          rw [hcode] at haccess
          cases haccess
  | clock t =>
      simp only [accessStep] at h
      split at h
      · rename_i b next hsection hcode
        split_ifs at h with ht
        cases h
        have hsys : s.sys = s.sys.setBreaker b (s.sys.breaker b) := by
          rw [LockSystem.setBreaker, Function.update_eq_self]
        refine .accessed [t] rfl hsection hsys rfl rfl ht (.inr rfl) fun ts => ?_
        rw [hcode]
        rfl
      · cases h

end Accesses

end Httpe.Breaker
