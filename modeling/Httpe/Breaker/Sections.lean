/-
Httpe.Breaker.Sections — the lock makes the sections indivisible.

`Httpe.Breaker.CircuitBreaker` takes each locked section of a breaker as
one step of one call, and knows of no other breaker, of no thread and of
no nesting. Here that is derived from `Httpe.Breaker.Accesses`, where
threads wait for locks, touch the attributes one at a time, read the clock
in between, run the caller's code between and sometimes inside the
sections, and call `execute` again in actions and fallbacks. Seen from one
breaker, every run of it is a run of the other, in which a section stands
where it ended.

By `Shadows.step` a run is one of `Httpe.Breaker.Lock`. `SectionMove` says
what a step of that does to the breaker and to the number of calls that
owe it an outcome, and `Named` gives each of these calls a number.
-/
import Httpe.Breaker.Shadow
import Httpe.Lib.Refinement

namespace Httpe.Breaker

variable {τ β : Type*} [DecidableEq τ] [DecidableEq β]

omit [DecidableEq τ] in
/-- The section on breaker `b` that a step runs, with its clock readings. -/
def sectionOf (b : β) (s : LockSystem τ β) (e : LockEvent τ β) : Option (CallOp × ℚ × ℚ) :=
  match e.op, s.stack e.thread with
  | .locked time later, .prologue b' :: _ =>
      if b' = b then some (.prologue, time, later) else none
  | .locked time later, .recording b' outcome :: _ =>
      if b' = b then some (.record outcome, time, later) else none
  | _, _ => none

/-- The frame is of a call that was admitted by `b` and owes it an outcome. -/
def Frame.owes (b : β) : Frame β → Bool
  | .action b' | .leaving b' _ | .recording b' _ => decide (b' = b)
  | .entering _ | .prologue _ | .fallback _ | .openFallback _ => false

/-- How many calls of a stack owe `b` an outcome. -/
def owing (b : β) (stack : List (Frame β)) : ℕ := stack.countP (Frame.owes b)

/-- What a step of a thread does to breaker `b`; `stack` is the thread's
new stack. -/
inductive SectionMove (config : β → BreakerConfig) (b : β) (s : LockSystem τ β)
    (e : LockEvent τ β) (s' : LockSystem τ β) (stack : List (Frame β)) : Prop
  | outside (hbreaker : s'.breaker b = s.breaker b)
      (hcount : owing b stack = owing b (s.stack e.thread)) (hsection : sectionOf b s e = none)
  /-- The action was interrupted: nothing is recorded. -/
  | abandoned (hbreaker : s'.breaker b = s.breaker b)
      (hcount : owing b stack + 1 = owing b (s.stack e.thread)) (hsection : sectionOf b s e = none)
  | admitted {time later : ℚ} (hop : e.op = .locked time later)
      (hprologue : (s.breaker b).prologue (config b) time later = (true, s'.breaker b))
      (hcount : owing b stack = owing b (s.stack e.thread) + 1)
      (hsection : sectionOf b s e = some (.prologue, time, later))
  | refused {time later : ℚ} (hop : e.op = .locked time later)
      (hprologue : (s.breaker b).prologue (config b) time later = (false, s'.breaker b))
      (hcount : owing b stack = owing b (s.stack e.thread))
      (hsection : sectionOf b s e = some (.prologue, time, later))
  | recorded {time later : ℚ} {outcome : Outcome} (hop : e.op = .locked time later)
      (hrecord : s'.breaker b = (s.breaker b).record (config b) later outcome)
      (hcount : owing b stack + 1 = owing b (s.stack e.thread))
      (hsection : sectionOf b s e = some (.record outcome, time, later))

variable {config : β → BreakerConfig} {b b' : β} {s s' : LockSystem τ β} {e : LockEvent τ β}

section Breaker

variable {i : τ} {stack : List (Frame β)} {holder : Option τ} {cb : CircuitBreaker}

omit [DecidableEq β] in
@[simp] theorem LockSystem.setStack_breaker : (s.setStack i stack).breaker = s.breaker := rfl

omit [DecidableEq τ] in
@[simp] theorem LockSystem.setLock_breaker : (s.setLock b holder).breaker = s.breaker := rfl

omit [DecidableEq τ] in
@[simp] theorem LockSystem.setBreaker_breaker : (s.setBreaker b cb).breaker b = cb :=
  Function.update_self ..

omit [DecidableEq τ] in
@[simp] theorem LockSystem.setBreaker_breaker_of_ne (h : b ≠ b') :
    (s.setBreaker b' cb).breaker b = s.breaker b :=
  Function.update_of_ne h ..

omit [DecidableEq τ] in
@[simp] theorem LockSystem.setBreaker_stack : (s.setBreaker b cb).stack = s.stack := rfl

end Breaker

omit [DecidableEq τ] in
theorem owing_cons (f : Frame β) (rest : List (Frame β)) :
    owing b (f :: rest) = owing b rest + if f.owes b then 1 else 0 :=
  List.countP_cons

omit [DecidableEq τ] in
/-- A frame that gets the lock it waits for owes what it did. -/
theorem Frame.owes_acquired (f : Frame β) : f.acquired.owes b = f.owes b := by
  cases f <;> rfl

theorem sectionMove_of_locked {i : τ} {time later : ℚ} (he : e = ⟨i, .locked time later⟩)
    (h : lockedStep config s i time later (s.stack i) = some s') :
    ∃ stack, s'.stack = Function.update s.stack i stack ∧ SectionMove config b s e s' stack := by
  subst he
  generalize hstack : s.stack i = old at h
  unfold lockedStep at h
  split at h
  · rename_i b' rest
    split at h
    · rename_i cb hprologue
      cases h
      refine ⟨_, rfl, ?_⟩
      by_cases hb : b' = b
      · subst hb
        exact .admitted rfl (by simpa using hprologue) (by simp [hstack, owing_cons, Frame.owes])
          (by simp [sectionOf, hstack])
      · exact .outside (by simp [Ne.symm hb]) (by simp [hstack, owing_cons, Frame.owes, hb])
          (by simp [sectionOf, hstack, hb])
    · rename_i cb hprologue
      have hsection : sectionOf b s ⟨i, .locked time later⟩
          = if b' = b then some (.prologue, time, later) else none := by
        simp [sectionOf, hstack]
      -- with or without a fallback, the refused call owes nothing
      have hrefused : ∀ s' stack, s'.breaker = (s.setBreaker b' cb).breaker →
          owing b stack = owing b rest →
          SectionMove config b s ⟨i, .locked time later⟩ s' stack := by
        intro s' stack hbreaker hcount
        have hsame : owing b stack = owing b (s.stack i) := by
          rw [hcount, hstack, owing_cons]
          rfl
        by_cases hb : b' = b
        · subst hb
          rw [if_pos rfl] at hsection
          exact .refused rfl (by simpa [hbreaker] using hprologue) hsame hsection
        · rw [if_neg hb] at hsection
          exact .outside (by simp [hbreaker, Ne.symm hb]) hsame hsection
      split at h
      · cases h
        exact ⟨_, rfl, hrefused _ _ rfl (by simp [owing_cons, Frame.owes])⟩
      · cases h
        exact ⟨_, rfl, hrefused _ _ rfl rfl⟩
  · rename_i b' outcome rest
    have hsection : sectionOf b s ⟨i, .locked time later⟩
        = if b' = b then some (.record outcome, time, later) else none := by
      simp [sectionOf, hstack]
    -- with or without a fallback, the call owes nothing any more
    have hrecorded : ∀ s' stack, s'.breaker = (s.setBreaker b'
          ((s.breaker b').record (config b') later outcome)).breaker →
        owing b stack = owing b rest →
        SectionMove config b s ⟨i, .locked time later⟩ s' stack := by
      intro s' stack hbreaker hcount
      by_cases hb : b' = b
      · subst hb
        rw [if_pos rfl] at hsection
        exact .recorded rfl (by simp [hbreaker]) (by simp [hcount, hstack, owing_cons, Frame.owes])
          hsection
      · rw [if_neg hb] at hsection
        exact .outside (by simp [hbreaker, Ne.symm hb])
          (by simp [hcount, hstack, owing_cons, Frame.owes, hb]) hsection
    split at h
    · cases h
      exact ⟨_, rfl, hrecorded _ _ rfl (by simp [owing_cons, Frame.owes])⟩
    · cases h
      exact ⟨_, rfl, hrecorded _ _ rfl rfl⟩
  · cases h

theorem sectionMove_of_ends {i : τ} {how : UserEnd} (he : e = ⟨i, .ends how⟩)
    (h : endsStep s i how (s.stack i) = some s') :
    ∃ stack, s'.stack = Function.update s.stack i stack ∧ SectionMove config b s e s' stack := by
  subst he
  have hsection : sectionOf b s ⟨i, .ends how⟩ = none := rfl
  generalize hstack : s.stack i = old at h
  unfold endsStep at h
  split at h
  · rename_i b' rest
    cases how with
    | returned =>
        cases h
        exact ⟨_, rfl, .outside rfl (by simp [hstack, owing_cons, Frame.owes]) hsection⟩
    | raised =>
        cases h
        exact ⟨_, rfl, .outside rfl (by simp [hstack, owing_cons, Frame.owes]) hsection⟩
    | interrupted =>
        cases h
        refine ⟨_, rfl, ?_⟩
        by_cases hb : b' = b
        · exact .abandoned rfl (by simp [hstack, owing_cons, Frame.owes, hb]) hsection
        · exact .outside rfl (by simp [hstack, owing_cons, Frame.owes, hb]) hsection
  · cases h
    exact ⟨_, rfl, .outside rfl (by simp [hstack, owing_cons, Frame.owes]) hsection⟩
  · cases h
    exact ⟨_, rfl, .outside rfl (by simp [hstack, owing_cons, Frame.owes]) hsection⟩
  · cases h

theorem sectionMove_of_step (h : lockStep config s e = some s') :
    ∃ stack, s'.stack = Function.update s.stack e.thread stack ∧
      SectionMove config b s e s' stack := by
  obtain ⟨i, op⟩ := e
  cases op with
  | call b' =>
      simp only [lockStep] at h
      split_ifs at h
      cases h
      exact ⟨_, rfl, .outside rfl (by simp [owing_cons, Frame.owes]) rfl⟩
  | acquire =>
      simp only [lockStep] at h
      cases hstack : s.stack i with
      | nil => simp [hstack] at h
      | cons f rest =>
          rw [hstack] at h
          obtain ⟨b', -, hacquired⟩ := Option.bind_eq_some_iff.mp h
          split_ifs at hacquired
          cases hacquired
          exact ⟨_, rfl, .outside rfl (by simp [hstack, owing_cons, Frame.owes_acquired]) rfl⟩
  | locked time later => exact sectionMove_of_locked rfl h
  | ends how => exact sectionMove_of_ends rfl h

/-! ## Numbers for the calls -/

/-- Each call that owes `b` an outcome has a number of its own, and is
running under it. -/
structure Named (b : β) (frames : τ → List (Frame β)) (pc : ℕ → CallPc) (names : τ → List ℕ) :
    Prop where
  length : ∀ i, (names i).length = owing b (frames i)
  running : ∀ i, ∀ n ∈ names i, pc n = .running
  nodup : ∀ i, (names i).Nodup
  apart : ∀ i j, i ≠ j → ∀ n ∈ names i, n ∉ names j

section Names

variable {frames : τ → List (Frame β)} {pc : ℕ → CallPc} {names : τ → List ℕ} {i : τ}
  {stack : List (Frame β)} {n : ℕ}

theorem Named.keep (h : Named b frames pc names) (hcount : owing b stack = owing b (frames i)) :
    Named b (Function.update frames i stack) pc names := by
  constructor
  · intro j
    rw [h.length j]
    by_cases hj : j = i
    · rw [hj, Function.update_self, hcount]
    · rw [Function.update_of_ne hj]
  · exact h.running
  · exact h.nodup
  · exact h.apart

omit [DecidableEq τ] in
/-- A number no call has may be used up. -/
theorem Named.spend (h : Named b frames pc names) (hn : ∀ j, n ∉ names j) (after : CallPc) :
    Named b frames (Function.update pc n after) names := by
  constructor
  · exact h.length
  · intro j k hk
    have hne : k ≠ n := fun heq => hn j (heq ▸ hk)
    rw [Function.update_of_ne hne]
    exact h.running j k hk
  · exact h.nodup
  · exact h.apart

omit [DecidableEq τ] in
theorem Named.not_mem_of_entry (h : Named b frames pc names) (hn : pc n = .entry) (j : τ) :
    n ∉ names j := by
  intro hmem
  have hrunning := h.running j n hmem
  rw [hn] at hrunning
  cases hrunning

/-- A call is admitted under a new number. -/
theorem Named.add (h : Named b frames pc names) (hn : pc n = .entry)
    (hcount : owing b stack = owing b (frames i) + 1) :
    Named b (Function.update frames i stack) (Function.update pc n .running)
      (Function.update names i (n :: names i)) := by
  have hnew : ∀ j, n ∉ names j := h.not_mem_of_entry hn
  have hspent := h.spend hnew .running
  constructor
  · intro j
    by_cases hj : j = i
    · subst hj
      simp [hcount, h.length]
    · simp [hj, h.length]
  · intro j k hk
    by_cases hj : j = i
    · subst hj
      rw [Function.update_self] at hk
      rcases List.mem_cons.mp hk with rfl | hk
      · exact Function.update_self ..
      · exact hspent.running j k hk
    · rw [Function.update_of_ne hj] at hk
      exact hspent.running j k hk
  · intro j
    by_cases hj : j = i
    · subst hj
      rw [Function.update_self]
      exact List.nodup_cons.mpr ⟨hnew j, h.nodup j⟩
    · rw [Function.update_of_ne hj]
      exact h.nodup j
  · intro j k hjk l hl
    by_cases hj : j = i
    · subst hj
      rw [Function.update_of_ne (Ne.symm hjk)]
      rw [Function.update_self] at hl
      rcases List.mem_cons.mp hl with rfl | hl
      · exact hnew k
      · exact h.apart j k hjk l hl
    · rw [Function.update_of_ne hj] at hl
      by_cases hk : k = i
      · subst hk
        rw [Function.update_self]
        intro hmem
        rcases List.mem_cons.mp hmem with rfl | hmem
        · exact hnew j hl
        · exact h.apart j k hjk l hl hmem
      · rw [Function.update_of_ne hk]
        exact h.apart j k hjk l hl

/-- A call that owes an outcome leaves its stack; its number is free. -/
theorem Named.drop (h : Named b frames pc names)
    (hcount : owing b stack + 1 = owing b (frames i)) :
    ∃ n, pc n = .running ∧ ∃ names', Named b (Function.update frames i stack) pc names' ∧
      ∀ j, n ∉ names' j := by
  have hlength := h.length i
  cases hnames : names i with
  | nil =>
      rw [hnames] at hlength
      simp at hlength
      omega
  | cons n rest =>
      have hnodup := h.nodup i
      rw [hnames] at hlength hnodup
      have hsub : ∀ j, ∀ k ∈ Function.update names i rest j, k ∈ names j := by
        intro j k hk
        by_cases hj : j = i
        · subst hj
          rw [Function.update_self] at hk
          rw [hnames]
          exact List.mem_cons_of_mem n hk
        · rwa [Function.update_of_ne hj] at hk
      refine ⟨n, h.running i n (by simp [hnames]), Function.update names i rest, ?_, ?_⟩
      · constructor
        · intro j
          by_cases hj : j = i
          · subst hj
            simp at hlength ⊢
            omega
          · simp [hj, h.length]
        · exact fun j k hk => h.running j k (hsub j k hk)
        · intro j
          by_cases hj : j = i
          · subst hj
            rw [Function.update_self]
            exact (List.nodup_cons.mp hnodup).2
          · rw [Function.update_of_ne hj]
            exact h.nodup j
        · exact fun j k hjk l hl hmem => h.apart j k hjk l (hsub j l hl) (hsub k l hmem)
      · intro j hmem
        by_cases hj : j = i
        · subst hj
          rw [Function.update_self] at hmem
          exact (List.nodup_cons.mp hnodup).1 hmem
        · rw [Function.update_of_ne hj] at hmem
          exact h.apart i j (Ne.symm hj) n (by simp [hnames]) hmem

end Names

/-! ## One breaker -/

/-- The one-breaker system is where breaker `b` is: the same breaker, a
number for each call that owes it an outcome, and numbers left. -/
structure Projects (b : β) (s : LockSystem τ β) (a : BreakerSystem ℕ) : Prop where
  breaker : a.breaker = s.breaker b
  fresh : ∃ bound, ∀ n, bound ≤ n → a.pc n = .entry
  named : ∃ names, Named b s.stack a.pc names

theorem exists_fresh_update {pc : ℕ → CallPc} (h : ∃ bound, ∀ n, bound ≤ n → pc n = .entry)
    (k : ℕ) (after : CallPc) :
    ∃ bound, ∀ n, bound ≤ n → Function.update pc k after n = .entry := by
  obtain ⟨bound, hbound⟩ := h
  refine ⟨max bound (k + 1), fun n hn => ?_⟩
  have hne : n ≠ k := by omega
  rw [Function.update_of_ne hne]
  exact hbound n (by omega)

/-- A step of a thread is one section of breaker `b`, or shows nothing of
it. -/
theorem Projects.step {a : BreakerSystem ℕ} (h : Projects b s a)
    (hstep : lockStep config s e = some s') :
    match sectionOf b s e with
    | none => Projects b s' a
    | some (op, time, later) => a.now ≤ time → time ≤ later →
        ∃ n a', breakerStep (config b) a ⟨n, op, time, later⟩ = some a' ∧ a'.now = later ∧
          Projects b s' a' := by
  obtain ⟨stack, hstack, hmove⟩ := sectionMove_of_step (b := b) hstep
  obtain ⟨names, hnames⟩ := h.named
  obtain ⟨bound, hbound⟩ := h.fresh
  have hentry : a.pc bound = .entry := hbound bound le_rfl
  cases hmove with
  | outside hbreaker hcount hsection =>
      rw [hsection]
      refine ⟨h.breaker.trans hbreaker.symm, ⟨bound, hbound⟩, names, ?_⟩
      rw [hstack]
      exact hnames.keep hcount
  | abandoned hbreaker hcount hsection =>
      rw [hsection]
      obtain ⟨-, -, names', hnames', -⟩ := hnames.drop hcount
      refine ⟨h.breaker.trans hbreaker.symm, ⟨bound, hbound⟩, names', ?_⟩
      rw [hstack]
      exact hnames'
  | @admitted time later hop hprologue hcount hsection =>
      rw [hsection]
      intro htime hlater
      refine ⟨bound, ⟨s'.breaker b, later, Function.update a.pc bound .running⟩, ?_, rfl, ?_⟩
      · simp [breakerStep, htime, hlater, hentry, h.breaker, hprologue]
      · refine ⟨rfl, exists_fresh_update ⟨bound, hbound⟩ bound .running, ?_⟩
        rw [hstack]
        exact ⟨_, hnames.add hentry hcount⟩
  | @refused time later hop hprologue hcount hsection =>
      rw [hsection]
      intro htime hlater
      refine ⟨bound, ⟨s'.breaker b, later,
        Function.update a.pc bound (.done (config b).handleOpenCircuit)⟩, ?_, rfl, ?_⟩
      · simp [breakerStep, htime, hlater, hentry, h.breaker, hprologue]
      · refine ⟨rfl, exists_fresh_update ⟨bound, hbound⟩ bound _, ?_⟩
        rw [hstack]
        exact ⟨names, (hnames.keep hcount).spend (hnames.not_mem_of_entry hentry) _⟩
  | @recorded time later outcome hop hrecord hcount hsection =>
      rw [hsection]
      intro htime hlater
      obtain ⟨n, hrunning, names', hnames', hfree⟩ := hnames.drop hcount
      refine ⟨n, ⟨s'.breaker b, later,
        Function.update a.pc n (.done ((config b).afterOutcome outcome))⟩, ?_, rfl, ?_⟩
      · simp [breakerStep, htime, hlater, hrunning, h.breaker, hrecord]
      · refine ⟨rfl, exists_fresh_update ⟨bound, hbound⟩ n _, ?_⟩
        rw [hstack]
        exact ⟨names', hnames'.spend hfree _⟩

omit [DecidableEq τ] in
/-- A section of `b` is run by a thread that is in one. -/
theorem inSection_of_sectionOf {shown : CallOp × ℚ × ℚ} (h : sectionOf b s e = some shown) :
    s.inSection e.thread = some b ∧ e.op = .locked shown.2.1 shown.2.2 := by
  unfold sectionOf at h
  split at h
  · rename_i time later b' rest hop hstack
    split_ifs at h with hb
    cases h
    exact ⟨(LockSystem.inSection_of_stack hstack).trans (congrArg some hb), hop⟩
  · rename_i time later b' outcome rest hop hstack
    split_ifs at h with hb
    cases h
    exact ⟨(LockSystem.inSection_of_stack hstack).trans (congrArg some hb), hop⟩
  · cases h

/-- The section of breaker `b` that ends with a step, with its first and
its last reading of the clock. -/
def sectionEnd (b : β) (s : AccessSystem τ β) (e : AccessEvent τ β) : Option (CallOp × ℚ × ℚ) :=
  (lockEvent s e).bind (sectionOf b s.sys)

/-- The one-breaker system is where `b` is when every section is run at its
end, and its clock is not past a section under way. -/
def Follows (config : β → BreakerConfig) (b : β) (s : AccessSystem τ β) (a : BreakerSystem ℕ) :
    Prop :=
  Since b a.now s ∧ ∃ shadow, Shadows config s shadow ∧ Projects b (s.sys.withBreakers shadow) a

theorem section_simulation {start : AccessSystem τ β} (b : β) :
    StutterSimulation (accessStep config) start (breakerStep (config b))
      (fun t => sectionEnd b t.pre t.event) (fun e => (e.op, e.time, e.later))
      (Follows config b) := by
  rintro tr s e s' a - ⟨hsince, shadow, hshadows, hprojects⟩ hstep
  have hnext := hshadows.step hstep
  simp only [sectionEnd]
  cases hevent : lockEvent s e with
  | none =>
      rw [hevent] at hnext
      obtain ⟨hsame, hshadows'⟩ := hnext
      rw [← hsame] at hprojects
      exact ⟨hsince.step hshadows.inv hstep, shadow, hshadows', hprojects⟩
  | some f =>
      rw [hevent] at hnext
      obtain ⟨shadow', hlock, hshadows'⟩ := hnext
      have hmove := hprojects.step hlock
      -- which section it is depends on the stacks alone
      have hstacks : sectionOf b s.sys f = sectionOf b (s.sys.withBreakers shadow) f := rfl
      rw [Option.bind_some, hstacks]
      cases hsection : sectionOf b (s.sys.withBreakers shadow) f with
      | none =>
          rw [hsection] at hmove
          exact ⟨hsince.step hshadows.inv hstep, shadow', hshadows', hmove⟩
      | some shown =>
          obtain ⟨op, time, later⟩ := shown
          rw [hsection] at hmove
          obtain ⟨hthread, hop⟩ := inSection_of_sectionOf hsection
          have hf : f = ⟨e.thread, .locked time later⟩ := by
            rw [← thread_of_lockEvent hevent, ← hop]
          rw [hf] at hevent hthread
          obtain ⟨htime, hlater, hsince'⟩ := hsince.left hshadows.inv hstep hthread hevent
          obtain ⟨n, a', hstep', rfl, hprojects'⟩ := hmove htime hlater
          exact ⟨⟨n, op, time, a'.now⟩, a', rfl, hstep', hsince', shadow', hshadows', hprojects'⟩

/-- **The sections are indivisible.** Any number of threads and breakers,
each with its lock; sections whose every access is a step; actions and
fallbacks that run outside the sections or, for a refused call, inside;
calls nested in them in any way; actions that are interrupted. For every
breaker, the sections that have ended, in the order in which they ended,
are those of a run of the one-breaker system. If no thread is in a section
of the breaker, that run ends with it; and a thread that is in one goes on
as if it had begun with the breaker of that run and met nobody. -/
theorem sections_indivisible {t₀ : ℚ}
    {tr : List (Transition (AccessSystem τ β) (AccessEvent τ β))} {s : AccessSystem τ β}
    (hrun : Run (accessStep config) (.start t₀) tr s) (b : β) :
    ∃ tr' a, Run (breakerStep (ι := ℕ) (config b)) (.start t₀) tr' a ∧
      tr'.map (fun t => (t.event.op, t.event.time, t.event.later))
        = tr.filterMap (fun t => sectionEnd b t.pre t.event) ∧
      ((∀ i, s.sys.inSection i ≠ some b) → s.sys.breaker b = a.breaker) ∧
      ∀ i f, (s.sys.stack i).head? = some f → f.inSection = some b → ∀ ts,
        (s.code i).run (s.sys.breaker b) ts
          = (f.sectionCode config).run a.breaker (s.readings i ++ ts) := by
  have hprojects : Projects b ((AccessSystem.start t₀ : AccessSystem τ β).sys.withBreakers
      fun _ => { lastStateChangeTime := t₀ }) (.start t₀) := by
    refine ⟨rfl, ⟨0, fun _ _ => rfl⟩, fun _ => [], ?_⟩
    constructor
    · exact fun _ => rfl
    · exact nofun
    · exact fun _ => List.nodup_nil
    · exact nofun
  have hstart : Follows config b (.start t₀) (.start t₀) :=
    ⟨Since.start, _, Shadows.start, hprojects⟩
  obtain ⟨tr', a, hrun', ⟨-, shadow, hshadows, hfollowed⟩, hshown⟩ :=
    (section_simulation b).follow hstart hrun
  have hbreaker : a.breaker = shadow b := hfollowed.breaker
  refine ⟨tr', a, hrun', hshown, fun hidle => ?_, fun i f hhead hb ts => ?_⟩
  · rw [hbreaker]
    exact hshadows.idle b hidle
  · rw [hbreaker]
    exact hshadows.busy i f b hhead hb ts

/-- Two breakers that trip at once; the first has a fallback. -/
def twoBreakers : Bool → BreakerConfig
  | true => { name := "CB-FRAUD", failureThreshold := 1, fallback := true }
  | false => { name := "CB-LEDGER", failureThreshold := 1 }

def accesses (i : Fin 2) (n : ℕ) : List (AccessEvent (Fin 2) Bool) := List.replicate n ⟨i, .access⟩

/-- The action of a call on the first breaker calls the second one, where
another thread is running. Both of these raise; the second outcome waits
for the lock until the first is recorded, and comes late, in OPEN. -/
theorem sections_indivisible_nested :
    ∃ tr' a, Run (breakerStep (ι := ℕ) (twoBreakers false)) (.start 0) tr' a ∧
      a.breaker.state = .opened ∧ a.breaker.failureCount = 2 ∧
      tr'.map (fun t => (t.event.op, t.event.time, t.event.later))
        = [(.prologue, 0, 0), (.prologue, 2, 2), (.record .failure, 3, 5),
            (.record .failure, 6, 6)] := by
  obtain ⟨tr', a, hrun, hsections, hbreaker, -⟩ := sections_indivisible
    (run_exec (accessStep (τ := Fin 2) twoBreakers)
      ([⟨0, .call false⟩, ⟨0, .acquire⟩, ⟨1, .call true⟩, ⟨1, .acquire⟩, ⟨0, .clock 0⟩,
        ⟨1, .clock 1⟩] ++ accesses 0 1 ++ accesses 1 3 ++ accesses 0 2 ++
        [⟨1, .call false⟩, ⟨1, .acquire⟩, ⟨1, .clock 2⟩] ++ accesses 1 3 ++
        [⟨1, .ends .raised⟩, ⟨0, .ends .raised⟩, ⟨1, .acquire⟩, ⟨1, .clock 3⟩] ++ accesses 1 1 ++
        [⟨0, .acquire⟩, ⟨0, .clock 4⟩] ++ accesses 0 1 ++ accesses 1 5 ++ [⟨1, .clock 5⟩] ++
        accesses 1 2 ++ [⟨0, .acquire⟩, ⟨0, .clock 6⟩] ++ accesses 0 5)
      (.start 0)) false
  have hidle := hbreaker (by decide +kernel)
  refine ⟨tr', a, hrun, ?_, ?_, hsections.trans (by decide +kernel)⟩
  · rw [← hidle]
    decide +kernel
  · rw [← hidle]
    decide +kernel

end Httpe.Breaker
