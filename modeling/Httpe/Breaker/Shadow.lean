/-
Httpe.Breaker.Shadow — sections that take time as sections that take
none.

`Shadows` compares the system of `Httpe.Breaker.Accesses` with one of
`Httpe.Breaker.Lock` that runs a section when the section ends: locks and
stacks are the same, and a breaker differs only while a thread is in one
of its sections, which then goes on as if it had run from the other
system's breaker without interruption. `Shadows.step` is that every step
keeps this; it rests on `LockInv.alone`. `Since` keeps the readings of the
clock in order.
-/
import Httpe.Breaker.Accesses

namespace Httpe.Breaker

variable {τ β : Type*} [DecidableEq τ] [DecidableEq β] {config : β → BreakerConfig}
  {s s' : AccessSystem τ β} {e : AccessEvent τ β} {shadow : β → CircuitBreaker}

/-- The breakers as they are when every section is run at its end. -/
structure Shadows (config : β → BreakerConfig) (s : AccessSystem τ β)
    (shadow : β → CircuitBreaker) : Prop where
  inv : LockInv s.sys
  idle : ∀ b, (∀ i, s.sys.inSection i ≠ some b) → s.sys.breaker b = shadow b
  /-- What is left of a section goes on from the breaker it has made. -/
  busy : ∀ i f b, (s.sys.stack i).head? = some f → f.inSection = some b → ∀ ts,
    (s.code i).run (s.sys.breaker b) ts
      = (f.sectionCode config).run (shadow b) (s.readings i ++ ts)

omit [DecidableEq τ] [DecidableEq β] in
theorem LockSystem.inSection_of_head {s : LockSystem τ β} {f : Frame β}
    (h : (s.stack i).head? = some f) : s.inSection i = f.inSection := by
  rw [LockSystem.inSection, h, Option.bind_some]

theorem Shadows.start {t₀ : ℚ} :
    Shadows config (.start t₀ : AccessSystem τ β) fun _ => { lastStateChangeTime := t₀ } := by
  constructor
  · constructor
    · exact nofun
    · exact fun _ _ => rfl
  · exact fun _ _ => rfl
  · exact nofun

/-- A step after which thread `i` has another stack, and the others have
theirs; the thread was in no section, or it leaves one and its breaker is
taken over. -/
theorem Shadows.moved (h : Shadows config s shadow) {i : τ} {shadow' : β → CircuitBreaker}
    (hinv : LockInv s'.sys) (hkeeps : Keeps s.sys s'.sys i)
    (hcode : ∀ j, j ≠ i → s'.code j = s.code j)
    (hreadings : ∀ j, j ≠ i → s'.readings j = s.readings j)
    (hothers : ∀ j b, j ≠ i → s.sys.inSection j = some b → shadow' b = shadow b)
    (hidle : ∀ b, (∀ j, s'.sys.inSection j ≠ some b) → s.sys.breaker b = shadow' b)
    (hbusy : ∀ f b, (s'.sys.stack i).head? = some f → f.inSection = some b → ∀ ts,
      (s'.code i).run (s.sys.breaker b) ts
        = (f.sectionCode config).run (shadow' b) (s'.readings i ++ ts)) :
    Shadows config s' shadow' := by
  constructor
  · exact hinv
  · intro b hnobody
    rw [hkeeps.breaker]
    exact hidle b hnobody
  · intro j f b hhead hb ts
    rw [hkeeps.breaker]
    by_cases hj : j = i
    · rw [hj] at hhead ⊢
      exact hbusy f b hhead hb ts
    · rw [hkeeps.stack j hj] at hhead
      have hsection := (LockSystem.inSection_of_head hhead).trans hb
      rw [hcode j hj, hreadings j hj, hothers j b hj hsection]
      exact h.busy j f b hhead hb ts

/-- Where nobody is in a section after a step of a thread that was in none,
nobody was before. -/
theorem Shadows.idle_of_keeps (h : Shadows config s shadow) {sys : LockSystem τ β} {i : τ} {b : β}
    (hkeeps : Keeps s.sys sys i) (hbefore : s.sys.inSection i ≠ some b)
    (hnobody : ∀ j, sys.inSection j ≠ some b) : s.sys.breaker b = shadow b := by
  refine h.idle b fun j => ?_
  by_cases hj : j = i
  · rw [hj]
    exact hbefore
  · rw [← hkeeps.inSection hj]
    exact hnobody j

/-- An access of the thread that is in the section. -/
theorem Shadows.accessed (h : Shadows config s shadow) {i : τ} {b : β} {cb : CircuitBreaker}
    {next : SectionCode} {new : List ℚ} (hsection : s.sys.inSection i = some b)
    (hsys : s'.sys = s.sys.setBreaker b cb) (hcode : s'.code = Function.update s.code i next)
    (hreadings : s'.readings = Function.update s.readings i (s.readings i ++ new))
    (hrun : ∀ ts, next.run cb ts = (s.code i).run (s.sys.breaker b) (new ++ ts)) :
    Shadows config s' shadow := by
  constructor
  · rw [hsys]
    exact h.inv.setBreaker
  · intro b' hidle
    rw [hsys] at hidle ⊢
    have hb : b' ≠ b := fun heq => hidle i (heq ▸ hsection)
    exact (Function.update_of_ne hb _ _).trans (h.idle b' hidle)
  · intro j f b' hhead hb' ts
    rw [hsys] at hhead ⊢
    have hj : s.sys.inSection j = some b' := (LockSystem.inSection_of_head hhead).trans hb'
    have hbusy := h.busy j f b' hhead hb'
    rw [hcode, hreadings]
    by_cases hji : j = i
    · subst hji
      obtain rfl : b = b' := Option.some.inj (hsection.symm.trans hj)
      simp only [Function.update_self, LockSystem.setBreaker, hrun, hbusy, List.append_assoc]
    · -- the others are in sections of other breakers
      have hb : b' ≠ b := fun heq => hji (h.inv.alone (heq ▸ hj) hsection)
      simp only [Function.update_of_ne hji, LockSystem.setBreaker, Function.update_of_ne hb, hbusy]

/-- Every access is part of a section that is still to be run; every other
step is one of `Httpe.Breaker.Lock`. -/
theorem Shadows.step (h : Shadows config s shadow) (hstep : accessStep config s e = some s') :
    match lockEvent s e with
    | none => s'.sys.withBreakers shadow = s.sys.withBreakers shadow ∧ Shadows config s' shadow
    | some f => ∃ shadow', lockStep config (s.sys.withBreakers shadow) f
        = some (s'.sys.withBreakers shadow') ∧ Shadows config s' shadow' := by
  cases accessMove_of_step h.inv hstep with
  | @outside f sys hevent hkeeps hbefore hafter hshadow =>
      rw [hevent]
      refine ⟨shadow, hshadow shadow, ?_⟩
      apply h.moved (h.inv.step_withBreakers (hshadow shadow)) hkeeps
      · exact fun _ _ => rfl
      · exact fun _ _ => rfl
      · exact fun _ _ _ _ => rfl
      · intro b hnobody
        exact h.idle_of_keeps hkeeps (by rw [hbefore]; exact nofun) hnobody
      · intro f b hhead hb
        rw [LockSystem.inSection_of_head hhead, hb] at hafter
        cases hafter
  | @entered f sys g b hevent hkeeps hbefore hhead hb hfree hshadow =>
      rw [hevent]
      refine ⟨shadow, hshadow shadow, ?_⟩
      apply h.moved (h.inv.step_withBreakers (hshadow shadow)) hkeeps
      · exact fun j hj => Function.update_of_ne hj _ _
      · exact fun j hj => Function.update_of_ne hj _ _
      · exact fun _ _ _ _ => rfl
      · intro b' hnobody
        exact h.idle_of_keeps hkeeps (by rw [hbefore]; exact nofun) hnobody
      · intro g' b' hhead' hb' ts
        obtain rfl : g = g' := Option.some.inj (hhead.symm.trans hhead')
        obtain rfl : b = b' := Option.some.inj (hb.symm.trans hb')
        -- the lock was free, so the breaker is as the last section has left it
        have hidle : s.sys.breaker b = shadow b := h.idle b fun j hj => by
          rw [h.inv.lock_of_inSection hj] at hfree
          cases hfree
        simp only [Function.update_self, hidle, List.nil_append]
  | @accessed _ b cb next new hevent hsection hsys hcode hreadings hnow hnew hrun =>
      rw [hevent]
      refine ⟨?_, h.accessed hsection hsys hcode hreadings hrun⟩
      rw [hsys]
      rfl
  | @left sys refused f rest b hevent hstack hb hcode hleave hkeeps hafter =>
      rw [hevent]
      have hsection := (LockSystem.inSection_of_stack hstack).trans hb
      have hbusy := h.busy e.thread f b (by rw [hstack]; rfl) hb []
      rw [hcode, List.append_nil] at hbusy
      have hlock := lockStep_of_leave hstack hb hleave hbusy.symm s.now
      refine ⟨_, hlock, ?_⟩
      apply h.moved (h.inv.step_withBreakers hlock) hkeeps
      · exact fun _ _ => rfl
      · exact fun _ _ => rfl
      · intro j b' hj hjsection
        have hb' : b' ≠ b := fun heq => hj (h.inv.alone (heq ▸ hjsection) hsection)
        exact Function.update_of_ne hb' _ _
      · intro b' hnobody
        by_cases hb' : b' = b
        · rw [hb', Function.update_self]
        · rw [Function.update_of_ne hb']
          refine h.idle_of_keeps hkeeps ?_ hnobody
          rw [hsection]
          exact fun heq => hb' (Option.some.inj heq).symm
      · intro f b hhead hb
        rw [LockSystem.inSection_of_head hhead, hb] at hafter
        cases hafter

/-! ## The clock -/

/-- Readings are in order, and a section of `b` that is under way has none
before `t`. -/
structure Since (b : β) (t : ℚ) (s : AccessSystem τ β) : Prop where
  now : t ≤ s.now
  since : ∀ i, s.sys.inSection i = some b → t ≤ s.firstReading i
  ordered : ∀ i, s.firstReading i ≤ s.lastReading i ∧ s.lastReading i ≤ s.now

omit [DecidableEq τ] [DecidableEq β] in
theorem Since.start {b : β} {t₀ : ℚ} : Since b t₀ (.start t₀ : AccessSystem τ β) :=
  ⟨le_rfl, fun _ _ => le_rfl, fun _ => ⟨le_rfl, le_rfl⟩⟩

omit [DecidableEq τ] [DecidableEq β] in
/-- A thread makes at most one new reading, and it is the last. -/
theorem AccessSystem.readings_append {i : τ} {new : List ℚ} (hnow : s.now ≤ s'.now)
    (hnew : new = [] ∨ new = [s'.now]) (hreadings : s'.readings i = s.readings i ++ new)
    (h : s.firstReading i ≤ s.lastReading i ∧ s.lastReading i ≤ s.now) :
    s.firstReading i ≤ s'.firstReading i ∧
      s'.firstReading i ≤ s'.lastReading i ∧ s'.lastReading i ≤ s'.now := by
  simp only [firstReading, lastReading, hreadings] at h ⊢
  rcases hnew with rfl | rfl
  · rw [List.append_nil]
    cases hlist : s.readings i with
    | nil => simp [hnow]
    | cons t ts =>
        rw [hlist] at h
        simp only [List.head?_cons, List.getLast?_cons, Option.getD_some] at h ⊢
        exact ⟨le_rfl, h.1, h.2.trans hnow⟩
  · cases hlist : s.readings i with
    | nil => simp [hnow]
    | cons t ts =>
        rw [hlist] at h
        simp only [List.head?_cons, List.getLast?_cons, Option.getD_some] at h
        simp only [List.cons_append, List.head?_cons, Option.getD_some]
        rw [← List.cons_append, List.getLast?_concat, Option.getD_some]
        exact ⟨le_rfl, (h.1.trans h.2).trans hnow, le_rfl⟩

theorem Since.step {b : β} {t : ℚ} (h : Since b t s) (hinv : LockInv s.sys)
    (hstep : accessStep config s e = some s') : Since b t s' := by
  cases accessMove_of_step hinv hstep with
  | @outside f sys hevent hkeeps hbefore hafter hshadow =>
      refine ⟨h.now, fun i hi => ?_, h.ordered⟩
      by_cases hthread : i = e.thread
      · rw [hthread, hafter] at hi
        cases hi
      · exact h.since i ((hkeeps.inSection hthread).symm.trans hi)
  | @entered f sys g b' hevent hkeeps hbefore hhead hb hfree hshadow =>
      refine ⟨h.now, fun i hi => ?_, fun i => ?_⟩
      · by_cases hthread : i = e.thread
        · simpa [AccessSystem.firstReading, hthread] using h.now
        · have hsince := h.since i ((hkeeps.inSection hthread).symm.trans hi)
          simpa [AccessSystem.firstReading, hthread] using hsince
      · by_cases hthread : i = e.thread
        · simp [AccessSystem.firstReading, AccessSystem.lastReading, hthread]
        · have hordered := h.ordered i
          simpa [AccessSystem.firstReading, AccessSystem.lastReading, hthread] using hordered
  | @accessed _ b' cb next new hevent hsection hsys hcode hreadings hnow hnew hrun =>
      have hlater : ∀ i, s.firstReading i ≤ s'.firstReading i ∧
          s'.firstReading i ≤ s'.lastReading i ∧ s'.lastReading i ≤ s'.now := by
        intro i
        by_cases hthread : i = e.thread
        · refine AccessSystem.readings_append hnow hnew ?_ (h.ordered i)
          rw [hreadings, hthread, Function.update_self]
        · refine AccessSystem.readings_append hnow (.inl rfl) ?_ (h.ordered i)
          rw [hreadings, Function.update_of_ne hthread, List.append_nil]
      refine ⟨h.now.trans hnow, fun i hi => ?_, fun i => (hlater i).2⟩
      rw [hsys] at hi
      exact (h.since i hi).trans (hlater i).1
  | @left sys refused f rest b' hevent hstack hb hcode hleave hkeeps hafter =>
      refine ⟨h.now, fun i hi => ?_, h.ordered⟩
      by_cases hthread : i = e.thread
      · rw [hthread, hafter] at hi
        cases hi
      · exact h.since i ((hkeeps.inSection hthread).symm.trans hi)

/-- When a section of `b` ends, there is no other, and its last reading is
the last of `b`. -/
theorem Since.left {b : β} {t time later : ℚ} (h : Since b t s) (hinv : LockInv s.sys)
    (hstep : accessStep config s e = some s') (hsection : s.sys.inSection e.thread = some b)
    (hevent : lockEvent s e = some ⟨e.thread, .locked time later⟩) :
    t ≤ time ∧ time ≤ later ∧ Since b later s' := by
  have hnext := h.step hinv hstep
  cases accessMove_of_step hinv hstep with
  | outside _ _ hbefore =>
      rw [hbefore] at hsection
      cases hsection
  | entered _ _ hbefore =>
      rw [hbefore] at hsection
      cases hsection
  | accessed _ hnone =>
      rw [hnone] at hevent
      cases hevent
  | @left sys refused f rest b' hlocked hstack hb hcode hleave hkeeps hafter =>
      rw [hlocked] at hevent
      cases hevent
      obtain ⟨hordered, hlast⟩ := h.ordered e.thread
      refine ⟨h.since e.thread hsection, hordered, hlast, fun i hi => ?_, hnext.ordered⟩
      by_cases hthread : i = e.thread
      · rw [hthread, hafter] at hi
        cases hi
      · exact absurd (hinv.alone ((hkeeps.inSection hthread).symm.trans hi) hsection) hthread

end Httpe.Breaker
