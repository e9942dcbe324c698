/-
Httpe.Breaker.Probes — who runs, and who decides, in HALF_OPEN.

`HalfOpenSince e mid` cuts one HALF_OPEN period, or a first part of one,
out of a history: the step `e` entered it and the steps `mid` stayed.

* The prologue of `execute` looks at the probe count in HALF_OPEN and
  passes whatever it finds, so every call that arrives is admitted:
  `probeLimit_iff_arrivalLimit`.
* A call records its outcome in whatever state it then finds, so a call
  admitted before the trip can count as a probe, or re-open the breaker:
  `onlyProbesDecide_of_resultsOfProbes`.
-/
import Httpe.Breaker.CircuitBreaker
import Httpe.Breaker.Fsm

namespace Httpe.Breaker

variable {ι : Type*}

/-- The step `e` enters HALF_OPEN and the steps `mid` stay in it. -/
structure HalfOpenSince (e : BreakerTransition ι) (mid : List (BreakerTransition ι)) : Prop where
  enters : e.pre.breaker.state ≠ .halfOpen ∧ e.post.breaker.state = .halfOpen
  stays : ∀ v ∈ mid, v.post.breaker.state = .halfOpen

/-- A call arrives: it takes the lock in the prologue of `execute`. -/
def arrives (t : BreakerTransition ι) : Bool := decide (t.event.op = .prologue)

/-- A call arrives and goes on to run its action. -/
def admitted (t : BreakerTransition ι) : Bool :=
  arrives t && decide (t.post.pc t.event.call = .running)

/-- Call `i` is admitted by one of the steps. -/
def AdmittedIn (i : ι) (tr : List (BreakerTransition ι)) : Prop :=
  ∃ v ∈ tr, v.event.call = i ∧ admitted v = true

/-- In every HALF_OPEN period at most `half_open_max_probes` calls are
admitted, and the others are answered as if the breaker were OPEN. -/
def ProbeLimit (c : BreakerConfig) (tr : List (BreakerTransition ι)) : Prop :=
  ∀ base e mid r, tr = base ++ e :: (mid ++ r) → HalfOpenSince e mid →
    ((e :: mid).countP admitted : ℤ) ≤ c.halfOpenMaxProbes ∧
    ∀ v ∈ e :: mid, arrives v = true → admitted v = false →
      v.post.pc v.event.call = .done c.handleOpenCircuit

/-- In every HALF_OPEN period at most `half_open_max_probes` calls
arrive, the one that begins it included. -/
def ArrivalLimit (c : BreakerConfig) (tr : List (BreakerTransition ι)) : Prop :=
  ∀ base e mid r, tr = base ++ e :: (mid ++ r) → HalfOpenSince e mid →
    ((e :: mid).countP arrives : ℤ) ≤ c.halfOpenMaxProbes

/-- The outcome a step records. -/
def recorded (t : BreakerTransition ι) : Option Outcome := t.event.op.outcome

/-- The steps whose outcomes make `t` leave the period of `mid`: the
failure itself, or all the successes with the last one. -/
def deciders (mid : List (BreakerTransition ι)) (t : BreakerTransition ι) :
    List (BreakerTransition ι) :=
  if t.post.breaker.state = .closed then mid.filter (fun v => recorded v = some .success) ++ [t]
  else [t]

/-- Every step out of HALF_OPEN records an outcome, and it and the
outcomes it rests on are of calls admitted in that period. -/
def OnlyProbesDecide (tr : List (BreakerTransition ι)) : Prop :=
  ∀ base e mid t r, tr = base ++ e :: (mid ++ t :: r) → HalfOpenSince e mid →
    t.post.breaker.state ≠ .halfOpen → (recorded t).isSome ∧
      ∀ v ∈ deciders mid t, AdmittedIn v.event.call (e :: mid)

/-- Whatever is recorded in HALF_OPEN is the outcome of a call admitted
in that same period. -/
def ResultsOfProbes (tr : List (BreakerTransition ι)) : Prop :=
  ∀ base e mid t r, tr = base ++ e :: (mid ++ t :: r) → HalfOpenSince e mid →
    (recorded t).isSome → AdmittedIn t.event.call (e :: mid)

theorem HalfOpenSince.post {e : BreakerTransition ι} {mid : List (BreakerTransition ι)}
    (h : HalfOpenSince e mid) : ∀ v ∈ e :: mid, v.post.breaker.state = .halfOpen := by
  intro v hv
  rcases List.mem_cons.mp hv with rfl | hv
  · exact h.enters.2
  · exact h.stays v hv

theorem HalfOpenSince.left {e : BreakerTransition ι} {mid l : List (BreakerTransition ι)}
    (h : HalfOpenSince e (mid ++ l)) : HalfOpenSince e mid :=
  ⟨h.enters, (List.forall_mem_append.mp h.stays).1⟩

theorem HalfOpenSince.append {e : BreakerTransition ι} {mid l : List (BreakerTransition ι)}
    (h : HalfOpenSince e mid) (hl : ∀ v ∈ l, v.post.breaker.state = .halfOpen) :
    HalfOpenSince e (mid ++ l) :=
  ⟨h.enters, List.forall_mem_append.mpr ⟨h.stays, hl⟩⟩

theorem AdmittedIn.mono {i : ι} {l l' : List (BreakerTransition ι)} (h : AdmittedIn i l)
    (hsub : l ⊆ l') : AdmittedIn i l' := by
  obtain ⟨v, hv, hadmitted⟩ := h
  exact ⟨v, hsub hv, hadmitted⟩

/-- What decides is the last step or an earlier success. -/
theorem eq_or_success_of_mem_deciders {mid : List (BreakerTransition ι)}
    {t v : BreakerTransition ι} (hv : v ∈ deciders mid t) :
    v = t ∨ v ∈ mid ∧ recorded v = some .success := by
  unfold deciders at hv
  split_ifs at hv with hclosed
  · rcases List.mem_append.mp hv with hv | hv
    · obtain ⟨hmem, hsuccess⟩ := List.mem_filter.mp hv
      exact .inr ⟨hmem, decide_eq_true_eq.mp hsuccess⟩
    · exact .inl (List.mem_singleton.mp hv)
  · exact .inl (List.mem_singleton.mp hv)

theorem recorded_eq_some {t : BreakerTransition ι} {o : Outcome} :
    recorded t = some o ↔ t.event.op = .record o := by
  obtain ⟨pre, ⟨i, op, time, later⟩, post⟩ := t
  cases op <;> simp [recorded, CallOp.outcome]

/-- `ResultsOfProbes` read off the positions of a history. -/
theorem resultsOfProbes_of_get {tr : List (BreakerTransition ι)}
    (h : ∀ k m : Fin tr.length, k < m → (tr.get k).pre.breaker.state ≠ .halfOpen →
      (tr.get k).post.breaker.state = .halfOpen → (recorded (tr.get m)).isSome →
      ∃ j : Fin tr.length, k ≤ j ∧ j < m ∧
        (tr.get j).event.call = (tr.get m).event.call ∧ admitted (tr.get j) = true) :
    ResultsOfProbes tr := by
  rintro base e mid t r rfl hperiod hsome
  set tr := base ++ e :: (mid ++ t :: r) with htr
  let k : Fin tr.length := ⟨base.length, by simp [htr]⟩
  let m : Fin tr.length := ⟨base.length + (mid.length + 1), by simp [htr]⟩
  have hk : tr.get k = e := by simp [k, htr]
  have hm : tr.get m = t := by simp [m, htr]
  obtain ⟨⟨j, hlt⟩, hkj, hjm, hcall, hadm⟩ := h k m (by simp [k, m])
    (by rw [hk]; exact hperiod.enters.1) (by rw [hk]; exact hperiod.enters.2)
    (by rw [hm]; exact hsome)
  rw [hm] at hcall
  refine ⟨_, ?_, hcall, hadm⟩
  obtain ⟨i, rfl⟩ : ∃ i, j = base.length + i := Nat.exists_eq_add_of_le hkj
  have hi : i < (e :: mid).length := by
    have : base.length + i < base.length + (mid.length + 1) := hjm
    simp only [List.length_cons]
    omega
  have hget : tr.get ⟨base.length + i, hlt⟩ = (e :: mid)[i] := by
    simp only [List.get_eq_getElem, htr]
    rw [List.getElem_append_right (by omega)]
    simp only [Nat.add_sub_cancel_left, ← List.cons_append]
    rw [List.getElem_append_left hi]
  rw [hget]
  exact List.getElem_mem hi

variable [DecidableEq ι] {c : BreakerConfig} {s s' : BreakerSystem ι}
  {tr : List (BreakerTransition ι)} {t : BreakerTransition ι}

/-! ## Admissions -/

/-- A call that arrives and leaves the breaker in HALF_OPEN is admitted. -/
theorem admitted_of_arrives (hstep : breakerStep c t.pre t.event = some t.post)
    (harrives : arrives t = true) (hpost : t.post.breaker.state = .halfOpen) :
    admitted t = true := by
  obtain ⟨pre, e, post⟩ := t
  have hmove : BreakerMove c pre e post := breakerMove_of_step hstep
  simp only [arrives, decide_eq_true_eq] at harrives
  simp only at hpost
  cases hmove with
  | admitted _ _ => simp [admitted, arrives]
  | recovered _ _ _ => simp [admitted, arrives]
  | refused _ hstate _ =>
      rw [hpost] at hstate
      cases hstate
  | recorded _ => cases harrives

/-- In a HALF_OPEN period the admissions are the arrivals. -/
theorem admitted_eq_arrives {base mid r : List (BreakerTransition ι)} {e : BreakerTransition ι}
    (hrun : Run (breakerStep c) s (base ++ e :: (mid ++ r)) s') (hperiod : HalfOpenSince e mid) :
    ∀ v ∈ e :: mid, admitted v = arrives v := by
  intro v hv
  have hmem : v ∈ base ++ e :: (mid ++ r) := by
    rcases List.mem_cons.mp hv with rfl | hv <;> simp [*]
  cases harrives : arrives v with
  | false => simp [admitted, harrives]
  | true => exact admitted_of_arrives (hrun.step_of_mem v hmem) harrives (hperiod.post v hv)

/-- **Exactly when the probe limit holds.** Nothing in the code limits
the admissions, so it holds in a run exactly if in each HALF_OPEN period
no more calls arrive than may probe. -/
theorem probeLimit_iff_arrivalLimit (hrun : Run (breakerStep c) s tr s') :
    ProbeLimit c tr ↔ ArrivalLimit c tr := by
  have hcount : ∀ base e mid r, tr = base ++ e :: (mid ++ r) → HalfOpenSince e mid →
      (e :: mid).countP admitted = (e :: mid).countP arrives := by
    intro base e mid r htr hperiod
    refine List.countP_congr fun v hv => ?_
    rw [admitted_eq_arrives (htr ▸ hrun) hperiod v hv]
  constructor
  · intro hlimit base e mid r htr hperiod
    rw [← hcount base e mid r htr hperiod]
    exact (hlimit base e mid r htr hperiod).1
  · intro hlimit base e mid r htr hperiod
    refine ⟨?_, fun v hv harrives hno => ?_⟩
    · rw [hcount base e mid r htr hperiod]
      exact hlimit base e mid r htr hperiod
    · rw [admitted_eq_arrives (htr ▸ hrun) hperiod v hv, harrives] at hno
      cases hno

/-- The source's breaker, tripped by three failures; after the cooldown
three calls arrive before the first of them has an answer. -/
def overlappingProbes : List (BreakerEvent (Fin 6)) :=
  [⟨0, .prologue, 0, 0⟩, ⟨0, .record .failure, 0, 0⟩, ⟨1, .prologue, 0, 0⟩,
   ⟨1, .record .failure, 0, 0⟩, ⟨2, .prologue, 0, 0⟩, ⟨2, .record .failure, 0, 0⟩,
   ⟨3, .prologue, 15, 15⟩, ⟨4, .prologue, 15, 15⟩, ⟨5, .prologue, 16, 16⟩]

/-- Three probes run at once where two are allowed. -/
theorem not_probeLimit_overlappingProbes :
    let c : BreakerConfig := { name := "CB-FRAUD" }
    let run := exec (breakerStep c) (.start 0) overlappingProbes
    Run (breakerStep c) (.start 0) run.1 run.2 ∧ c.halfOpenMaxProbes = 2 ∧
    (∀ i, run.2.pc i = .running ↔ i = 3 ∨ i = 4 ∨ i = 5) ∧ ¬ ProbeLimit c run.1 := by
  intro c run
  refine ⟨run_exec _ _ _, rfl, by decide +kernel, fun h => ?_⟩
  have hlimit := (h (run.1.take 6) (run.1.get ⟨6, by decide +kernel⟩) (run.1.drop 7) []
    (by simp) ⟨by decide +kernel, by decide +kernel⟩).1
  exact absurd hlimit (by decide +kernel)

theorem probeLimit_iff_arrivalLimit_overlappingProbes :
    let c : BreakerConfig := { name := "CB-FRAUD" }
    let run := exec (breakerStep c) (.start 0) overlappingProbes
    ProbeLimit c run.1 ↔ ArrivalLimit c run.1 := by
  intro c run
  exact probeLimit_iff_arrivalLimit (run_exec _ _ _)

/-! ## Outcomes -/

/-- A step out of HALF_OPEN records an outcome, and closes the breaker
only with a success. -/
theorem recorded_of_leaves (hstep : breakerStep c t.pre t.event = some t.post)
    (hpre : t.pre.breaker.state = .halfOpen) (hpost : t.post.breaker.state ≠ .halfOpen) :
    recorded t = some .failure ∧ t.post.breaker.state = .opened ∨
      recorded t = some .success ∧ t.post.breaker.state = .closed := by
  obtain ⟨pre, e, post⟩ := t
  have hmove : BreakerMove c pre e post := breakerMove_of_step hstep
  simp only at hpre hpost
  cases hmove with
  | admitted _ _ => exact absurd hpre hpost
  | recovered _ hstate _ => rw [hpre] at hstate; cases hstate
  | refused _ hstate _ => rw [hpre] at hstate; cases hstate
  | @recorded i o t u _ =>
      cases o with
      | failure =>
          refine .inl ⟨rfl, ?_⟩
          simp only [record_halfOpen_failure hpre]
      | success =>
          refine .inr ⟨rfl, ?_⟩
          simp only [record_halfOpen_success hpre] at hpost ⊢
          split_ifs at hpost ⊢ with hclose
          · rfl
          · exact absurd hpre hpost

/-- Every failure recorded in HALF_OPEN leaves it. -/
theorem leaves_of_failure (hstep : breakerStep c t.pre t.event = some t.post)
    (hpre : t.pre.breaker.state = .halfOpen) (hrecorded : recorded t = some .failure) :
    t.post.breaker.state = .opened := by
  have hmove := breakerMove_of_step hstep
  rw [hmove.breaker_of_record (recorded_eq_some.mp hrecorded), record_halfOpen_failure hpre]

/-- The step after a period's steps is still taken in HALF_OPEN. -/
theorem HalfOpenSince.pre {base mid r : List (BreakerTransition ι)} {e : BreakerTransition ι}
    (h : HalfOpenSince e mid) (hrun : Run (breakerStep c) s (base ++ e :: (mid ++ t :: r)) s') :
    t.pre.breaker.state = .halfOpen := by
  have hassoc : base ++ e :: (mid ++ t :: r) = (base ++ e :: mid) ++ t :: r := by simp
  rw [hassoc] at hrun
  have hreached := hrun.split.1
  obtain ⟨l, last, hlast⟩ : ∃ l last, e :: mid = l ++ [last] :=
    (List.eq_nil_or_concat (e :: mid)).resolve_left (by simp) |>.imp fun l h =>
      h.imp fun last h => by rw [h, List.concat_eq_append]
  rw [hlast, ← List.append_assoc] at hreached
  rw [hreached.eq_post]
  exact h.post last (by rw [hlast]; simp)

/-- A call that has started is never admitted again. -/
theorem not_admitted_of_started {i : ι} (hrun : Run (breakerStep c) s tr s')
    (hstarted : s.pc i ≠ .entry) : ¬ AdmittedIn i tr := by
  have hkeep : ∀ (l : List (BreakerTransition ι)) (s' : BreakerSystem ι),
      Run (breakerStep c) s l s' → s'.pc i ≠ .entry := by
    intro l s' h
    refine h.invariant (fun _ s => s.pc i ≠ .entry) hstarted ?_
    intro _ s e s' _ ih hstep
    have hmove := breakerMove_of_step hstep
    cases hmove <;> (simp only [Function.update_apply]; split_ifs <;> simp [ih])
  rintro ⟨v, hv, rfl, hadm⟩
  obtain ⟨l, r, -, hreached, -⟩ := hrun.reached_of_mem hv
  have hpc := hkeep l v.pre hreached
  obtain ⟨pre, e, post⟩ := v
  have hmove : BreakerMove c pre e post := breakerMove_of_step (hrun.step_of_mem _ hv)
  simp only [admitted, arrives, Bool.and_eq_true, decide_eq_true_eq] at hadm
  cases hmove with
  | admitted hentry _ => exact hpc hentry
  | recovered hentry _ _ => exact hpc hentry
  | refused hentry _ _ => exact hpc hentry
  | recorded _ => exact absurd hadm.1 (by simp)

/-- A step that records admits nobody, and its call is through. -/
theorem done_of_recorded (hstep : breakerStep c t.pre t.event = some t.post) {o : Outcome}
    (hrecorded : recorded t = some o) :
    admitted t = false ∧ t.post.pc t.event.call ≠ .entry := by
  obtain ⟨pre, e, post⟩ := t
  have hmove : BreakerMove c pre e post := breakerMove_of_step hstep
  rw [recorded_eq_some] at hrecorded
  cases hmove with
  | admitted _ _ => cases hrecorded
  | recovered _ _ _ => cases hrecorded
  | refused _ _ _ => cases hrecorded
  | recorded _ => simp [admitted, arrives]

/-- Only probes decide, if whatever is recorded in HALF_OPEN comes from
them. -/
theorem ResultsOfProbes.onlyProbes (h : ResultsOfProbes tr) (hrun : Run (breakerStep c) s tr s') :
    OnlyProbesDecide tr := by
  rintro base e mid t r rfl hperiod hleaves
  have hstep := hrun.step_of_mem t (by simp)
  have hsome : (recorded t).isSome := by
    rcases recorded_of_leaves hstep (hperiod.pre hrun) hleaves with ⟨ho, -⟩ | ⟨ho, -⟩
    · rw [ho]; rfl
    · rw [ho]; rfl
  have hlast := h base e mid t r rfl hperiod hsome
  refine ⟨hsome, fun v hv => ?_⟩
  rcases eq_or_success_of_mem_deciders hv with rfl | ⟨hmem, hsuccess⟩
  · exact hlast
  · obtain ⟨m₁, m₂, rfl⟩ := List.append_of_mem hmem
    have hearlier := h base e m₁ v (m₂ ++ t :: r) (by simp) hperiod.left (by rw [hsuccess]; rfl)
    exact hearlier.mono fun w hw => by
      rcases List.mem_cons.mp hw with rfl | hw <;> simp [*]

section Straggler

variable {base mid r : List (BreakerTransition ι)} {e : BreakerTransition ι}
  (hrun : Run (breakerStep c) s (base ++ e :: (mid ++ t :: r)) s')
  (hperiod : HalfOpenSince e mid) (hstraggler : ¬ AdmittedIn t.event.call (e :: mid))
include hrun hperiod hstraggler

/-- A failure of a call that is no probe of the period opens the breaker. -/
theorem not_onlyProbesDecide_of_failure (hfailure : recorded t = some .failure) :
    ¬ OnlyProbesDecide (base ++ e :: (mid ++ t :: r)) := by
  intro honly
  have hstep := hrun.step_of_mem t (by simp)
  have hopened := leaves_of_failure hstep (hperiod.pre hrun) hfailure
  refine hstraggler ((honly base e mid t r rfl hperiod (by simp [hopened])).2 t ?_)
  simp [deciders, hopened]

/-- A success of such a call counts when the period closes the breaker. -/
theorem not_onlyProbesDecide_of_success (hsuccess : recorded t = some .success)
    {r₁ r₂ : List (BreakerTransition ι)} {u : BreakerTransition ι} (hr : t :: r = r₁ ++ u :: r₂)
    (hstays : ∀ v ∈ r₁, v.post.breaker.state = .halfOpen)
    (hclosed : u.post.breaker.state = .closed) :
    ¬ OnlyProbesDecide (base ++ e :: (mid ++ t :: r)) := by
  intro honly
  rcases r₁ with _ | ⟨t', r₁⟩
  · -- it is the last success itself
    obtain ⟨rfl, rfl⟩ := List.cons.inj hr
    refine hstraggler ((honly base e mid t r rfl hperiod (by simp [hclosed])).2 t ?_)
    simp [deciders, hclosed]
  · rw [List.cons_append] at hr
    obtain ⟨rfl, rfl⟩ := List.cons.inj hr
    obtain ⟨w, hw, hcall, hadm⟩ := (honly base e (mid ++ t :: r₁) u r₂ (by simp)
      (hperiod.append hstays) (by simp [hclosed])).2 t (by simp [deciders, hclosed, hsuccess])
    obtain ⟨hno, hthrough⟩ := done_of_recorded (hrun.step_of_mem t (by simp)) hsuccess
    rw [← List.cons_append] at hw
    rcases List.mem_append.mp hw with hw | hw
    · exact hstraggler ⟨w, hw, hcall, hadm⟩
    · -- it is not admitted again after it has recorded
      have hassoc : base ++ e :: (mid ++ t :: (r₁ ++ u :: r₂))
          = (base ++ e :: mid) ++ t :: (r₁ ++ u :: r₂) := by simp
      rw [hassoc] at hrun
      rcases List.mem_cons.mp hw with rfl | hw
      · rw [hno] at hadm
        cases hadm
      · exact not_admitted_of_started hrun.split.2.2 hthrough
          ⟨w, List.mem_append_left _ hw, hcall, hadm⟩

end Straggler

/-- **Only probes decide.** In every run in which whatever is recorded in
HALF_OPEN comes from a call admitted in that period, every way out of
HALF_OPEN rests on such outcomes alone. A failure of any other call
breaks this at once, and a success of any other call as soon as the
period closes the breaker. -/
theorem onlyProbesDecide_of_resultsOfProbes (hrun : Run (breakerStep c) s tr s') :
    (ResultsOfProbes tr → OnlyProbesDecide tr) ∧
    ∀ base e mid t r, tr = base ++ e :: (mid ++ t :: r) → HalfOpenSince e mid →
      ¬ AdmittedIn t.event.call (e :: mid) →
      (recorded t = some .failure → ¬ OnlyProbesDecide tr) ∧
      (recorded t = some .success → ∀ r₁ u r₂, t :: r = r₁ ++ u :: r₂ →
        (∀ v ∈ r₁, v.post.breaker.state = .halfOpen) → u.post.breaker.state = .closed →
        ¬ OnlyProbesDecide tr) := by
  refine ⟨fun hresults => hresults.onlyProbes hrun, ?_⟩
  rintro base e mid t r rfl hperiod hstraggler
  constructor
  · exact not_onlyProbesDecide_of_failure hrun hperiod hstraggler
  · intro hsuccess r₁ u r₂ hr hstays hclosed
    exact not_onlyProbesDecide_of_success hrun hperiod hstraggler hsuccess hr hstays hclosed

/-- A call admitted while CLOSED outlasts the trip and the cooldown and
fails while the only probe is running. -/
def slowCall : List (BreakerEvent (Fin 5)) :=
  [⟨0, .prologue, 0, 0⟩, ⟨1, .prologue, 0, 0⟩, ⟨1, .record .failure, 0, 0⟩,
   ⟨2, .prologue, 0, 0⟩, ⟨2, .record .failure, 0, 0⟩, ⟨3, .prologue, 0, 0⟩,
   ⟨3, .record .failure, 0, 0⟩, ⟨4, .prologue, 15, 15⟩, ⟨0, .record .failure, 16, 16⟩]

/-- The breaker opens again on a call that was no probe. -/
theorem not_onlyProbesDecide_slowCall :
    let c : BreakerConfig := { name := "CB-FRAUD" }
    let run := exec (breakerStep c) (.start 0) slowCall
    Run (breakerStep c) (.start 0) run.1 run.2 ∧ run.2.breaker.state = .opened ∧
    run.2.pc 4 = .running ∧ ¬ OnlyProbesDecide run.1 := by
  intro c run
  refine ⟨run_exec _ _ _, by decide +kernel, by decide +kernel, fun h => ?_⟩
  have hsplit : run.1 = run.1.take 7 ++ run.1.get ⟨7, by decide +kernel⟩ ::
      ([] ++ run.1.get ⟨8, by decide +kernel⟩ :: []) := by
    have hlength : run.1.length = 9 := by decide +kernel
    have hend : run.1.drop 9 = [] := List.drop_eq_nil_of_le (by omega)
    conv_lhs => rw [← List.take_append_drop 7 run.1, List.drop_eq_getElem_cons (by omega),
      List.drop_eq_getElem_cons (by omega), hend]
    rfl
  have hdecides := (h _ _ [] _ [] hsplit ⟨by decide +kernel, by simp⟩ (by decide +kernel)).2
    (run.1.get ⟨8, by decide +kernel⟩) (by simp [deciders])
  obtain ⟨w, hw, hcall, -⟩ := hdecides
  rw [List.mem_singleton.mp hw] at hcall
  exact absurd hcall (by decide +kernel)

/-- The same three failures; after the cooldown two probes succeed one
after the other. -/
def twoProbes : List (BreakerEvent (Fin 5)) :=
  [⟨0, .prologue, 0, 0⟩, ⟨0, .record .failure, 0, 0⟩, ⟨1, .prologue, 0, 0⟩,
   ⟨1, .record .failure, 0, 0⟩, ⟨2, .prologue, 0, 0⟩, ⟨2, .record .failure, 0, 0⟩,
   ⟨3, .prologue, 15, 15⟩, ⟨3, .record .success, 16, 16⟩, ⟨4, .prologue, 17, 17⟩,
   ⟨4, .record .success, 18, 18⟩]

theorem onlyProbesDecide_of_resultsOfProbes_twoProbes :
    let c : BreakerConfig := { name := "CB-FRAUD" }
    let run := exec (breakerStep c) (.start 0) twoProbes
    run.2.breaker.state = .closed ∧ OnlyProbesDecide run.1 := by
  intro c run
  refine ⟨by decide +kernel, (onlyProbesDecide_of_resultsOfProbes (run_exec _ _ _)).1 ?_⟩
  exact resultsOfProbes_of_get (by decide +kernel)

end Httpe.Breaker
