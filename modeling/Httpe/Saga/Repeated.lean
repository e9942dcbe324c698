/-
Httpe.Saga.Repeated — `execute` called again and again on one
orchestrator.

The context and the step states are carried from one call to the next;
the world is whatever the next call finds. `execute` reads neither the
status of the saga nor those of its steps, so what an execution calls
depends on its world alone (`execute_calls_after`), and a step applied
and never taken back is applied once more by the next execution that
gets to it.

`AtMostOnce` is what idempotency would mean: at no time has any step
succeeded twice more than it was compensated. `atMostOnce_iff_appliedOnce` is
the exact condition, on what the actions and compensations answer.
-/
import Httpe.Saga.Passes
import Mathlib.Data.List.Count
import Mathlib.Data.List.Nodup

namespace Httpe.Saga

open Compensation

variable {ρ W : Type*} [DecidableEq ρ]

/-- The orchestrator an execution leaves. -/
def SagaOrchestrator.after (o : SagaOrchestrator ρ W) (w : W) : SagaOrchestrator ρ W :=
  { o with ctx := (o.execute w).2.ctx, state := (o.execute w).2.state }

/-- The calls of successive executions, each from its own world. -/
def executions : SagaOrchestrator ρ W → List W → List (SagaCall ρ)
  | _, [] => []
  | o, w :: ws => (o.execute w).2.calls ++ executions (o.after w) ws

/-- How often the action of `r` has succeeded, less how often its
compensation has. -/
def outstanding (r : ρ) (calls : List (SagaCall ρ)) : ℤ :=
  calls.count ⟨r, .action, .returned true⟩ - calls.count ⟨r, .compensation, .returned true⟩

/-- At every point of the log every step is applied at most once. -/
def AtMostOnce (calls : List (SagaCall ρ)) : Prop :=
  ∀ r l, l <+: calls → outstanding r l ≤ 1

/-- An execution from `w` leaves `r` applied: it succeeds, and either the
saga goes through or a compensation of `r` does not return true. -/
def LeavesApplied (o : SagaOrchestrator ρ W) (w : W) (r : ρ) : Prop :=
  (r ∈ o.steps ∧ ∃ w', forward CallResult.ok (act o.step) o.steps w = some w') ∨
  ∃ before f after w₁, o.steps = before ++ f :: after ∧
    forward CallResult.ok (act o.step) before w = some w₁ ∧ (act o.step f w₁).1.ok = false ∧
    ∃ p ∈ (backward (comp o.step) before.reverse (act o.step f w₁).2).1, p.1 = r ∧
      p.2.ok = false

/-- No execution performs a step twice, and none performs a step an
earlier one left applied. -/
def AppliedOnce (o : SagaOrchestrator ρ W) (ws : List W) : Prop :=
  (∀ w ∈ ws, (performed CallResult.ok (act o.step) o.steps w).Nodup) ∧
  ws.Pairwise fun w w' =>
    ∀ r ∈ performed CallResult.ok (act o.step) o.steps w', ¬ LeavesApplied o w r

variable {o : SagaOrchestrator ρ W} {w w₁ : W} {ws : List W} {before after : List ρ} {f r : ρ}

/-! ## Counting calls -/

theorem count_map_action (l : List ρ) :
    (l.map fun q => (⟨q, .action, .returned true⟩ : SagaCall ρ)).count
      ⟨r, .action, .returned true⟩ = l.count r :=
  List.count_map_of_injective l (fun q => (⟨q, .action, .returned true⟩ : SagaCall ρ))
    (fun _ _ h => congrArg SagaCall.step h) r

theorem count_compensation_map_action (l : List ρ) :
    (l.map fun q => (⟨q, .action, .returned true⟩ : SagaCall ρ)).count
      ⟨r, .compensation, .returned true⟩ = 0 :=
  List.count_eq_zero.mpr fun h => by simp at h

/-- The calls a compensation log stands for. -/
def compensationCalls (log : List (ρ × CallResult)) : List (SagaCall ρ) :=
  log.map fun p => ⟨p.1, .compensation, p.2⟩

theorem count_action_compensationCalls (log : List (ρ × CallResult)) :
    (compensationCalls log).count ⟨r, .action, .returned true⟩ = 0 :=
  List.count_eq_zero.mpr fun h => by simp [compensationCalls] at h

/-- Each entry of `r` in the log either returned true or did not. -/
theorem count_fst_compensation_log (log : List (ρ × CallResult)) :
    (log.map Prod.fst).count r
      = (compensationCalls log).count ⟨r, .compensation, .returned true⟩
        + log.countP fun p => p.1 = r ∧ p.2.ok = false := by
  induction log with
  | nil => rfl
  | cons p log ih =>
      obtain ⟨q, result⟩ := p
      unfold compensationCalls at ih ⊢
      simp only [List.map_cons, List.count_cons, List.countP_cons, ih, beq_iff_eq,
        SagaCall.mk.injEq, true_and, decide_eq_true_eq]
      by_cases hq : q = r
      · cases hok : result.ok with
        | true => simp [hq, CallResult.ok_iff.mp hok, CallResult.ok]; omega
        | false =>
            simp [hq, CallResult.ne_of_not_ok hok]; omega
      · simp [hq]

theorem outstanding_append (r : ρ) (c d : List (SagaCall ρ)) :
    outstanding r (c ++ d) = outstanding r c + outstanding r d := by
  unfold outstanding
  rw [List.count_append, List.count_append]
  omega

/-! ## One execution -/

theorem calls_of_forward {w' : W}
    (h : forward CallResult.ok (act o.step) o.steps w = some w') :
    (o.execute w).2.calls = o.steps.map fun q => ⟨q, .action, .returned true⟩ := by
  rw [execute_of_forward h]
  exact completeAll_calls (w := w') h

/-- The answers of the compensations when `f` fails after `before`. -/
def failureLog (o : SagaOrchestrator ρ W) (before : List ρ) (f : ρ) (w₁ : W) :
    List (ρ × CallResult) :=
  (backward (comp o.step) before.reverse (act o.step f w₁).2).1

section Failed

variable (hsteps : o.steps = before ++ f :: after)
  (h : forward CallResult.ok (act o.step) before w = some w₁)
  (hf : (act o.step f w₁).1.ok = false)
include hsteps h hf

theorem calls_of_failure : (o.execute w).2.calls
    = (before.map fun q => ⟨q, .action, .returned true⟩) ++
        [⟨f, .action, (act o.step f w₁).1⟩] ++ compensationCalls (failureLog o before f w₁) := by
  rw [execute_of_failure hsteps h hf]
  exact rollback_calls h

theorem outstanding_of_failure : outstanding r (o.execute w).2.calls
    = (failureLog o before f w₁).countP fun p => p.1 = r ∧ p.2.ok = false := by
  have hne : (act o.step f w₁).1 ≠ .returned true := CallResult.ne_of_not_ok hf
  have hbefore : before.count r = ((failureLog o before f w₁).map Prod.fst).count r := by
    rw [failureLog, backward_map_fst, List.count_reverse]
  rw [count_fst_compensation_log] at hbefore
  unfold outstanding
  rw [calls_of_failure hsteps h hf]
  simp only [List.count_append, count_map_action, count_compensation_map_action,
    count_action_compensationCalls, List.count_singleton, beq_iff_eq, SagaCall.mk.injEq, hne,
    and_false, if_false, reduceCtorEq]
  omega

end Failed

theorem performed_prefix_calls :
    ((performed CallResult.ok (act o.step) o.steps w).map
      fun q => (⟨q, .action, .returned true⟩ : SagaCall ρ)) <+: (o.execute w).2.calls := by
  rcases forward_cases CallResult.ok (act o.step) o.steps w with
    ⟨w', hall⟩ | ⟨before, f, after, w₁, hsteps, h, hf⟩
  · refine ⟨[], ?_⟩
    rw [List.append_nil, performed_of_forward hall, calls_of_forward hall]
  · rw [calls_of_failure hsteps h hf, hsteps, performed_of_failure h hf, List.append_assoc]
    exact List.prefix_append _ _

theorem count_action_calls : (o.execute w).2.calls.count ⟨r, .action, .returned true⟩
    = (performed CallResult.ok (act o.step) o.steps w).count r := by
  rcases forward_cases CallResult.ok (act o.step) o.steps w with
    ⟨w', hall⟩ | ⟨before, f, after, w₁, hsteps, h, hf⟩
  · rw [performed_of_forward hall, calls_of_forward hall, count_map_action]
  · have hne : (act o.step f w₁).1 ≠ .returned true := CallResult.ne_of_not_ok hf
    rw [calls_of_failure hsteps h hf, hsteps, performed_of_failure h hf]
    simp [count_map_action, count_action_compensationCalls, hne]

/-- What an execution leaves outstanding is never negative, and is
positive exactly for the steps it leaves applied. -/
theorem outstanding_execute (o : SagaOrchestrator ρ W) (w : W) (r : ρ) :
    0 ≤ outstanding r (o.execute w).2.calls ∧
      (0 < outstanding r (o.execute w).2.calls ↔ LeavesApplied o w r) := by
  rcases forward_cases CallResult.ok (act o.step) o.steps w with
    ⟨w', hall⟩ | ⟨before, f, after, w₁, hsteps, h, hf⟩
  · have hout : outstanding r (o.execute w).2.calls = o.steps.count r := by
      unfold outstanding
      rw [calls_of_forward hall, count_map_action, count_compensation_map_action]
      simp
    rw [hout]
    refine ⟨Int.natCast_nonneg _, ?_⟩
    rw [Int.natCast_pos, List.count_pos_iff]
    refine ⟨fun hr => .inl ⟨hr, w', hall⟩, ?_⟩
    rintro (⟨hr, -⟩ | ⟨before, f, after, w₁, hsteps, h, hf, -⟩)
    · exact hr
    · rw [hsteps, forward_eq_none h hf] at hall
      cases hall
  · rw [outstanding_of_failure hsteps h hf]
    refine ⟨Int.natCast_nonneg _, ?_⟩
    rw [Int.natCast_pos, List.countP_pos_iff]
    refine ⟨fun ⟨p, hp, hpr⟩ => .inr ⟨before, f, after, w₁, hsteps, h, hf, p, hp, ?_⟩, ?_⟩
    · simpa using hpr
    · rintro (⟨-, w', hall⟩ | ⟨before', f', after', w₁', hsteps', h', hf', p, hp, hpr⟩)
      · rw [hsteps, forward_eq_none h hf] at hall
        cases hall
      · obtain ⟨rfl, rfl, rfl⟩ := failure_unique h hf h' hf' (hsteps.symm.trans hsteps')
        exact ⟨p, hp, by simpa using hpr⟩

/-! ## A sequence of executions -/

/-- `AtMostOnce` from a starting balance. -/
def Bounded (b : ρ → ℤ) (calls : List (SagaCall ρ)) : Prop :=
  ∀ r l, l <+: calls → b r + outstanding r l ≤ 1

theorem bounded_append (b : ρ → ℤ) (c d : List (SagaCall ρ)) :
    Bounded b (c ++ d) ↔ Bounded b c ∧ Bounded (fun r => b r + outstanding r c) d := by
  constructor
  · intro h
    refine ⟨fun r l hl => h r l (hl.trans (List.prefix_append c d)), fun r l hl => ?_⟩
    have hcl := h r (c ++ l) ((List.prefix_append_right_inj c).mpr hl)
    rw [outstanding_append] at hcl
    show b r + outstanding r c + outstanding r l ≤ 1
    omega
  · intro ⟨hc, hd⟩ r l hl
    rcases List.prefix_or_prefix_of_prefix hl (List.prefix_append c d) with hlc | ⟨l', rfl⟩
    · exact hc r l hlc
    · have hl' : b r + outstanding r c + outstanding r l' ≤ 1 :=
        hd r l' ((List.prefix_append_right_inj c).mp hl)
      rw [outstanding_append]
      show b r + (outstanding r c + outstanding r l') ≤ 1
      omega

/-- Within one execution the balance peaks when all its actions are done. -/
theorem bounded_execute (b : ρ → ℤ) (o : SagaOrchestrator ρ W) (w : W) :
    Bounded b (o.execute w).2.calls ↔
      ∀ r, b r + (performed CallResult.ok (act o.step) o.steps w).count r ≤ 1 := by
  refine ⟨fun h r => ?_, fun h r l hl => ?_⟩
  · have hpeak := h r _ performed_prefix_calls
    unfold outstanding at hpeak
    rw [count_map_action, count_compensation_map_action] at hpeak
    omega
  · have hcount := hl.count_le (⟨r, .action, .returned true⟩ : SagaCall ρ)
    rw [count_action_calls] at hcount
    have hr := h r
    unfold outstanding
    omega

/-- What `execute` calls depends on the steps and the world alone. -/
theorem execute_calls_after (o : SagaOrchestrator ρ W) (w w' : W) :
    ((o.after w).execute w').2.calls = (o.execute w').2.calls := by
  rcases forward_cases CallResult.ok (act o.step) o.steps w' with
    ⟨w'', hall⟩ | ⟨before, f, after, w₁, hsteps, h, hf⟩
  · rw [calls_of_forward hall, calls_of_forward (o := o.after w) hall]
    rfl
  · rw [calls_of_failure hsteps h hf, calls_of_failure (o := o.after w) hsteps h hf]
    rfl

theorem executions_eq_flatMap (o : SagaOrchestrator ρ W) (ws : List W) :
    executions o ws = ws.flatMap fun w => (o.execute w).2.calls := by
  suffices h : ∀ o' : SagaOrchestrator ρ W,
      (∀ w, (o'.execute w).2.calls = (o.execute w).2.calls) →
      executions o' ws = ws.flatMap fun w => (o.execute w).2.calls from h o fun _ => rfl
  induction ws with
  | nil => exact fun _ _ => rfl
  | cons w ws ih =>
      intro o' ho'
      rw [executions, List.flatMap_cons, ho' w, ih (o'.after w) fun w' => ?_]
      rw [execute_calls_after, ho' w']

/-- One execution stays in bounds if it performs each step once and only
steps whose balance is zero. -/
theorem bounded_execute_iff {b : ρ → ℤ} (hb : ∀ r, 0 ≤ b r ∧ b r ≤ 1) :
    Bounded b (o.execute w).2.calls ↔
      (performed CallResult.ok (act o.step) o.steps w).Nodup ∧
        ∀ r ∈ performed CallResult.ok (act o.step) o.steps w, b r = 0 := by
  rw [bounded_execute, List.nodup_iff_count_le_one]
  refine ⟨fun h => ⟨fun r => ?_, fun r hr => ?_⟩, fun ⟨hnd, hzero⟩ r => ?_⟩
  · have hr := h r
    have hbr := hb r
    omega
  · have hpos := List.count_pos_iff.mpr hr
    have hr := h r
    have hbr := hb r
    omega
  · by_cases hr : r ∈ performed CallResult.ok (act o.step) o.steps w
    · rw [hzero r hr, zero_add]
      exact_mod_cast hnd r
    · rw [List.count_eq_zero.mpr hr]
      have hbr := hb r
      omega

theorem bounded_flatMap_iff {b : ρ → ℤ} (hb : ∀ r, 0 ≤ b r ∧ b r ≤ 1) :
    Bounded b (ws.flatMap fun w => (o.execute w).2.calls) ↔
      AppliedOnce o ws ∧
        ∀ w ∈ ws, ∀ r ∈ performed CallResult.ok (act o.step) o.steps w, b r = 0 := by
  induction ws generalizing b with
  | nil =>
      refine ⟨fun _ => ⟨⟨by simp, List.Pairwise.nil⟩, by simp⟩, fun _ r l hl => ?_⟩
      rw [List.prefix_nil.mp hl]
      simpa [outstanding] using (hb r).2
  | cons w ws ih =>
      rw [List.flatMap_cons, bounded_append]
      set b' : ρ → ℤ := fun r => b r + outstanding r (o.execute w).2.calls
      have hzero : ∀ r, b' r = 0 ↔ b r = 0 ∧ ¬ LeavesApplied o w r := by
        intro r
        have hout := outstanding_execute o w r
        have hbr := hb r
        rw [← hout.2]
        show b r + outstanding r (o.execute w).2.calls = 0 ↔ _
        omega
      have hrange : Bounded b (o.execute w).2.calls → ∀ r, 0 ≤ b' r ∧ b' r ≤ 1 := by
        intro hbound r
        have hlast := hbound r _ List.prefix_rfl
        have hout := outstanding_execute o w r
        have hbr := hb r
        show 0 ≤ b r + outstanding r (o.execute w).2.calls ∧
          b r + outstanding r (o.execute w).2.calls ≤ 1
        omega
      constructor
      · rintro ⟨hfirst, hrest⟩
        obtain ⟨⟨hnd, hpair⟩, hall⟩ := (ih (hrange hfirst)).mp hrest
        obtain ⟨hndw, hallw⟩ := (bounded_execute_iff hb).mp hfirst
        refine ⟨⟨?_, List.pairwise_cons.mpr ⟨?_, hpair⟩⟩, ?_⟩
        · exact List.forall_mem_cons.mpr ⟨hndw, hnd⟩
        · exact fun w' hw' r hr => ((hzero r).mp (hall w' hw' r hr)).2
        · exact List.forall_mem_cons.mpr
            ⟨hallw, fun w' hw' r hr => ((hzero r).mp (hall w' hw' r hr)).1⟩
      · rintro ⟨⟨hnd, hpair⟩, hall⟩
        obtain ⟨hndw, hnd⟩ := List.forall_mem_cons.mp hnd
        obtain ⟨hleft, hpair⟩ := List.pairwise_cons.mp hpair
        obtain ⟨hallw, hall⟩ := List.forall_mem_cons.mp hall
        have hfirst := (bounded_execute_iff hb).mpr ⟨hndw, hallw⟩
        refine ⟨hfirst, (ih (hrange hfirst)).mpr ⟨⟨hnd, hpair⟩, fun w' hw' r hr => ?_⟩⟩
        exact (hzero r).mpr ⟨hall w' hw' r hr, hleft w' hw' r hr⟩

/-- **Exactly when repeated executions apply each step at most once.** -/
theorem atMostOnce_iff_appliedOnce (o : SagaOrchestrator ρ W) (ws : List W) :
    AtMostOnce (executions o ws) ↔ AppliedOnce o ws := by
  have hbound : AtMostOnce (executions o ws) ↔
      Bounded (fun _ => 0) (ws.flatMap fun w => (o.execute w).2.calls) := by
    rw [executions_eq_flatMap]
    unfold AtMostOnce Bounded
    simp only [zero_add]
  rw [hbound, bounded_flatMap_iff (b := fun _ => 0) fun _ => by omega]
  exact and_iff_left fun _ _ _ _ => rfl

/-- The source's transfer of 500; the world is the two balances. -/
def completedTransfer : SagaOrchestrator Bool (ℤ × ℤ) where
  ctx := { sagaId := "saga-1", txnId := "txn-101" }
  step
    | false => ⟨"DEBIT_SENDER", fun w => (.returned true, (w.1 - 500, w.2)),
        fun w => (.returned true, (w.1 + 500, w.2))⟩
    | true => ⟨"CREDIT_RECEIVER", fun w => (.returned true, (w.1, w.2 + 500)),
        fun w => (.returned true, (w.1, w.2 - 500))⟩
  state := fun _ => {}
  steps := [false, true]

/-- A COMPLETED saga executed again debits and credits again. -/
theorem not_atMostOnce_completedTransfer :
    (completedTransfer.execute (1000, 200)).2.ctx.status = .completed ∧
    (completedTransfer.execute (1000, 200)).2.world = (500, 700) ∧
    ((completedTransfer.after (1000, 200)).execute (500, 700)).2.world = (0, 1200) ∧
    outstanding false (executions completedTransfer [(1000, 200), (500, 700)]) = 2 ∧
    ¬ AtMostOnce (executions completedTransfer [(1000, 200), (500, 700)]) := by
  have htwice : outstanding false (executions completedTransfer [(1000, 200), (500, 700)]) = 2 := by
    decide +kernel
  refine ⟨by decide +kernel, by decide +kernel, by decide +kernel, htwice, fun h => ?_⟩
  have honce := h false _ List.prefix_rfl
  rw [htwice] at honce
  exact absurd honce (by decide)

end Httpe.Saga
