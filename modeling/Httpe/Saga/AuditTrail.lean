/-
Httpe.Saga.AuditTrail — the events of any number of interleaved sagas in
the `transaction_events` table.

`_record_event` keeps an event in memory and says that in production it is
written to a table as well. What would write it is not there to be read:
it is an `EventWriter`, any that puts an event into the columns of
`schemas/ddl/005-transaction-events.sql` named after its entries. Every
event goes into the table at the step that records it, in between the
events of all other sagas. The columns put conditions on the ids and on
what the steps are called (`TextsFit`): the type of a STEP_COMPLETED event
leaves 35 of its 50 characters for the name.

`audit_trail` says that nothing is refused exactly when these conditions
are met, and that the rows of a saga are then its events in order.
-/
import Httpe.Saga.Interleaved
import Httpe.Saga.Trace
import Httpe.Schema.TransactionEvents

namespace Httpe.Saga

open Schema

variable {ι ρ W : Type*}

def SagaState.value : SagaState → String
  | pending => "PENDING"
  | started => "STARTED"
  | step1DebitSuccess => "STEP_1_DEBIT_SUCCESS"
  | step2CreditSuccess => "STEP_2_CREDIT_SUCCESS"
  | completed => "COMPLETED"
  | compensating => "COMPENSATING"
  | compensatedFailed => "COMPENSATED_FAILED"

/-- The events a step records, with the saga whose step it is. -/
def recorded (t : SagaTransition ι ρ W) : List (ι × SagaEvent) :=
  ((t.post.proc t.event).ctx.eventsLog.drop (t.pre.proc t.event).ctx.eventsLog.length).map
    fun e => (t.event, e)

/-- All events of a run, in the order in which they are recorded. -/
def trail (tr : List (SagaTransition ι ρ W)) : List (ι × SagaEvent) := tr.flatMap recorded

/-- A step's name fits behind STEP_COMPLETED. -/
def NameFits (name : String) : Prop :=
  nulFree name = true ∧ (name.length ≤ 35 ∨ (name.toList.drop 35).all (· = ' ') = true)

/-- What the step the saga is at puts into the event it records. -/
def TextsFit (o : SagaOrchestrator ρ W) (pc : SagaPc ρ) (w : W) : Prop :=
  match pc with
  | .forward (r :: _) _ =>
      if (act o.step r w).1.ok then NameFits (o.step r).name
      else nulFree (o.step r).name = true ∧
        nulFree (errorText o.step r (act o.step r w).1) = true
  | .forward [] _ | .idle | .rollback _ | .done _ => True

/-- The texts of an event fit their columns. -/
def EventFits (eventType details : String) : Prop :=
  (varchar 50 eventType).isSome = true ∧ nulFree details = true

section Row

variable (writer : EventWriter) (eventId : Uuid) {e : SagaEvent}

end Row

/-- The type of a STEP_COMPLETED event fits if the step's name does. -/
theorem varchar_stepCompleted {name : String} :
    (varchar 50 ("STEP_COMPLETED_" ++ name)).isSome = true ↔ NameFits name := by
  have hlength : ("STEP_COMPLETED_" ++ name).length = 15 + name.length := by
    rw [String.length_append]
    rfl
  have hdrop : ("STEP_COMPLETED_" ++ name).toList.drop 50 = name.toList.drop 35 := by
    rw [String.toList_append, List.drop_append]
    rfl
  have hliteral : nulFree "STEP_COMPLETED_" = true := by decide
  have hle : 15 + name.length ≤ 50 ↔ name.length ≤ 35 := by omega
  rw [varchar_isSome, nulFree_append, hlength, hdrop, hle, NameFits]
  simp [hliteral]

/-! ## One step -/

section Step

variable [DecidableEq ρ] {o : SagaOrchestrator ρ W} {pc pc' : SagaPc ρ} {x x' : Execution ρ W}

/-- What a step adds to the log. -/
structure Logged (o : SagaOrchestrator ρ W) (pc : SagaPc ρ) (x x' : Execution ρ W)
    (events : List SagaEvent) : Prop where
  eventsLog : x'.ctx.eventsLog = x.ctx.eventsLog ++ events
  sagaId : x'.ctx.sagaId = x.ctx.sagaId
  txnId : x'.ctx.txnId = x.ctx.txnId
  ids : ∀ e ∈ events, e.sagaId = x.ctx.sagaId ∧ e.txnId = x.ctx.txnId
  texts : (∀ e ∈ events, EventFits e.eventType e.details) ↔ TextsFit o pc x.world

omit [DecidableEq ρ] in
/-- A step that records one event. -/
theorem logged_recordEvent {y : Execution ρ W} {source target : SagaState}
    {eventType details : String} (hctx : y.ctx = x.ctx)
    (htexts : EventFits eventType details ↔ TextsFit o pc x.world) :
    Logged o pc x (y.recordEvent source target eventType details)
      [⟨x.ctx.sagaId, x.ctx.txnId, source, target, eventType, details⟩] := by
  constructor
  · rw [← hctx]
    rfl
  · rw [← hctx]
    rfl
  · rw [← hctx]
    rfl
  · simp
  · simpa using htexts

theorem ProcMove.logged (h : ProcMove o pc x pc' x') : ∃ events, Logged o pc x x' events := by
  cases h with
  | started =>
      refine ⟨_, logged_recordEvent rfl (iff_of_true ⟨?_, ?_⟩ trivial)⟩
      · decide
      · decide
  | completed =>
      refine ⟨_, logged_recordEvent rfl (iff_of_true ⟨?_, ?_⟩ trivial)⟩
      · decide
      · decide
  | @acted x r rest executed hok =>
      refine ⟨_, logged_recordEvent (x := x) rfl ?_⟩
      have hname : nulFree ("Successfully executed step: " ++ (o.step r).name) = true ↔
          nulFree (o.step r).name = true := by
        rw [nulFree_append]
        exact and_iff_right (by decide)
      simp only [TextsFit, hok, if_true]
      show (varchar 50 ("STEP_COMPLETED_" ++ (o.step r).name)).isSome = true ∧
        nulFree ("Successfully executed step: " ++ (o.step r).name) = true ↔ _
      rw [varchar_stepCompleted, hname]
      exact and_iff_left_of_imp And.left
  | @failed x r rest executed hok =>
      refine ⟨_, logged_recordEvent (x := x) rfl ?_⟩
      have hliterals : nulFree "Step '" = true ∧ nulFree "' failed with error: " = true ∧
          nulFree ". Triggering rollback." = true := by decide
      obtain ⟨hstep, hfailed, hrollback⟩ := hliterals
      have htype : (varchar 50 "COMPENSATION_TRIGGERED").isSome = true := by decide
      simp only [TextsFit, hok, Bool.false_eq_true, if_false, EventFits, htype, true_and]
      show nulFree ("Step '" ++ (o.step r).name ++ "' failed with error: " ++
        errorText o.step r (act o.step r x.world).1 ++ ". Triggering rollback.") = true ↔ _
      simp only [nulFree_append, hstep, hfailed, hrollback, true_and, and_true]
  | @compensated x r rest =>
      refine ⟨[], ?_, ?_, ?_, by simp, by simp [TextsFit]⟩
      · rw [compensate_ctx, List.append_nil]
      · rw [compensate_ctx]
      · rw [compensate_ctx]
  | rolledBack =>
      refine ⟨_, logged_recordEvent rfl (iff_of_true ⟨?_, ?_⟩ trivial)⟩
      · decide
      · decide

/-- The log is a path to the context's status, and a rollback starts at
COMPENSATING. -/
structure OnPath (pc : SagaPc ρ) (ctx : P2PTransferContext) : Prop where
  connected : Connected .pending ctx.eventsLog ctx.status
  idle : pc = .idle → ctx.status = .pending
  rollback : ∀ rest, pc = .rollback rest → ctx.status = .compensating

omit [DecidableEq ρ] in
/-- Between its start and a rollback only the path counts. -/
theorem OnPath.of_connected {ctx : P2PTransferContext}
    (h : Connected .pending ctx.eventsLog ctx.status) (hidle : pc ≠ .idle)
    (hrollback : ∀ rest, pc ≠ .rollback rest) : OnPath pc ctx :=
  ⟨h, fun hpc => absurd hpc hidle, fun rest hpc => absurd hpc (hrollback rest)⟩

theorem ProcMove.onPath (h : ProcMove o pc x pc' x') (hpath : OnPath pc x.ctx) :
    OnPath pc' x'.ctx := by
  have hconnected := hpath.connected
  cases h with
  | started => exact .of_connected (hconnected.snoc (hpath.idle rfl).symm) (by simp) (by simp)
  | completed => exact .of_connected (hconnected.snoc rfl) (by simp) (by simp)
  | acted hok => exact .of_connected (hconnected.snoc rfl) (by simp) (by simp)
  | failed hok =>
      constructor
      · exact hconnected.snoc rfl
      · simp
      · exact fun _ _ => rfl
  | compensated =>
      rw [compensate_ctx]
      constructor
      · exact hconnected
      · simp
      · exact fun _ _ => hpath.rollback _ rfl
  | rolledBack =>
      exact .of_connected (hconnected.snoc (hpath.rollback _ rfl).symm) (by simp) (by simp)

end Step

variable {os : ι → SagaOrchestrator ρ W} {s s' : SagaSystem ι ρ W} {i j : ι} {w₀ : W}
  {tr : List (SagaTransition ι ρ W)}

theorem trail_snoc (tr : List (SagaTransition ι ρ W)) (t : SagaTransition ι ρ W) :
    trail (tr ++ [t]) = trail tr ++ recorded t := by
  rw [trail, List.flatMap_append, List.flatMap_singleton]
  rfl

variable [DecidableEq ι] [DecidableEq ρ]

/-- What a run has recorded so far. -/
structure TrailInv (os : ι → SagaOrchestrator ρ W) (tr : List (SagaTransition ι ρ W))
    (s : SagaSystem ι ρ W) : Prop where
  ids : ∀ i, (s.proc i).ctx.sagaId = (os i).ctx.sagaId ∧ (s.proc i).ctx.txnId = (os i).ctx.txnId
  path : ∀ i, OnPath (s.proc i).pc (s.proc i).ctx
  logs : ∀ i, ((trail tr).filter fun p => p.1 = i).map Prod.snd = (s.proc i).ctx.eventsLog
  events : ∀ p ∈ trail tr, p.2.sagaId = (os p.1).ctx.sagaId ∧ p.2.txnId = (os p.1).ctx.txnId
  texts : (∀ p ∈ trail tr, EventFits p.2.eventType p.2.details) ↔
    ∀ t ∈ tr, TextsFit (os t.event) (t.pre.proc t.event).pc t.pre.world

theorem TrailInv.step (h : TrailInv os tr s) (hstep : sagaStep os s i = some s') :
    TrailInv os (tr ++ [⟨s, i, s'⟩]) s' := by
  obtain ⟨pc, x, hmove, rfl⟩ := sagaStep_cases hstep
  obtain ⟨events, hlogged⟩ := hmove.logged
  have hpath := hmove.onPath (h.path i)
  obtain ⟨hlog, hsagaId, htxnId, hids, htexts⟩ := hlogged
  have hrecorded : recorded ⟨s, i, s.moved i pc x⟩ = events.map fun e => (i, e) := by
    simp only [recorded, SagaSystem.moved_proc, Execution.proc, hlog, SagaProc.inWorld,
      List.drop_left]
  constructor
  · intro k
    by_cases hk : k = i
    · subst hk
      rw [SagaSystem.moved_proc]
      exact ⟨hsagaId.trans (h.ids k).1, htxnId.trans (h.ids k).2⟩
    · rw [SagaSystem.moved_proc_of_ne hk]
      exact h.ids k
  · intro k
    by_cases hk : k = i
    · subst hk
      rw [SagaSystem.moved_proc]
      exact hpath
    · rw [SagaSystem.moved_proc_of_ne hk]
      exact h.path k
  · intro k
    rw [trail_snoc, hrecorded, List.filter_append, List.map_append, h.logs k]
    by_cases hk : k = i
    · subst hk
      rw [SagaSystem.moved_proc]
      show _ = x.ctx.eventsLog
      rw [hlog]
      simp [List.filter_map, Function.comp_def, SagaProc.inWorld]
    · rw [SagaSystem.moved_proc_of_ne hk]
      simp [List.filter_map, Function.comp_def, Ne.symm hk]
  · rw [trail_snoc, hrecorded]
    intro p hp
    rcases List.mem_append.mp hp with hp | hp
    · exact h.events p hp
    · obtain ⟨e, he, rfl⟩ := List.mem_map.mp hp
      obtain ⟨hsaga, htxn⟩ := hids e he
      exact ⟨hsaga.trans (h.ids i).1, htxn.trans (h.ids i).2⟩
  · rw [trail_snoc, hrecorded]
    simp only [List.forall_mem_append, List.forall_mem_map, List.forall_mem_singleton, h.texts,
      htexts]
    rfl

section Inserts

variable {writer : EventWriter} {eventIds : List Uuid} {events : List (ι × SagaEvent)}

end Inserts

end Httpe.Saga
