/-
Httpe.Lib.Run — runs of a labelled step function, with their history.

A system is a partial step function `step : σ → ε → Option σ`: `none`
means the event is not enabled in that state. A `Run` records every
transition it made (state before, event, state after), oldest first, so
a statement about a whole history is an ordinary statement about a list.

* `Run.invariant` is the induction rule every run property here uses: an
  invariant may speak about the history as well as the state.
* `Run.split` cuts a run at any of its transitions. Where a history is
  extended by one transition, `snoc_eq_append_cons` finds the cut again,
  and `forall_split_snoc` is the rule for a condition on every cut.
* `Run.mono` is about a stamp (a version, a clock, a counter): if no step
  lowers it, no run does.
* `exec` replays a list of events and skips those that are not enabled;
  `run_exec` says the result is always a run, which is how a concrete
  schedule is turned into one.
-/
import Mathlib.Order.Basic
import Mathlib.Data.List.Basic

namespace Httpe

variable {σ ε : Type*}

/-- One step of a run: the state before, the event, the state after. -/
structure Transition (σ ε : Type*) where
  pre : σ
  event : ε
  post : σ

/-- `Run step s₀ tr s`: from `s₀` the transitions `tr`, in order, lead
to `s`. -/
inductive Run (step : σ → ε → Option σ) (s₀ : σ) : List (Transition σ ε) → σ → Prop
  | refl : Run step s₀ [] s₀
  | tail {tr : List (Transition σ ε)} {s s' : σ} {e : ε} :
      Run step s₀ tr s → step s e = some s' → Run step s₀ (tr ++ [⟨s, e, s'⟩]) s'

/-! ## One more element -/

theorem forall_mem_snoc {α : Type*} {P : α → Prop} {w : List α} {t : α} (h : ∀ u ∈ w, P u)
    (ht : P t) : ∀ u ∈ w ++ [t], P u := by
  intro u hu
  rcases List.mem_append.mp hu with hu | hu
  · exact h u hu
  · rw [List.mem_singleton.mp hu]
    exact ht

/-- A cut of a list extended by one element is before that element, or
is a cut of the list. -/
theorem snoc_eq_append_cons {α : Type*} {w l r : List α} {t u : α} (h : w ++ [t] = l ++ u :: r) :
    (w = l ∧ t = u ∧ r = []) ∨ ∃ r', r = r' ++ [t] ∧ w = l ++ u :: r' := by
  rcases List.eq_nil_or_concat r with rfl | ⟨r', v, rfl⟩
  · obtain ⟨rfl, hu⟩ := List.append_inj' h rfl
    exact .inl ⟨rfl, List.singleton_inj.mp hu, rfl⟩
  · rw [List.concat_eq_append, ← List.cons_append, ← List.append_assoc] at h
    obtain ⟨rfl, hv⟩ := List.append_inj' h rfl
    rw [List.concat_eq_append, List.singleton_inj.mp hv]
    exact .inr ⟨r', rfl, rfl⟩

/-- A condition on every cut of a list is one on every cut of its first
part. -/
theorem forall_split_left {α : Type*} {P : List α → α → Prop} {w v : List α}
    (h : ∀ l u r, w ++ v = l ++ u :: r → P l u) : ∀ l u r, w = l ++ u :: r → P l u := by
  rintro l u r rfl
  exact h l u (r ++ v) (by simp)

/-- A cut of a list is one of the list extended. -/
theorem exists_split_snoc {α : Type*} {P : List α → α → Prop} {w : List α} {t : α}
    (h : ∃ l u r, w = l ++ u :: r ∧ P l u) : ∃ l u r, w ++ [t] = l ++ u :: r ∧ P l u := by
  obtain ⟨l, u, r, rfl, hu⟩ := h
  exact ⟨l, u, r ++ [t], by simp, hu⟩

theorem forall_split_snoc {α : Type*} {P : List α → α → Prop} {w : List α} {t : α} :
    (∀ l u r, w ++ [t] = l ++ u :: r → P l u) ↔
      (∀ l u r, w = l ++ u :: r → P l u) ∧ P w t := by
  refine ⟨fun h => ⟨forall_split_left h, h w t [] rfl⟩, fun ⟨hw, ht⟩ l u r h => ?_⟩
  rcases snoc_eq_append_cons h with ⟨rfl, rfl, -⟩ | ⟨r', -, hcut⟩
  · exact ht
  · exact hw l u r' hcut

variable {step : σ → ε → Option σ} {s₀ s : σ} {tr : List (Transition σ ε)}

namespace Run

/-- The induction rule: what holds before the first step and is kept by
every step holds at the end. The step case may use that the invariant's
state was reached by that history. -/
theorem invariant (Inv : List (Transition σ ε) → σ → Prop) (h0 : Inv [] s₀)
    (hstep : ∀ tr s e s', Run step s₀ tr s → Inv tr s → step s e = some s' →
      Inv (tr ++ [⟨s, e, s'⟩]) s')
    (h : Run step s₀ tr s) : Inv tr s := by
  induction h with
  | refl => exact h0
  | tail hr hs ih => exact hstep _ _ _ _ hr ih hs

/-- The same rule under a condition `P` on every transition made. -/
theorem invariant_of_forall (P : Transition σ ε → Prop)
    (Inv : List (Transition σ ε) → σ → Prop) (h0 : Inv [] s₀)
    (hstep : ∀ tr s e s', Run step s₀ tr s → Inv tr s → step s e = some s' →
      P ⟨s, e, s'⟩ → Inv (tr ++ [⟨s, e, s'⟩]) s')
    (h : Run step s₀ tr s) (hP : ∀ t ∈ tr, P t) : Inv tr s := by
  induction h with
  | refl => exact h0
  | tail hr hs ih =>
      exact hstep _ _ _ _ hr (ih fun t ht => hP t (List.mem_append_left _ ht)) hs
        (hP _ (by simp))

/-- A run of one step function is a run of another that agrees with it in
every state the other reaches. -/
theorem of_agree {step' : σ → ε → Option σ} (h : Run step s₀ tr s)
    (hagree : ∀ tr s e, Run step' s₀ tr s → step s e = step' s e) : Run step' s₀ tr s := by
  induction h with
  | refl => exact .refl
  | tail _ hs ih => exact ih.tail (hagree _ _ _ ih ▸ hs)

theorem step_of_mem (h : Run step s₀ tr s) : ∀ t ∈ tr, step t.pre t.event = some t.post := by
  refine h.invariant (fun tr _ => ∀ t ∈ tr, step t.pre t.event = some t.post) (by simp) ?_
  exact fun tr s e s' _ ih hs => forall_mem_snoc ih hs

/-- A step in front of a run is a run. -/
theorem head {s' : σ} {e : ε} (hs : step s₀ e = some s') (h : Run step s' tr s) :
    Run step s₀ (⟨s₀, e, s'⟩ :: tr) s := by
  induction h with
  | refl => exact Run.refl.tail hs
  | tail _ hs' ih => exact ih.tail hs'

theorem append {s' : σ} {tr' : List (Transition σ ε)} (h : Run step s₀ tr s)
    (h' : Run step s tr' s') : Run step s₀ (tr ++ tr') s' := by
  induction h' with
  | refl => rw [List.append_nil]; exact h
  | tail _ hs ih => rw [← List.append_assoc]; exact ih.tail hs

/-- A run of one step function is a run of any that makes its steps. -/
theorem weaken {step' : σ → ε → Option σ} (h : Run step s₀ tr s)
    (hstep : ∀ s e s', step s e = some s' → step' s e = some s') : Run step' s₀ tr s := by
  induction h with
  | refl => exact .refl
  | tail _ hs ih => exact ih.tail (hstep _ _ _ hs)

/-- A run ends where its last transition does. -/
theorem eq_post {l : List (Transition σ ε)} {t : Transition σ ε}
    (h : Run step s₀ (l ++ [t]) s) : s = t.post := by
  generalize hw : l ++ [t] = w at h
  cases h with
  | refl => simp at hw
  | tail _ _ =>
      obtain ⟨-, ht⟩ := List.append_inj' hw rfl
      rw [List.singleton_inj.mp ht]

/-- A run cut at one of its transitions: a run up to it, the step
itself, and a run from it on. -/
theorem split {l r : List (Transition σ ε)} {t : Transition σ ε}
    (h : Run step s₀ (l ++ t :: r) s) :
    Run step s₀ l t.pre ∧ step t.pre t.event = some t.post ∧ Run step t.post r s := by
  generalize hw : l ++ t :: r = w at h
  induction h generalizing r with
  | refl => simp at hw
  | @tail tr s s' e hr hs ih =>
      rcases snoc_eq_append_cons hw.symm with ⟨rfl, rfl, rfl⟩ | ⟨r', rfl, hcut⟩
      · exact ⟨hr, hs, .refl⟩
      · obtain ⟨hreached, hstep, hrest⟩ := ih hcut.symm
        exact ⟨hreached, hstep, hrest.tail hs⟩

/-- Every transition of a run starts in a state some prefix of the
history reached. -/
theorem reached_of_mem (h : Run step s₀ tr s) {t : Transition σ ε} (ht : t ∈ tr) :
    ∃ l r, tr = l ++ t :: r ∧ Run step s₀ l t.pre ∧ Run step t.post r s := by
  obtain ⟨l, r, rfl⟩ := List.append_of_mem ht
  exact ⟨l, r, rfl, h.split.1, h.split.2.2⟩

/-! ## Stamps -/

/-- A stamp that no step lowers is not lowered by a run. -/
theorem mono {α : Type*} [Preorder α] (stamp : σ → α)
    (hstep : ∀ s e s', step s e = some s' → stamp s ≤ stamp s') (h : Run step s₀ tr s) :
    stamp s₀ ≤ stamp s := by
  refine h.invariant (fun _ s => stamp s₀ ≤ stamp s) le_rfl ?_
  exact fun tr s e s' _ ih hs => ih.trans (hstep s e s' hs)

end Run

/-! ## Replaying a schedule -/

/-- Replay a list of events, skipping those that are not enabled. -/
def exec (step : σ → ε → Option σ) : σ → List ε → List (Transition σ ε) × σ
  | s, [] => ([], s)
  | s, e :: es =>
      match step s e with
      | some s' => (⟨s, e, s'⟩ :: (exec step s' es).1, (exec step s' es).2)
      | none => exec step s es

theorem event_of_mem_exec {step : σ → ε → Option σ} {es : List ε} {t : Transition σ ε} :
    ∀ {s}, t ∈ (exec step s es).1 → t.event ∈ es := by
  induction es with
  | nil => exact nofun
  | cons e es ih =>
      intro s ht
      simp only [exec] at ht
      cases hs : step s e with
      | none =>
          rw [hs] at ht
          exact List.mem_cons_of_mem e (ih ht)
      | some s' =>
          rw [hs] at ht
          rcases List.mem_cons.mp ht with rfl | ht
          · exact List.mem_cons_self
          · exact List.mem_cons_of_mem e (ih ht)

theorem run_exec (step : σ → ε → Option σ) (es : List ε) :
    ∀ s, Run step s (exec step s es).1 (exec step s es).2 := by
  induction es with
  | nil => intro s; exact .refl
  | cons e es ih =>
      intro s
      simp only [exec]
      cases hs : step s e with
      | none => exact ih s
      | some s' => exact (ih s').head hs

end Httpe
