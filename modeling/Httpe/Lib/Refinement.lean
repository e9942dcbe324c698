/-
Httpe.Lib.Refinement — one system's runs seen as runs of another.

A concrete step may show an event of an abstract system, or nothing. If
a relation between the states is kept, the shown event being possible
and made in the one case and the abstract state staying where it is in
the other, then every concrete run is followed by an abstract one
(`StutterSimulation.follow`). `obs` is what can be seen of an abstract
event: an abstract run may name things, such as calls, that the concrete
one leaves anonymous.

* `Realizes.run` is the other direction: if every abstract step can be
  made by some concrete run that shows it, every abstract run can be.
* `exec_eq_of_run` says that a run is the replay of its own events, so a
  run that follows another is known by what it shows.
-/
import Httpe.Lib.Run

namespace Httpe

variable {σ τ ε η ο : Type*}

/-- Every step from a reached state that shows `o` is matched by an
abstract event seen as `o`; one that shows nothing is not matched. -/
def StutterSimulation (step : σ → ε → Option σ) (s₀ : σ) (stepA : τ → η → Option τ)
    (shows : Transition σ ε → Option ο) (obs : η → ο) (r : σ → τ → Prop) : Prop :=
  ∀ tr s e s' a, Run step s₀ tr s → r s a → step s e = some s' →
    match shows ⟨s, e, s'⟩ with
    | some o => ∃ f a', obs f = o ∧ stepA a f = some a' ∧ r s' a'
    | none => r s' a

variable {step : σ → ε → Option σ} {s₀ s : σ} {stepA : τ → η → Option τ} {a₀ : τ}
  {shows : Transition σ ε → Option ο} {obs : η → ο} {r : σ → τ → Prop}
  {tr : List (Transition σ ε)}

/-- The abstract run that follows a concrete one. -/
theorem StutterSimulation.follow (h : StutterSimulation step s₀ stepA shows obs r)
    (h0 : r s₀ a₀) (hrun : Run step s₀ tr s) :
    ∃ tr' a, Run stepA a₀ tr' a ∧ r s a ∧
      tr'.map (fun t => obs t.event) = tr.filterMap shows := by
  induction hrun with
  | refl => exact ⟨[], a₀, .refl, h0, rfl⟩
  | @tail tr s s' e hreached hstep ih =>
      obtain ⟨tr', a, hrun', hr, hshown⟩ := ih
      have hmatch := h tr s e s' a hreached hr hstep
      cases hshows : shows ⟨s, e, s'⟩ with
      | none =>
          rw [hshows] at hmatch
          refine ⟨tr', a, hrun', hmatch, ?_⟩
          rw [hshown, List.filterMap_append]
          simp [hshows]
      | some o =>
          rw [hshows] at hmatch
          obtain ⟨f, a', hobs, hstep', hr'⟩ := hmatch
          refine ⟨tr' ++ [⟨a, f, a'⟩], a', hrun'.tail hstep', hr', ?_⟩
          rw [List.map_append, hshown, List.filterMap_append]
          simp [hshows, hobs]

/-- Every abstract step on an event meeting `P` is made by a concrete run
that shows that event and no other. -/
def Realizes (step : σ → ε → Option σ) (stepA : τ → η → Option τ)
    (shows : Transition σ ε → Option η) (P : η → Prop) (r : σ → τ → Prop) : Prop :=
  ∀ s a f a', r s a → P f → stepA a f = some a' →
    ∃ tr s', Run step s tr s' ∧ r s' a' ∧ tr.filterMap shows = [f]

/-- The concrete run that makes an abstract one. -/
theorem Realizes.run {shows : Transition σ ε → Option η} {P : η → Prop}
    (h : Realizes step stepA shows P r) (h0 : r s₀ a₀) {tr' : List (Transition τ η)} {a : τ}
    (hrun : Run stepA a₀ tr' a) (hP : ∀ t ∈ tr', P t.event) :
    ∃ tr s, Run step s₀ tr s ∧ r s a ∧ tr.filterMap shows = tr'.map Transition.event := by
  induction hrun with
  | refl => exact ⟨[], s₀, .refl, h0, rfl⟩
  | @tail tr' a a' f hreached hstep ih =>
      obtain ⟨tr, s, hrun, hr, hshown⟩ := ih fun t ht => hP t (List.mem_append_left _ ht)
      have hf : P f := hP ⟨a, f, a'⟩ (by simp)
      obtain ⟨tr₁, s', hrun₁, hr', hshown₁⟩ := h s a f a' hr hf hstep
      refine ⟨tr ++ tr₁, s', hrun.append hrun₁, hr', ?_⟩
      rw [List.filterMap_append, hshown, hshown₁, List.map_append]
      rfl

/-! ## A run is the replay of its events -/

theorem exec_append (step : σ → ε → Option σ) (es fs : List ε) : ∀ s,
    exec step s (es ++ fs)
      = ((exec step s es).1 ++ (exec step (exec step s es).2 fs).1,
          (exec step (exec step s es).2 fs).2) := by
  induction es with
  | nil => intro s; rfl
  | cons e es ih =>
      intro s
      simp only [List.cons_append, exec]
      cases step s e with
      | none => exact ih s
      | some s' => simp [ih s']

theorem exec_eq_of_run (hrun : Run step s₀ tr s) :
    exec step s₀ (tr.map Transition.event) = (tr, s) := by
  induction hrun with
  | refl => rfl
  | tail _ hstep ih => simp [exec_append, ih, exec, hstep]

end Httpe
