/-
Httpe.Lib.Simulation — two machines that nobody can tell apart.

A machine takes an input and gives an output. Inputs carry a stamp, the
reading of a clock, and a relation between the states of two machines may
depend on the last one. If it is kept by every input whose stamp is not
before the last, and each time the outputs agree, then the machines give
the same outputs on every sequence of inputs with nondecreasing stamps.

The second machine may also refuse inputs. Where
it refuses exactly what the first machine is not fit for, it refuses none
of a sequence exactly when all are fit (`RefusingSimulation.refuses_none`),
and then nobody can tell the two apart (`RefusingSimulation.outputs_eq`).
-/
import Mathlib.Data.List.Chain
import Mathlib.Order.Basic

namespace Httpe

variable {σ τ ε ο T : Type*}

/-- What a machine gives out on a list of inputs. -/
def outputs (step : σ → ε → ο × σ) : σ → List ε → List ο
  | _, [] => []
  | s, e :: es => (step s e).1 :: outputs step (step s e).2 es

variable [Preorder T]

/-- The relation `r` is kept from one stamp to the next, and the outputs
agree under it. -/
def TimedSimulation (stamp : ε → T) (step₁ : σ → ε → ο × σ) (step₂ : τ → ε → ο × τ)
    (r : T → σ → τ → Prop) : Prop :=
  ∀ n s t e, r n s t → n ≤ stamp e →
    (step₁ s e).1 = (step₂ t e).1 ∧ r (stamp e) (step₁ s e).2 (step₂ t e).2

theorem TimedSimulation.outputs_eq {stamp : ε → T} {step₁ : σ → ε → ο × σ}
    {step₂ : τ → ε → ο × τ} {r : T → σ → τ → Prop}
    (h : TimedSimulation stamp step₁ step₂ r) : ∀ (es : List ε) (n : T) (s : σ) (t : τ),
    r n s t → List.IsChain (· ≤ ·) (n :: es.map stamp) → outputs step₁ s es = outputs step₂ t es
  | [], _, _, _, _, _ => rfl
  | e :: es, n, s, t, hr, hclock => by
      rw [List.map_cons, List.isChain_cons_cons] at hclock
      obtain ⟨hle, hclock⟩ := hclock
      obtain ⟨hout, hnext⟩ := h n s t e hr hle
      rw [outputs, outputs, hout, h.outputs_eq es (stamp e) _ _ hnext hclock]

/-- From a relation that holds at every stamp, as between two machines
that hold nothing yet. -/
theorem TimedSimulation.outputs_eq_of_forall {stamp : ε → T} {step₁ : σ → ε → ο × σ}
    {step₂ : τ → ε → ο × τ} {r : T → σ → τ → Prop} (h : TimedSimulation stamp step₁ step₂ r)
    {es : List ε} {s : σ} {t : τ} (hr : ∀ n, r n s t)
    (hclock : List.IsChain (· ≤ ·) (es.map stamp)) : outputs step₁ s es = outputs step₂ t es := by
  cases es with
  | nil => rfl
  | cons e es =>
      refine h.outputs_eq (e :: es) (stamp e) s t (hr _) ?_
      rw [List.map_cons] at hclock ⊢
      exact List.isChain_cons_cons.mpr ⟨le_rfl, hclock⟩

/-! ## Without stamps -/

/-- The state after a list of inputs. -/
def after (step : σ → ε → ο × σ) : σ → List ε → σ
  | s, [] => s
  | s, e :: es => after step (step s e).2 es

theorem after_snoc (step : σ → ε → ο × σ) (e : ε) :
    ∀ (s : σ) (es : List ε), after step s (es ++ [e]) = (step (after step s es) e).2
  | _, [] => rfl
  | s, f :: es => after_snoc step e (step s f).2 es

/-- A relation that every input keeps, with the outputs agreeing under
it. -/
theorem outputs_eq_of_simulation {step₁ : σ → ε → ο × σ} {step₂ : τ → ε → ο × τ}
    (r : σ → τ → Prop)
    (h : ∀ s t e, r s t → (step₁ s e).1 = (step₂ t e).1 ∧ r (step₁ s e).2 (step₂ t e).2)
    (es : List ε) : ∀ {s : σ} {t : τ}, r s t →
      outputs step₁ s es = outputs step₂ t es ∧ r (after step₁ s es) (after step₂ t es) := by
  induction es with
  | nil => exact fun hr => ⟨rfl, hr⟩
  | cons e es ih =>
      intro s t hr
      obtain ⟨hout, hnext⟩ := h s t e hr
      obtain ⟨houts, hafter⟩ := ih hnext
      refine ⟨?_, hafter⟩
      rw [outputs, outputs, hout, houts]

/-! ## A machine that refuses -/

/-- Every input meets `P` in the state it comes in. -/
def Along (step : σ → ε → ο × σ) (P : σ → ε → Prop) : σ → List ε → Prop
  | _, [] => True
  | s, e :: es => P s e ∧ Along step P (step s e).2 es

/-- Of the inputs that meet `Q`, the second machine refuses those that do
not meet `P` in the first one's state and answers the others alike. -/
def RefusingSimulation (step₁ : σ → ε → ο × σ) (step₂ : τ → ε → Option ο × τ)
    (P : σ → ε → Prop) (Q : ε → Prop) (r : σ → τ → Prop) : Prop :=
  ∀ s t e, r s t → Q e →
    (P s e ∧ (step₂ t e).1 = some (step₁ s e).1 ∧ r (step₁ s e).2 (step₂ t e).2) ∨
      (¬ P s e ∧ (step₂ t e).1 = none)

namespace RefusingSimulation

variable {step₁ : σ → ε → ο × σ} {step₂ : τ → ε → Option ο × τ} {P : σ → ε → Prop} {Q : ε → Prop}
  {r : σ → τ → Prop} {es : List ε}

theorem outputs_eq (h : RefusingSimulation step₁ step₂ P Q r) (hQ : ∀ e ∈ es, Q e) :
    ∀ {s : σ} {t : τ}, r s t → Along step₁ P s es →
      outputs step₂ t es = (outputs step₁ s es).map some ∧
        r (after step₁ s es) (after step₂ t es) := by
  induction es with
  | nil => exact fun hr _ => ⟨rfl, hr⟩
  | cons e es ih =>
      rintro s t hr ⟨hP, halong⟩
      rcases h s t e hr (hQ e List.mem_cons_self) with ⟨-, hanswer, hr'⟩ | ⟨hno, -⟩
      · obtain ⟨houtputs, hafter⟩ := ih (fun f hf => hQ f (List.mem_cons_of_mem e hf)) hr' halong
        refine ⟨?_, hafter⟩
        simp only [outputs, hanswer, houtputs, List.map_cons]
      · exact absurd hP hno

theorem refuses_none (h : RefusingSimulation step₁ step₂ P Q r) (hQ : ∀ e ∈ es, Q e) :
    ∀ {s : σ} {t : τ}, r s t → (none ∉ outputs step₂ t es ↔ Along step₁ P s es) := by
  induction es with
  | nil => exact fun _ => by simp [outputs, Along]
  | cons e es ih =>
      intro s t hr
      rcases h s t e hr (hQ e List.mem_cons_self) with ⟨hP, hanswer, hr'⟩ | ⟨hno, hanswer⟩
      · have hrest := ih (fun f hf => hQ f (List.mem_cons_of_mem e hf)) hr'
        simp [outputs, Along, hanswer, hP, hrest]
      · simp [outputs, Along, hanswer, hno]

end RefusingSimulation

end Httpe
