/-
Httpe.Lib.Compensation — sequences of fallible acts with compensations,
over any world.

`forward` performs acts in order for as long as they succeed;
`backward` performs compensations in order whatever they return and
keeps each answer. Both are plain recursions on the list of steps, so an
orchestrator is described by the prefix that succeeded and by the two
passes over it.

`forward_invariant`, `backward_invariant` and `backward_establishes` are
the rules for a property of the world: kept by every act, kept by every
compensation, brought about by one of them and kept by the rest.
`backward_undo` composes exact inverses: acts need not commute, because
the compensations run in the reverse order.

The last section is about money: if each act moves an additive quantity
by a fixed amount when it succeeds and its compensation moves it back
when that succeeds, then what remains after both passes is exactly the
amounts whose compensation did not succeed.
-/
import Mathlib.Algebra.BigOperators.Group.List.Basic
import Mathlib.Algebra.Group.Basic
import Mathlib.Tactic.Abel

namespace Httpe.Compensation

variable {ρ W R : Type*}

/-- The world after all acts of the list succeeded in order, or `none`
if one of them did not. -/
def forward (ok : R → Bool) (act : ρ → W → R × W) : List ρ → W → Option W
  | [], w => some w
  | r :: rest, w => if ok (act r w).1 then forward ok act rest (act r w).2 else none

/-- Every compensation in order, with its answer, and the world they leave. -/
def backward (comp : ρ → W → R × W) : List ρ → W → List (ρ × R) × W
  | [], w => ([], w)
  | r :: rest, w =>
      ((r, (comp r w).1) :: (backward comp rest (comp r w).2).1,
        (backward comp rest (comp r w).2).2)

variable {ok : R → Bool} {act comp : ρ → W → R × W} {r : ρ} {rest l : List ρ} {w w' : W}

theorem forward_cons_of_ok (h : ok (act r w).1 = true) :
    forward ok act (r :: rest) w = forward ok act rest (act r w).2 := by
  simp [forward, h]

theorem forward_cons_eq_some (h : forward ok act (r :: rest) w = some w') :
    ok (act r w).1 = true ∧ forward ok act rest (act r w).2 = some w' := by
  simp only [forward] at h
  split at h
  · exact ⟨‹_›, h⟩
  · cases h

@[simp] theorem backward_map_fst (comp : ρ → W → R × W) (l : List ρ) (w : W) :
    (backward comp l w).1.map Prod.fst = l := by
  induction l generalizing w with
  | nil => rfl
  | cons r rest ih => simp [backward, ih]

/-- Either every act succeeds or there is a first one that does not. -/
theorem forward_cases (ok : R → Bool) (act : ρ → W → R × W) (l : List ρ) (w : W) :
    (∃ w', forward ok act l w = some w') ∨
      ∃ before f after w₁, l = before ++ f :: after ∧ forward ok act before w = some w₁ ∧
        ok (act f w₁).1 = false := by
  induction l generalizing w with
  | nil => exact .inl ⟨w, rfl⟩
  | cons r rest ih =>
      cases hok : ok (act r w).1 with
      | false => exact .inr ⟨[], r, rest, w, rfl, rfl, hok⟩
      | true =>
          rw [forward_cons_of_ok hok]
          rcases ih (act r w).2 with hall | ⟨before, f, after, w₁, rfl, hbefore, hf⟩
          · exact .inl hall
          · exact .inr ⟨r :: before, f, after, w₁, rfl, by rwa [forward_cons_of_ok hok], hf⟩

/-- The acts that succeed before the first one that does not. -/
def performed (ok : R → Bool) (act : ρ → W → R × W) : List ρ → W → List ρ
  | [], _ => []
  | r :: rest, w => if ok (act r w).1 then r :: performed ok act rest (act r w).2 else []

theorem performed_of_forward (h : forward ok act l w = some w') :
    performed ok act l w = l := by
  induction l generalizing w with
  | nil => rfl
  | cons r rest ih =>
      obtain ⟨hok, htail⟩ := forward_cons_eq_some h
      rw [performed, if_pos hok, ih htail]

theorem performed_of_failure {before after : List ρ} {f : ρ}
    (h : forward ok act before w = some w') (hf : ok (act f w').1 = false) :
    performed ok act (before ++ f :: after) w = before := by
  induction before generalizing w with
  | nil => cases h; simp [performed, hf]
  | cons r before ih =>
      obtain ⟨hok, htail⟩ := forward_cons_eq_some h
      rw [List.cons_append, performed, if_pos hok, ih htail]

theorem forward_eq_none {before after : List ρ} {f : ρ}
    (h : forward ok act before w = some w') (hf : ok (act f w').1 = false) :
    forward ok act (before ++ f :: after) w = none := by
  induction before generalizing w with
  | nil => cases h; simp [forward, hf]
  | cons r before ih =>
      obtain ⟨hok, htail⟩ := forward_cons_eq_some h
      rw [List.cons_append, forward_cons_of_ok hok, ih htail]

/-- The first act that fails is unique, and so is the world it fails in. -/
theorem failure_unique {before after before' after' : List ρ} {f f' : ρ} {w₁ w₁' : W}
    (h : forward ok act before w = some w₁) (hf : ok (act f w₁).1 = false)
    (h' : forward ok act before' w = some w₁') (hf' : ok (act f' w₁').1 = false)
    (heq : before ++ f :: after = before' ++ f' :: after') :
    before = before' ∧ f = f' ∧ w₁ = w₁' := by
  have hbefore : before = before' := by
    have hperformed : performed ok act (before ++ f :: after) w = before :=
      performed_of_failure h hf
    rw [← hperformed, heq, performed_of_failure h' hf']
  subst hbefore
  have htail := List.append_cancel_left heq
  rw [h] at h'
  exact ⟨rfl, (List.cons.inj htail).1, Option.some.inj h'⟩

/-! ## Rules for a property of the world -/

section Rules

variable {P : W → Prop}

theorem forward_invariant (hact : ∀ r ∈ l, ∀ w, P w → P (act r w).2)
    (h : forward ok act l w = some w') (hw : P w) : P w' := by
  induction l generalizing w with
  | nil => cases h; exact hw
  | cons r rest ih =>
      exact ih (fun q hq => hact q (List.mem_cons_of_mem _ hq)) (forward_cons_eq_some h).2
        (hact r (by simp) w hw)

theorem backward_invariant (hcomp : ∀ r ∈ l, ∀ w, P w → P (comp r w).2) (hw : P w) :
    P (backward comp l w).2 := by
  induction l generalizing w with
  | nil => exact hw
  | cons r rest ih =>
      exact ih (fun q hq => hcomp q (List.mem_cons_of_mem _ hq)) (hcomp r (by simp) w hw)

/-- What one compensation brings about and none destroys holds at the end. -/
theorem backward_establishes (hr : r ∈ l) (hest : ∀ w, P (comp r w).2)
    (hcomp : ∀ q ∈ l, ∀ w, P w → P (comp q w).2) : P (backward comp l w).2 := by
  induction l generalizing w with
  | nil => cases hr
  | cons q rest ih =>
      have hrest : ∀ p ∈ rest, ∀ w, P w → P (comp p w).2 :=
        fun p hp => hcomp p (List.mem_cons_of_mem _ hp)
      rcases List.mem_cons.mp hr with rfl | hr
      · show P (backward comp rest (comp r w).2).2
        exact backward_invariant hrest (hest w)
      · exact ih hr hrest

end Rules

/-! ## Exact inverses -/

theorem backward_append (l l' : List ρ) (w : W) :
    backward comp (l ++ l') w
      = ((backward comp l w).1 ++ (backward comp l' (backward comp l w).2).1,
          (backward comp l' (backward comp l w).2).2) := by
  induction l generalizing w with
  | nil => rfl
  | cons r rest ih => simp only [List.cons_append, backward, ih]

/-- The world after acts that all succeeded is their composition. -/
theorem forward_eq_foldl (h : forward ok act l w = some w') :
    w' = l.foldl (fun w r => (act r w).2) w := by
  induction l generalizing w with
  | nil => cases h; rfl
  | cons r rest ih => exact ih (forward_cons_eq_some h).2

/-- Compensating in reverse what was acted out leads back to the start,
one exact inverse at a time. -/
theorem backward_undo (hundo : ∀ r ∈ l, ∀ w, ok (act r w).1 = true → (comp r (act r w).2).2 = w)
    (h : forward ok act l w = some w') : (backward comp l.reverse w').2 = w := by
  induction l generalizing w with
  | nil => cases h; rfl
  | cons r rest ih =>
      obtain ⟨hok, htail⟩ := forward_cons_eq_some h
      have hrest : (backward comp rest.reverse w').2 = (act r w).2 :=
        ih (fun q hq => hundo q (List.mem_cons_of_mem _ hq)) htail
      rw [List.reverse_cons, backward_append, hrest]
      exact hundo r (by simp) w hok

/-! ## What the two passes do to an additive quantity -/

section Additive

variable {G : Type*} [AddCommGroup G] {net : W → G} {δ : ρ → G}

theorem net_forward
    (hact : ∀ r ∈ l, ∀ w, net (act r w).2 = net w + if ok (act r w).1 then δ r else 0)
    (h : forward ok act l w = some w') : net w' = net w + (l.map δ).sum := by
  induction l generalizing w with
  | nil => cases h; simp
  | cons r rest ih =>
      obtain ⟨hok, htail⟩ := forward_cons_eq_some h
      have hr := hact r (by simp) w
      rw [hok, if_pos rfl] at hr
      rw [ih (fun q hq => hact q (List.mem_cons_of_mem _ hq)) htail, hr, List.map_cons,
        List.sum_cons, add_assoc]

/-- Each successful compensation takes its amount back. -/
theorem net_backward
    (hcomp : ∀ r ∈ l, ∀ w, net (comp r w).2 = net w + if ok (comp r w).1 then -δ r else 0) :
    net (backward comp l w).2 + (((backward comp l w).1.filter fun p => ok p.2).map
      fun p => δ p.1).sum = net w := by
  induction l generalizing w with
  | nil => simp [backward]
  | cons r rest ih =>
      have hr := hcomp r (by simp) w
      have hrest := ih (w := (comp r w).2) fun q hq => hcomp q (List.mem_cons_of_mem _ hq)
      rw [hr] at hrest
      cases hok : ok (comp r w).1 with
      | true =>
          rw [hok, if_pos rfl] at hrest
          simp only [backward, List.filter_cons, hok, if_true, List.map_cons, List.sum_cons]
          rw [← sub_eq_zero] at hrest ⊢
          rw [← hrest]
          abel
      | false =>
          simpa [backward, List.filter_cons, hok] using hrest

/-- Compensating `l` after acting it out leaves exactly the amounts
whose compensation did not succeed. -/
theorem net_backward_of_forward {w₁ : W} (hw₁ : net w₁ = net w + (l.map δ).sum)
    (hcomp : ∀ r ∈ l, ∀ w, net (comp r w).2 = net w + if ok (comp r w).1 then -δ r else 0) :
    net (backward comp l.reverse w₁).2 = net w +
      (((backward comp l.reverse w₁).1.filter fun p => !ok p.2).map fun p => δ p.1).sum := by
  have hback := net_backward (w := w₁) (l := l.reverse) (δ := δ)
    fun r hr => hcomp r (List.mem_reverse.mp hr)
  have hsum : ((backward comp l.reverse w₁).1.map fun p => δ p.1).sum = (l.map δ).sum := by
    rw [show (fun p : ρ × R => δ p.1) = δ ∘ Prod.fst from rfl, ← List.map_map, backward_map_fst,
      List.map_reverse, List.sum_reverse]
  have hpart := List.sum_map_filter_add_sum_map_filter_not (fun p => ok p.2 = true)
    (fun p => δ p.1) (backward comp l.reverse w₁).1
  simp only [Bool.decide_eq_true, decide_not] at hpart
  rw [hw₁, ← hsum, ← hpart] at hback
  rw [← sub_eq_zero] at hback ⊢
  rw [← hback]
  abel

end Additive

end Httpe.Compensation
