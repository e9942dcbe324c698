/-
Httpe.Lib.Spacing — how many spaced points fit in a window.

A rate limit seldom spaces every event of a history: the first few may
come in a burst, and only from then on each one keeps its distance from
all before it. `Spaced R` says the latter of a list of times, oldest
first; `countP_window_le` bounds what any closed window of a given length
holds when it is true of all but the first `n`.
-/
import Mathlib.Algebra.Order.Floor.Ring
import Mathlib.Tactic.Linarith
import Mathlib.Tactic.Ring

namespace Httpe

variable {K : Type*} [Field K] [LinearOrder K]

/-- Each element is at least `R` after every earlier one. -/
def Spaced (R : K) (l : List K) : Prop := l.Pairwise fun a b => a + R ≤ b

/-- The element lies in the closed window of length `T` from `x` on. -/
def inWindow (x T a : K) : Bool := decide (x ≤ a ∧ a ≤ x + T)

variable {R x y T a : K} {l : List K} {n : ℕ}

/-- Time `a` may follow a list if it keeps its distance from all of it. -/
theorem Spaced.snoc_drop (h : Spaced R (l.drop n)) (ha : ∀ b ∈ l, b + R ≤ a) :
    Spaced R ((l ++ [a]).drop n) := by
  rw [List.drop_append]
  refine List.pairwise_append.mpr ⟨h, ?_, ?_⟩
  · exact (List.pairwise_singleton _ a).drop
  · intro b hb c hc
    rw [List.mem_singleton.mp (List.mem_of_mem_drop hc)]
    exact ha b (List.mem_of_mem_drop hb)

/-- The burst may grow to `n` elements, and one may follow it. -/
theorem Spaced.snoc_of_length_le (hlength : l.length ≤ n) : Spaced R ((l ++ [a]).drop n) := by
  rw [List.drop_append, List.drop_eq_nil_of_le hlength, List.nil_append]
  exact (List.pairwise_singleton _ a).drop

variable [IsStrictOrderedRing K]

/-- Spaced points after `x` reach far. -/
theorem Spaced.add_mul_le : ∀ {l : List K} {x : K}, Spaced R l → l ≠ [] →
    (∀ a ∈ l, x ≤ a) → (∀ a ∈ l, a ≤ y) → x + (l.length - 1) * R ≤ y
  | [], _, _, hne, _, _ => absurd rfl hne
  | [a], x, _, _, hx, hy => by
      have hxa : x ≤ a := hx a (by simp)
      have hay : a ≤ y := hy a (by simp)
      simpa using hxa.trans hay
  | a :: b :: l, x, h, _, hx, hy => by
      obtain ⟨hhead, htail⟩ := List.pairwise_cons.mp h
      have hxa : x ≤ a := hx a (by simp)
      have hrest : a + R + (((b :: l).length : K) - 1) * R ≤ y :=
        Spaced.add_mul_le htail (by simp) hhead fun c hc => hy c (List.mem_cons_of_mem _ hc)
      rw [List.length_cons]
      push_cast
      linarith

variable [FloorRing K]

theorem Spaced.length_le (h : Spaced R l) (hR : 0 < R) (hT : 0 ≤ T)
    (hwindow : ∀ a ∈ l, inWindow x T a = true) : (l.length : ℤ) ≤ ⌊T / R⌋ + 1 := by
  by_cases hne : l = []
  · have hfloor : 0 ≤ ⌊T / R⌋ := Int.floor_nonneg.mpr (div_nonneg hT hR.le)
    rw [hne, List.length_nil]
    push_cast
    omega
  · have hreach : x + ((l.length : K) - 1) * R ≤ x + T :=
      h.add_mul_le hne (fun a ha => (of_decide_eq_true (hwindow a ha)).1)
        fun a ha => (of_decide_eq_true (hwindow a ha)).2
    have hle : ((l.length : ℤ) - 1 : ℤ) ≤ ⌊T / R⌋ := by
      rw [Int.le_floor, le_div_iff₀ hR]
      push_cast
      linarith
    omega

/-- A window of length `T` holds at most `n` of the burst and
`⌊T / R⌋ + 1` of the rest. -/
theorem countP_window_le (h : Spaced R (l.drop n)) (hR : 0 < R) (hT : 0 ≤ T) :
    (l.countP (inWindow x T) : ℤ) ≤ n + (⌊T / R⌋ + 1) := by
  have hburst : (l.take n).countP (inWindow x T) ≤ n :=
    List.countP_le_length.trans (List.length_take_le n l)
  have hrest : (((l.drop n).filter (inWindow x T)).length : ℤ) ≤ ⌊T / R⌋ + 1 :=
    Spaced.length_le (h.sublist List.filter_sublist) hR hT fun a ha => (List.mem_filter.mp ha).2
  rw [← List.countP_eq_length_filter] at hrest
  have hsplit : l.countP (inWindow x T)
      = (l.take n).countP (inWindow x T) + (l.drop n).countP (inWindow x T) := by
    rw [← List.countP_append, List.take_append_drop]
  omega

end Httpe
