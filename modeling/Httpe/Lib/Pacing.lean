/-
Httpe.Lib.Pacing — how often a lease is granted in a window.

A lease keeps what it was granted for taken for at least `M`, unless it
is given back early. In a closed window of length `T` it is then granted
at most once, once more for each time it was given back in the window,
and once more for each `M` that passed (`Paced.le`).

`Paced M x T n r now free` is what a history up to `now` says: `n` grants
and `r` returns in the window of length `T` from `x` on, and `free t` if
the lease could be granted at a later time `t`. There is one lemma for
each thing that may happen next.
-/
import Httpe.Lib.Spacing

namespace Httpe

variable {K : Type*} [Field K] [LinearOrder K]

/-- The grants in the window are paid for, by `d` stretches of `M` from
the first to the last one and by the returns. One is paid for by nothing;
the lease is then still held, if the window is not over. -/
def Paced (M x T : K) (n r : ℕ) (now : K) (free : K → Prop) : Prop :=
  n = 0 ∨ ∃ (first last : K) (d : ℕ), x ≤ first ∧ first + d * M ≤ last ∧ last ≤ now ∧
    last ≤ x + T ∧
    (n ≤ r + d ∨ n ≤ 1 + r + d ∧ ∀ t, now ≤ t → t ≤ x + T → free t → last + M ≤ t)

variable {M x T now t : K} {n r : ℕ} {free free' : K → Prop}

/-- Time passes, and the lease gets no freer. -/
theorem Paced.later (h : Paced M x T n r now free) (hle : now ≤ t)
    (hfree : ∀ t', t ≤ t' → free' t' → free t') : Paced M x T n r t free' := by
  rcases h with hn | ⟨first, last, d, hfirst, hspan, hlast, hend, hpaid⟩
  · exact .inl hn
  · refine .inr ⟨first, last, d, hfirst, hspan, hlast.trans hle, hend, ?_⟩
    rcases hpaid with hpaid | ⟨hpaid, hheld⟩
    · exact .inl hpaid
    · exact .inr ⟨hpaid, fun t' ht' hT hf => hheld t' (hle.trans ht') hT (hfree t' ht' hf)⟩

/-- The lease is given back in the window. -/
theorem Paced.release (h : Paced M x T n r now free) (hle : now ≤ t) :
    Paced M x T n (r + 1) t free' := by
  rcases h with hn | ⟨first, last, d, hfirst, hspan, hlast, hend, hpaid⟩
  · exact .inl hn
  · refine .inr ⟨first, last, d, hfirst, hspan, hlast.trans hle, hend, .inl ?_⟩
    rcases hpaid with hpaid | ⟨hpaid, -⟩ <;> omega

variable [IsStrictOrderedRing K]

/-- Whoever holds it renews it. -/
theorem Paced.renew (h : Paced M x T n r now free) (hle : now ≤ t)
    (hheld : ∀ t', t ≤ t' → free' t' → t + M ≤ t') : Paced M x T n r t free' := by
  rcases h with hn | ⟨first, last, d, hfirst, hspan, hlast, hend, hpaid⟩
  · exact .inl hn
  · refine .inr ⟨first, last, d, hfirst, hspan, hlast.trans hle, hend, .inr ⟨?_, ?_⟩⟩
    · rcases hpaid with hpaid | ⟨hpaid, -⟩ <;> omega
    · intro t' ht' _ hf
      have hrenewed := hheld t' ht' hf
      linarith

/-- It is granted in the window. -/
theorem Paced.grant (h : Paced M x T n r now free) (hle : now ≤ t) (hx : x ≤ t)
    (hT : t ≤ x + T) (hfree : free t) (hheld : ∀ t', t ≤ t' → free' t' → t + M ≤ t') :
    Paced M x T (n + 1) r t free' := by
  have hheld' : ∀ t', t ≤ t' → t' ≤ x + T → free' t' → t + M ≤ t' := fun t' ht' _ => hheld t' ht'
  rcases h with hn | ⟨first, last, d, hfirst, hspan, hlast, hend, hpaid⟩
  · refine .inr ⟨t, t, 0, hx, by simp, le_rfl, hT, .inr ⟨by omega, hheld'⟩⟩
  · rcases hpaid with hpaid | ⟨hpaid, hnext⟩
    · -- a return has paid for this one
      refine .inr ⟨first, t, d, hfirst, ?_, le_rfl, hT, .inr ⟨by omega, hheld'⟩⟩
      linarith
    · -- the lease was held for another stretch
      have hstretch := hnext t hle hT hfree
      refine .inr ⟨first, t, d + 1, hfirst, ?_, le_rfl, hT, .inr ⟨by omega, hheld'⟩⟩
      push_cast
      linarith

/-- Outside the window anything may happen. -/
theorem Paced.outside (h : Paced M x T n r now free) (hM : 0 ≤ M) (hle : now ≤ t)
    (hout : inWindow x T t = false) : Paced M x T n r t free' := by
  rcases h with hn | ⟨first, last, d, hfirst, hspan, hlast, hend, hpaid⟩
  · exact .inl hn
  · have hd : 0 ≤ (d : K) * M := mul_nonneg d.cast_nonneg hM
    have hlate : x + T < t := by
      simp only [inWindow, decide_eq_false_iff_not, not_and, not_le] at hout
      exact hout (by linarith)
    refine .inr ⟨first, last, d, hfirst, hspan, hlast.trans hle, hend, .inr ⟨?_, ?_⟩⟩
    · rcases hpaid with hpaid | ⟨hpaid, -⟩ <;> omega
    · intro t' ht' hT
      linarith

/-- The bound. -/
theorem Paced.le [FloorRing K] (h : Paced M x T n r now free) (hM : 0 < M) (hT : 0 ≤ T) :
    (n : ℤ) ≤ 1 + ⌊T / M⌋ + r := by
  rcases h with hn | ⟨first, last, d, hfirst, hspan, -, hend, hpaid⟩
  · have hfloor : 0 ≤ ⌊T / M⌋ := Int.floor_nonneg.mpr (div_nonneg hT hM.le)
    omega
  · have hd : (d : ℤ) ≤ ⌊T / M⌋ := by
      rw [Int.le_floor, le_div_iff₀ hM]
      push_cast
      linarith
    rcases hpaid with hpaid | ⟨hpaid, -⟩ <;> omega

end Httpe
