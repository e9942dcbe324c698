/-
Httpe.Lib.Charging — members of a family charged to places of a history.

A retry, a recursive call or a repair is often paid for by something
that happened meanwhile. Each member finds its payment on its own; that
two of them never find the same one follows from a count that grows along
the history and tells them apart (`exists_strictMono_positions`). There
are then at least as many payments as members (`le_countP_of_charged`).
-/
import Mathlib.Data.List.FinRange
import Mathlib.Data.List.Perm.Subperm
import Mathlib.Order.Fin.Basic
import Mathlib.Order.Monotone.Basic

namespace Httpe

variable {α : Type*} {w : List α} {n : ℕ}

/-- If member `j` is charged where `count` has reached `j + 1`, the
charges lie at increasing positions. `P j l t` says that `j` may be
charged to `t` after the history `l`. -/
theorem exists_strictMono_positions {P : ℕ → List α → α → Prop} {count : List α → ℕ}
    (hmono : ∀ l l', l <+: l' → count l ≤ count l')
    (hcount : ∀ j l t, P j l t → count l = j + 1)
    (h : ∀ j < n, ∃ l t r, w = l ++ t :: r ∧ P j l t) :
    ∃ charge : Fin n → Fin w.length, StrictMono charge ∧
      ∀ j : Fin n, P j (w.take (charge j)) (w.get (charge j)) := by
  choose l t r hsplit hP using fun j : Fin n => h j j.isLt
  have hlt : ∀ j, (l j).length < w.length := by
    intro j
    rw [hsplit j]
    simp
  have htake : ∀ j, w.take (l j).length = l j := by
    intro j
    conv_lhs => rw [hsplit j]
    exact List.take_left
  have hget : ∀ j, w.get ⟨(l j).length, hlt j⟩ = t j := by
    intro j
    simp only [List.get_eq_getElem, hsplit j]
    simp
  refine ⟨fun j => ⟨(l j).length, hlt j⟩, ?_, ?_⟩
  · -- a later member is charged at a higher count, so further on
    intro j j' hjj'
    by_contra hle
    have hpre : l j' <+: l j := by
      have hj' : l j' <+: w := htake j' ▸ List.take_prefix _ _
      have hj : l j <+: w := htake j ▸ List.take_prefix _ _
      exact List.prefix_of_prefix_length_le hj' hj (not_lt.mp hle)
    have hle' := hmono _ _ hpre
    rw [hcount _ _ _ (hP j), hcount _ _ _ (hP j')] at hle'
    have hval : (j : ℕ) < j' := hjj'
    omega
  · intro j
    rw [hget j]
    show P j (w.take (l j).length) (t j)
    rw [htake j]
    exact hP j

theorem le_countP_of_charged {p : α → Bool} {charge : Fin n → Fin w.length}
    (hmono : StrictMono charge) (hp : ∀ j, p (w.get (charge j))) : n ≤ w.countP p := by
  have hcount : w.countP p = ((List.finRange w.length).filter fun k => p (w.get k)).length := by
    conv_lhs => rw [← List.map_get_finRange w]
    rw [List.countP_map, List.countP_eq_length_filter]
    rfl
  have hsub : (List.ofFn charge).Subperm
      ((List.finRange w.length).filter fun k => p (w.get k)) := by
    apply List.Nodup.subperm
    · exact List.nodup_ofFn.mpr hmono.injective
    · intro k hk
      obtain ⟨j, rfl⟩ := List.mem_ofFn.mp hk
      exact List.mem_filter.mpr ⟨List.mem_finRange _, hp j⟩
  rw [hcount, ← List.length_ofFn (f := charge)]
  exact hsub.length_le

end Httpe
