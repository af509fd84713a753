import Mathlib.Algebra.Order.Pi
import Mathlib.Algebra.Order.Group.Int
import Mathlib.Algebra.BigOperators.Group.List.Basic
import Mathlib.Algebra.Ring.Int.Defs

/-! Counts of references, by object, and what a computation loses of them. -/
namespace Ledger

variable {ο α : Type} {a b : ο → ℤ} {P Q : Prop}

/-- The references `lost` are not given back; there are some if and only if `P` holds. -/
structure Lost (lost : ο → ℤ) (P : Prop) : Prop where
  nonneg : 0 ≤ lost
  eq_zero : lost = 0 ↔ ¬ P

namespace Lost

theorem none (h : ¬ P) : Lost (0 : ο → ℤ) P := ⟨le_rfl, iff_of_true rfl h⟩

theorem congr (h : Lost a P) (hPQ : P ↔ Q) : Lost a Q := ⟨h.nonneg, h.eq_zero.trans (not_congr hPQ)⟩

theorem add (ha : Lost a P) (hb : Lost b Q) : Lost (a + b) (P ∨ Q) := by
  refine ⟨add_nonneg ha.nonneg hb.nonneg, ?_⟩
  rw [not_or, ← ha.eq_zero, ← hb.eq_zero]
  exact add_eq_zero_iff_of_nonneg ha.nonneg hb.nonneg

variable [DecidableEq ο]

theorem single (o : ο) {n : ℤ} (hn : 0 ≤ n) : Lost (Pi.single o n) (n ≠ 0) := by
  refine ⟨Pi.single_nonneg.mpr hn, ?_⟩
  rw [not_not, Pi.single_eq_zero_iff]

/-- A pointer is overwritten. -/
theorem pointer (p : Option α) (o : α → ο) :
    Lost (p.elim 0 fun a => Pi.single (o a) 1) (p.isSome = true) := by
  cases p with
  | none => exact .none (by simp)
  | some a => exact (single (o a) Int.one_nonneg).congr (by simp)

/-- A list of pointers is overwritten. -/
theorem pointers (ps : List α) (o : α → ο) :
    Lost (ps.map fun a => (Pi.single (o a) 1 : ο → ℤ)).sum (ps ≠ []) := by
  induction ps with
  | nil => exact .none (by simp)
  | cons p ps ih =>
    rw [List.map_cons, List.sum_cons]
    exact ((single (o p) Int.one_nonneg).add ih).congr (by simp)

end Lost

/-- A list of pointers counts for the objects it names only. -/
theorem pointers_apply_of_ne [DecidableEq ο] {x : ο} {o : α → ο} (h : ∀ a, o a ≠ x) (ps : List α) :
    (ps.map fun a => (Pi.single (o a) 1 : ο → ℤ)).sum x = 0 := by
  induction ps with
  | nil => rfl
  | cons p ps ih =>
    rw [List.map_cons, List.sum_cons, Pi.add_apply, ih, Pi.single_eq_of_ne (h p).symm, add_zero]

end Ledger
