import Mathlib.Data.List.Basic
import Mathlib.Tactic.Common

/-! A range of numbers covered by consecutive pieces, each number once and in order. -/
namespace Tiles
variable {α : Type}

/-- Two pieces. -/
theorem map_range_add (f : ℕ → α) (m n : ℕ) : (List.range (m + n)).map f =
    (List.range m).map f ++ (List.range n).map fun i => f (m + i) := by
  rw [List.range_add, List.map_append, List.map_map]
  rfl

/-- `m` pieces of one length. -/
theorem flatMap_range_mul (f : ℕ → α) (m n : ℕ) :
    (List.range m).flatMap (fun r => (List.range n).map fun i => f (r * n + i)) =
      (List.range (m * n)).map f := by
  induction m with
  | zero => rw [Nat.zero_mul, List.range_zero, List.flatMap_nil, List.map_nil]
  | succ m ih =>
    rw [List.range_succ, List.flatMap_append, ih, Nat.succ_mul, map_range_add, List.flatMap_cons,
      List.flatMap_nil, List.append_nil]

end Tiles
