import Mathlib.Algebra.Order.Group.MinMax
import Mathlib.Algebra.BigOperators.Group.List.Basic
import Mathlib.Data.List.Induction

/-! A token bucket that may go into debt. It is filled up to a cap, tokens are taken whether they
are there or not, and now and then the level is raised to a minimum. -/
namespace TokenBucket

variable {α : Type*}

inductive Op (α : Type*)
  | fill (d : α)
  | take (r : α)
  | raise (m : α)

/-- It only raises the level. -/
def Op.raises : Op α → Bool
  | .raise _ => true
  | _ => false

variable [AddCommGroup α]

/-- What is filled in less what is taken. -/
def Op.net : Op α → α
  | .fill d => d
  | .take r => -r
  | .raise _ => 0

def net (ops : List (Op α)) : α := (ops.map Op.net).sum

variable {ops suf : List (Op α)}

theorem net_append (pre suf : List (Op α)) : net (pre ++ suf) = net pre + net suf := by
  simp [net]

theorem net_concat (op : Op α) : net (ops ++ [op]) = net ops + op.net := by
  simp [net]

variable [LinearOrder α] {cap x : α}

def Op.run (cap x : α) : Op α → α
  | .fill d => min (x + d) cap
  | .take r => x - r
  | .raise m => max m x

def level (cap x : α) (ops : List (Op α)) : α := ops.foldl (Op.run cap) x

theorem level_append (pre suf : List (Op α)) :
    level cap x (pre ++ suf) = level cap (level cap x pre) suf := List.foldl_append ..

theorem Op.run_le (op : Op α) (h : op.raises = false) : op.run cap x ≤ x + op.net := by
  cases op with
  | fill d => exact min_le_left _ _
  | take r => exact (sub_eq_add_neg x r).le
  | raise m => cases h

/-- Nothing is there that was not filled in. -/
theorem level_le [IsOrderedAddMonoid α] (h : ∀ op ∈ ops, op.raises = false) :
    level cap x ops ≤ x + net ops := by
  induction ops using List.reverseRecOn with
  | nil => simp [level, net]
  | append_singleton ops op ih =>
    rw [level_append, net_concat, ← add_assoc]
    have hop : op.run cap (level cap x ops) ≤ level cap x ops + op.net :=
      Op.run_le op (h op (by simp))
    have hle := ih fun o ho => h o (by simp [ho])
    exact hop.trans (add_le_add_left hle _)

/-- After the bucket was filled, there is at most the cap and what was filled in since. -/
theorem level_le_cap [IsOrderedAddMonoid α] {pre : List (Op α)} {d : α}
    (h : ∀ op ∈ suf, op.raises = false) :
    level cap x (pre ++ .fill d :: suf) ≤ cap + net suf := by
  rw [level_append]
  change level cap (min (level cap x pre + d) cap) suf ≤ _
  exact (level_le h).trans (add_le_add_left (min_le_right _ _) _)

/-- One of these bounds is reached. -/
theorem level_attained (h : ∀ op ∈ ops, op.raises = false) : level cap x ops = x + net ops ∨
    ∃ pre d suf, ops = pre ++ .fill d :: suf ∧ level cap x ops = cap + net suf := by
  induction ops using List.reverseRecOn with
  | nil => simp [level, net]
  | append_singleton ops op ih =>
    have hlevel : level cap x (ops ++ [op]) = op.run cap (level cap x ops) := level_append ops [op]
    have hkeep : op.run cap (level cap x ops) = level cap x ops + op.net →
        level cap x (ops ++ [op]) = x + net (ops ++ [op]) ∨ ∃ pre d suf,
          ops ++ [op] = pre ++ .fill d :: suf ∧ level cap x (ops ++ [op]) = cap + net suf := by
      intro hrun
      rw [hlevel, hrun, net_concat]
      obtain hall | ⟨pre, d, suf, hsplit, hsuf⟩ := ih fun o ho => h o (by simp [ho])
      · rw [hall, add_assoc]
        exact .inl rfl
      · right
        refine ⟨pre, d, suf ++ [op], by simp [hsplit], ?_⟩
        rw [hsuf, net_concat, add_assoc]
    cases op with
    | fill d =>
      obtain hle | hlt := le_or_gt (level cap x ops + d) cap
      · exact hkeep (min_eq_left hle)
      · right
        refine ⟨ops, d, [], rfl, ?_⟩
        rw [hlevel]
        exact (min_eq_right hlt.le).trans (by simp [net])
    | take r => exact hkeep (sub_eq_add_neg _ r)
    | raise m => exact absurd (h (.raise m) (by simp)) (by simp [Op.raises])

end TokenBucket
