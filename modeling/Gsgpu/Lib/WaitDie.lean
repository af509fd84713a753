import Mathlib.Logic.Relation
import Mathlib.Order.Basic

/-! Locks that are waited for. One who has a lock waits only for those with a greater stamp, so that
from everyone who waits there is a way to someone who has a lock and does not wait. -/
namespace WaitDie

variable {α β : Type*}

/-- `a` waits for a lock that `b` has. -/
def WaitsFor (owner : β → Option α) (wants : α → Option β) (a b : α) : Prop :=
  ∃ l, wants a = some l ∧ owner l = some b

/-- The stamps grow along the waits of those who have locks, up to a bound. -/
structure Ordered (owner : β → Option α) (wants : α → Option β) (stamp : α → ℕ) (bound : ℕ) :
    Prop where
  grows : ∀ a b l, owner l = some a → WaitsFor owner wants a b → stamp a < stamp b
  bounded : ∀ a l, owner l = some a → stamp a ≤ bound

variable {owner : β → Option α} {wants : α → Option β} {stamp : α → ℕ} {bound : ℕ}

/-- Who has a lock does not wait, or waits in the end for one who does not. -/
theorem Ordered.holder_free (h : Ordered owner wants stamp bound) {b : α} {l : β}
    (hb : owner l = some b) (hwants : ∀ a m, wants a = some m → (owner m).isSome) :
    ∃ c, Relation.ReflTransGen (WaitsFor owner wants) b c ∧ (∃ m, owner m = some c) ∧
      wants c = none := by
  induction hn : bound - stamp b using Nat.strongRecOn generalizing b l with
  | ind n ih =>
    cases hw : wants b with
    | none => exact ⟨b, .refl, ⟨l, hb⟩, hw⟩
    | some m =>
      obtain ⟨c, hc⟩ := Option.isSome_iff_exists.mp (hwants b m hw)
      have hwait : WaitsFor owner wants b c := ⟨m, hw, hc⟩
      have hlt := h.grows b c l hb hwait
      have hle := h.bounded c m hc
      obtain ⟨d, hreach, hd⟩ := ih (bound - stamp c) (by omega) hc rfl
      exact ⟨d, .head hwait hreach, hd⟩

/-- Who waits, waits in the end for one who has a lock and does not wait. -/
theorem Ordered.exists_free (h : Ordered owner wants stamp bound)
    (hwants : ∀ a m, wants a = some m → (owner m).isSome) {a : α} {l : β}
    (ha : wants a = some l) : ∃ c, Relation.TransGen (WaitsFor owner wants) a c ∧
      (∃ m, owner m = some c) ∧ wants c = none := by
  obtain ⟨b, hb⟩ := Option.isSome_iff_exists.mp (hwants a l ha)
  obtain ⟨c, hreach, hc⟩ := h.holder_free hb hwants
  exact ⟨c, Relation.TransGen.head' ⟨l, ha, hb⟩ hreach, hc⟩

end WaitDie
