import Gsgpu.Chash.Slots
import Mathlib.Data.List.Induction

/-! Every use of an iterator. The slots wrap at the end of the table and the mask at the end of a
word, so the two part where a table smaller than a word is walked past its end. -/
namespace Gsgpu.Chash

variable {V : Type}

/-- `CHASH_ITER_SET` to a slot of the table, and `CHASH_ITER_INC`. -/
inductive Step (size : ℕ)
  | set (s : Fin size)
  | inc

namespace Table

def stepIter (t : Table V) (it : Iter) : Step t.size → Iter
  | .set s => .init s
  | .inc => t.inc it

/-- The iterator after `CHASH_ITER_INIT` at slot `s₀` and more steps. -/
def run (t : Table V) (s₀ : Fin t.size) (steps : List (Step t.size)) : Iter :=
  steps.foldl t.stepIter (.init s₀)

end Table

/-- The iterator has the bit of its slot, and what is done with it tests and changes this slot. -/
structure Iter.PointsAt (V : Type) (it : Iter) : Prop where
  mask : it.mask = 1#64 <<< (it.slot % 64)
  isValid : ∀ t : Table V, t.isValid it = t.valid it.slot
  isEmpty : ∀ t : Table V, t.isEmpty it = !t.occup it.slot
  setValid : ∀ (t : Table V) (x : ℕ),
    (t.setValid it).valid x = (decide (x = it.slot) || t.valid x) ∧
      (t.setValid it).occup x = (decide (x = it.slot) || t.occup x)
  setInvalid : ∀ (t : Table V) (x : ℕ),
    (t.setInvalid it).valid x = (!decide (x = it.slot) && t.valid x) ∧
      (t.setInvalid it).occup x = t.occup x
  setEmpty : ∀ (t : Table V) (x : ℕ),
    (t.setEmpty it).valid x = t.valid x ∧
      (t.setEmpty it).occup x = (!decide (x = it.slot) && t.occup x)

theorem Iter.pointsAt_iff {it : Iter} : it.PointsAt V ↔ it.Synced := by
  constructor
  · exact fun h => h.mask
  · intro h
    exact {
      mask := h
      isValid _ := isValid_eq h
      isEmpty _ := isEmpty_eq h
      setValid _ x := ⟨valid_setValid h x, occup_setValid h x⟩
      setInvalid _ x := ⟨valid_setInvalid h x, occup_setInvalid x⟩
      setEmpty _ x := ⟨valid_setEmpty x, occup_setEmpty h x⟩ }

private theorem bit_inj : ∀ i j : Fin 64, 1#64 <<< i.val = 1#64 <<< j.val → i = j := by
  intro i j h
  have hbit := congrArg (fun b : BitVec 64 => b.getLsbD i) h
  change (BitVec.twoPow 64 i).getLsbD i = (BitVec.twoPow 64 j).getLsbD i at hbit
  rw [BitVec.getLsbD_twoPow, BitVec.getLsbD_twoPow] at hbit
  simp only [i.isLt, j.isLt, decide_true, Bool.and_self, Bool.true_and] at hbit
  exact Fin.ext (of_decide_eq_true hbit.symm).symm

/-- A table of fewer slots than a word has bits. -/
theorem Table.size_mod {t : Table V} (hbits : ¬6 ≤ t.bits) : t.size % 64 = t.size := by
  apply Nat.mod_eq_of_lt
  exact Nat.pow_lt_pow_right (by decide) (by omega : t.bits < 6)

section Runs
variable {t : Table V} {it : Iter}

theorem Iter.Synced.inc_iff (h : it.Synced) (hlt : it.slot < t.size) :
    (t.inc it).Synced ↔ 6 ≤ t.bits ∨ it.slot + 1 ≠ t.size := by
  constructor
  · intro hinc
    by_contra hcon
    obtain ⟨hbits, hlast⟩ := not_or.mp hcon
    have hlast : it.slot + 1 = t.size := not_not.mp hlast
    rw [Iter.Synced, h.inc_mask, inc_slot, hlast, Nat.mod_self, Table.size_mod hbits] at hinc
    have hsize : t.size < 64 := Nat.pow_lt_pow_right (by decide) (by omega : t.bits < 6)
    have := congrArg Fin.val (bit_inj ⟨t.size, hsize⟩ 0 hinc)
    exact absurd this (Nat.ne_of_gt (Nat.two_pow_pos t.bits))
  · rintro (hbits | hlast)
    · exact h.inc hbits
    · rw [Iter.Synced, h.inc_mask, inc_slot, Nat.mod_eq_of_lt (a := it.slot + 1) (b := t.size)]
      omega

/-- The slots of a run are slots of the table. -/
theorem Table.run_slot_lt (s₀ : Fin t.size) (steps : List (Step t.size)) :
    (t.run s₀ steps).slot < t.size := by
  induction steps using List.reverseRecOn with
  | nil => exact s₀.isLt
  | append_singleton steps e _ =>
    rw [Table.run, List.foldl_append]
    cases e with
    | set s => exact s.isLt
    | inc =>
      change (t.inc (t.run s₀ steps)).slot < t.size
      rw [inc_slot]
      exact Nat.mod_lt _ (Nat.two_pow_pos t.bits)

/-- In a run, all iterators point at the bits of their slots exactly if the table has the slots of a
word or more, or if no increment is done at its last slot. -/
theorem run_pointsAt_iff (t : Table V) (s₀ : Fin t.size) (steps : List (Step t.size)) :
    (∀ done, done <+: steps → (t.run s₀ done).PointsAt V) ↔
      6 ≤ t.bits ∨ ∀ done, done ++ [.inc] <+: steps → (t.run s₀ done).slot + 1 ≠ t.size := by
  simp only [Iter.pointsAt_iff]
  constructor
  · intro h
    by_cases hbits : 6 ≤ t.bits
    · exact .inl hbits
    · refine .inr fun done hdone => ?_
      have hnext := h _ hdone
      rw [Table.run, List.foldl_append] at hnext
      have hnow := h done ((List.prefix_append _ _).trans hdone)
      exact ((hnow.inc_iff (t.run_slot_lt s₀ done)).mp hnext).resolve_left hbits
  · intro hgood done
    induction done using List.reverseRecOn with
    | nil => exact fun _ => Iter.init_synced _
    | append_singleton done e ih =>
      intro hdone
      have hnow := ih ((List.prefix_append _ _).trans hdone)
      rw [Table.run, List.foldl_append]
      cases e with
      | set s => exact Iter.init_synced _
      | inc =>
        exact (hnow.inc_iff (t.run_slot_lt s₀ done)).mpr (hgood.imp_right fun h => h done hdone)

end Runs

/-- In a table of 16 slots the step from the last to the first has the mask of slot 16. -/
theorem run_wraps_small : ∃ t : Table Unit, tableAlloc 4 8 () true = .ok t ∧
    ∃ s₀ : Fin t.size, (t.run s₀ [.inc]).slot = 0 ∧ (t.run s₀ [.inc]).mask = 1#64 <<< 16 ∧
      ¬(t.run s₀ [.inc]).PointsAt Unit := by
  refine ⟨_, rfl, (15 : Fin 16), rfl, by decide, ?_⟩
  intro h
  exact absurd h.mask (by decide)

end Gsgpu.Chash
