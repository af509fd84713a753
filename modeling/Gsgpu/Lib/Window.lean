import Mathlib.Logic.Function.Basic
import Mathlib.Data.List.Basic
import Mathlib.Data.Nat.ModEq

/-! A fixed number of slots that keep the last entries of a growing history, the entry of index
`i` in slot `(i + 1) % size`. The counter that chooses the slot starts at one. -/
namespace Window

variable {α : Type*}

/-- The slots hold the last `size` entries of the history and nothing else. -/
structure Holds (size : ℕ) (slots : ℕ → Option α) (hist : List α) : Prop where
  recent : ∀ i a, hist[i]? = some a → hist.length ≤ i + size → slots ((i + 1) % size) = some a
  origin : ∀ j a, j < size → slots j = some a →
    ∃ i, hist[i]? = some a ∧ (i + 1) % size = j ∧ hist.length ≤ i + size

variable {size : ℕ} {slots : ℕ → Option α} {hist : List α}

theorem Holds.empty (h : ∀ j < size, slots j = none) : Holds size slots [] where
  recent i a hi := by simp at hi
  origin j a hj hs := by simp [h j hj] at hs

/-- Only the slots below `size` matter. -/
theorem Holds.congr {slots' : ℕ → Option α} (h : Holds size slots hist) (hsize : 0 < size)
    (hs : ∀ j < size, slots' j = slots j) : Holds size slots' hist where
  recent i a hi hle := by rw [hs _ (Nat.mod_lt _ hsize), h.recent i a hi hle]
  origin j a hj ha := h.origin j a hj (by rw [← hs j hj, ha])

/-- Two entries of one slot are at least `size` apart. -/
private theorem index_gap {i j : ℕ} (h : (i + 1) % size = (j + 1) % size) (hlt : i < j) :
    i + size ≤ j := by
  have hdvd : size ∣ j + 1 - (i + 1) := (Nat.modEq_iff_dvd' (by omega)).mp h
  have := Nat.le_of_dvd (by omega) hdvd
  omega

/-- The next slot is free, or holds the entry that is about to leave the window. -/
theorem Holds.occupant (h : Holds size slots hist) (hsize : 0 < size) {a : α}
    (ha : slots ((hist.length + 1) % size) = some a) :
    size ≤ hist.length ∧ hist[hist.length - size]? = some a := by
  obtain ⟨i, hi, hslot, hle⟩ := h.origin _ _ (Nat.mod_lt _ hsize) ha
  have hlt : i < hist.length := (List.getElem?_eq_some_iff.mp hi).1
  have := index_gap hslot hlt
  have : i = hist.length - size := by omega
  exact ⟨by omega, this ▸ hi⟩

/-- Writing the next slot appends to the history. -/
theorem Holds.push (h : Holds size slots hist) (hsize : 0 < size) (a : α) :
    Holds size (Function.update slots ((hist.length + 1) % size) (some a)) (hist ++ [a]) where
  recent i b hi hle := by
    rw [List.length_append, List.length_singleton] at hle
    rcases Nat.lt_trichotomy i hist.length with hlt | rfl | hgt
    · rw [List.getElem?_append_left hlt] at hi
      have hne : (i + 1) % size ≠ (hist.length + 1) % size := by
        intro heq
        have := index_gap heq hlt
        omega
      rw [Function.update_of_ne hne]
      exact h.recent i b hi (by omega)
    · rw [List.getElem?_concat_length, Option.some.injEq] at hi
      rw [hi, Function.update_self]
    · rw [List.getElem?_eq_none (by simp; omega)] at hi
      simp at hi
  origin j b hj hs := by
    by_cases hslot : j = (hist.length + 1) % size
    · subst hslot
      rw [Function.update_self, Option.some.injEq] at hs
      exact ⟨hist.length, by simp [hs], rfl, by simp; omega⟩
    · rw [Function.update_of_ne hslot] at hs
      obtain ⟨i, hi, rfl, hle⟩ := h.origin j b hj hs
      have hlt : i < hist.length := (List.getElem?_eq_some_iff.mp hi).1
      refine ⟨i, by rw [List.getElem?_append_left hlt, hi], rfl, ?_⟩
      -- an entry of another slot has not reached the end of the window
      have hne : hist.length ≠ i + size := by
        intro heq
        apply hslot
        rw [heq, Nat.add_right_comm, Nat.add_mod_right]
      rw [List.length_append, List.length_singleton]
      omega

end Window
