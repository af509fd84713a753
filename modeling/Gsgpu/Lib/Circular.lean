import Mathlib.Logic.Function.Basic
import Mathlib.Data.List.Basic
import Mathlib.Data.Nat.ModEq

/-! A circular buffer as a queue: the words from `head` on, wrapping at `size`. -/
namespace Circular

variable {α : Type*}

/-- The buffer holds the queue, its first word at `head`. -/
def Holds (size : ℕ) (mem : ℕ → α) (head : ℕ) (queue : List α) : Prop :=
  ∀ i w, queue[i]? = some w → mem ((head + i) % size) = w

variable {size head : ℕ} {mem : ℕ → α} {queue : List α}

theorem Holds.empty : Holds size mem head [] := by
  intro i w hi
  simp at hi

/-- Offsets less than a whole turn apart are different places. -/
theorem index_ne {i j : ℕ} (hij : i < j) (hj : j < i + size) :
    (head + i) % size ≠ (head + j) % size := by
  intro h
  have hdvd : size ∣ head + j - (head + i) := (Nat.modEq_iff_dvd' (by omega)).mp h
  have := Nat.le_of_dvd (by omega) hdvd
  omega

/-- A word written behind the last one joins the queue, as long as there is room. -/
theorem Holds.push (h : Holds size mem head queue) (hroom : queue.length < size) (w : α) :
    Holds size (Function.update mem ((head + queue.length) % size) w) head (queue ++ [w]) := by
  intro i v hi
  rcases Nat.lt_trichotomy i queue.length with hlt | rfl | hgt
  · rw [List.getElem?_append_left hlt] at hi
    rw [Function.update_of_ne (index_ne hlt (by omega))]
    exact h i v hi
  · rw [List.getElem?_concat_length, Option.some.injEq] at hi
    rw [Function.update_self, hi]
  · rw [List.getElem?_eq_none (by simp; omega)] at hi
    simp at hi

/-- The first word leaves the queue when the head passes it. -/
theorem Holds.pop {w : α} (h : Holds size mem head (w :: queue)) :
    Holds size mem ((head + 1) % size) queue := by
  intro i v hi
  have := h (i + 1) v (by simpa using hi)
  rwa [Nat.mod_add_mod, Nat.add_assoc, Nat.add_comm 1 i]

/-- The words written last can be given up. -/
theorem Holds.left {rest : List α} (h : Holds size mem head (queue ++ rest)) :
    Holds size mem head queue := by
  intro i w hi
  have hlt : i < queue.length := (List.getElem?_eq_some_iff.mp hi).1
  exact h i w (by rw [List.getElem?_append_left hlt, hi])

end Circular
