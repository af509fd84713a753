import Mathlib.Logic.Function.Basic
import Mathlib.Data.List.Basic
import Mathlib.Data.List.Nodup
import Mathlib.Data.List.Range

/-! Tokens that are handed from place to place. They are numbered in the order in which they are
made, and each is at one place, once. -/
namespace Custody

variable {κ : Type*}

/-- Every token below `next` is at exactly one place. -/
structure Exact (hold : κ → List ℕ) (next : ℕ) : Prop where
  below : ∀ k, ∀ t ∈ hold k, t < next
  held : ∀ t, t < next → ∃ k, t ∈ hold k
  nodup : ∀ k, (hold k).Nodup
  apart : ∀ k k', k ≠ k' → ∀ t ∈ hold k, t ∉ hold k'

variable {hold hold' : κ → List ℕ} {next : ℕ}

theorem Exact.congr (h : Exact hold next) (heq : ∀ k, hold' k = hold k) : Exact hold' next := by
  rw [funext heq]
  exact h

variable [DecidableEq κ]

/-- Everything at `k` goes to `k'`. -/
def give (hold : κ → List ℕ) (k k' : κ) : κ → List ℕ :=
  Function.update (Function.update hold k []) k' (hold k' ++ hold k)

/-- The next `n` tokens are made at `k`. -/
def make (hold : κ → List ℕ) (k : κ) (next n : ℕ) : κ → List ℕ :=
  Function.update hold k (hold k ++ List.range' next n)

section Give
variable (hold) {k k' j : κ}

@[simp] theorem give_to : give hold k k' k' = hold k' ++ hold k := Function.update_self ..

theorem give_from (hne : k ≠ k') : give hold k k' k = [] := by
  unfold give
  rw [Function.update_of_ne hne, Function.update_self]

theorem give_of_ne (hk : j ≠ k) (hk' : j ≠ k') : give hold k k' j = hold j := by
  unfold give
  rw [Function.update_of_ne hk', Function.update_of_ne hk]

@[simp] theorem make_self (n : ℕ) : make hold k next n k = hold k ++ List.range' next n :=
  Function.update_self ..

theorem make_of_ne (hk : j ≠ k) (n : ℕ) : make hold k next n j = hold j :=
  Function.update_of_ne hk ..

/-- Where the tokens of a place come from. -/
theorem mem_give (hne : k ≠ k') {t : ℕ} :
    t ∈ give hold k k' j ↔ j ≠ k ∧ (t ∈ hold j ∨ j = k' ∧ t ∈ hold k) := by
  by_cases hk' : j = k'
  · subst hk'
    rw [give_to, List.mem_append]
    simp [hne.symm]
  · by_cases hk : j = k
    · subst hk
      rw [give_from hold hne]
      simp
    · rw [give_of_ne hold hk hk']
      simp [hk, hk']

end Give

section Moves
variable {k k' : κ}

theorem Exact.given (h : Exact hold next) (hne : k ≠ k') : Exact (give hold k k') next where
  below := by
    intro j t ht
    obtain ⟨-, ht | ⟨-, ht⟩⟩ := (mem_give hold hne).mp ht
    · exact h.below j t ht
    · exact h.below k t ht
  held := by
    intro t ht
    obtain ⟨j, hj⟩ := h.held t ht
    by_cases hk : j = k
    · subst hk
      exact ⟨k', (mem_give hold hne).mpr ⟨hne.symm, .inr ⟨rfl, hj⟩⟩⟩
    · exact ⟨j, (mem_give hold hne).mpr ⟨hk, .inl hj⟩⟩
  nodup := by
    intro j
    by_cases hk' : j = k'
    · subst hk'
      rw [give_to]
      exact List.Nodup.append (h.nodup j) (h.nodup k) (h.apart j k hne.symm)
    · by_cases hk : j = k
      · subst hk
        rw [give_from hold hne]
        exact List.nodup_nil
      · rw [give_of_ne hold hk hk']
        exact h.nodup j
  apart := by
    intro i j hij t hi hj
    obtain ⟨hik, hit | ⟨hi', hit⟩⟩ := (mem_give hold hne).mp hi
    · obtain ⟨-, hjt | ⟨-, hjt⟩⟩ := (mem_give hold hne).mp hj
      · exact h.apart i j hij t hit hjt
      · exact h.apart i k hik t hit hjt
    · obtain ⟨hjk, hjt | ⟨hj', -⟩⟩ := (mem_give hold hne).mp hj
      · exact h.apart k j hjk.symm t hit hjt
      · exact hij (hi'.trans hj'.symm)

theorem Exact.made (h : Exact hold next) (n : ℕ) : Exact (make hold k next n) (next + n) := by
  have hmem : ∀ j t, t ∈ make hold k next n j ↔
      t ∈ hold j ∨ j = k ∧ next ≤ t ∧ t < next + n := by
    intro j t
    by_cases hk : j = k
    · subst hk
      rw [make_self, List.mem_append, List.mem_range'_1]
      simp
    · rw [make_of_ne hold hk]
      simp [hk]
  refine ⟨fun j t ht => ?_, fun t ht => ?_, fun j => ?_, fun i j hij t hi hj => ?_⟩
  · obtain ht | ⟨-, -, ht⟩ := (hmem j t).mp ht
    · exact Nat.lt_add_right n (h.below j t ht)
    · exact ht
  · by_cases hold' : t < next
    · obtain ⟨j, hj⟩ := h.held t hold'
      exact ⟨j, (hmem j t).mpr (.inl hj)⟩
    · exact ⟨k, (hmem k t).mpr (.inr ⟨rfl, not_lt.mp hold', ht⟩)⟩
  · by_cases hk : j = k
    · subst hk
      rw [make_self]
      refine List.Nodup.append (h.nodup j) List.nodup_range' fun t ht ht' => ?_
      have hlt := h.below j t ht
      have hle := (List.mem_range'_1.mp ht').1
      omega
    · rw [make_of_ne hold hk]
      exact h.nodup j
  · obtain hi | ⟨rfl, hle, -⟩ := (hmem i t).mp hi
    · obtain hj | ⟨-, hle, -⟩ := (hmem j t).mp hj
      · exact h.apart i j hij t hi hj
      · have hlt := h.below i t hi
        omega
    · obtain hj | ⟨rfl, -, -⟩ := (hmem j t).mp hj
      · have hlt := h.below j t hj
        omega
      · exact hij rfl

end Moves

end Custody
