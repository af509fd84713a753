import Mathlib.Data.List.Nodup
import Mathlib.Data.List.Basic

/-! A log that only grows and is executed from its front: which entries come before which. -/
namespace Fifo

variable {α : Type*} {l l' : List α} {a b c : α} {n : ℕ}

/-- No prefix of the log has `b` without `a`. -/
def Before (l : List α) (a b : α) : Prop := ∀ n, b ∈ l.take n → a ∈ l.take n

theorem Before.refl (l : List α) (a : α) : Before l a a := fun _ h => h

theorem before_of_not_mem (h : b ∉ l) : Before l a b :=
  fun _ hb => absurd (List.mem_of_mem_take hb) h

/-- What is appended comes behind what was there. -/
theorem Before.append (h : Before l a b) (ha : a ∈ l) (l' : List α) : Before (l ++ l') a b := by
  intro n hb
  rw [List.take_append] at hb ⊢
  cases List.mem_append.mp hb with
  | inl hold => exact List.mem_append_left _ (h n hold)
  | inr hnew =>
    have hlen : l.length ≤ n := by
      by_contra hlt
      rw [Nat.sub_eq_zero_of_le (Nat.le_of_not_le hlt), List.take_zero] at hnew
      cases hnew
    rw [List.take_of_length_le hlen]
    exact List.mem_append_left _ ha

/-- What is appended comes behind everything that was there. -/
theorem before_append (ha : a ∈ l) (hb : b ∉ l) (l' : List α) : Before (l ++ l') a b :=
  (before_of_not_mem hb).append ha l'

/-- The order of what is appended. -/
theorem Before.append_new (h : Before l' a b) (hb : b ∉ l) : Before (l ++ l') a b := by
  intro n hmem
  rw [List.take_append] at hmem ⊢
  cases List.mem_append.mp hmem with
  | inl hold => exact absurd (List.mem_of_mem_take hold) hb
  | inr hnew => exact List.mem_append_right _ (h _ hnew)

theorem Before.map {β : Type*} {f : α → β} (hf : Function.Injective f) (h : Before l a b) :
    Before (l.map f) (f a) (f b) := by
  intro n hb
  rw [← List.map_take, List.mem_map_of_injective hf] at hb ⊢
  exact h n hb

theorem mem_take_succ (h : l[n]? = some a) : b ∈ l.take (n + 1) ↔ b ∈ l.take n ∨ b = a := by
  rw [List.take_add_one, h, Option.toList_some, List.mem_append, List.mem_singleton]

/-- Everything before the next entry was executed. -/
theorem Before.next (h : Before l a b) (hb : l[n]? = some b) (hne : a ≠ b) : a ∈ l.take n := by
  have ha := h (n + 1) ((mem_take_succ hb).mpr (.inr rfl))
  exact ((mem_take_succ hb).mp ha).resolve_right hne

/-- The next entry was not yet executed. -/
theorem not_mem_take (h : l.Nodup) (ha : l[n]? = some a) : a ∉ l.take n := by
  intro hmem
  obtain ⟨i, hi, heq⟩ := List.mem_take_iff_getElem.mp hmem
  obtain ⟨hn, hna⟩ := List.getElem?_eq_some_iff.mp ha
  have := (List.Nodup.getElem_inj_iff h).mp (heq.trans hna.symm)
  omega

theorem mem_take_mono {m : ℕ} (h : m ≤ n) (ha : a ∈ l.take m) : a ∈ l.take n :=
  List.take_subset_take_left l h ha

theorem mem_take_append (ha : a ∈ l.take n) (l' : List α) : a ∈ (l ++ l').take n := by
  rw [List.take_append]
  exact List.mem_append_left _ ha

end Fifo
