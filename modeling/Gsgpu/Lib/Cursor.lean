import Mathlib.Data.List.Basic
import Mathlib.Data.List.Nodup

/-! A list with a cursor: the key of one of its elements, or `none` for the head of the list, as
a pointer into a circular list with a head element is. -/
namespace Cursor

variable {α ι : Type*} [DecidableEq ι] (key : α → ι)

/-- The elements behind the cursor. -/
def after (xs : List α) : Option ι → List α
  | none => xs
  | some k => (xs.dropWhile fun x => key x ≠ k).tail

/-- The element at the cursor. -/
def at? (xs : List α) (c : Option ι) : Option α :=
  c.bind fun k => xs.find? fun x => key x = k

/-- Adding an element right behind the cursor. -/
def insertAfter (x : α) (xs : List α) : Option ι → List α
  | none => x :: xs
  | some k => xs.flatMap fun y => if key y = k then [y, x] else [y]

/-- The cursor in front of an element. -/
def prev (xs : List α) (k : ι) : Option ι :=
  ((xs.takeWhile fun x => key x ≠ k).getLast?).map key

def remove (xs : List α) (k : ι) : List α := xs.filter fun x => key x ≠ k

/-- The cursor splits the list. -/
structure Splits (xs : List α) (c : Option ι) (l r : List α) : Prop where
  eq : xs = l ++ r
  last : l.getLast?.map key = c

variable {key} {xs l r : List α} {c : Option ι}

omit [DecidableEq ι] in
/-- A cursor that points to the head or into the list splits it. -/
theorem exists_splits (h : ∀ k, c = some k → k ∈ xs.map key) : ∃ l r, Splits key xs c l r := by
  cases c with
  | none => exact ⟨[], xs, rfl, rfl⟩
  | some k =>
    obtain ⟨a, ha, hk⟩ := List.mem_map.mp (h k rfl)
    obtain ⟨l, r, rfl⟩ := List.append_of_mem ha
    exact ⟨l ++ [a], r, by simp, by simp [hk]⟩

omit [DecidableEq ι] in
theorem Splits.nil_or (h : Splits key xs c l r) :
    (l = [] ∧ c = none) ∨ ∃ l' a, l = l' ++ [a] ∧ c = some (key a) := by
  rcases List.eq_nil_or_concat l with rfl | ⟨l', a, rfl⟩
  · exact .inl ⟨rfl, by simpa using h.last.symm⟩
  · exact .inr ⟨l', a, List.concat_eq_append, by simpa using h.last.symm⟩

section Nodup

variable (hnodup : (xs.map key).Nodup)
include hnodup

omit [DecidableEq ι] in
private theorem key_ne {l' : List α} {a : α} {r : List α} (h : xs = l' ++ a :: r) :
    (∀ x ∈ l', key x ≠ key a) ∧ ∀ x ∈ r, key x ≠ key a := by
  subst h
  rw [List.map_append, List.map_cons, List.nodup_append] at hnodup
  obtain ⟨-, hr, hdis⟩ := hnodup
  constructor
  · intro x hx
    exact hdis _ (List.mem_map_of_mem hx) _ List.mem_cons_self
  · intro x hx heq
    exact (List.nodup_cons.mp hr).1 (heq ▸ List.mem_map_of_mem hx)

theorem Splits.after_eq (h : Splits key xs c l r) : after key xs c = r := by
  rcases h.nil_or with ⟨rfl, rfl⟩ | ⟨l', a, rfl, rfl⟩
  · exact h.eq
  · have heq : xs = l' ++ a :: r := by simpa using h.eq
    obtain ⟨hl, -⟩ := key_ne hnodup heq
    rw [after, heq, List.dropWhile_append_of_pos (by simpa using hl)]
    simp

theorem Splits.at?_eq (h : Splits key xs c l r) : at? key xs c = l.getLast? := by
  rcases h.nil_or with ⟨rfl, rfl⟩ | ⟨l', a, rfl, rfl⟩
  · rfl
  · have heq : xs = l' ++ a :: r := by simpa using h.eq
    obtain ⟨hl, -⟩ := key_ne hnodup heq
    have hnone : l'.find? (fun x => key x = key a) = none := by
      rw [List.find?_eq_none]
      simpa using hl
    rw [at?, Option.bind_some, heq, List.find?_append, hnone]
    simp

theorem Splits.insertAfter_eq (h : Splits key xs c l r) (x : α) :
    insertAfter key x xs c = l ++ x :: r := by
  have hid : ∀ (k : ι) (ys : List α), (∀ y ∈ ys, key y ≠ k) →
      (ys.flatMap fun y => if key y = k then [y, x] else [y]) = ys := by
    intro k ys hys
    induction ys with
    | nil => rfl
    | cons y ys ih =>
      rw [List.flatMap_cons, if_neg (hys y List.mem_cons_self),
        ih fun z hz => hys z (List.mem_cons_of_mem y hz)]
      rfl
  rcases h.nil_or with ⟨rfl, rfl⟩ | ⟨l', a, rfl, rfl⟩
  · rw [h.eq]
    rfl
  · have heq : xs = l' ++ a :: r := by simpa using h.eq
    obtain ⟨hl, hr⟩ := key_ne hnodup heq
    rw [insertAfter, heq, List.flatMap_append, List.flatMap_cons, hid _ _ hl, hid _ _ hr, if_pos rfl]
    simp

end Nodup

/-- The cursor in front of an element points to the head or to another element. -/
theorem mem_of_prev {k k' : ι} (h : prev key xs k = some k') :
    k' ≠ k ∧ k' ∈ xs.map key := by
  obtain ⟨a, ha, rfl⟩ := Option.map_eq_some_iff.mp h
  have hmem := List.mem_of_getLast? ha
  have hne := List.all_takeWhile (p := fun x => decide (key x ≠ k)) (l := xs)
  exact ⟨by simpa using List.all_eq_true.mp hne a hmem, List.mem_map_of_mem ((List.takeWhile_sublist _).subset hmem)⟩

theorem mem_map_remove {k k' : ι} : k' ∈ (remove key xs k).map key ↔ k' ≠ k ∧ k' ∈ xs.map key := by
  constructor
  · intro h
    obtain ⟨a, ha, rfl⟩ := List.mem_map.mp h
    obtain ⟨hmem, hne⟩ := List.mem_filter.mp ha
    exact ⟨by simpa using hne, List.mem_map_of_mem hmem⟩
  · rintro ⟨hne, h⟩
    obtain ⟨a, ha, rfl⟩ := List.mem_map.mp h
    exact List.mem_map_of_mem (List.mem_filter.mpr ⟨ha, by simpa using hne⟩)

end Cursor
