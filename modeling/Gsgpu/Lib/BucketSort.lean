import Mathlib.Data.Nat.Notation
import Mathlib.Tactic.Common

/-! Sorting by buckets: the elements of a list are put into the bucket of their key, in order, and
the buckets are then put one in front of the other, lowest first. -/
namespace BucketSort

variable {α : Type*} (key : α → ℕ)

/-- The first `n` buckets of `xs`, put in front of `zs`. -/
def gather (xs : List α) (n : ℕ) (zs : List α) : List α :=
  (List.range n).foldl (fun ys i => xs.filter (key · = i) ++ ys) zs

/-- Elements of a higher key come first. -/
def descending (a b : α) : Bool := key b ≤ key a

variable {key} {xs ys zs : List α} {n : ℕ}

@[simp] theorem gather_zero : gather key xs 0 zs = zs := rfl

@[simp] theorem gather_succ :
    gather key xs (n + 1) zs = xs.filter (key · = n) ++ gather key xs n zs := by
  simp [gather, List.range_succ]

theorem gather_append : gather key xs n zs = gather key xs n [] ++ zs := by
  induction n with
  | zero => rfl
  | succ n ih => rw [gather_succ, gather_succ, ih, List.append_assoc]

/-- Lists with the same buckets give the same result. -/
theorem gather_congr (h : ∀ i < n, xs.filter (key · = i) = ys.filter (key · = i)) :
    gather key xs n zs = gather key ys n zs := by
  induction n with
  | zero => rfl
  | succ n ih =>
    rw [gather_succ, gather_succ, h n (Nat.lt_succ_self n), ih fun i hi => h i (by omega)]

/-- A sorted list begins with the elements of the highest key. -/
theorem split_highest (hs : xs.Pairwise fun a b => key b ≤ key a) (hn : ∀ x ∈ xs, key x < n + 1) :
    xs = xs.filter (key · = n) ++ xs.filter (key · < n) := by
  induction xs with
  | nil => rfl
  | cons x xs ih =>
    obtain ⟨hx, hs⟩ := List.pairwise_cons.mp hs
    have hxn := hn x List.mem_cons_self
    by_cases heq : key x = n
    · have ih := ih hs fun y hy => hn y (List.mem_cons_of_mem x hy)
      simp only [List.filter_cons, heq, decide_true, if_true, Nat.lt_irrefl, decide_false,
        Bool.false_eq_true, if_false, List.cons_append]
      rw [← ih]
    · have hlow : ∀ y ∈ x :: xs, key y < n := by
        intro y hy
        rcases List.mem_cons.mp hy with rfl | hy
        · omega
        · have := hx y hy
          omega
      rw [List.filter_eq_nil_iff.mpr fun y hy => by simpa using Nat.ne_of_lt (hlow y hy),
        List.filter_eq_self.mpr fun y hy => by simpa using hlow y hy, List.nil_append]

/-- A sorted list is what its buckets give. -/
theorem gather_of_pairwise (hs : xs.Pairwise fun a b => key b ≤ key a)
    (hn : ∀ x ∈ xs, key x < n) : gather key xs n [] = xs := by
  induction n generalizing xs with
  | zero =>
    cases xs with
    | nil => rfl
    | cons x xs => exact absurd (hn x List.mem_cons_self) (Nat.not_lt_zero _)
  | succ n ih =>
    have hlow : gather key (xs.filter (key · < n)) n [] = xs.filter (key · < n) :=
      ih (hs.filter _) fun x hx => by simpa using (List.mem_filter.mp hx).2
    have hsame : gather key xs n [] = gather key (xs.filter (key · < n)) n [] := by
      refine gather_congr fun i hi => ?_
      rw [List.filter_filter]
      refine List.filter_congr fun x _ => ?_
      by_cases hx : key x = i <;> simp [hx, hi]
    rw [gather_succ, hsame, hlow, ← split_highest hs hn]

theorem descending_trans (a b c : α) (hab : descending key a b = true)
    (hbc : descending key b c = true) : descending key a c = true := by
  simp only [descending, decide_eq_true_eq] at *
  omega

theorem descending_total (a b : α) : (descending key a b || descending key b a) = true := by
  simp only [descending, Bool.or_eq_true, decide_eq_true_eq]
  omega

/-- A stable sort keeps the order in every bucket. -/
theorem filter_mergeSort (i : ℕ) :
    (xs.mergeSort (descending key)).filter (key · = i) = xs.filter (key · = i) := by
  have hpair : (xs.filter (key · = i)).Pairwise fun a b => descending key a b = true := by
    refine List.pairwise_of_forall_mem_list fun a ha b hb => ?_
    have ha : key a = i := by simpa using (List.mem_filter.mp ha).2
    have hb : key b = i := by simpa using (List.mem_filter.mp hb).2
    simp [descending, ha, hb]
  have hsub := (List.sublist_mergeSort descending_trans descending_total hpair
    List.filter_sublist).filter (key · = i)
  rw [List.filter_filter] at hsub
  simp only [Bool.and_self] at hsub
  have hlen := ((List.mergeSort_perm xs (descending key)).filter (key · = i)).length_eq
  exact (hsub.eq_of_length hlen.symm).symm

/-- Sorting by buckets is the stable sort. -/
theorem gather_eq_mergeSort (hn : ∀ x ∈ xs, key x < n) :
    gather key xs n zs = xs.mergeSort (descending key) ++ zs := by
  have hpair : (xs.mergeSort (descending key)).Pairwise fun a b => key b ≤ key a := by
    refine (List.pairwise_mergeSort descending_trans descending_total xs).imp fun h => ?_
    simpa [descending] using h
  rw [gather_append, ← gather_of_pairwise hpair fun x hx => hn x (List.mem_mergeSort.mp hx)]
  congr 1
  exact gather_congr fun i _ => (filter_mergeSort i).symm

end BucketSort
