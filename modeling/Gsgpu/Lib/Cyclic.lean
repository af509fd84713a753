import Mathlib.Data.Nat.ModEq

/-! Positions on a circle of `n` places. The distance from a fixed place is a coordinate in which
a walk around the circle is a walk from zero to `n`. -/
namespace Cyclic

variable {n a b base h t : ℕ}

/-- The steps from place `a` to place `b`. -/
def dist (n a b : ℕ) : ℕ := (b + n - a) % n

theorem dist_eq (ha : a < n) (hb : b < n) : dist n a b = if a ≤ b then b - a else b + n - a := by
  rw [dist]
  split
  · rw [show b + n - a = b - a + n by omega, Nat.add_mod_right, Nat.mod_eq_of_lt (by omega)]
  · exact Nat.mod_eq_of_lt (by omega)

theorem dist_lt (hn : 0 < n) : dist n a b < n := Nat.mod_lt _ hn

theorem dist_self (ha : a < n) : dist n a a = 0 := by
  rw [dist_eq ha ha, if_pos le_rfl, Nat.sub_self]

/-- The coordinate tells places apart. -/
theorem dist_inj (hbase : base < n) (ha : a < n) (hb : b < n) :
    dist n base a = dist n base b ↔ a = b := by
  rw [dist_eq hbase ha, dist_eq hbase hb]
  split <;> split <;> omega

/-- A step forward. -/
theorem dist_succ (hbase : base < n) (ha : a < n) :
    dist n base ((a + 1) % n) = if dist n base a + 1 = n then 0 else dist n base a + 1 := by
  have hn : 0 < n := by omega
  rw [dist_eq hbase (Nat.mod_lt _ hn), dist_eq hbase ha]
  rcases Nat.lt_or_ge (a + 1) n with hlt | hge
  · rw [Nat.mod_eq_of_lt hlt]
    split <;> split <;> split <;> omega
  · rw [show a + 1 = n by omega, Nat.mod_self]
    split <;> split <;> split <;> omega

/-- Distances between other places, in the coordinate. -/
theorem dist_coord (hbase : base < n) (hh : h < n) (ht : t < n) :
    dist n h t = if dist n base h ≤ dist n base t then dist n base t - dist n base h
      else dist n base t + n - dist n base h := by
  rw [dist_eq hh ht, dist_eq hbase hh, dist_eq hbase ht]
  split_ifs <;> omega

/-- A place comes before another on the way from a third. -/
theorem dist_lt_dist_iff {p x : ℕ} (hbase : base < n) (hh : h < n) (hp : p < n) (hx : x < n) :
    dist n h x < dist n h p ↔
      (dist n base h ≤ dist n base p ∧ dist n base h ≤ dist n base x ∧
        dist n base x < dist n base p) ∨
      (dist n base p < dist n base h ∧
        (dist n base h ≤ dist n base x ∨ dist n base x < dist n base p)) := by
  have := dist_lt (a := base) (b := x) (show 0 < n by omega)
  have := dist_lt (a := base) (b := p) (show 0 < n by omega)
  have := dist_lt (a := base) (b := h) (show 0 < n by omega)
  rw [dist_coord hbase hh hx, dist_coord hbase hh hp]
  split_ifs <;> omega

/-- From one number to another that is less than a turn ahead. -/
theorem dist_mod (hab : a ≤ b) (hlt : b < a + n) : dist n (a % n) (b % n) = b - a := by
  have hn : 0 < n := by omega
  have ha := Nat.mod_lt a hn
  have hb : b % n = (a % n + (b - a)) % n := by
    rw [Nat.mod_add_mod, Nat.add_sub_cancel' hab]
  rw [dist_eq ha (Nat.mod_lt _ hn), hb]
  rcases Nat.lt_or_ge (a % n + (b - a)) n with hsum | hsum
  · rw [Nat.mod_eq_of_lt hsum]
    split_ifs <;> omega
  · have hwrap : (a % n + (b - a)) % n = a % n + (b - a) - n := by
      rw [Nat.mod_eq_sub_mod hsum]
      exact Nat.mod_eq_of_lt (by omega)
    rw [hwrap]
    split_ifs <;> omega

/-- Going the distance leads there. -/
theorem add_dist_mod (hb : b < n) : (a + dist n (a % n) b) % n = b := by
  have ha := Nat.mod_lt a (show 0 < n by omega)
  rw [← Nat.mod_add_mod, dist_eq ha hb]
  split_ifs
  · rw [show a % n + (b - a % n) = b by omega, Nat.mod_eq_of_lt hb]
  · rw [show a % n + (b + n - a % n) = b + n by omega, Nat.add_mod_right, Nat.mod_eq_of_lt hb]

/-- Places that are multiples, on a circle that is. -/
theorem dist_mul {k : ℕ} : dist (k * n) (k * a) (k * b) = k * dist n a b := by
  rw [dist, dist, ← Nat.mul_add, ← Nat.mul_sub, Nat.mul_mod_mul_left]

/-- A step towards a place. -/
theorem dist_next (ha : a < n) (hb : b < n) (hne : a ≠ b) :
    dist n ((a + 1) % n) b + 1 = dist n a b := by
  rw [dist_eq (Nat.mod_lt _ (by omega)) hb, dist_eq ha hb]
  rcases Nat.lt_or_ge (a + 1) n with hlt | hge
  · rw [Nat.mod_eq_of_lt hlt]
    split_ifs <;> omega
  · rw [show a + 1 = n by omega, Nat.mod_self]
    split_ifs <;> omega

end Cyclic
