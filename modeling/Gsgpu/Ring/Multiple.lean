import Gsgpu.Ring.Buffer

/-! Many dwords written to the ring at once, in one or two pieces, against one write for each. -/
namespace Gsgpu.CommandRing

/-- `memcpy` to a dword of the ring. -/
def memcpy (mem : ℕ → ℕ) (dst : ℕ) (src : ℕ → ℕ) (bytes : ℕ) : ℕ → ℕ := fun a =>
  if dst ≤ a ∧ a < dst + bytes / 4 then src (a - dst) else mem a

theorem memcpy_dwords (mem : ℕ → ℕ) (dst : ℕ) (src : ℕ → ℕ) (n a : ℕ) :
    memcpy mem dst src (n * 4) a = if dst ≤ a ∧ a < dst + n then src (a - dst) else mem a := by
  unfold memcpy
  rw [Nat.mul_div_cancel n (by decide)]

namespace Ring

/-- `gsgpu_ring_write_multiple`. Positions and chunks are `unsigned`. -/
def writeMultiple (ring : Ring) (src : ℕ → ℕ) (countDw : ℕ) : Ring :=
  let occupied := (ring.wptr &&& ring.bufMask) % 2 ^ 32
  let left := (ring.bufMask + 1 + (2 ^ 32 - occupied)) % 2 ^ 32
  let chunk1 := if countDw ≤ left then countDw else left
  let chunk2 := countDw - chunk1
  let bytes1 := chunk1 <<< 2 % 2 ^ 32
  let bytes2 := chunk2 <<< 2 % 2 ^ 32
  let mem := if bytes1 ≠ 0 then memcpy ring.ring occupied src bytes1 else ring.ring
  { ring with
    overrun := ring.overrun || decide (ring.countDw < countDw)
    ring := if bytes2 ≠ 0 then memcpy mem 0 (fun i => src (bytes1 / 4 + i)) bytes2 else mem
    wptr := (ring.wptr + countDw) % 2 ^ 64 &&& ring.ptrMask
    countDw := ring.countDw - countDw }

/-- A ring of `2 ^ k` dwords whose write pointer wraps at `2 ^ j`: with the ring, or with 64 bits. -/
structure Masked (ring : Ring) (k j : ℕ) : Prop where
  bufMask : ring.bufMask = 2 ^ k - 1
  ptrMask : ring.ptrMask = 2 ^ j - 1
  le : k ≤ 29
  wraps : j = k ∨ j = 64
  wptr_lt : ring.wptr < 2 ^ j

/-- The contents with `n` dwords from `first` on, wrapping at `size`. -/
def wrapped (size first : ℕ) (src : ℕ → ℕ) (n : ℕ) (mem : ℕ → ℕ) : ℕ → ℕ := fun a =>
  if a + size < first + n then src (a + size - first)
  else if first ≤ a ∧ a < first + n ∧ a < size then src (a - first)
  else mem a

/-- One more dword, as long as the ring has room. -/
theorem wrapped_succ {size first n : ℕ} {src mem : ℕ → ℕ} (hfirst : first < size) (hn : n < size) :
    wrapped size first src (n + 1) mem =
      Function.update (wrapped size first src n mem) ((first + n) % size) (src n) := by
  funext a
  have hidx : (first + n) % size = if first + n < size then first + n else first + n - size := by
    split_ifs with h
    · exact Nat.mod_eq_of_lt h
    · rw [Nat.mod_eq_sub_mod (by omega), Nat.mod_eq_of_lt (by omega)]
  by_cases ha : a = (first + n) % size
  · subst ha
    rw [Function.update_self, hidx]
    unfold wrapped
    split_ifs <;> first | omega | (congr 1; omega)
  · rw [Function.update_of_ne ha]
    rw [hidx] at ha
    unfold wrapped
    split_ifs at ha ⊢ <;> first | rfl | omega

section Masked
variable {ring : Ring} {k j n : ℕ}

theorem Masked.dvd (h : ring.Masked k j) : 2 ^ k ∣ 2 ^ j ∧ 2 ^ j ∣ 2 ^ 64 := by
  have hle := h.le
  obtain rfl | rfl := h.wraps
  · exact ⟨dvd_rfl, Nat.pow_dvd_pow 2 (by omega)⟩
  · exact ⟨Nat.pow_dvd_pow 2 (by omega), dvd_rfl⟩

/-- One write goes where `wptr` points, and `wptr` moves on. -/
theorem Masked.write (h : ring.Masked k j) (v : ℕ) :
    (ring.write v).Masked k j ∧
      (ring.write v).ring = Function.update ring.ring (ring.wptr % 2 ^ k) v ∧
      (ring.write v).wptr = (ring.wptr + 1) % 2 ^ j := by
  have hwptr : (ring.write v).wptr = (ring.wptr + 1) % 2 ^ j := by
    simp only [Ring.write, h.ptrMask, Nat.and_two_pow_sub_one_eq_mod, Nat.mod_mod_of_dvd _ h.dvd.2]
  refine ⟨⟨h.bufMask, h.ptrMask, h.le, h.wraps, ?_⟩, ?_, hwptr⟩
  · rw [hwptr]
    exact Nat.mod_lt _ (Nat.two_pow_pos j)
  · simp only [Ring.write, h.bufMask, Nat.and_two_pow_sub_one_eq_mod]

/-- Single writes of no more dwords than the ring has. -/
theorem Masked.emit (h : ring.Masked k j) (src : ℕ → ℕ) (hn : n ≤ 2 ^ k) :
    (ring.emit ((List.range n).map src)).Masked k j ∧
      (ring.emit ((List.range n).map src)).ring =
        wrapped (2 ^ k) (ring.wptr % 2 ^ k) src n ring.ring ∧
      (ring.emit ((List.range n).map src)).wptr = (ring.wptr + n) % 2 ^ j := by
  have hfirst : ring.wptr % 2 ^ k < 2 ^ k := Nat.mod_lt _ (Nat.two_pow_pos k)
  induction n with
  | zero =>
    refine ⟨h, ?_, (Nat.mod_eq_of_lt h.wptr_lt).symm⟩
    funext a
    unfold wrapped
    rw [if_neg (by omega), if_neg (by omega)]
    rfl
  | succ n ih =>
    obtain ⟨hmasked, hring, hwptr⟩ := ih (by omega)
    rw [List.range_succ, List.map_append, emit_append]
    obtain ⟨hmasked', hring', hwptr'⟩ := hmasked.write (src n)
    refine ⟨hmasked', hring'.trans ?_, hwptr'.trans ?_⟩
    · rw [hring, hwptr, Nat.mod_mod_of_dvd _ h.dvd.1, wrapped_succ hfirst (by omega), Nat.mod_add_mod]
    · rw [hwptr, Nat.mod_add_mod, Nat.add_assoc]

/-- The two pieces. -/
theorem Masked.writeMultiple (h : ring.Masked k j) (src : ℕ → ℕ) (hn : n ≤ 2 ^ k) :
    (ring.writeMultiple src n).ring = wrapped (2 ^ k) (ring.wptr % 2 ^ k) src n ring.ring ∧
      (ring.writeMultiple src n).wptr = (ring.wptr + n) % 2 ^ j := by
  have hfirst : ring.wptr % 2 ^ k < 2 ^ k := Nat.mod_lt _ (Nat.two_pow_pos k)
  have hsize : 2 ^ k ≤ 2 ^ 29 := Nat.pow_le_pow_right (by decide) h.le
  have hoccupied : (ring.wptr &&& ring.bufMask) % 2 ^ 32 = ring.wptr % 2 ^ k := by
    rw [h.bufMask, Nat.and_two_pow_sub_one_eq_mod]
    exact Nat.mod_eq_of_lt (by omega)
  have hleft : (ring.bufMask + 1 + (2 ^ 32 - ring.wptr % 2 ^ k)) % 2 ^ 32 =
      2 ^ k - ring.wptr % 2 ^ k := by
    rw [h.bufMask]
    omega
  have hbytes : ∀ c ≤ 2 ^ k, c <<< 2 % 2 ^ 32 = c * 4 := by
    intro c hc
    rw [Nat.shiftLeft_eq]
    exact Nat.mod_eq_of_lt (by omega)
  constructor
  · unfold Ring.writeMultiple
    dsimp only
    rw [hoccupied, hleft]
    generalize ring.wptr % 2 ^ k = first at hfirst
    generalize 2 ^ k = size at hn hfirst hsize hbytes
    by_cases hfits : n ≤ size - first
    · rw [if_pos hfits, Nat.sub_self, hbytes n hn, hbytes 0 (Nat.zero_le _), if_neg (by simp)]
      funext a
      have hfront : ¬a + size < first + n := by omega
      unfold wrapped
      rw [if_neg hfront]
      obtain rfl | hpos := Nat.eq_zero_or_pos n
      · rw [if_neg (by omega), if_neg (by omega)]
      · rw [if_pos (by omega), memcpy_dwords]
        split_ifs <;> first | rfl | omega
    · rw [if_neg hfits, hbytes _ (Nat.sub_le _ _), hbytes _ (by omega), if_pos (by omega),
        if_pos (by omega)]
      funext a
      unfold wrapped
      rw [memcpy_dwords, memcpy_dwords, Nat.mul_div_cancel _ (by decide)]
      split_ifs <;> first | rfl | omega | (congr 1; omega)
  · simp only [Ring.writeMultiple, h.ptrMask, Nat.and_two_pow_sub_one_eq_mod,
      Nat.mod_mod_of_dvd _ h.dvd.2]

/-- A bulk write of no more dwords than the ring has leaves contents, write pointer and accounting as
the single writes do, wherever it starts and wraps. -/
theorem writeMultiple_eq_emit (h : ring.Masked k j) (hn : n ≤ 2 ^ k) (src : ℕ → ℕ) :
    (ring.writeMultiple src n).ring = (ring.emit ((List.range n).map src)).ring ∧
      (ring.writeMultiple src n).wptr = (ring.emit ((List.range n).map src)).wptr ∧
      (ring.writeMultiple src n).countDw = (ring.emit ((List.range n).map src)).countDw := by
  obtain ⟨hring, hwptr⟩ := h.writeMultiple src hn
  obtain ⟨-, hring', hwptr'⟩ := h.emit src hn
  refine ⟨hring.trans hring'.symm, hwptr.trans hwptr'.symm, ?_⟩
  rw [emit_countDw, List.length_map, List.length_range]
  rfl

end Masked

/-- A ring of 16 dwords, written from its last dword on. -/
def atLast : Ring := ⟨.gfx, 64, 4, 15, 15, fun _ => 0, 15, 0, 16, false⟩

theorem writeMultiple_eq_emit_atLast :
    (atLast.writeMultiple id 16).ring = (atLast.emit ((List.range 16).map id)).ring ∧
      (atLast.writeMultiple id 16).wptr = (atLast.emit ((List.range 16).map id)).wptr ∧
      (atLast.writeMultiple id 16).countDw = (atLast.emit ((List.range 16).map id)).countDw :=
  writeMultiple_eq_emit (k := 4) (j := 4)
    ⟨rfl, rfl, by decide, .inl rfl, by decide⟩ (by decide) id

end Ring

end Gsgpu.CommandRing
