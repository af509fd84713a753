import Gsgpu.Chash.Table

/-! The bitmaps of a hash table, slot by slot. The mask of an iterator is turned round with every
step, so it stays at the bit of its slot if the slots wrap where words do. -/
namespace Gsgpu.Chash

variable {V : Type} {t : Table V} {it : Iter}

namespace Table

def valid (t : Table V) (s : ℕ) : Bool := (t.validBitmap (s / 64)).getLsbD (s % 64)

def occup (t : Table V) (s : ℕ) : Bool := (t.occupBitmap (s / 64)).getLsbD (s % 64)

end Table

/-- The mask of an iterator is at the bit of its slot. -/
def Iter.Synced (it : Iter) : Prop := it.mask = 1#64 <<< (it.slot % 64)

theorem Iter.init_synced (s : ℕ) : (Iter.init s).Synced := by
  have : s &&& 63 = s % 64 := Nat.and_two_pow_sub_one_eq_mod s 6
  simp only [Iter.Synced, Iter.init, this]
  rfl

private theorem rotate_mask : ∀ i : Fin 64,
    (1#64 <<< i.val) <<< 1 ||| (1#64 <<< i.val) >>> 63 = 1#64 <<< ((i.val + 1) % 64) := by
  decide

theorem inc_slot (t : Table V) (it : Iter) : (t.inc it).slot = (it.slot + 1) % t.size :=
  Nat.and_two_pow_sub_one_eq_mod _ _

/-- The mask turns round at the end of a word, whatever the slot does. -/
theorem Iter.Synced.inc_mask (h : it.Synced) : (t.inc it).mask = 1#64 <<< ((it.slot + 1) % 64) := by
  rw [Nat.add_mod, Nat.mod_eq_of_lt (by omega : 1 < 64)]
  simp only [Table.inc]
  rw [h]
  exact rotate_mask ⟨it.slot % 64, Nat.mod_lt _ (by omega)⟩

theorem Iter.Synced.inc (h : it.Synced) (hbits : 6 ≤ t.bits) : (t.inc it).Synced := by
  have hdvd : 64 ∣ t.size := Nat.pow_dvd_pow 2 hbits
  rw [Iter.Synced, h.inc_mask, inc_slot, Nat.mod_mod_of_dvd _ hdvd]

/-- Two slots share a bit only if they are the same. -/
private theorem slot_ext {a b : ℕ} (hd : a / 64 = b / 64) (hm : a % 64 = b % 64) : a = b := by
  omega

private theorem and_mask (w : BitVec 64) {i : ℕ} (hi : i < 64) :
    (w &&& 1#64 <<< i != 0) = w.getLsbD i := by
  have hpow : BitVec.twoPow 64 i ≠ 0 := by
    intro h
    have := congrArg (fun b : BitVec 64 => b.getLsbD i) h
    simp [hi] at this
  show (w &&& BitVec.twoPow 64 i != 0) = w.getLsbD i
  rw [BitVec.and_twoPow]
  cases w.getLsbD i
  · simp
  · simpa using hpow

private theorem mod_lt (s : ℕ) : s % 64 < 64 := Nat.mod_lt _ (by omega)

theorem isValid_eq (h : it.Synced) : t.isValid it = t.valid it.slot := by
  rw [Table.isValid, h, Nat.shiftRight_eq_div_pow]
  exact and_mask _ (mod_lt _)

theorem isEmpty_eq (h : it.Synced) : t.isEmpty it = !t.occup it.slot := by
  have := and_mask (t.occupBitmap (it.slot / 64)) (mod_lt it.slot)
  rw [Table.isEmpty, h, Nat.shiftRight_eq_div_pow]
  rw [bne, Bool.not_eq_eq_eq_not] at this
  exact this

private theorem update_or {bm : ℕ → BitVec 64} (s x : ℕ) :
    (Function.update bm (s / 64) (bm (s / 64) ||| 1#64 <<< (s % 64)) (x / 64)).getLsbD (x % 64) =
      (decide (x = s) || (bm (x / 64)).getLsbD (x % 64)) := by
  by_cases hd : x / 64 = s / 64
  · rw [hd, Function.update_self]
    show (bm (s / 64) ||| BitVec.twoPow 64 (s % 64)).getLsbD (x % 64) = _
    rw [BitVec.getLsbD_or, BitVec.getLsbD_twoPow, Bool.or_comm]
    have : x = s ↔ s % 64 = x % 64 := ⟨fun h => h ▸ rfl, fun h => slot_ext hd h.symm⟩
    simp [this, mod_lt]
  · have : x ≠ s := fun h => hd (h ▸ rfl)
    rw [Function.update_of_ne hd]
    simp [this]

private theorem update_and_not {bm : ℕ → BitVec 64} (s x : ℕ) :
    (Function.update bm (s / 64) (bm (s / 64) &&& ~~~(1#64 <<< (s % 64))) (x / 64)).getLsbD (x % 64) =
      (!decide (x = s) && (bm (x / 64)).getLsbD (x % 64)) := by
  by_cases hd : x / 64 = s / 64
  · rw [hd, Function.update_self]
    show (bm (s / 64) &&& ~~~BitVec.twoPow 64 (s % 64)).getLsbD (x % 64) = _
    rw [BitVec.getLsbD_and, BitVec.getLsbD_not, BitVec.getLsbD_twoPow, Bool.and_comm]
    have : x = s ↔ s % 64 = x % 64 := ⟨fun h => h ▸ rfl, fun h => slot_ext hd h.symm⟩
    simp [this, mod_lt]
  · have : x ≠ s := fun h => hd (h ▸ rfl)
    rw [Function.update_of_ne hd]
    simp [this]

theorem valid_setValid (h : it.Synced) (x : ℕ) :
    (t.setValid it).valid x = (decide (x = it.slot) || t.valid x) := by
  simp only [Table.setValid, Table.valid, Nat.shiftRight_eq_div_pow]
  rw [h]
  exact update_or _ _

theorem occup_setValid (h : it.Synced) (x : ℕ) :
    (t.setValid it).occup x = (decide (x = it.slot) || t.occup x) := by
  simp only [Table.setValid, Table.occup, Nat.shiftRight_eq_div_pow]
  rw [h]
  exact update_or _ _

theorem valid_setInvalid (h : it.Synced) (x : ℕ) :
    (t.setInvalid it).valid x = (!decide (x = it.slot) && t.valid x) := by
  simp only [Table.setInvalid, Table.valid, Nat.shiftRight_eq_div_pow]
  rw [h]
  exact update_and_not _ _

@[simp] theorem occup_setInvalid (x : ℕ) : (t.setInvalid it).occup x = t.occup x := rfl

@[simp] theorem valid_setEmpty (x : ℕ) : (t.setEmpty it).valid x = t.valid x := rfl

theorem occup_setEmpty (h : it.Synced) (x : ℕ) :
    (t.setEmpty it).occup x = (!decide (x = it.slot) && t.occup x) := by
  simp only [Table.setEmpty, Table.occup, Nat.shiftRight_eq_div_pow]
  rw [h]
  exact update_and_not _ _

end Gsgpu.Chash
