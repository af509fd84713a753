import Gsgpu.Cs.IndirectPacket
import Gsgpu.Lib.Circular
import Mathlib.Data.Nat.Log
import Mathlib.Tactic.ByContra
import Mathlib.Tactic.Set

/-! The command ring: a buffer of dwords that the driver writes at `wptr` and the hardware reads
at its own pointer. A submission reserves a number of dwords, writes its packets, and is padded
to the fetch size and made visible by the commit. -/
namespace Gsgpu.CommandRing

open Cs (RingType)

/-- The constants of `struct gsgpu_ring_funcs`. -/
structure RingFuncs where
  alignMask : ℕ
  nop : ℕ
  emitFrameSize : ℕ
  emitIbSize : ℕ

/-- `VI_FLUSH_GPU_TLB_NUM_WREG`. -/
def viFlushGpuTlbNumWreg : ℕ := 3

/-- `gfx_ring_funcs_gfx`. -/
def gfxRingFuncsGfx : RingFuncs where
  alignMask := 0xf
  nop := Cs.gspkt 0x80 0
  emitFrameSize := 7 + 1 + viFlushGpuTlbNumWreg * 5 + 9 + 5 + 3 + 5 + 5
  emitIbSize := 4

/-- `xdma_ring_funcs`. -/
def xdmaRingFuncs : RingFuncs where
  alignMask := 0xf
  nop := Cs.gspkt 0x80 0
  emitFrameSize := 3 + 6 + viFlushGpuTlbNumWreg * 3 + 6 + 5 + 5 + 5
  emitIbSize := 4

/-- `ring->funcs`. -/
def ringFuncs : RingType → RingFuncs
  | .gfx => gfxRingFuncsGfx
  | .xdma => xdmaRingFuncs

/-- What of `struct gsgpu_ring` its buffer needs. `overrun` records that `gsgpu_ring_write` has
found the reservation used up, which it only reports. -/
structure Ring where
  type : RingType
  ringSize : ℕ
  maxDw : ℕ
  bufMask : ℕ
  ptrMask : ℕ
  ring : ℕ → ℕ
  wptr : ℕ
  wptrOld : ℕ
  countDw : ℤ
  overrun : Bool

/-- `roundup_pow_of_two`, which is undefined at zero. -/
def roundupPowOfTwo (n : ℕ) : Option ℕ := if n = 0 then none else some (2 ^ Nat.clog 2 n)

/-- `gsgpu_ring_init` as far as it depends on its arguments: `none` when it refuses them, or when
they leave the size undefined. The number of hardware submissions must pass the check of
`gsgpu_fence_driver_init_ring`, sizes are `unsigned`, and no BO is made of an empty ring. -/
def ringInit (type : RingType) (maxDw schedHwSubmission : ℕ) : Option Ring :=
  if schedHwSubmission &&& (schedHwSubmission + (2 ^ 32 - 1)) % 2 ^ 32 ≠ 0 then none
  else match roundupPowOfTwo (maxDw * 4 * schedHwSubmission % 2 ^ 32) with
  | none => none
  | some size =>
    let ringSize := size % 2 ^ 32
    let bufMask := (ringSize / 4 + (2 ^ 32 - 1)) % 2 ^ 32
    if ringSize = 0 then none
    else some
      { type := type
        ringSize := ringSize
        maxDw := maxDw
        bufMask := bufMask
        ptrMask := bufMask
        ring := fun _ => (ringFuncs type).nop
        wptr := 0
        wptrOld := 0
        countDw := 0
        overrun := false }

/-- An `unsigned` stored in an `int`. -/
def toInt (n : ℕ) : ℤ := if n < 2 ^ 31 then n else (n : ℤ) - 2 ^ 32

namespace Ring

/-- `gsgpu_ring_alloc`. -/
def alloc (ring : Ring) (ndw : ℕ) : Except Errno Ring :=
  let mask := (ringFuncs ring.type).alignMask
  -- `& ~align_mask` clears the bits of the mask
  let ndw := (ndw + mask) % 2 ^ 32 - ((ndw + mask) % 2 ^ 32 &&& mask)
  if ndw > ring.maxDw then .error .enomem
  else .ok { ring with countDw := toInt ndw, wptrOld := ring.wptr }

/-- `gsgpu_ring_write`. -/
def write (ring : Ring) (v : ℕ) : Ring :=
  { ring with
    overrun := ring.overrun || decide (ring.countDw ≤ 0)
    ring := Function.update ring.ring (ring.wptr &&& ring.bufMask) v
    wptr := (ring.wptr + 1) % 2 ^ 64 &&& ring.ptrMask
    countDw := ring.countDw - 1 }

/-- The dwords of a packet, written one after the other. -/
def emit (ring : Ring) (words : List ℕ) : Ring := words.foldl write ring

/-- `gsgpu_ring_insert_nop` and `xdma_ring_insert_nop`. -/
def insertNop (ring : Ring) (count : ℕ) : Ring :=
  ring.emit (List.replicate count (ringFuncs ring.type).nop)

/-- The NOPs `gsgpu_ring_commit` pads with, to match the fetch size. -/
def padding (ring : Ring) : ℕ :=
  let mask := (ringFuncs ring.type).alignMask
  (mask + 1 - (ring.wptr &&& mask)) % (mask + 1)

/-- `gsgpu_ring_commit`, up to the register write that shows `wptr` to the hardware. -/
def commit (ring : Ring) : Ring := ring.insertNop ring.padding

/-- `gsgpu_ring_undo`. -/
def undo (ring : Ring) : Ring := { ring with wptr := ring.wptrOld }

/-- A ring of `2 ^ k` dwords. -/
structure Sized (ring : Ring) (k : ℕ) : Prop where
  bufMask : ring.bufMask = 2 ^ k - 1
  ptrMask : ring.ptrMask = 2 ^ k - 1
  ringSize : ring.ringSize = 2 ^ k * 4
  le : k ≤ 29

variable {ring : Ring} {k : ℕ}

/-- Emission keeps all but the contents, the write pointer and the accounting. -/
theorem emit_fields (ring : Ring) (words : List ℕ) : ∃ mem wptr overrun,
    ring.emit words = { ring with
      ring := mem, wptr := wptr, overrun := overrun, countDw := ring.countDw - words.length } := by
  induction words generalizing ring with
  | nil => exact ⟨ring.ring, ring.wptr, ring.overrun, by simp [emit]⟩
  | cons v words ih =>
    obtain ⟨mem, wptr, overrun, h⟩ := ih (ring.write v)
    refine ⟨mem, wptr, overrun, ?_⟩
    have hemit : ring.emit (v :: words) = (ring.write v).emit words := rfl
    rw [hemit, h]
    simp [write, sub_sub, add_comm]

@[simp] theorem emit_type (ring : Ring) (words : List ℕ) : (ring.emit words).type = ring.type := by
  obtain ⟨_, _, _, h⟩ := emit_fields ring words
  rw [h]

@[simp] theorem emit_maxDw (ring : Ring) (words : List ℕ) :
    (ring.emit words).maxDw = ring.maxDw := by
  obtain ⟨_, _, _, h⟩ := emit_fields ring words
  rw [h]

@[simp] theorem emit_wptrOld (ring : Ring) (words : List ℕ) :
    (ring.emit words).wptrOld = ring.wptrOld := by
  obtain ⟨_, _, _, h⟩ := emit_fields ring words
  rw [h]

@[simp] theorem emit_countDw (ring : Ring) (words : List ℕ) :
    (ring.emit words).countDw = ring.countDw - words.length := by
  obtain ⟨_, _, _, h⟩ := emit_fields ring words
  rw [h]

theorem emit_append (ring : Ring) (xs ys : List ℕ) :
    ring.emit (xs ++ ys) = (ring.emit xs).emit ys := List.foldl_append

theorem Sized.emit (h : ring.Sized k) (words : List ℕ) : (ring.emit words).Sized k := by
  obtain ⟨_, _, _, he⟩ := emit_fields ring words
  rw [he]
  exact ⟨h.bufMask, h.ptrMask, h.ringSize, h.le⟩

/-- One dword goes where `wptr` points, which moves on around the ring. -/
theorem Sized.write_eq (h : ring.Sized k) (v : ℕ) : ring.write v = { ring with
    overrun := ring.overrun || decide (ring.countDw ≤ 0)
    ring := Function.update ring.ring (ring.wptr % 2 ^ k) v
    wptr := (ring.wptr + 1) % 2 ^ k
    countDw := ring.countDw - 1 } := by
  have hdvd : 2 ^ k ∣ 2 ^ 64 := Nat.pow_dvd_pow 2 (le_trans h.le (by omega))
  simp only [write, h.bufMask, h.ptrMask, Nat.and_two_pow_sub_one_eq_mod,
    Nat.mod_mod_of_dvd _ hdvd]

/-- The write pointer after a packet. -/
theorem Sized.emit_wptr (h : ring.Sized k) (hw : ring.wptr < 2 ^ k) (words : List ℕ) :
    (ring.emit words).wptr = (ring.wptr + words.length) % 2 ^ k := by
  induction words generalizing ring with
  | nil => simp [Ring.emit, Nat.mod_eq_of_lt hw]
  | cons v words ih =>
    have hsized : (ring.write v).Sized k := h.emit [v]
    have hwptr : (ring.write v).wptr = (ring.wptr + 1) % 2 ^ k := by rw [h.write_eq]
    have hlt : (ring.write v).wptr < 2 ^ k := hwptr ▸ Nat.mod_lt _ (Nat.two_pow_pos k)
    have hemit : ring.emit (v :: words) = (ring.write v).emit words := rfl
    rw [hemit, ih hsized hlt, hwptr, Nat.mod_add_mod, List.length_cons, Nat.add_assoc,
      Nat.add_comm 1]

/-- A packet that has room goes behind the queue the ring holds. -/
theorem Sized.emit_holds (h : ring.Sized k) {head : ℕ} {queue : List ℕ}
    (hw : ring.wptr = (head + queue.length) % 2 ^ k)
    (hq : Circular.Holds (2 ^ k) ring.ring head queue) (words : List ℕ)
    (hroom : queue.length + words.length ≤ 2 ^ k) :
    Circular.Holds (2 ^ k) (ring.emit words).ring head (queue ++ words) := by
  induction words generalizing ring queue with
  | nil => simpa [Ring.emit] using hq
  | cons v words ih =>
    rw [List.length_cons] at hroom
    have hwrite := h.write_eq v
    have hpush := hq.push (by omega) v
    have hw' : (ring.write v).wptr = (head + (queue ++ [v]).length) % 2 ^ k := by
      rw [hwrite, hw, List.length_append, List.length_singleton, Nat.mod_add_mod, Nat.add_assoc]
    have hq' : Circular.Holds (2 ^ k) (ring.write v).ring head (queue ++ [v]) := by
      rw [hwrite, hw, Nat.mod_mod]
      exact hpush
    have := ih (h.emit [v]) hw' hq' (by simp; omega)
    rwa [List.append_assoc] at this

/-- Emission is reported exactly when it goes beyond what is left of the reservation. -/
theorem emit_overrun (ring : Ring) (words : List ℕ) : (ring.emit words).overrun =
    (ring.overrun || decide (words ≠ [] ∧ ring.countDw < words.length)) := by
  induction words generalizing ring with
  | nil => simp [emit]
  | cons v words ih =>
    have hemit : ring.emit (v :: words) = (ring.write v).emit words := rfl
    have hiff : (ring.countDw ≤ 0 ∨ words ≠ [] ∧ ring.countDw - 1 < words.length) ↔
        (v :: words ≠ [] ∧ ring.countDw < (v :: words).length) := by
      rcases words with _ | ⟨w, words⟩
      · simp
        omega
      · simp only [ne_eq, reduceCtorEq, not_false_eq_true, true_and, List.length_cons]
        omega
    rw [hemit, ih, write, Bool.or_assoc, ← Bool.decide_or]
    exact congrArg (ring.overrun || ·) (decide_eq_decide.mpr hiff)

theorem emit_overrun_of_le {words : List ℕ} (hcount : (words.length : ℤ) ≤ ring.countDw) :
    (ring.emit words).overrun = ring.overrun := by
  rw [emit_overrun, decide_eq_false (by omega), Bool.or_false]

/-- The dwords `gsgpu_ring_alloc` reserves for a request: both rings align to 16 dwords. -/
def reserved (ndw : ℕ) : ℕ := (ndw + 15) % 2 ^ 32 / 16 * 16

theorem alloc_eq (ring : Ring) (ndw : ℕ) : ring.alloc ndw =
    if reserved ndw > ring.maxDw then .error .enomem
    else .ok { ring with countDw := toInt (reserved ndw), wptrOld := ring.wptr } := by
  have hmask : (ringFuncs ring.type).alignMask = 2 ^ 4 - 1 := by cases ring.type <;> rfl
  have halign : (ndw + (2 ^ 4 - 1)) % 2 ^ 32 -
      ((ndw + (2 ^ 4 - 1)) % 2 ^ 32 &&& (2 ^ 4 - 1)) = reserved ndw := by
    rw [Nat.and_two_pow_sub_one_eq_mod, reserved]
    omega
  simp only [alloc, hmask, halign]

theorem padding_eq (ring : Ring) : ring.padding = (16 - ring.wptr % 16) % 16 := by
  have hmask : (ringFuncs ring.type).alignMask = 2 ^ 4 - 1 := by cases ring.type <;> rfl
  simp only [padding, hmask, Nat.and_two_pow_sub_one_eq_mod]
  rfl

/-- A submission that started on a multiple of 16 is padded to one, within a reservation that
has it. A ring too small for that only takes empty submissions. -/
theorem padding_le {base len n : ℕ} (hwptr : ring.wptr = (base + len) % 2 ^ k)
    (hbase : 16 ∣ base) (hring : 16 ∣ 2 ^ k ∨ len = 0 ∧ base < 2 ^ k) (hn : 16 ∣ n)
    (hlen : len ≤ n) : len + ring.padding ≤ n ∧ 16 ∣ base + len + ring.padding := by
  rw [padding_eq]
  have hmod : ring.wptr % 16 = (base + len) % 16 := by
    rw [hwptr]
    rcases hring with hdvd | ⟨rfl, hlt⟩
    · rw [Nat.mod_mod_of_dvd _ hdvd]
    · rw [Nat.add_zero, Nat.mod_eq_of_lt hlt]
  omega

/-- What the commit appends. -/
def nops (ring : Ring) : List ℕ := List.replicate ring.padding (ringFuncs ring.type).nop

theorem commit_eq (ring : Ring) : ring.commit = ring.emit ring.nops := rfl

end Ring

/-- An accepted ring has the power of two of dwords its arguments round up to, if they do not
overflow an `unsigned`, and is empty. -/
theorem ringInit_eq_some {type : RingType} {maxDw submissions : ℕ} {ring : Ring}
    (h : ringInit type maxDw submissions = some ring) :
    ∃ k, ring.Sized k ∧ ring.type = type ∧ ring.maxDw = maxDw ∧ ring.wptr = 0 ∧
      ring.overrun = false ∧ ring.countDw = 0 ∧ maxDw * 4 * submissions % 2 ^ 32 ≠ 0 ∧
      Nat.clog 2 (maxDw * 4 * submissions % 2 ^ 32) = k + 2 := by
  set product := maxDw * 4 * submissions % 2 ^ 32 with hproduct
  simp only [ringInit] at h
  rw [ite_not] at h
  split at h
  swap
  · cases h
  by_cases hzero : product = 0
  · simp only [roundupPowOfTwo, ← hproduct, hzero, if_true] at h
    cases h
  · simp only [roundupPowOfTwo, ← hproduct, hzero, if_false] at h
    split at h
    · cases h
    · next hsize =>
      have hc : Nat.clog 2 product < 32 := by
        by_contra hge
        exact hsize (Nat.mod_eq_zero_of_dvd (Nat.pow_dvd_pow 2 (by omega)))
      have hle : product ≤ 2 ^ Nat.clog 2 product := Nat.le_pow_clog (by omega) _
      have hdvd : 4 ∣ product := by
        rw [hproduct, mul_right_comm]
        exact (Nat.dvd_mod_iff (by decide)).mpr (Nat.dvd_mul_left 4 _)
      have hfour : 4 ≤ product := Nat.le_of_dvd (Nat.pos_of_ne_zero hzero) hdvd
      have hc2 : 2 ≤ Nat.clog 2 product := by
        by_contra hlt
        have : 2 ^ Nat.clog 2 product ≤ 2 ^ 1 := Nat.pow_le_pow_right (by omega) (by omega)
        omega
      obtain ⟨k, hk⟩ := Nat.exists_eq_add_of_le' hc2
      have hpow : 2 ^ (k + 2) % 2 ^ 32 = 2 ^ k * 4 :=
        (Nat.mod_eq_of_lt (Nat.pow_lt_pow_right (by omega) (by omega))).trans (by rw [pow_add]; rfl)
      have hpos := Nat.two_pow_pos k
      have hlt : 2 ^ k < 2 ^ 32 := Nat.pow_lt_pow_right (by omega) (by omega)
      have hmask : (2 ^ k * 4 / 4 + (2 ^ 32 - 1)) % 2 ^ 32 = 2 ^ k - 1 := by omega
      rw [hk, hpow, hmask] at h
      obtain rfl := Option.some.inj h
      exact ⟨k, ⟨rfl, rfl, rfl, by omega⟩, rfl, rfl, rfl, rfl, rfl, hzero, hk⟩

end Gsgpu.CommandRing
