import Gsgpu.Basic
import Mathlib.Tactic.Common

/-! `gsgpu_bo_create_list_entry_array`: the array of handles and priorities is copied from user
space, in one piece if the records have the size of `struct drm_gsgpu_bo_list_entry`, else record
by record after a fill with zeros. The allocation is sized in 64 bits, the copy in one piece and the
fill in 32. -/
namespace Gsgpu.EntryArray

/-- User memory. Addresses that cannot be read have no byte. -/
abbrev UserMem := UInt64 → Option UInt8

/-- A kernel buffer. Bytes that have not been written since it was allocated are absent. -/
abbrev Info := ℕ → Option UInt8

/-- `sizeof(struct drm_gsgpu_bo_list_entry)`. -/
def infoSize : UInt32 := 8

/-- `memset(info, 0, n)`. -/
def zeroFill (info : Info) (n : ℕ) : Info := fun a => if a < n then some 0 else info a

/-- `copy_from_user` of `n` bytes to the offset `dst`. -/
def copyFromUser (user : UserMem) (info : Info) (dst : ℕ) (src : UInt64) (n : ℕ) : Option Info :=
  if (List.range n).all fun k => (user (src + UInt64.ofNat k)).isSome then
    some fun a => if dst ≤ a ∧ a < dst + n then user (src + UInt64.ofNat (a - dst)) else info a
  else none

/-- The loop over the records, for `n` of them from the `i`-th on. -/
def copyRecords (user : UserMem) (boInfoSize : UInt32) :
    ℕ → ℕ → UInt64 → Info → Option Info
  | 0, _, _, info => some info
  | n + 1, i, uptr, info => do
    let info ← copyFromUser user info (i * infoSize.toNat) uptr (min boInfoSize infoSize).toNat
    copyRecords user boInfoSize n (i + 1) (uptr + boInfoSize.toUInt64) info

/-- `gsgpu_bo_create_list_entry_array`; `allocOk` is what `kvmalloc_array` comes to. -/
def boCreateListEntryArray (allocOk : Bool) (user : UserMem) (boInfoPtr : UInt64)
    (boNumber boInfoSize : UInt32) : Except Errno Info :=
  if !allocOk then .error .enomem
  else
    let info : Info := fun _ => none
    let copied :=
      if infoSize = boInfoSize then
        copyFromUser user info 0 boInfoPtr (boNumber * boInfoSize).toNat
      else
        copyRecords user boInfoSize boNumber.toNat 0 boInfoPtr
          (zeroFill info (boNumber * infoSize).toNat)
    match copied with
    | none => .error .efault
    | some info => .ok info

/-- Byte `j` of the `i`-th entry, as user space means it: that of its `i`-th record, or 0. -/
def recordByte (user : UserMem) (boInfoPtr : UInt64) (boInfoSize : UInt32) (i j : ℕ) :
    Option UInt8 :=
  if j < (min boInfoSize infoSize).toNat then
    user (boInfoPtr + UInt64.ofNat (i * boInfoSize.toNat + j))
  else some 0

/-- Every byte of the array comes from user space or from the fill with zeros. -/
def FromUser (user : UserMem) (boInfoPtr : UInt64) (boNumber boInfoSize : UInt32) (info : Info) :
    Prop :=
  ∀ i < boNumber.toNat, ∀ j < infoSize.toNat, (info (i * infoSize.toNat + j)).isSome ∧
    info (i * infoSize.toNat + j) = recordByte user boInfoPtr boInfoSize i j

section Copy
variable {user : UserMem} {info info' : Info} {dst n : ℕ} {src : UInt64}

theorem copyFromUser_inside (h : copyFromUser user info dst src n = some info') {k : ℕ}
    (hk : k < n) : (info' (dst + k)).isSome ∧ info' (dst + k) = user (src + UInt64.ofNat k) := by
  unfold copyFromUser at h
  split at h
  · next hread =>
    obtain rfl := Option.some.inj h
    have hin : dst ≤ dst + k ∧ dst + k < dst + n := by omega
    simp only [hin, and_self, if_true, Nat.add_sub_cancel_left]
    exact ⟨List.all_eq_true.mp hread k (List.mem_range.mpr hk), trivial⟩
  · cases h

theorem copyFromUser_outside (h : copyFromUser user info dst src n = some info') {a : ℕ}
    (ha : a < dst ∨ dst + n ≤ a) : info' a = info a := by
  unfold copyFromUser at h
  split at h
  · obtain rfl := Option.some.inj h
    have hout : ¬ (dst ≤ a ∧ a < dst + n) := by omega
    simp only [hout, if_false]
  · cases h

end Copy

section Records
variable {user : UserMem} {boInfoSize : UInt32} {info info' : Info} {n i : ℕ} {uptr : UInt64}

variable (boInfoSize) in
theorem copySize_le : (min boInfoSize infoSize).toNat ≤ infoSize.toNat := by
  have h : min boInfoSize infoSize ≤ infoSize := Std.min_le_right
  exact UInt32.le_iff_toNat_le.mp h

/-- The address `k` bytes behind the `r`-th record from `uptr` on. -/
theorem uptr_step (r k : ℕ) : uptr + boInfoSize.toUInt64 + UInt64.ofNat (r * boInfoSize.toNat + k) =
    uptr + UInt64.ofNat ((r + 1) * boInfoSize.toNat + k) := by
  have hsize : boInfoSize.toUInt64 = UInt64.ofNat boInfoSize.toNat := by
    simp
  rw [hsize, UInt64.add_assoc, ← UInt64.ofNat_add]
  congr 2
  rw [Nat.succ_mul]
  omega

/-- The loop writes nothing in front of its first entry. -/
theorem copyRecords_before (h : copyRecords user boInfoSize n i uptr info = some info') {a : ℕ}
    (ha : a < i * infoSize.toNat) : info' a = info a := by
  induction n generalizing i uptr info with
  | zero =>
    obtain rfl := Option.some.inj h
    rfl
  | succ n ih =>
    unfold copyRecords at h
    obtain ⟨info₁, h₁, h⟩ := Option.bind_eq_some_iff.mp h
    rw [ih h (by rw [Nat.succ_mul]; omega), copyFromUser_outside h₁ (.inl ha)]

/-- The loop leaves in every entry the bytes of its record, and behind them what was there. -/
theorem copyRecords_entry (h : copyRecords user boInfoSize n i uptr info = some info') {r j : ℕ}
    (hr : r < n) (hj : j < infoSize.toNat) :
    if j < (min boInfoSize infoSize).toNat then
      (info' ((i + r) * infoSize.toNat + j)).isSome ∧
        info' ((i + r) * infoSize.toNat + j) =
          user (uptr + UInt64.ofNat (r * boInfoSize.toNat + j))
    else info' ((i + r) * infoSize.toNat + j) = info ((i + r) * infoSize.toNat + j) := by
  induction n generalizing i uptr info r with
  | zero => omega
  | succ n ih =>
    unfold copyRecords at h
    obtain ⟨info₁, h₁, h⟩ := Option.bind_eq_some_iff.mp h
    have hsize := copySize_le boInfoSize
    cases r with
    | zero =>
      have hlt : i * infoSize.toNat + j < (i + 1) * infoSize.toNat := by rw [Nat.succ_mul]; omega
      rw [Nat.add_zero, copyRecords_before h hlt, Nat.zero_mul, Nat.zero_add]
      split
      · next hin => exact copyFromUser_inside h₁ hin
      · exact copyFromUser_outside h₁ (.inr (by omega))
    | succ r =>
      have hrec := ih h (Nat.lt_of_succ_lt_succ hr)
      have hidx : i + 1 + r = i + (r + 1) := by omega
      rw [hidx] at hrec
      split
      · next hin =>
        rw [if_pos hin, uptr_step] at hrec
        exact hrec
      · next hout =>
        rw [if_neg hout] at hrec
        rw [hrec]
        refine copyFromUser_outside h₁ (.inr ?_)
        have hle : (i + 1) * infoSize.toNat ≤ (i + (r + 1)) * infoSize.toNat :=
          Nat.mul_le_mul_right _ (by omega)
        rw [Nat.succ_mul] at hle
        omega

end Records

section Array
variable {allocOk : Bool} {user : UserMem} {boInfoPtr : UInt64} {boNumber boInfoSize : UInt32}
  {info : Info}

/-- The size in bytes that the copy in one piece and the fill compute. -/
theorem product_toNat (n : UInt32) : (n * infoSize).toNat = n.toNat * infoSize.toNat % 2 ^ 32 :=
  UInt32.toNat_mul ..

/-- Records of the entry's own size: the copy takes as many bytes as the product has in 32 bits. -/
theorem create_equal (hsize : infoSize = boInfoSize)
    (h : boCreateListEntryArray allocOk user boInfoPtr boNumber boInfoSize = .ok info) :
    copyFromUser user (fun _ => none) 0 boInfoPtr (boNumber * infoSize).toNat = some info := by
  unfold boCreateListEntryArray at h
  split at h
  · cases h
  · simp only [← hsize] at h
    split at h
    · cases h
    · next heq =>
      rw [heq]
      exact congrArg some (Except.ok.inj h)

/-- Records of another size: the fill, then the loop. -/
theorem create_other (hsize : infoSize ≠ boInfoSize)
    (h : boCreateListEntryArray allocOk user boInfoPtr boNumber boInfoSize = .ok info) :
    copyRecords user boInfoSize boNumber.toNat 0 boInfoPtr
      (zeroFill (fun _ => none) (boNumber * infoSize).toNat) = some info := by
  unfold boCreateListEntryArray at h
  split at h
  · cases h
  · simp only at h
    split at h
    · cases h
    · next heq =>
      rw [heq]
      exact congrArg some (Except.ok.inj h)

theorem recordByte_equal (hsize : infoSize = boInfoSize) {i j : ℕ} (hj : j < infoSize.toNat) :
    recordByte user boInfoPtr boInfoSize i j =
      user (boInfoPtr + UInt64.ofNat (i * infoSize.toNat + j)) := by
  subst hsize
  exact if_pos hj

theorem entry_lt {i j n : ℕ} (hi : i < n) (hj : j < infoSize.toNat) :
    i * infoSize.toNat + j < n * infoSize.toNat := by
  have hle : (i + 1) * infoSize.toNat ≤ n * infoSize.toNat := Nat.mul_le_mul_right _ hi
  rw [Nat.succ_mul] at hle
  omega

/-- The last byte of the last of the entries. -/
theorem lastByte_lt (h : 2 ^ 32 ≤ boNumber.toNat * infoSize.toNat) :
    ∃ i < boNumber.toNat, i * infoSize.toNat + 7 + 1 = boNumber.toNat * infoSize.toNat ∧
      boNumber.toNat * infoSize.toNat % 2 ^ 32 ≤ i * infoSize.toNat + 7 := by
  have hsize : infoSize.toNat = 8 := rfl
  rw [hsize] at h ⊢
  refine ⟨boNumber.toNat - 1, by omega, by omega, ?_⟩
  have := Nat.mod_lt (boNumber.toNat * 8) (show 0 < 2 ^ 32 by decide)
  omega

theorem fromUser_equal_iff (hsize : infoSize = boInfoSize)
    (h : boCreateListEntryArray allocOk user boInfoPtr boNumber boInfoSize = .ok info) :
    FromUser user boInfoPtr boNumber boInfoSize info ↔
      boNumber.toNat * infoSize.toNat < 2 ^ 32 := by
  have hcopy := create_equal hsize h
  rw [product_toNat] at hcopy
  constructor
  · intro hfrom
    by_contra hbig
    obtain ⟨i, hi, -, hend⟩ := lastByte_lt (Nat.le_of_not_lt hbig)
    have hbyte := (hfrom i hi 7 (by decide)).1
    rw [copyFromUser_outside hcopy (.inr (by omega))] at hbyte
    cases hbyte
  · intro hlt i hi j hj
    rw [Nat.mod_eq_of_lt hlt] at hcopy
    have hbyte := copyFromUser_inside hcopy (entry_lt hi hj)
    rw [Nat.zero_add] at hbyte
    rw [recordByte_equal hsize hj]
    exact hbyte

theorem copySize_eq_iff (hsize : infoSize ≠ boInfoSize) :
    (min boInfoSize infoSize).toNat = infoSize.toNat ↔ infoSize < boInfoSize := by
  rw [UInt32.toNat_inj]
  constructor
  · intro heq
    have hle : infoSize ≤ boInfoSize := heq ▸ Std.min_le_left
    exact UInt32.lt_of_le_of_ne hle hsize
  · intro hlt
    cases Std.min_eq_or (a := boInfoSize) (b := infoSize) with
    | inl hmin =>
      have hle : boInfoSize ≤ infoSize := hmin ▸ Std.min_le_right
      exact absurd hlt (UInt32.not_lt.mpr hle)
    | inr hmin => exact hmin

theorem fromUser_other_iff (hsize : infoSize ≠ boInfoSize)
    (h : boCreateListEntryArray allocOk user boInfoPtr boNumber boInfoSize = .ok info) :
    FromUser user boInfoPtr boNumber boInfoSize info ↔
      infoSize < boInfoSize ∨ boNumber.toNat * infoSize.toNat < 2 ^ 32 := by
  have hcopy := create_other hsize h
  rw [product_toNat] at hcopy
  have hle := copySize_le boInfoSize
  have hmin := copySize_eq_iff hsize
  constructor
  · intro hfrom
    by_contra hbig
    obtain ⟨hsmall, hbig⟩ := not_or.mp hbig
    obtain ⟨i, hi, -, hend⟩ := lastByte_lt (Nat.le_of_not_lt hbig)
    have hbyte := (hfrom i hi 7 (by decide)).1
    have hentry := copyRecords_entry hcopy hi (show 7 < infoSize.toNat by decide)
    have hshort : ¬ 7 < (min boInfoSize infoSize).toNat := by
      intro hfull
      exact hsmall (hmin.mp (Nat.le_antisymm hle hfull))
    have hunfilled : ¬ i * infoSize.toNat + 7 < boNumber.toNat * infoSize.toNat % 2 ^ 32 := by omega
    rw [if_neg hshort, Nat.zero_add] at hentry
    rw [hentry, zeroFill, if_neg hunfilled] at hbyte
    cases hbyte
  · intro hcond i hi j hj
    have hentry := copyRecords_entry hcopy hi hj
    rw [Nat.zero_add] at hentry
    unfold recordByte
    split at hentry
    · next hin =>
      rw [if_pos hin]
      exact hentry
    · next hout =>
      -- bytes behind the record are left only if records are short, and then the fill covers them
      have hlt : boNumber.toNat * infoSize.toNat < 2 ^ 32 := by
        cases hcond with
        | inl hlarge => exact absurd (hmin.mpr hlarge ▸ hj) hout
        | inr hlt => exact hlt
      rw [if_neg hout, hentry, zeroFill, Nat.mod_eq_of_lt hlt, if_pos (entry_lt hi hj)]
      exact ⟨rfl, rfl⟩

/-- The array that is handed on is initialised from user space exactly when the records are larger
than an entry, or the size of the array fits in 32 bits. -/
theorem boCreateListEntryArray_fromUser_iff
    (h : boCreateListEntryArray allocOk user boInfoPtr boNumber boInfoSize = .ok info) :
    FromUser user boInfoPtr boNumber boInfoSize info ↔
      infoSize < boInfoSize ∨ boNumber.toNat * infoSize.toNat < 2 ^ 32 := by
  by_cases hsize : infoSize = boInfoSize
  · rw [fromUser_equal_iff hsize h]
    subst hsize
    simp [UInt32.lt_irrefl]
  · exact fromUser_other_iff hsize h

end Array

/-- Two records of four bytes, in a user memory of ones. -/
theorem boCreateListEntryArray_fromUser_iff_two :
    ∃ info, boCreateListEntryArray true (fun _ => some 1) 0 2 4 = .ok info ∧
      (FromUser (fun _ => some 1) 0 2 4 info ↔
        infoSize < 4 ∨ (2 : UInt32).toNat * infoSize.toNat < 2 ^ 32) := by
  have hrun : boCreateListEntryArray true (fun _ => some 1) 0 2 4 = .ok _ := rfl
  exact ⟨_, hrun, boCreateListEntryArray_fromUser_iff hrun⟩

/-- With `2 ^ 29` records the copy in one piece has no bytes: 0 is returned, and nothing of the
array has been written. -/
theorem boCreateListEntryArray_unwritten :
    ¬ ∀ allocOk user boInfoPtr boNumber boInfoSize info,
      boCreateListEntryArray allocOk user boInfoPtr boNumber boInfoSize = .ok info →
        FromUser user boInfoPtr boNumber boInfoSize info := by
  intro h
  have hbyte := (h true (fun _ => none) 0 0x20000000 8 _ rfl 0 (by decide) 0 (by decide)).1
  exact absurd hbyte (by decide)

end Gsgpu.EntryArray
