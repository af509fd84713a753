import Gsgpu.Vm.Settled

/-! What clearing a range of addresses does to the mappings, page by page: what lies outside the
range must show the same byte of the same BO as before. -/
namespace Gsgpu.Vm

/-- What a page frame number shows: a `bo_va`, the byte inside its BO, and the flags. -/
structure Shown where
  boVa : Key
  byte : ℕ
  flags : ℕ
deriving DecidableEq

/-- What a mapping shows at a page frame number that it covers. -/
def Mapping.shown (m : Mapping) (pfn : ℕ) : Shown :=
  ⟨m.boVa, m.offset + (pfn - m.start) * gpuPageSize, m.flags⟩

/-- The mappings show `x` at `pfn`. -/
def Shows (va : List Mapping) (pfn : ℕ) (x : Shown) : Prop :=
  ∃ m ∈ va, m.Covers pfn ∧ m.shown pfn = x

/-- The page begins inside `[saddr, saddr + size)`. -/
def InRange (saddr size pfn : ℕ) : Prop :=
  saddr ≤ pfn * gpuPageSize ∧ pfn * gpuPageSize < saddr + size

/-- The mapping has a page inside `[saddr, saddr + size)`. -/
def Meets (saddr size : ℕ) (m : Mapping) : Prop := ∃ pfn, m.Covers pfn ∧ InRange saddr size pfn

/-- The mapping has a page inside `[saddr, saddr + size)`, and one at or after its end. -/
def ReachesBeyond (saddr size : ℕ) (m : Mapping) : Prop :=
  Meets saddr size m ∧ ∃ pfn, m.Covers pfn ∧ saddr + size ≤ pfn * gpuPageSize

/-- `part` is the mapping without its pages outside `[saddr, saddr + size)`. -/
structure ClippedTo (saddr size : ℕ) (m part : Mapping) : Prop where
  flags : part.flags = m.flags
  covers : ∀ pfn, part.Covers pfn ↔ m.Covers pfn ∧ InRange saddr size pfn

/-- The range is cleared, nothing outside of it has changed, and what was removed, clipped to the
range, has been added to the freed mappings. -/
structure RangeCleared (saddr size : ℕ) (st st' : State) : Prop where
  outside : ∀ pfn, ¬ InRange saddr size pfn → ∀ x, Shows st'.va pfn x ↔ Shows st.va pfn x
  inside : ∀ pfn, InRange saddr size pfn → ∀ x, ¬ Shows st'.va pfn x
  freed : ∃ removed parts, removed.Nodup ∧ (∀ m, m ∈ removed ↔ m ∈ st.va ∧ Meets saddr size m) ∧
    List.Forall₂ (ClippedTo saddr size) removed parts ∧ st'.freed = parts ++ st.freed

/-- What a call that clears a range promises. -/
def ClearsRange (saddr size : ℕ) (st : State) : Except Errno Unit × State → Prop
  | (.ok (), st') => RangeCleared saddr size st st'
  | (.error e, st') => e = .enomem ∧ st' = st

section Pages
variable {saddr size : ℕ}

/-- The pages of a range are those that the interval tree is asked for. -/
theorem inRange_iff (ha : saddr % gpuPageSize = 0) (hsize : 0 < size) (hle : saddr + size ≤ 2 ^ 64)
    {pfn : ℕ} : InRange saddr size pfn ↔
      saddr / gpuPageSize ≤ pfn ∧ pfn ≤ lastByte saddr size / gpuPageSize := by
  rw [lastByte_of_le hsize hle]
  have hpage : gpuPageSize = 16384 := rfl
  simp only [InRange, hpage] at ha ⊢
  omega

theorem firstPage_le_lastPage (hsize : 0 < size) (hle : saddr + size ≤ 2 ^ 64) :
    saddr / gpuPageSize ≤ lastByte saddr size / gpuPageSize := by
  rw [lastByte_of_le hsize hle]
  apply Nat.div_le_div_right
  omega

end Pages

section Clear
variable {st : State} {s e : ℕ}

theorem beforePart_covers {t : Mapping} {pfn : ℕ} :
    (beforePart s t).Covers pfn ↔ t.start ≤ pfn ∧ pfn ≤ s - 1 := Iff.rfl

theorem afterPart_covers {t : Mapping} {pfn : ℕ} :
    (afterPart e t).Covers pfn ↔ e + 1 ≤ pfn ∧ pfn ≤ t.last := Iff.rfl

/-- The part after the range shows another byte: its offset has grown by pages. -/
theorem afterPart_shown_ne {t : Mapping} (hstart : t.start ≤ e) :
    (afterPart e t).shown (e + 1) ≠ t.shown (e + 1) := by
  intro heq
  have hbyte : u64 (t.offset + (e + 1 - t.start)) + (e + 1 - (e + 1)) * gpuPageSize =
      t.offset + (e + 1 - t.start) * gpuPageSize := congrArg Shown.byte heq
  have hle : u64 (t.offset + (e + 1 - t.start)) ≤ t.offset + (e + 1 - t.start) := Nat.mod_le _ _
  have hpage : gpuPageSize = 16384 := rfl
  rw [hpage] at hbyte
  omega

/-- No page of the range is left mapped. -/
theorem Spaced.not_shows_inside (h : Spaced st.va) {pfn : ℕ} (hs : s ≤ pfn) (he : pfn ≤ e)
    (x : Shown) : ¬ Shows (clearRange st s e).va pfn x := by
  intro hx
  obtain ⟨m, hm, hcov, -⟩ := hx
  rcases h.mem_clearRange.mp hm with ⟨t, -, -, rfl⟩ | ⟨t, -, hlt, rfl⟩ | ⟨-, hno⟩
  · rw [afterPart_covers] at hcov
    omega
  · rw [beforePart_covers] at hcov
    omega
  · exact hno ⟨hcov.1.trans he, hs.trans hcov.2⟩

/-- With no part left after the range, the pages outside of it show what they did. -/
theorem Spaced.shows_outside (h : Spaced st.va) (hend : NoTail st s e) {pfn : ℕ}
    (hout : pfn < s ∨ e < pfn) (x : Shown) :
    Shows (clearRange st s e).va pfn x ↔ Shows st.va pfn x := by
  constructor
  · intro hx
    obtain ⟨m, hm, hcov, hshown⟩ := hx
    rcases h.mem_clearRange.mp hm with ⟨t, ht, hlt, -⟩ | ⟨t, ht, -, rfl⟩ | ⟨hva, -⟩
    · exact absurd hlt (hend t ht).not_gt
    · have hit := mem_vmItIter.mp ht
      rw [beforePart_covers] at hcov
      have hlast : pfn ≤ t.last := by omega
      exact ⟨t, hit.1, ⟨hcov.1, hlast⟩, hshown⟩
    · exact ⟨m, hva, hcov, hshown⟩
  · intro hx
    obtain ⟨m, hm, hcov, hshown⟩ := hx
    by_cases hover : m.Overlaps s e
    · have hit : m ∈ vmItIter st.va s e := mem_vmItIter.mpr ⟨hm, hover⟩
      have hlast := hend m hit
      have hbefore : pfn < s := by
        unfold Mapping.Covers at hcov
        omega
      have hstart : m.start < s := hcov.1.trans_lt hbefore
      have hmem := h.mem_clearRange.mpr (.inr (.inl ⟨m, hit, hstart, rfl⟩))
      have hcov' : (beforePart s m).Covers pfn := ⟨hcov.1, Nat.le_sub_one_of_lt hbefore⟩
      exact ⟨beforePart s m, hmem, hcov', hshown⟩
    · exact ⟨m, h.mem_clearRange.mpr (.inr (.inr ⟨hm, hover⟩)), hcov, hshown⟩

/-- A mapping that reaches beyond the range shows something else at the first page after it. -/
theorem Spaced.noTail_of_shows (h : Spaced st.va) (hse : s ≤ e)
    (hout : ∀ x, Shows (clearRange st s e).va (e + 1) x ↔ Shows st.va (e + 1) x) :
    NoTail st s e := by
  intro t ht
  have hit := mem_vmItIter.mp ht
  by_contra hlast
  have hcov : t.Covers (e + 1) := ⟨by omega, by omega⟩
  obtain ⟨m, hm, hmcov, hshown⟩ := (hout (t.shown (e + 1))).mpr ⟨t, hit.1, hcov, rfl⟩
  rcases h.mem_clearRange.mp hm with ⟨t', ht', hlt', rfl⟩ | ⟨t', -, hlt, rfl⟩ | ⟨hva, hno⟩
  · -- the part after the range is of `t` itself
    have heq : t' = t := h.cutOnce.after t' ht' hlt' t ht (by omega)
    rw [heq] at hshown
    exact afterPart_shown_ne hit.2.1 hshown
  · rw [beforePart_covers] at hmcov
    omega
  · rcases h.eq_or_disjoint hva hit.1 with heq | hd
    · exact hno (heq ▸ hit.2)
    · exact hd.not_covers hmcov hcov

end Clear

section Bytes
variable {saddr size : ℕ} {st : State} (ha : saddr % gpuPageSize = 0) (hsize : 0 < size)
  (hle : saddr + size ≤ 2 ^ 64)
include ha hsize hle

theorem meets_iff {m : Mapping} (hm : m.start ≤ m.last) : Meets saddr size m ↔
    m.Overlaps (saddr / gpuPageSize) (lastByte saddr size / gpuPageSize) := by
  have hse := firstPage_le_lastPage hsize hle
  constructor
  · intro hmeets
    obtain ⟨pfn, hcov, hin⟩ := hmeets
    rw [inRange_iff ha hsize hle] at hin
    exact ⟨hcov.1.trans hin.2, hin.1.trans hcov.2⟩
  · intro hover
    have hfirst : m.Covers (max m.start (saddr / gpuPageSize)) :=
      ⟨le_max_left _ _, max_le hm hover.2⟩
    have hin : InRange saddr size (max m.start (saddr / gpuPageSize)) :=
      (inRange_iff ha hsize hle).mpr ⟨le_max_right _ _, max_le hover.1 hse⟩
    exact ⟨_, hfirst, hin⟩

theorem clip_clippedTo (m : Mapping) : ClippedTo saddr size m
    (clip (saddr / gpuPageSize) (lastByte saddr size / gpuPageSize) m) := by
  constructor
  · rfl
  · intro pfn
    rw [inRange_iff ha hsize hle]
    unfold clip Mapping.Covers
    simp only [Nat.max_le, Nat.le_min]
    tauto

/-- What the freed mappings are, for any mappings that are spaced. -/
theorem Spaced.clearRange_freed (h : Spaced st.va) : ∃ removed parts, removed.Nodup ∧
    (∀ m, m ∈ removed ↔ m ∈ st.va ∧ Meets saddr size m) ∧
    List.Forall₂ (ClippedTo saddr size) removed parts ∧
    (clearRange st (saddr / gpuPageSize) (lastByte saddr size / gpuPageSize)).freed =
      parts ++ st.freed := by
  refine ⟨vmItIter st.va (saddr / gpuPageSize) (lastByte saddr size / gpuPageSize), _,
    h.iter_nodup, ?_, ?_, rfl⟩
  · intro m
    rw [mem_vmItIter]
    apply and_congr_right
    intro hm
    exact (meets_iff ha hsize hle (h.bounds m hm)).symm
  · rw [List.forall₂_map_right_iff, List.forall₂_same]
    intro m _
    exact clip_clippedTo ha hsize hle m

/-- A successful clear is right exactly when nothing that it cuts reaches beyond the range. -/
theorem Spaced.rangeCleared_iff (h : Spaced st.va) :
    RangeCleared saddr size st
      (clearRange st (saddr / gpuPageSize) (lastByte saddr size / gpuPageSize)) ↔
    NoTail st (saddr / gpuPageSize) (lastByte saddr size / gpuPageSize) := by
  have hse := firstPage_le_lastPage hsize hle
  constructor
  · intro hc
    apply h.noTail_of_shows hse
    apply hc.outside
    rw [inRange_iff ha hsize hle]
    omega
  · intro hend
    constructor
    · intro pfn hout x
      rw [inRange_iff ha hsize hle] at hout
      apply h.shows_outside hend
      omega
    · intro pfn hin x
      rw [inRange_iff ha hsize hle] at hin
      exact h.not_shows_inside hin.1 hin.2 x
    · exact h.clearRange_freed ha hsize hle

theorem Spaced.noTail_iff (h : Spaced st.va) :
    NoTail st (saddr / gpuPageSize) (lastByte saddr size / gpuPageSize) ↔
    ∀ m ∈ st.va, ¬ ReachesBeyond saddr size m := by
  have hbeyond : ∀ pfn, lastByte saddr size / gpuPageSize < pfn ↔
      saddr + size ≤ pfn * gpuPageSize := by
    intro pfn
    rw [lastByte_of_le hsize hle]
    have hpage : gpuPageSize = 16384 := rfl
    rw [hpage]
    omega
  constructor
  · intro hend m hm hreach
    obtain ⟨hmeets, pfn, hcov, hpfn⟩ := hreach
    rw [meets_iff ha hsize hle (h.bounds m hm)] at hmeets
    have hlast := hend m (mem_vmItIter.mpr ⟨hm, hmeets⟩)
    rw [← hbeyond] at hpfn
    exact absurd (hcov.2.trans hlast) hpfn.not_ge
  · intro hall m hm
    have hit := mem_vmItIter.mp hm
    have hstart := h.bounds m hit.1
    have hmeets := (meets_iff ha hsize hle hstart).mpr hit.2
    by_contra hlast
    apply hall m hit.1
    exact ⟨hmeets, m.last, ⟨hstart, le_rfl⟩, (hbeyond m.last).mp (not_le.mp hlast)⟩

/-- `gsgpu_vm_bo_clear_mappings` keeps what lies outside the range, and clears and frees what lies
inside, exactly when it fails for want of memory or no mapping that meets the range reaches beyond
its end: the offset of the part after the range grows by pages instead of bytes. -/
theorem clearMappings_clearsRange_iff (h : Spaced st.va) (beforeOk afterOk : Bool) :
    ClearsRange saddr size st (vmBoClearMappings beforeOk afterOk st saddr size) ↔
    (beforeOk && afterOk) = false ∨ ∀ m ∈ st.va, ¬ ReachesBeyond saddr size m := by
  rw [← h.noTail_iff ha hsize hle, ← h.rangeCleared_iff ha hsize hle]
  unfold vmBoClearMappings
  cases beforeOk && afterOk with
  | false => simp [ClearsRange]
  | true => simp [ClearsRange]

end Bytes

section Example

/-- A VM with one mapping of four pages. -/
def fourMapped : State where
  va := [⟨some 0, 0, 3, 0, 0⟩]
  boVas := fun _ => none
  freed := []
  status := ⟨[], [], [], []⟩
  pte := fun _ => ⟨0, 0⟩
  bos := fun _ => ⟨0x10000, .system, true, fun _ => true, false, 0⟩

theorem fourMapped_spaced : Spaced fourMapped.va := by
  constructor
  · simp [fourMapped]
  · exact List.pairwise_singleton _ _

/-- Clearing the second page leaves the third showing byte 2 instead of byte `0x8000`. -/
theorem fourPages_shifted :
    ¬ ClearsRange 0x4000 0x4000 fourMapped (vmBoClearMappings true true fourMapped 0x4000 0x4000) ∧
    Shows (vmBoClearMappings true true fourMapped 0x4000 0x4000).2.va 2 ⟨some 0, 2, 0⟩ ∧
    Shows fourMapped.va 2 ⟨some 0, 0x8000, 0⟩ := by
  constructor
  · intro hc
    have hcleared : RangeCleared 0x4000 0x4000 fourMapped
      (clearRange fourMapped (0x4000 / gpuPageSize) (lastByte 0x4000 0x4000 / gpuPageSize)) := hc
    rw [fourMapped_spaced.rangeCleared_iff (by decide) (by decide) (by decide)] at hcleared
    revert hcleared
    unfold NoTail
    decide
  · constructor
    · exact ⟨⟨some 0, 2, 3, 2, 0⟩, by decide, by decide, by decide⟩
    · exact ⟨⟨some 0, 0, 3, 0, 0⟩, by decide, by decide, by decide⟩

theorem clearMappings_clearsRange_fourPages :
    ClearsRange 0x4000 0xc000 fourMapped (vmBoClearMappings true true fourMapped 0x4000 0xc000) ↔
    (true && true) = false ∨ ∀ m ∈ fourMapped.va, ¬ ReachesBeyond 0x4000 0xc000 m :=
  clearMappings_clearsRange_iff (by decide) (by decide) (by decide) fourMapped_spaced true true

end Example

end Gsgpu.Vm
