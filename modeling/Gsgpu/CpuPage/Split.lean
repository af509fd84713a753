import Gsgpu.CpuPage.Gart
import Gsgpu.Vm.Split

/-! `gsgpu_vm_bo_split_mapping` with DMA pages, for CPU pages of any size. The walk counts in CPU
pages, so it loses what is left of an offset inside a page, and what is left of a chunk that does
not fill its pages. -/
namespace Gsgpu.CpuPage
open Gsgpu.Vm (u64 Pte Mapping writeRange vmMaxUpdateSize)

/-- `gsgpu_vm_map_gart`. -/
def vmMapGart (k : ℕ) (dma : ℕ → ℕ) (addr : ℕ) : ℕ :=
  (dma (addr / pageSize k) ||| addr &&& (pageSize k - 1)) &&& (2 ^ 64 - 2 ^ gpuPageShift)

/-- `gsgpu_vm_bo_update_mapping` with DMA pages. -/
def vmBoUpdateMapping (k : ℕ) (pte : ℕ → Pte) (dma : ℕ → ℕ) (start last flags addr : ℕ) : ℕ → Pte :=
  writeRange pte start last fun i => ⟨vmMapGart k dma (u64 (addr + i * gpuPageSize)), flags⟩

/-- The loop of `gsgpu_vm_bo_split_mapping`, when every call succeeds. -/
def splitLoop (k : ℕ) (dma : ℕ → ℕ) (last flags : ℕ) : ℕ → ℕ → ℕ → (ℕ → Pte) → Option (ℕ → Pte)
  | 0, _, _, _ => none
  | fuel + 1, pfn, start, pte =>
    let last' := min last (u64 (start + vmMaxUpdateSize + (2 ^ 64 - 1)))
    let pte := vmBoUpdateMapping k pte dma start last' flags (u64 (pfn * pageSize k))
    let pfn := u64 (pfn + u64 (last' + 1 + 2 ^ 64 - start) / gpuPagesInCpuPage k)
    let start := u64 (last' + 1)
    if start = last + 1 then some pte else splitLoop k dma last flags fuel pfn start pte

/-- `gsgpu_vm_bo_split_mapping`. -/
def vmBoSplitMapping (k : ℕ) (dma : ℕ → ℕ) (m : Mapping) (flags fuel : ℕ) (pte : ℕ → Pte) :
    Option (ℕ → Pte) :=
  splitLoop k dma m.last (Vm.maskWriteable m flags) fuel (m.offset / pageSize k) m.start pte

/-- The address of a byte of the BO. -/
def boAddr (k : ℕ) (dma : ℕ → ℕ) (offset : ℕ) : ℕ := dma (offset / pageSize k) + offset % pageSize k

theorem pageSize_eq (k : ℕ) : pageSize k = 2 ^ (14 + k) := (Nat.pow_add 2 14 k).symm

theorem pageSize_pos (k : ℕ) : 0 < pageSize k := by
  rw [pageSize_eq]
  exact Nat.two_pow_pos _

theorem gpuPageSize_dvd (k : ℕ) : gpuPageSize ∣ pageSize k := Nat.dvd_mul_right _ _

/-- The address of a GPU page. -/
theorem vmMapGart_eq {k : ℕ} {dma : ℕ → ℕ} {offset : ℕ}
    (hdma : dma (offset / pageSize k) % pageSize k = 0)
    (hle : dma (offset / pageSize k) + pageSize k ≤ 2 ^ 64) (hoff : offset % gpuPageSize = 0) :
    vmMapGart k dma offset = boAddr k dma offset := by
  have hpos := pageSize_pos k
  have hlt : offset % pageSize k < pageSize k := Nat.mod_lt _ hpos
  have hor := Bits.mul_two_pow_add_or (q := dma (offset / pageSize k) / pageSize k) (r := 0)
    (f := offset % pageSize k) (k := 14 + k) (Nat.two_pow_pos _) (by rwa [← pageSize_eq])
  rw [← pageSize_eq, Nat.div_mul_cancel (Nat.dvd_of_mod_eq_zero hdma), Nat.add_zero,
    Nat.zero_or] at hor
  have hmod : (dma (offset / pageSize k) + offset % pageSize k) % 2 ^ 14 = 0 := by
    have h₁ : gpuPageSize ∣ dma (offset / pageSize k) :=
      (gpuPageSize_dvd k).trans (Nat.dvd_of_mod_eq_zero hdma)
    have h₂ : gpuPageSize ∣ offset % pageSize k :=
      (Nat.dvd_mod_iff (gpuPageSize_dvd k)).mpr (Nat.dvd_of_mod_eq_zero hoff)
    exact Nat.mod_eq_zero_of_dvd (Nat.dvd_add h₁ h₂)
  have hmask := Bits.and_shiftLeft_mask (dma (offset / pageSize k) + offset % pageSize k) 14 50
  have hconst : (2 ^ 50 - 1) <<< 14 = 2 ^ 64 - 2 ^ gpuPageShift := by decide
  have hfits : (dma (offset / pageSize k) + offset % pageSize k) % 2 ^ (14 + 50) =
      dma (offset / pageSize k) + offset % pageSize k := Nat.mod_eq_of_lt (by omega)
  rw [hconst, hfits, Nat.div_mul_cancel (Nat.dvd_of_mod_eq_zero hmod)] at hmask
  unfold vmMapGart boAddr
  rw [pageSize_eq, Nat.and_two_pow_sub_one_eq_mod, ← pageSize_eq, hor]
  exact hmask

/-! ### The walk -/

section Walk
variable {k last flags fuel pfn start : ℕ} {dma : ℕ → ℕ} {pte r : ℕ → Pte}

theorem vmBoUpdateMapping_apply (addr p : ℕ) :
    vmBoUpdateMapping k pte dma start last flags addr p =
      if start ≤ p ∧ p ≤ last then
        ⟨vmMapGart k dma (u64 (addr + (p - start) * gpuPageSize)), flags⟩
      else pte p := rfl

/-- One round, inside the address space. -/
theorem splitLoop_succ (hstart : start ≤ last) (hlast : last < 2 ^ 50) :
    splitLoop k dma last flags (fuel + 1) pfn start pte =
      let last' := min last (start + 1023)
      let pte := vmBoUpdateMapping k pte dma start last' flags (u64 (pfn * pageSize k))
      if last' = last then some pte
      else splitLoop k dma last flags fuel (u64 (pfn + (last' + 1 - start) / 2 ^ k)) (last' + 1) pte := by
  have hmax : u64 (start + vmMaxUpdateSize + (2 ^ 64 - 1)) = start + 1023 := by
    unfold u64 vmMaxUpdateSize
    omega
  rw [splitLoop, hmax, gpuPages_eq]
  generalize hl : min last (start + 1023) = last'
  have hcount : u64 (last' + 1 + 2 ^ 64 - start) = last' + 1 - start := by
    unfold u64
    omega
  have hnext : u64 (last' + 1) = last' + 1 := Nat.mod_eq_of_lt (by omega)
  simp only [hcount, hnext, Nat.add_right_cancel_iff]

/-- The entries before a walk are as they were. -/
theorem splitLoop_before (hstart : start ≤ last) (hlast : last < 2 ^ 50)
    (h : splitLoop k dma last flags fuel pfn start pte = some r) {p : ℕ} (hp : p < start) :
    r p = pte p := by
  induction fuel generalizing pfn start pte with
  | zero => cases h
  | succ fuel ih =>
    rw [splitLoop_succ hstart hlast] at h
    dsimp only at h
    have hwrite : ∀ l a, vmBoUpdateMapping k pte dma start l flags a p = pte p := by
      intro l a
      exact if_neg (by omega)
    split_ifs at h with hend
    · cases h
      exact hwrite _ _
    · exact (ih (by omega) h (by omega)).trans (hwrite _ _)

/-- The first entry that a walk writes. -/
theorem splitLoop_first (hstart : start ≤ last) (hlast : last < 2 ^ 50)
    (h : splitLoop k dma last flags fuel pfn start pte = some r) :
    r start = ⟨vmMapGart k dma (u64 (u64 (pfn * pageSize k) + 0)), flags⟩ := by
  cases fuel with
  | zero => cases h
  | succ fuel =>
    rw [splitLoop_succ hstart hlast] at h
    dsimp only at h
    have hwrite : ∀ l ≥ start, vmBoUpdateMapping k pte dma start l flags (u64 (pfn * pageSize k)) start =
        ⟨vmMapGart k dma (u64 (u64 (pfn * pageSize k) + 0)), flags⟩ := by
      intro l hl
      refine (if_pos ⟨le_rfl, hl⟩).trans ?_
      rw [Nat.sub_self, Nat.zero_mul]
    split_ifs at h with hend
    · cases h
      exact hwrite _ (by omega)
    · exact (splitLoop_before (by omega) hlast h (by omega)).trans (hwrite _ (by omega))

/-- The pages of a BO of `size` bytes have DMA addresses of whole CPU pages. -/
def Pages (k size : ℕ) (dma : ℕ → ℕ) : Prop :=
  ∀ i, i * pageSize k < size → dma i % pageSize k = 0 ∧ dma i + pageSize k ≤ 2 ^ 64

theorem Pages.mapGart {size offset : ℕ} (hdma : Pages k size dma) (hlt : offset < size)
    (hoff : offset % gpuPageSize = 0) : vmMapGart k dma offset = boAddr k dma offset := by
  have hpage := hdma (offset / pageSize k) ((Nat.div_mul_le_self _ _).trans_lt hlt)
  exact vmMapGart_eq hpage.1 hpage.2 hoff

/-- From a whole CPU page on, every GPU page of the BO gets its address. -/
theorem Pages.entry {size i : ℕ} (hdma : Pages k size dma) (hsize : size < 2 ^ 64)
    (hlt : pfn * pageSize k + i * gpuPageSize < size) :
    vmMapGart k dma (u64 (pfn * pageSize k + i * gpuPageSize)) =
      boAddr k dma (pfn * pageSize k + i * gpuPageSize) := by
  have hmod : u64 (pfn * pageSize k + i * gpuPageSize) = pfn * pageSize k + i * gpuPageSize :=
    Nat.mod_eq_of_lt (by omega)
  rw [hmod]
  apply hdma.mapGart hlt
  rw [Nat.add_mul_mod_self_right]
  exact Nat.mod_eq_zero_of_dvd ((gpuPageSize_dvd k).mul_left _)

/-- A chunk of 1024 GPU pages is of whole CPU pages. -/
theorem chunk_pages (hk : k ≤ 10) : 1024 / 2 ^ k * pageSize k = 1024 * gpuPageSize := by
  have hdvd : 2 ^ k ∣ 1024 := Nat.pow_dvd_pow 2 hk
  unfold pageSize
  rw [Nat.mul_comm gpuPageSize, ← Nat.mul_assoc, Nat.div_mul_cancel hdvd]

/-- From a whole CPU page on, in chunks of whole CPU pages or in one chunk, every page gets its
address. -/
theorem splitLoop_right {size : ℕ} (hdma : Pages k size dma) (hsize : size < 2 ^ 64)
    (hk : k ≤ 10 ∨ last + 1 - start ≤ 1024) (hstart : start ≤ last) (hlast : last < 2 ^ 50)
    (hin : pfn * pageSize k + (last + 1 - start) * gpuPageSize ≤ size)
    (hfuel : last + 1 - start ≤ fuel) :
    splitLoop k dma last flags fuel pfn start pte = some fun p =>
      if start ≤ p ∧ p ≤ last then
        ⟨boAddr k dma (pfn * pageSize k + (p - start) * gpuPageSize), flags⟩
      else pte p := by
  have hgpu : gpuPageSize = 16384 := rfl
  induction fuel generalizing pfn start pte with
  | zero => omega
  | succ fuel ih =>
    have hbase : u64 (pfn * pageSize k) = pfn * pageSize k := Nat.mod_eq_of_lt (by omega)
    have hentry : ∀ i < last + 1 - start, vmMapGart k dma (u64 (pfn * pageSize k + i * gpuPageSize)) =
        boAddr k dma (pfn * pageSize k + i * gpuPageSize) := by
      intro i hi
      apply hdma.entry hsize
      rw [hgpu] at hin ⊢
      omega
    rw [splitLoop_succ hstart hlast, hbase]
    generalize hl : min last (start + 1023) = last'
    dsimp only
    split_ifs with hend
    · subst hend
      congr 1
      funext p
      rw [vmBoUpdateMapping_apply]
      by_cases hp : start ≤ p ∧ p ≤ last'
      · rw [if_pos hp, if_pos hp, hentry _ (by omega)]
      · rw [if_neg hp, if_neg hp]
    · obtain rfl : last' = start + 1023 := by omega
      have hk : k ≤ 10 := hk.resolve_right (by omega)
      have hcount : start + 1023 + 1 - start = 1024 := by omega
      have hnext : (pfn + 1024 / 2 ^ k) * pageSize k = pfn * pageSize k + 1024 * gpuPageSize := by
        rw [Nat.add_mul, chunk_pages hk]
      have hle : pfn + 1024 / 2 ^ k ≤ (pfn + 1024 / 2 ^ k) * pageSize k :=
        Nat.le_mul_of_pos_right _ (pageSize_pos k)
      have hpfn : u64 (pfn + 1024 / 2 ^ k) = pfn + 1024 / 2 ^ k := by
        apply Nat.mod_eq_of_lt
        rw [hgpu] at hin hnext
        omega
      have hin' : (pfn + 1024 / 2 ^ k) * pageSize k +
          (last + 1 - (start + 1023 + 1)) * gpuPageSize ≤ size := by
        rw [hgpu] at hin
        rw [hnext, hgpu]
        omega
      rw [hcount, hpfn, ih (.inl hk) (by omega) hin' (by omega), hnext]
      congr 1
      funext p
      rw [vmBoUpdateMapping_apply]
      by_cases hlate : start + 1023 + 1 ≤ p
      · by_cases hp : p ≤ last
        · have hoff : pfn * pageSize k + 1024 * gpuPageSize + (p - (start + 1023 + 1)) * gpuPageSize =
              pfn * pageSize k + (p - start) * gpuPageSize := by
            rw [hgpu]
            omega
          rw [if_pos ⟨hlate, hp⟩, if_pos (by omega), hoff]
        · rw [if_neg (fun h => hp h.2), if_neg (by omega), if_neg (fun h => hp h.2)]
      · rw [if_neg (fun h => hlate h.1)]
        by_cases hp : start ≤ p
        · rw [if_pos (by omega), if_pos (by omega), hentry _ (by omega)]
        · rw [if_neg (fun h => hp h.1), if_neg (fun h => hp h.1)]

end Walk

/-! ### Whole mappings -/

/-- What `gsgpu_vm_bo_split_mapping` is given: a mapping that `gsgpu_vm_bo_map` accepted for a BO of
`size` bytes, and the pages of the BO. -/
structure BoMapping (k : ℕ) where
  mapping : Mapping
  size : ℕ
  pagesAddr : ℕ → ℕ
  flags : ℕ
  inside : mapping.Inside size
  aligned : mapping.offset % gpuPageSize = 0
  size_lt : size < 2 ^ 64
  pages : Pages k size pagesAddr

/-- Every GPU page of the mapping shows its piece of the BO, and the other entries are as they
were. -/
def BoMapping.SplitsRight {k : ℕ} (c : BoMapping k) (pte : ℕ → Pte) : Prop :=
  ∃ fuel r, vmBoSplitMapping k c.pagesAddr c.mapping c.flags fuel pte = some r ∧
    (∀ p, c.mapping.start ≤ p → p ≤ c.mapping.last → (r p).addr =
      boAddr k c.pagesAddr (c.mapping.offset + (p - c.mapping.start) * gpuPageSize)) ∧
    ∀ p, ¬(c.mapping.start ≤ p ∧ p ≤ c.mapping.last) → r p = pte p

/-- The mapping starts with a CPU page, and its chunks are of whole CPU pages or it is one chunk. -/
def BoMapping.Whole {k : ℕ} (c : BoMapping k) : Prop :=
  pageSize k ∣ c.mapping.offset ∧ (2 ^ k ∣ vmMaxUpdateSize ∨
    c.mapping.last + 1 - c.mapping.start ≤ vmMaxUpdateSize)

theorem dvd_maxUpdate_iff (k : ℕ) : 2 ^ k ∣ vmMaxUpdateSize ↔ k ≤ 10 :=
  Nat.pow_dvd_pow_iff_le_right (x := 2) (k := k) (l := 10) (by decide)

section BoMapping
variable {k : ℕ} {c : BoMapping k} {pte : ℕ → Pte}

theorem BoMapping.Whole.splitsRight (h : c.Whole) : c.SplitsRight pte := by
  have hin := c.inside
  have hoff : c.mapping.offset / pageSize k * pageSize k = c.mapping.offset := Nat.div_mul_cancel h.1
  have hk : k ≤ 10 ∨ c.mapping.last + 1 - c.mapping.start ≤ 1024 :=
    h.2.imp_left (dvd_maxUpdate_iff k).mp
  have hrun : vmBoSplitMapping k c.pagesAddr c.mapping c.flags _ pte = some _ :=
    splitLoop_right c.pages c.size_lt hk hin.order hin.last_lt (by rw [hoff]; exact hin.fits) le_rfl
  refine ⟨_, _, hrun, ?_, ?_⟩
  · intro p hs hl
    rw [if_pos ⟨hs, hl⟩, hoff]
  · intro p hp
    exact if_neg hp

/-- The start of a CPU page inside the BO. -/
theorem BoMapping.first (c : BoMapping k) :
    vmMapGart k c.pagesAddr (u64 (u64 (c.mapping.offset / pageSize k * pageSize k) + 0)) =
      c.pagesAddr (c.mapping.offset / pageSize k) := by
  have hpos := pageSize_pos k
  have hfits := c.inside.fits
  have horder := c.inside.order
  have hsize := c.size_lt
  have hgpu : gpuPageSize = 16384 := rfl
  have hle := Nat.div_mul_le_self c.mapping.offset (pageSize k)
  have hlt : c.mapping.offset / pageSize k * pageSize k < c.size := by
    rw [hgpu] at hfits
    omega
  have hmod : u64 (u64 (c.mapping.offset / pageSize k * pageSize k) + 0) =
      c.mapping.offset / pageSize k * pageSize k := by
    unfold u64
    omega
  rw [hmod, c.pages.mapGart hlt (Nat.mod_eq_zero_of_dvd ((gpuPageSize_dvd k).mul_left _))]
  unfold boAddr
  rw [Nat.mul_div_cancel _ hpos, Nat.mul_mod_left, Nat.add_zero]

theorem BoMapping.SplitsRight.whole (h : c.SplitsRight pte) : c.Whole := by
  have hpos := pageSize_pos k
  have hin := c.inside
  obtain ⟨fuel, r, hrun, hright, -⟩ := h
  have hdvd : pageSize k ∣ c.mapping.offset := by
    -- the first page is at the start of a CPU page
    have hfirst := splitLoop_first hin.order hin.last_lt hrun
    have haddr := hright _ le_rfl hin.order
    rw [hfirst, c.first, Nat.sub_self, Nat.zero_mul, Nat.add_zero] at haddr
    unfold boAddr at haddr
    dsimp only at haddr
    exact Nat.dvd_of_mod_eq_zero (by omega)
  refine ⟨hdvd, ?_⟩
  rw [dvd_maxUpdate_iff]
  change k ≤ 10 ∨ c.mapping.last + 1 - c.mapping.start ≤ 1024
  by_contra hcon
  obtain ⟨hk, hlong⟩ := not_or.mp hcon
  -- the second chunk starts over at the CPU page of the first
  have hpow : 2 ^ 11 ≤ 2 ^ k := Nat.pow_le_pow_right (by decide) (by omega)
  cases fuel with
  | zero => cases hrun
  | succ fuel =>
    have hnone : 1024 / 2 ^ k = 0 := Nat.div_eq_of_lt (by omega)
    have hmin : min c.mapping.last (c.mapping.start + 1023) = c.mapping.start + 1023 := by omega
    have hcount : c.mapping.start + 1023 + 1 - c.mapping.start = 1024 := by omega
    have hsize := c.size_lt
    have hfits := hin.fits
    have hle := Nat.div_le_self c.mapping.offset (pageSize k)
    have hpfn : u64 (c.mapping.offset / pageSize k) = c.mapping.offset / pageSize k :=
      Nat.mod_eq_of_lt (by omega)
    unfold vmBoSplitMapping at hrun
    rw [splitLoop_succ hin.order hin.last_lt] at hrun
    dsimp only at hrun
    rw [hmin, if_neg (by omega), hcount, hnone, Nat.add_zero, hpfn] at hrun
    have hsecond := splitLoop_first (by omega) hin.last_lt hrun
    have haddr := hright (c.mapping.start + 1023 + 1) (by omega) (by omega)
    obtain ⟨q, hq⟩ := hdvd
    have hlt : 1024 * gpuPageSize < pageSize k := by
      unfold pageSize
      rw [Nat.mul_comm]
      exact Nat.mul_lt_mul_of_pos_left (by omega) (by decide)
    rw [hsecond, c.first, hcount] at haddr
    unfold boAddr at haddr
    rw [hq, Nat.mul_div_cancel_left _ hpos, Nat.mul_add_div hpos, Nat.mul_add_mod,
      Nat.div_eq_of_lt hlt, Nat.mod_eq_of_lt hlt, Nat.add_zero] at haddr
    have : gpuPageSize = 16384 := rfl
    dsimp only at haddr
    omega

/-- A mapping is split right exactly when it starts with a CPU page and its chunks are of whole CPU
pages, or it is one chunk. -/
theorem BoMapping.splitsRight_iff : c.SplitsRight pte ↔ c.Whole :=
  ⟨BoMapping.SplitsRight.whole, BoMapping.Whole.splitsRight⟩

end BoMapping

end Gsgpu.CpuPage
