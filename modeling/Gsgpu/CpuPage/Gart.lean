import Gsgpu.Move.Jobs

/-! The GART with CPU pages of any size: `2 ^ k` GPU pages make up a CPU page, and a run of CPU pages
takes that many entries for each. -/
namespace Gsgpu.CpuPage
open Gsgpu.Vm (u64)
open Gsgpu.PageTable (u32)
open Move (pteOf ptePage)

/-- `PAGE_SIZE`, which `gsgpu_gart_init` accepts if it is not smaller than a GPU page. -/
def pageSize (k : ℕ) : ℕ := gpuPageSize * 2 ^ k

/-- `GSGPU_GPU_PAGES_IN_CPU_PAGE`. -/
def gpuPagesInCpuPage (k : ℕ) : ℕ := pageSize k / gpuPageSize

/-- The loop over the GPU pages of one CPU page, with the `t` it leaves. -/
def setPages (flags : ℕ) : ℕ → ℕ → ℕ → (ℕ → ℕ) → (ℕ → ℕ) × ℕ
  | 0, t, _, table => (table, t)
  | n + 1, t, pageBase, table =>
    setPages flags n (u32 (t + 1)) (u64 (pageBase + gpuPageSize))
      (Function.update table t (pteOf pageBase flags))

/-- The loop over the CPU pages from `i` on. -/
def setCpuPages (k : ℕ) (pageBase : ℕ → ℕ) (flags : ℕ) : ℕ → ℕ → ℕ → (ℕ → ℕ) → (ℕ → ℕ)
  | 0, _, _, table => table
  | n + 1, i, t, table =>
    let (table, t) := setPages flags (gpuPagesInCpuPage k) t (pageBase i) table
    setCpuPages k pageBase flags n (i + 1) t table

/-- `gsgpu_gart_map`; `dst` is the table or the entries in an IB. -/
def gartMap (k : ℕ) (ready : Bool) (offset pages : ℕ) (dmaAddr : ℕ → ℕ) (flags : ℕ) (dst : ℕ → ℕ) :
    Except Errno (ℕ → ℕ) :=
  if !ready then .error .einval
  else .ok (setCpuPages k dmaAddr flags pages 0 (u32 (offset / gpuPageSize)) dst)

/-- `gsgpu_gart_unbind`. Without a mapped table there is nothing to change. -/
def gartUnbind (k : ℕ) (ready : Bool) (dummyPageAddr offset pages : ℕ) (ptr : Option (ℕ → ℕ)) :
    Except Errno (Option (ℕ → ℕ)) :=
  if !ready then .error .einval
  else .ok (ptr.map
    (setCpuPages k (fun _ => dummyPageAddr) 0 pages 0 (u32 (offset / gpuPageSize))))

/-! ### What the loops write -/

theorem gpuPages_eq (k : ℕ) : gpuPagesInCpuPage k = 2 ^ k :=
  Nat.mul_div_cancel_left _ (by decide)

section Loops
variable {k flags : ℕ}

/-- The entries of one CPU page. -/
theorem setPages_eq (n : ℕ) {t pageBase : ℕ} (ht : t + n < 2 ^ 32) (hbase : pageBase < 2 ^ 64)
    (table : ℕ → ℕ) : setPages flags n t pageBase table =
      (fun e => if t ≤ e ∧ e < t + n then pteOf (u64 (pageBase + (e - t) * gpuPageSize)) flags
        else table e, t + n) := by
  induction n generalizing t pageBase table with
  | zero =>
    refine Prod.ext ?_ rfl
    funext e
    exact (if_neg (by omega)).symm
  | succ n ih =>
    have hnext : u32 (t + 1) = t + 1 := Nat.mod_eq_of_lt (by omega)
    have hnextBase : u64 (pageBase + gpuPageSize) < 2 ^ 64 := Nat.mod_lt _ (by decide)
    rw [setPages, hnext, ih (by omega) hnextBase]
    have hend : t + 1 + n = t + (n + 1) := by omega
    refine Prod.ext ?_ hend
    funext e
    dsimp only
    obtain rfl | hne := eq_or_ne e t
    · rw [if_neg (by omega), if_pos (by omega), Function.update_self, Nat.sub_self, Nat.zero_mul,
        Nat.add_zero]
      unfold u64
      rw [Nat.mod_eq_of_lt hbase]
    · rw [Function.update_of_ne hne]
      by_cases hin : t + 1 ≤ e ∧ e < t + 1 + n
      · have hsum : u64 (u64 (pageBase + gpuPageSize) + (e - (t + 1)) * gpuPageSize) =
            u64 (pageBase + (e - t) * gpuPageSize) := by
          unfold u64
          rw [Nat.mod_add_mod]
          obtain ⟨d, rfl⟩ := Nat.exists_eq_add_of_le hin.1
          congr 1
          have : t + 1 + d - t = d + 1 := by omega
          rw [Nat.add_sub_cancel_left, this, Nat.add_mul, Nat.one_mul]
          omega
        rw [if_pos hin, if_pos (by omega), hsum]
      · rw [if_neg hin, if_neg (by omega)]

/-- The entries of a run of CPU pages. -/
theorem setCpuPages_eq (n : ℕ) {i t : ℕ} {pageBase : ℕ → ℕ} (ht : t + n * 2 ^ k < 2 ^ 32)
    (hbase : ∀ j < n, pageBase (i + j) < 2 ^ 64) (table : ℕ → ℕ) :
    setCpuPages k pageBase flags n i t table = fun e =>
      if t ≤ e ∧ e < t + n * 2 ^ k then
        pteOf (u64 (pageBase (i + (e - t) / 2 ^ k) + (e - t) % 2 ^ k * gpuPageSize)) flags
      else table e := by
  have hpos : 0 < 2 ^ k := Nat.two_pow_pos k
  induction n generalizing i t table with
  | zero =>
    funext e
    rw [setCpuPages, if_neg (by omega)]
  | succ n ih =>
    have hsize : t + (n + 1) * 2 ^ k = t + 2 ^ k + n * 2 ^ k := by rw [Nat.add_mul]; omega
    have hrest : ∀ j < n, pageBase (i + 1 + j) < 2 ^ 64 := by
      intro j hj
      rw [Nat.add_assoc, Nat.add_comm 1]
      exact hbase (j + 1) (by omega)
    have hfirst : pageBase i < 2 ^ 64 := hbase 0 (by omega)
    rw [setCpuPages, gpuPages_eq, setPages_eq _ (by omega) hfirst]
    dsimp only
    rw [ih (by omega) hrest, hsize]
    funext e
    by_cases hin : t + 2 ^ k ≤ e
    · obtain ⟨d, rfl⟩ := Nat.exists_eq_add_of_le hin
      have hd : t + 2 ^ k + d - t = d + 2 ^ k := by omega
      have hi : i + 1 + d / 2 ^ k = i + (d / 2 ^ k + 1) := by omega
      have hout : ¬(t ≤ t + 2 ^ k + d ∧ t + 2 ^ k + d < t + 2 ^ k) := by omega
      rw [Nat.add_sub_cancel_left, hd, Nat.add_div_right _ hpos, Nat.add_mod_right, hi, if_neg hout]
      by_cases hlt : t + 2 ^ k + d < t + 2 ^ k + n * 2 ^ k
      · rw [if_pos ⟨hin, hlt⟩, if_pos ⟨by omega, hlt⟩]
      · rw [if_neg (fun h => hlt h.2), if_neg (fun h => hlt h.2)]
    · rw [if_neg (fun h => hin h.1)]
      by_cases hlow : t ≤ e
      · have hlt : e - t < 2 ^ k := by omega
        rw [if_pos (by omega), if_pos (by omega), Nat.div_eq_of_lt hlt, Nat.mod_eq_of_lt hlt,
          Nat.add_zero]
      · rw [if_neg (fun h => hlow h.1), if_neg (fun h => hlow h.1)]

end Loops

/-! ### Ranges of the table -/

/-- The arguments of a call for CPU pages `0` to `pages - 1`: a range of a table whose entries are
counted by an `unsigned`, the DMA addresses of whole CPU pages, and flags below an address. -/
structure Range (k : ℕ) where
  numGpuPages : ℕ
  offset : ℕ
  pages : ℕ
  dmaAddr : ℕ → ℕ
  flags : ℕ
  table_lt : numGpuPages < 2 ^ 32
  fits : offset / gpuPageSize + pages * 2 ^ k ≤ numGpuPages
  aligned : ∀ i < pages, dmaAddr i % pageSize k = 0
  dmaAddr_le : ∀ i < pages, dmaAddr i + pageSize k ≤ 2 ^ 64
  flags_lt : flags < 2 ^ 12

/-- GPU page `t` of the range has the address of its piece of a CPU page, with the flags, and the
other entries are as they were. -/
structure Range.Holds {k : ℕ} (r : Range k) (dma : ℕ → ℕ) (flags : ℕ) (old new : ℕ → ℕ) : Prop where
  inside : ∀ t < r.pages * 2 ^ k,
    ptePage (new (r.offset / gpuPageSize + t)) = dma (t / 2 ^ k) + t % 2 ^ k * gpuPageSize ∧
      new (r.offset / gpuPageSize + t) % 2 ^ 12 = flags
  outside : ∀ e, (∀ t < r.pages * 2 ^ k, e ≠ r.offset / gpuPageSize + t) → new e = old e

theorem pteOf_mod {dma flags : ℕ} (hdma : dma % 2 ^ 12 = 0) (hlt : dma < 2 ^ 64)
    (hflags : flags < 2 ^ 12) : pteOf dma flags % 2 ^ 12 = flags := by
  unfold pteOf
  rw [PageTable.and_pteMask hlt hdma, Nat.or_mod_two_pow, hdma, Nat.zero_or, Nat.mod_eq_of_lt hflags]

section Range
variable {k : ℕ} {r : Range k}

/-- A piece of a CPU page is a GPU page. -/
theorem piece_bounds {dma j : ℕ} (hdma : dma % pageSize k = 0) (hle : dma + pageSize k ≤ 2 ^ 64)
    (hj : j < 2 ^ k) :
    (dma + j * gpuPageSize) % gpuPageSize = 0 ∧ dma + j * gpuPageSize < 2 ^ 64 := by
  have hpos : 0 < gpuPageSize := by decide
  have hdvd : gpuPageSize ∣ dma := (Nat.dvd_mul_right _ _).trans (Nat.dvd_of_mod_eq_zero hdma)
  have hmul : j * gpuPageSize < pageSize k := by
    unfold pageSize
    rw [Nat.mul_comm]
    exact Nat.mul_lt_mul_of_pos_left hj hpos
  constructor
  · rw [Nat.add_mul_mod_self_right]
    exact Nat.mod_eq_zero_of_dvd hdvd
  · omega

/-- The loops leave what the range is to hold. -/
theorem Range.holds_set (r : Range k) {dma : ℕ → ℕ} {flags : ℕ}
    (haligned : ∀ i < r.pages, dma i % pageSize k = 0)
    (hle : ∀ i < r.pages, dma i + pageSize k ≤ 2 ^ 64) (hflags : flags < 2 ^ 12) (table : ℕ → ℕ) :
    r.Holds dma flags table
      (setCpuPages k dma flags r.pages 0 (u32 (r.offset / gpuPageSize)) table) := by
  have hpos : 0 < 2 ^ k := Nat.two_pow_pos k
  have hgpu : gpuPageSize = 2 ^ 12 * 4 := by decide
  have hfits := r.fits
  have htable := r.table_lt
  have hfirst : u32 (r.offset / gpuPageSize) = r.offset / gpuPageSize := Nat.mod_eq_of_lt (by omega)
  have hlt : ∀ j < r.pages, dma (0 + j) < 2 ^ 64 := by
    intro j hj
    have := hle j hj
    have : 0 < pageSize k := Nat.mul_pos (by decide) hpos
    rw [Nat.zero_add]
    omega
  rw [hfirst, setCpuPages_eq _ (by omega) hlt]
  constructor
  · intro t ht
    have hpage : t / 2 ^ k < r.pages := Nat.div_lt_of_lt_mul (by rwa [Nat.mul_comm])
    obtain ⟨hmod, hend⟩ := piece_bounds (haligned _ hpage) (hle _ hpage) (Nat.mod_lt t hpos)
    have hmod' : (dma (t / 2 ^ k) + t % 2 ^ k * gpuPageSize) % 2 ^ 12 = 0 := by
      rw [hgpu] at hmod ⊢
      omega
    have hentry : u64 (dma (t / 2 ^ k) + t % 2 ^ k * gpuPageSize) =
        dma (t / 2 ^ k) + t % 2 ^ k * gpuPageSize := Nat.mod_eq_of_lt hend
    rw [if_pos (by omega), Nat.add_sub_cancel_left, Nat.zero_add, hentry]
    exact ⟨Move.ptePage_pteOf hmod' hend hflags, pteOf_mod hmod' hend hflags⟩
  · intro e he
    refine if_neg fun hin => ?_
    exact he (e - r.offset / gpuPageSize) (by omega) (by omega)

/-- `gsgpu_gart_map` is right for every size of a CPU page. -/
theorem Range.holds_map (r : Range k) (table : ℕ → ℕ) : ∃ new,
    gartMap k true r.offset r.pages r.dmaAddr r.flags table = .ok new ∧
      r.Holds r.dmaAddr r.flags table new :=
  ⟨_, rfl, r.holds_set r.aligned r.dmaAddr_le r.flags_lt table⟩

/-- So is `gsgpu_gart_unbind`. -/
theorem Range.holds_unbind (r : Range k) {dummy : ℕ} (haligned : dummy % pageSize k = 0)
    (hle : dummy + pageSize k ≤ 2 ^ 64) (table : ℕ → ℕ) : ∃ new,
    gartUnbind k true dummy r.offset r.pages (some table) = .ok (some new) ∧
      r.Holds (fun _ => dummy) 0 table new :=
  ⟨_, rfl, r.holds_set (fun _ _ => haligned) (fun _ _ => hle) (by decide) table⟩

end Range

end Gsgpu.CpuPage
