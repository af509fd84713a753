import Gsgpu.CpuPage.Split

/-! `gsgpu_map_buffer` for CPU pages of any size, and when the code for the GART, for its windows and
for VMs is right together. The IB of a window is counted in CPU pages and its entries in GPU pages. -/
namespace Gsgpu.CpuPage
open Gsgpu.PageTable (ibPoolSize)
open Move (Gmc Mem Job IbAddr Answer gttMaxTransferSize gttNumTransferWindows)

/-- The entries that `gsgpu_gart_map` writes into an IB for the pages of a BO from `first` on. -/
def windowEntries (k : ℕ) (m : Mem) (first numPages : ℕ) : List ℕ :=
  (List.range (numPages * gpuPagesInCpuPage k)).map
    (setCpuPages k (fun i => m.dmaAddress (first + i))
      (Vm.ttmTtPteFlags (some (.tt m.dmaAddress)) m.readonly) numPages 0 0 fun _ => 0)

/-- The job of `gsgpu_map_buffer`: the size of a CPU page makes a difference to where the pages of
the BO begin and to how many entries they have. -/
def mapJob (k : ℕ) (g : Gmc) (m : Mem) (numPages offset window : ℕ) (ib : IbAddr) : Job :=
  { Move.mapJob g m numPages offset window ib with
    entries := windowEntries k m (offset / pageSize k) numPages }

/-- `gsgpu_map_buffer`, with the address it returns. -/
def mapBuffer (k : ℕ) (g : Gmc) (m : Mem) (numPages offset window : ℕ) (a : Answer) :
    Except Errno (Job × ℕ) :=
  match Move.submitJob (Move.mapSize numPages) a (mapJob k g m numPages offset window) with
  | .error e => .error e
  | .ok j => .ok (j, Move.windowAddr g window)

theorem windowEntries_length (k : ℕ) (m : Mem) (first numPages : ℕ) :
    (windowEntries k m first numPages).length = numPages * 2 ^ k := by
  rw [windowEntries, List.length_map, List.length_range, gpuPages_eq]

/-- With CPU pages of the size of GPU pages these are the jobs that move buffers. -/
theorem mapJob_zero {g : Gmc} {m : Mem} {numPages offset window : ℕ} {ib : IbAddr}
    (hle : numPages < 2 ^ 32) (hdma : ∀ i < numPages, m.dmaAddress (offset / Gsgpu.pageSize + i) < 2 ^ 64) :
    mapJob 0 g m numPages offset window ib = Move.mapJob g m numPages offset window ib := by
  have hentries : windowEntries 0 m (offset / Gsgpu.pageSize) numPages =
      Move.gartMap m (offset / Gsgpu.pageSize) numPages := by
    unfold windowEntries Move.gartMap
    rw [setCpuPages_eq _ (by simpa using hle) (by simpa using hdma), gpuPages_eq, pow_zero, Nat.mul_one]
    apply List.map_congr_left
    intro i hi
    have hlt := List.mem_range.mp hi
    have hdma := hdma i hlt
    rw [if_pos (by omega), Nat.sub_zero, Nat.div_one, Nat.mod_one, Nat.zero_add, Nat.zero_mul,
      Nat.add_zero]
    exact congrArg (Move.pteOf · _) (Nat.mod_eq_of_lt hdma)
  unfold mapJob
  rw [show pageSize 0 = Gsgpu.pageSize from rfl, hentries]
  rfl

/-- A call of `gsgpu_map_buffer` that succeeds, for one of the windows and at most its pages. -/
structure WindowCall (k : ℕ) where
  gmc : Gmc
  mem : Mem
  numPages : ℕ
  offset : ℕ
  window : ℕ
  answer : Answer
  job : Job
  addr : ℕ
  numPages_le : numPages ≤ gttMaxTransferSize
  window_lt : window < gttNumTransferWindows
  ok : mapBuffer k gmc mem numPages offset window answer = .ok (job, addr)

/-- The IB has room for all entries, and its copy packet copies each of them to its place in the
window's part of the table. -/
structure WindowCall.Complete {k : ℕ} (c : WindowCall k) : Prop where
  room : c.job.numDw * 4 + c.job.entries.length * 8 ≤ c.job.allocated
  copied : ∀ e < c.job.entries.length,
    (c.job.gpuAddr + c.job.numDw * 4 + e * 8,
      c.gmc.tableAddr + c.window * gttMaxTransferSize * 8 + e * 8) ∈ c.job.pixels

section WindowCall
variable {k : ℕ} {c : WindowCall k}

theorem WindowCall.job_eq (c : WindowCall k) :
    ∃ ib, mapJob k c.gmc c.mem c.numPages c.offset c.window ib = c.job := by
  have h := c.ok
  unfold mapBuffer at h
  split at h
  case h_1 => cases h
  rename_i j hj
  obtain rfl : j = c.job := congrArg Prod.fst (Except.ok.inj h)
  exact Move.submitJob_ok hj

/-- A window is complete exactly when CPU pages are as large as GPU pages, or there are none. -/
theorem WindowCall.complete_iff : c.Complete ↔ k = 0 ∨ c.numPages = 0 := by
  obtain ⟨ib, hjob⟩ := c.job_eq
  have hlen : c.job.entries.length = c.numPages * 2 ^ k := by
    rw [← hjob]
    exact windowEntries_length _ _ _ _
  have hdw : c.job.numDw = 16 := by
    rw [← hjob]
    rfl
  have halloc : c.job.allocated = 16 * 4 + c.numPages * 8 := by
    rw [← hjob]
    exact (Move.mapSize_eq c.numPages_le).2
  constructor
  · intro h
    have hroom := h.room
    rw [hlen, hdw, halloc] at hroom
    by_contra hcon
    obtain ⟨hk, hpages⟩ := not_or.mp hcon
    have hpow : 2 ^ 1 ≤ 2 ^ k := Nat.pow_le_pow_right (by decide) (by omega)
    have hmul : c.numPages * 2 ^ 1 ≤ c.numPages * 2 ^ k := Nat.mul_le_mul_left _ hpow
    omega
  · intro h
    have hcount : c.numPages * 2 ^ k = c.numPages := by
      rcases h with rfl | hz
      · rw [Nat.pow_zero, Nat.mul_one]
      · rw [hz, Nat.zero_mul]
    rw [hcount] at hlen
    constructor
    · rw [hlen, hdw, halloc]
    · intro e he
      rw [hlen] at he
      have hpixels := (Move.mapJob_pixels c.gmc c.mem c.offset (by omega) c.numPages_le
        c.window_lt ib).2
      have hsame : c.job.pixels =
          (Move.mapJob c.gmc c.mem c.numPages c.offset c.window ib).pixels := by
        rw [← hjob]
        rfl
      have haddr : c.job.gpuAddr = ib.val := by
        rw [← hjob]
        rfl
      rw [hsame, hpixels, hdw, haddr, Move.mem_rowPixels]
      exact ⟨e, he, rfl⟩

end WindowCall

/-- For CPU pages of any size `gsgpu_gart_map` and `gsgpu_gart_unbind` are right. `gsgpu_map_buffer`
and `gsgpu_vm_bo_split_mapping` are right as well exactly when no window with pages is mapped with
larger CPU pages, and the mapping is of whole CPU pages in the sense of its walk. -/
theorem pageTables_right_iff {k : ℕ} (r : Range k) {dummy : ℕ} (hdummy : dummy % pageSize k = 0)
    (hdummy_le : dummy + pageSize k ≤ 2 ^ 64) (table : ℕ → ℕ) (w : WindowCall k) (c : BoMapping k)
    (pte : ℕ → Vm.Pte) :
    ((∃ new, gartMap k true r.offset r.pages r.dmaAddr r.flags table = .ok new ∧
        r.Holds r.dmaAddr r.flags table new) ∧
      (∃ new, gartUnbind k true dummy r.offset r.pages (some table) = .ok (some new) ∧
        r.Holds (fun _ => dummy) 0 table new) ∧
      w.Complete ∧ c.SplitsRight pte) ↔
      (k = 0 ∨ w.numPages = 0) ∧ c.Whole := by
  rw [WindowCall.complete_iff, BoMapping.splitsRight_iff]
  constructor
  · exact fun h => h.2.2
  · exact fun h => ⟨r.holds_map table, r.holds_unbind hdummy hdummy_le table, h⟩

/-! ### CPU pages of 32K -/

/-- GTT at 0 and VRAM of 64 pages behind it, with the table at its start. -/
def smallGmc : Gmc where
  gartStart := 0
  gartPages := 1024
  vramStart := 2 ^ 24
  vramPages := 64
  tableAddr := 2 ^ 24
  gart_aligned := Nat.zero_mod _
  vram_aligned := by decide
  windows_le := by decide
  gart_le := by decide
  vram_le := by decide
  vramStart_le_table := by decide
  table_le := by decide

/-- A BO with CPU page `i` at the `i`-th address. -/
def inOrder (k : ℕ) : Mem := ⟨true, [], fun i => i * pageSize k, false⟩

/-- Calls that succeed, with an IB at 0. -/
def succeeding : Answer := ⟨.ok ⟨0, by decide⟩, .ok (), .ok ()⟩

/-- One CPU page mapped into the first window. -/
def oneWindow (k : ℕ) : WindowCall k where
  gmc := smallGmc
  mem := inOrder k
  numPages := 1
  offset := 0
  window := 0
  answer := succeeding
  job := mapJob k smallGmc (inOrder k) 1 0 0 ⟨0, by decide⟩
  addr := Move.windowAddr smallGmc 0
  numPages_le := by decide
  window_lt := by decide
  ok := rfl

theorem inOrder_pages (k : ℕ) {size : ℕ} (h : size ≤ 2 ^ 64 - pageSize k) (hk : pageSize k ≤ 2 ^ 64) :
    Pages k size (fun i => i * pageSize k) := by
  intro i hi
  dsimp only
  exact ⟨Nat.mul_mod_left _ _, by omega⟩

/-- The second GPU page of a BO of one CPU page of 32K. -/
def secondHalf : BoMapping 1 where
  mapping := ⟨some 0, 4, 4, 0x4000, 0⟩
  size := 0x8000
  pagesAddr := fun i => i * pageSize 1
  flags := 1
  inside := ⟨by decide, by decide, by decide⟩
  aligned := by decide
  size_lt := by decide
  pages := inOrder_pages 1 (by decide) (by decide)

/-- With CPU pages of 32K the IB for one of them has room for one entry of two, and a mapping of the
second half of a page shows the first. -/
theorem pageTables_wrong :
    (oneWindow 1).job.allocated = 72 ∧ (oneWindow 1).job.entries.length = 2 ∧
      ¬(oneWindow 1).Complete ∧
      (vmBoSplitMapping 1 secondHalf.pagesAddr secondHalf.mapping 1 1 fun _ => ⟨0, 0⟩).map
        (fun r => (r 4).addr) = some 0 ∧
      boAddr 1 secondHalf.pagesAddr 0x4000 = 0x4000 ∧
      ¬secondHalf.SplitsRight fun _ => ⟨0, 0⟩ := by
  refine ⟨by decide, by decide, ?_, by decide, by decide, ?_⟩
  · rw [WindowCall.complete_iff]
    decide
  · rw [BoMapping.splitsRight_iff]
    intro h
    exact absurd h.1 (by decide)

/-- A range of two CPU pages of 16K. -/
def twoPages : Range 0 where
  numGpuPages := 1024
  offset := 0x4000
  pages := 2
  dmaAddr := fun i => i * pageSize 0
  flags := 1
  table_lt := by decide
  fits := by decide
  aligned := fun i _ => Nat.mul_mod_left _ _
  dmaAddr_le := by decide
  flags_lt := by decide

/-- A BO of one page of 16K. -/
def onePage : BoMapping 0 where
  mapping := ⟨some 0, 4, 4, 0, 0⟩
  size := 0x4000
  pagesAddr := fun i => i * pageSize 0
  flags := 1
  inside := ⟨by decide, by decide, by decide⟩
  aligned := by decide
  size_lt := by decide
  pages := inOrder_pages 0 (by decide) (by decide)

theorem pageTables_right_iff_equal :
    ((∃ new, gartMap 0 true twoPages.offset twoPages.pages twoPages.dmaAddr twoPages.flags (fun _ => 0) =
          .ok new ∧ twoPages.Holds twoPages.dmaAddr twoPages.flags (fun _ => 0) new) ∧
      (∃ new, gartUnbind 0 true 0 twoPages.offset twoPages.pages (some fun _ => 0) = .ok (some new) ∧
        twoPages.Holds (fun _ => 0) 0 (fun _ => 0) new) ∧
      (oneWindow 0).Complete ∧ onePage.SplitsRight fun _ => ⟨0, 0⟩) ↔
      (0 = 0 ∨ (oneWindow 0).numPages = 0) ∧ onePage.Whole :=
  pageTables_right_iff twoPages (by decide) (by decide) (fun _ => 0) (oneWindow 0) onePage
    fun _ => ⟨0, 0⟩

end Gsgpu.CpuPage
