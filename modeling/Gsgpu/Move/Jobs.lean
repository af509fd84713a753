import Gsgpu.Move.Packets
import Gsgpu.PageTable.Agreement

/-! The two jobs of a move: one that maps pages into a window of the GART, and one that copies, with
what the engine does when it runs them. -/
namespace Gsgpu.Move
open Gsgpu.Vm (u64)
open Gsgpu.PageTable (u32 xdmaRingPadIb ibPoolSize)

/-- A job of a move: its IB fits, its packets are exact, and it writes to the table only to map a
window, and then inside of this window. -/
structure Job.Sound (g : Gmc) (j : Job) : Prop where
  fits : j.Fits
  exact : j.Exact
  window : ∀ w, j.window = some w → w < gttNumTransferWindows ∧ ∀ p ∈ j.pixels,
    ∃ i < gttMaxTransferSize, p.2 = g.tableAddr + (w * gttMaxTransferSize + i) * 8
  data : j.window = none → ∀ p ∈ j.pixels, ¬ g.InTable p.2

theorem mem_rowPixels {src dst n : ℕ} {p : ℕ × ℕ} :
    p ∈ rowPixels src dst n ↔ ∃ i < n, (src + i * 8, dst + i * 8) = p := by
  simp [rowPixels]

theorem Job.Exact.pixels_eq {j : Job} {chunks : List Chunk}
    (hib : j.ib = xdmaRingPadIb (chunks.flatMap Chunk.packet)) (hexact : ∀ c ∈ chunks, c.Exact) :
    j.pixels = (chunks.map Chunk.rect).flatMap Rect.pixels := by
  unfold Job.pixels
  rw [hib, ibRects_packets hexact]

theorem submitJob_ok {size : ℕ} {a : Answer} {job : IbAddr → Job} {j : Job}
    (h : submitJob size a job = .ok j) : ∃ ib, job ib = j := by
  unfold submitJob at h
  split at h
  case h_1 => cases h
  rename_i ib _
  split at h
  case h_1 => cases h
  case h_2 => cases h
  cases h
  exact ⟨ib, rfl⟩

/-! ### A copy -/

section Copy
variable {g : Gmc} {src dst bytes : ℕ} {a : Answer} {j : Job}

/-- A job that copies the bytes from `src` to `dst`. -/
structure CopyJob (src dst bytes : ℕ) (j : Job) : Prop where
  fits : j.Fits
  exact : j.Exact
  pixels : j.pixels = rowPixels src dst (bytes / 8)
  flush : j.vmNeedsFlush = true
  window : j.window = none

/-- It copies the bytes as the table has them now, if it does not write to the table. -/
theorem CopyJob.run (h : CopyJob src dst bytes j) (hwhole : bytes % 8 = 0) (e : Engine)
    (hno : ∀ i < bytes / 8, ¬ g.InTable (dst + i * 8)) :
    e.job g j = some
      { e with
        tlb := e.gart
        copied := e.copied ++
          (List.range bytes).map fun k => (g.locate e.gart (src + k), g.locate e.gart (dst + k)) } := by
  unfold Engine.job Engine.flush
  rw [h.pixels, if_pos h.flush, Engine.pixels_copied _ hno, Nat.div_mul_cancel (Nat.dvd_of_mod_eq_zero hwhole)]

theorem CopyJob.sound (h : CopyJob src dst bytes j)
    (hno : ∀ i < bytes / 8, ¬ g.InTable (dst + i * 8)) : j.Sound g := by
  refine ⟨h.fits, h.exact, ?_, ?_⟩
  · intro w hw
    rw [h.window] at hw
    cases hw
  · intro _ p hp
    rw [h.pixels, mem_rowPixels] at hp
    obtain ⟨i, hi, rfl⟩ := hp
    exact hno i hi

end Copy

/-! ### A window -/

section Window
variable {g : Gmc} {m : Mem} {numPages first window addr : ℕ} {a : Answer} {j : Job}

/-- A job that maps the pages of a BO from `first` on into a window. -/
structure MapJob (g : Gmc) (m : Mem) (first numPages window : ℕ) (j : Job) : Prop where
  fits : j.Fits
  exact : j.Exact
  pixels : j.pixels = rowPixels (j.gpuAddr + j.numDw * 4)
    (g.tableAddr + window * gttMaxTransferSize * 8) numPages
  entries : j.entries = gartMap m first numPages
  flush : j.vmNeedsFlush = false
  window : j.window = some window

theorem gartMap_length (m : Mem) (first numPages : ℕ) : (gartMap m first numPages).length = numPages := by
  simp [gartMap]

/-- The end of window `w` in the table and in GTT. -/
theorem Gmc.window_le (g : Gmc) {w : ℕ} (hw : w < gttNumTransferWindows) :
    w * gttMaxTransferSize + gttMaxTransferSize ≤ g.gartPages ∧
      g.gartStart + w * gttMaxTransferSize * gpuPageSize + gttMaxBytes ≤ g.vramStart := by
  have hpages := g.windows_le
  have hstart := g.gart_le
  have hpage : pageSize = 16384 := rfl
  have hgpu : gpuPageSize = 16384 := rfl
  have hsize : gttMaxTransferSize = 512 := rfl
  have hnum : gttNumTransferWindows = 2 := rfl
  have hmax : gttMaxBytes = 8388608 := rfl
  rw [hpage] at hstart
  rw [hnum, hsize] at hpages
  rw [hnum] at hw
  rw [hsize, hgpu, hmax]
  omega

theorem mapSize_eq (hle : numPages ≤ gttMaxTransferSize) :
    u32 (numPages * 8) = numPages * 8 ∧ mapSize numPages = 16 * 4 + numPages * 8 := by
  have hsize : gttMaxTransferSize = 512 := rfl
  have hdw : alignDw copyNumDw = 16 := rfl
  have hbytes : u32 (numPages * 8) = numPages * 8 := Nat.mod_eq_of_lt (by omega)
  refine ⟨hbytes, ?_⟩
  unfold mapSize
  rw [hdw, hbytes]
  exact Nat.mod_eq_of_lt (by omega)

theorem windowAddr_eq (hw : window < gttNumTransferWindows) :
    windowAddr g window = g.gartStart + window * gttMaxTransferSize * gpuPageSize := by
  have hmax : gttMaxBytes = 8388608 := rfl
  have hgart := (g.window_le hw).2
  have hvram := g.vram_le
  exact Nat.mod_eq_of_lt (by omega)

/-- The chunk that maps a window. -/
def mapChunk (g : Gmc) (numPages window : ℕ) (ib : IbAddr) : Chunk :=
  ⟨ib.val + 16 * 4, g.tableAddr + window * gttMaxTransferSize * 8, numPages * 8⟩

theorem mapChunk_exact (hpos : 0 < numPages) (hle : numPages ≤ gttMaxTransferSize)
    (hw : window < gttNumTransferWindows) (ib : IbAddr) : (mapChunk g numPages window ib).Exact := by
  have hsize : gttMaxTransferSize = 512 := rfl
  have hpool : ibPoolSize = 1048576 := rfl
  have hib := ib.property
  have hpages := (g.window_le hw).1
  have hvram := g.vram_le
  have htable := g.table_le
  apply Chunk.exact_of 0 (by decide)
  · exact Nat.mul_pos hpos (by decide)
  · show numPages * 8 / 8 < 2 ^ 16
    omega
  · exact Nat.mod_one _
  · exact Nat.mul_mod_left _ _
  · show ib.val + 16 * 4 < 2 ^ 64
    omega
  · show g.tableAddr + window * gttMaxTransferSize * 8 < 2 ^ 64
    omega

variable (g m) in
theorem mapJob_ib (offset : ℕ) (hpos : 0 < numPages) (hle : numPages ≤ gttMaxTransferSize)
    (hw : window < gttNumTransferWindows) (ib : IbAddr) :
    (mapJob g m numPages offset window ib).ib =
      xdmaRingPadIb ([mapChunk g numPages window ib].flatMap Chunk.packet) := by
  have hc := mapChunk_exact (g := g) hpos hle hw ib
  have hsrc : u64 (ib.val + 16 * 4) = ib.val + 16 * 4 := Nat.mod_eq_of_lt hc.src_lt
  have hdst : u64 (g.tableAddr + window * gttMaxTransferSize * 8) =
      g.tableAddr + window * gttMaxTransferSize * 8 := Nat.mod_eq_of_lt hc.dst_lt
  have hdw : alignDw copyNumDw = 16 := rfl
  unfold mapJob
  dsimp only
  rw [hdw, Nat.add_comm _ ib.val, hsrc, hdst, (mapSize_eq hle).1, List.flatMap_cons, List.flatMap_nil,
    List.append_nil]
  rfl

variable (g m) in
theorem mapJob_pixels (offset : ℕ) (hpos : 0 < numPages) (hle : numPages ≤ gttMaxTransferSize)
    (hw : window < gttNumTransferWindows) (ib : IbAddr) :
    (mapJob g m numPages offset window ib).Exact ∧
      (mapJob g m numPages offset window ib).pixels =
        rowPixels (ib.val + 16 * 4) (g.tableAddr + window * gttMaxTransferSize * 8) numPages := by
  have hib := mapJob_ib g m offset hpos hle hw ib
  have hc := mapChunk_exact (g := g) hpos hle hw ib
  have hexact : ∀ c ∈ [mapChunk g numPages window ib], c.Exact := by
    intro c hmem
    rw [List.mem_singleton.mp hmem]
    exact hc
  constructor
  · exact Job.Exact.of_chunks hib hexact
  · rw [Job.Exact.pixels_eq hib hexact, List.map_cons, List.flatMap_cons, hc.pixels, List.map_nil,
      List.flatMap_nil, List.append_nil]
    unfold mapChunk
    dsimp only
    rw [Nat.mul_div_cancel _ (by decide)]

theorem mapBuffer_ok {offset : ℕ} (h : mapBuffer g m numPages offset window a = .ok (j, addr))
    (hpos : 0 < numPages) (hle : numPages ≤ gttMaxTransferSize) (hw : window < gttNumTransferWindows) :
    MapJob g m (offset / pageSize) numPages window j ∧
      addr = g.gartStart + window * gttMaxTransferSize * gpuPageSize := by
  unfold mapBuffer at h
  split at h
  case h_1 => cases h
  rename_i j' hj
  cases h
  obtain ⟨ib, rfl⟩ := submitJob_ok hj
  have hib := mapJob_ib g m offset hpos hle hw ib
  obtain ⟨hexact, hpixels⟩ := mapJob_pixels g m offset hpos hle hw ib
  refine ⟨?_, windowAddr_eq hw⟩
  constructor
  · constructor
    · rw [hib, packets_length]
      exact le_rfl
    · unfold mapJob
      dsimp only
      rw [(mapSize_eq hle).2, gartMap_length]
      exact le_rfl
  · exact hexact
  · exact hpixels
  · rfl
  · rfl
  · rfl

/-- The entries that a window holds then. -/
theorem MapJob.run (h : MapJob g m first numPages window j) (hle : numPages ≤ gttMaxTransferSize)
    (hw : window < gttNumTransferWindows) (e : Engine) :
    e.job g j = some
      { e with
        gart := fun x =>
          if window * gttMaxTransferSize ≤ x ∧ x < window * gttMaxTransferSize + numPages then
            (gartMap m first numPages).getD (x - window * gttMaxTransferSize) 0
          else e.gart x } := by
  have hpages := (g.window_le hw).1
  have hlen : numPages ≤ j.entries.length := by rw [h.entries, gartMap_length]
  unfold Engine.job Engine.flush
  rw [h.pixels, if_neg (by simp [h.flush]), Engine.pixels_mapped _ hlen (by omega), h.entries]

theorem MapJob.sound (h : MapJob g m first numPages window j) (hle : numPages ≤ gttMaxTransferSize)
    (hw : window < gttNumTransferWindows) : j.Sound g := by
  refine ⟨h.fits, h.exact, ?_, ?_⟩
  · intro w hw'
    rw [h.window] at hw'
    cases hw'
    refine ⟨hw, fun p hp => ?_⟩
    rw [h.pixels, mem_rowPixels] at hp
    obtain ⟨i, hi, rfl⟩ := hp
    refine ⟨i, by omega, ?_⟩
    rw [Nat.add_mul, ← Nat.add_assoc]
  · intro hnone
    rw [h.window] at hnone
    cases hnone

/-- The page of an entry that `gsgpu_gart_map` writes. -/
theorem ptePage_pteOf {dma flags : ℕ} (hdma : dma % 2 ^ 12 = 0) (hlt : dma < 2 ^ 64)
    (hflags : flags < 2 ^ 12) : ptePage (pteOf dma flags) = dma := by
  have hdiv : dma / 2 ^ 12 * 2 ^ 12 = dma := Nat.div_mul_cancel (Nat.dvd_of_mod_eq_zero hdma)
  have hor := Bits.mul_two_pow_add_or (q := dma / 2 ^ 12) (Nat.two_pow_pos 12) hflags
  rw [Nat.add_zero, hdiv, Nat.zero_or] at hor
  unfold ptePage pteOf
  rw [PageTable.and_pteMask hlt hdma, hor, Nat.add_comm]
  calc (flags + dma) / 2 ^ 12 * 2 ^ 12
      = (flags + dma / 2 ^ 12 * 2 ^ 12) / 2 ^ 12 * 2 ^ 12 := by rw [hdiv]
    _ = dma / 2 ^ 12 * 2 ^ 12 := by
      rw [Nat.add_mul_div_right _ _ (Nat.two_pow_pos 12), Nat.div_eq_of_lt hflags, Nat.zero_add]
    _ = dma := hdiv

theorem gartMap_page {i : ℕ} (hi : i < numPages) (hdma : m.dmaAddress (first + i) % pageSize = 0)
    (hlt : m.dmaAddress (first + i) < 2 ^ 64) :
    ptePage ((gartMap m first numPages).getD i 0) = m.dmaAddress (first + i) := by
  have hpage : pageSize = 16384 := rfl
  have hget : (gartMap m first numPages).getD i 0 = pteOf (m.dmaAddress (first + i))
      (Vm.ttmTtPteFlags (some (.tt m.dmaAddress)) m.readonly) := by
    rw [List.getD_eq_getElem _ _ (by rwa [gartMap_length])]
    simp [gartMap]
  rw [hget]
  apply ptePage_pteOf _ hlt
  · show 2 ^ 0 ||| _ < 2 ^ 12
    cases m.readonly <;> decide
  · rw [hpage] at hdma
    omega

end Window

end Gsgpu.Move
