import Gsgpu.Move.Jobs

/-! One side of a move: where the bytes of a region are, how the loop walks over its nodes, and that
the address it copies from or to shows the bytes it has reached. -/
namespace Gsgpu.Move
open Gsgpu.Vm (Node u64)

/-! ### Regions -/

/-- The bytes of nodes. -/
def nodeBytes (nodes : List Node) : ℕ := Vm.nodePages nodes * pageSize

/-- The size of a region. -/
def Mem.bytes (m : Mem) : ℕ := nodeBytes m.nodes

/-- The offset in VRAM of a byte of nodes. -/
def nodesByte : List Node → ℕ → ℕ
  | [], _ => 0
  | n :: rest, k =>
    if k < n.size * pageSize then n.start * pageSize + k else nodesByte rest (k - n.size * pageSize)

/-- Where a byte of a region is. -/
def Mem.byte (m : Mem) (k : ℕ) : Loc :=
  if m.tt then .system (m.dmaAddress (k / pageSize) + k % pageSize) else .vram (nodesByte m.nodes k)

/-- What the memory managers promise of a region. A GTT region has one node, which lies behind the
windows if it has an address, and then the GART shows its pages; the nodes of a VRAM region lie in
VRAM, and not where the table is. -/
structure Mem.Placed (g : Gmc) (gart : ℕ → ℕ) (m : Mem) : Prop where
  single : m.tt = true → ∃ n, m.nodes = [n]
  dma : m.tt = true → ∀ i < Vm.nodePages m.nodes,
    m.dmaAddress i % pageSize = 0 ∧ m.dmaAddress i < 2 ^ 64
  bound : m.tt = true → m.hasGartAddr = true → ∀ n ∈ m.nodes,
    gttNumTransferWindows * gttMaxTransferSize ≤ n.start ∧ n.start + n.size ≤ g.gartPages ∧
      ∀ i < n.size, ptePage (gart (n.start + i)) = m.dmaAddress i
  vram : m.tt = false → ∀ n ∈ m.nodes, n.start + n.size ≤ g.vramPages ∧
    (g.vramStart + (n.start + n.size) * pageSize ≤ g.tableAddr ∨
      g.tableAddr + g.gartPages * 8 ≤ g.vramStart + n.start * pageSize)

theorem nodeBytes_append (pre nodes : List Node) :
    nodeBytes (pre ++ nodes) = nodeBytes pre + nodeBytes nodes := by
  simp [nodeBytes, Vm.nodePages, Nat.add_mul]

theorem nodeBytes_cons (n : Node) (rest : List Node) :
    nodeBytes (n :: rest) = n.size * pageSize + nodeBytes rest := by
  simp [nodeBytes, Vm.nodePages, Nat.add_mul]

theorem nodesByte_append (pre rest : List Node) {n : Node} {o : ℕ}
    (ho : o < n.size * pageSize) :
    nodesByte (pre ++ n :: rest) (nodeBytes pre + o) = n.start * pageSize + o := by
  induction pre with
  | nil =>
    have hzero : nodeBytes [] + o = o := Nat.zero_add o
    rw [hzero, List.nil_append, nodesByte, if_pos ho]
  | cons n' pre ih =>
    rw [List.cons_append, nodesByte, nodeBytes_cons, if_neg (by omega)]
    have hsub : n'.size * pageSize + nodeBytes pre + o - n'.size * pageSize = nodeBytes pre + o := by
      omega
    rw [hsub]
    exact ih

section Placed
variable {g : Gmc} {gart : ℕ → ℕ} {m : Mem} {n : Node}

/-- A region is in VRAM, or in GTT with an address, or has to be mapped. -/
theorem Mem.cases (m : Mem) : m.windowed = false ∧ m.tt = false ∨
    m.windowed = false ∧ m.tt = true ∧ m.hasGartAddr = true ∨ m.windowed = true ∧ m.tt = true := by
  unfold Mem.windowed
  cases m.tt <;> cases m.hasGartAddr <;> simp

theorem Mem.Placed.nodeAddr_vram (hm : m.Placed g gart) (htt : m.tt = false) (hn : n ∈ m.nodes) :
    m.nodeAddr g n = g.vramStart + n.start * pageSize := by
  obtain ⟨hle, -⟩ := hm.vram htt n hn
  have hpos := n.size_pos
  have hbound := g.vram_le
  have hpage : pageSize = 16384 := rfl
  rw [hpage] at hbound
  have hmod : u64 (n.start * pageSize + g.vramStart) = n.start * pageSize + g.vramStart := by
    rw [hpage]
    exact Nat.mod_eq_of_lt (by omega)
  simp only [Mem.nodeAddr, Mem.gpuOffset, Fill.mmNodeAddr, htt, Bool.not_false, Bool.true_or, if_pos,
    Bool.false_eq_true, if_false, hmod]
  exact Nat.add_comm _ _

theorem Mem.Placed.nodeAddr_gart (hm : m.Placed g gart) (htt : m.tt = true)
    (hgart : m.hasGartAddr = true) (hn : n ∈ m.nodes) :
    m.nodeAddr g n = g.gartStart + n.start * pageSize := by
  obtain ⟨-, hle, -⟩ := hm.bound htt hgart n hn
  have hpos := n.size_pos
  have hbound := g.vram_le
  have hend := g.gart_le
  have hpage : pageSize = 16384 := rfl
  rw [hpage] at hbound hend
  have hmod : u64 (n.start * pageSize + g.gartStart) = n.start * pageSize + g.gartStart := by
    rw [hpage]
    exact Nat.mod_eq_of_lt (by omega)
  simp only [Mem.nodeAddr, Mem.gpuOffset, Fill.mmNodeAddr, htt, hgart, Bool.or_true, if_pos, hmod]
  exact Nat.add_comm _ _

theorem Mem.nodeAddr_windowed (g : Gmc) (hw : m.windowed = true) : m.nodeAddr g n = 0 := by
  unfold Mem.windowed at hw
  rw [Bool.and_eq_true, Bool.not_eq_true'] at hw
  simp [Mem.nodeAddr, hw]

/-- The address of a node is that of a page, and its bytes stay within the address space. -/
theorem Mem.Placed.nodeAddr (hm : m.Placed g gart) (hn : n ∈ m.nodes) :
    m.nodeAddr g n % pageSize = 0 ∧ m.nodeAddr g n + n.size * pageSize ≤ 2 ^ 64 := by
  have hpage : pageSize = 16384 := rfl
  obtain ⟨-, htt⟩ | ⟨-, htt, hgart⟩ | ⟨hwin, -⟩ := m.cases
  · obtain ⟨hle, -⟩ := hm.vram htt n hn
    have haligned := g.vram_aligned
    have hbound := g.vram_le
    rw [hm.nodeAddr_vram htt hn]
    rw [hpage] at haligned hbound ⊢
    omega
  · obtain ⟨-, hle, -⟩ := hm.bound htt hgart n hn
    have haligned := g.gart_aligned
    have hbound := g.vram_le
    have hend := g.gart_le
    rw [hm.nodeAddr_gart htt hgart hn]
    rw [hpage] at haligned hbound hend ⊢
    omega
  · have hlt := n.size_lt
    rw [Mem.nodeAddr_windowed g hwin, hpage]
    omega

end Placed

/-! ### The walk -/

/-- The side stands at a byte of the region. -/
def Side.At (g : Gmc) (m : Mem) (pos : ℕ) (s : Side) : Prop :=
  ∃ pre n o, m.nodes = pre ++ n :: s.rest ∧ pos = nodeBytes pre + o ∧ o % pageSize = 0 ∧
    o < n.size * pageSize ∧ s.nodeStart = m.nodeAddr g n + o ∧ s.nodeSize = n.size * pageSize - o ∧
    s.pageOffset = 0

section Walk
variable {g : Gmc} {gart : ℕ → ℕ} {m : Mem} {s : Side} {pos cur : ℕ}

theorem pageOffset_eq {a : ℕ} (ha : a % pageSize = 0) : a &&& (pageSize - 1) = 0 :=
  (Nat.and_two_pow_sub_one_eq_mod a 14).trans ha

/-- After some pages of a node, but not the last bytes of the region. -/
theorem Side.At.advance (hs : s.At g m pos) (hm : m.Placed g gart) (hle : cur ≤ s.nodeSize)
    (haligned : cur % pageSize = 0) (hlt : pos + cur < m.bytes) :
    ∃ s', s.advance g m cur = some s' ∧ s'.At g m (pos + cur) := by
  have hpage : pageSize = 16384 := rfl
  obtain ⟨pre, n, o, hnodes, hpos, hzero, ho, hstart, hsize, hoff⟩ := hs
  obtain ⟨hmod, hend⟩ := hm.nodeAddr (n := n) (by simp [hnodes])
  unfold Side.advance
  by_cases hdone : s.nodeSize - cur = 0
  · rw [if_pos hdone]
    cases hrest : s.rest with
    | nil =>
      -- the region would end here
      unfold Mem.bytes at hlt
      rw [hnodes, hrest, nodeBytes_append, nodeBytes_cons] at hlt
      have hnil : nodeBytes [] = 0 := rfl
      omega
    | cons n' rest =>
      refine ⟨_, rfl, pre ++ [n], n', 0, ?_, ?_, Nat.zero_mod _, ?_, rfl, rfl, hoff⟩
      · rw [hnodes, hrest, List.append_assoc]
        rfl
      · have hnil : nodeBytes [] = 0 := rfl
        rw [nodeBytes_append, nodeBytes_cons]
        omega
      · exact Nat.mul_pos n'.size_pos (by decide)
  · rw [if_neg hdone]
    have hnext : u64 (s.nodeStart + cur) = m.nodeAddr g n + (o + cur) := by
      rw [hstart, Nat.add_assoc]
      exact Nat.mod_eq_of_lt (by omega)
    have hsum : (o + cur) % pageSize = 0 := by
      rw [hpage] at hzero haligned ⊢
      omega
    have hpo : (m.nodeAddr g n + (o + cur)) % pageSize = 0 := by
      rw [hpage] at hsum hmod ⊢
      omega
    refine ⟨_, rfl, pre, n, o + cur, hnodes, by omega, hsum, by omega, hnext, ?_, ?_⟩
    · dsimp only
      omega
    · dsimp only
      rw [hnext]
      exact pageOffset_eq hpo

end Walk

/-! ### The address of one side -/

/-- The bytes from `pos` on are at `addr`, outside the table, whatever the other window holds. -/
structure Reached (g : Gmc) (m : Mem) (window pos cur addr : ℕ) (gart : ℕ → ℕ) : Prop where
  bound : addr + cur ≤ 2 ^ 64
  outside : ∀ k < cur, ¬ g.InTable (addr + k)
  shows : ∀ gart' : ℕ → ℕ, (∀ x, x / gttMaxTransferSize ≠ 1 - window → gart' x = gart x) →
    ∀ k < cur, g.locate gart' (addr + k) = m.byte (pos + k)

/-- The entries of the other window may change. -/
theorem Reached.keep {g : Gmc} {m : Mem} {window pos cur addr : ℕ} {gart gart' : ℕ → ℕ}
    (h : Reached g m window pos cur addr gart)
    (hgart : ∀ x, x / gttMaxTransferSize ≠ 1 - window → gart' x = gart x) :
    Reached g m window pos cur addr gart' := by
  refine ⟨h.bound, h.outside, fun gart'' hgart' => h.shows gart'' fun x hx => ?_⟩
  rw [hgart' x hx, hgart x hx]

/-- The bytes that a turn copies: whole pages of this node, no more than a window holds. -/
structure Side.Holds (s : Side) (cur : ℕ) : Prop where
  pos : 0 < cur
  aligned : cur % pageSize = 0
  le_node : cur ≤ s.nodeSize
  le_window : cur ≤ gttMaxBytes

section Address
variable {g : Gmc} {gart gart' : ℕ → ℕ} {m : Mem} {s : Side} {pos cur window addr : ℕ}

theorem locate_gtt (g : Gmc) (gart : ℕ → ℕ) {offset : ℕ} (h : g.gartStart + offset < g.vramStart) :
    g.locate gart (g.gartStart + offset) =
      .system (ptePage (gart (offset / pageSize)) + offset % pageSize) := by
  unfold Gmc.locate
  dsimp only
  rw [if_pos h, Nat.add_sub_cancel_left]

/-- GTT is not where the table is. -/
theorem not_inTable_gtt {a : ℕ} (h : a < g.vramStart) : ¬ g.InTable a := by
  intro ht
  have htable := g.vramStart_le_table
  have hge := ht.1
  omega

/-- A VRAM region is reached where it is. -/
theorem Side.At.reached_vram (hs : s.At g m pos) (hm : m.Placed g gart) (htt : m.tt = false)
    (hcur : s.Holds cur) (window : ℕ) (e : ℕ → ℕ) :
    Reached g m window pos cur s.nodeStart e := by
  have hpage : pageSize = 16384 := rfl
  obtain ⟨pre, n, o, hnodes, hpos, -, ho, hstart, hsize, -⟩ := hs
  have hn : n ∈ m.nodes := by simp [hnodes]
  have hle := hcur.le_node
  have haddr := hm.nodeAddr_vram htt hn
  obtain ⟨-, hend⟩ := hm.nodeAddr hn
  obtain ⟨-, hapart⟩ := hm.vram htt n hn
  rw [haddr] at hstart hend
  constructor
  · omega
  · intro k hk ht
    have hge := ht.1
    have hlt := ht.2
    rw [Nat.add_mul] at hapart
    omega
  · intro gart' _ k hk
    have hbyte := nodesByte_append pre s.rest (show o + k < n.size * pageSize by omega)
    unfold Gmc.locate Mem.byte
    rw [if_neg (by omega), if_neg (by simp [htt]), hpos, hnodes, Nat.add_assoc, hbyte]
    congr 1
    omega

/-- The single node of a GTT region. -/
theorem Side.At.single (hs : s.At g m pos) (hm : m.Placed g gart) (htt : m.tt = true) :
    ∃ n, m.nodes = [n] ∧ pos % pageSize = 0 ∧ pos < n.size * pageSize ∧
      s.nodeStart = m.nodeAddr g n + pos ∧ s.nodeSize = n.size * pageSize - pos := by
  obtain ⟨n, hn⟩ := hm.single htt
  obtain ⟨pre, n', o, hnodes, hpos, hzero, ho, hstart, hsize, -⟩ := hs
  rw [hn] at hnodes
  cases pre with
  | cons n'' pre => simp at hnodes
  | nil =>
    have hpos' : pos = o := hpos.trans (Nat.zero_add o)
    rw [List.nil_append, List.cons.injEq] at hnodes
    rw [← hnodes.1, ← hpos'] at hstart hsize ho
    rw [← hpos'] at hzero
    exact ⟨n, hn, hzero, ho, hstart, hsize⟩

/-- A GTT region with an address is reached through its own entries. -/
theorem Side.At.reached_gart (hs : s.At g m pos) (hm : m.Placed g gart) (htt : m.tt = true)
    (hgart : m.hasGartAddr = true) (hcur : s.Holds cur) (hw : window < gttNumTransferWindows)
    {e : ℕ → ℕ} (he : ∀ x, gttNumTransferWindows * gttMaxTransferSize ≤ x → e x = gart x) :
    Reached g m window pos cur s.nodeStart e := by
  have hpage : pageSize = 16384 := rfl
  have hnum : gttNumTransferWindows = 2 := rfl
  have hmax : gttMaxTransferSize = 512 := rfl
  obtain ⟨n, hn, hzero, hlt, hstart, hsize⟩ := hs.single hm htt
  have hmem : n ∈ m.nodes := by simp [hn]
  obtain ⟨hge, hle, hpages⟩ := hm.bound htt hgart n hmem
  have hcurle := hcur.le_node
  have hend := g.gart_le
  have hbound := g.vram_le
  rw [hm.nodeAddr_gart htt hgart hmem, Nat.add_assoc] at hstart
  have hinside : ∀ k < cur, g.gartStart + (n.start * pageSize + pos + k) < g.vramStart := by
    intro k hk
    rw [hpage] at *
    omega
  constructor
  · rw [hstart]
    have hlast := hinside (cur - 1) (by have := hcur.pos; omega)
    omega
  · intro k hk
    rw [hstart, Nat.add_assoc]
    exact not_inTable_gtt (hinside k hk)
  · intro gart' hgart' k hk
    have hdiv : (n.start * pageSize + pos + k) / pageSize = n.start + (pos + k) / pageSize := by
      rw [Nat.add_assoc, Nat.add_comm, Nat.add_mul_div_right _ _ (by decide), Nat.add_comm]
    have hmod : (n.start * pageSize + pos + k) % pageSize = (pos + k) % pageSize := by
      rw [Nat.add_assoc, Nat.add_comm, Nat.add_mul_mod_self_right]
    have hpage_lt : (pos + k) / pageSize < n.size := by
      rw [Nat.div_lt_iff_lt_mul (by decide)]
      omega
    have hfar := hge.trans (Nat.le_add_right _ ((pos + k) / pageSize))
    have hkeep : gart' (n.start + (pos + k) / pageSize) = gart (n.start + (pos + k) / pageSize) := by
      rw [hgart' _ _, he _ hfar]
      rw [hmax]
      rw [hnum, hmax] at hfar
      omega
    rw [hstart, Nat.add_assoc, locate_gtt _ _ (hinside k hk), hdiv, hmod, hkeep, hpages _ hpage_lt]
    unfold Mem.byte
    rw [if_pos htt]

/-- A region without an address is reached in the window that shows its pages. -/
theorem Side.At.reached_window (hs : s.At g m pos) (hm : m.Placed g gart) (hwin : m.windowed = true)
    (htt : m.tt = true) (hcur : s.Holds cur) (hw : window < gttNumTransferWindows) {e : ℕ → ℕ}
    (he : ∀ i < cur / pageSize, e (window * gttMaxTransferSize + i) =
      (gartMap m (s.nodeStart / pageSize) (cur / pageSize)).getD i 0) :
    Reached g m window pos cur (g.gartStart + window * gttMaxTransferSize * gpuPageSize) e := by
  have hpage : pageSize = 16384 := rfl
  have hgpu : gpuPageSize = 16384 := rfl
  have hnum : gttNumTransferWindows = 2 := rfl
  have hmax : gttMaxTransferSize = 512 := rfl
  have hbytes : gttMaxBytes = 8388608 := rfl
  obtain ⟨n, hn, hzero, hlt, hstart, hsize⟩ := hs.single hm htt
  rw [Mem.nodeAddr_windowed g hwin, Nat.zero_add] at hstart
  have hle := hcur.le_node
  have hlew := hcur.le_window
  obtain ⟨-, hend⟩ := g.window_le hw
  have hbound := g.vram_le
  have hinside : ∀ k < cur,
      g.gartStart + (window * gttMaxTransferSize * gpuPageSize + k) < g.vramStart := by
    intro k hk
    omega
  constructor
  · omega
  · intro k hk
    rw [Nat.add_assoc]
    exact not_inTable_gtt (hinside k hk)
  · intro gart' hgart' k hk
    have hk' : k / pageSize < cur / pageSize := by
      have halign := hcur.aligned
      rw [hpage] at halign ⊢
      omega
    have hdiv : (window * gttMaxTransferSize * gpuPageSize + k) / pageSize =
        window * gttMaxTransferSize + k / pageSize := by
      rw [hgpu, hpage]
      omega
    have hmod : (window * gttMaxTransferSize * gpuPageSize + k) % pageSize = k % pageSize := by
      rw [hgpu, hpage]
      omega
    have hsplit : (pos + k) / pageSize = pos / pageSize + k / pageSize ∧
        (pos + k) % pageSize = k % pageSize := by
      rw [hpage] at hzero ⊢
      omega
    have hpages : pos / pageSize + k / pageSize < Vm.nodePages m.nodes := by
      rw [hn, ← hsplit.1, Nat.div_lt_iff_lt_mul (by decide)]
      simp only [Vm.nodePages, List.map_cons, List.map_nil, List.sum_cons, List.sum_nil, Nat.add_zero]
      omega
    obtain ⟨hdma, hdma_lt⟩ := hm.dma htt _ hpages
    have hkeep : gart' (window * gttMaxTransferSize + k / pageSize) =
        e (window * gttMaxTransferSize + k / pageSize) := by
      apply hgart'
      have hcount : cur / pageSize ≤ gttMaxTransferSize := by
        rw [hpage, hmax]
        omega
      rw [Nat.add_comm, Nat.add_mul_div_right _ _ (by decide),
        Nat.div_eq_of_lt (hk'.trans_le hcount), Nat.zero_add]
      rw [hnum] at hw
      omega
    rw [Nat.add_assoc, locate_gtt _ _ (hinside k hk), hdiv, hmod, hkeep, he _ hk', hstart,
      gartMap_page hk' hdma hdma_lt]
    unfold Mem.byte
    rw [if_pos htt, hsplit.1, hsplit.2]

end Address

end Gsgpu.Move
