import Gsgpu.Vram.Visible

/-! How much of a region the CPU can see: `gsgpu_vram_mgr_bo_visible_size` against the sum over the
nodes, which is what the region contributed to `mgr->vis_usage`. -/
namespace Gsgpu.Vram

variable {c : Config} {s : State} {m : ℕ} {n : Node}

/-- `gsgpu_gmc_vram_full_visible`. -/
def Config.vramFullVisible (c : Config) : Bool := c.realVramSize == c.visibleVramSize

/-- The loop of `gsgpu_vram_mgr_bo_visible_size`; none when it would read past the last node. -/
def boVisibleLoop (c : Config) : List Node → BitVec 32 → ℕ → Option ℕ
  | [], pages, usage => if pages = 0 then some usage else none
  | n :: ns, pages, usage =>
    if pages = 0 then some usage
    else boVisibleLoop c ns (pages - BitVec.ofNat 32 n.size) (usage + n.visSize c)

/-- `gsgpu_vram_mgr_bo_visible_size`. -/
def boVisibleSize (c : Config) (x : MemReg) : Option ℕ :=
  if c.vramFullVisible then some (x.numPages * pageSize)
  else if c.visibleVramSize / pageSize ≤ x.start then some 0
  else boVisibleLoop c (x.mmNode.getD []) (BitVec.ofNat 32 x.numPages) 0

/-- The loop counts the nodes as `gsgpu_vram_mgr_del` does. -/
theorem boVisibleLoop_eq_delLoop (ns : List Node) (pages : BitVec 32) (l : Loop) :
    boVisibleLoop c ns pages l.visUsage = (delLoop c ns pages l).map Loop.visUsage := by
  induction ns generalizing pages l with
  | nil =>
    unfold boVisibleLoop delLoop
    split_ifs <;> rfl
  | cons n ns ih =>
    unfold boVisibleLoop delLoop
    split_ifs
    · rfl
    · exact ih (pages - BitVec.ofNat 32 n.size) { l with
        inserted := l.inserted.erase n
        usage := l.usage + n.size * pageSize
        visUsage := l.visUsage + n.visSize c }

section Region
variable (h : s.Inv c) (hm : m ∈ s.live)
include h hm

theorem State.Inv.boVisibleLoop_eq :
    boVisibleLoop c (s.nodes m) (BitVec.ofNat 32 (s.mem m).numPages) 0 =
      some (bytesVisible c (s.nodes m)) := by
  have hlt : ((s.nodes m).map Node.size).sum < 2 ^ 32 := by
    rw [h.pages m hm]
    have hbytes := c.bytes_lt
    have hle := h.numPages_le hm
    have : c.size * 1 ≤ c.size * pageSize := Nat.mul_le_mul_left _ (by decide)
    omega
  have hdel := delLoop_spec (c := c) (fun _ hn => h.node_pos hm hn) hlt ⟨∅, [], 0, 0, 0, 0⟩
  have hloop := boVisibleLoop_eq_delLoop (c := c) (s.nodes m) (BitVec.ofNat 32 (s.mem m).numPages)
    ⟨∅, [], 0, 0, 0, 0⟩
  rw [← h.pages m hm] at hloop ⊢
  rw [hdel] at hloop
  rw [hloop]
  simp [bytesVisible, visSize_eq_bytesBelow]

/-- With all of VRAM visible, all of the region is. -/
theorem State.Inv.bytesVisible_full (hfull : c.vramFullVisible = true) :
    bytesVisible c (s.nodes m) = (s.mem m).numPages * pageSize := by
  have heq : c.realVramSize = c.visibleVramSize := by simpa [Config.vramFullVisible] using hfull
  have hsize : c.size * pageSize ≤ c.visibleVramSize := by
    rw [c.size_eq, heq]
    exact Nat.div_mul_le_self _ _
  have hnode : ∀ n ∈ s.nodes m, n.bytesBelow c.visibleVramSize = n.size * pageSize := by
    intro n hn
    have hend := Nat.mul_le_mul_right pageSize (h.range m hm n hn).2.2
    have hpos := Nat.mul_pos (h.node_pos hm hn) (show 0 < pageSize by decide)
    rw [← visSize_eq_bytesBelow]
    unfold Node.visSize
    dsimp only
    rw [Nat.add_mul] at hend ⊢
    rw [if_neg (by omega), if_neg (by omega)]
    omega
  unfold bytesVisible
  rw [List.map_congr_left hnode, List.sum_map_mul_right, h.pages m hm]

/-- Nothing of the region is visible if every node begins beyond. -/
theorem State.Inv.bytesVisible_eq_zero : bytesVisible c (s.nodes m) = 0 ↔
    ∀ n ∈ s.nodes m, c.visibleVramSize ≤ n.start * pageSize := by
  unfold bytesVisible
  rw [List.sum_eq_zero_iff, List.forall_mem_map]
  refine forall₂_congr fun n hn => ?_
  have hpos := Nat.mul_pos (h.node_pos hm hn) (show 0 < pageSize by decide)
  rw [← visSize_eq_bytesBelow]
  unfold Node.visSize
  dsimp only
  rw [Nat.add_mul]
  split_ifs <;> omega

end Region

/-- `gsgpu_vram_mgr_bo_visible_size` is the number of visible bytes, which is what the region added
to `mgr->vis_usage`, exactly if all of VRAM is visible, or no node ends as far beyond the limit as
the region is long, or no node begins below the limit. A region with a node far beyond the limit is
taken for invisible, whatever its other nodes are. -/
theorem boVisibleSize_exact_iff (h : State.Reachable c s) (hm : m ∈ s.live) :
    (boVisibleSize c (s.mem m) = some (bytesVisible c (s.nodes m)) ∧
      Contributed c (s.mem m) (bytesVisible c (s.nodes m))) ↔
    c.vramFullVisible = true ∨
      (0 < c.visibleVramSize / pageSize ∧ ∀ n ∈ s.nodes m,
        n.start + n.size < c.visibleVramSize / pageSize + (s.mem m).numPages) ∨
      ∀ n ∈ s.nodes m, c.visibleVramSize ≤ n.start * pageSize := by
  have hinv := reachable_inv h
  obtain ⟨hstart, hcontributed⟩ := reachable_started h m hm
  have hbelow : (s.mem m).start < c.visibleVramSize / pageSize ↔
      0 < c.visibleVramSize / pageSize ∧ ∀ n ∈ s.nodes m,
        n.start + n.size < c.visibleVramSize / pageSize + (s.mem m).numPages := by
    obtain ⟨limit, hlimit⟩ : ∃ limit, limit = c.visibleVramSize / pageSize := ⟨_, rfl⟩
    rw [← hlimit, hstart]
    cases limit with
    | zero => simp
    | succ k =>
      rw [Nat.lt_succ_iff, virtualStart_le]
      simp [Nat.succ_add, Nat.lt_succ_iff]
  rw [← hbelow, ← hinv.bytesVisible_eq_zero hm, and_iff_left hcontributed]
  unfold boVisibleSize
  cases hfull : c.vramFullVisible with
  | true => simp [hinv.bytesVisible_full hm hfull]
  | false =>
    by_cases hle : c.visibleVramSize / pageSize ≤ (s.mem m).start
    · simp [hle, not_lt.mpr hle, eq_comm]
    · have hloop : boVisibleLoop c ((s.mem m).mmNode.getD []) (BitVec.ofNat 32 (s.mem m).numPages) 0 =
          some (bytesVisible c (s.nodes m)) := hinv.boVisibleLoop_eq hm
      simp [hle, not_le.mp hle, hloop]

/-- A range allocator that puts the first node at the start and the others behind page 16000. -/
def findFarApart (size : ℕ) (nodes : Finset Node) (r : Request) : Except Errno ℕ :=
  let start := if nodes = ∅ then r.fpfn else max 16000 r.fpfn
  if start + r.size ≤ r.lpfn ∧ start + r.size ≤ size ∧ ∀ n ∈ nodes, n.start + n.size ≤ start then
    .ok start
  else .error enospc

theorem findFarApart_sound (size : ℕ) (nodes : Finset Node) (r : Request) (start : ℕ)
    (h : findFarApart size nodes r = .ok start) :
    r.fpfn ≤ start ∧ start + r.size ≤ r.lpfn ∧ start + r.size ≤ size ∧
      ∀ n ∈ nodes, Disjoint (Node.pages ⟨start, r.size⟩) n.pages := by
  have hfpfn : r.fpfn ≤ if nodes = ∅ then r.fpfn else max 16000 r.fpfn := by
    split_ifs
    · exact le_rfl
    · exact le_max_right _ _
  unfold findFarApart at h
  dsimp only at h
  generalize (if nodes = ∅ then r.fpfn else max 16000 r.fpfn) = first at h hfpfn
  split at h
  case isFalse => cases h
  case isTrue hfits =>
    cases h
    refine ⟨hfpfn, hfits.1, hfits.2.1, fun n hn => ?_⟩
    have hle := hfits.2.2 n hn
    refine Finset.disjoint_left.mpr fun x hx hx' => ?_
    simp only [Node.pages, Finset.mem_Ico] at hx hx'
    omega

def farApart (size : ℕ) : DrmMm size where
  find := findFarApart size
  sound := findFarApart_sound size

/-- A region of two nodes, one at the start of VRAM and one in its invisible half, is said to have no
visible byte. -/
theorem boVisibleSize_farApart : ∃ s, State.Reachable splitConfig s ∧ 0 ∈ s.live ∧
    s.nodes 0 = [⟨0, 16⟩, ⟨16000, 16⟩] ∧ boVisibleSize splitConfig (s.mem 0) = some 0 ∧
    bytesVisible splitConfig (s.nodes 0) = 16 * pageSize := by
  have hrun : ∃ s, State.Reachable splitConfig s ∧ 0 ∈ s.live ∧
      s.nodes 0 = [⟨0, 16⟩, ⟨16000, 16⟩] ∧ boVisibleSize splitConfig (s.mem 0) = some 0 :=
    ⟨_, .next (e := .new 0 32 1 ⟨0, 0, false, false⟩ true (farApart _)) (.start rfl) trivial rfl,
      Finset.mem_insert_self _ _, rfl, rfl⟩
  obtain ⟨s, hs, hlive, hnodes, hsize⟩ := hrun
  refine ⟨s, hs, hlive, hnodes, hsize, ?_⟩
  rw [hnodes]
  simp only [bytesVisible, List.map_cons, List.map_nil, ← visSize_eq_bytesBelow]
  decide

theorem boVisibleSize_exact_iff_split :
    ∃ s, State.Reachable splitConfig s ∧ 0 ∈ s.live ∧ s.nodes 0 = [⟨0, 16⟩, ⟨16, 4⟩] ∧
      ((boVisibleSize splitConfig (s.mem 0) = some (bytesVisible splitConfig (s.nodes 0)) ∧
        Contributed splitConfig (s.mem 0) (bytesVisible splitConfig (s.nodes 0))) ↔
      splitConfig.vramFullVisible = true ∨
        (0 < splitConfig.visibleVramSize / pageSize ∧ ∀ n ∈ s.nodes 0,
          n.start + n.size < splitConfig.visibleVramSize / pageSize + (s.mem 0).numPages) ∨
        ∀ n ∈ s.nodes 0, splitConfig.visibleVramSize ≤ n.start * pageSize) := by
  have hrun : ∃ s, State.Reachable splitConfig s ∧ 0 ∈ s.live ∧ s.nodes 0 = [⟨0, 16⟩, ⟨16, 4⟩] :=
    ⟨_, .next (e := .new 0 20 1 ⟨0, 0, false, false⟩ true (behindLast _)) (.start rfl) trivial rfl,
      Finset.mem_insert_self _ _, rfl⟩
  obtain ⟨s, hs, hlive, hnodes⟩ := hrun
  exact ⟨s, hs, hlive, hnodes, boVisibleSize_exact_iff hs hlive⟩

end Gsgpu.Vram
