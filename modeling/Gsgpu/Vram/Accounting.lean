import Gsgpu.Vram.Manager
import Mathlib.Algebra.BigOperators.Ring.Finset
import Mathlib.Algebra.Order.BigOperators.Group.Finset
import Mathlib.Algebra.Order.BigOperators.Group.List
import Mathlib.Order.Lattice.Nat

/-! The counters of the VRAM manager against the nodes of the regions, over all sequences of
allocations, failed ones included, and frees. -/
namespace Gsgpu.Vram

variable {c : Config} {B : Finset Node} {l l' : Loop} {n : Node}

/-- Bytes of a node below a limit. -/
def Node.bytesBelow (n : Node) (limit : ℕ) : ℕ :=
  ((Finset.Ico (n.start * pageSize) ((n.start + n.size) * pageSize)).filter (· < limit)).card

theorem visSize_eq_bytesBelow (n : Node) : n.visSize c = n.bytesBelow c.visibleVramSize := by
  have hcomm : (n.size + n.start) * pageSize = (n.start + n.size) * pageSize := by
    rw [Nat.add_comm]
  have hfilter : (Finset.Ico (n.start * pageSize) ((n.start + n.size) * pageSize)).filter
      (· < c.visibleVramSize) =
        Finset.Ico (n.start * pageSize)
          (min ((n.start + n.size) * pageSize) c.visibleVramSize) := by
    ext x
    simp only [Finset.mem_filter, Finset.mem_Ico, lt_min_iff]
    tauto
  rw [Node.bytesBelow, hfilter, Nat.card_Ico, Node.visSize, hcomm]
  split_ifs <;> omega

/-- Nodes that are not empty and have no page in common. -/
structure Packed (s : Finset Node) : Prop where
  pos : ∀ n ∈ s, 0 < n.size
  disjoint : (s : Set Node).PairwiseDisjoint Node.pages

theorem Packed.insert (h : Packed B) (hn : 0 < n.size)
    (hd : ∀ n' ∈ B, Disjoint n.pages n'.pages) : Packed (insert n B) where
  pos := by
    simp only [Finset.mem_insert, forall_eq_or_imp]
    exact ⟨hn, h.pos⟩
  disjoint := by
    rw [Finset.coe_insert]
    exact h.disjoint.insert fun n' hn' _ => hd n' hn'

theorem Packed.mono {B' : Finset Node} (h : Packed B) (hs : B' ⊆ B) : Packed B' where
  pos := fun n hn => h.pos n (hs hn)
  disjoint := h.disjoint.subset (Finset.coe_subset.mpr hs)

/-- A node that has no page in common with the inserted ones is not one of them. -/
theorem not_mem_of_disjoint (hn : 0 < n.size) (hd : ∀ n' ∈ B, Disjoint n.pages n'.pages) :
    n ∉ B := by
  intro hmem
  have : n.start ∈ n.pages := by simp [Node.pages, hn]
  exact Finset.disjoint_left.mp (hd n hmem) this this

/-- All nodes together have no more pages than the range they are in. -/
theorem Packed.sum_le (h : Packed B) {size : ℕ} (hs : ∀ n ∈ B, n.start + n.size ≤ size) :
    ∑ n ∈ B, n.size ≤ size := by
  calc ∑ n ∈ B, n.size
      = ∑ n ∈ B, n.pages.card := Finset.sum_congr rfl fun n _ => by simp [Node.pages]
    _ = (B.biUnion Node.pages).card := (Finset.card_biUnion h.disjoint).symm
    _ ≤ (Finset.range size).card := by
        refine Finset.card_le_card fun x hx => ?_
        obtain ⟨n, hn, hx⟩ := Finset.mem_biUnion.mp hx
        have := hs n hn
        simp only [Node.pages, Finset.mem_Ico] at hx
        simp only [Finset.mem_range]
        omega
    _ = size := Finset.card_range size

/-! The loop of `gsgpu_vram_mgr_new`. -/
section New

variable (c) (B) (fpfn lpfn numPages : ℕ)

/-- The loop has inserted its nodes beside those of `B`, and its sums are theirs. -/
structure Loop.Inv (l : Loop) : Prop where
  inserted : l.inserted = B ∪ l.nodes.toFinset
  nodup : l.nodes.Nodup
  new : ∀ n ∈ l.nodes, n ∉ B
  packed : Packed l.inserted
  range : ∀ n ∈ l.nodes, fpfn ≤ n.start ∧ n.start + n.size ≤ lpfn ∧ n.start + n.size ≤ c.size
  pages : (l.nodes.map Node.size).sum + l.pagesLeft = numPages
  usage : l.usage = (l.nodes.map fun n => n.size * pageSize).sum
  visUsage : l.visUsage = (l.nodes.map fun n => n.visSize c).sum

variable {c} {B} {fpfn lpfn numPages}

theorem Loop.Inv.add (h : l.Inv c B fpfn lpfn numPages) (hpos : 0 < n.size)
    (hle : n.size ≤ l.pagesLeft)
    (hrange : fpfn ≤ n.start ∧ n.start + n.size ≤ lpfn ∧ n.start + n.size ≤ c.size)
    (hd : ∀ n' ∈ l.inserted, Disjoint n.pages n'.pages) :
    (l.add c numPages n).Inv c B fpfn lpfn numPages := by
  have hnot : n ∉ B ∪ l.nodes.toFinset := h.inserted ▸ not_mem_of_disjoint hpos hd
  simp only [Finset.mem_union, List.mem_toFinset, not_or] at hnot
  have hmem : ∀ x ∈ l.nodes ++ [n], x ∈ l.nodes ∨ x = n := by simp
  refine ⟨?_, ?_, fun x hx => ?_, h.packed.insert hpos hd, fun x hx => ?_, ?_, ?_, ?_⟩
  · simp only [Loop.add, h.inserted, List.toFinset_append, List.toFinset_cons, List.toFinset_nil]
    ext x
    simp only [Finset.mem_insert, Finset.mem_union, Finset.notMem_empty, or_false]
    tauto
  · simp only [Loop.add, List.nodup_append, h.nodup, true_and, List.nodup_singleton,
      List.mem_singleton, forall_eq]
    exact fun x hx he => hnot.2 (he ▸ hx)
  · rcases hmem x hx with hx | rfl
    · exact h.new x hx
    · exact hnot.1
  · rcases hmem x hx with hx | rfl
    · exact h.range x hx
    · exact hrange
  · have := h.pages
    simp only [Loop.add, List.map_append, List.map_cons, List.map_nil, List.sum_append,
      List.sum_cons, List.sum_nil]
    omega
  · simp [Loop.add, h.usage]
  · simp [Loop.add, h.visUsage]

theorem divRoundUp_zero {left d : ℕ} (hd : 0 < d) (h : divRoundUp left d = 0) : left = 0 := by
  rw [divRoundUp, Nat.div_eq_zero_iff] at h
  omega

theorem divRoundUp_succ {left d k : ℕ} (hd : 0 < d) (h : divRoundUp left d = k + 1) :
    0 < left ∧ divRoundUp (left - min left d) d = k := by
  have hleft : 0 < left := by
    by_contra h0
    have : left = 0 := by omega
    subst this
    rw [divRoundUp, Nat.zero_add, Nat.div_eq_of_lt (by omega)] at h
    omega
  refine ⟨hleft, ?_⟩
  rw [divRoundUp] at h ⊢
  rcases Nat.le_total left d with hle | hle
  · rw [Nat.min_eq_left hle, Nat.sub_self, Nat.zero_add, Nat.div_eq_of_lt (by omega)]
    have : (left + d - 1) / d < 2 := Nat.div_lt_of_lt_mul (by omega)
    omega
  · rw [Nat.min_eq_right hle]
    have : left + d - 1 = (left - d + d - 1) + d := by omega
    rw [this, Nat.add_div_right _ hd] at h
    omega

/-- What the loop does, whether it comes to its end or not. -/
theorem newLoop_spec (drm : DrmMm c.size) {m : MemReg} {place : Place} {d k : ℕ} (hd : 0 < d)
    (hk : divRoundUp l.pagesLeft d = k) (h : l.Inv c B place.fpfn lpfn m.numPages) :
    (∀ l', newLoop c drm m place lpfn d k l = .ok l' →
      l'.Inv c B place.fpfn lpfn m.numPages ∧ l'.pagesLeft = 0) ∧
    ∀ r l', newLoop c drm m place lpfn d k l = .error (r, l') →
      l'.Inv c B place.fpfn lpfn m.numPages := by
  induction k generalizing l with
  | zero =>
    refine ⟨fun l' hl' => ?_, fun r l' hl' => ?_⟩
    · cases hl'
      exact ⟨h, divRoundUp_zero hd hk⟩
    · cases hl'
  | succ k ih =>
    obtain ⟨hleft, hk'⟩ := divRoundUp_succ hd hk
    simp only [newLoop]
    split
    case h_1 r hr =>
      refine ⟨fun l' hl' => ?_, fun r l' hl' => ?_⟩
      · cases hl'
      · cases hl'
        exact h
    case h_2 start hstart =>
      obtain ⟨hlo, hhi, hsize, hdisj⟩ := drm.sound _ _ _ hstart
      exact ih hk' (h.add (by simp only; omega) (Nat.min_le_left _ _) ⟨hlo, hhi, hsize⟩ hdisj)

/-- The nodes of a loop that failed are removed again. -/
theorem Loop.Inv.remove (h : l.Inv c B fpfn lpfn numPages) :
    l.nodes.reverse.foldl Finset.erase l.inserted = B := by
  have hfold : ∀ (ns : List Node) (s : Finset Node),
      ns.foldl Finset.erase s = s \ ns.toFinset := by
    intro ns
    induction ns with
    | nil => simp
    | cons x ns ih =>
      intro s
      rw [List.foldl_cons, ih, List.toFinset_cons, Finset.sdiff_insert, Finset.erase_sdiff_comm]
  rw [hfold, h.inserted, List.toFinset_reverse, Finset.union_sdiff_right,
    Finset.sdiff_eq_self_iff_disjoint]
  exact Finset.disjoint_right.mpr fun n hn => h.new n (List.mem_toFinset.mp hn)

end New

/-! The loop of `gsgpu_vram_mgr_del`. -/

/-- With the pages of exactly its nodes to count down, the loop removes them all. -/
theorem delLoop_spec {ns : List Node} (hpos : ∀ n ∈ ns, 0 < n.size)
    (hlt : (ns.map Node.size).sum < 2 ^ 32) (l : Loop) :
    delLoop c ns (BitVec.ofNat 32 (ns.map Node.size).sum) l = some { l with
      inserted := l.inserted \ ns.toFinset
      usage := l.usage + (ns.map fun n => n.size * pageSize).sum
      visUsage := l.visUsage + (ns.map fun n => n.visSize c).sum } := by
  induction ns generalizing l with
  | nil => simp [delLoop]
  | cons n ns ih =>
    have hn : 0 < n.size := hpos n (by simp)
    simp only [List.map_cons, List.sum_cons] at hlt
    have hne : ¬ BitVec.ofNat 32 (n.size + (ns.map Node.size).sum) = 0 := by
      intro h0
      rw [← BitVec.toNat_inj] at h0
      simp at h0
      omega
    have hsub : BitVec.ofNat 32 (n.size + (ns.map Node.size).sum) - BitVec.ofNat 32 n.size =
        BitVec.ofNat 32 (ns.map Node.size).sum := by
      rw [BitVec.ofNat_add, BitVec.add_comm]
      exact BitVec.add_sub_cancel _ _
    simp only [List.map_cons, List.sum_cons, delLoop, hne, if_false, hsub]
    rw [ih (fun x hx => hpos x (by simp [hx])) (by omega)]
    simp only [List.toFinset_cons, Finset.sdiff_insert, Finset.erase_sdiff_comm, Nat.add_assoc]

/-! The manager. -/

/-- The nodes of a region. -/
def State.nodes (s : State) (m : ℕ) : List Node := (s.mem m).mmNode.getD []

/-- The regions' nodes are those inserted, and the counters are their sums. -/
structure State.Inv (c : Config) (s : State) : Prop where
  live : ∀ m, m ∈ s.live ↔ (s.mem m).mmNode ≠ none
  packed : Packed s.inserted
  inserted : s.inserted = s.live.biUnion fun m => (s.nodes m).toFinset
  nodup : ∀ m ∈ s.live, (s.nodes m).Nodup
  apart : (s.live : Set ℕ).PairwiseDisjoint fun m => (s.nodes m).toFinset
  pages : ∀ m ∈ s.live, ((s.nodes m).map Node.size).sum = (s.mem m).numPages
  range : ∀ m ∈ s.live, ∀ n ∈ s.nodes m, (s.mem m).fpfn ≤ n.start ∧
    n.start + n.size ≤ (s.mem m).lpfn ∧ n.start + n.size ≤ c.size
  usage : s.usage = BitVec.ofNat 64 (∑ m ∈ s.live, (s.mem m).numPages * pageSize)
  visUsage : s.visUsage =
    BitVec.ofNat 64 (∑ m ∈ s.live, ((s.nodes m).map fun n => n.visSize c).sum)

variable {s s' : State} {m : ℕ}

theorem State.Inv.initial : State.initial.Inv c where
  live := by simp [State.initial]
  packed := ⟨by simp [State.initial], by simp [State.initial]⟩
  inserted := by simp [State.initial]
  nodup := by simp [State.initial]
  apart := by simp [State.initial]
  pages := by simp [State.initial]
  range := by simp [State.initial]
  usage := by simp [State.initial]
  visUsage := by simp [State.initial]

/-- A region without nodes does not count. -/
theorem State.Inv.setMem (h : s.Inv c) (hm : (s.mem m).mmNode = none) {x : MemReg}
    (hx : x.mmNode = none) : (s.setMem m x).Inv c := by
  have hnot : m ∉ s.live := fun hl => (h.live m).mp hl hm
  have hmem : ∀ m' ∈ s.live, (s.setMem m x).mem m' = s.mem m' := by
    intro m' hm'
    have : m' ≠ m := fun he => hnot (he ▸ hm')
    simp [State.setMem, this]
  have hnodes : ∀ m' ∈ s.live, (s.setMem m x).nodes m' = s.nodes m' := fun m' hm' => by
    rw [State.nodes, State.nodes, hmem m' hm']
  refine ⟨fun m' => ?_, h.packed, ?_, fun m' hm' => ?_, ?_, fun m' hm' => ?_, fun m' hm' => ?_,
    ?_, ?_⟩
  · by_cases he : m' = m
    · subst he
      simp [State.setMem, hnot, hx]
    · simpa [State.setMem, he] using h.live m'
  · refine h.inserted.trans (Finset.biUnion_congr rfl fun m' hm' => ?_)
    rw [hnodes m' hm']
  · rw [hnodes m' hm']
    exact h.nodup m' hm'
  · intro a ha b hb hab
    simp only [Function.onFun, hnodes a ha, hnodes b hb]
    exact h.apart ha hb hab
  · rw [hnodes m' hm', hmem m' hm']
    exact h.pages m' hm'
  · rw [hnodes m' hm', hmem m' hm']
    exact h.range m' hm'
  · refine h.usage.trans (congrArg _ (Finset.sum_congr rfl fun m' hm' => ?_))
    rw [hmem m' hm']
  · refine h.visUsage.trans (congrArg _ (Finset.sum_congr rfl fun m' hm' => ?_))
    rw [hnodes m' hm']

/-- All regions together have no more pages than the manager. -/
theorem State.Inv.sum_numPages_le (h : s.Inv c) : ∑ m ∈ s.live, (s.mem m).numPages ≤ c.size := by
  have hsize : ∀ n ∈ s.inserted, n.start + n.size ≤ c.size := by
    intro n hn
    rw [h.inserted] at hn
    obtain ⟨m, hm, hn⟩ := Finset.mem_biUnion.mp hn
    exact (h.range m hm n (List.mem_toFinset.mp hn)).2.2
  calc ∑ m ∈ s.live, (s.mem m).numPages
      = ∑ m ∈ s.live, ∑ n ∈ (s.nodes m).toFinset, n.size :=
        Finset.sum_congr rfl fun m hm => by
          rw [← h.pages m hm, List.sum_toFinset Node.size (h.nodup m hm)]
    _ = ∑ n ∈ s.inserted, n.size := by
        rw [h.inserted, Finset.sum_biUnion h.apart]
    _ ≤ c.size := h.packed.sum_le hsize

theorem visSize_le (n : Node) : n.visSize c ≤ n.size * pageSize := by
  have : (n.size + n.start) * pageSize = n.size * pageSize + n.start * pageSize := by
    rw [Nat.add_mul]
  rw [Node.visSize]
  split_ifs <;> omega

theorem State.Inv.sum_visSize_le (h : s.Inv c) :
    ∑ m ∈ s.live, ((s.nodes m).map fun n => n.visSize c).sum ≤
      ∑ m ∈ s.live, (s.mem m).numPages * pageSize := by
  refine Finset.sum_le_sum fun m hm => ?_
  rw [← h.pages m hm, ← List.sum_map_mul_right]
  exact List.sum_le_sum fun n _ => visSize_le n

/-- The counters do not come near their limits. -/
theorem Config.bytes_lt (c : Config) : c.size * pageSize < 2 ^ 32 := by
  have hreal := c.realVramSize_le
  have := Nat.div_mul_le_self c.realVramSize pageSize
  rw [c.size_eq]
  omega

theorem State.Inv.sum_bytes_lt (h : s.Inv c) :
    ∑ m ∈ s.live, (s.mem m).numPages * pageSize < 2 ^ 32 := by
  rw [← Finset.sum_mul]
  calc (∑ m ∈ s.live, (s.mem m).numPages) * pageSize
      ≤ c.size * pageSize := Nat.mul_le_mul_right _ h.sum_numPages_le
    _ < 2 ^ 32 := c.bytes_lt

/-- The region gets the nodes that a finished loop has inserted. -/
theorem State.Inv.allocate (h : s.Inv c) {x : MemReg}
    (hl : l.Inv c s.inserted x.fpfn x.lpfn x.numPages) (hleft : l.pagesLeft = 0)
    (hm : (s.mem m).mmNode = none) (hx : x.mmNode = some l.nodes)
    (hmem : s'.mem = Function.update s.mem m x) (hlive : s'.live = insert m s.live)
    (hins : s'.inserted = l.inserted) (husage : s'.usage = s.usage + BitVec.ofNat 64 l.usage)
    (hvis : s'.visUsage = s.visUsage + BitVec.ofNat 64 l.visUsage) : s'.Inv c := by
  have hnot : m ∉ s.live := fun hl => (h.live m).mp hl hm
  have hself : s'.nodes m = l.nodes := by simp [State.nodes, hmem, hx]
  have hother : ∀ m' ∈ s.live, s'.mem m' = s.mem m' := by
    intro m' hm'
    have : m' ≠ m := fun he => hnot (he ▸ hm')
    simp [hmem, this]
  have hnodes : ∀ m' ∈ s.live, s'.nodes m' = s.nodes m' := fun m' hm' => by
    rw [State.nodes, State.nodes, hother m' hm']
  have hpages : (l.nodes.map Node.size).sum = x.numPages := by
    have := hl.pages
    omega
  have hnew : ∀ m' ∈ s.live, Disjoint l.nodes.toFinset (s.nodes m').toFinset := by
    intro m' hm'
    refine Finset.disjoint_left.mpr fun n hn hn' => hl.new n (List.mem_toFinset.mp hn) ?_
    rw [h.inserted]
    exact Finset.mem_biUnion.mpr ⟨m', hm', hn'⟩
  refine ⟨fun m' => ?_, hins ▸ hl.packed, ?_, ?_, ?_, ?_, ?_, ?_, ?_⟩
  · rw [hlive, hmem]
    by_cases he : m' = m
    · subst he
      simp [hx]
    · simpa [he] using h.live m'
  · rw [hins, hl.inserted, hlive, Finset.biUnion_insert, hself, Finset.union_comm,
      Finset.biUnion_congr rfl fun m' hm' => by rw [hnodes m' hm'], ← h.inserted]
  · rw [hlive, Finset.forall_mem_insert, hself]
    exact ⟨hl.nodup, fun m' hm' => (hnodes m' hm').symm ▸ h.nodup m' hm'⟩
  · rw [hlive, Finset.coe_insert]
    refine Set.PairwiseDisjoint.insert ?_ fun m' hm' _ => ?_
    · intro a ha b hb hab
      simp only [Function.onFun, hnodes a ha, hnodes b hb]
      exact h.apart ha hb hab
    · rw [hself, hnodes m' hm']
      exact hnew m' hm'
  · rw [hlive, Finset.forall_mem_insert, hself, hmem, Function.update_self]
    refine ⟨hpages, fun m' hm' => ?_⟩
    rw [hnodes m' hm', ← hmem, hother m' hm']
    exact h.pages m' hm'
  · rw [hlive, Finset.forall_mem_insert, hself, hmem, Function.update_self]
    refine ⟨hl.range, fun m' hm' => ?_⟩
    rw [hnodes m' hm', ← hmem, hother m' hm']
    exact h.range m' hm'
  · have hsum : ∑ m' ∈ s.live, (s'.mem m').numPages * pageSize =
        ∑ m' ∈ s.live, (s.mem m').numPages * pageSize :=
      Finset.sum_congr rfl fun m' hm' => by rw [hother m' hm']
    have hat : s'.mem m = x := by simp [hmem]
    rw [husage, hlive, Finset.sum_insert hnot, hsum, hat, Nat.add_comm, BitVec.ofNat_add, h.usage,
      hl.usage, List.sum_map_mul_right, hpages]
  · have hsum : ∑ m' ∈ s.live, ((s'.nodes m').map fun n => n.visSize c).sum =
        ∑ m' ∈ s.live, ((s.nodes m').map fun n => n.visSize c).sum :=
      Finset.sum_congr rfl fun m' hm' => by rw [hnodes m' hm']
    rw [hvis, hlive, Finset.sum_insert hnot, hsum, hself, Nat.add_comm, BitVec.ofNat_add,
      h.visUsage, hl.visUsage]

/-- The loop as `gsgpu_vram_mgr_new` starts it. -/
theorem State.Inv.newLoop_spec (h : s.Inv c) (hpos : 0 < (s.mem m).numPages)
    (hlt : (s.mem m).numPages < 2 ^ 64) (place : Place) (drm : DrmMm c.size) :
    (∀ l, newLoop c drm (s.mem m) place (placeEnd c place) (pagesPerNode c (s.mem m) place)
        (numNodes c (s.mem m) place) ⟨s.inserted, [], (s.mem m).numPages, 0, 0, 0⟩ = .ok l →
      l.Inv c s.inserted place.fpfn (placeEnd c place) (s.mem m).numPages ∧ l.pagesLeft = 0) ∧
    ∀ r l, newLoop c drm (s.mem m) place (placeEnd c place) (pagesPerNode c (s.mem m) place)
        (numNodes c (s.mem m) place) ⟨s.inserted, [], (s.mem m).numPages, 0, 0, 0⟩ =
          .error (r, l) →
      l.Inv c s.inserted place.fpfn (placeEnd c place) (s.mem m).numPages := by
  have hd : 0 < pagesPerNode c (s.mem m) place := by
    simp only [pagesPerNode]
    split
    case h_1 split _ hs =>
      have := c.pageSplit_le split hs
      omega
    case h_2 => decide
  have hk : divRoundUp (s.mem m).numPages (pagesPerNode c (s.mem m) place) =
      numNodes c (s.mem m) place := by
    simp only [numNodes]
    split
    case h_1 => rfl
    case h_2 hno =>
      have : pagesPerNode c (s.mem m) place = 2 ^ 64 - 1 := by
        simp only [pagesPerNode]
      rw [this, divRoundUp]
      exact Nat.div_eq_of_lt_le (by omega) (by omega)
  have hstart : (⟨s.inserted, [], (s.mem m).numPages, 0, 0, 0⟩ : Loop).Inv c s.inserted place.fpfn
      (placeEnd c place) (s.mem m).numPages :=
    ⟨by simp, by simp, by simp, h.packed, by simp, by simp, by simp, by simp⟩
  exact Vram.newLoop_spec drm hd hk hstart

/-- `gsgpu_vram_mgr_new` gives the region its nodes, or leaves everything but `mem->start`. -/
theorem mgrNew_cases (h : s.Inv c) (hm : (s.mem m).mmNode = none) (hpos : 0 < (s.mem m).numPages)
    (hlt : (s.mem m).numPages < 2 ^ 64) (place : Place) (kvmalloc : Bool) (drm : DrmMm c.size) :
    ((s.mgrNew c m place kvmalloc drm).1.Inv c ∧
      ((s.mgrNew c m place kvmalloc drm).1.mem m).mmNode ≠ none ∧
      (s.mgrNew c m place kvmalloc drm).2 = .ok ()) ∨
    ∃ start, (s.mgrNew c m place kvmalloc drm).1 = s.setMem m { s.mem m with start := start } := by
  have hsame : s.setMem m { s.mem m with start := (s.mem m).start } = s := by
    simp only [State.setMem]
    rw [Function.update_eq_self]
  obtain ⟨hok, herr⟩ := h.newLoop_spec hpos hlt place drm
  simp only [State.mgrNew]
  split
  case isTrue => exact .inr ⟨_, hsame.symm⟩
  case isFalse =>
    split
    case h_1 l hl =>
      obtain ⟨hinv, hleft⟩ := hok l hl
      refine .inl ⟨?_, by simp [State.setMem], rfl⟩
      exact h.allocate (x := { s.mem m with
        start := l.start
        mmNode := some l.nodes
        fpfn := place.fpfn
        lpfn := placeEnd c place }) hinv hleft hm rfl rfl rfl rfl rfl rfl
    case h_2 r l hl =>
      refine .inr ⟨l.start, ?_⟩
      simp only [(herr r l hl).remove]
      rfl

/-- A region and its nodes go. -/
theorem State.Inv.release (h : s.Inv c) (hm : m ∈ s.live) {x : MemReg} (hx : x.mmNode = none)
    (hmem : s'.mem = Function.update s.mem m x) (hlive : s'.live = s.live.erase m)
    (hins : s'.inserted = s.inserted \ (s.nodes m).toFinset)
    (husage : s'.usage = s.usage - BitVec.ofNat 64 ((s.mem m).numPages * pageSize))
    (hvis : s'.visUsage =
      s.visUsage - BitVec.ofNat 64 ((s.nodes m).map fun n => n.visSize c).sum) : s'.Inv c := by
  have hother : ∀ m' ∈ s.live.erase m, s'.mem m' = s.mem m' := by
    intro m' hm'
    simp [hmem, Finset.ne_of_mem_erase hm']
  have hnodes : ∀ m' ∈ s.live.erase m, s'.nodes m' = s.nodes m' := fun m' hm' => by
    rw [State.nodes, State.nodes, hother m' hm']
  have hof : ∀ m' ∈ s.live.erase m, m' ∈ s.live := fun m' hm' => Finset.mem_of_mem_erase hm'
  have hsub : ∀ a b : ℕ, BitVec.ofNat 64 (a + b) - BitVec.ofNat 64 a = BitVec.ofNat 64 b := by
    intro a b
    rw [Nat.add_comm, BitVec.ofNat_add]
    exact BitVec.add_sub_cancel _ _
  refine ⟨fun m' => ?_, ?_, ?_, ?_, ?_, ?_, ?_, ?_, ?_⟩
  · rw [hlive, hmem]
    by_cases he : m' = m
    · subst he
      simp [hx]
    · simpa [he] using h.live m'
  · exact hins ▸ h.packed.mono Finset.sdiff_subset
  · have hdisj : Disjoint ((s.live.erase m).biUnion fun m' => (s.nodes m').toFinset)
        (s.nodes m).toFinset := by
      rw [Finset.disjoint_biUnion_left]
      exact fun m' hm' => h.apart (hof m' hm') hm (Finset.ne_of_mem_erase hm')
    have hsplit : s.inserted = (s.nodes m).toFinset ∪
        (s.live.erase m).biUnion fun m' => (s.nodes m').toFinset := by
      rw [h.inserted]
      nth_rewrite 1 [← Finset.insert_erase hm]
      rw [Finset.biUnion_insert]
    have hkept : ((s.live.erase m).biUnion fun m' => (s'.nodes m').toFinset) =
        (s.live.erase m).biUnion fun m' => (s.nodes m').toFinset :=
      Finset.biUnion_congr rfl fun m' hm' => by rw [hnodes m' hm']
    rw [hins, hsplit, hlive, hkept, Finset.union_sdiff_left]
    exact Finset.sdiff_eq_self_of_disjoint hdisj
  · rw [hlive]
    exact fun m' hm' => (hnodes m' hm').symm ▸ h.nodup m' (hof m' hm')
  · rw [hlive]
    intro a ha b hb hab
    simp only [Function.onFun, hnodes a ha, hnodes b hb]
    exact h.apart (hof a ha) (hof b hb) hab
  · rw [hlive]
    intro m' hm'
    rw [hnodes m' hm', hother m' hm']
    exact h.pages m' (hof m' hm')
  · rw [hlive]
    intro m' hm'
    rw [hnodes m' hm', hother m' hm']
    exact h.range m' (hof m' hm')
  · have hsum : ∑ m' ∈ s.live.erase m, (s'.mem m').numPages * pageSize =
        ∑ m' ∈ s.live.erase m, (s.mem m').numPages * pageSize :=
      Finset.sum_congr rfl fun m' hm' => by rw [hother m' hm']
    rw [husage, hlive, hsum, h.usage, ← Finset.add_sum_erase s.live _ hm, hsub]
  · have hsum : ∑ m' ∈ s.live.erase m, ((s'.nodes m').map fun n => n.visSize c).sum =
        ∑ m' ∈ s.live.erase m, ((s.nodes m').map fun n => n.visSize c).sum :=
      Finset.sum_congr rfl fun m' hm' => by rw [hnodes m' hm']
    rw [hvis, hlive, hsum, h.visUsage, ← Finset.add_sum_erase s.live _ hm, hsub]

/-- `gsgpu_vram_mgr_del` finds the nodes of its region, and no others. -/
theorem State.Inv.mgrDel (h : s.Inv c) (m : ℕ) : ∃ s', s.mgrDel c m = some s' ∧ s'.Inv c := by
  cases hn : (s.mem m).mmNode with
  | none => exact ⟨s, by simp only [State.mgrDel, hn], h⟩
  | some ns =>
    have hm : m ∈ s.live := (h.live m).mpr (by simp [hn])
    have hnodes : s.nodes m = ns := by simp [State.nodes, hn]
    have hpages : (ns.map Node.size).sum = (s.mem m).numPages := hnodes ▸ h.pages m hm
    have hpos : ∀ n ∈ ns, 0 < n.size := by
      intro n hmem
      refine h.packed.pos n ?_
      rw [h.inserted]
      exact Finset.mem_biUnion.mpr ⟨m, hm, by simpa [hnodes] using hmem⟩
    have hlt : (ns.map Node.size).sum < 2 ^ 32 := by
      have hle : (s.mem m).numPages ≤ ∑ m ∈ s.live, (s.mem m).numPages :=
        Finset.single_le_sum (f := fun m => (s.mem m).numPages) (fun _ _ => Nat.zero_le _) hm
      have hsize := h.sum_numPages_le
      have hbytes := c.bytes_lt
      have : c.size * 1 ≤ c.size * pageSize := Nat.mul_le_mul_left _ (by decide)
      omega
    refine ⟨{ s.setMem m { s.mem m with mmNode := none } with
      inserted := s.inserted \ ns.toFinset
      usage := s.usage - BitVec.ofNat 64 (0 + (ns.map fun n => n.size * pageSize).sum)
      visUsage := s.visUsage - BitVec.ofNat 64 (0 + (ns.map fun n => n.visSize c).sum)
      live := s.live.erase m }, ?_, ?_⟩
    · simp only [State.mgrDel, hn]
      rw [← hpages, delLoop_spec hpos hlt]
      rfl
    · refine h.release hm (x := { s.mem m with mmNode := none }) rfl rfl rfl ?_ ?_ ?_
      · rw [hnodes]
      · rw [List.sum_map_mul_right, hpages, Nat.zero_add]
      · simp only [hnodes, Nat.zero_add]

/-- A request of TTM, whatever comes of it. -/
theorem request_cases (h : s.Inv c) (hm : (s.mem m).mmNode = none) {numPages : ℕ}
    (hpos : 0 < numPages) (hlt : numPages * pageSize < 2 ^ 64) (pageAlignment : ℕ) (place : Place)
    (kvmalloc : Bool) (drm : DrmMm c.size) :
    let r := (s.setMem m { s.mem m with
      numPages := numPages
      pageAlignment := pageAlignment }).mgrNew c m place kvmalloc drm
    r.1.Inv c ∧ (((r.1.mem m).mmNode ≠ none ∧ r.2 = .ok ()) ∨
      ∃ x, x.mmNode = none ∧ r.1 = s.setMem m x) := by
  intro r
  have hset := h.setMem hm (x := { s.mem m with
    numPages := numPages
    pageAlignment := pageAlignment }) hm
  have hbound : numPages < 2 ^ 64 := by
    have : numPages * 1 ≤ numPages * pageSize := Nat.mul_le_mul_left _ (by decide)
    omega
  rcases mgrNew_cases hset (m := m) (by simpa [State.setMem] using hm)
    (by simpa [State.setMem] using hpos) (by simpa [State.setMem] using hbound) place kvmalloc
    drm with ⟨hinv, hnode⟩ | ⟨start, heq⟩
  · exact ⟨hinv, .inl hnode⟩
  · have hr : r.1 = s.setMem m { s.mem m with
        numPages := numPages
        pageAlignment := pageAlignment
        start := start } := by
      rw [show r.1 = _ from heq]
      simp [State.setMem]
    exact ⟨hr ▸ h.setMem hm hm, .inr ⟨_, by exact hm, hr⟩⟩

theorem State.Inv.step (h : s.Inv c) {e : Event c} (hs : s.step c e = some s') : s'.Inv c := by
  cases e with
  | new m numPages pageAlignment place kvmalloc drm =>
    simp only [State.step] at hs
    split at hs
    case isFalse => cases hs
    case isTrue hm =>
      obtain ⟨hnone, hpos, hlt, -⟩ := hm
      cases hs
      exact (request_cases h hnone hpos hlt pageAlignment place kvmalloc drm).1
  | del m =>
    obtain ⟨s₁, hs₁, hinv⟩ := h.mgrDel m
    cases hs₁.symm.trans hs
    exact hinv

/-- The counters are the bytes of the regions, whose nodes are disjoint, in their ranges and not
empty. -/
structure State.Accounted (c : Config) (s : State) : Prop where
  live : ∀ m, m ∈ s.live ↔ (s.mem m).mmNode ≠ none
  usage : s.usage.toNat = ∑ m ∈ s.live, (s.mem m).numPages * pageSize
  visUsage : s.visUsage.toNat =
    ∑ m ∈ s.live, ((s.nodes m).map fun n => n.bytesBelow c.visibleVramSize).sum
  pages : ∀ m ∈ s.live, ((s.nodes m).map Node.size).sum = (s.mem m).numPages ∧
    ∀ n ∈ s.nodes m, 0 < n.size
  range : ∀ m ∈ s.live, ∀ n ∈ s.nodes m,
    (s.mem m).fpfn ≤ n.start ∧ n.start + n.size ≤ (s.mem m).lpfn
  disjoint : ∀ m ∈ s.live, ∀ m' ∈ s.live, ∀ (i : Fin (s.nodes m).length)
    (j : Fin (s.nodes m').length), (m, i.val) ≠ (m', j.val) →
    Disjoint ((s.nodes m).get i).pages ((s.nodes m').get j).pages

/-- A request that fails leaves the nodes and the counters as they were, and its region without
nodes. -/
def State.FailsCleanly (c : Config) (s : State) : Prop :=
  ∀ m numPages pageAlignment place kvmalloc drm, (s.mem m).mmNode = none → 0 < numPages →
    numPages * pageSize < 2 ^ 64 →
    let r := (s.setMem m { s.mem m with
      numPages := numPages
      pageAlignment := pageAlignment }).mgrNew c m place kvmalloc drm
    r.2 ≠ .ok () ∨ (r.1.mem m).mmNode = none →
      r.1.inserted = s.inserted ∧ r.1.usage = s.usage ∧ r.1.visUsage = s.visUsage ∧
        (r.1.mem m).mmNode = none

theorem State.Inv.mem_inserted (h : s.Inv c) (hm : m ∈ s.live) (hn : n ∈ s.nodes m) :
    n ∈ s.inserted := by
  rw [h.inserted]
  exact Finset.mem_biUnion.mpr ⟨m, hm, List.mem_toFinset.mpr hn⟩

theorem State.Inv.accounted (h : s.Inv c) : s.Accounted c := by
  have hbytes := h.sum_bytes_lt
  have hvis := h.sum_visSize_le
  refine ⟨h.live, ?_, ?_, fun m hm => ⟨h.pages m hm, fun n hn => ?_⟩, fun m hm n hn => ?_, ?_⟩
  · rw [h.usage, BitVec.toNat_ofNat, Nat.mod_eq_of_lt (by omega)]
  · simp only [← visSize_eq_bytesBelow]
    rw [h.visUsage, BitVec.toNat_ofNat, Nat.mod_eq_of_lt (by omega)]
  · exact h.packed.pos n (h.mem_inserted hm hn)
  · exact ⟨(h.range m hm n hn).1, (h.range m hm n hn).2.1⟩
  · intro m hm m' hm' i j hij
    have hi : (s.nodes m).get i ∈ s.nodes m := List.get_mem _ i
    have hj : (s.nodes m').get j ∈ s.nodes m' := List.get_mem _ j
    refine h.packed.disjoint (h.mem_inserted hm hi) (h.mem_inserted hm' hj) fun heq => ?_
    by_cases he : m = m'
    · subst he
      have : i = j := (h.nodup m hm).injective_get heq
      exact hij (by rw [this])
    · have := Finset.disjoint_left.mp (h.apart hm hm' he) (List.mem_toFinset.mpr hi)
      exact this (List.mem_toFinset.mpr (heq ▸ hj))

theorem State.Inv.failsCleanly (h : s.Inv c) : s.FailsCleanly c := by
  intro m numPages pageAlignment place kvmalloc drm hm hpos hlt r hfail
  rcases (request_cases h hm hpos hlt pageAlignment place kvmalloc drm).2 with
    ⟨hnode, hok⟩ | ⟨x, hx, heq⟩
  · exact absurd hok (hfail.resolve_right hnode)
  · rw [show r.1 = _ from heq]
    exact ⟨rfl, rfl, rfl, by simpa [State.setMem] using hx⟩

theorem reachable_inv (h : State.Reachable c s) : s.Inv c := by
  refine Transition.Reach.invariant ?_ ?_ h
  · rintro _ rfl
    exact .initial
  · exact fun _ _ _ h _ hs => h.step hs

/-- In every state that allocations and frees lead to, the account is exact; a failed allocation
changes none of it, and a free finds exactly the nodes of its region. -/
theorem vram_accounting_exact (h : State.Reachable c s) :
    s.Accounted c ∧ s.FailsCleanly c ∧ ∀ m, (s.mgrDel c m).isSome := by
  have hinv := reachable_inv h
  refine ⟨hinv.accounted, hinv.failsCleanly, fun m => ?_⟩
  obtain ⟨s', hs', -⟩ := hinv.mgrDel m
  simp [hs']

/-- The 256 MiB of the driver, half of them visible, split after 16 pages. -/
def splitConfig : Config where
  size := 16384
  visibleVramSize := 128 * 1024 * 1024
  realVramSize := 256 * 1024 * 1024
  pageSplit := some 16
  size_eq := by decide
  realVramSize_le := by decide
  pageSplit_le := by simp

/-- A range allocator that always goes on behind the last node. -/
def behindLast (size : ℕ) : DrmMm size where
  find := fun nodes r =>
    let start := max r.fpfn (nodes.sup fun n => n.start + n.size)
    if start + r.size ≤ r.lpfn ∧ start + r.size ≤ size then .ok start else .error enospc
  sound := by
    intro nodes r start h
    simp only at h
    split at h
    case isFalse => cases h
    case isTrue hfits =>
      cases h
      refine ⟨le_max_left _ _, hfits.1, hfits.2, fun n hn => ?_⟩
      have hle : n.start + n.size ≤ nodes.sup fun n => n.start + n.size :=
        Finset.le_sup (f := fun n : Node => n.start + n.size) hn
      refine Finset.disjoint_left.mpr fun x hx hx' => ?_
      simp only [Node.pages, Finset.mem_Ico] at hx hx'
      omega

/-- A region of 20 pages is made of two nodes, and a second one fails after its first node for want
of room in its range. -/
theorem vram_accounting_exact_split :
    ∃ s, State.Reachable splitConfig s ∧ s.nodes 0 = [⟨0, 16⟩, ⟨16, 4⟩] ∧
      s.Accounted splitConfig := by
  have hrun : ∃ s, State.Reachable splitConfig s ∧ s.nodes 0 = [⟨0, 16⟩, ⟨16, 4⟩] :=
    ⟨_, .next (e := .new 1 40 1 ⟨0, 50, false, false⟩ true (behindLast _))
      (.next (e := .new 0 20 1 ⟨0, 0, false, false⟩ true (behindLast _)) (.start rfl) trivial rfl)
      trivial rfl, rfl⟩
  obtain ⟨s, hs, hnodes⟩ := hrun
  exact ⟨s, hs, hnodes, (vram_accounting_exact hs).1⟩

end Gsgpu.Vram
