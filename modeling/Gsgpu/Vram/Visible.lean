import Gsgpu.Vram.Accounting

/-! Whether the CPU can see a region: the virtual start that `gsgpu_vram_mgr_new` gives a region of
scattered nodes, and the checks that rely on it. -/
namespace Gsgpu.Vram

variable {c : Config} {s s' : State} {m : ℕ} {n : Node}

/-! ### The code -/

/-- `struct ttm_bus_placement`. -/
structure Bus where
  addr : Option ℕ
  offset : ℕ
  size : ℕ
  base : ℕ
  isIomem : Bool

/-- The addresses of the aperture in `struct gsgpu_device`. -/
structure Aperture where
  base : ℕ
  kaddr : Option ℕ

/-- The offset and the size in bytes reach over the visible VRAM. -/
def beyondVisible (c : Config) (x : MemReg) : Bool :=
  c.visibleVramSize < (x.start * pageSize + x.numPages * pageSize) % 2 ^ 64

/-- `gsgpu_ttm_io_mem_reserve` for a region in VRAM. -/
def ioMemReserve (c : Config) (a : Aperture) (x : MemReg) : Except Errno Bus :=
  if beyondVisible c x then .error .einval
  else .ok {
    addr := match a.kaddr, (x.mmNode.getD []).head? with
      | some kaddr, some n => if n.size = x.numPages then some (kaddr + x.start * pageSize) else none
      | _, _ => none
    offset := x.start * pageSize
    size := x.numPages * pageSize
    base := a.base
    isIomem := true }

/-- What `gsgpu_bo_fault_reserve_notify` did: the BO stayed, or it was validated. -/
inductive Fault
  | stays
  | moves
deriving DecidableEq

/-- `gsgpu_bo_fault_reserve_notify` for a BO in VRAM; `validate` is the outcome of
`ttm_bo_validate`, with the new region if that is in VRAM. -/
def boFaultReserveNotify (c : Config) (pinned : Bool) (validate : Except Errno (Option MemReg))
    (x : MemReg) : Except Errno Fault :=
  if !beyondVisible c x then .ok .stays
  else if pinned then .error .einval
  else match validate with
    | .error r => .error r
    | .ok none => .ok .moves
    | .ok (some x') => if beyondVisible c x' then .error .einval else .ok .moves

/-! ### The virtual start -/

/-- The furthest end of a node, less the pages of the region. -/
def virtualStart (numPages : ℕ) (nodes : List Node) : ℕ :=
  (nodes.map fun n => n.start + n.size - numPages).foldl max 0

theorem foldl_max_le {l : List ℕ} {a b : ℕ} : l.foldl max a ≤ b ↔ a ≤ b ∧ ∀ x ∈ l, x ≤ b := by
  induction l generalizing a with
  | nil => simp
  | cons y l ih => rw [List.foldl_cons, ih, max_le_iff, List.forall_mem_cons, and_assoc]

theorem virtualStart_le {numPages b : ℕ} {nodes : List Node} :
    virtualStart numPages nodes ≤ b ↔ ∀ n ∈ nodes, n.start + n.size ≤ b + numPages := by
  unfold virtualStart
  rw [foldl_max_le, List.forall_mem_map]
  simp only [Nat.zero_le, true_and, Nat.sub_le_iff_le_add]

/-- The clamp at 0 is right because nodes without a common page that all end below `V` have no more
than `V` pages. -/
theorem virtualStart_add_le {numPages V : ℕ} {nodes : List Node} (hp : Packed nodes.toFinset)
    (hnodup : nodes.Nodup) (hsum : (nodes.map Node.size).sum = numPages) :
    virtualStart numPages nodes + numPages ≤ V ↔ ∀ n ∈ nodes, n.start + n.size ≤ V := by
  constructor
  · intro h
    have hle : virtualStart numPages nodes ≤ V - numPages := by omega
    rw [virtualStart_le] at hle
    intro n hn
    have := hle n hn
    omega
  · intro h
    have hcount : numPages ≤ V := by
      have hle : _ ≤ V := hp.sum_le fun n hn => h n (List.mem_toFinset.mp hn)
      rw [← hsum]
      exact (List.sum_toFinset Node.size hnodup).symm.le.trans hle
    have hle : virtualStart numPages nodes ≤ V - numPages := by
      rw [virtualStart_le]
      intro n hn
      have := h n hn
      omega
    omega

/-- The loop keeps `mem->start` at the virtual start of the nodes so far. -/
theorem newLoop_start (drm : DrmMm c.size) {x : MemReg} {place : Place} {lpfn d k : ℕ} {l l' : Loop}
    (h : l.start = virtualStart x.numPages l.nodes)
    (hl : newLoop c drm x place lpfn d k l = .ok l') :
    l'.start = virtualStart x.numPages l'.nodes := by
  induction k generalizing l with
  | zero =>
    cases hl
    exact h
  | succ k ih =>
    simp only [newLoop] at hl
    split at hl
    case h_1 => cases hl
    case h_2 start _ =>
      refine ih ?_ hl
      simp only [Loop.add, h, virtualStart, List.map_append, List.map_cons, List.map_nil,
        List.foldl_append, List.foldl_cons, List.foldl_nil]
      congr 1
      split_ifs <;> omega

/-! ### Every region of a reachable state -/

/-- The bytes of nodes that the CPU can see. -/
def bytesVisible (c : Config) (nodes : List Node) : ℕ :=
  (nodes.map fun n => n.bytesBelow c.visibleVramSize).sum

/-- A request gave the region its nodes, and added so many bytes to `mgr->vis_usage`. -/
def Contributed (c : Config) (x : MemReg) (bytes : ℕ) : Prop :=
  ∃ s s' m numPages pageAlignment place kvmalloc drm, State.Reachable c s ∧
    s.step c (.new m numPages pageAlignment place kvmalloc drm) = some s' ∧ s'.mem m = x ∧
    s'.visUsage = s.visUsage + BitVec.ofNat 64 bytes

/-- What is known of each region with nodes. -/
def State.Started (c : Config) (s : State) : Prop := ∀ m ∈ s.live,
  (s.mem m).start = virtualStart (s.mem m).numPages (s.nodes m) ∧
    Contributed c (s.mem m) (bytesVisible c (s.nodes m))

/-- After a request every other region is as before, and the region of the request has nodes from
the loop or none. -/
theorem State.Inv.mgrNew_mem (h : s.Inv c) (hm : (s.mem m).mmNode = none)
    (hpos : 0 < (s.mem m).numPages) (hlt : (s.mem m).numPages < 2 ^ 64) (place : Place)
    (kvmalloc : Bool) (drm : DrmMm c.size) {r : State × Except Errno Unit}
    (hr : s.mgrNew c m place kvmalloc drm = r) :
    (∀ m' ∈ r.1.live, m' ≠ m → m' ∈ s.live ∧ r.1.mem m' = s.mem m') ∧
    (m ∈ r.1.live →
      (r.1.mem m).start = virtualStart (r.1.mem m).numPages (r.1.nodes m) ∧
      r.1.visUsage = s.visUsage + BitVec.ofNat 64 (bytesVisible c (r.1.nodes m))) := by
  have hnot : m ∉ s.live := fun hl => (h.live m).mp hl hm
  subst hr
  simp only [State.mgrNew]
  split
  case isTrue => exact ⟨fun m' hm' _ => ⟨hm', rfl⟩, fun hl => absurd hl hnot⟩
  case isFalse =>
    split
    case h_1 l hl =>
      constructor
      · intro m' hm' hne
        exact ⟨Finset.mem_of_mem_insert_of_ne hm' hne, by simp [State.setMem, hne]⟩
      · intro _
        have hloop := ((h.newLoop_spec hpos hlt place drm).1 l hl).1
        have hstart := newLoop_start drm (x := s.mem m) (by rfl) hl
        simp only [State.setMem, State.nodes, Function.update_self, Option.getD_some, hstart,
          hloop.visUsage, bytesVisible, visSize_eq_bytesBelow, and_self]
    case h_2 r l hl =>
      constructor
      · intro m' hm' hne
        exact ⟨hm', by simp [State.setMem, hne]⟩
      · intro hl
        exact absurd hl hnot

theorem State.Started.step (hreach : State.Reachable c s) (h : s.Started c) {e : Event c}
    (hs : s.step c e = some s') : s'.Started c := by
  have hinv := reachable_inv hreach
  cases e with
  | new m numPages pageAlignment place kvmalloc drm =>
    have hstep := hs
    simp only [State.step] at hs
    split at hs
    case isFalse => cases hs
    case isTrue hreq =>
      obtain ⟨hnone, hpos, hlt, -⟩ := hreq
      have hbound : numPages < 2 ^ 64 := by
        have : numPages * 1 ≤ numPages * pageSize := Nat.mul_le_mul_left _ (by decide)
        omega
      have hset := hinv.setMem hnone (x := { s.mem m with
        numPages := numPages
        pageAlignment := pageAlignment }) hnone
      obtain ⟨hother, hself⟩ := hset.mgrNew_mem (m := m) (by simpa [State.setMem] using hnone)
        (by simpa [State.setMem] using hpos) (by simpa [State.setMem] using hbound) place kvmalloc
        drm rfl
      rw [Option.some.inj hs] at hother hself
      intro m' hm'
      by_cases hne : m' = m
      · subst hne
        obtain ⟨hstart, hvis⟩ := hself hm'
        exact ⟨hstart, s, s', m', _, _, _, _, _, hreach, hstep, rfl, hvis⟩
      · obtain ⟨hlive, hmem⟩ := hother m' hm' hne
        have hsame : s'.mem m' = s.mem m' := by
          rw [hmem]
          simp [State.setMem, hne]
        have hnodes : s'.nodes m' = s.nodes m' := by rw [State.nodes, State.nodes, hsame]
        rw [hsame, hnodes]
        exact h m' hlive
  | del m =>
    intro m' hm'
    simp only [State.step, State.mgrDel] at hs
    split at hs
    case h_1 =>
      cases hs
      exact h m' hm'
    case h_2 nodes _ =>
      obtain ⟨l, -, hl⟩ := Option.bind_eq_some_iff.mp hs
      cases hl
      obtain ⟨hne, hlive⟩ := Finset.mem_erase.mp hm'
      have hold := h m' hlive
      simpa only [State.nodes, State.setMem, Function.update_of_ne hne] using hold

theorem reachable_started (h : State.Reachable c s) : s.Started c := by
  refine (Transition.Reach.invariant (I := fun s => State.Reachable c s ∧ s.Started c) ?_ ?_ h).2
  · intro s hs
    refine ⟨.start hs, fun m hm => ?_⟩
    subst hs
    simp [State.initial] at hm
  · intro s e s' hboth hgood hs
    exact ⟨hboth.1.next hgood hs, hboth.2.step hboth.1 hs⟩

/-! ### The checks -/

/-- The CPU can see every byte of the nodes. -/
def AllVisible (c : Config) (nodes : List Node) : Prop :=
  ∀ n ∈ nodes, ∀ a, n.start * pageSize ≤ a → a < (n.start + n.size) * pageSize →
    a < c.visibleVramSize

section Region
variable (h : s.Inv c) (hm : m ∈ s.live)
include h hm

theorem State.Inv.packed_nodes : Packed (s.nodes m).toFinset :=
  h.packed.mono fun _ hn => h.mem_inserted hm (List.mem_toFinset.mp hn)

theorem State.Inv.node_pos (hn : n ∈ s.nodes m) : 0 < n.size := h.packed.pos n (h.mem_inserted hm hn)

theorem State.Inv.numPages_le : (s.mem m).numPages ≤ c.size :=
  (Finset.single_le_sum (f := fun m => (s.mem m).numPages) (fun _ _ => Nat.zero_le _) hm).trans
    h.sum_numPages_le

/-- The CPU can see all bytes if it can see the end of every node. -/
theorem State.Inv.allVisible_iff : AllVisible c (s.nodes m) ↔
    ∀ n ∈ s.nodes m, (n.start + n.size) * pageSize ≤ c.visibleVramSize := by
  constructor
  · intro hall n hn
    have hpos := h.node_pos hm hn
    have hpage : pageSize = 16384 := rfl
    have hlast := hall n hn ((n.start + n.size) * pageSize - 1)
    rw [hpage] at hlast ⊢
    omega
  · intro hall n hn a _ ha
    exact ha.trans_le (hall n hn)

end Region

/-- The check of both functions. -/
theorem beyondVisible_iff (h : State.Reachable c s) (hm : m ∈ s.live) :
    beyondVisible c (s.mem m) = false ↔ AllVisible c (s.nodes m) := by
  have hinv := reachable_inv h
  have hstart := (reachable_started h m hm).1
  have hsize := hinv.numPages_le hm
  have hbytes := c.bytes_lt
  have hvs : virtualStart (s.mem m).numPages (s.nodes m) ≤ c.size := by
    rw [virtualStart_le]
    intro n hn
    exact ((hinv.range m hm n hn).2.2).trans (Nat.le_add_right _ _)
  have hiff := virtualStart_add_le (V := c.visibleVramSize / pageSize) (hinv.packed_nodes hm)
    (hinv.nodup m hm) (hinv.pages m hm)
  rw [← hstart] at hiff hvs
  have hlt : (s.mem m).start * pageSize + (s.mem m).numPages * pageSize < 2 ^ 64 := by
    have hs := Nat.mul_le_mul_right pageSize hvs
    have hn := Nat.mul_le_mul_right pageSize hsize
    omega
  rw [hinv.allVisible_iff hm]
  unfold beyondVisible
  rw [Nat.mod_eq_of_lt hlt, decide_eq_false_iff_not, not_lt, ← Nat.add_mul,
    ← Nat.le_div_iff_mul_le (by decide), hiff]
  simp only [Nat.le_div_iff_mul_le (show 0 < pageSize by decide)]

/-- The virtual start of a region is right for every limit in pages: it and the pages of the region
stay below the limit exactly when every node does. So both checks accept the regions of which the
CPU can see every byte, and no others. -/
theorem virtualStart_decides (h : State.Reachable c s) (hm : m ∈ s.live) :
    (∀ V, (s.mem m).start + (s.mem m).numPages ≤ V ↔ ∀ n ∈ s.nodes m, n.start + n.size ≤ V) ∧
    (∀ a, (∃ bus, ioMemReserve c a (s.mem m) = .ok bus) ↔ AllVisible c (s.nodes m)) ∧
    ∀ pinned validate, boFaultReserveNotify c pinned validate (s.mem m) = .ok .stays ↔
      AllVisible c (s.nodes m) := by
  have hinv := reachable_inv h
  refine ⟨fun V => ?_, fun a => ?_, fun pinned validate => ?_⟩
  · rw [(reachable_started h m hm).1]
    exact virtualStart_add_le (hinv.packed_nodes hm) (hinv.nodup m hm) (hinv.pages m hm)
  · rw [← beyondVisible_iff h hm]
    unfold ioMemReserve
    cases beyondVisible c (s.mem m) <;> simp
  · rw [← beyondVisible_iff h hm]
    unfold boFaultReserveNotify
    cases beyondVisible c (s.mem m) with
    | false => simp
    | true =>
      cases pinned with
      | true => simp
      | false =>
        cases validate with
        | error r => simp
        | ok x =>
          cases x with
          | none => simp
          | some x => cases hx : beyondVisible c x <;> simp [hx]

/-- A region of two nodes that lie at the start of VRAM. -/
theorem virtualStart_decides_split :
    ∃ s, State.Reachable splitConfig s ∧ 0 ∈ s.live ∧ s.nodes 0 = [⟨0, 16⟩, ⟨16, 4⟩] ∧
      ((∀ V, (s.mem 0).start + (s.mem 0).numPages ≤ V ↔ ∀ n ∈ s.nodes 0, n.start + n.size ≤ V) ∧
      (∀ a, (∃ bus, ioMemReserve splitConfig a (s.mem 0) = .ok bus) ↔
        AllVisible splitConfig (s.nodes 0)) ∧
      ∀ pinned validate, boFaultReserveNotify splitConfig pinned validate (s.mem 0) = .ok .stays ↔
        AllVisible splitConfig (s.nodes 0)) := by
  have hrun : ∃ s, State.Reachable splitConfig s ∧ 0 ∈ s.live ∧ s.nodes 0 = [⟨0, 16⟩, ⟨16, 4⟩] :=
    ⟨_, .next (e := .new 0 20 1 ⟨0, 0, false, false⟩ true (behindLast _)) (.start rfl) trivial rfl,
      Finset.mem_insert_self _ _, rfl⟩
  obtain ⟨s, hs, hlive, hnodes⟩ := hrun
  exact ⟨s, hs, hlive, hnodes, virtualStart_decides hs hlive⟩

end Gsgpu.Vram
