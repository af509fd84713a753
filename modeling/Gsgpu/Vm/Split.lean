import Gsgpu.Vm.Writes
import Mathlib.Algebra.GroupWithZero.Nat

/-! The chunks into which `gsgpu_vm_bo_split_mapping` cuts a mapping, apart from what the calls for
them write: whether they tile the mapping, and which page of the BO each of their pages is. -/
namespace Gsgpu.Vm

/-- What one call of `gsgpu_vm_bo_update_mapping` is given. -/
structure Chunk where
  start : ℕ
  last : ℕ
  pages : Option (ℕ → ℕ)
  addr : ℕ

/-- How a walk stands after the rounds it was allowed. -/
inductive WalkEnd
  | done
  | pastNodes
  | running
deriving DecidableEq

/-- The second loop of `gsgpu_vm_bo_split_mapping`, when every call succeeds. -/
def splitWalk (maxEntries : ℕ → ℕ) (last : ℕ) : ℕ → ℕ → Source → ℕ → ℕ → List Chunk × WalkEnd
  | 0, _, _, _, _ => ([], .running)
  | fuel + 1, round, src, pfn, start =>
    match splitRound src pfn (maxEntries round) with
    | none => ([], .pastNodes)
    | some (pages, addr, max) =>
      let last' := min last (u64 (start + max + (2 ^ 64 - 1)))
      let (src, pfn) := splitNext src (u64 (pfn + (last' + 1 + 2 ^ 64 - start)))
      let next := u64 (last' + 1)
      if next = last + 1 then ([⟨start, last', pages, addr⟩], .done)
      else
        let (cs, stop) := splitWalk maxEntries last fuel (round + 1) src pfn next
        (⟨start, last', pages, addr⟩ :: cs, stop)

/-- The chunks of `gsgpu_vm_bo_split_mapping`. -/
def splitChunks (maxEntries : ℕ → ℕ) (fuel : ℕ) (src : Source) (m : Mapping) :
    List Chunk × WalkEnd :=
  let pfn := m.offset / pageSize
  match src with
  | .nodes nodes =>
    match seekNode nodes pfn with
    | none => ([], .pastNodes)
    | some (nodes, pfn) => splitWalk maxEntries m.last fuel 0 (.nodes nodes) pfn m.start
  | src => splitWalk maxEntries m.last fuel 0 src pfn m.start

/-- The calls of `gsgpu_vm_bo_update_mapping` for a list of chunks. -/
def writeChunks (flags : ℕ) (cs : List Chunk) (pte : ℕ → Pte) : ℕ → Pte :=
  cs.foldl (fun pte c => vmBoUpdateMapping pte c.pages c.start c.last flags c.addr) pte

/-- What the loop returns when `budget` calls succeed: a walk past the nodes has no result. -/
def walkResult (flags budget : ℕ) (pte : ℕ → Pte) (w : List Chunk × WalkEnd) :
    Option (Result (ℕ → Pte)) :=
  if budget < w.1.length then some ⟨false, 0, writeChunks flags (w.1.take budget) pte⟩
  else if w.2 = .done then some ⟨true, budget - w.1.length, writeChunks flags w.1 pte⟩
  else none

/-- The loop makes the calls of the walk until one fails. -/
theorem splitLoop_eq_walk (maxEntries : ℕ → ℕ) (last flags fuel round : ℕ) (src : Source)
    (pfn start budget : ℕ) (pte : ℕ → Pte) :
    splitLoop maxEntries last flags fuel round src pfn start budget pte =
      walkResult flags budget pte (splitWalk maxEntries last fuel round src pfn start) := by
  induction fuel generalizing round src pfn start budget pte with
  | zero => simp [splitLoop, splitWalk, walkResult]
  | succ fuel ih =>
    unfold splitLoop splitWalk
    cases hround : splitRound src pfn (maxEntries round) with
    | none => simp [walkResult]
    | some r =>
      obtain ⟨pages, addr, max⟩ := r
      dsimp only
      cases budget with
      | zero =>
        rw [if_pos rfl]
        split_ifs <;> simp [walkResult, writeChunks]
      | succ budget =>
        simp only [Nat.add_one_ne_zero, if_false, Nat.add_sub_cancel]
        split_ifs with hend
        · simp [walkResult, writeChunks]
        · rw [ih]
          simp [walkResult, writeChunks]

/-- `gsgpu_vm_bo_split_mapping` makes the calls of its chunks until one fails. -/
theorem vmBoSplitMapping_eq_chunks (env : UpdateEnv) (src : Source) (m : Mapping)
    (flags budget : ℕ) (pte : ℕ → Pte) : vmBoSplitMapping env src m flags budget pte =
      walkResult (maskWriteable m flags) budget pte
        (splitChunks (env.maxEntries m.start) env.fuel src m) := by
  unfold vmBoSplitMapping splitChunks
  cases src with
  | pages dma => exact splitLoop_eq_walk _ _ _ _ _ _ _ _ _ _
  | nodes nodes =>
    cases hseek : seekNode nodes (m.offset / pageSize) with
    | none => simp [walkResult, hseek]
    | some r =>
      simp only [hseek]
      exact splitLoop_eq_walk _ _ _ _ _ _ _ _ _ _
  | none => exact splitLoop_eq_walk _ _ _ _ _ _ _ _ _ _

/-- The chunks follow one another from `start` to `last`, and none of them is empty. -/
def Tiles (last : ℕ) : ℕ → List Chunk → Prop
  | start, [] => start = last + 1
  | start, c :: cs => c.start = start ∧ start ≤ c.last ∧ Tiles last (c.last + 1) cs

/-- The chunk shows page `i` of the source at `p`. With DMA pages, `addr` is an offset into them;
with neither pages nor nodes there is no address. -/
def Source.Gives (src : Source) (c : Chunk) (p i : ℕ) : Prop :=
  match src with
  | pages dma => c.pages = some dma ∧ (c.addr + (p - c.start) * gpuPageSize) / pageSize = i
  | nodes ns => c.pages = Option.none ∧ c.addr + (p - c.start) * gpuPageSize = nodeAddr ns i
  | none => c.pages = Option.none ∧ c.addr = 0

/-- The number of pages in a list of nodes. -/
def nodePages (nodes : List Node) : ℕ := (nodes.map Node.size).sum

/-- The source has at least `n` pages, as far as it says how many it has. -/
def Source.HasPages : Source → ℕ → Prop
  | nodes ns, n => n ≤ nodePages ns
  | _, _ => True

section Walk
variable {maxEntries : ℕ → ℕ} {last fuel round pfn start : ℕ} {src : Source}

/-- The pages of the chunk of one round. -/
theorem splitRound_gives {uninit addr max last' p : ℕ} {pages : Option (ℕ → ℕ)}
    (hat : src.At pfn) (h : splitRound src pfn uninit = some (pages, addr, max))
    (hp : start ≤ p ∧ p ≤ last') (hmax : last' + 1 ≤ start + max) :
    src.Gives ⟨start, last', pages, addr⟩ p (pfn + (p - start)) := by
  cases src with
  | pages dma =>
    cases h
    refine ⟨rfl, ?_⟩
    unfold pageSize gpuPageSize gpuPageShift
    dsimp only
    omega
  | nodes nodes =>
    cases nodes with
    | nil => cases h
    | cons n rest =>
      simp only [splitRound, Option.some.injEq, Prod.mk.injEq] at h
      obtain ⟨rfl, rfl, rfl⟩ := h
      have hin : pfn + (p - start) < n.size := by
        simp only [Source.At] at hat
        omega
      refine ⟨rfl, ?_⟩
      rw [nodeAddr, if_pos hin]
      unfold pageSize gpuPageSize gpuPageShift
      dsimp only
      omega
  | none =>
    cases h
    exact ⟨rfl, rfl⟩

/-- A source with pages left has a round to give. -/
theorem splitRound_isSome (uninit : ℕ) (hpages : src.HasPages (pfn + 1)) :
    ∃ r, splitRound src pfn uninit = some r := by
  cases src with
  | pages dma => exact ⟨_, rfl⟩
  | nodes nodes =>
    cases nodes with
    | nil => simp [Source.HasPages, nodePages] at hpages
    | cons n rest => exact ⟨_, rfl⟩
  | none => exact ⟨_, rfl⟩

variable (pfn) in
/-- What is left after the step to the next node. -/
theorem splitNext_hasPages {k : ℕ} (hpages : src.HasPages (pfn + k)) :
    (splitNext src pfn).1.HasPages ((splitNext src pfn).2 + k) := by
  cases src with
  | pages dma => trivial
  | nodes nodes =>
    cases nodes with
    | nil => exact hpages
    | cons n rest =>
      simp only [splitNext]
      simp only [Source.HasPages, nodePages, List.map_cons, List.sum_cons] at hpages ⊢
      split_ifs with hend
      · dsimp only
        omega
      · simpa [Source.HasPages, nodePages] using hpages
  | none => trivial

/-- What a later chunk gives is counted from where this round ended. -/
theorem splitNext_gives {uninit addr max cnt : ℕ} {pages : Option (ℕ → ℕ)} (hat : src.At pfn)
    (h : splitRound src pfn uninit = some (pages, addr, max)) (hsrc : src ≠ .none)
    (hcnt : cnt ≤ max) {c : Chunk} {p j : ℕ}
    (hg : (splitNext src (pfn + cnt)).1.Gives c p ((splitNext src (pfn + cnt)).2 + j)) :
    src.Gives c p (pfn + cnt + j) := by
  have haddr := (splitNext_addr hat h hsrc hcnt).2 j
  cases src with
  | pages dma => exact hg
  | nodes nodes =>
    cases nodes with
    | nil => cases h
    | cons n rest =>
      simp only [splitNext] at hg haddr
      split_ifs at hg haddr with hend
      · exact ⟨hg.1, hg.2.trans haddr⟩
      · exact hg
  | none => exact absurd rfl hsrc

variable (maxEntries round pfn) in
/-- With DMA pages or nodes the walk gets to the end, and its chunks tile what is left of the
mapping and give the right pages. -/
theorem splitWalk_tiles (hsrc : src ≠ .none) (hlast : last < 2 ^ 50) (hstart : start ≤ last)
    (hat : src.At pfn) (hpfn : pfn + (last + 1 - start) < 2 ^ 63)
    (hpages : src.HasPages (pfn + (last + 1 - start))) (hfuel : last + 1 - start ≤ fuel) :
    (splitWalk maxEntries last fuel round src pfn start).2 = .done ∧
      Tiles last start (splitWalk maxEntries last fuel round src pfn start).1 ∧
      ∀ c ∈ (splitWalk maxEntries last fuel round src pfn start).1, start ≤ c.start ∧
        ∀ p, c.start ≤ p → p ≤ c.last → src.Gives c p (pfn + (p - start)) := by
  induction fuel generalizing round src pfn start with
  | zero => omega
  | succ fuel ih =>
    have hone : src.HasPages (pfn + 1) := by
      cases src with
      | pages dma => trivial
      | nodes nodes =>
        simp only [Source.HasPages] at hpages ⊢
        omega
      | none => trivial
    obtain ⟨⟨pages, addr, max⟩, hround⟩ := splitRound_isSome (maxEntries round) hone
    have hmax := splitRound_max_lt (fun hs => absurd hs hsrc) hround
    have hpos := splitRound_max_pos hat hsrc hround
    unfold splitWalk
    simp only [hround]
    generalize hl : min last (u64 (start + max + (2 ^ 64 - 1))) = last'
    obtain ⟨hle, -, hnext⟩ := splitLast_bounds hmax hlast (by omega) hl
    have hbounds : start ≤ last' ∧ last' + 1 ≤ start + max := by
      unfold u64 at hl
      omega
    have hfirst : ∀ p, start ≤ p → p ≤ last' →
        src.Gives ⟨start, last', pages, addr⟩ p (pfn + (p - start)) :=
      fun p hs hp => splitRound_gives hat hround ⟨hs, hp⟩ hbounds.2
    rw [hnext]
    split_ifs with hend
    · refine ⟨rfl, ⟨rfl, hbounds.1, hend⟩, ?_⟩
      intro c hc
      rw [List.mem_singleton] at hc
      subst hc
      exact ⟨le_rfl, hfirst⟩
    · have hstep : u64 (pfn + (last' + 1 + 2 ^ 64 - start)) = pfn + (last' + 1 - start) := by
        unfold u64
        omega
      have hcnt : last' + 1 - start ≤ max := by omega
      obtain ⟨hat', -⟩ := splitNext_addr hat hround hsrc hcnt
      have hsplit : pfn + (last + 1 - start) =
          pfn + (last' + 1 - start) + (last + 1 - (last' + 1)) := by omega
      have hpages' := splitNext_hasPages (pfn + (last' + 1 - start)) (hsplit ▸ hpages)
      have hpfn' := splitNext_le src (pfn + (last' + 1 - start))
      have hrest := ih (round + 1) _ (fun hs => hsrc ((splitNext_eq_none_iff _).mp hs))
        (by omega) hat' (by omega) hpages' (by omega)
      rw [hstep]
      refine ⟨hrest.1, ⟨rfl, hbounds.1, hrest.2.1⟩, ?_⟩
      intro c hc
      rcases List.mem_cons.mp hc with rfl | hc
      · exact ⟨le_rfl, hfirst⟩
      · obtain ⟨hcs, hgives⟩ := hrest.2.2 c hc
        refine ⟨by omega, fun p hs hp => ?_⟩
        have hj : pfn + (p - start) = pfn + (last' + 1 - start) + (p - (last' + 1)) := by omega
        rw [hj]
        exact splitNext_gives hat hround hsrc hcnt (hgives p hs hp)

end Walk

/-- The first loop finds the node of a page that the nodes have. -/
theorem seekNode_isSome {nodes : List Node} {pfn : ℕ} (h : pfn < nodePages nodes) :
    ∃ ns pfn', seekNode nodes pfn = some (ns, pfn') ∧
      nodePages ns + pfn = nodePages nodes + pfn' := by
  induction nodes generalizing pfn with
  | nil => simp [nodePages] at h
  | cons n rest ih =>
    simp only [nodePages, List.map_cons, List.sum_cons] at h ih ⊢
    unfold seekNode
    split_ifs with hsize
    · obtain ⟨ns, pfn', hseek, hsum⟩ := @ih (pfn - n.size) (by omega)
      exact ⟨ns, pfn', hseek, by omega⟩
    · exact ⟨_, _, rfl, by simp⟩

/-- A mapping inside a BO of `size` bytes. -/
structure Mapping.Inside (m : Mapping) (size : ℕ) : Prop where
  order : m.start ≤ m.last
  last_lt : m.last < 2 ^ 50
  fits : m.offset + (m.last + 1 - m.start) * gpuPageSize ≤ size

/-- The sizes of the nodes sum to the size of the BO. -/
def Source.HasSize : Source → ℕ → Prop
  | nodes ns, size => nodePages ns * pageSize = size
  | _, _ => True

/-- The page of the BO that `pfn` shows. -/
def Mapping.boPage (m : Mapping) (pfn : ℕ) : ℕ :=
  (m.offset + (pfn - m.start) * gpuPageSize) / pageSize

theorem Mapping.boPage_eq (m : Mapping) (pfn : ℕ) :
    m.boPage pfn = m.offset / pageSize + (pfn - m.start) := by
  have hpage : gpuPageSize = pageSize := rfl
  unfold Mapping.boPage
  rw [hpage]
  apply Nat.add_mul_div_right
  decide

/-- The walk ends, its chunks tile the mapping, and each of their pages is the page of the BO that
the mapping shows there. -/
structure SplitsExactly (maxEntries : ℕ → ℕ) (fuel : ℕ) (src : Source) (m : Mapping) : Prop where
  stops : (splitChunks maxEntries fuel src m).2 = .done
  tiles : Tiles m.last m.start (splitChunks maxEntries fuel src m).1
  gives : ∀ c ∈ (splitChunks maxEntries fuel src m).1, ∀ p, c.start ≤ p → p ≤ c.last →
    src.Gives c p (m.boPage p)

section Exactly
variable {maxEntries : ℕ → ℕ} {src : Source} {m : Mapping} {size : ℕ}

theorem Mapping.Inside.pages_le (hin : m.Inside size) :
    m.offset / pageSize + (m.last + 1 - m.start) ≤ size / pageSize := by
  have h := Nat.div_le_div_right (c := pageSize) hin.fits
  rwa [show gpuPageSize = pageSize from rfl, Nat.add_mul_div_right _ _ (by decide)] at h

variable (maxEntries) in
/-- With DMA pages or nodes, whatever the uninitialised variable holds. -/
theorem splitsExactly_of_source (hin : m.Inside size) (hsize : size < 2 ^ 64)
    (hhas : src.HasSize size) (hsrc : src ≠ .none) :
    SplitsExactly maxEntries (m.last + 1 - m.start) src m := by
  have hpages := hin.pages_le
  have hlt : size / pageSize < 2 ^ 50 := by
    rw [show pageSize = 16384 from rfl]
    omega
  have horder := hin.order
  cases src with
  | pages dma =>
    obtain ⟨hstop, htiles, hgives⟩ := splitWalk_tiles maxEntries 0 (m.offset / pageSize)
      hsrc hin.last_lt hin.order trivial (by omega) trivial le_rfl
    refine ⟨hstop, htiles, fun c hc p hs hp => ?_⟩
    rw [m.boPage_eq]
    exact (hgives c hc).2 p hs hp
  | nodes nodes =>
    have hnodes : nodePages nodes = size / pageSize := by
      rw [← show nodePages nodes * pageSize = size from hhas, Nat.mul_div_cancel _ (by decide)]
    have hfirst : m.offset / pageSize < nodePages nodes := by omega
    obtain ⟨ns, pfn, hseek, hsum⟩ := seekNode_isSome hfirst
    obtain ⟨hat, hle, haddr⟩ := seekNode_spec hseek
    obtain ⟨hstop, htiles, hgives⟩ := splitWalk_tiles maxEntries 0 pfn
      (by simp) hin.last_lt hin.order hat (by omega)
      (show pfn + (m.last + 1 - m.start) ≤ nodePages ns by omega) le_rfl
    have hchunks : splitChunks maxEntries (m.last + 1 - m.start) (.nodes nodes) m =
        splitWalk maxEntries m.last (m.last + 1 - m.start) 0 (.nodes ns) pfn m.start := by
      simp [splitChunks, hseek]
    rw [← hchunks] at hstop htiles hgives
    refine ⟨hstop, htiles, fun c hc p hs hp => ?_⟩
    have hg := (hgives c hc).2 p hs hp
    rw [m.boPage_eq]
    exact ⟨hg.1, hg.2.trans (haddr _)⟩
  | none => exact absurd rfl hsrc

/-- With neither, a mapping of the very first page ends the walk by itself. -/
theorem splitsExactly_first (hs : m.start = 0) (hl : m.last = 0) :
    SplitsExactly maxEntries 1 .none m := by
  have hchunks : splitChunks maxEntries 1 .none m = ([⟨0, 0, none, 0⟩], .done) := by
    simp [splitChunks, splitWalk, splitRound, hs, hl, u64]
  constructor
  · rw [hchunks]
  · rw [hchunks, hs, hl]
    exact ⟨rfl, le_rfl, rfl⟩
  · rw [hchunks]
    intro c hc p _ _
    rw [List.mem_singleton] at hc
    subst hc
    exact ⟨rfl, rfl⟩

/-- A round that finds 0 in the uninitialised `max_entries` makes an empty chunk. -/
theorem not_tiles_of_zero {last start fuel round : ℕ} (hpos : 0 < start) (hlt : start < 2 ^ 50)
    (hzero : maxEntries round = 0)
    (hstop : (splitWalk maxEntries last fuel round .none pfn start).2 = .done) :
    ¬ Tiles last start (splitWalk maxEntries last fuel round .none pfn start).1 := by
  cases fuel with
  | zero => cases hstop
  | succ fuel =>
    have hend : min last (u64 (start + 0 + (2 ^ 64 - 1))) < start := by
      unfold u64
      omega
    unfold splitWalk
    simp only [splitRound, hzero]
    split_ifs
    · exact fun ht => absurd ht.2.1 hend.not_ge
    · exact fun ht => absurd ht.2.1 hend.not_ge

/-- Values of the uninitialised variable that make an empty chunk. -/
def emptyChunk (start round : ℕ) : ℕ := if start = 0 ∧ round = 0 then 1 else 0

theorem emptyChunk_lt (start round : ℕ) : emptyChunk start round < 2 ^ 64 := by
  unfold emptyChunk
  split_ifs <;> decide

theorem not_splitsExactly (horder : m.start ≤ m.last) (hlast : m.last < 2 ^ 50)
    (hne : ¬ (m.start = 0 ∧ m.last = 0)) (fuel : ℕ) :
    ¬ SplitsExactly (emptyChunk m.start) fuel .none m := by
  intro h
  have hstop := h.stops
  have htiles := h.tiles
  by_cases hs : m.start = 0
  · -- the first round takes one page, and the second none
    cases fuel with
    | zero => cases hstop
    | succ fuel =>
      have hend : min m.last (u64 (0 + 1 + (2 ^ 64 - 1))) = 0 := by simp [u64]
      have hmore : u64 (0 + 1) ≠ m.last + 1 := by
        unfold u64
        omega
      simp only [splitChunks, hs, splitWalk, splitRound, emptyChunk, and_self, if_true, hend,
        if_neg hmore] at hstop htiles
      exact not_tiles_of_zero (by decide) (by decide) rfl hstop htiles.2.2
  · exact not_tiles_of_zero (Nat.pos_of_ne_zero hs) (by omega) (by simp [emptyChunk, hs])
      hstop htiles

/-- `gsgpu_vm_bo_split_mapping` covers its mapping exactly and ends, whatever its uninitialised
variables hold, exactly when it is given DMA pages or nodes or the mapping is of the very first
page: without either, `max_entries` is not set. -/
theorem splitMapping_exact_iff (hin : m.Inside size) (hsize : size < 2 ^ 64)
    (hhas : src.HasSize size) :
    (∀ uninit : ℕ → ℕ, (∀ i, uninit i < 2 ^ 64) → ∃ fuel, SplitsExactly uninit fuel src m) ↔
      src ≠ .none ∨ (m.start = 0 ∧ m.last = 0) := by
  constructor
  · intro hall
    by_contra hne
    push Not at hne
    obtain ⟨hsrc, hne⟩ := hne
    subst hsrc
    obtain ⟨fuel, hexact⟩ := hall _ (emptyChunk_lt m.start)
    exact not_splitsExactly hin.order hin.last_lt (fun h => hne h.1 h.2) fuel hexact
  · intro hcase uninit _
    by_cases hsrc : src = .none
    · subst hsrc
      obtain ⟨hs, hl⟩ := hcase.resolve_left (by simp)
      exact ⟨1, splitsExactly_first hs hl⟩
    · exact ⟨_, splitsExactly_of_source _ hin hsize hhas hsrc⟩

end Exactly

/-- A mapping of two pages, as of a PRT range. -/
def twoPageMapping : Mapping := ⟨none, 1, 2, 0, 0⟩

theorem twoPageMapping_inside : twoPageMapping.Inside 0x8000 := ⟨by decide, by decide, by decide⟩

/-- Without pages and nodes the walk over these two pages may take none of them. -/
theorem twoPages_not_split : ¬ ∀ uninit : ℕ → ℕ, (∀ i, uninit i < 2 ^ 64) →
    ∃ fuel, SplitsExactly uninit fuel .none twoPageMapping := by
  intro hall
  obtain ⟨fuel, hexact⟩ := hall _ (emptyChunk_lt twoPageMapping.start)
  exact not_splitsExactly twoPageMapping_inside.order twoPageMapping_inside.last_lt (by decide) fuel hexact

theorem splitMapping_exact_twoPages :
    (∀ uninit : ℕ → ℕ, (∀ i, uninit i < 2 ^ 64) →
      ∃ fuel, SplitsExactly uninit fuel (.nodes [⟨0, 2, by decide, by decide⟩]) twoPageMapping) ↔
    Source.nodes [⟨0, 2, by decide, by decide⟩] ≠ .none ∨
      (twoPageMapping.start = 0 ∧ twoPageMapping.last = 0) :=
  splitMapping_exact_iff twoPageMapping_inside (by decide) (by
    show nodePages _ * pageSize = 0x8000
    decide)

end Gsgpu.Vm
