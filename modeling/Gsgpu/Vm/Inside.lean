import Gsgpu.Vm.Split

/-! What the checks on a new mapping are good for: that it lies inside its BO, and that its updates
stay inside the BO's nodes and pages. -/
namespace Gsgpu.Vm

/-- `gsgpu_vm_bo_map` or `gsgpu_vm_bo_replace_map` has returned 0 and left `s'`. -/
def Accepts (s : State) (k : Key) (saddr offset size flags : ℕ) (s' : State) : Prop :=
  (∃ allocOk, vmBoMap allocOk s k saddr offset size flags = (.ok (), s')) ∨
  ∃ allocOk beforeOk afterOk,
    vmBoReplaceMap allocOk beforeOk afterOk s k saddr offset size flags = (.ok (), s')

/-- However far its loop has run, an update of the mapping has not left the nodes of the BO, nor
read DMA pages that the BO does not have. -/
def StaysInside (size : ℕ) (src : Source) (m : Mapping) : Prop :=
  ∀ (uninit : ℕ → ℕ) (fuel : ℕ), (splitChunks uninit fuel src m).2 ≠ .pastNodes ∧
    ∀ c ∈ (splitChunks uninit fuel src m).1, c.pages.isSome →
      ∀ p, c.start ≤ p → p ≤ c.last →
        (c.addr + (p - c.start) * gpuPageSize) / pageSize < size / pageSize

/-- The mapping lies inside a BO of `size` bytes, does not wrap around, and its updates stay inside
whatever the BO is made of. -/
structure LiesInside (size : ℕ) (saddr len : ℕ) (m : Mapping) : Prop where
  fits : m.offset + len ≤ size
  noWrap : saddr + len ≤ 2 ^ 64
  ordered : m.start ≤ m.last
  updates : ∀ src : Source, src.HasSize size → StaysInside size src m

section Walk
variable {maxEntries : ℕ → ℕ} {last round pfn start : ℕ} {src : Source}

/-- A walk that ends has not left the nodes before, and has made no other chunks. -/
theorem splitWalk_prefix {fuel : ℕ}
    (h : (splitWalk maxEntries last fuel round src pfn start).2 = .done) (fuel' : ℕ) :
    (splitWalk maxEntries last fuel' round src pfn start).2 ≠ .pastNodes ∧
      ∀ c ∈ (splitWalk maxEntries last fuel' round src pfn start).1,
        c ∈ (splitWalk maxEntries last fuel round src pfn start).1 := by
  induction fuel generalizing round src pfn start fuel' with
  | zero => cases h
  | succ fuel ih =>
    cases fuel' with
    | zero => simp [splitWalk]
    | succ fuel' =>
      unfold splitWalk at h ⊢
      cases hround : splitRound src pfn (maxEntries round) with
      | none => simp [hround] at h
      | some r =>
        simp only [hround] at h ⊢
        split_ifs at h ⊢ with hend
        · simp
        · obtain ⟨hne, hmem⟩ := ih h fuel'
          refine ⟨hne, fun c hc => ?_⟩
          rcases List.mem_cons.mp hc with rfl | hc
          · exact List.mem_cons_self
          · exact List.mem_cons_of_mem _ (hmem c hc)

variable (maxEntries last round pfn start) in
/-- Without nodes and pages there is nothing to leave. -/
theorem splitWalk_none (fuel : ℕ) :
    (splitWalk maxEntries last fuel round .none pfn start).2 ≠ .pastNodes ∧
      ∀ c ∈ (splitWalk maxEntries last fuel round .none pfn start).1, c.pages = none := by
  induction fuel generalizing round pfn start with
  | zero => simp [splitWalk]
  | succ fuel ih =>
    unfold splitWalk
    simp only [splitRound]
    split_ifs
    · simp
    · obtain ⟨hne, hpages⟩ := ih (round + 1) _ _
      refine ⟨hne, fun c hc => ?_⟩
      rcases List.mem_cons.mp hc with rfl | hc
      · rfl
      · exact hpages c hc

theorem splitChunks_prefix {m : Mapping} {fuel : ℕ}
    (h : (splitChunks maxEntries fuel src m).2 = .done) (fuel' : ℕ) :
    (splitChunks maxEntries fuel' src m).2 ≠ .pastNodes ∧
      ∀ c ∈ (splitChunks maxEntries fuel' src m).1, c ∈ (splitChunks maxEntries fuel src m).1 := by
  unfold splitChunks at h ⊢
  cases src with
  | pages dma => exact splitWalk_prefix h fuel'
  | nodes nodes =>
    cases hseek : seekNode nodes (m.offset / pageSize) with
    | none => simp [hseek] at h
    | some r =>
      simp only [hseek] at h ⊢
      exact splitWalk_prefix h fuel'
  | none => exact splitWalk_prefix h fuel'

end Walk

theorem Tiles.le {last start : ℕ} {cs : List Chunk} (h : Tiles last start cs) :
    start ≤ last + 1 := by
  induction cs generalizing start with
  | nil => exact Nat.le_of_eq h
  | cons c cs ih =>
    have := h.2.1
    have := ih h.2.2
    omega

/-- Tiles lie inside what they tile. -/
theorem Tiles.bounds {last start : ℕ} {cs : List Chunk} (h : Tiles last start cs) {c : Chunk}
    (hc : c ∈ cs) : start ≤ c.start ∧ c.last ≤ last := by
  induction cs generalizing start with
  | nil => cases hc
  | cons d ds ih =>
    obtain ⟨hs, hle, hrest⟩ := h
    rcases List.mem_cons.mp hc with rfl | hc
    · have := hrest.le
      omega
    · have := ih hrest hc
      omega

/-- The updates of a mapping that lies inside its BO stay inside. -/
theorem Mapping.Inside.staysInside {m : Mapping} {size : ℕ} (hin : m.Inside size)
    (hsize : size < 2 ^ 64) {src : Source} (hhas : src.HasSize size) : StaysInside size src m := by
  intro uninit fuel
  by_cases hsrc : src = .none
  · subst hsrc
    obtain ⟨hne, hpages⟩ := splitWalk_none uninit m.last 0 (m.offset / pageSize) m.start fuel
    refine ⟨hne, fun c hc hsome => ?_⟩
    rw [hpages c hc] at hsome
    cases hsome
  · have hexact := splitsExactly_of_source uninit hin hsize hhas hsrc
    obtain ⟨hne, hmem⟩ := splitChunks_prefix hexact.stops fuel
    refine ⟨hne, fun c hc hsome p hs hp => ?_⟩
    have hgives := hexact.gives c (hmem c hc) p hs hp
    have hbounds := hexact.tiles.bounds (hmem c hc)
    cases src with
    | pages dma =>
      rw [hgives.2, m.boPage_eq]
      have := hin.pages_le
      omega
    | nodes nodes =>
      rw [hgives.1] at hsome
      cases hsome
    | none => exact absurd rfl hsrc

section Accepts
variable {s s' : State} {k : Key} {saddr offset size flags : ℕ}

/-- An accepted request has passed the checks, and its mapping is in the tree. -/
theorem Accepts.recorded (h : Accepts s k saddr offset size flags s') :
    mapParamsOk s k saddr offset size = true ∧ requested k saddr offset size flags ∈ s'.va := by
  have hinsert : ∀ t : State, requested k saddr offset size flags ∈
      (vmBoInsertMap t (requested k saddr offset size flags)).va := by
    intro t
    rw [vmBoInsertMap_va, (vmItInsert_perm _ _).mem_iff]
    exact List.mem_cons_self
  rcases h with ⟨allocOk, h⟩ | ⟨allocOk, beforeOk, afterOk, h⟩
  · unfold vmBoMap at h
    dsimp only at h
    split_ifs at h with hok hover halloc
    all_goals cases h
    exact ⟨by simpa using hok, hinsert s⟩
  · unfold vmBoReplaceMap vmBoClearMappings at h
    split_ifs at h with hok halloc hclear
    all_goals cases h
    exact ⟨by simpa using hok, hinsert _⟩

variable (flags) in
theorem requested_inside {b : ℕ} (hok : mapParamsOk s (some b) saddr offset size = true)
    (hs : saddr < 2 ^ 64) (hlt : offset + size < 2 ^ 64) :
    (requested (some b) saddr offset size flags).Inside (s.bos b).size ∧
      offset + size ≤ (s.bos b).size := by
  have hle := mapParamsOk_le hok hs (by omega)
  have hpage : gpuPageSize = 16384 := rfl
  unfold mapParamsOk at hok
  simp only [Bool.and_eq_true, decide_eq_true_eq, hpage] at hok
  obtain ⟨⟨⟨⟨⟨hsaddr, hoffset⟩, hpos⟩, hsize⟩, -⟩, hfits⟩ := hok
  rw [u64, Nat.mod_eq_of_lt hlt] at hfits
  have hlast : lastByte saddr size = saddr + size - 1 :=
    lastByte_of_le (Nat.pos_of_ne_zero hpos) hle
  refine ⟨⟨?_, ?_, ?_⟩, hfits⟩
  all_goals
    unfold requested
    simp only [hlast, hpage]
    omega

/-- An accepted mapping lies inside its BO, and its updates stay there, exactly when
`offset + size` does not wrap around. -/
theorem accepts_liesInside_iff {b : ℕ} (h : Accepts s (some b) saddr offset size flags s')
    (hs : saddr < 2 ^ 64) (hsize : size < 2 ^ 64) (hbo : (s.bos b).size < 2 ^ 64) :
    (requested (some b) saddr offset size flags ∈ s'.va ∧
      LiesInside (s.bos b).size saddr size (requested (some b) saddr offset size flags)) ↔
    offset + size < 2 ^ 64 := by
  obtain ⟨hok, hmem⟩ := h.recorded
  constructor
  · intro hlies
    exact hlies.2.fits.trans_lt hbo
  · intro hlt
    obtain ⟨hin, hfits⟩ := requested_inside flags hok hs hlt
    exact ⟨hmem, hfits, mapParamsOk_le hok hs hsize, hin.order,
      fun src hhas => hin.staysInside hbo hhas⟩

end Accepts

/-- A VM with the `bo_va` of one BO of four pages, and no mapping. -/
def emptyVm : State where
  va := []
  boVas := fun _ => some ⟨1, false, false, [], []⟩
  freed := []
  status := ⟨[], [], [], []⟩
  pte := fun _ => ⟨0, 0⟩
  bos := fun _ => ⟨0x10000, .system, true, fun _ => true, false, 0⟩

/-- Two pages from 16 KiB below `2 ^ 64` on are accepted for the BO of four pages. -/
theorem unmapped_accepts_wrapped :
    Accepts emptyVm (some 0) 0 (2 ^ 64 - 0x4000) 0x8000 0
      (vmBoMap true emptyVm (some 0) 0 (2 ^ 64 - 0x4000) 0x8000 0).2 ∧
    ¬ LiesInside (emptyVm.bos 0).size 0 0x8000
      (requested (some 0) 0 (2 ^ 64 - 0x4000) 0x8000 0) := by
  constructor
  · left
    exact ⟨true, rfl⟩
  · intro h
    have hfits : 2 ^ 64 - 0x4000 + 0x8000 ≤ 0x10000 := h.fits
    omega

theorem accepts_liesInside_unmapped :
    (requested (some 0) 0 0 0x8000 0 ∈ (vmBoMap true emptyVm (some 0) 0 0 0x8000 0).2.va ∧
      LiesInside (emptyVm.bos 0).size 0 0x8000 (requested (some 0) 0 0 0x8000 0)) ↔
    0 + 0x8000 < 2 ^ 64 :=
  accepts_liesInside_iff (.inl ⟨true, rfl⟩) (by decide) (by decide) (by decide)

end Gsgpu.Vm
