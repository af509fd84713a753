import Gsgpu.PageTable.Tree

/-! What the loops of `Tree` compute where the leaf tables of the range are allocated: no error
and no fault, one write of a table for every block. -/
namespace Gsgpu.PageTable
open Gsgpu.Vm (u64)

variable {σ τ : Type}

/-- The directory of a page. -/
def dirOf (pfn : ℕ) : Table := [pfn / 2 ^ 22]

/-- The leaf table of a page. -/
def leafOf (pfn : ℕ) : Table := [pfn % 2 ^ 22 / 2 ^ 11, pfn / 2 ^ 22]

@[simp] theorem leafOf_tail (pfn : ℕ) : (leafOf pfn).tail = dirOf pfn := rfl

theorem entryOffset_leafOf (pfn : ℕ) :
    entryOffset (leafOf pfn) = pfn % 2 ^ 22 / 2 ^ 11 * pdePteSize := rfl

theorem leafOf_ne_dirOf (pfn pfn' : ℕ) : leafOf pfn ≠ dirOf pfn' := by
  simp [leafOf, dirOf]

theorem leafOf_eq_iff {pfn pfn' : ℕ} :
    leafOf pfn = leafOf pfn' ↔ pfn / vmPteCount = pfn' / vmPteCount := by
  simp only [leafOf, vmPteCount, List.cons.injEq, and_true, Nat.one_shiftLeft]
  omega

theorem dirOf_eq_of_leafOf_eq {pfn pfn' : ℕ} (h : leafOf pfn = leafOf pfn') :
    dirOf pfn = dirOf pfn' := by
  simpa using congrArg List.tail h

/-- The leaf table of the page is allocated, with the arrays on the way to it. -/
structure Tree.HasLeaf (T : Tree σ) (pfn : ℕ) : Prop where
  lt : pfn < maxPfn
  root : (T.pt []).entries = true
  dir : (T.pt (dirOf pfn)).entries = true
  leaf : (T.pt (leafOf pfn)).bo = true

theorem getEntryFrom_leaf {T : Tree σ} {pfn : ℕ} (h : T.HasLeaf pfn) :
    getEntryFrom T.pt vmDir2 [] pfn = .ok (some (leafOf pfn)) := by
  have hlt := h.lt
  have hi : pfn / 2 ^ 22 < 16 := by unfold maxPfn at hlt; omega
  have hj : pfn % 2 ^ 22 / 2 ^ 11 < 2048 := by omega
  have hdir := h.dir
  unfold dirOf at hdir
  simp only [getEntryFrom, vmDir2, h.root, vmLevelShift, vmNumEntries, List.length_nil,
    Nat.shiftRight_eq_div_pow, Nat.reduceShiftLeft, Nat.reduceSub, if_true, hi, List.length_cons,
    Nat.zero_add, hdir, hj, leafOf]

theorem vmGetEntry_leaf {T : Tree σ} {pfn : ℕ} (h : T.HasLeaf pfn) :
    vmGetEntry pfn T = .ok (.ok (some (leafOf pfn)), T) := by
  unfold vmGetEntry
  rw [getEntryFrom_leaf h]

/-! ### One block -/

theorem blockPtes_le {addr fin : ℕ} (h : addr < fin) : addr + blockPtes addr fin ≤ fin := by
  unfold blockPtes
  have hc : vmPteCount = 2048 := rfl
  rw [hc]
  split <;> omega

/-- A turn stays inside the block it starts in. -/
theorem blockPtes_block {addr fin : ℕ} (h : addr < fin) :
    addr % vmPteCount + blockPtes addr fin ≤ vmPteCount := by
  unfold blockPtes
  have hc : vmPteCount = 2048 := rfl
  rw [hc]
  split <;> omega

/-- A turn ends at the end of the range or of the block. -/
theorem blockPtes_end {addr fin : ℕ} (h : addr < fin) :
    addr + blockPtes addr fin = fin ∨
      addr + blockPtes addr fin = (addr / vmPteCount + 1) * vmPteCount := by
  unfold blockPtes
  have hc : vmPteCount = 2048 := rfl
  rw [hc]
  split <;> omega

/-- The tree after one turn of `gsgpu_vm_update_ptes`. -/
def blockUpdated (p : Params σ) (addr nptes dst flags : ℕ) (T : Tree σ) : Tree σ :=
  let T' := vmHandleHugePages p (leafOf addr) nptes dst flags T
  if (T'.pt (leafOf addr)).huge then T'
  else T'.write p (leafOf addr) (addr % vmPteCount * pdePteSize) dst nptes gpuPageSize flags

namespace Tree

@[simp] theorem write_pt (p : Params σ) (t : Table) (pe addr count incr flags : ℕ) (T : Tree σ) :
    (T.write p t pe addr count incr flags).pt = T.pt := rfl

@[simp] theorem write_shadow (p : Params σ) (t : Table) (pe addr count incr flags : ℕ)
    (T : Tree σ) : (T.write p t pe addr count incr flags).shadow = T.shadow := rfl

@[simp] theorem write_relocated (p : Params σ) (t : Table) (pe addr count incr flags : ℕ)
    (T : Tree σ) : (T.write p t pe addr count incr flags).relocated = T.relocated := rfl

@[simp] theorem setPt_mem (T : Tree σ) (t : Table) (f : Pt → Pt) : (T.setPt t f).mem = T.mem := rfl

@[simp] theorem setPt_shadow (T : Tree σ) (t : Table) (f : Pt → Pt) :
    (T.setPt t f).shadow = T.shadow := rfl

@[simp] theorem setPt_relocated (T : Tree σ) (t : Table) (f : Pt → Pt) :
    (T.setPt t f).relocated = T.relocated := rfl

@[simp] theorem setPt_pt_self (T : Tree σ) (t : Table) (f : Pt → Pt) :
    (T.setPt t f).pt t = f (T.pt t) := by
  simp [setPt]

theorem setPt_pt_ne (T : Tree σ) {t t' : Table} (f : Pt → Pt) (h : t' ≠ t) :
    (T.setPt t f).pt t' = T.pt t' := by
  simp [setPt, h]

@[simp] theorem relocate_pt (T : Tree σ) (t : Table) : (T.relocate t).pt = T.pt := rfl

@[simp] theorem relocate_mem (T : Tree σ) (t : Table) : (T.relocate t).mem = T.mem := rfl

@[simp] theorem relocate_shadow (T : Tree σ) (t : Table) : (T.relocate t).shadow = T.shadow := rfl

theorem mem_relocate {T : Tree σ} {t t' : Table} :
    t' ∈ (T.relocate t).relocated ↔ t' = t ∨ t' ∈ T.relocated := by
  by_cases h : t' = t
  · simp [relocate, h]
  · simp [relocate, h, List.mem_erase_of_ne h]

/-- Tables are neither created nor given entries between the two trees. -/
def SameShape (T T' : Tree σ) : Prop :=
  ∀ t, (T'.pt t).bo = (T.pt t).bo ∧ (T'.pt t).entries = (T.pt t).entries

theorem setPt_sameShape (T : Tree σ) (t : Table) {f : Pt → Pt}
    (hf : ∀ e, (f e).bo = e.bo ∧ (f e).entries = e.entries) : SameShape T (T.setPt t f) := by
  intro t'
  by_cases h : t' = t
  · subst h
    simpa using hf _
  · simp [setPt_pt_ne T f h]

/-- Tables are not freed between the two trees. -/
def Grows (T T' : Tree σ) : Prop := ∀ t, (T.pt t).bo = true → (T'.pt t).bo = true

theorem Grows.refl (T : Tree σ) : Grows T T := fun _ h => h

theorem Grows.trans {T T' T'' : Tree σ} (h : Grows T T') (h' : Grows T' T'') : Grows T T'' :=
  fun t ht => h' t (h t ht)

theorem HasLeaf.of_sameShape {T T' : Tree σ} {pfn : ℕ} (h : T.HasLeaf pfn)
    (hs : SameShape T T') : T'.HasLeaf pfn where
  lt := h.lt
  root := (hs []).2.trans h.root
  dir := (hs (dirOf pfn)).2.trans h.dir
  leaf := (hs (leafOf pfn)).1.trans h.leaf

end Tree

theorem vmHandleHugePages_sameShape (p : Params σ) (entry : Table) (nptes dst flags : ℕ)
    (T : Tree σ) : T.SameShape (vmHandleHugePages p entry nptes dst flags T) := by
  unfold vmHandleHugePages
  split
  · exact T.setPt_sameShape entry (f := fun e => { e with huge := true }) fun e => ⟨rfl, rfl⟩
  · split
    · exact T.setPt_sameShape entry (f := fun e => { e with huge := false }) fun e => ⟨rfl, rfl⟩
    · exact fun t => ⟨rfl, rfl⟩

theorem blockUpdated_sameShape (p : Params σ) (addr nptes dst flags : ℕ) (T : Tree σ) :
    T.SameShape (blockUpdated p addr nptes dst flags T) := by
  have h := vmHandleHugePages_sameShape p (leafOf addr) nptes dst flags T
  unfold blockUpdated
  dsimp only
  split <;> exact h

/-- The leaf is no longer huge, and is on the list if it was. -/
def Tree.unhuge (T : Tree σ) (t : Table) : Tree σ :=
  if (T.pt t).huge then (T.setPt t fun e => { e with huge := false }).relocate t else T

theorem Tree.unhuge_huge (T : Tree σ) (t : Table) : ((T.unhuge t).pt t).huge = false := by
  unfold Tree.unhuge
  split
  · simp
  · simpa using ‹¬ (T.pt t).huge = true›

theorem Tree.unhuge_write_mem (T : Tree σ) (p : Params σ) (t t' : Table)
    (pe addr count incr flags : ℕ) :
    ((T.unhuge t').write p t pe addr count incr flags).mem =
      (T.write p t pe addr count incr flags).mem := by
  unfold Tree.unhuge
  split <;> rfl

/-- A turn that makes its block huge writes the directory's entry. -/
theorem blockUpdated_of_huge {p : Params σ} {addr nptes dst flags : ℕ} (T : Tree σ)
    (h : (hugeFlags p nptes flags).testBit 1 = true) :
    blockUpdated p addr nptes dst flags T =
      (T.setPt (leafOf addr) fun e => { e with huge := true }).write p (dirOf addr)
        (entryOffset (leafOf addr)) dst 1 0 (hugeFlags p nptes flags) := by
  unfold blockUpdated vmHandleHugePages
  rw [if_pos h]
  exact if_pos (by simp)

/-- Any other turn writes its part of the leaf. -/
theorem blockUpdated_of_leaf {p : Params σ} {addr nptes dst flags : ℕ} (T : Tree σ)
    (h : (hugeFlags p nptes flags).testBit 1 = false) :
    blockUpdated p addr nptes dst flags T =
      (T.unhuge (leafOf addr)).write p (leafOf addr) (addr % vmPteCount * pdePteSize) dst nptes
        gpuPageSize flags := by
  have hu : vmHandleHugePages p (leafOf addr) nptes dst flags T = T.unhuge (leafOf addr) := by
    unfold vmHandleHugePages Tree.unhuge
    rw [if_neg (by simp [h])]
  unfold blockUpdated
  rw [hu]
  exact if_neg (by simp [T.unhuge_huge])

theorem blockUpdated_shadow (p : Params σ) (addr nptes dst flags : ℕ) (T : Tree σ) :
    (blockUpdated p addr nptes dst flags T).shadow = T.shadow := by
  cases h : (hugeFlags p nptes flags).testBit 1 with
  | true =>
    rw [blockUpdated_of_huge T h]
    rfl
  | false =>
    rw [blockUpdated_of_leaf T h, Tree.write_shadow]
    unfold Tree.unhuge
    split <;> rfl

theorem updateBlock_eq {p : Params σ} {T : Tree σ} {addr nptes dst flags : ℕ}
    (h : T.HasLeaf addr) :
    updateBlock p addr nptes dst flags T =
      .ok (.ok (), blockUpdated p addr nptes dst flags T) := by
  have hbo : ((vmHandleHugePages p (leafOf addr) nptes dst flags T).pt (leafOf addr)).bo = true :=
    (vmHandleHugePages_sameShape p (leafOf addr) nptes dst flags T (leafOf addr)).1.trans h.leaf
  apply Prog.eq_ok_of_wp
  unfold updateBlock blockUpdated
  simp only [Prog.wp_bind, Prog.wp_of_eq_ok (vmGetEntry_leaf h), Prog.wp_modify, Prog.wp_gets]
  rw [Prog.wp_ite]
  split
  · simp
  · simp [hbo]

/-- The tree after `gsgpu_vm_update_ptes`. -/
def ptesUpdated (p : Params σ) (addr fin dst flags : ℕ) (T : Tree σ) : Tree σ :=
  if addr < fin then
    ptesUpdated p (addr + blockPtes addr fin) fin (u64 (dst + blockPtes addr fin * gpuPageSize))
      flags (blockUpdated p addr (blockPtes addr fin) dst flags T)
  else T
termination_by fin - addr
decreasing_by
  have := blockPtes_pos ‹addr < fin›
  omega

theorem ptesUpdated_turn (p : Params σ) {addr fin : ℕ} (dst flags : ℕ) (T : Tree σ)
    (h : addr < fin) :
    ptesUpdated p addr fin dst flags T =
      ptesUpdated p (addr + blockPtes addr fin) fin (u64 (dst + blockPtes addr fin * gpuPageSize))
        flags (blockUpdated p addr (blockPtes addr fin) dst flags T) := by
  rw [ptesUpdated, if_pos h]

theorem ptesUpdated_done (p : Params σ) {addr fin : ℕ} (dst flags : ℕ) (T : Tree σ)
    (h : ¬ addr < fin) : ptesUpdated p addr fin dst flags T = T := by
  rw [ptesUpdated, if_neg h]

/-- An update of one block. -/
theorem ptesUpdated_block (p : Params σ) {addr fin : ℕ} (dst flags : ℕ) (T : Tree σ)
    (h : addr < fin) (hend : blockPtes addr fin = fin - addr) :
    ptesUpdated p addr fin dst flags T = blockUpdated p addr (fin - addr) dst flags T := by
  rw [ptesUpdated_turn p dst flags T h, hend, ptesUpdated_done _ _ _ _ (by omega)]

theorem vmUpdatePtes_eq {p : Params σ} {T : Tree σ} {addr fin dst flags : ℕ}
    (h : ∀ pfn, addr ≤ pfn → pfn < fin → T.HasLeaf pfn) :
    vmUpdatePtes p addr fin dst flags T = .ok (.ok (), ptesUpdated p addr fin dst flags T) := by
  induction addr, dst, T using ptesUpdated.induct p fin flags with
  | case1 addr dst T hlt ih =>
    rw [vmUpdatePtes, if_pos hlt, ptesUpdated_turn p dst flags T hlt]
    apply Prog.eq_ok_of_wp
    simp only [Prog.wp_bind, Prog.wp_of_eq_ok (updateBlock_eq (h addr le_rfl hlt))]
    rw [Prog.wp_of_eq_ok (ih _)]
    · exact ⟨rfl, rfl⟩
    intro pfn hge hfin
    exact (h pfn (by omega) hfin).of_sameShape (blockUpdated_sameShape p addr _ dst flags T)
  | case2 addr dst T hge =>
    rw [vmUpdatePtes, if_neg hge, ptesUpdated_done p dst flags T hge]
    rfl

/-- A pass takes at least one table off the list. -/
theorem directoriesPass_relocated (p : Params σ) (offset : Table → ℕ) (l : List Table) :
    ∀ T, (directoriesPass p offset l T).relocated.length ≤ l.length - 1 := by
  induction l with
  | nil =>
    intro T
    exact le_rfl
  | cons t ts ih =>
    intro T
    unfold directoriesPass
    dsimp only
    split
    · exact (ih _).trans (Nat.sub_le _ _)
    · split
      · unfold vmUpdatePde
        split <;> exact le_rfl
      · exact (ih _).trans (Nat.sub_le _ _)

/-! ### Two runs side by side -/

/-- The trees differ at most in what they write to. -/
structure Tree.Alike (T₁ : Tree σ) (T₂ : Tree τ) : Prop where
  shadow : T₁.shadow = T₂.shadow
  pt : T₁.pt = T₂.pt
  relocated : T₁.relocated = T₂.relocated

/-- The arguments of the write a turn makes at page `addr`: a directory's entry or a part of a
leaf. -/
structure BlockWrite (huge : Bool) (addr nptes flags : ℕ) (t : Table) (k count incr fl : ℕ) :
    Prop where
  table : t = leafOf addr ∨ t = dirOf addr
  inside : k + count ≤ vmPteCount
  count_pos : 0 < count
  count_le : count ≤ nptes
  incr : incr = gpuPageSize ∨ count = 1
  flags : fl = flags ∨ huge = true ∧ fl = flags ||| pteHugepage

/-- One turn of two runs makes the same write, each with its own address. -/
theorem blockUpdated_alike {p₁ : Params σ} {p₂ : Params τ} (hsrc : p₁.src = 0 ↔ p₂.src = 0)
    {T₁ : Tree σ} {T₂ : Tree τ} (h : T₁.Alike T₂) {addr nptes flags : ℕ} (d₁ d₂ : ℕ)
    (hn : 0 < nptes) (hb : addr % vmPteCount + nptes ≤ vmPteCount) :
    ∃ t k count incr fl,
      BlockWrite (decide (p₁.src = 0)) addr nptes flags t k count incr fl ∧
      (blockUpdated p₁ addr nptes d₁ flags T₁).Alike (blockUpdated p₂ addr nptes d₂ flags T₂) ∧
      (blockUpdated p₁ addr nptes d₁ flags T₁).mem =
        (T₁.write p₁ t (k * pdePteSize) d₁ count incr fl).mem ∧
      (blockUpdated p₂ addr nptes d₂ flags T₂).mem =
        (T₂.write p₂ t (k * pdePteSize) d₂ count incr fl).mem := by
  have hfl : hugeFlags p₂ nptes flags = hugeFlags p₁ nptes flags := by
    unfold hugeFlags
    simp only [hsrc]
  cases hhuge : (hugeFlags p₁ nptes flags).testBit 1 with
  | true =>
    rw [blockUpdated_of_huge T₁ hhuge, blockUpdated_of_huge T₂ (hfl ▸ hhuge), hfl]
    refine ⟨dirOf addr, addr % 2 ^ 22 / 2 ^ 11, 1, 0, hugeFlags p₁ nptes flags, ?_, ?_, rfl, rfl⟩
    · refine ⟨.inr rfl, ?_, Nat.one_pos, hn, .inr rfl, ?_⟩
      · show addr % 2 ^ 22 / 2 ^ 11 + 1 ≤ 2 ^ 11
        omega
      · unfold hugeFlags
        split
        · next hc => exact .inr ⟨by simpa using hc.1, rfl⟩
        · exact .inl rfl
    · exact ⟨h.shadow, by simp [Tree.setPt, h.pt], h.relocated⟩
  | false =>
    rw [blockUpdated_of_leaf T₁ hhuge, blockUpdated_of_leaf T₂ (hfl ▸ hhuge)]
    refine ⟨leafOf addr, addr % vmPteCount, nptes, gpuPageSize, flags,
      ⟨.inl rfl, hb, hn, le_rfl, .inl rfl, .inl rfl⟩, ?_, ?_, ?_⟩
    · have hu : (T₁.unhuge (leafOf addr)).Alike (T₂.unhuge (leafOf addr)) := by
        unfold Tree.unhuge
        rw [h.pt]
        split
        · exact ⟨h.shadow, by simp [Tree.setPt, h.pt], by simp [Tree.relocate, h.relocated]⟩
        · exact h
      exact ⟨hu.shadow, hu.pt, hu.relocated⟩
    · exact T₁.unhuge_write_mem p₁ _ _ _ _ _ _ _
    · exact T₂.unhuge_write_mem p₂ _ _ _ _ _ _ _

/-- The number of turns of `gsgpu_vm_update_ptes`. -/
def blocks (addr fin : ℕ) : ℕ :=
  if addr < fin then (fin - 1) / vmPteCount - addr / vmPteCount + 1 else 0

theorem blocks_turn {addr fin : ℕ} (h : addr < fin) :
    blocks addr fin = blocks (addr + blockPtes addr fin) fin + 1 := by
  have hpos := blockPtes_pos h
  have hle := blockPtes_le h
  have hend : addr + blockPtes addr fin = fin ∨
    addr + blockPtes addr fin = (addr / 2048 + 1) * 2048 := blockPtes_end h
  have hblock : addr % 2048 + blockPtes addr fin ≤ 2048 := blockPtes_block h
  unfold blocks
  rw [if_pos h, show vmPteCount = 2048 from rfl]
  split <;> omega

/-- The address of a later page. -/
theorem u64_dst_next {start a : ℕ} (ha : start ≤ a) {d n : ℕ} :
    u64 (u64 (d + (a - start) * gpuPageSize) + n * gpuPageSize) =
      u64 (d + (a + n - start) * gpuPageSize) := by
  have hs : (a + n - start) * gpuPageSize = (a - start) * gpuPageSize + n * gpuPageSize := by
    rw [← Nat.add_mul]
    congr 1
    omega
  unfold u64
  rw [Nat.mod_add_mod, hs, Nat.add_assoc]

/-- What `Tree.write` does to the memory. -/
def writeBoth (p : Params σ) (shadow : Bool) (t : Table) (pe addr count incr flags : ℕ) (m : σ) :
    σ :=
  p.func .main t pe addr count incr flags
    (if shadow then p.func .shadow t pe addr count incr flags m else m)

/-- Two runs of `gsgpu_vm_update_ptes` on trees that are alike make the same writes, each with
its own addresses: what every such write keeps, counting the turns, the runs keep. -/
theorem ptesUpdated_alike (p₁ : Params σ) (p₂ : Params τ) (hsrc : p₁.src = 0 ↔ p₂.src = 0)
    (start fin d₁ d₂ flags : ℕ) (shadow : Bool) (R : ℕ → σ → τ → Prop)
    (hR : ∀ n addr nptes t k count incr fl m₁ m₂, start ≤ addr → addr + nptes ≤ fin →
      BlockWrite (decide (p₁.src = 0)) addr nptes flags t k count incr fl → R n m₁ m₂ →
      R (n + 1)
        (writeBoth p₁ shadow t (k * pdePteSize) (u64 (d₁ + (addr - start) * gpuPageSize)) count
          incr fl m₁)
        (writeBoth p₂ shadow t (k * pdePteSize) (u64 (d₂ + (addr - start) * gpuPageSize)) count
          incr fl m₂))
    {addr e₁ : ℕ} (T₁ : Tree σ) :
    ∀ (n : ℕ) {e₂ : ℕ} (T₂ : Tree τ), start ≤ addr → T₁.shadow = shadow → T₁.Alike T₂ →
      e₁ = u64 (d₁ + (addr - start) * gpuPageSize) →
      e₂ = u64 (d₂ + (addr - start) * gpuPageSize) → R n T₁.mem T₂.mem →
      (ptesUpdated p₁ addr fin e₁ flags T₁).Alike (ptesUpdated p₂ addr fin e₂ flags T₂) ∧
        R (n + blocks addr fin) (ptesUpdated p₁ addr fin e₁ flags T₁).mem
          (ptesUpdated p₂ addr fin e₂ flags T₂).mem := by
  induction addr, e₁, T₁ using ptesUpdated.induct p₁ fin flags with
  | case1 addr e₁ T₁ hlt ih =>
    intro n e₂ T₂ ha hsh halike he₁ he₂ hr
    have hpos := blockPtes_pos hlt
    have hle := blockPtes_le hlt
    rw [ptesUpdated_turn p₁ e₁ flags T₁ hlt, ptesUpdated_turn p₂ e₂ flags T₂ hlt,
      blocks_turn hlt, Nat.add_comm (blocks _ _) 1, ← Nat.add_assoc]
    obtain ⟨t, k, count, incr, fl, hw, halike', hm₁, hm₂⟩ :=
      blockUpdated_alike hsrc halike e₁ e₂ hpos (blockPtes_block hlt)
    apply ih _ _ (by omega) ?_ halike' ?_ ?_ ?_
    · rw [blockUpdated_shadow, hsh]
    · rw [he₁, u64_dst_next ha]
    · rw [he₂, u64_dst_next ha]
    · have hr' := hR n addr _ t k count incr fl _ _ ha hle hw hr
      rw [hm₁, hm₂]
      show R (n + 1) (writeBoth p₁ T₁.shadow t _ e₁ count incr fl T₁.mem)
        (writeBoth p₂ T₂.shadow t _ e₂ count incr fl T₂.mem)
      rwa [← halike.shadow, hsh, he₁, he₂]
  | case2 addr e₁ T₁ hge =>
    intro n e₂ T₂ ha hsh halike he₁ he₂ hr
    rw [ptesUpdated_done p₁ e₁ flags T₁ hge, ptesUpdated_done p₂ e₂ flags T₂ hge, blocks,
      if_neg hge]
    exact ⟨halike, hr⟩

end Gsgpu.PageTable
