import Gsgpu.PageTable.Refinement
import Mathlib.Tactic.Set

/-! The tree of page tables refines the flat map, in every run whose updates never touch only a
part of a huge block. -/
namespace Gsgpu.PageTable
open Gsgpu.Vm (u64 Pte)

variable {L : Layout} {T : Tree Entries} {F : Flat}

/-! ### Updates -/

/-- The pages of one turn, inside their block. -/
theorem mem_block_iff {pfn addr n : ℕ} (hb : addr % vmPteCount + n ≤ vmPteCount) :
    addr ≤ pfn ∧ pfn < addr + n ↔ pfn / vmPteCount = addr / vmPteCount ∧
      addr % vmPteCount ≤ pfn % vmPteCount ∧ pfn % vmPteCount < addr % vmPteCount + n := by
  have hc : vmPteCount = 2048 := rfl
  rw [hc] at hb ⊢
  omega

theorem Flat.write_of_ne {pages : Option (ℕ → ℕ)} {pfn addr n dst flags : ℕ}
    (hb : addr % vmPteCount + n ≤ vmPteCount) (hne : leafOf pfn ≠ leafOf addr) :
    F.write pages addr (addr + n) dst flags pfn = F pfn := by
  apply if_neg
  rw [mem_block_iff hb]
  exact fun h => hne (leafOf_eq_iff.mpr h.1)

/-- The table of a leaf is not on the way to another table. -/
theorem ne_leafOf_of_valid {i : ℕ} {t : Table} (h : ValidTable (i :: t)) (pfn : ℕ) :
    t ≠ leafOf pfn := by
  rintro rfl
  exact h

namespace Refines
variable {pages : Option (ℕ → ℕ)} {full : Entries → Bool} {addr n dst flags : ℕ}

/-- A whole block becomes huge. -/
theorem setHuge (h : Refines L T F) (hl : T.HasLeaf addr) (hn : n = vmPteCount)
    (hb : addr % vmPteCount + n ≤ vmPteCount) (hf : flags.testBit 1 = false) :
    Refines L ((T.setPt (leafOf addr) fun e => { e with huge := true }).write
        (entryParams L none full) (dirOf addr) (entryOffset (leafOf addr)) dst 1 0
        (flags ||| pteHugepage)) (F.write none addr (addr + n) dst flags) := by
  set T₁ := T.setPt (leafOf addr) fun e => { e with huge := true } with hT₁
  rw [entryOffset_leafOf]
  have hvl := valid_leafOf hl.lt
  have hvd := valid_dirOf hl.lt
  have hbo : ∀ t, (T₁.pt t).bo = (T.pt t).bo := by
    intro t
    by_cases ht : t = leafOf addr
    · subst ht
      simp [hT₁]
    · rw [hT₁, T.setPt_pt_ne _ ht]
  have hhuge : ∀ {t}, t ≠ leafOf addr → (T₁.pt t).huge = (T.pt t).huge := by
    intro t ht
    rw [hT₁, T.setPt_pt_ne _ ht]
  -- only the directory's entry of this leaf changes
  have hslot : ∀ {t k}, ValidTable t → k < vmPteCount → k :: t ≠ leafOf addr →
      (T₁.write (entryParams L none full) (dirOf addr) (addr % 2 ^ 22 / 2 ^ 11 * pdePteSize) dst
        1 0 (flags ||| pteHugepage)).mem (L.slot .main t k) = T.mem (L.slot .main t k) := by
    intro t k ht hk hne
    refine (write_slot T₁ hvd ht (by have := hvl.head; omega) hk).trans (if_neg ?_)
    rintro ⟨rfl, hle, hlt⟩
    exact hne (by simp only [leafOf, dirOf, List.cons.injEq, and_true]; omega)
  constructor
  case root => exact (hbo []).trans h.root
  case valid => exact fun t ht => h.valid t ((hbo t).symm.trans ht)
  case parent => exact fun i t ht => (hbo t).trans (h.parent i t ((hbo _).symm.trans ht))
  case listed => exact fun t ht => (hbo t).trans (h.listed t ht)
  case huge =>
    intro t ht
    by_cases heq : t = leafOf addr
    · subst heq
      exact ⟨(hbo _).trans hl.leaf, rfl⟩
    · have := h.huge t ((hhuge heq).symm.trans ht)
      exact ⟨(hbo t).trans this.1, this.2⟩
  case linked =>
    intro i t ht hh
    have hne : i :: t ≠ leafOf addr := by
      intro heq
      rw [Tree.write_pt, heq] at hh
      simp [hT₁] at hh
    have ht' := (hbo _).symm.trans ht
    have hv := h.valid _ ht'
    rw [hslot hv.tail hv.head hne]
    exact h.linked i t ht' ((hhuge hne).symm.trans hh)
  case absent =>
    intro i t ht hv hb'
    have hb'' := (hbo _).symm.trans hb'
    rw [hslot hv.tail hv.head]
    · exact h.absent i t ((hbo t).symm.trans ht) hv hb''
    · intro heq
      rw [heq, hl.leaf] at hb''
      cases hb''
  case leaf =>
    intro pfn hb' hh
    have hne : leafOf pfn ≠ leafOf addr := by
      intro heq
      rw [Tree.write_pt, heq] at hh
      simp [hT₁] at hh
    have hb'' := (hbo _).symm.trans hb'
    rw [hslot (h.valid _ hb'') (Nat.mod_lt _ (by decide)) (by simp [leafOf]),
      Flat.write_of_ne hb hne]
    exact h.leaf pfn hb'' ((hhuge hne).symm.trans hh)
  case hugeLeaf =>
    intro pfn hh
    by_cases heq : leafOf pfn = leafOf addr
    · have hblock := leafOf_eq_iff.mp heq
      have hin : addr ≤ pfn ∧ pfn < addr + n :=
        (mem_block_iff hb).mpr ⟨hblock, by omega, by
          have : pfn % vmPteCount < vmPteCount := Nat.mod_lt _ (by decide)
          omega⟩
      refine ⟨u64 dst, flags, ?_, hf, ?_⟩
      · rw [dirOf_eq_of_leafOf_eq heq]
        have hidx : pfn % 2 ^ 22 / 2 ^ 11 = addr % 2 ^ 22 / 2 ^ 11 := (List.cons.inj heq).1
        rw [hidx]
        refine (write_slot T₁ hvd hvd (by have := hvl.head; omega) hvl.head).trans ?_
        rw [if_pos ⟨rfl, le_rfl, by omega⟩]
        simp [entryAddr]
      · refine (if_pos hin).trans ?_
        have hmod : addr % 2048 = 0 := by
          rw [hn] at hb
          exact Nat.le_zero.mp (Nat.le_of_add_le_add_right (hb.trans_eq (Nat.zero_add _).symm))
        have hblock' : pfn / 2048 = addr / 2048 := hblock
        have hoff : pfn - addr = pfn % vmPteCount := by
          show pfn - addr = pfn % 2048
          omega
        simp only [entryAddr, hoff, u64, Nat.mod_add_mod]
    · have hh' := (hhuge heq).symm.trans hh
      have hv := h.valid _ (h.huge _ hh').1
      rw [Flat.write_of_ne hb heq]
      obtain ⟨d, f, hpde, hrest⟩ := h.hugeLeaf pfn hh'
      exact ⟨d, f, (hslot hv.tail hv.head heq).trans hpde, hrest⟩
  case uncovered =>
    intro pfn hb'
    have hb'' := (hbo _).symm.trans hb'
    rw [Flat.write_of_ne hb]
    · exact h.uncovered pfn hb''
    · intro heq
      rw [heq, hl.leaf] at hb''
      cases hb''

end Refines

/-- What `Tree.unhuge` changes. -/
structure Unhuge (T T' : Tree Entries) (t : Table) : Prop where
  mem : T'.mem = T.mem
  bo : ∀ t', (T'.pt t').bo = (T.pt t').bo
  self : (T'.pt t).huge = false
  others : ∀ {t'}, t' ≠ t → (T'.pt t').huge = (T.pt t').huge
  listed : ∀ {t'}, t' ∈ T'.relocated → t' = t ∨ t' ∈ T.relocated
  kept : ∀ {t'}, t' ∈ T.relocated → t' ∈ T'.relocated
  moved : (T.pt t).huge = true → t ∈ T'.relocated

theorem unhuge_spec (T : Tree Entries) (t : Table) : Unhuge T (T.unhuge t) t := by
  have hself := T.unhuge_huge t
  unfold Tree.unhuge at hself ⊢
  cases hh : (T.pt t).huge with
  | false =>
    rw [if_neg (by simp)]
    exact ⟨rfl, fun _ => rfl, hh, fun _ => rfl, .inr, id, by simp [hh]⟩
  | true =>
    rw [hh, if_pos rfl] at hself
    rw [if_pos rfl]
    constructor
    case mem => rfl
    case bo => exact fun t' => (T.setPt_sameShape t (f := fun e => { e with huge := false })
      (fun e => ⟨rfl, rfl⟩) t').1
    case self => exact hself
    case others =>
      intro t' hne
      rw [Tree.relocate_pt, T.setPt_pt_ne _ hne]
    case listed => exact fun ht' => Tree.mem_relocate.mp ht'
    case kept => exact fun ht' => Tree.mem_relocate.mpr (.inr ht')
    case moved => exact fun _ => Tree.mem_relocate.mpr (.inl rfl)

namespace Refines
variable {pages : Option (ℕ → ℕ)} {full : Entries → Bool} {addr n dst flags : ℕ}

/-- A part of a leaf is written; all of it if the block was huge. -/
theorem setLeaf (h : Refines L T F) (hl : T.HasLeaf addr) {T₁ : Tree Entries}
    (hu : Unhuge T T₁ (leafOf addr)) (hb : addr % vmPteCount + n ≤ vmPteCount)
    (hw : (T.pt (leafOf addr)).huge = true → n = vmPteCount) :
    Refines L (T₁.write (entryParams L pages full) (leafOf addr)
        (addr % vmPteCount * pdePteSize) dst n gpuPageSize flags)
      (F.write pages addr (addr + n) dst flags) := by
  have hvl := valid_leafOf hl.lt
  -- the directories' entries do not change
  have hslot : ∀ {t k}, ValidTable t → k < vmPteCount → t ≠ leafOf addr →
      (T₁.write (entryParams L pages full) (leafOf addr) (addr % vmPteCount * pdePteSize) dst n
        gpuPageSize flags).mem (L.slot .main t k) = T.mem (L.slot .main t k) := by
    intro t k ht hk hne
    rw [write_slot T₁ hvl ht hb hk, if_neg (fun hc => hne hc.1), hu.mem]
  constructor
  case root => exact (hu.bo []).trans h.root
  case valid => exact fun t ht => h.valid t ((hu.bo t).symm.trans ht)
  case parent => exact fun i t ht => (hu.bo t).trans (h.parent i t ((hu.bo _).symm.trans ht))
  case listed =>
    intro t ht
    obtain rfl | ht := hu.listed ht
    · exact (hu.bo _).trans hl.leaf
    · exact (hu.bo t).trans (h.listed t ht)
  case huge =>
    intro t ht
    by_cases heq : t = leafOf addr
    · subst heq
      exact absurd ht (by simp [hu.self])
    · have := h.huge t ((hu.others heq).symm.trans ht)
      exact ⟨(hu.bo t).trans this.1, this.2⟩
  case linked =>
    intro i t ht hh
    have ht' := (hu.bo _).symm.trans ht
    have hv := h.valid _ ht'
    rw [hslot hv.tail hv.head (ne_leafOf_of_valid hv addr)]
    by_cases heq : i :: t = leafOf addr
    · cases hwas : (T.pt (i :: t)).huge with
      | true => exact .inl (heq ▸ hu.moved (heq ▸ hwas))
      | false => exact (h.linked i t ht' hwas).imp_left hu.kept
    · exact (h.linked i t ht' ((hu.others heq).symm.trans hh)).imp_left hu.kept
  case absent =>
    intro i t ht hv hb'
    rw [hslot hv.tail hv.head (ne_leafOf_of_valid hv addr)]
    exact h.absent i t ((hu.bo t).symm.trans ht) hv ((hu.bo _).symm.trans hb')
  case leaf =>
    intro pfn hb' hh
    have hb'' := (hu.bo _).symm.trans hb'
    have hk : pfn % vmPteCount < vmPteCount := Nat.mod_lt _ (by decide)
    by_cases heq : leafOf pfn = leafOf addr
    · have hblock := leafOf_eq_iff.mp heq
      rw [heq, write_slot T₁ hvl hvl hb hk]
      by_cases hin : addr % vmPteCount ≤ pfn % vmPteCount ∧
          pfn % vmPteCount < addr % vmPteCount + n
      · have hpfn := (mem_block_iff hb).mpr ⟨hblock, hin⟩
        have hoff : pfn % vmPteCount - addr % vmPteCount = pfn - addr := by
          have hc : vmPteCount = 2048 := rfl
          rw [hc] at hblock ⊢
          omega
        rw [if_pos ⟨rfl, hin⟩, hoff, Flat.write, if_pos hpfn]
        rfl
      · have hwas : (T.pt (leafOf addr)).huge = false := by
          cases hwas : (T.pt (leafOf addr)).huge with
          | false => rfl
          | true =>
            have := hw hwas
            exact absurd ⟨by omega, by omega⟩ hin
        rw [if_neg (fun hc => hin hc.2), Flat.write,
          if_neg (fun hc => hin ((mem_block_iff hb).mp hc).2), hu.mem, ← heq]
        exact h.leaf pfn hb'' (heq ▸ hwas)
    · rw [hslot (h.valid _ hb'') hk heq, Flat.write_of_ne hb heq]
      exact h.leaf pfn hb'' ((hu.others heq).symm.trans hh)
  case hugeLeaf =>
    intro pfn hh
    have hne : leafOf pfn ≠ leafOf addr := by
      intro heq
      rw [heq] at hh
      exact absurd hh (by simp [hu.self])
    have hh' := (hu.others hne).symm.trans hh
    have hv := h.valid _ (h.huge _ hh').1
    rw [Flat.write_of_ne hb hne,
      hslot (h.valid _ (h.dirOf_bo (h.huge _ hh').1)) hv.head (leafOf_ne_dirOf _ _).symm]
    exact h.hugeLeaf pfn hh'
  case uncovered =>
    intro pfn hb'
    have hb'' := (hu.bo _).symm.trans hb'
    rw [Flat.write_of_ne hb]
    · exact h.uncovered pfn hb''
    · intro heq
      rw [heq, hl.leaf] at hb''
      cases hb''

/-- One turn of `gsgpu_vm_update_ptes`. -/
theorem blockUpdated (h : Refines L T F) (hl : T.HasLeaf addr)
    (hb : addr % vmPteCount + n ≤ vmPteCount) (hf : flags.testBit 1 = false)
    (hw : (T.pt (leafOf addr)).huge = true → n = vmPteCount) :
    Refines L (PageTable.blockUpdated (entryParams L pages full) addr n dst flags T)
      (F.write pages addr (addr + n) dst flags) := by
  by_cases hhuge : (entryParams L pages full).src = 0 ∧ n = vmPteCount
  · have hpages : pages = none := by
      cases pages with
      | none => rfl
      | some dma => exact absurd hhuge.1 (by simp [entryParams])
    subst hpages
    have hflags : hugeFlags (entryParams L none full) n flags = flags ||| pteHugepage :=
      if_pos hhuge
    rw [blockUpdated_of_huge T (by rw [hflags]; exact testBit_or_hugepage flags), hflags]
    exact h.setHuge hl hhuge.2 hb hf
  · have hflags : hugeFlags (entryParams L pages full) n flags = flags := if_neg hhuge
    rw [blockUpdated_of_leaf T (by rw [hflags]; exact hf)]
    exact h.setLeaf hl (unhuge_spec T _) hb hw

end Refines

theorem blockUpdated_huge_ne (p : Params Entries) {addr n dst flags : ℕ} (T : Tree Entries)
    {t : Table} (hne : t ≠ leafOf addr) :
    ((blockUpdated p addr n dst flags T).pt t).huge = (T.pt t).huge := by
  cases hh : (hugeFlags p n flags).testBit 1 with
  | true => rw [blockUpdated_of_huge T hh, Tree.write_pt, T.setPt_pt_ne _ hne]
  | false =>
    rw [blockUpdated_of_leaf T hh, Tree.write_pt]
    exact (unhuge_spec T (leafOf addr)).others hne

/-- Two writes one after the other are the write of both ranges. -/
theorem Flat.write_append (F : Flat) (pages : Option (ℕ → ℕ)) {addr n fin : ℕ} (dst flags : ℕ)
    (hn : addr + n ≤ fin) :
    (F.write pages addr (addr + n) dst flags).write pages (addr + n) fin
      (u64 (dst + n * gpuPageSize)) flags = F.write pages addr fin dst flags := by
  funext pfn
  unfold Flat.write
  by_cases h₂ : addr + n ≤ pfn ∧ pfn < fin
  · have hoff : u64 (u64 (dst + n * gpuPageSize) + (pfn - (addr + n)) * gpuPageSize) =
        u64 (dst + (pfn - addr) * gpuPageSize) := by
      have hs : n * gpuPageSize + (pfn - (addr + n)) * gpuPageSize =
          (pfn - addr) * gpuPageSize := by
        rw [← Nat.add_mul]
        congr 1
        omega
      unfold u64
      rw [Nat.mod_add_mod, Nat.add_assoc, hs]
    rw [if_pos h₂, if_pos ⟨by omega, h₂.2⟩, hoff]
  · rw [if_neg h₂]
    by_cases h₁ : addr ≤ pfn ∧ pfn < addr + n
    · rw [if_pos h₁, if_pos ⟨h₁.1, by omega⟩]
    · rw [if_neg h₁, if_neg (by omega)]

/-- `gsgpu_vm_update_ptes`, when it rewrites every huge block it touches. -/
theorem Refines.ptesUpdated {pages : Option (ℕ → ℕ)} {full : Entries → Bool}
    {addr fin dst flags : ℕ} (h : Refines L T F) (hf : flags.testBit 1 = false)
    (hl : ∀ pfn, addr ≤ pfn → pfn < fin → T.HasLeaf pfn)
    (hw : ∀ pfn pfn', addr ≤ pfn → pfn < fin → (T.pt (leafOf pfn)).huge = true →
      pfn' / vmPteCount = pfn / vmPteCount → addr ≤ pfn' ∧ pfn' < fin) :
    Refines L (PageTable.ptesUpdated (entryParams L pages full) addr fin dst flags T)
      (F.write pages addr fin dst flags) := by
  induction addr, dst, T using ptesUpdated.induct (entryParams L pages full) fin flags
    generalizing F with
  | case1 addr dst T hlt ih =>
    have hle := blockPtes_le hlt
    have hblock : addr % 2048 + blockPtes addr fin ≤ 2048 := blockPtes_block hlt
    have hend : addr + blockPtes addr fin = fin ∨
        addr + blockPtes addr fin = (addr / 2048 + 1) * 2048 := blockPtes_end hlt
    rw [ptesUpdated_turn _ dst flags T hlt, ← Flat.write_append F pages dst flags hle]
    apply ih
    · apply h.blockUpdated (hl addr le_rfl hlt) hblock hf
      intro hh
      -- the first and the last page of the block are in the range
      have h₀ := hw addr (addr / 2048 * 2048) le_rfl hlt hh
        (show addr / 2048 * 2048 / 2048 = addr / 2048 by omega)
      have h₁ := hw addr (addr / 2048 * 2048 + 2047) le_rfl hlt hh
        (show (addr / 2048 * 2048 + 2047) / 2048 = addr / 2048 by omega)
      show blockPtes addr fin = 2048
      omega
    · intro pfn hge hfin
      exact (hl pfn (by omega) hfin).of_sameShape (blockUpdated_sameShape _ addr _ dst flags T)
    · intro pfn pfn' hge hfin hh hsame
      -- the next turn starts a block
      have hnext := hend.resolve_left (by omega)
      have hne : leafOf pfn ≠ leafOf addr := by
        rw [Ne, leafOf_eq_iff]
        show ¬ pfn / 2048 = addr / 2048
        omega
      rw [blockUpdated_huge_ne _ T hne] at hh
      have hin := hw pfn pfn' (by omega) hfin hh hsame
      have hsame' : pfn' / 2048 = pfn / 2048 := hsame
      omega
  | case2 addr dst T hge =>
    rw [ptesUpdated_done _ dst flags T hge]
    have : F.write pages addr fin dst flags = F := by
      funext pfn
      exact if_neg (by omega)
    rwa [this]

/-! ### Directories -/

namespace Refines
variable {full : Entries → Bool}

/-- A table leaves the list when its directory's entry needs nothing. -/
theorem unlist {t : Table} {ts : List Table} (h : Refines L T F) (hl : T.relocated = t :: ts)
    (hup : ∀ i t', t = i :: t' → (T.pt t).huge = false →
      T.mem (L.slot .main t' i) = ⟨L.base .main t, ptePresent⟩) :
    Refines L { T with relocated := ts } F := by
  constructor
  case root => exact h.root
  case valid => exact h.valid
  case parent => exact h.parent
  case listed => exact fun t' ht' => h.listed t' (by simp [hl, ht'])
  case huge => exact h.huge
  case linked =>
    intro i t' hbo hh
    obtain hmem | hlinked := h.linked i t' hbo hh
    · rw [hl, List.mem_cons] at hmem
      obtain rfl | hmem := hmem
      · exact .inr (hup i t' rfl hh)
      · exact .inl hmem
    · exact .inr hlinked
  case absent => exact h.absent
  case leaf => exact h.leaf
  case hugeLeaf => exact h.hugeLeaf
  case uncovered => exact h.uncovered

/-- The write of a directory's entry that points to its table. -/
theorem link_slot (T : Tree Entries) (full : Entries → Bool) {i k : ℕ} {t t' : Table}
    (hv : ValidTable (i :: t)) (ht' : ValidTable t') (hk : k < vmPteCount) :
    (T.write (entryParams L none full) t (i * pdePteSize) (L.base .main (i :: t)) 1 0
        ptePresent).mem (L.slot .main t' k) =
      if k :: t' = i :: t then ⟨L.base .main (i :: t), ptePresent⟩
      else T.mem (L.slot .main t' k) := by
  rw [write_slot T hv.tail ht' (by have := hv.head; omega) hk]
  by_cases heq : k :: t' = i :: t
  · obtain ⟨rfl, rfl⟩ := List.cons.inj heq
    have hlt := L.lt .main (k :: t') hv
    have hbase : u64 (L.base .main (k :: t')) = L.base .main (k :: t') :=
      Nat.mod_eq_of_lt (lt_of_lt_of_le (Nat.lt_add_of_pos_right (by decide)) hlt)
    rw [if_pos ⟨rfl, le_rfl, by omega⟩, if_pos rfl]
    simp [entryAddr, hbase]
  · rw [if_neg heq, if_neg]
    rintro ⟨rfl, hle, hlt⟩
    exact heq (by rw [show k = i by omega])

/-- The directory's entry of a table that is not huge is pointed at the table. -/
theorem link (h : Refines L T F) (full : Entries → Bool) {i : ℕ} {t : Table}
    (hbo : (T.pt (i :: t)).bo = true) (hh : (T.pt (i :: t)).huge = false) :
    Refines L (T.write (entryParams L none full) t (i * pdePteSize) (L.base .main (i :: t)) 1 0
      ptePresent) F := by
  have hv := h.valid _ hbo
  constructor
  case root => exact h.root
  case valid => exact h.valid
  case parent => exact h.parent
  case listed => exact h.listed
  case huge => exact h.huge
  case linked =>
    intro k t' hbo' hh'
    have hv' := h.valid _ hbo'
    rw [link_slot T full hv hv'.tail hv'.head]
    split
    · next heq => exact .inr (by rw [heq])
    · exact h.linked k t' hbo' hh'
  case absent =>
    intro k t' hp hv' hbo'
    rw [link_slot T full hv hv'.tail hv'.head, if_neg]
    · exact h.absent k t' hp hv' hbo'
    · intro heq
      rw [Tree.write_pt, heq, hbo] at hbo'
      cases hbo'
  case leaf =>
    intro pfn hbo' hh'
    rw [link_slot T full hv (h.valid _ hbo') (Nat.mod_lt _ (by decide)), if_neg]
    · exact h.leaf pfn hbo' hh'
    · intro heq
      rw [← heq] at hv
      exact ne_leafOf_of_valid hv pfn rfl
  case hugeLeaf =>
    intro pfn hh'
    have hv' := h.valid _ (h.huge _ hh').1
    rw [link_slot T full hv (h.valid _ (h.dirOf_bo (h.huge _ hh').1)) hv'.head, if_neg]
    · exact h.hugeLeaf pfn hh'
    · intro heq
      rw [Tree.write_pt] at hh'
      have heq' : leafOf pfn = i :: t := heq
      rw [heq', hh] at hh'
      cases hh'
  case uncovered => exact h.uncovered


/-- `gsgpu_vm_update_pde` for the first table of the list, as it leaves it. -/
theorem vmUpdatePde {t : Table} {ts : List Table} (h : Refines L T F) (full : Entries → Bool)
    (hl : T.relocated = t :: ts) (hne : t ≠ []) :
    Refines L (PageTable.vmUpdatePde (entryParams L none full) (L.base .main) t
      { T with relocated := ts }) F := by
  have hbo := h.listed t (by simp [hl])
  obtain ⟨i, t, rfl⟩ := List.exists_cons_of_ne_nil hne
  have hv := h.valid _ hbo
  unfold PageTable.vmUpdatePde
  cases hh : (T.pt (i :: t)).huge with
  | true =>
    rw [if_pos rfl]
    apply h.unlist hl
    intro _ _ _ hh'
    rw [hh] at hh'
    cases hh'
  | false =>
    rw [if_neg (by simp)]
    apply (h.link full hbo hh).unlist hl
    intro k t' heq _
    cases heq
    exact (link_slot T full hv hv.tail hv.head).trans (if_pos rfl)

/-- One pass over the list. -/
theorem directoriesPass (full : Entries → Bool) (l : List Table) :
    ∀ {T : Tree Entries}, Refines L T F → T.relocated = l →
      Refines L (PageTable.directoriesPass (entryParams L none full) (L.base .main) l T) F := by
  induction l with
  | nil =>
    intro T h hl
    unfold PageTable.directoriesPass
    rwa [← hl]
  | cons t ts ih =>
    intro T h hl
    have h' := h.setPt t (fun e => { e with moved := false }) fun e => ⟨rfl, rfl⟩
    unfold PageTable.directoriesPass
    dsimp only
    split
    · next ht =>
      refine ih (h'.unlist hl ?_) rfl
      rintro i t' rfl
      cases ht
    · next ht =>
      have hpde := h'.vmUpdatePde full hl ht
      split
      · exact hpde
      · refine ih hpde ?_
        unfold PageTable.vmUpdatePde
        split <;> rfl

end Refines

/-- The passes end with an empty list. -/
theorem directoriesPasses_spec (full : Entries → Bool) (n : ℕ) :
    ∀ {T : Tree Entries}, Refines L T F → T.relocated.length ≤ n →
      Refines L (directoriesPasses (entryParams L none full) (L.base .main) n T) F ∧
        (directoriesPasses (entryParams L none full) (L.base .main) n T).relocated = [] := by
  induction n with
  | zero =>
    intro T h hn
    exact ⟨h, List.length_eq_zero_iff.mp (Nat.le_zero.mp hn)⟩
  | succ n ih =>
    intro T h hn
    unfold directoriesPasses
    split
    · next hl => exact ⟨h, hl⟩
    · apply ih (h.directoriesPass full _ rfl)
      have := directoriesPass_relocated (entryParams L none full) (L.base .main) T.relocated T
      show (directoriesPass _ _ _ _).relocated.length ≤ n
      omega

/-! ### Runs -/

theorem Refines.of_fresh {s : Machine} (h : Fresh L s) : Refines L s.tree s.flat := by
  obtain ⟨hpt, hlist, ⟨m, hmem⟩, hflat⟩ := h
  have hbo : ∀ t, (s.tree.pt t).bo = true → t = [] := by
    intro t ht
    simpa [hpt] using ht
  have hhuge : ∀ t, (s.tree.pt t).huge = false := by
    intro t
    simp [hpt]
  constructor
  case root => simp [hpt]
  case valid =>
    intro t ht
    rw [hbo t ht]
    trivial
  case parent => exact fun i t ht => by cases hbo _ ht
  case listed =>
    intro t ht
    simp [hpt, hlist t ht]
  case huge => exact fun t ht => absurd ht (by simp [hhuge])
  case linked => exact fun i t ht => by cases hbo _ ht
  case absent =>
    intro i t ht hv _
    have hroot : ValidTable [] := trivial
    rw [hmem, vmClearBo_slot m hroot hv.tail hv.head, if_pos ⟨rfl, hbo t ht⟩]
  case leaf => exact fun pfn ht => by cases hbo _ ht
  case hugeLeaf => exact fun pfn ht => absurd ht (by simp [hhuge])
  case uncovered =>
    intro pfn _
    rw [hflat]

theorem Refines.step {s s' : Machine} {e : Event} (h : Refines L s.tree s.flat)
    (hg : WholeHugeBlocks s e) (hs : Step L s e s') : Refines L s'.tree s'.flat := by
  cases e with
  | allocPts env saddr size =>
    obtain ⟨r, hrun, hflat⟩ := hs
    rw [hflat]
    exact (Prog.of_wp (vmAllocPts_extends h env saddr size) hrun).1
  | updatePtes pages start fin dst flags =>
    obtain ⟨hl, hf, hrun, hflat⟩ := hs
    rw [vmUpdatePtes_eq hl] at hrun
    injection hrun with hrun
    rw [hflat, ← (Prod.mk.inj hrun).2]
    exact h.ptesUpdated hf hl hg
  | updateDirectories full =>
    obtain ⟨htree, hflat⟩ := hs
    rw [htree, hflat]
    exact (directoriesPasses_spec full _ h le_rfl).1

/-- In every run whose updates rewrite the huge blocks they touch, once the directories are up to
date the walk of every page finds what the last update of the page wrote, and nothing present
where there was none. -/
theorem hwWalk_agrees {s s' : Machine} {full : Entries → Bool}
    (h : Transition.Reach (Fresh L) (Step L) WholeHugeBlocks s)
    (hs : Step L s (.updateDirectories full) s') {pfn : ℕ} (hp : pfn < maxPfn) :
    Agrees (s'.flat pfn) (hwWalk L s'.tree.mem pfn) := by
  have hr : Refines L s.tree s.flat :=
    h.invariant (fun _ => Refines.of_fresh) fun _ _ _ hI hg hs => hI.step hg hs
  obtain ⟨htree, hflat⟩ := hs
  obtain ⟨hr', hl⟩ := directoriesPasses_spec full _ hr le_rfl
  rw [htree, hflat]
  exact hr'.walk hl hp

/-! ### A run -/

def freshMachine : Machine where
  tree :=
    { shadow := false
      pt := fun t => ⟨t == [], false, false, false⟩
      relocated := [[]]
      mem := vmClearBo denseLayout .main [] fun _ => ⟨0, 0⟩ }
  flat := fun _ => none

/-- The first block's tables are allocated. -/
def blockMachine : Machine where
  tree :=
    let T := freshMachine.tree.setPt [] fun e => { e with entries := true }
    let T := (attached denseLayout [0] T).setPt [0] fun e => { e with entries := true }
    attached denseLayout [0, 0] T
  flat := fun _ => none

/-- The block is mapped as a whole. -/
def hugeMachine : Machine where
  tree := blockUpdated (entryParams denseLayout none fun _ => false) 0 2048 0 1 blockMachine.tree
  flat := blockMachine.flat.write none 0 2048 0 1

/-- Its first page is mapped elsewhere. -/
def partialMachine : Machine where
  tree := blockUpdated (entryParams denseLayout none fun _ => false) 0 1 (2 ^ 40) 1 hugeMachine.tree
  flat := hugeMachine.flat.write none 0 1 (2 ^ 40) 1

def Machine.withDirectories (s : Machine) : Machine where
  tree := vmUpdateDirectories (entryParams denseLayout none fun _ => false)
    (denseLayout.base .main) s.tree
  flat := s.flat

theorem fresh_freshMachine : Fresh denseLayout freshMachine :=
  ⟨fun _ => rfl, by simp [freshMachine], ⟨_, rfl⟩, rfl⟩

theorem step_blockMachine : Step denseLayout freshMachine
    (.allocPts ⟨fun _ => true, fun _ => none⟩ 0 (2048 * gpuPageSize)) blockMachine :=
  ⟨.ok (), rfl, rfl⟩

theorem hasLeaf_of_first {T : Tree Entries} (hr : (T.pt []).entries = true)
    (hd : (T.pt [0]).entries = true) (hl : (T.pt [0, 0]).bo = true) {pfn : ℕ} (h : pfn < 2048) :
    T.HasLeaf pfn := by
  have hdir : dirOf pfn = [0] := by
    simp only [dirOf, List.cons.injEq, and_true]
    omega
  have hleaf : leafOf pfn = [0, 0] := by
    simp only [leafOf, List.cons.injEq, and_true]
    omega
  exact ⟨by unfold maxPfn; omega, hr, by rwa [hdir], by rwa [hleaf]⟩

theorem step_hugeMachine :
    Step denseLayout blockMachine (.updatePtes none 0 2048 0 1) hugeMachine := by
  have hl : ∀ pfn, 0 ≤ pfn → pfn < 2048 → blockMachine.tree.HasLeaf pfn :=
    fun pfn _ h => hasLeaf_of_first rfl rfl rfl h
  refine ⟨hl, rfl, ?_, rfl⟩
  rw [vmUpdatePtes_eq hl, ptesUpdated_block _ _ _ _ (by decide) (by decide)]
  rfl

theorem step_partialMachine :
    Step denseLayout hugeMachine (.updatePtes none 0 1 (2 ^ 40) 1) partialMachine := by
  have hl : ∀ pfn, 0 ≤ pfn → pfn < 1 → hugeMachine.tree.HasLeaf pfn :=
    fun pfn _ h => hasLeaf_of_first rfl rfl rfl (by omega)
  refine ⟨hl, rfl, ?_, rfl⟩
  rw [vmUpdatePtes_eq hl, ptesUpdated_block _ _ _ _ (by decide) (by decide)]
  rfl

/-- The rest of a huge mapping is lost when one of its pages is mapped elsewhere: the leaf table
takes over with what it held before, here nothing. -/
theorem hwWalk_loses_huge_mapping :
    ¬ ∀ (L : Layout) (s s' : Machine) (full : Entries → Bool) (pfn : ℕ),
      Transition.Reach (Fresh L) (Step L) (fun _ _ => True) s →
      Step L s (.updateDirectories full) s' → pfn < maxPfn →
      Agrees (s'.flat pfn) (hwWalk L s'.tree.mem pfn) := by
  intro h
  have hreach : Transition.Reach (Fresh denseLayout) (Step denseLayout) (fun _ _ => True)
      partialMachine :=
    (((Transition.Reach.start fresh_freshMachine).next trivial step_blockMachine).next trivial
      step_hugeMachine).next trivial step_partialMachine
  have hwalk := h denseLayout partialMachine partialMachine.withDirectories (fun _ => false) 1
    hreach ⟨rfl, rfl⟩ (by decide)
  have hflat : partialMachine.withDirectories.flat 1 = some ⟨gpuPageSize, 1⟩ := by decide
  have hmem : (hwWalk denseLayout partialMachine.withDirectories.tree.mem 1).flags = 0 := by
    decide +kernel
  rw [hflat] at hwalk
  rw [show hwWalk denseLayout partialMachine.withDirectories.tree.mem 1 = _ from hwalk] at hmem
  cases hmem

theorem hwWalk_agrees_hugeMachine :
    hwWalk denseLayout hugeMachine.withDirectories.tree.mem 5 = ⟨5 * gpuPageSize, 1⟩ := by
  have hreach : Transition.Reach (Fresh denseLayout) (Step denseLayout) WholeHugeBlocks
      hugeMachine := by
    refine ((Transition.Reach.start fresh_freshMachine).next trivial step_blockMachine).next ?_
      step_hugeMachine
    intro pfn pfn' _ hlt hh
    have hleaf : leafOf pfn = [0, 0] := by
      simp only [leafOf, List.cons.injEq, and_true]
      omega
    rw [hleaf] at hh
    exact absurd hh (by decide)
  have hstep : Step denseLayout hugeMachine (.updateDirectories fun _ => false)
      hugeMachine.withDirectories := ⟨rfl, rfl⟩
  have hwalk : Agrees (hugeMachine.withDirectories.flat 5)
      (hwWalk denseLayout hugeMachine.withDirectories.tree.mem 5) :=
    hwWalk_agrees hreach hstep (by decide)
  exact hwalk

end Gsgpu.PageTable
