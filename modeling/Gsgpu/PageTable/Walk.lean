import Gsgpu.Lib.Run
import Gsgpu.PageTable.Loops

/-! The page tables as the hardware reads them: entries at addresses, the walk from the root, and
the runs of allocations and updates beside the flat map they are meant to produce. -/
namespace Gsgpu.PageTable
open Gsgpu.Vm (u64 Pte)

/-- The tables of a VM: a root, its directories and their leaves. -/
def ValidTable : Table → Prop
  | [] => True
  | [i] => i < 2 ^ 4
  | [j, i] => j < 2 ^ 11 ∧ i < 2 ^ 4
  | _ => False

instance (t : Table) : Decidable (ValidTable t) := by
  unfold ValidTable
  split <;> infer_instance

theorem valid_leafOf {pfn : ℕ} (hp : pfn < maxPfn) : ValidTable (leafOf pfn) := by
  unfold maxPfn at hp
  show pfn % 2 ^ 22 / 2 ^ 11 < 2 ^ 11 ∧ pfn / 2 ^ 22 < 2 ^ 4
  omega

theorem valid_dirOf {pfn : ℕ} (hp : pfn < maxPfn) : ValidTable (dirOf pfn) := by
  unfold maxPfn at hp
  show pfn / 2 ^ 22 < 2 ^ 4
  omega

/-- Where the tables and their shadows are: no two entries share an address. -/
structure Layout where
  base : Copy → Table → ℕ
  lt : ∀ c t, ValidTable t → base c t + vmPteCount * pdePteSize ≤ 2 ^ 64
  inj : ∀ c t k c' t' k', ValidTable t → ValidTable t' → k < vmPteCount → k' < vmPteCount →
    base c t + k * pdePteSize = base c' t' + k' * pdePteSize → c = c' ∧ t = t' ∧ k = k'

/-- The address of an entry. -/
def Layout.slot (L : Layout) (c : Copy) (t : Table) (k : ℕ) : ℕ := L.base c t + k * pdePteSize

/-- The tables one after the other, each followed by its shadow. -/
def denseIndex : Table → ℕ
  | [] => 0
  | [i] => 1 + i
  | j :: i :: _ => 32 + i * 2048 + j

def denseBase (c : Copy) (t : Table) : ℕ :=
  (2 * denseIndex t + if c = .main then 0 else 1) * (vmPteCount * pdePteSize)

theorem denseIndex_lt {t : Table} (h : ValidTable t) : denseIndex t < 2 ^ 16 := by
  match t with
  | [] => decide
  | [i] =>
    have : i < 16 := h
    simp only [denseIndex]
    omega
  | [j, i] =>
    have h' : j < 2048 ∧ i < 16 := h
    simp only [denseIndex]
    omega
  | _ :: _ :: _ :: _ => exact h.elim

theorem denseIndex_inj {t t' : Table} (h : ValidTable t) (h' : ValidTable t')
    (heq : denseIndex t = denseIndex t') : t = t' := by
  match t, t' with
  | [], [] => rfl
  | [], [i] => simp only [denseIndex] at heq; omega
  | [], [j, i] => simp only [denseIndex] at heq; omega
  | [i], [] => simp only [denseIndex] at heq; omega
  | [i], [i'] =>
    simp only [denseIndex] at heq
    rw [show i = i' by omega]
  | [i], [j', i'] =>
    have h₁ : i < 16 := h
    simp only [denseIndex] at heq
    omega
  | [j, i], [] => simp only [denseIndex] at heq; omega
  | [j, i], [i'] =>
    have h₁ : i' < 16 := h'
    simp only [denseIndex] at heq
    omega
  | [j, i], [j', i'] =>
    have h₁ : j < 2048 ∧ i < 16 := h
    have h₂ : j' < 2048 ∧ i' < 16 := h'
    simp only [denseIndex] at heq
    rw [show i = i' by omega, show j = j' by omega]
  | _ :: _ :: _ :: _, _ => exact h.elim
  | _, _ :: _ :: _ :: _ => exact h'.elim

def denseLayout : Layout where
  base := denseBase
  lt := by
    intro c t h
    have := denseIndex_lt h
    show (2 * denseIndex t + if c = .main then 0 else 1) * 16384 + 16384 ≤ 2 ^ 64
    split <;> omega
  inj := by
    intro c t k c' t' k' h h' hk hk' heq
    have hk : k < 2048 := hk
    have hk' : k' < 2048 := hk'
    have heq : (2 * denseIndex t + if c = .main then 0 else 1) * 16384 + k * 8 =
        (2 * denseIndex t' + if c' = .main then 0 else 1) * 16384 + k' * 8 := heq
    have hidx : c = c' ∧ denseIndex t = denseIndex t' ∧ k = k' := by
      cases c <;> cases c' <;> simp at heq ⊢ <;> omega
    exact ⟨hidx.1, denseIndex_inj h h' hidx.2.1, hidx.2.2⟩

/-- The contents of memory, as entries. -/
abbrev Entries := ℕ → Pte

/-- The address an entry gets: one of the pages when there are any, else the address itself. -/
def entryAddr (pages : Option (ℕ → ℕ)) (addr : ℕ) : ℕ :=
  match pages with
  | some dma => vmMapGart dma addr
  | none => addr

/-- `count` entries from `pe` on, for addresses `incr` apart. -/
def setEntries (L : Layout) (pages : Option (ℕ → ℕ)) (c : Copy) (t : Table)
    (pe addr count incr flags : ℕ) (m : Entries) : Entries := fun a =>
  let i := (a - (L.base c t + pe)) / pdePteSize
  if a = L.base c t + pe + i * pdePteSize ∧ i < count then
    ⟨entryAddr pages (u64 (addr + i * incr)), flags⟩
  else m a

/-- `gsgpu_vm_clear_bo`. -/
def vmClearBo (L : Layout) (c : Copy) (t : Table) : Entries → Entries :=
  setEntries L none c t 0 0 vmPteCount gpuPageSize 0

/-- The parameters of an update; `src` is set for pages of system memory. -/
def entryParams (L : Layout) (pages : Option (ℕ → ℕ)) (full : Entries → Bool) : Params Entries where
  src := if pages.isSome then 2 ^ 64 - 1 else 0
  func := setEntries L pages
  full := full
  submit := id

/-- The end of the hardware's walk, from the directory's entry: a huge one is the translation,
an absent one has none. -/
def walkDir (m : Entries) (pde : Pte) (pfn : ℕ) : Pte :=
  if pde.flags.testBit 1 then
    ⟨u64 (pde.addr + pfn % vmPteCount * gpuPageSize), pde.flags ^^^ pteHugepage⟩
  else if pde.present then m (pde.addr + pfn % vmPteCount * pdePteSize)
  else ⟨0, 0⟩

/-- The hardware's walk of the tree. -/
def hwWalk (L : Layout) (m : Entries) (pfn : ℕ) : Pte :=
  let root := m (L.slot .main [] (pfn / 2 ^ 22))
  if root.present then walkDir m (m (root.addr + pfn % 2 ^ 22 / 2 ^ 11 * pdePteSize)) pfn
  else ⟨0, 0⟩

/-- What the pages are to read as: the last write of each, if there was one. -/
abbrev Flat := ℕ → Option Pte

/-- Every page of `[start, fin)` gets its entry. -/
def Flat.write (F : Flat) (pages : Option (ℕ → ℕ)) (start fin dst flags : ℕ) : Flat := fun pfn =>
  if start ≤ pfn ∧ pfn < fin then
    some ⟨entryAddr pages (u64 (dst + (pfn - start) * gpuPageSize)), flags⟩
  else F pfn

/-- An entry as the last write left it, or not present when there was none. -/
def Agrees : Option Pte → Pte → Prop
  | some e, e' => e' = e
  | none, e' => e'.present = false

/-- The tree beside the flat map. -/
structure Machine where
  tree : Tree Entries
  flat : Flat

inductive Event
  | allocPts (env : AllocEnv) (saddr size : ℕ)
  | updatePtes (pages : Option (ℕ → ℕ)) (start fin dst flags : ℕ)
  | updateDirectories (full : Entries → Bool)

/-- A new VM: its root is allocated and cleared, and may be on the list. -/
def Fresh (L : Layout) (s : Machine) : Prop :=
  (∀ t, s.tree.pt t = ⟨t == [], false, false, false⟩) ∧ (∀ t ∈ s.tree.relocated, t = []) ∧
    (∃ m, s.tree.mem = vmClearBo L .main [] m) ∧ s.flat = fun _ => none

/-- One call, and what it writes of the flat map. An update returns 0 and is given a range whose
leaf tables are allocated; an allocation may fail. -/
def Step (L : Layout) (s : Machine) : Event → Machine → Prop
  | .allocPts env saddr size, s' =>
    ∃ r, vmAllocPts env (vmClearBo L) saddr size s.tree = .ok (r, s'.tree) ∧ s'.flat = s.flat
  | .updatePtes pages start fin dst flags, s' =>
    (∀ pfn, start ≤ pfn → pfn < fin → s.tree.HasLeaf pfn) ∧ flags.testBit 1 = false ∧
      vmUpdatePtes (entryParams L pages fun _ => false) start fin dst flags s.tree =
        .ok (.ok (), s'.tree) ∧
      s'.flat = s.flat.write pages start fin dst flags
  | .updateDirectories full, s' =>
    s'.tree = vmUpdateDirectories (entryParams L none full) (L.base .main) s.tree ∧
      s'.flat = s.flat

/-- An update that touches a huge block rewrites all of it. -/
def WholeHugeBlocks (s : Machine) : Event → Prop
  | .updatePtes _ start fin _ _ => ∀ pfn pfn', start ≤ pfn → pfn < fin →
      (s.tree.pt (leafOf pfn)).huge = true → pfn' / vmPteCount = pfn / vmPteCount →
      start ≤ pfn' ∧ pfn' < fin
  | _ => True

end Gsgpu.PageTable
