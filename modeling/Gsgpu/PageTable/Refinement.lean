import Gsgpu.PageTable.Walk

/-! What the page tables hold between two calls of the driver, that the hardware's walk then finds
the flat map, and that allocations keep it. -/
namespace Gsgpu.PageTable
open Gsgpu.Vm (u64 Pte)

variable {L : Layout} {T : Tree Entries} {F : Flat}

/-! ### Reads after writes -/

/-- An entry after a write: the new one in the table and the range written, else the old one. -/
theorem setEntries_slot {pages : Option (ℕ → ℕ)} {c c' : Copy} {t t' : Table}
    {k₀ k addr count incr flags : ℕ} (m : Entries) (ht : ValidTable t) (ht' : ValidTable t')
    (hk₀ : k₀ + count ≤ vmPteCount) (hk : k < vmPteCount) :
    setEntries L pages c t (k₀ * pdePteSize) addr count incr flags m (L.slot c' t' k) =
      if (c' = c ∧ t' = t) ∧ k₀ ≤ k ∧ k < k₀ + count then
        ⟨entryAddr pages (u64 (addr + (k - k₀) * incr)), flags⟩
      else m (L.slot c' t' k) := by
  have h8 : pdePteSize = 8 := rfl
  unfold setEntries Layout.slot
  by_cases h : (c' = c ∧ t' = t) ∧ k₀ ≤ k ∧ k < k₀ + count
  · obtain ⟨⟨rfl, rfl⟩, hle, hlt⟩ := h
    have hi : (L.base c' t' + k * pdePteSize - (L.base c' t' + k₀ * pdePteSize)) / pdePteSize =
        k - k₀ := by
      rw [h8]
      omega
    dsimp only
    rw [hi, if_pos ⟨by rw [h8]; omega, by omega⟩, if_pos ⟨⟨rfl, rfl⟩, hle, hlt⟩]
  · rw [if_neg h, if_neg]
    rintro ⟨ha, hi⟩
    generalize (L.base c' t' + k * pdePteSize - (L.base c t + k₀ * pdePteSize)) / pdePteSize = i
      at ha hi
    have ha' : L.base c' t' + k * pdePteSize = L.base c t + (k₀ + i) * pdePteSize := by
      rw [ha, h8]
      omega
    obtain ⟨hc, ht, hik⟩ := L.inj c' t' k c t (k₀ + i) ht' ht hk (by omega) ha'
    exact h ⟨⟨hc, ht⟩, by omega, by omega⟩

/-- The hardware does not see the shadows. -/
theorem write_slot {pages : Option (ℕ → ℕ)} {full : Entries → Bool} {t t' : Table}
    {k₀ k addr count incr flags : ℕ} (T : Tree Entries) (ht : ValidTable t) (ht' : ValidTable t')
    (hk₀ : k₀ + count ≤ vmPteCount) (hk : k < vmPteCount) :
    (T.write (entryParams L pages full) t (k₀ * pdePteSize) addr count incr flags).mem
        (L.slot .main t' k) =
      if t' = t ∧ k₀ ≤ k ∧ k < k₀ + count then
        ⟨entryAddr pages (u64 (addr + (k - k₀) * incr)), flags⟩
      else T.mem (L.slot .main t' k) := by
  have hs : (if T.shadow then
        (entryParams L pages full).func .shadow t (k₀ * pdePteSize) addr count incr flags T.mem
      else T.mem) (L.slot .main t' k) = T.mem (L.slot .main t' k) := by
    split
    · show setEntries L pages .shadow t (k₀ * pdePteSize) addr count incr flags T.mem _ = _
      rw [setEntries_slot T.mem ht ht' hk₀ hk, if_neg (by simp)]
    · rfl
  show setEntries L pages .main t (k₀ * pdePteSize) addr count incr flags _ (L.slot .main t' k) = _
  rw [setEntries_slot _ ht ht' hk₀ hk, hs]
  simp

/-! ### The invariant -/

/-- What the tables hold between two calls. A leaf that is neither huge nor on the list is found
from its directory, and likewise a directory from the root; a leaf that is not huge agrees with
the flat map, and so does the directory entry of a huge one. -/
structure Refines (L : Layout) (T : Tree Entries) (F : Flat) : Prop where
  root : (T.pt []).bo = true
  valid : ∀ t, (T.pt t).bo = true → ValidTable t
  parent : ∀ i t, (T.pt (i :: t)).bo = true → (T.pt t).bo = true
  listed : ∀ t ∈ T.relocated, (T.pt t).bo = true
  huge : ∀ t, (T.pt t).huge = true → (T.pt t).bo = true ∧ t.length = 2
  linked : ∀ i t, (T.pt (i :: t)).bo = true → (T.pt (i :: t)).huge = false →
    i :: t ∈ T.relocated ∨ T.mem (L.slot .main t i) = ⟨L.base .main (i :: t), ptePresent⟩
  absent : ∀ i t, (T.pt t).bo = true → ValidTable (i :: t) → (T.pt (i :: t)).bo = false →
    (T.mem (L.slot .main t i)).flags = 0
  leaf : ∀ pfn, (T.pt (leafOf pfn)).bo = true → (T.pt (leafOf pfn)).huge = false →
    Agrees (F pfn) (T.mem (L.slot .main (leafOf pfn) (pfn % vmPteCount)))
  hugeLeaf : ∀ pfn, (T.pt (leafOf pfn)).huge = true → ∃ d f,
    T.mem (L.slot .main (dirOf pfn) (pfn % 2 ^ 22 / 2 ^ 11)) = ⟨d, f ||| pteHugepage⟩ ∧
      f.testBit 1 = false ∧ F pfn = some ⟨u64 (d + pfn % vmPteCount * gpuPageSize), f⟩
  uncovered : ∀ pfn, (T.pt (leafOf pfn)).bo = false → F pfn = none

namespace Refines

theorem dir_huge (h : Refines L T F) (i : ℕ) : (T.pt [i]).huge = false := by
  cases hh : (T.pt [i]).huge with
  | false => rfl
  | true => simpa using (h.huge [i] hh).2

/-- The huge page flag, put on and taken off. -/
theorem or_xor_hugepage {f : ℕ} (hf : f.testBit 1 = false) :
    (f ||| pteHugepage) ^^^ pteHugepage = f := by
  have h2 : pteHugepage = 2 ^ 1 := rfl
  apply Nat.eq_of_testBit_eq
  intro i
  rw [h2, Nat.testBit_xor, Nat.testBit_or, Nat.testBit_two_pow]
  by_cases hi : 1 = i
  · subst hi
    simp [hf]
  · simp [hi]

theorem testBit_or_hugepage (f : ℕ) : (f ||| pteHugepage).testBit 1 = true := by
  rw [Nat.testBit_or, show pteHugepage.testBit 1 = true from rfl, Bool.or_true]

theorem dirOf_bo (h : Refines L T F) {pfn : ℕ} (hbo : (T.pt (leafOf pfn)).bo = true) :
    (T.pt (dirOf pfn)).bo = true := h.parent _ _ hbo

/-- Without a leaf nothing was written. -/
theorem agrees_absent (h : Refines L T F) {pfn : ℕ} (hbo : (T.pt (leafOf pfn)).bo = false) :
    Agrees (F pfn) ⟨0, 0⟩ := by
  rw [h.uncovered pfn hbo]
  rfl

theorem not_present_of_flags {e : Pte} (h : e.flags = 0) : ¬ e.present = true := by
  simp [Pte.present, h]

/-- The end of the walk, in a directory that exists. -/
theorem walkDir_agrees (h : Refines L T F) (hl : T.relocated = []) {pfn : ℕ} (hp : pfn < maxPfn)
    (hb : (T.pt (dirOf pfn)).bo = true) :
    Agrees (F pfn)
      (walkDir T.mem (T.mem (L.slot .main (dirOf pfn) (pfn % 2 ^ 22 / 2 ^ 11))) pfn) := by
  unfold walkDir
  cases hbo : (T.pt (leafOf pfn)).bo with
  | false =>
    have hz := h.absent _ (dirOf pfn) hb (valid_leafOf hp) hbo
    rw [if_neg (by rw [hz, Nat.zero_testBit]; simp), if_neg (not_present_of_flags hz)]
    exact h.agrees_absent hbo
  | true =>
    cases hh : (T.pt (leafOf pfn)).huge with
    | true =>
      obtain ⟨d, f, hpde, hf, hF⟩ := h.hugeLeaf pfn hh
      rw [hpde, if_pos (testBit_or_hugepage f), hF, or_xor_hugepage hf]
      rfl
    | false =>
      have hpde := (h.linked _ (dirOf pfn) hbo hh).resolve_left (by simp [hl])
      rw [hpde, if_neg (show ¬ ptePresent.testBit 1 = true by decide),
        if_pos (by simp [Pte.present, ptePresent])]
      exact h.leaf pfn hbo hh

/-- With nothing on the list, the walk finds what the flat map has. -/
theorem walk (h : Refines L T F) (hl : T.relocated = []) {pfn : ℕ} (hp : pfn < maxPfn) :
    Agrees (F pfn) (hwWalk L T.mem pfn) := by
  unfold hwWalk
  dsimp only
  cases hb : (T.pt (dirOf pfn)).bo with
  | false =>
    rw [if_neg (not_present_of_flags (h.absent _ [] h.root (valid_dirOf hp) hb))]
    apply h.agrees_absent
    cases hbo : (T.pt (leafOf pfn)).bo with
    | false => rfl
    | true => exact absurd (h.dirOf_bo hbo) (by simp [hb])
  | true =>
    have hroot := (h.linked _ [] hb (h.dir_huge _)).resolve_left (by simp [hl])
    rw [hroot, if_pos (by simp [Pte.present, ptePresent])]
    exact h.walkDir_agrees hl hp hb

/-! ### Allocation -/

/-- A change of a table's state that the invariant does not speak of. -/
theorem setPt (h : Refines L T F) (t : Table) (f : Pt → Pt)
    (hf : ∀ e, (f e).bo = e.bo ∧ (f e).huge = e.huge) : Refines L (T.setPt t f) F := by
  have hbo : ∀ t', ((T.setPt t f).pt t').bo = (T.pt t').bo := by
    intro t'
    by_cases ht : t' = t
    · subst ht
      simpa using (hf _).1
    · rw [T.setPt_pt_ne f ht]
  have hhuge : ∀ t', ((T.setPt t f).pt t').huge = (T.pt t').huge := by
    intro t'
    by_cases ht : t' = t
    · subst ht
      simpa using (hf _).2
    · rw [T.setPt_pt_ne f ht]
  obtain ⟨h₁, h₂, h₃, h₄, h₅, h₆, h₇, h₈, h₉, h₁₀⟩ := h
  constructor <;> simpa only [hbo, hhuge]

end Refines

/-- The tree with a new table, as `allocTable` leaves it. -/
def attached (L : Layout) (t : Table) (T : Tree Entries) : Tree Entries :=
  let mem := vmClearBo L .main t T.mem
  let T := { T with mem := if T.shadow then vmClearBo L .shadow t mem else mem }
  (T.setPt t fun e => { e with bo := true }).relocate t

/-- A cleared table is all zero flags, and the others are as they were. -/
theorem vmClearBo_slot {c c' : Copy} {t t' : Table} {k : ℕ} (m : Entries) (ht : ValidTable t)
    (ht' : ValidTable t') (hk : k < vmPteCount) :
    vmClearBo L c t m (L.slot c' t' k) =
      if c' = c ∧ t' = t then ⟨u64 (k * gpuPageSize), 0⟩ else m (L.slot c' t' k) := by
  show setEntries L none c t (0 * pdePteSize) 0 vmPteCount gpuPageSize 0 m _ = _
  rw [setEntries_slot m ht ht' (by simp) hk]
  simp [hk, entryAddr]

theorem attached_slot (T : Tree Entries) {t t' : Table} {k : ℕ} (ht : ValidTable t)
    (ht' : ValidTable t') (hk : k < vmPteCount) :
    (attached L t T).mem (L.slot .main t' k) =
      if t' = t then ⟨u64 (k * gpuPageSize), 0⟩ else T.mem (L.slot .main t' k) := by
  show (if T.shadow then vmClearBo L .shadow t (vmClearBo L .main t T.mem)
    else vmClearBo L .main t T.mem) _ = _
  split
  · rw [vmClearBo_slot _ ht ht' hk, if_neg (by simp), vmClearBo_slot _ ht ht' hk]
    simp
  · rw [vmClearBo_slot _ ht ht' hk]
    simp

theorem ValidTable.tail {i : ℕ} {t : Table} (h : ValidTable (i :: t)) : ValidTable t := by
  match t with
  | [] => trivial
  | [j] => exact h.2
  | [_, _] => exact h.elim
  | _ :: _ :: _ :: _ => exact h.elim

theorem ValidTable.head {i : ℕ} {t : Table} (h : ValidTable (i :: t)) : i < vmPteCount := by
  have hc : vmPteCount = 2 ^ 11 := rfl
  match t with
  | [] =>
    have : i < 2 ^ 4 := h
    omega
  | [j] => exact h.1
  | [_, _] => exact h.elim
  | _ :: _ :: _ :: _ => exact h.elim

theorem attached_bo (T : Tree Entries) (t t' : Table) :
    ((attached L t T).pt t').bo = true ↔ t' = t ∨ (T.pt t').bo = true := by
  show (if t' = t then _ else _ : Pt).bo = true ↔ _
  split <;> simp [*]

theorem attached_huge (T : Tree Entries) (t t' : Table) :
    ((attached L t T).pt t').huge = (T.pt t').huge := by
  show (if t' = t then _ else _ : Pt).huge = _
  split <;> simp [*]

theorem attached_listed (T : Tree Entries) (t t' : Table) :
    t' ∈ (attached L t T).relocated ↔ t' = t ∨ t' ∈ T.relocated := Tree.mem_relocate

namespace Refines

/-- A new table below one that exists. -/
theorem attach (h : Refines L T F) {i₀ : ℕ} {t₀ : Table} (hv : ValidTable (i₀ :: t₀))
    (hp : (T.pt t₀).bo = true) (hnew : (T.pt (i₀ :: t₀)).bo = false) :
    Refines L (attached L (i₀ :: t₀) T) F := by
  have hsub : ∀ {t}, (T.pt t).bo = true → ((attached L (i₀ :: t₀) T).pt t).bo = true :=
    fun ht => (attached_bo T _ _).mpr (.inr ht)
  constructor
  case root => exact hsub h.root
  case valid =>
    intro t ht
    obtain rfl | ht := (attached_bo T _ _).mp ht
    · exact hv
    · exact h.valid t ht
  case parent =>
    intro i t ht
    obtain heq | ht := (attached_bo T _ _).mp ht
    · cases heq
      exact hsub hp
    · exact hsub (h.parent i t ht)
  case listed =>
    intro t ht
    obtain rfl | ht := (attached_listed T _ _).mp ht
    · exact (attached_bo T _ _).mpr (.inl rfl)
    · exact hsub (h.listed t ht)
  case huge =>
    intro t ht
    rw [attached_huge] at ht
    exact ⟨hsub (h.huge t ht).1, (h.huge t ht).2⟩
  case linked =>
    intro i t ht hhuge
    rw [attached_huge] at hhuge
    rw [attached_listed]
    obtain heq | ht := (attached_bo T _ _).mp ht
    · exact .inl (.inl heq)
    · have hvt := h.valid _ ht
      rw [attached_slot T hv hvt.tail hvt.head, if_neg]
      · exact (h.linked i t ht hhuge).imp_left .inr
      · rintro rfl
        exact absurd (h.parent i _ ht) (by simp [hnew])
  case absent =>
    intro i t ht hvt hbo
    have hne : (T.pt (i :: t)).bo = false := by
      cases hc : (T.pt (i :: t)).bo with
      | false => rfl
      | true => exact absurd (hsub hc) (by simp [hbo])
    rw [attached_slot T hv hvt.tail hvt.head]
    split
    · rfl
    · next hn => exact h.absent i t (((attached_bo T _ _).mp ht).resolve_left hn) hvt hne
  case leaf =>
    intro pfn hbo hhuge
    rw [attached_huge] at hhuge
    have hk : pfn % vmPteCount < vmPteCount := Nat.mod_lt _ (by decide)
    obtain heq | ht := (attached_bo T _ _).mp hbo
    · rw [attached_slot T hv (heq ▸ hv) hk, if_pos heq, h.uncovered pfn (heq ▸ hnew)]
      exact Bool.eq_false_iff.mpr (not_present_of_flags rfl)
    · rw [attached_slot T hv (h.valid _ ht) hk, if_neg (by rintro heq; simp [heq, hnew] at ht)]
      exact h.leaf pfn ht hhuge
  case hugeLeaf =>
    intro pfn hhuge
    rw [attached_huge] at hhuge
    have hbo := (h.huge _ hhuge).1
    have hvl := h.valid _ hbo
    have hdir := h.dirOf_bo hbo
    rw [attached_slot T hv (h.valid _ hdir) hvl.head,
      if_neg (by rintro heq; simp [heq, hnew] at hdir)]
    exact h.hugeLeaf pfn hhuge
  case uncovered =>
    intro pfn hbo
    apply h.uncovered
    cases hc : (T.pt (leafOf pfn)).bo with
    | false => rfl
    | true => exact absurd (hsub hc) (by simp [hbo])

end Refines

/-- The invariant holds, and no table of `T` is gone. -/
def Extends (L : Layout) (F : Flat) (T T' : Tree Entries) : Prop := Refines L T' F ∧ T.Grows T'

theorem allocEntries_extends (h : Refines L T F) (env : AllocEnv) (t : Table) :
    Prog.wp True (allocEntries env t) (fun _ => Extends L F T) T := by
  unfold allocEntries
  rw [Prog.wp_bind, Prog.wp_gets]
  dsimp only
  split
  · exact ⟨h, .refl T⟩
  · rw [Prog.wp_bind, Prog.wp_require]
    constructor
    · intro _
      refine ⟨h.setPt t _ fun e => ⟨rfl, rfl⟩, ?_⟩
      intro t' ht'
      by_cases heq : t' = t
      · subst heq
        simpa using ht'
      · rwa [Tree.setPt_pt_ne T _ heq]
    · intro _
      exact ⟨h, .refl T⟩

theorem allocTable_extends (h : Refines L T F) (env : AllocEnv) {i : ℕ} {t : Table}
    (hv : ValidTable (i :: t)) (hp : (T.pt t).bo = true) :
    Prog.wp True (allocTable env (vmClearBo L) (i :: t))
      (fun r T' => Extends L F T T' ∧ (r = .ok () → (T'.pt (i :: t)).bo = true)) T := by
  unfold allocTable
  rw [Prog.wp_bind, Prog.wp_gets]
  dsimp only
  split
  · next hbo => exact ⟨⟨h, .refl T⟩, fun _ => hbo⟩
  · next hbo =>
    cases env.create (i :: t) with
    | some e => exact ⟨⟨h, .refl T⟩, fun he => nomatch he⟩
    | none =>
      have hg : T.Grows (attached L (i :: t) T) := fun t' ht' => (attached_bo T _ _).mpr (.inr ht')
      exact ⟨⟨h.attach hv hp (by simpa using hbo), hg⟩,
        fun _ => (attached_bo T _ _).mpr (.inl rfl)⟩

theorem validTable_cons {i : ℕ} {t : Table} (ht : ValidTable t) (hl : t.length < vmDir2)
    (hi : i < vmNumEntries t.length) : ValidTable (i :: t) := by
  match t with
  | [] => exact hi
  | [j] => exact ⟨hi, ht⟩
  | _ :: _ :: _ =>
    simp only [List.length_cons, vmDir2] at hl
    omega

/-- An allocation keeps the invariant, whether it fails or not. -/
theorem vmAllocLevels_extends (env : AllocEnv) (n : ℕ) :
    ∀ {T : Tree Entries} {parent : Table} {saddr eaddr : ℕ}, Refines L T F →
      (T.pt parent).bo = true → parent.length + n = vmDir2 →
      Prog.wp True (vmAllocLevels env (vmClearBo L) n parent saddr eaddr)
        (fun _ => Extends L F T) T := by
  induction n with
  | zero =>
    intro T parent saddr eaddr h hbo hlen
    exact ⟨h, .refl T⟩
  | succ n ih =>
    intro T parent saddr eaddr h hbo hlen
    unfold vmAllocLevels
    rw [Prog.wp_bind]
    apply Prog.wp_mono (allocEntries_extends h env parent)
    intro r T₁ h₁
    cases r with
    | error e => exact h₁
    | ok u =>
      dsimp only
      rw [Prog.wp_bind, Prog.wp_require]
      constructor
      · intro hidx
        simp only [Bool.and_eq_true, decide_eq_true_eq] at hidx
        apply Prog.wp_forM_invariant h₁
        intro i hi T₂ h₂
        have hbo₂ := h₂.2 parent hbo
        have hmem := List.mem_range'_1.mp hi
        have hv : ValidTable (i :: parent) :=
          validTable_cons (h.valid _ hbo) (by omega) (by omega)
        rw [Prog.wp_bind]
        apply Prog.wp_mono (allocTable_extends h₂.1 env hv hbo₂)
        rintro r T₃ ⟨h₃, hchild⟩
        cases r with
        | error e => exact ⟨h₃.1, h₂.2.trans h₃.2⟩
        | ok u =>
          dsimp only
          split
          · apply Prog.wp_mono (ih h₃.1 (hchild rfl) (by simp only [List.length_cons]; omega))
            rintro r T₄ h₄
            exact ⟨h₄.1, (h₂.2.trans h₃.2).trans h₄.2⟩
          · exact ⟨h₃.1, h₂.2.trans h₃.2⟩
      · intro _
        exact h₁

theorem vmAllocPts_extends (h : Refines L T F) (env : AllocEnv) (saddr size : ℕ) :
    Prog.wp True (vmAllocPts env (vmClearBo L) saddr size) (fun _ => Extends L F T) T := by
  unfold vmAllocPts
  rw [Prog.wp_bind, Prog.wp_require]
  constructor
  · intro _
    dsimp only
    rw [Prog.wp_bind, Prog.wp_require]
    constructor
    · intro _
      exact vmAllocLevels_extends env vmDir2 h h.root rfl
    · intro _
      exact ⟨h, .refl T⟩
  · intro _
    exact ⟨h, .refl T⟩

end Gsgpu.PageTable
