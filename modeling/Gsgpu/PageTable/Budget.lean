import Gsgpu.PageTable.Agreement

/-! The sizes of the IBs that update page tables: what the loops emit, with its padding, stays
inside what was allocated, also when an update fails on its way. -/
namespace Gsgpu.PageTable
open Gsgpu.Vm (u64)

/-! ### Updates of entries -/

/-- The commands with their padding fit, before the entries at the end of the IB. -/
def IbFits (shadow : Bool) (pages : Option (ℕ → ℕ)) (nptes : ℕ) (ib : List ℕ) : Prop :=
  (xdmaRingPadIb ib).length + (if pages.isSome then nptes * 2 else 0) ≤ ibNdw shadow pages nptes

section Entries
variable {L : Layout} {pages : Option (ℕ → ℕ)}

/-- A write emits nine dwords for the table and nine for its shadow. -/
theorem write_length (src : ℕ) (t : Table) (pe addr count incr flags : ℕ) (T : Tree (List ℕ)) :
    (T.write (xdmaParams L pages src) t pe addr count incr flags).mem.length =
      T.mem.length + 9 * packets T.shadow := by
  unfold Tree.write
  dsimp only
  rw [xdmaParams_func_length]
  cases T.shadow with
  | false => simp [packets]
  | true => simp [xdmaParams_func_length, packets]

/-- The IB after at most `n` writes. -/
def Emitted (T : Tree (List ℕ)) (n : ℕ) (T' : Tree (List ℕ)) : Prop :=
  T'.shadow = T.shadow ∧ T'.mem.length ≤ T.mem.length + 9 * (n * packets T.shadow)

theorem Emitted.refl (T : Tree (List ℕ)) (n : ℕ) : Emitted T n T := ⟨rfl, Nat.le_add_right _ _⟩

theorem Emitted.mono {T T₁ : Tree (List ℕ)} {m n : ℕ} (h : Emitted T m T₁) (hmn : m ≤ n) :
    Emitted T n T₁ := by
  refine ⟨h.1, h.2.trans ?_⟩
  exact Nat.add_le_add_left (Nat.mul_le_mul_left 9 (Nat.mul_le_mul_right _ hmn)) _

theorem Emitted.trans {T T₁ T₂ : Tree (List ℕ)} {m n : ℕ} (h : Emitted T m T₁)
    (h' : Emitted T₁ n T₂) : Emitted T (n + m) T₂ := by
  refine ⟨h'.1.trans h.1, ?_⟩
  have hfirst := h.2
  have hrest := h'.2
  rw [h.1] at hrest
  rw [Nat.add_mul]
  omega

theorem Emitted.write {T T₁ : Tree (List ℕ)} (hs : T₁.shadow = T.shadow) (hm : T₁.mem = T.mem)
    (src : ℕ) (t : Table) (pe d count incr fl : ℕ) :
    Emitted T 1 (T₁.write (xdmaParams L pages src) t pe d count incr fl) := by
  refine ⟨hs, ?_⟩
  rw [write_length, hs, hm, Nat.one_mul]

variable (L pages) in
/-- Making a block huge is a write, and then there is no other. -/
theorem vmHandleHugePages_cases (src : ℕ) (entry : Table) (nptes dst flags : ℕ)
    (T : Tree (List ℕ)) :
    Emitted T 1 (vmHandleHugePages (xdmaParams L pages src) entry nptes dst flags T) ∧
      (((vmHandleHugePages (xdmaParams L pages src) entry nptes dst flags T).pt entry).huge =
          false →
        (vmHandleHugePages (xdmaParams L pages src) entry nptes dst flags T).shadow = T.shadow ∧
          (vmHandleHugePages (xdmaParams L pages src) entry nptes dst flags T).mem = T.mem) := by
  unfold vmHandleHugePages
  split_ifs with hflags hhuge
  · exact ⟨.write rfl rfl src _ _ _ _ _ _, fun h => by simp at h⟩
  · exact ⟨⟨rfl, Nat.le_add_right _ _⟩, fun _ => ⟨rfl, rfl⟩⟩
  · exact ⟨.refl T 1, fun _ => ⟨rfl, rfl⟩⟩

theorem wp_vmGetEntry {F : Prop} (addr : ℕ) (Q : Except Errno (Option Table) → Tree (List ℕ) → Prop)
    (T : Tree (List ℕ)) : Prog.wp F (vmGetEntry addr) Q T =
      match getEntryFrom T.pt vmDir2 [] addr with
      | .error _ => F
      | .ok entry => Q (.ok entry) T := by
  unfold Prog.wp vmGetEntry
  cases getEntryFrom T.pt vmDir2 [] addr <;> rfl

/-- One turn makes at most one write, whatever it returns. -/
theorem updateBlock_emitted (src addr nptes dst flags : ℕ) (T : Tree (List ℕ)) :
    Prog.wp True (updateBlock (xdmaParams L pages src) addr nptes dst flags)
      (fun _ T' => Emitted T 1 T') T := by
  unfold updateBlock
  rw [Prog.wp_bind, wp_vmGetEntry]
  cases getEntryFrom T.pt vmDir2 [] addr with
  | error f => trivial
  | ok o =>
    cases o with
    | none => exact .refl T 1
    | some entry =>
      obtain ⟨hone, hzero⟩ := vmHandleHugePages_cases L pages src entry nptes dst flags T
      simp only [Prog.wp_bind, Prog.wp_modify, Prog.wp_gets]
      rw [Prog.wp_ite]
      split_ifs with hhuge
      · exact hone
      · rw [Bool.not_eq_true] at hhuge
        obtain ⟨hs, hm⟩ := hzero hhuge
        simp only [Prog.wp_bind, Prog.wp_gets]
        split_ifs
        · exact .write hs hm src _ _ _ _ _ _
        · trivial

/-- `gsgpu_vm_update_ptes` makes at most one write a block, also when it fails on its way. -/
theorem vmUpdatePtes_emitted (src fin flags : ℕ) {addr dst : ℕ} (T : Tree (List ℕ)) :
    Prog.wp True (vmUpdatePtes (xdmaParams L pages src) addr fin dst flags)
      (fun _ T' => Emitted T (blocks addr fin) T') T := by
  induction hk : fin - addr using Nat.strong_induction_on generalizing addr dst T with
  | _ k ih =>
    rw [vmUpdatePtes]
    split_ifs with hlt
    · have hpos := blockPtes_pos hlt
      rw [blocks_turn hlt, Prog.wp_bind]
      apply Prog.wp_mono (updateBlock_emitted src addr _ dst flags T)
      intro r T₁ h₁
      cases r with
      | error e => exact h₁.mono (Nat.le_add_left 1 _)
      | ok _ =>
        apply Prog.wp_mono (ih (fin - (addr + blockPtes addr fin)) (by omega) T₁ rfl)
        exact fun r₂ T₂ h₂ => h₁.trans h₂
    · exact .refl T _

/-- The commands of an update fit in its IB, before the entries that are stored there. -/
theorem vmUpdatePtes_fits (src : ℕ) {start last dst flags : ℕ} (hs : start ≤ last)
    (hl : last < maxPfn) (T : Tree (List ℕ)) (hT : T.mem = []) :
    Prog.wp True (vmUpdatePtes (xdmaParams L pages src) start (u64 (last + 1)) dst flags)
      (fun _ T' => IbFits T.shadow pages (ibNptes start last) T'.mem) T := by
  have hfin : u64 (last + 1) = last + 1 := by
    unfold maxPfn at hl
    unfold u64
    omega
  rw [hfin]
  apply Prog.wp_mono (vmUpdatePtes_emitted src (last + 1) flags T)
  intro r T' h
  have hpad := xdmaRingPadIb_length T'.mem
  have hlen := h.2
  rw [hT, List.length_nil, Nat.zero_add] at hlen
  have hblocks := Nat.mul_le_mul_right (packets T.shadow) (blocks_le start last)
  have hmax : maxPfn = 2 ^ 26 := rfl
  have hpackets := packets_le T.shadow
  have hcmds := Nat.mul_le_mul_left ((last + 1 - start) / 2 ^ 11 + 2) hpackets
  unfold IbFits ibNdw
  rw [ibNptes_eq hs hl, ibCommands_eq]
  -- 32 bits hold the size
  rw [u32, Nat.mod_eq_of_lt]
  · omega
  · split_ifs <;> omega

end Entries

/-! ### Updates of directories -/

/-- The IB that a pass of `gsgpu_vm_update_directories` fills, and those that were submitted. -/
abbrev Submitted := List ℕ × List (List ℕ)

/-- The dwords of an IB of `gsgpu_vm_update_directories`. -/
def directoriesNdw : ℕ := 512 * 8

/-- `gsgpu_vm_update_directories` by XDMA: a pass ends when less than 32 dwords are left, in
unsigned arithmetic, and an IB without commands is not submitted. -/
def directoriesParams (L : Layout) : Params Submitted where
  src := 0
  func := fun c t pe addr count incr flags m =>
    (vmDoSetPtes L c t pe addr count incr flags m.1, m.2)
  full := fun m => decide (u32 (directoriesNdw + 2 ^ 32 - m.1.length) < 32)
  submit := fun m => if m.1 = [] then m else ([], xdmaRingPadIb m.1 :: m.2)

section Directories
variable {L : Layout} {offset : Table → ℕ}

/-- An IB with room left for another entry and the padding. -/
def HasRoom (m : Submitted) : Prop := m.1.length + 32 ≤ directoriesNdw

theorem hasRoom_of_not_full {m : Submitted} (hlen : m.1.length ≤ directoriesNdw)
    (h : ¬ (directoriesParams L).full m = true) : HasRoom m := by
  have hfull : ¬ u32 (directoriesNdw + 2 ^ 32 - m.1.length) < 32 := by
    simpa [directoriesParams] using h
  have hndw : directoriesNdw = 4096 := rfl
  unfold HasRoom
  rw [hndw] at hlen hfull ⊢
  unfold u32 at hfull
  omega

variable (L offset) in
theorem vmUpdatePde_length (entry : Table) (T : Tree Submitted) :
    (vmUpdatePde (directoriesParams L) offset entry T).mem.1.length ≤ T.mem.1.length + 18 ∧
      (vmUpdatePde (directoriesParams L) offset entry T).mem.2 = T.mem.2 := by
  unfold vmUpdatePde
  split_ifs
  · exact ⟨Nat.le_add_right _ _, rfl⟩
  · unfold Tree.write
    cases T.shadow <;> simp [directoriesParams, vmDoSetPtes, xdmaVmSetPtePde]

variable (L offset) in
/-- A pass that starts with room ends with at least the room for its padding. -/
theorem directoriesPass_length (l : List Table) (T : Tree Submitted) (h : HasRoom T.mem) :
    (directoriesPass (directoriesParams L) offset l T).mem.1.length + 14 ≤ directoriesNdw ∧
      (directoriesPass (directoriesParams L) offset l T).mem.2 = T.mem.2 := by
  induction l generalizing T with
  | nil =>
    unfold HasRoom at h
    exact ⟨by show T.mem.1.length + 14 ≤ directoriesNdw; omega, rfl⟩
  | cons t ts ih =>
    unfold directoriesPass
    dsimp only
    split_ifs with hroot hfull
    · exact ih _ h
    all_goals
      obtain ⟨hlen, hdone⟩ := vmUpdatePde_length L offset t
        { T.setPt t (fun e => { e with moved := false }) with relocated := ts }
      have hle := Nat.add_le_of_le_sub (by decide : 32 ≤ directoriesNdw) (Nat.le_sub_of_add_le h)
      generalize vmUpdatePde (directoriesParams L) offset t
        { T.setPt t (fun e => { e with moved := false }) with relocated := ts } = U at *
      change U.mem.1.length ≤ T.mem.1.length + 18 at hlen
      change U.mem.2 = T.mem.2 at hdone
    · exact ⟨by omega, hdone⟩
    · obtain ⟨hend, hdone'⟩ := ih U (hasRoom_of_not_full (by omega) hfull)
      exact ⟨hend, hdone'.trans hdone⟩

/-- Every IB that the passes submit stays inside its dwords. -/
theorem directoriesPasses_fit (n : ℕ) (T : Tree Submitted) (hempty : T.mem.1 = [])
    (hdone : ∀ ib ∈ T.mem.2, ib.length ≤ directoriesNdw) :
    ∀ ib ∈ (directoriesPasses (directoriesParams L) offset n T).mem.2,
      ib.length ≤ directoriesNdw := by
  induction n generalizing T with
  | zero => exact hdone
  | succ n ih =>
    unfold directoriesPasses
    split_ifs
    · exact hdone
    · have hroom : HasRoom T.mem := by
        unfold HasRoom
        rw [hempty]
        decide
      obtain ⟨hlen, hsame⟩ := directoriesPass_length L offset T.relocated T hroom
      have hpad := xdmaRingPadIb_length
        (directoriesPass (directoriesParams L) offset T.relocated T).mem.1
      apply ih
      · simp only [directoriesParams]
        split_ifs with hnil
        · exact hnil
        · rfl
      · intro ib hib
        simp only [directoriesParams] at hib
        split_ifs at hib
        · rw [← directoriesParams, hsame] at hib
          exact hdone ib hib
        · rcases List.mem_cons.mp hib with rfl | hib
          · exact hpad.trans (by omega)
          · rw [← directoriesParams, hsame] at hib
            exact hdone ib hib

end Directories

/-- No IB that updates page tables is overrun: the commands of `gsgpu_vm_update_ptes` and their
padding fit in what `gsgpu_vm_bo_update_mapping` allocates, before the entries stored at its end,
and every IB that `gsgpu_vm_update_directories` fills stays inside its 4096 dwords. -/
theorem ibs_fit (L : Layout) :
    (∀ pages src start last dst flags (T : Tree (List ℕ)), start ≤ last → last < maxPfn →
      T.mem = [] →
      Prog.wp True (vmUpdatePtes (xdmaParams L pages src) start (u64 (last + 1)) dst flags)
        (fun _ T' => IbFits T.shadow pages (ibNptes start last) T'.mem) T) ∧
    ∀ offset (T : Tree Submitted), T.mem = ([], []) →
      ∀ ib ∈ (vmUpdateDirectories (directoriesParams L) offset T).mem.2,
        ib.length ≤ directoriesNdw := by
  constructor
  · intro pages src start last dst flags T hs hl hT
    exact vmUpdatePtes_fits src hs hl T hT
  · intro offset T hT
    apply directoriesPasses_fit
    · rw [hT]
    · rw [hT]
      simp

/-- An update of two blocks with a shadow, and a pass over one entry. -/
theorem ibs_fit_twoBlocks :
    Prog.wp True (vmUpdatePtes (xdmaParams denseLayout none 0) 2047 (u64 (2048 + 1)) 0 0)
      (fun _ T' => IbFits true none (ibNptes 2047 2048) T'.mem)
      ⟨true, fun _ => ⟨true, true, false, false⟩, [], []⟩ ∧
    ∀ ib ∈ (vmUpdateDirectories (directoriesParams denseLayout) (fun _ => 0)
        ⟨true, fun _ => ⟨true, true, false, false⟩, [[0]], ([], [])⟩).mem.2,
      ib.length ≤ directoriesNdw :=
  ⟨(ibs_fit denseLayout).1 none 0 2047 2048 0 0 ⟨true, fun _ => ⟨true, true, false, false⟩, [], []⟩
      (by decide) (by decide) rfl,
    (ibs_fit denseLayout).2 (fun _ => 0)
      ⟨true, fun _ => ⟨true, true, false, false⟩, [[0]], ([], [])⟩ rfl⟩

end Gsgpu.PageTable
