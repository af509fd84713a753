import Gsgpu.PageTable.Walk

/-! What `gsgpu_vm_alloc_pts` leaves behind: after any calls, failed ones included, a call that
returns 0 has a leaf table for every page of its range, unless the range wraps around the end of
the addresses. -/
namespace Gsgpu.PageTable
open Gsgpu.Vm (u64 lastByte)

variable {σ : Type}

/-! ### The code, with every index checked -/

/-- The loop of `gsgpu_vm_get_entry`: it goes down as long as there is an array, and only then
looks at the level it is at. There are three levels with a shift. -/
def getEntryLoop (pt : Table → Pt) : ℕ → Table → ℕ → Except Fault (Option Table)
  | n, entry, addr =>
    if (pt entry).entries then
      match n with
      | 0 => .error .index
      | n + 1 =>
        let shift := vmLevelShift entry.length
        let i := addr >>> shift
        if i < vmNumEntries entry.length then getEntryLoop pt n (i :: entry) (addr % 2 ^ shift)
        else .error .index
    else .ok (if entry.length = vmDir2 then some entry else none)

/-- `gsgpu_vm_get_entry` from the root. -/
def Tree.entryOf (T : Tree σ) (pfn : ℕ) : Except Fault (Option Table) :=
  getEntryLoop T.pt (vmDir2 + 1) [] pfn

/-- `&parent->entries[i]`. -/
def entryAt (parent : Table) (i : ℕ) : Prog Fault Errno (Tree σ) Table := fun T =>
  if (T.pt parent).entries = true ∧ i < vmNumEntries parent.length then
    .ok (.ok (i :: parent), T)
  else .error .index

/-- `gsgpu_vm_alloc_levels` with its 32-bit indices and its accesses to `parent->entries`. -/
def vmAllocLevelsIndexed (env : AllocEnv) (clear : Copy → Table → σ → σ) :
    ℕ → Table → ℕ → ℕ → Prog Fault Errno (Tree σ) Unit
  | 0, _, _, _ => pure ()
  | n + 1, parent, saddr, eaddr => do
    allocEntries env parent
    let level := parent.length
    let shift := vmLevelShift level
    let first := saddr >>> shift % 2 ^ 32
    let last := eaddr >>> shift % 2 ^ 32
    Prog.require (first < vmNumEntries level && last < vmNumEntries level) .einval
    (List.range' first (last + 1 - first)).forM fun i => do
      let entry ← entryAt parent i
      allocTable env clear entry
      if level + 1 < vmDir2 then
        vmAllocLevelsIndexed env clear n entry (if i = first then saddr % 2 ^ shift else 0)
          (if i = last then eaddr % 2 ^ shift else 2 ^ shift - 1)
      else
        pure ()

/-- `gsgpu_vm_alloc_pts` with them. -/
def vmAllocPtsIndexed (env : AllocEnv) (clear : Copy → Table → σ → σ) (saddr size : ℕ) :
    Prog Fault Errno (Tree σ) Unit := do
  Prog.require (saddr % gpuPageSize == 0 && size % gpuPageSize == 0) .einval
  let eaddr := lastByte saddr size / gpuPageSize
  Prog.require (eaddr < maxPfn) .einval
  vmAllocLevelsIndexed env clear vmDir2 [] (saddr / gpuPageSize) eaddr

/-! ### What a call keeps -/

/-- No table of `T` is gone or changed, but for an array it did not have; none of the last level
gets an array. -/
structure Tree.Keeps (T T' : Tree σ) : Prop where
  bo : ∀ t, (T.pt t).bo = true → (T'.pt t).bo = true
  huge : ∀ t, (T'.pt t).huge = (T.pt t).huge
  moved : ∀ t, (T'.pt t).moved = (T.pt t).moved
  entries : ∀ t, (T.pt t).entries = true → (T'.pt t).entries = true
  leaf : ∀ t, vmDir2 ≤ t.length → (T'.pt t).entries = (T.pt t).entries
  listed : ∀ t, (T.pt t).bo = true → (t ∈ T'.relocated ↔ t ∈ T.relocated)

namespace Tree.Keeps
variable {T T' T'' : Tree σ}

theorem refl (T : Tree σ) : T.Keeps T where
  bo := fun _ h => h
  huge := fun _ => rfl
  moved := fun _ => rfl
  entries := fun _ h => h
  leaf := fun _ _ => rfl
  listed := fun _ _ => Iff.rfl

theorem trans (h : T.Keeps T') (h' : T'.Keeps T'') : T.Keeps T'' where
  bo := fun t ht => h'.bo t (h.bo t ht)
  huge := fun t => (h'.huge t).trans (h.huge t)
  moved := fun t => (h'.moved t).trans (h.moved t)
  entries := fun t ht => h'.entries t (h.entries t ht)
  leaf := fun t ht => (h'.leaf t ht).trans (h.leaf t ht)
  listed := fun t ht => (h'.listed t (h.bo t ht)).trans (h.listed t ht)

/-- A directory gets its array. -/
theorem addEntries {t : Table} (ht : t.length < vmDir2) :
    T.Keeps (T.setPt t fun e => { e with entries := true }) := by
  constructor
  case listed => exact fun _ _ => Iff.rfl
  case leaf =>
    intro t' hlen
    rw [T.setPt_pt_ne _ (by rintro rfl; omega)]
  all_goals
    intro t'
    by_cases heq : t' = t
    · subst heq
      simp
    · simp [T.setPt_pt_ne _ heq]

/-- A new table is put on the list. -/
theorem addTable {t : Table} (hnew : (T.pt t).bo = false) (mem : σ) :
    T.Keeps (({ T with mem := mem }.setPt t fun e => { e with bo := true }).relocate t) := by
  have hne : ∀ t', t' ≠ t →
      ({ T with mem := mem }.setPt t fun e => { e with bo := true }).pt t' = T.pt t' :=
    fun t' heq => Tree.setPt_pt_ne { T with mem := mem } _ heq
  constructor
  case listed =>
    intro t' hbo
    rw [mem_relocate]
    have heq : t' ≠ t := by
      rintro rfl
      simp [hnew] at hbo
    simp [heq]
  all_goals
    intro t'
    rw [relocate_pt]
    by_cases heq : t' = t
    · subst heq
      simp
    · simp [hne t' heq]

end Tree.Keeps

theorem allocEntries_spec {F : Prop} (env : AllocEnv) {parent : Table}
    (hlen : parent.length < vmDir2) (T : Tree σ) :
    Prog.wp F (allocEntries env parent)
      (fun r T' => T.Keeps T' ∧ (r = .ok () → (T'.pt parent).entries = true)) T := by
  unfold allocEntries
  rw [Prog.wp_bind, Prog.wp_gets]
  dsimp only
  split
  · next h => exact ⟨.refl T, fun _ => h⟩
  · rw [Prog.wp_bind, Prog.wp_require]
    constructor
    · intro _
      exact ⟨.addEntries hlen, fun _ => by simp⟩
    · intro _
      exact ⟨.refl T, by simp⟩

theorem allocTable_spec {F : Prop} (env : AllocEnv) (clear : Copy → Table → σ → σ) (t : Table)
    (T : Tree σ) :
    Prog.wp F (allocTable env clear t)
      (fun r T' => T.Keeps T' ∧ (r = .ok () → (T'.pt t).bo = true)) T := by
  unfold allocTable
  rw [Prog.wp_bind, Prog.wp_gets]
  dsimp only
  split
  · next h => exact ⟨.refl T, fun _ => h⟩
  · next h =>
    cases env.create t with
    | some e => exact ⟨.refl T, by simp⟩
    | none => exact ⟨.addTable (by simpa using h) _, fun _ => by simp⟩

/-! ### The way to a leaf -/

/-- The tables on the way from `parent` to page `a`, `n` levels down, and the arrays that hold
them. -/
def Tree.HasPath (T : Tree σ) : ℕ → Table → ℕ → Prop
  | 0, _, _ => True
  | n + 1, parent, a =>
    let i := a >>> vmLevelShift parent.length
    (T.pt parent).entries = true ∧ i < vmNumEntries parent.length ∧
      (T.pt (i :: parent)).bo = true ∧
      T.HasPath n (i :: parent) (a % 2 ^ vmLevelShift parent.length)

theorem Tree.HasPath.keep {T T' : Tree σ} (hk : T.Keeps T') {n : ℕ} :
    ∀ {parent : Table} {a : ℕ}, T.HasPath n parent a → T'.HasPath n parent a := by
  induction n with
  | zero => exact fun _ => trivial
  | succ n ih => exact fun h => ⟨hk.entries _ h.1, h.2.1, hk.bo _ h.2.2.1, ih h.2.2.2⟩

theorem Tree.HasPath.hasLeaf {T : Tree σ} {pfn : ℕ} (h : T.HasPath vmDir2 [] pfn) :
    T.HasLeaf pfn := by
  obtain ⟨hroot, hi, -, hdir, -, hleaf, -⟩ := h
  simp only [vmLevelShift, vmNumEntries, List.length_nil, List.length_cons,
    Nat.shiftRight_eq_div_pow, Nat.reduceShiftLeft, Nat.reduceSub] at hi hdir hleaf
  constructor
  · show pfn < 2 ^ 26
    omega
  · exact hroot
  · exact hdir
  · exact hleaf

/-- No leaf table has an array. -/
def Tree.LeavesBare (T : Tree σ) : Prop := ∀ t, vmDir2 ≤ t.length → (T.pt t).entries = false

theorem Tree.LeavesBare.keep {T T' : Tree σ} (h : T.LeavesBare) (hk : T.Keeps T') :
    T'.LeavesBare := fun t ht => (hk.leaf t ht).trans (h t ht)

/-- The walk by arrays is the walk by levels. -/
theorem getEntryLoop_eq {T : Tree σ} (h : T.LeavesBare) (n : ℕ) :
    ∀ {entry : Table} {addr : ℕ}, entry.length + n = vmDir2 →
      getEntryLoop T.pt (n + 1) entry addr = getEntryFrom T.pt n entry addr := by
  induction n with
  | zero =>
    intro entry addr hlen
    rw [getEntryLoop, h entry (by omega), getEntryFrom, if_neg (by simp),
      if_pos (by omega)]
  | succ n ih =>
    intro entry addr hlen
    rw [getEntryLoop, getEntryFrom]
    split
    · dsimp only
      rw [ih (by simp only [List.length_cons]; omega)]
    · rw [if_neg (by omega)]

theorem Tree.entryOf_eq {T : Tree σ} (h : T.LeavesBare) (pfn : ℕ) :
    T.entryOf pfn = getEntryFrom T.pt vmDir2 [] pfn := getEntryLoop_eq h vmDir2 rfl

theorem Tree.entryOf_leaf {T : Tree σ} (h : T.LeavesBare) {pfn : ℕ} (hl : T.HasLeaf pfn) :
    T.entryOf pfn = .ok (some (leafOf pfn)) := by
  rw [T.entryOf_eq h, getEntryFrom_leaf hl]

/-- Beyond the root's entries there is nothing to find. -/
theorem Tree.entryOf_beyond {T : Tree σ} {pfn : ℕ} (hp : maxPfn ≤ pfn) (t : Table) :
    T.entryOf pfn ≠ .ok (some t) := by
  have hi : ¬ pfn >>> vmLevelShift 0 < vmNumEntries 0 := by
    have hp : 2 ^ 26 ≤ pfn := hp
    simp only [vmLevelShift, vmNumEntries, Nat.shiftRight_eq_div_pow, Nat.reduceShiftLeft,
      Nat.reduceSub]
    omega
  unfold Tree.entryOf
  rw [getEntryLoop]
  split
  · simp [hi]
  · simp [vmDir2]

/-! ### One call -/

/-- Below the root an address is short. -/
theorem mod_shift_lt {level : ℕ} (h : level < vmDir2) (x : ℕ) :
    x % 2 ^ vmLevelShift level < 2 ^ 22 := by
  have hlt := Nat.mod_lt x (Nat.two_pow_pos (vmLevelShift level))
  have hle : 2 ^ vmLevelShift level ≤ 2 ^ 22 := by
    match level with
    | 0 => exact le_rfl
    | 1 => exact Nat.pow_le_pow_right (by decide) (by decide)
    | _ + 2 => simp only [vmDir2] at h; omega
  omega

/-- The ends of a directory's part of the range. -/
theorem clip_lt {level x d : ℕ} (c : Prop) [Decidable c] (h : level < vmDir2) (hd : d < 2 ^ 22) :
    (if c then x % 2 ^ vmLevelShift level else d) < 2 ^ 22 := by
  split
  · exact mod_shift_lt h x
  · exact hd

theorem shiftRight_lt {x k : ℕ} (h : x < 2 ^ 22) : x >>> k < 2 ^ 32 := by
  rw [Nat.shiftRight_eq_div_pow]
  have hle := Nat.div_le_self x (2 ^ k)
  omega

/-- A page of the range, in the part of it that its directory gets. -/
theorem clip_le {saddr eaddr a m : ℕ} (hm : 0 < m) (hs : saddr ≤ a) (he : a ≤ eaddr) :
    (if a / m = saddr / m then saddr % m else 0) ≤ a % m ∧
      a % m ≤ if a / m = eaddr / m then eaddr % m else m - 1 := by
  have ha := Nat.div_add_mod a m
  have hsd := Nat.div_add_mod saddr m
  have hed := Nat.div_add_mod eaddr m
  have hlt := Nat.mod_lt a hm
  constructor
  · split
    · next h => rw [h] at ha; omega
    · omega
  · split
    · next h => rw [h] at ha; omega
    · omega

theorem entryAt_spec {T : Tree σ} {parent : Table} {i : ℕ} {Q : Except Errno Table → Tree σ → Prop}
    (he : (T.pt parent).entries = true) (hi : i < vmNumEntries parent.length)
    (hQ : Q (.ok (i :: parent)) T) : Prog.wp False (entryAt parent i) Q T := by
  unfold Prog.wp entryAt
  rw [if_pos ⟨he, hi⟩]
  exact hQ

/-- The range's last page in the part of a directory that is not the last. -/
theorem pred_shift_lt {level : ℕ} (h : level < vmDir2) : 2 ^ vmLevelShift level - 1 < 2 ^ 22 := by
  have hlt := mod_shift_lt h (2 ^ vmLevelShift level - 1)
  rwa [Nat.mod_eq_of_lt (Nat.sub_lt (Nat.two_pow_pos _) Nat.one_pos)] at hlt

/-- Entry `i` of `parent` is there, with what its part of the range needs below it. -/
def Tree.HasPart (T : Tree σ) (n : ℕ) (parent : Table) (saddr eaddr i : ℕ) : Prop :=
  (T.pt (i :: parent)).bo = true ∧
    ∀ a, saddr ≤ a → a ≤ eaddr → a >>> vmLevelShift parent.length = i →
      T.HasPath n (i :: parent) (a % 2 ^ vmLevelShift parent.length)

theorem Tree.HasPart.keep {T T' : Tree σ} (hk : T.Keeps T') {n : ℕ} {parent : Table}
    {saddr eaddr i : ℕ} (h : T.HasPart n parent saddr eaddr i) :
    T'.HasPart n parent saddr eaddr i :=
  ⟨hk.bo _ h.1, fun a hs he hi => (h.2 a hs he hi).keep hk⟩

/-- The parts make up the range. -/
theorem Tree.hasPath_of_parts {T : Tree σ} {n : ℕ} {parent : Table} {saddr eaddr a : ℕ}
    (he : (T.pt parent).entries = true)
    (hlast : eaddr >>> vmLevelShift parent.length < vmNumEntries parent.length)
    (h : ∀ i ∈ List.range' (saddr >>> vmLevelShift parent.length)
      (eaddr >>> vmLevelShift parent.length + 1 - saddr >>> vmLevelShift parent.length),
      T.HasPart n parent saddr eaddr i)
    (hsa : saddr ≤ a) (hae : a ≤ eaddr) : T.HasPath (n + 1) parent a := by
  have hfirst : saddr >>> vmLevelShift parent.length ≤ a >>> vmLevelShift parent.length := by
    simp only [Nat.shiftRight_eq_div_pow]
    exact Nat.div_le_div_right hsa
  have hle : a >>> vmLevelShift parent.length ≤ eaddr >>> vmLevelShift parent.length := by
    simp only [Nat.shiftRight_eq_div_pow]
    exact Nat.div_le_div_right hae
  have hpart := h (a >>> vmLevelShift parent.length) (List.mem_range'_1.mpr (by omega))
  exact ⟨he, by omega, hpart.1, hpart.2 a hsa hae rfl⟩

/-- No index is out of range and no array missing, whether the call fails or not; when it
returns 0 the tables of every page of the range are there. -/
theorem vmAllocLevelsIndexed_spec (env : AllocEnv) (clear : Copy → Table → σ → σ) (n : ℕ) :
    ∀ {T : Tree σ} {parent : Table} {saddr eaddr : ℕ}, parent.length + n = vmDir2 →
      saddr >>> vmLevelShift parent.length < 2 ^ 32 →
      eaddr >>> vmLevelShift parent.length < 2 ^ 32 →
      Prog.wp False (vmAllocLevelsIndexed env clear n parent saddr eaddr)
        (fun r T' => T.Keeps T' ∧
          (r = .ok () → ∀ a, saddr ≤ a → a ≤ eaddr → T'.HasPath n parent a)) T := by
  induction n with
  | zero =>
    intro T parent saddr eaddr hlen hs he
    exact ⟨.refl T, fun _ _ _ _ => trivial⟩
  | succ n ih =>
    intro T parent saddr eaddr hlen hs he
    have hlevel : parent.length < vmDir2 := by omega
    unfold vmAllocLevelsIndexed
    rw [Prog.wp_bind]
    apply Prog.wp_mono (allocEntries_spec env hlevel T)
    intro r T₁ h₁
    cases r with
    | error e => exact ⟨h₁.1, by simp⟩
    | ok u =>
      have hentries := h₁.2 rfl
      dsimp only
      rw [Nat.mod_eq_of_lt hs, Nat.mod_eq_of_lt he, Prog.wp_bind, Prog.wp_require]
      constructor
      · intro hidx
        simp only [Bool.and_eq_true, decide_eq_true_eq] at hidx
        apply Prog.wp_mono (Prog.wp_forM_each
          (P := fun i T' => T'.HasPart n parent saddr eaddr i) Tree.Keeps.refl
          (fun _ _ _ => Tree.Keeps.trans) (fun i t t' hk => Tree.HasPart.keep hk) _)
        · intro r T' h'
          constructor
          · exact h₁.1.trans h'.1
          · intro hok a hsa hae
            exact T'.hasPath_of_parts (h'.1.entries _ hentries) hidx.2 (h'.2 hok) hsa hae
        · intro i hi T₂ h₂
          have hmem := List.mem_range'_1.mp hi
          rw [Prog.wp_bind]
          apply entryAt_spec (h₂.entries _ hentries) (by omega)
          dsimp only
          rw [Prog.wp_bind]
          apply Prog.wp_mono (allocTable_spec env clear (i :: parent) T₂)
          intro r T₃ h₃
          cases r with
          | error e => exact ⟨h₃.1, by simp⟩
          | ok u =>
            dsimp only
            split
            · have hs' := shiftRight_lt (k := vmLevelShift (i :: parent).length)
                (clip_lt (x := saddr) (i = saddr >>> vmLevelShift parent.length) hlevel
                  (Nat.two_pow_pos 22))
              have he' := shiftRight_lt (k := vmLevelShift (i :: parent).length)
                (clip_lt (x := eaddr) (i = eaddr >>> vmLevelShift parent.length) hlevel
                  (pred_shift_lt hlevel))
              apply Prog.wp_mono (ih (by simp only [List.length_cons]; omega) hs' he')
              intro r T₄ h₄
              constructor
              · exact h₃.1.trans h₄.1
              · intro hok
                constructor
                · exact h₄.1.bo _ (h₃.2 rfl)
                · intro a hsa hae hai
                  subst hai
                  have hclip := clip_le (Nat.two_pow_pos (vmLevelShift parent.length)) hsa hae
                  simp only [← Nat.shiftRight_eq_div_pow] at hclip
                  exact h₄.2 hok _ hclip.1 hclip.2
            · have hn : n = 0 := by omega
              subst hn
              exact ⟨h₃.1, fun _ => ⟨h₃.2 rfl, fun _ _ _ _ => trivial⟩⟩
      · intro _
        exact ⟨h₁.1, by simp⟩

/-- The checks change nothing else. -/
theorem vmAllocLevelsIndexed_checks (env : AllocEnv) (clear : Copy → Table → σ → σ) (n : ℕ) :
    ∀ {parent : Table} {saddr eaddr : ℕ}, parent.length + n = vmDir2 →
      saddr >>> vmLevelShift parent.length < 2 ^ 32 →
      eaddr >>> vmLevelShift parent.length < 2 ^ 32 →
      Prog.Checks (vmAllocLevelsIndexed env clear n parent saddr eaddr)
        (vmAllocLevels env clear n parent saddr eaddr) := by
  induction n with
  | zero =>
    intro parent saddr eaddr hlen hs he
    exact .refl _
  | succ n ih =>
    intro parent saddr eaddr hlen hs he
    have hlevel : parent.length < vmDir2 := by omega
    unfold vmAllocLevelsIndexed vmAllocLevels
    dsimp only
    rw [Nat.mod_eq_of_lt hs, Nat.mod_eq_of_lt he]
    apply Prog.Checks.bind (.refl _)
    intro _
    apply Prog.Checks.bind (.refl _)
    intro _
    apply Prog.Checks.forM
    intro i
    apply Prog.Checks.after (b := i :: parent)
    · intro T p hp
      unfold entryAt at hp
      split at hp
      · exact (Except.ok.inj hp).symm
      · cases hp
    · apply Prog.Checks.bind (.refl _)
      intro _
      split
      · apply ih (by simp only [List.length_cons]; omega)
        · exact shiftRight_lt (clip_lt _ hlevel (Nat.two_pow_pos 22))
        · exact shiftRight_lt (clip_lt _ hlevel (pred_shift_lt hlevel))
      · exact .refl _

section Call
variable {saddr size : ℕ}

theorem shiftRight_root_lt {pfn : ℕ} (h : pfn < 2 ^ 50) :
    pfn >>> vmLevelShift ([] : Table).length < 2 ^ 32 := by
  show pfn >>> 22 < 2 ^ 32
  rw [Nat.shiftRight_eq_div_pow]
  omega

theorem div_pageSize_lt (hs : saddr < 2 ^ 64) : saddr / gpuPageSize < 2 ^ 50 := by
  unfold gpuPageSize gpuPageShift
  omega

theorem vmAllocPtsIndexed_spec (env : AllocEnv) (clear : Copy → Table → σ → σ) (T : Tree σ)
    (hs : saddr < 2 ^ 64) :
    Prog.wp False (vmAllocPtsIndexed env clear saddr size)
      (fun r T' => T.Keeps T' ∧ (r = .ok () →
        (saddr % gpuPageSize = 0 ∧ size % gpuPageSize = 0 ∧
          lastByte saddr size / gpuPageSize < maxPfn) ∧
        ∀ a, saddr / gpuPageSize ≤ a → a ≤ lastByte saddr size / gpuPageSize →
          T'.HasPath vmDir2 [] a)) T := by
  unfold vmAllocPtsIndexed
  rw [Prog.wp_bind, Prog.wp_require]
  constructor
  · intro haligned
    simp only [Bool.and_eq_true, beq_iff_eq] at haligned
    dsimp only
    rw [Prog.wp_bind, Prog.wp_require]
    constructor
    · intro hlast
      rw [decide_eq_true_eq] at hlast
      apply Prog.wp_mono (vmAllocLevelsIndexed_spec env clear vmDir2 rfl
        (shiftRight_root_lt (div_pageSize_lt hs)) (shiftRight_root_lt (Vm.lastByte_div_lt _ _)))
      intro r T' h
      exact ⟨h.1, fun hok => ⟨⟨haligned.1, haligned.2, hlast⟩, h.2 hok⟩⟩
    · intro _
      exact ⟨.refl T, by simp⟩
  · intro _
    exact ⟨.refl T, by simp⟩

theorem vmAllocPtsIndexed_checks (env : AllocEnv) (clear : Copy → Table → σ → σ)
    (hs : saddr < 2 ^ 64) :
    Prog.Checks (vmAllocPtsIndexed env clear saddr size) (vmAllocPts env clear saddr size) := by
  unfold vmAllocPtsIndexed vmAllocPts
  apply Prog.Checks.bind (.refl _)
  intro _
  apply Prog.Checks.bind (.refl _)
  intro _
  exact vmAllocLevelsIndexed_checks env clear vmDir2 rfl
    (shiftRight_root_lt (div_pageSize_lt hs)) (shiftRight_root_lt (Vm.lastByte_div_lt _ _))

end Call

/-! ### Runs of calls -/

/-- The trees that calls of `gsgpu_vm_alloc_pts`, which may fail, make of a new VM's. -/
inductive Reached (clear : Copy → Table → σ → σ) : Tree σ → Prop
  | fresh (T : Tree σ) (h : ∀ t, T.pt t = ⟨t == [], false, false, false⟩) : Reached clear T
  | allocPts {T T' : Tree σ} (env : AllocEnv) (saddr size : ℕ) (r : Except Errno Unit)
      (h : Reached clear T) (hs : saddr < 2 ^ 64) (hz : size < 2 ^ 64)
      (hr : vmAllocPts env clear saddr size T = .ok (r, T')) : Reached clear T'

theorem Reached.leavesBare {clear : Copy → Table → σ → σ} {T : Tree σ} (h : Reached clear T) :
    T.LeavesBare := by
  induction h with
  | fresh T h =>
    intro t _
    rw [h t]
  | @allocPts T T' env saddr size r h hs hz hr ih =>
    have hchecks : Prog.Checks _ (vmAllocPts env clear saddr size) :=
      vmAllocPtsIndexed_checks env clear hs
    obtain ⟨r', T'', -, heq, hk, -⟩ := hchecks.run (vmAllocPtsIndexed_spec env clear T hs)
    rw [heq] at hr
    cases hr
    exact ih.keep hk

/-- `gsgpu_vm_get_entry` finds an allocated leaf table for every page of the range, and the same
one exactly for the pages that agree above their low 11 bits. -/
def Tree.Covered (T : Tree σ) (saddr size : ℕ) : Prop :=
  ∀ pfn, saddr / gpuPageSize ≤ pfn → pfn * gpuPageSize < saddr + size →
    ∃ t, T.entryOf pfn = .ok (some t) ∧ (T.pt t).bo = true ∧
      ∀ pfn', saddr / gpuPageSize ≤ pfn' → pfn' * gpuPageSize < saddr + size →
        (T.entryOf pfn' = .ok (some t) ↔ pfn' / 2 ^ 11 = pfn / 2 ^ 11)

/-- The range wraps around the end of the addresses, to an end that looks as valid as its
start. -/
def WrapsInside (saddr size : ℕ) : Prop :=
  2 ^ 64 < saddr + size ∧ (saddr % gpuPageSize = 0 ∧ size % gpuPageSize = 0) ∧
    saddr / gpuPageSize < maxPfn ∧ lastByte saddr size / gpuPageSize < maxPfn

theorem Tree.covered_of_leaves {T : Tree σ} {saddr size : ℕ} (h : T.LeavesBare)
    (hl : ∀ pfn, saddr / gpuPageSize ≤ pfn → pfn * gpuPageSize < saddr + size → T.HasLeaf pfn) :
    T.Covered saddr size := by
  intro pfn hge hlt
  have hleaf := hl pfn hge hlt
  refine ⟨leafOf pfn, T.entryOf_leaf h hleaf, hleaf.leaf, ?_⟩
  intro pfn' hge' hlt'
  rw [T.entryOf_leaf h (hl pfn' hge' hlt')]
  simp only [Except.ok.injEq, Option.some.injEq]
  exact leafOf_eq_iff

/-- The last page there is, is in every range that wraps around. -/
theorem Tree.not_covered {T : Tree σ} {saddr size : ℕ} (hs : saddr < 2 ^ 64)
    (h : 2 ^ 64 < saddr + size) : ¬ T.Covered saddr size := by
  intro hc
  have hlast : (2 ^ 50 - 1) * gpuPageSize < saddr + size := by
    unfold gpuPageSize gpuPageShift
    omega
  have hfirst := div_pageSize_lt hs
  obtain ⟨t, ht, -⟩ := hc (2 ^ 50 - 1) (by omega) hlast
  exact T.entryOf_beyond (by decide) t ht

/-- A kernel with memory for everything. -/
def AllocEnv.plenty : AllocEnv := ⟨fun _ => true, fun _ => none⟩

theorem allocEntries_plenty (t : Table) (T : Tree σ) :
    Prog.wp False (allocEntries .plenty t) (fun r _ => r = .ok ()) T := by
  unfold allocEntries
  rw [Prog.wp_bind, Prog.wp_gets]
  dsimp only
  split
  · rfl
  · rw [Prog.wp_bind, Prog.wp_require]
    exact ⟨fun _ => rfl, fun h => nomatch h⟩

theorem allocTable_plenty (clear : Copy → Table → σ → σ) (t : Table) (T : Tree σ) :
    Prog.wp False (allocTable .plenty clear t) (fun r _ => r = .ok ()) T := by
  unfold allocTable
  rw [Prog.wp_bind, Prog.wp_gets]
  dsimp only
  split <;> rfl

/-- The indices below a directory are in range. -/
theorem shiftRight_below {level x : ℕ} (h : level + 1 < vmDir2) (hx : x < 2 ^ 22) :
    x >>> vmLevelShift (level + 1) < vmNumEntries (level + 1) := by
  obtain rfl : level = 0 := by
    unfold vmDir2 at h
    omega
  show x >>> 11 < 2 ^ 11
  rw [Nat.shiftRight_eq_div_pow]
  omega

/-- Nothing else makes a call fail whose ends are in range. -/
theorem vmAllocLevels_plenty (clear : Copy → Table → σ → σ) (n : ℕ) :
    ∀ {T : Tree σ} {parent : Table} {saddr eaddr : ℕ}, parent.length + n = vmDir2 →
      saddr >>> vmLevelShift parent.length < vmNumEntries parent.length →
      eaddr >>> vmLevelShift parent.length < vmNumEntries parent.length →
      Prog.wp False (vmAllocLevels .plenty clear n parent saddr eaddr)
        (fun r _ => r = .ok ()) T := by
  induction n with
  | zero =>
    intro T parent saddr eaddr hlen hs he
    rfl
  | succ n ih =>
    intro T parent saddr eaddr hlen hs he
    have hlevel : parent.length < vmDir2 := by omega
    unfold vmAllocLevels
    rw [Prog.wp_bind]
    apply Prog.wp_mono (allocEntries_plenty parent T)
    intro r T₁ hr
    subst hr
    dsimp only
    rw [Prog.wp_bind, Prog.wp_require]
    constructor
    · intro _
      apply Prog.wp_mono (Prog.wp_forM_ok (I := fun _ => True) trivial _)
      · exact fun _ _ h => h.1
      · intro i _ T₂ _
        rw [Prog.wp_bind]
        apply Prog.wp_mono (allocTable_plenty clear (i :: parent) T₂)
        intro r T₃ hr
        subst hr
        dsimp only
        split
        · next hsub =>
          apply Prog.wp_mono (ih (by simp only [List.length_cons]; omega)
            (shiftRight_below hsub (clip_lt _ hlevel (Nat.two_pow_pos 22)))
            (shiftRight_below hsub (clip_lt _ hlevel (pred_shift_lt hlevel))))
          exact fun _ _ h => ⟨h, trivial⟩
        · exact ⟨rfl, trivial⟩
    · intro h
      simp [hs, he] at h

theorem vmAllocPts_plenty (clear : Copy → Table → σ → σ) (T : Tree σ) {saddr size : ℕ}
    (h : WrapsInside saddr size) :
    ∃ T', vmAllocPts .plenty clear saddr size T = .ok (.ok (), T') := by
  obtain ⟨-, ⟨hs, hz⟩, hfirst, hlast⟩ := h
  have hroot : ∀ {pfn}, pfn < maxPfn →
      pfn >>> vmLevelShift ([] : Table).length < vmNumEntries ([] : Table).length := by
    intro pfn hp
    have hp : pfn < 2 ^ 26 := hp
    show pfn >>> 22 < 2 ^ 4
    rw [Nat.shiftRight_eq_div_pow]
    omega
  have hrun : Prog.wp False (vmAllocPts .plenty clear saddr size) (fun r _ => r = .ok ()) T := by
    unfold vmAllocPts
    rw [Prog.wp_bind, Prog.wp_require]
    constructor
    · intro _
      dsimp only
      rw [Prog.wp_bind, Prog.wp_require]
      constructor
      · intro _
        exact vmAllocLevels_plenty clear vmDir2 rfl (hroot hfirst) (hroot hlast)
      · intro hc
        simp [hlast] at hc
    · intro hc
      simp [hs, hz] at hc
  unfold Prog.wp at hrun
  cases hp : vmAllocPts .plenty clear saddr size T with
  | error e => simp [hp] at hrun
  | ok p =>
    rw [hp] at hrun
    obtain ⟨r, T'⟩ := p
    exact ⟨T', by rw [show r = .ok () from hrun]⟩

/-- A call that returns 0 has checked the start of its range. -/
theorem vmAllocPts_first {env : AllocEnv} {clear : Copy → Table → σ → σ} {saddr size : ℕ}
    {T T' : Tree σ} (h : vmAllocPts env clear saddr size T = .ok (.ok (), T')) :
    saddr / gpuPageSize < maxPfn := by
  have hlevels : ∀ eaddr, Prog.wp True
      (vmAllocLevels env clear vmDir2 [] (saddr / gpuPageSize) eaddr)
      (fun r _ => r = .ok () → saddr / gpuPageSize < maxPfn) T := by
    intro eaddr
    unfold vmDir2 vmAllocLevels
    rw [Prog.wp_bind]
    apply Prog.wp_of_forall
    intro r T₁
    cases r with
    | error e => simp
    | ok u =>
      dsimp only
      rw [Prog.wp_bind, Prog.wp_require]
      constructor
      · intro hidx
        simp only [Bool.and_eq_true, decide_eq_true_eq] at hidx
        have hfirst : (saddr / gpuPageSize) >>> 22 < 2 ^ 4 := hidx.1
        rw [Nat.shiftRight_eq_div_pow] at hfirst
        apply Prog.wp_of_forall
        intro _ _ _
        show saddr / gpuPageSize < 2 ^ 26
        omega
      · intro _
        simp
  have hrun : Prog.wp True (vmAllocPts env clear saddr size)
      (fun r _ => r = .ok () → saddr / gpuPageSize < maxPfn) T := by
    unfold vmAllocPts
    rw [Prog.wp_bind, Prog.wp_require]
    constructor
    · intro _
      dsimp only
      rw [Prog.wp_bind, Prog.wp_require]
      exact ⟨fun _ => hlevels _, by simp⟩
    · simp
  exact Prog.of_wp hrun h rfl

/-- After any calls, a call uses no index outside its array and keeps the tables there are,
whether it fails or not. All that return 0 have the tables of their range, unless the range wraps
around inside the address space. -/
theorem vmAllocPts_covers_iff {clear : Copy → Table → σ → σ} {T : Tree σ} (hT : Reached clear T)
    {saddr size : ℕ} (hs : saddr < 2 ^ 64) (hpos : 0 < size) :
    (∀ env, ∃ r T', vmAllocPtsIndexed env clear saddr size T = .ok (r, T') ∧
      vmAllocPts env clear saddr size T = .ok (r, T') ∧ T.Keeps T') ∧
    ((∀ env T', vmAllocPts env clear saddr size T = .ok (.ok (), T') → T'.Covered saddr size) ↔
      ¬ WrapsInside saddr size) := by
  have hrun : ∀ env, ∃ r T', vmAllocPtsIndexed env clear saddr size T = .ok (r, T') ∧
      vmAllocPts env clear saddr size T = .ok (r, T') ∧ _ := fun env =>
    (vmAllocPtsIndexed_checks env clear hs).run (vmAllocPtsIndexed_spec env clear T hs)
  constructor
  · intro env
    obtain ⟨r, T', hi, heq, hk, -⟩ := hrun env
    exact ⟨r, T', hi, heq, hk⟩
  · constructor
    · intro h hw
      obtain ⟨T', hT'⟩ := vmAllocPts_plenty clear T hw
      exact T'.not_covered hs hw.1 (h _ T' hT')
    · intro hw env T' hT'
      obtain ⟨r, T'', -, heq, hk, hok⟩ := hrun env
      rw [hT'] at heq
      cases heq
      obtain ⟨⟨hsa, hsz, hlast⟩, hpath⟩ := hok rfl
      by_cases hle : saddr + size ≤ 2 ^ 64
      · apply T'.covered_of_leaves (hT.leavesBare.keep hk)
        intro pfn hge hlt
        apply Tree.HasPath.hasLeaf (hpath pfn hge _)
        rw [Vm.lastByte_of_le hpos hle]
        unfold gpuPageSize gpuPageShift at *
        omega
      · exact absurd ⟨by omega, ⟨hsa, hsz⟩, vmAllocPts_first hT', hlast⟩ hw

/-- The tree of a new VM whose tables have no contents. -/
def newTree : Tree Unit := ⟨false, fun t => ⟨t == [], false, false, false⟩, [], ()⟩

/-- The first leaf table, for a new VM. -/
theorem vmAllocPts_covers_firstLeaf :
    ∃ T', vmAllocPts .plenty (fun _ _ m => m) 0x100000 0x100000 newTree = .ok (.ok (), T') ∧
      T'.Covered 0x100000 0x100000 := by
  have hnew : Reached (fun _ _ m => m) newTree := .fresh newTree fun _ => rfl
  have hs : 0x100000 < 2 ^ 64 := by decide
  have hpos : 0 < 0x100000 := by decide
  have hw : ¬ WrapsInside 0x100000 0x100000 := by
    unfold WrapsInside
    omega
  exact ⟨_, rfl, (vmAllocPts_covers_iff hnew hs hpos).2.mpr hw .plenty _ rfl⟩

/-- A range from page 2048 that wraps around to page 1023: the call returns 0, and the entry of
its first page has no leaf table. -/
theorem wrapping_not_covered :
    ∃ T T' : Tree Unit, Reached (fun _ _ m => m) T ∧
      vmAllocPts .plenty (fun _ _ m => m) 0x2000000 (2 ^ 64 - 0x1000000) T = .ok (.ok (), T') ∧
      T'.entryOf 2048 = .ok (some [1, 0]) ∧ (T'.pt [1, 0]).bo = false ∧
      ¬ T'.Covered 0x2000000 (2 ^ 64 - 0x1000000) :=
  ⟨newTree, _, .fresh newTree fun _ => rfl, rfl, rfl, rfl,
    Tree.not_covered (by decide) (by decide)⟩

end Gsgpu.PageTable
