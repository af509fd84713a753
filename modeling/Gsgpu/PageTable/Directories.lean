import Gsgpu.PageTable.Budget

/-! How `gsgpu_vm_update_directories` fails: when a job cannot be submitted,
`gsgpu_vm_invalidate_level` is to put every table back on the list. It needs an array of entries
in every table it comes to, and a leaf table has none. -/
namespace Gsgpu.PageTable
open Gsgpu.Vm (u64)

variable {σ : Type}

/-! ### The code -/

/-- What goes wrong in `gsgpu_vm_invalidate_level`: an array that does not exist, or a level
without a number of entries. -/
inductive DirFault
  | nullEntries
  | depth

/-- One turn of the loop of `gsgpu_vm_invalidate_level`, with the call for the entry. -/
def invalidateEntry (sub : Table → Prog DirFault Errno (Tree σ) Unit) (parent : Table) (i : ℕ) :
    Prog DirFault Errno (Tree σ) Unit := do
  let entries ← Prog.gets fun T => (T.pt parent).entries
  Prog.deref .nullEntries (if entries then some () else none)
  let entry ← Prog.gets fun T => T.pt (i :: parent)
  if entry.bo then do
    (if entry.moved then pure () else Prog.modify fun T => T.relocate (i :: parent))
    sub (i :: parent)
  else
    pure ()

/-- `gsgpu_vm_invalidate_level`, for as many levels as there are. -/
def vmInvalidateLevel : ℕ → Table → Prog DirFault Errno (Tree σ) Unit
  | 0, _ => Prog.fault .depth
  | n + 1, parent =>
    (List.range (vmNumEntries parent.length)).forM (invalidateEntry (vmInvalidateLevel n) parent)

/-- What the kernel answers to the jobs of one call: how their allocation and their submission
fail. -/
structure JobEnv where
  alloc : ℕ → Option Errno
  submit : ℕ → Option Errno

/-- How the jobs end. -/
inductive Jobs
  | done
  | allocFailed (e : Errno)
  | submitFailed (e : Errno)

/-- The jobs of `gsgpu_vm_update_directories` from the `i`th on, each with a new IB. One that
cannot be submitted is freed. -/
def directoriesJobs (env : JobEnv) (L : Layout) (offset : Table → ℕ) :
    ℕ → ℕ → Tree Submitted → Jobs × Tree Submitted
  | 0, _, T => (.done, T)
  | n + 1, i, T =>
    if T.relocated = [] then (.done, T)
    else
      match env.alloc i with
      | some e => (.allocFailed e, T)
      | none =>
        let T' := directoriesPass (directoriesParams L) offset T.relocated
          { T with mem := ([], T.mem.2) }
        match (if T'.mem.1 = [] then none else env.submit i) with
        | some e => (.submitFailed e, { T' with mem := ([], T'.mem.2) })
        | none => directoriesJobs env L offset n (i + 1)
            { T' with mem := (directoriesParams L).submit T'.mem }

/-- `gsgpu_vm_update_directories` by XDMA, with its error path. -/
def vmUpdateDirectoriesXdma (env : JobEnv) (L : Layout) (offset : Table → ℕ) :
    Prog DirFault Errno (Tree Submitted) Unit := fun T =>
  match directoriesJobs env L offset T.relocated.length 0 T with
  | (.done, T') => .ok (.ok (), T')
  | (.allocFailed e, T') => .ok (.error e, T')
  | (.submitFailed e, T') => (do vmInvalidateLevel (vmDir2 + 1) []; Prog.fail e) T'

/-! ### The invalidation -/

/-- Every table that the recursion comes to has its array. -/
def Walkable (pt : Table → Pt) : ℕ → Table → Prop
  | 0, _ => False
  | n + 1, parent => (pt parent).entries = true ∧
      ∀ i < vmNumEntries parent.length, (pt (i :: parent)).bo = true → Walkable pt n (i :: parent)

/-- The tables that the recursion comes to, without `parent` itself. -/
def Below (pt : Table → Pt) : ℕ → Table → Table → Prop
  | 0, _, _ => False
  | n + 1, parent, t => ∃ i < vmNumEntries parent.length, (pt (i :: parent)).bo = true ∧
      (t = i :: parent ∨ Below pt n (i :: parent) t)

/-- Only the list changes, and loses nothing. -/
def Tree.Requeues (T T' : Tree σ) : Prop :=
  T' = { T with relocated := T'.relocated } ∧ T.relocated ⊆ T'.relocated

theorem Tree.Requeues.refl (T : Tree σ) : T.Requeues T := ⟨rfl, fun _ h => h⟩

theorem Tree.Requeues.trans {T T' T'' : Tree σ} (h : T.Requeues T') (h' : T'.Requeues T'') :
    T.Requeues T'' := by
  constructor
  · rw [h'.1, h.1]
  · exact fun _ ht => h'.2 (h.2 ht)

theorem Tree.Requeues.pt {T T' : Tree σ} (h : T.Requeues T') : T'.pt = T.pt := by
  rw [h.1]

theorem Tree.requeues_relocate (T : Tree σ) (t : Table) : T.Requeues (T.relocate t) :=
  ⟨rfl, fun _ h => mem_relocate.mpr (.inr h)⟩

/-- What a turn for entry `i` is to put on the list. -/
def EntryQueued (pt : Table → Pt) (n : ℕ) (parent : Table) (i : ℕ) (T : Tree σ) : Prop :=
  (pt (i :: parent)).bo = true →
    ∀ t, t = i :: parent ∨ Below pt n (i :: parent) t → (pt t).moved = false → t ∈ T.relocated

/-- Where the arrays are there, the recursion ends and puts every table on the list that is not
marked moved. -/
theorem vmInvalidateLevel_spec (n : ℕ) :
    ∀ {T : Tree σ} {parent : Table}, Walkable T.pt n parent →
      Prog.wp False (vmInvalidateLevel n parent)
        (fun r T' => r = .ok () ∧ T.Requeues T' ∧
          ∀ t, Below T.pt n parent t → (T.pt t).moved = false → t ∈ T'.relocated) T := by
  induction n with
  | zero => exact fun h => h.elim
  | succ n ih =>
    intro T parent h
    unfold vmInvalidateLevel
    apply Prog.wp_mono (Prog.wp_forM_all (P := EntryQueued T.pt n parent) Tree.Requeues.refl
      (fun _ _ _ => Tree.Requeues.trans) (fun i T₁ T₂ hr hq hbo t ht hm => hr.2 (hq hbo t ht hm)) _)
    · intro r T' h'
      refine ⟨h'.1, h'.2.1, ?_⟩
      intro t ⟨i, hi, hbo, ht⟩ hm
      exact h'.2.2 i (List.mem_range.mpr hi) hbo t ht hm
    · intro i hi T₁ h₁
      unfold invalidateEntry
      simp only [Prog.wp_bind, Prog.wp_gets, h₁.pt, h.1, if_true, Prog.wp_deref_some]
      split
      · next hbo =>
        have hsub := h.2 i (List.mem_range.mp hi) hbo
        have hcall : ∀ T₂ : Tree σ, T₁.Requeues T₂ →
            ((T.pt (i :: parent)).moved = false → i :: parent ∈ T₂.relocated) →
            Prog.wp False (vmInvalidateLevel n (i :: parent))
              (fun r T' => r = .ok () ∧ T₁.Requeues T' ∧ EntryQueued T.pt n parent i T') T₂ := by
          intro T₂ h₂ hlisted
          have hpt : T₂.pt = T.pt := h₂.pt.trans h₁.pt
          apply Prog.wp_mono (ih (T := T₂) (by rwa [hpt]))
          intro r T₃ h₃
          refine ⟨h₃.1, h₂.trans h₃.2.1, ?_⟩
          intro _ t ht hm
          cases ht with
          | inl heq =>
            subst heq
            exact h₃.2.1.2 (hlisted hm)
          | inr hbelow => exact h₃.2.2 t (by rwa [hpt]) (by rwa [hpt])
        rw [Prog.wp_bind, Prog.wp_ite]
        split
        · next hmoved => exact hcall T₁ (.refl T₁) fun hm => absurd hmoved (by simp [hm])
        · exact hcall _ (T₁.requeues_relocate _) fun _ => Tree.mem_relocate.mpr (.inl rfl)
      · next hbo => exact ⟨rfl, .refl T₁, fun h => absurd h hbo⟩

/-- A turn that ends has changed no table. -/
theorem invalidateEntry_pt {sub : Table → Prog DirFault Errno (Tree σ) Unit}
    (hsub : ∀ T t, Prog.wp True (sub t) (fun r T' => r = .ok () ∧ T'.pt = T.pt) T)
    (parent : Table) (i : ℕ) (T : Tree σ) :
    Prog.wp True (invalidateEntry sub parent i) (fun r T' => r = .ok () ∧ T'.pt = T.pt) T := by
  unfold invalidateEntry
  simp only [Prog.wp_bind, Prog.wp_gets]
  split
  · rw [Prog.wp_deref_some]
    dsimp only
    split
    · rw [Prog.wp_bind, Prog.wp_ite]
      split
      · exact hsub T (i :: parent)
      · exact hsub (T.relocate (i :: parent)) (i :: parent)
    · exact ⟨rfl, rfl⟩
  · trivial

theorem vmInvalidateLevel_pt (n : ℕ) :
    ∀ (T : Tree σ) (parent : Table), Prog.wp True (vmInvalidateLevel n parent)
      (fun r T' => r = .ok () ∧ T'.pt = T.pt) T := by
  induction n with
  | zero => exact fun _ _ => trivial
  | succ n ih =>
    intro T parent
    unfold vmInvalidateLevel
    apply Prog.wp_forM_ok (I := fun T' : Tree σ => T'.pt = T.pt) rfl
    intro i _ T₁ h₁
    rw [← h₁]
    exact invalidateEntry_pt ih parent i T₁

theorem vmNumEntries_pos (level : ℕ) : 0 < vmNumEntries level := by
  unfold vmNumEntries
  split <;> decide

/-- A turn that does not fault found the array, and its call does not fault. -/
theorem of_safe_turn {sub : Table → Prog DirFault Errno (Tree σ) Unit} {parent : Table} {i : ℕ}
    {T : Tree σ} (h : Prog.wp False (invalidateEntry sub parent i) (fun _ _ => True) T) :
    (T.pt parent).entries = true ∧ ((T.pt (i :: parent)).bo = true →
      ∃ T', T'.pt = T.pt ∧ Prog.wp False (sub (i :: parent)) (fun _ _ => True) T') := by
  unfold invalidateEntry at h
  simp only [Prog.wp_bind, Prog.wp_gets] at h
  split at h
  · next he =>
    rw [Prog.wp_deref_some] at h
    dsimp only at h
    refine ⟨he, ?_⟩
    intro hbo
    rw [if_pos hbo, Prog.wp_bind, Prog.wp_ite] at h
    split at h
    · exact ⟨T, rfl, h⟩
    · exact ⟨T.relocate (i :: parent), rfl, h⟩
  · exact h.elim

/-- The recursion needs every array it comes to. -/
theorem walkable_of_safe (n : ℕ) :
    ∀ {T : Tree σ} {parent : Table},
      Prog.wp False (vmInvalidateLevel n parent) (fun _ _ => True) T →
      Walkable T.pt n parent := by
  induction n with
  | zero => exact fun h => h.elim
  | succ n ih =>
    intro T parent h
    have hturns := Prog.safe_turns_of_forM (I := fun T' : Tree σ => T'.pt = T.pt) h rfl
      fun i _ T₁ h₁ => by
        rw [← h₁]
        exact invalidateEntry_pt (vmInvalidateLevel_pt n) parent i T₁
    constructor
    · obtain ⟨T₁, h₁, hsafe⟩ := hturns 0 (List.mem_range.mpr (vmNumEntries_pos _))
      rw [← h₁]
      exact (of_safe_turn hsafe).1
    · intro i hi hbo
      obtain ⟨T₁, h₁, hsafe⟩ := hturns i (List.mem_range.mpr hi)
      obtain ⟨T₂, h₂, hcall⟩ := (of_safe_turn hsafe).2 (by rwa [h₁])
      have hwalk := ih hcall
      rwa [h₂, h₁] at hwalk

/-! ### Trees -/

/-- A tree between two calls, with any of its directories and leaf tables: a table's directory is
there, a leaf table has no array, and nothing is evicted (`gsgpu_vm_ready`), so that a table which
is marked moved is on the list. -/
structure Tree.Shaped (T : Tree σ) : Prop where
  root : (T.pt []).bo = true
  valid : ∀ t, (T.pt t).bo = true → ValidTable t
  parent : ∀ i t, (T.pt (i :: t)).bo = true → (T.pt t).bo = true
  bare : ∀ t, vmDir2 ≤ t.length → (T.pt t).entries = false
  ready : ∀ t, (T.pt t).moved = true → t ∈ T.relocated

/-- Every table that is there is a directory with its array. -/
def Tree.OnlyDirectories (T : Tree σ) : Prop :=
  ∀ t, (T.pt t).bo = true → t.length < vmDir2 ∧ (T.pt t).entries = true

/-- Every table below the root is on the list, unless it is marked moved. -/
def Tree.AllQueued (T : Tree σ) : Prop :=
  ∀ t, t ≠ [] → (T.pt t).bo = true → (T.pt t).moved = false → t ∈ T.relocated

theorem ValidTable.index {i : ℕ} {t : Table} (h : ValidTable (i :: t)) :
    t.length < vmDir2 ∧ i < vmNumEntries t.length := by
  match t with
  | [] => exact ⟨by simp [vmDir2], h⟩
  | [_] => exact ⟨by simp [vmDir2], h.1⟩
  | [_, _] => exact h.elim
  | _ :: _ :: _ :: _ => exact h.elim

namespace Tree.Shaped
variable {T : Tree σ}

/-- The recursion from the root comes to every other table. -/
theorem below (h : T.Shaped) {t : Table} (ht : t ≠ []) (hbo : (T.pt t).bo = true) :
    Below T.pt (vmDir2 + 1) [] t := by
  have hv := h.valid t hbo
  match t with
  | [] => exact absurd rfl ht
  | [i] => exact ⟨i, (h.valid [i] hbo).index.2, hbo, .inl rfl⟩
  | [j, i] =>
    have hdir := h.parent j [i] hbo
    have hi := (h.valid [i] hdir).index.2
    exact ⟨i, hi, hdir, .inr ⟨j, (h.valid [j, i] hbo).index.2, hbo, .inl rfl⟩⟩
  | _ :: _ :: _ :: _ => exact hv.elim

theorem walkable_iff (h : T.Shaped) : Walkable T.pt (vmDir2 + 1) [] ↔ T.OnlyDirectories := by
  constructor
  · intro hw t hbo
    have hv := h.valid t hbo
    match t with
    | [] => exact ⟨by decide, hw.1⟩
    | [i] => exact ⟨by simp [vmDir2], (hw.2 i (h.valid [i] hbo).index.2 hbo).1⟩
    | [j, i] =>
      -- the recursion has come to a leaf
      have hdir := h.parent j [i] hbo
      have hwalk := hw.2 i (h.valid [i] hdir).index.2 hdir
      have hleaf := (hwalk.2 j (h.valid [j, i] hbo).index.2 hbo).1
      rw [h.bare [j, i] (by simp [vmDir2])] at hleaf
      cases hleaf
    | _ :: _ :: _ :: _ => exact hv.elim
  · intro hd
    refine ⟨(hd [] h.root).2, ?_⟩
    intro i hi hbo
    refine ⟨(hd [i] hbo).2, ?_⟩
    intro j hj hbo'
    have hlen := (hd [j, i] hbo').1
    simp [vmDir2] at hlen

end Tree.Shaped

/-! ### The jobs -/

/-- What the passes may change of the tables: they take the mark of being moved. -/
structure Tree.Unmoves (T T' : Tree σ) : Prop where
  shadow : T'.shadow = T.shadow
  bo : ∀ t, (T'.pt t).bo = (T.pt t).bo
  entries : ∀ t, (T'.pt t).entries = (T.pt t).entries
  huge : ∀ t, (T'.pt t).huge = (T.pt t).huge
  ready : (∀ t, (T.pt t).moved = true → t ∈ T.relocated) →
    ∀ t, (T'.pt t).moved = true → t ∈ T'.relocated

namespace Tree.Unmoves
variable {T T' T'' : Tree σ}

theorem refl (T : Tree σ) : T.Unmoves T := ⟨rfl, fun _ => rfl, fun _ => rfl, fun _ => rfl, id⟩

theorem trans (h : T.Unmoves T') (h' : T'.Unmoves T'') : T.Unmoves T'' where
  shadow := h'.shadow.trans h.shadow
  bo := fun t => (h'.bo t).trans (h.bo t)
  entries := fun t => (h'.entries t).trans (h.entries t)
  huge := fun t => (h'.huge t).trans (h.huge t)
  ready := fun hr => h'.ready (h.ready hr)

/-- The first table is taken off the list. -/
theorem dequeue {t : Table} {ts : List Table} (hl : T.relocated = t :: ts) :
    T.Unmoves { T.setPt t (fun e => { e with moved := false }) with relocated := ts } := by
  have hpt : ∀ t', t' ≠ t → (T.setPt t fun e => { e with moved := false }).pt t' = T.pt t' :=
    fun t' hne => T.setPt_pt_ne _ hne
  constructor
  case shadow => rfl
  case ready =>
    intro hr t' hm
    change ((T.setPt t fun e => { e with moved := false }).pt t').moved = true at hm
    by_cases heq : t' = t
    · subst heq
      simp at hm
    · rw [hpt t' heq] at hm
      have hmem := hr t' hm
      rw [hl] at hmem
      exact (List.mem_cons.mp hmem).resolve_left heq
  all_goals
    intro t'
    show _ = _
    by_cases heq : t' = t
    · subst heq
      simp
    · simp [hpt t' heq]

theorem setMem (h : T.Unmoves T') (mem : σ) : T.Unmoves { T' with mem := mem } :=
  ⟨h.shadow, h.bo, h.entries, h.huge, h.ready⟩

/-- A new job does not change the tables. -/
theorem ofMem {mem : σ} (h : Tree.Unmoves { T with mem := mem } T') : T.Unmoves T' :=
  ⟨h.shadow, h.bo, h.entries, h.huge, h.ready⟩

theorem shaped (h : T.Unmoves T') (hT : T.Shaped) : T'.Shaped where
  root := (h.bo []).trans hT.root
  valid := fun t ht => hT.valid t (h.bo t ▸ ht)
  parent := fun i t ht => (h.bo t).trans (hT.parent i t (h.bo (i :: t) ▸ ht))
  bare := fun t ht => (h.entries t).trans (hT.bare t ht)
  ready := h.ready hT.ready

theorem onlyDirectories (h : T.Unmoves T') : T'.OnlyDirectories ↔ T.OnlyDirectories := by
  unfold Tree.OnlyDirectories
  simp only [h.bo, h.entries]

end Tree.Unmoves

theorem vmUpdatePde_unmoves (p : Params σ) (offset : Table → ℕ) (entry : Table) (T : Tree σ) :
    T.Unmoves (vmUpdatePde p offset entry T) := by
  unfold vmUpdatePde
  split
  · exact .refl T
  · exact (Tree.Unmoves.refl T).setMem _

theorem vmUpdatePde_relocated (p : Params σ) (offset : Table → ℕ) (entry : Table) (T : Tree σ) :
    (vmUpdatePde p offset entry T).relocated = T.relocated := by
  unfold vmUpdatePde
  split <;> rfl

theorem directoriesPass_unmoves (p : Params σ) (offset : Table → ℕ) (l : List Table) :
    ∀ {T : Tree σ}, T.relocated = l → T.Unmoves (directoriesPass p offset l T) := by
  induction l with
  | nil =>
    intro T hl
    unfold directoriesPass
    rw [← hl]
    exact .refl T
  | cons t ts ih =>
    intro T hl
    have hdeq := Tree.Unmoves.dequeue hl
    unfold directoriesPass
    dsimp only
    split
    · exact hdeq.trans (ih rfl)
    · have hpde := hdeq.trans (vmUpdatePde_unmoves p offset t _)
      split
      · exact hpde
      · exact hpde.trans (ih (vmUpdatePde_relocated p offset t _))

section Packets
variable {L : Layout} {offset : Table → ℕ} {shadow : Bool} {t : Table}

/-- The packet that writes the entry of a table in its directory, or in the shadow of that. -/
def pdePacket (L : Layout) (offset : Table → ℕ) (c : Copy) (t : Table) : List ℕ :=
  xdmaVmSetPtePde [] (u64 (entryOffset t + L.base c t.tail)) (offset t) 1 ptePresent

/-- An IB writes the entry of a table, in the shadow as well when there is one. -/
def Writes (L : Layout) (offset : Table → ℕ) (shadow : Bool) (t : Table) (ib : List ℕ) : Prop :=
  ∀ c, c = .main ∨ shadow = true → pdePacket L offset c t <:+: ib

theorem Writes.append {ib : List ℕ} (h : Writes L offset shadow t ib) (more : List ℕ) :
    Writes L offset shadow t (ib ++ more) :=
  fun c hc => (h c hc).trans (List.prefix_append ib more).isInfix

theorem xdmaVmSetPtePde_append (ib : List ℕ) (pe addr count flags : ℕ) :
    xdmaVmSetPtePde ib pe addr count flags = ib ++ xdmaVmSetPtePde [] pe addr count flags := by
  unfold xdmaVmSetPtePde
  rfl

theorem not_writes_nil : ¬ Writes L offset shadow t [] := by
  intro h
  have hnil := List.infix_nil.mp (h .main (.inl rfl))
  unfold pdePacket xdmaVmSetPtePde at hnil
  simp at hnil

/-- The IB that is being filled, or one that was submitted, writes the entry. -/
def Sent (L : Layout) (offset : Table → ℕ) (shadow : Bool) (t : Table) (m : Submitted) : Prop :=
  ∃ ib ∈ m.1 :: m.2, Writes L offset shadow t ib

theorem Sent.append {m : Submitted} (h : Sent L offset shadow t m) (more : List ℕ) :
    Sent L offset shadow t (m.1 ++ more, m.2) := by
  obtain ⟨ib, hib, hw⟩ := h
  cases List.mem_cons.mp hib with
  | inl heq => exact ⟨_, List.mem_cons_self, (heq ▸ hw).append more⟩
  | inr hmem => exact ⟨ib, List.mem_cons_of_mem _ hmem, hw⟩

theorem Sent.submit {m : Submitted} (h : Sent L offset shadow t m) :
    Sent L offset shadow t ((directoriesParams L).submit m) := by
  show Sent L offset shadow t (if m.1 = [] then m else ([], xdmaRingPadIb m.1 :: m.2))
  split
  · exact h
  · obtain ⟨ib, hib, hw⟩ := h
    cases List.mem_cons.mp hib with
    | inl heq => exact ⟨xdmaRingPadIb m.1, by simp, (heq ▸ hw).append _⟩
    | inr hmem => exact ⟨ib, by simp [hmem], hw⟩

variable (L offset t) in
/-- An update of an entry adds its packets to the IB. -/
theorem vmUpdatePde_mem (T : Tree Submitted) :
    ∃ more, (vmUpdatePde (directoriesParams L) offset t T).mem = (T.mem.1 ++ more, T.mem.2) ∧
      ((T.pt t).huge = false → Writes L offset T.shadow t more) := by
  unfold vmUpdatePde
  split
  · next h => exact ⟨[], by simp, by simp [h]⟩
  · unfold Tree.write
    cases hs : T.shadow with
    | false =>
      refine ⟨pdePacket L offset .main t, ?_, ?_⟩
      · exact congrArg (·, T.mem.2) (xdmaVmSetPtePde_append T.mem.1 _ _ _ _)
      · intro _ c hc
        have hmain : c = .main := by simpa using hc
        subst hmain
        exact List.infix_rfl
    | true =>
      refine ⟨pdePacket L offset .shadow t ++ pdePacket L offset .main t, ?_, ?_⟩
      · rw [← List.append_assoc]
        apply congrArg (·, T.mem.2)
        show xdmaVmSetPtePde (xdmaVmSetPtePde T.mem.1 _ _ _ _) _ _ _ _ = _
        rw [xdmaVmSetPtePde_append (xdmaVmSetPtePde T.mem.1 _ _ _ _),
          xdmaVmSetPtePde_append T.mem.1]
        rfl
      · intro _ c _
        cases c with
        | main => exact (List.suffix_append _ _).isInfix
        | shadow => exact (List.prefix_append _ _).isInfix

variable (L offset t) in
theorem vmUpdatePde_sent (T : Tree Submitted) (t' : Table) :
    (Sent L offset T.shadow t' T.mem →
      Sent L offset T.shadow t' (vmUpdatePde (directoriesParams L) offset t T).mem) ∧
    ((T.pt t).huge = false →
      Sent L offset T.shadow t (vmUpdatePde (directoriesParams L) offset t T).mem) := by
  obtain ⟨more, hm, hw⟩ := vmUpdatePde_mem L offset t T
  rw [hm]
  constructor
  · exact fun h => h.append more
  · intro hh
    refine ⟨_, List.mem_cons_self, ?_⟩
    intro c hc
    exact (hw hh c hc).trans (List.suffix_append T.mem.1 more).isInfix

/-- A pass writes the entry of every table of the list that is not huge, or leaves the table on
the list. -/
theorem directoriesPass_sent (ht : t ≠ []) (l : List Table) :
    ∀ {T : Tree Submitted}, T.relocated = l → (T.pt t).huge = false →
      (Sent L offset T.shadow t T.mem ∨ t ∈ l) →
      Sent L offset T.shadow t (directoriesPass (directoriesParams L) offset l T).mem ∨
        t ∈ (directoriesPass (directoriesParams L) offset l T).relocated := by
  induction l with
  | nil =>
    intro T _ _ h
    exact .inl (h.resolve_right (by simp))
  | cons t₀ ts ih =>
    intro T hl hh h
    have hdeq := Tree.Unmoves.dequeue hl
    unfold directoriesPass
    dsimp only
    split
    · next hroot =>
      apply ih rfl ((hdeq.huge t).trans hh)
      exact h.imp_right fun hmem => (List.mem_cons.mp hmem).resolve_left (hroot ▸ ht)
    · generalize hT₁ : ({ T.setPt t₀ (fun e => { e with moved := false }) with
        relocated := ts } : Tree Submitted) = T₁ at *
      have hmem₁ : T₁.mem = T.mem := by rw [← hT₁]; rfl
      have hts : T₁.relocated = ts := by rw [← hT₁]
      have hpde := vmUpdatePde_unmoves (directoriesParams L) offset t₀ T₁
      have hh₁ := (hdeq.huge t).trans hh
      obtain ⟨hkeep, hnew⟩ := vmUpdatePde_sent L offset t₀ T₁ t
      rw [hdeq.shadow, hmem₁] at hkeep
      rw [hdeq.shadow] at hnew
      have hnext : Sent L offset T.shadow t (vmUpdatePde (directoriesParams L) offset t₀ T₁).mem ∨
          t ∈ ts := by
        cases h with
        | inl hs => exact .inl (hkeep hs)
        | inr hmem =>
          cases List.mem_cons.mp hmem with
          | inl heq =>
            subst heq
            exact .inl (hnew hh₁)
          | inr hin => exact .inr hin
      split
      · rw [vmUpdatePde_relocated, hts]
        exact hnext
      · have hrun := ih ((vmUpdatePde_relocated _ _ _ T₁).trans hts) ((hpde.huge t).trans hh₁)
        rw [hpde.shadow, hdeq.shadow] at hrun
        exact hrun hnext

end Packets

section Jobs
variable {L : Layout} {offset : Table → ℕ} {env : JobEnv}

variable (L offset) in
/-- One job: the tables it takes off the list are only unmarked, and the others stay on it. -/
theorem directoriesPass_newJob (T : Tree Submitted) :
    T.Unmoves (directoriesPass (directoriesParams L) offset T.relocated
      { T with mem := ([], T.mem.2) }) :=
  (directoriesPass_unmoves (directoriesParams L) offset T.relocated
    (T := { T with mem := ([], T.mem.2) }) rfl).ofMem

theorem directoriesJobs_unmoves (n : ℕ) :
    ∀ {i : ℕ} {T T' : Tree Submitted} {o : Jobs},
      directoriesJobs env L offset n i T = (o, T') → T.Unmoves T' := by
  induction n with
  | zero =>
    intro i T T' o h
    cases h
    exact .refl T
  | succ n ih =>
    intro i T T' o h
    have hpass := directoriesPass_newJob L offset T
    unfold directoriesJobs at h
    split at h
    · cases h
      exact .refl T
    · split at h
      · cases h
        exact .refl T
      · dsimp only at h
        split at h
        · cases h
          exact hpass.setMem _
        · exact (hpass.setMem _).trans (ih h)

/-- Jobs that are all submitted write the entry of every table of the list that is not huge. -/
theorem directoriesJobs_sent {t : Table} (ht : t ≠ []) (n : ℕ) :
    ∀ {i : ℕ} {T T' : Tree Submitted}, T.relocated.length ≤ n →
      directoriesJobs env L offset n i T = (.done, T') → (T.pt t).huge = false → T.mem.1 = [] →
      (Sent L offset T.shadow t T.mem ∨ t ∈ T.relocated) →
      ∃ ib ∈ T'.mem.2, Writes L offset T.shadow t ib := by
  have hdone : ∀ T : Tree Submitted, T.relocated = [] → T.mem.1 = [] →
      (Sent L offset T.shadow t T.mem ∨ t ∈ T.relocated) →
      ∃ ib ∈ T.mem.2, Writes L offset T.shadow t ib := by
    intro T hl hm h
    rw [hl] at h
    obtain ⟨ib, hib, hw⟩ := h.resolve_right (by simp)
    rw [hm] at hib
    cases List.mem_cons.mp hib with
    | inl heq => exact absurd (heq ▸ hw) not_writes_nil
    | inr hmem => exact ⟨ib, hmem, hw⟩
  induction n with
  | zero =>
    intro i T T' hn h hh hm hs
    cases h
    exact hdone T (List.length_eq_zero_iff.mp (Nat.le_zero.mp hn)) hm hs
  | succ n ih =>
    intro i T T' hn h hh hm hs
    have hpass := directoriesPass_newJob L offset T
    have hnew : ({ T with mem := ([], T.mem.2) } : Tree Submitted) = T := by
      rw [← hm]
    have hsent := directoriesPass_sent ht T.relocated rfl hh hs
    have hlen := directoriesPass_relocated (directoriesParams L) offset T.relocated T
    unfold directoriesJobs at h
    rw [hnew] at h hpass
    split at h
    · next hl =>
      cases h
      exact hdone T hl hm hs
    · split at h
      · cases h
      · dsimp only at h
        generalize hP : directoriesPass (directoriesParams L) offset T.relocated T = P at *
        split at h
        · cases h
        · rw [← hpass.shadow]
          apply ih _ h ((hpass.huge t).trans hh) _ _
          · show P.relocated.length ≤ n
            omega
          · show ((directoriesParams L).submit P.mem).1 = []
            unfold directoriesParams
            dsimp only
            split
            · next hnil => exact hnil
            · rfl
          · rw [hpass.shadow]
            exact hsent.imp_left Sent.submit

/-- Without errors, these are the passes of `vmUpdateDirectories`. -/
theorem directoriesJobs_eq (halloc : ∀ i, env.alloc i = none) (hsubmit : ∀ i, env.submit i = none)
    (n : ℕ) : ∀ {i : ℕ} {T : Tree Submitted}, T.mem.1 = [] →
      directoriesJobs env L offset n i T =
        (.done, directoriesPasses (directoriesParams L) offset n T) := by
  induction n with
  | zero => exact fun _ => rfl
  | succ n ih =>
    intro i T hm
    have hnew : ({ T with mem := ([], T.mem.2) } : Tree Submitted) = T := by
      rw [← hm]
    unfold directoriesJobs directoriesPasses
    rw [halloc, hsubmit, hnew]
    split
    · rfl
    · dsimp only
      rw [ite_self, ih]
      show ((directoriesParams L).submit _).1 = []
      unfold directoriesParams
      dsimp only
      split
      · next hnil => exact hnil
      · rfl

theorem vmUpdateDirectoriesXdma_eq (halloc : ∀ i, env.alloc i = none)
    (hsubmit : ∀ i, env.submit i = none) {T : Tree Submitted} (hm : T.mem.1 = []) :
    vmUpdateDirectoriesXdma env L offset T =
      .ok (.ok (), vmUpdateDirectories (directoriesParams L) offset T) := by
  unfold vmUpdateDirectoriesXdma vmUpdateDirectories
  rw [directoriesJobs_eq halloc hsubmit _ hm]

end Jobs

/-- Whatever was submitted before, the next call that returns 0 writes the entry of every table
below the root that is not huge. -/
def Tree.NextRewrites (L : Layout) (offset : Table → ℕ) (T : Tree Submitted) : Prop :=
  ∀ env T', vmUpdateDirectoriesXdma env L offset { T with mem := ([], []) } = .ok (.ok (), T') →
    ∀ t, t ≠ [] → (T.pt t).bo = true → (T.pt t).huge = false →
      ∃ ib ∈ T'.mem.2, Writes L offset T.shadow t ib

theorem Tree.nextRewrites {L : Layout} {offset : Table → ℕ} {T : Tree Submitted}
    (hq : T.AllQueued) (hr : ∀ t, (T.pt t).moved = true → t ∈ T.relocated) :
    T.NextRewrites L offset := by
  intro env T' hrun t ht hbo hh
  have hlisted : t ∈ T.relocated := by
    cases hm : (T.pt t).moved with
    | false => exact hq t ht hbo hm
    | true => exact hr t hm
  unfold vmUpdateDirectoriesXdma at hrun
  split at hrun
  · next hjobs =>
    cases hrun
    have hsent := directoriesJobs_sent ht _ le_rfl hjobs
    exact hsent hh rfl (.inr hlisted)
  · cases hrun
  · rw [Prog.bind_apply] at hrun
    split at hrun
    · cases hrun
    · cases hrun
    · cases hrun

/-- A job that cannot be submitted, after any number of tables were taken off the list: the call
puts every table back that is not marked moved, and the next call writes every entry, exactly when
no leaf table is there and every directory has its array. -/
theorem updateDirectories_recovers_iff {L : Layout} {offset : Table → ℕ} {env : JobEnv}
    {T T₂ : Tree Submitted} {e : Errno} (hT : T.Shaped)
    (hfail : directoriesJobs env L offset T.relocated.length 0 T = (.submitFailed e, T₂)) :
    (∃ T', vmUpdateDirectoriesXdma env L offset T = .ok (.error e, T') ∧ T'.AllQueued ∧
      T'.NextRewrites L offset) ↔ T.OnlyDirectories := by
  have hun := directoriesJobs_unmoves _ hfail
  have hT₂ := hun.shaped hT
  rw [← hun.onlyDirectories, ← hT₂.walkable_iff]
  unfold vmUpdateDirectoriesXdma
  rw [hfail]
  dsimp only
  rw [Prog.bind_apply]
  constructor
  · intro ⟨T', hrun, _⟩
    apply walkable_of_safe
    unfold Prog.wp
    cases hinv : vmInvalidateLevel (vmDir2 + 1) [] T₂ with
    | error f => simp [hinv] at hrun
    | ok p => trivial
  · intro hw
    have hspec := vmInvalidateLevel_spec (vmDir2 + 1) hw
    unfold Prog.wp at hspec
    cases hinv : vmInvalidateLevel (vmDir2 + 1) [] T₂ with
    | error f => simp [hinv] at hspec
    | ok p =>
      obtain ⟨r, T'⟩ := p
      rw [hinv] at hspec
      obtain ⟨hr, hreq, hqueued⟩ := hspec
      have hpt : T'.pt = T₂.pt := hreq.pt
      have hall : T'.AllQueued := by
        intro t ht hbo hm
        rw [hpt] at hbo hm
        exact hqueued t (hT₂.below ht hbo) hm
      refine ⟨T', ?_, hall, ?_⟩
      · rw [hr]
        rfl
      · apply T'.nextRewrites hall
        intro t hm
        rw [hpt] at hm
        exact hreq.2 (hT₂.ready t hm)

/-- A tree of these tables, whose directories have their arrays; all but the root are listed. -/
def builtTree (tables : List Table) : Tree Submitted where
  shadow := false
  pt t := ⟨decide (t ∈ tables), decide (t ∈ tables ∧ t.length < vmDir2), false, false⟩
  relocated := tables.tail
  mem := ([], [])

theorem builtTree_shaped {tables : List Table} (hroot : [] ∈ tables)
    (hv : ∀ t ∈ tables, ValidTable t) (hp : ∀ t ∈ tables, t.tail ∈ tables) :
    (builtTree tables).Shaped where
  root := by simpa [builtTree] using hroot
  valid := fun t ht => hv t (of_decide_eq_true ht)
  parent := fun i t ht => decide_eq_true (hp (i :: t) (of_decide_eq_true ht))
  bare := fun t ht => decide_eq_false fun h => absurd ht (by omega)
  ready := fun t ht => by cases ht

/-- No job can be submitted. -/
def JobEnv.stuck : JobEnv := ⟨fun _ => none, fun _ => some .enomem⟩

/-- One directory, without leaf tables. -/
theorem updateDirectories_recovers_oneDirectory :
    ∃ T', vmUpdateDirectoriesXdma .stuck denseLayout (denseBase .main) (builtTree [[], [0]]) =
        .ok (.error .enomem, T') ∧ T'.AllQueued ∧ T'.NextRewrites denseLayout (denseBase .main) := by
  have hT : (builtTree [[], [0]]).Shaped :=
    builtTree_shaped (by decide) (by decide) (by decide)
  have hd : (builtTree [[], [0]]).OnlyDirectories := by
    intro t ht
    have hmem : t ∈ [[], [0]] := of_decide_eq_true ht
    have hlen : ∀ t ∈ ([[], [0]] : List Table), t.length < vmDir2 := by decide
    exact ⟨hlen t hmem, decide_eq_true ⟨hmem, hlen t hmem⟩⟩
  exact (updateDirectories_recovers_iff hT rfl).mpr hd

/-- A table without an array, as a leaf table is. -/
theorem vmInvalidateLevel_null {T : Tree σ} {parent : Table} (n : ℕ)
    (h : (T.pt parent).entries = false) :
    vmInvalidateLevel (n + 1) parent T = .error .nullEntries := by
  apply Prog.forM_range_error (vmNumEntries_pos _)
  unfold invalidateEntry
  rw [Prog.bind_apply]
  dsimp only [Prog.gets]
  rw [h]
  rfl

/-- A fault below the first entry. -/
theorem vmInvalidateLevel_first {T : Tree σ} {parent : Table} {n : ℕ} {f : DirFault}
    (he : (T.pt parent).entries = true) (hbo : (T.pt (0 :: parent)).bo = true)
    (hm : (T.pt (0 :: parent)).moved = false)
    (hsub : vmInvalidateLevel n (0 :: parent) (T.relocate (0 :: parent)) = .error f) :
    vmInvalidateLevel (n + 1) parent T = .error f := by
  apply Prog.forM_range_error (vmNumEntries_pos _)
  have hpure : ∀ T : Tree σ, (pure () : Prog DirFault Errno (Tree σ) Unit) T = .ok (.ok (), T) :=
    fun _ => rfl
  unfold invalidateEntry
  simp [Prog.bind_apply, Prog.gets, Prog.deref, Prog.modify, hpure, he, hbo, hm, hsub]

theorem vmUpdateDirectoriesXdma_fault {env : JobEnv} {L : Layout} {offset : Table → ℕ}
    {T T₂ : Tree Submitted} {e : Errno} {f : DirFault}
    (hfail : directoriesJobs env L offset T.relocated.length 0 T = (.submitFailed e, T₂))
    (hinv : vmInvalidateLevel (vmDir2 + 1) [] T₂ = .error f) :
    vmUpdateDirectoriesXdma env L offset T = .error f := by
  unfold vmUpdateDirectoriesXdma
  rw [hfail]
  dsimp only
  rw [Prog.bind_apply, hinv]

/-- One leaf table: its missing array is dereferenced. -/
theorem oneLeaf_faults :
    (builtTree [[], [0], [0, 0]]).Shaped ∧
      (∃ T₂, directoriesJobs .stuck denseLayout (denseBase .main) 2 0
        (builtTree [[], [0], [0, 0]]) = (.submitFailed .enomem, T₂)) ∧
      vmUpdateDirectoriesXdma .stuck denseLayout (denseBase .main)
        (builtTree [[], [0], [0, 0]]) = .error .nullEntries := by
  refine ⟨builtTree_shaped (by decide) (by decide) (by decide), ⟨_, rfl⟩, ?_⟩
  apply vmUpdateDirectoriesXdma_fault rfl
  exact vmInvalidateLevel_first rfl rfl rfl
    (vmInvalidateLevel_first rfl rfl rfl (vmInvalidateLevel_null 0 rfl))

end Gsgpu.PageTable
