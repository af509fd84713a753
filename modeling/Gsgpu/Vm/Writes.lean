import Gsgpu.Vm.Disjoint

/-! What the updates of a VM write to its page table. -/
namespace Gsgpu.Vm

section Writes
variable {maxEntries : ℕ → ℕ} {last flags fuel round pfn start budget : ℕ} {src : Source}
  {pte : ℕ → Pte} {r : Result (ℕ → Pte)}

theorem vmBoUpdateMapping_of_not_mem {pages : Option (ℕ → ℕ)} {addr p : ℕ}
    (h : ¬ (start ≤ p ∧ p ≤ last)) :
    vmBoUpdateMapping pte pages start last flags addr p = pte p := by
  simp [vmBoUpdateMapping, writeRange, h]

theorem vmBoUpdateMapping_flags {pages : Option (ℕ → ℕ)} {addr p : ℕ}
    (h : start ≤ p ∧ p ≤ last) :
    (vmBoUpdateMapping pte pages start last flags addr p).flags = flags := by
  unfold vmBoUpdateMapping writeRange
  rw [if_pos h]
  cases pages <;> rfl

theorem splitRound_max_lt {uninit addr max : ℕ} {pages : Option (ℕ → ℕ)}
    (hun : src = .none → uninit < 2 ^ 63)
    (h : splitRound src pfn uninit = some (pages, addr, max)) : max < 2 ^ 63 := by
  cases src with
  | pages dma =>
    cases h
    decide
  | nodes nodes =>
    cases nodes with
    | nil => cases h
    | cons n rest =>
      have hmax : max = n.size - pfn := by
        simp only [splitRound, Option.some.injEq, Prod.mk.injEq] at h
        exact h.2.2.symm
      have := n.size_lt
      omega
  | none =>
    cases h
    exact hun rfl

theorem splitNext_eq_none_iff (pfn : ℕ) : (splitNext src pfn).1 = .none ↔ src = .none := by
  cases src with
  | pages dma => simp [splitNext]
  | nodes nodes =>
    cases nodes with
    | nil => simp [splitNext]
    | cons n rest =>
      simp only [splitNext]
      split_ifs <;> simp
  | none => simp [splitNext]

/-- Where a round of the loop ends: not before its start, and not after the mapping. -/
theorem splitLast_bounds {max last' : ℕ} (hmax : max < 2 ^ 63) (hlast : last < 2 ^ 50)
    (hstart : start ≤ last + 1) (h : min last (u64 (start + max + (2 ^ 64 - 1))) = last') :
    last' ≤ last ∧ start ≤ last' + 1 ∧ u64 (last' + 1) = last' + 1 := by
  unfold u64 at *
  omega

/-- The loop stays inside the mapping, unless an uninitialised `max_entries` leads it out. -/
theorem splitLoop_inside (hun : src = .none → ∀ i, maxEntries i < 2 ^ 63)
    (hlast : last < 2 ^ 50) (hstart : start ≤ last + 1)
    (h : splitLoop maxEntries last flags fuel round src pfn start budget pte = some r) {p : ℕ}
    (hp : ¬ (start ≤ p ∧ p ≤ last)) : r.val p = pte p := by
  induction fuel generalizing round src pfn start budget pte with
  | zero => cases h
  | succ fuel ih =>
    unfold splitLoop at h
    split at h
    · cases h
    · rename_i pages addr max hround
      have hmax := splitRound_max_lt (fun hs => hun hs round) hround
      dsimp only at h
      generalize hl : min last (u64 (start + max + (2 ^ 64 - 1))) = last' at h
      obtain ⟨hle, hge, hnext⟩ := splitLast_bounds hmax hlast hstart hl
      have hwrite : vmBoUpdateMapping pte pages start last' flags addr p = pte p :=
        vmBoUpdateMapping_of_not_mem (by omega)
      split_ifs at h with hb hend
      · cases h
        rfl
      · cases h
        exact hwrite
      · rw [hnext] at h
        have hrest := ih (fun hs => hun ((splitNext_eq_none_iff _).mp hs)) (by omega) h (by omega)
        rw [hrest, hwrite]

/-- The address of page `i` of a source. -/
def Source.addr : Source → ℕ → ℕ
  | pages dma, i => dma i
  | nodes ns, i => nodeAddr ns i
  | none, _ => 0

/-- The walk over the nodes stands inside its first node. -/
def Source.At : Source → ℕ → Prop
  | nodes (n :: _), pfn => pfn < n.size
  | _, _ => True

theorem nodeAddr_add (n : Node) (rest : List Node) (j : ℕ) :
    nodeAddr (n :: rest) (n.size + j) = nodeAddr rest j := by
  simp [nodeAddr]

/-- What one round writes is what the source has there. -/
theorem splitRound_addr {uninit addr max : ℕ} {pages : Option (ℕ → ℕ)} (hat : src.At pfn)
    (hsrc : src ≠ .none) (h : splitRound src pfn uninit = some (pages, addr, max)) {last' p : ℕ}
    (hp : start ≤ p ∧ p ≤ last') (hmax : last' + 1 ≤ start + max) :
    (vmBoUpdateMapping pte pages start last' flags addr p).addr =
      src.addr (pfn + (p - start)) := by
  unfold vmBoUpdateMapping writeRange
  rw [if_pos hp]
  cases src with
  | pages dma =>
    cases h
    simp only [Source.addr]
    congr 1
    unfold pageSize gpuPageSize gpuPageShift
    omega
  | nodes nodes =>
    cases nodes with
    | nil => cases h
    | cons n rest =>
      simp only [splitRound, Option.some.injEq, Prod.mk.injEq] at h
      obtain ⟨rfl, rfl, rfl⟩ := h
      have hin : pfn + (p - start) < n.size := by
        simp only [Source.At] at hat
        omega
      simp only [Source.addr, nodeAddr, if_pos hin]
      unfold pageSize gpuPageSize gpuPageShift
      omega
  | none => exact absurd rfl hsrc

theorem splitRound_max_pos {uninit addr max : ℕ} {pages : Option (ℕ → ℕ)} (hat : src.At pfn)
    (hsrc : src ≠ .none) (h : splitRound src pfn uninit = some (pages, addr, max)) : 0 < max := by
  cases src with
  | pages dma =>
    cases h
    decide
  | nodes nodes =>
    cases nodes with
    | nil => cases h
    | cons n rest =>
      simp only [splitRound, Option.some.injEq, Prod.mk.injEq] at h
      obtain ⟨-, -, rfl⟩ := h
      simp only [Source.At] at hat
      omega
  | none => exact absurd rfl hsrc

theorem splitNext_le (src : Source) (pfn : ℕ) : (splitNext src pfn).2 ≤ pfn := by
  unfold splitNext
  split
  · split_ifs <;> simp
  · exact le_refl _

/-- The step to the next node keeps the place. -/
theorem splitNext_addr {uninit addr max cnt : ℕ} {pages : Option (ℕ → ℕ)} (hat : src.At pfn)
    (h : splitRound src pfn uninit = some (pages, addr, max)) (hsrc : src ≠ .none)
    (hcnt : cnt ≤ max) :
    (splitNext src (pfn + cnt)).1.At (splitNext src (pfn + cnt)).2 ∧
      ∀ j, (splitNext src (pfn + cnt)).1.addr ((splitNext src (pfn + cnt)).2 + j) =
        src.addr (pfn + cnt + j) := by
  cases src with
  | pages dma => exact ⟨trivial, fun j => rfl⟩
  | nodes nodes =>
    cases nodes with
    | nil => cases h
    | cons n rest =>
      simp only [splitRound, Option.some.injEq, Prod.mk.injEq] at h
      obtain ⟨-, -, rfl⟩ := h
      simp only [Source.At] at hat
      simp only [splitNext]
      split_ifs with hend
      · constructor
        · cases rest with
          | nil => trivial
          | cons n' rest => exact n'.size_pos
        · intro j
          simp only [Source.addr]
          rw [← hend, nodeAddr_add, Nat.zero_add]
      · constructor
        · simp only [Source.At]
          omega
        · exact fun j => rfl
  | none => exact absurd rfl hsrc

/-- What the loop writes is what the source has there, and a loop that gets to the end has written
every page of the mapping. -/
theorem splitLoop_content (hun : src = .none → ∀ i, maxEntries i < 2 ^ 63)
    (hlast : last < 2 ^ 50) (hstart : start ≤ last + 1) (hat : src.At pfn)
    (hpfn : pfn + (last + 1 - start) < 2 ^ 63)
    (h : splitLoop maxEntries last flags fuel round src pfn start budget pte = some r)
    {p : ℕ} (hok : r.ok = true ∨ r.val p ≠ pte p) (hp : start ≤ p ∧ p ≤ last) :
    (r.val p).flags = flags ∧
      (src ≠ .none → (r.val p).addr = src.addr (pfn + (p - start))) := by
  induction fuel generalizing round src pfn start budget pte with
  | zero => cases h
  | succ fuel ih =>
    unfold splitLoop at h
    split at h
    · cases h
    · rename_i pages addr max hround
      have hmax := splitRound_max_lt (fun hs => hun hs round) hround
      dsimp only at h
      generalize hl : min last (u64 (start + max + (2 ^ 64 - 1))) = last' at h
      obtain ⟨hle, hge, hnext⟩ := splitLast_bounds hmax hlast hstart hl
      have hround_end : src ≠ .none → last' + 1 ≤ start + max := by
        intro hsrc
        have hpos := splitRound_max_pos hat hsrc hround
        unfold u64 at hl
        omega
      have hwrite : p ≤ last' →
          (vmBoUpdateMapping pte pages start last' flags addr p).flags = flags ∧ (src ≠ .none →
            (vmBoUpdateMapping pte pages start last' flags addr p).addr =
              src.addr (pfn + (p - start))) := by
        intro hp'
        constructor
        · exact vmBoUpdateMapping_flags ⟨hp.1, hp'⟩
        · intro hsrc
          exact splitRound_addr hat hsrc hround ⟨hp.1, hp'⟩ (hround_end hsrc)
      split_ifs at h with hb hend
      · cases h
        simp at hok
      · cases h
        have hp' : p ≤ last' := by omega
        exact hwrite hp'
      · rw [hnext] at h hend
        have hstep : u64 (pfn + (last' + 1 + 2 ^ 64 - start)) = pfn + (last' + 1 - start) := by
          unfold u64
          omega
        rw [hstep] at h
        have hun' := fun hs => hun ((splitNext_eq_none_iff (pfn + (last' + 1 - start))).mp hs)
        by_cases hp' : p ≤ last'
        · -- written in this round, and left alone by the later ones
          rw [splitLoop_inside hun' hlast (by omega) h (by omega)]
          exact hwrite hp'
        · have hleft : vmBoUpdateMapping pte pages start last' flags addr p = pte p :=
            vmBoUpdateMapping_of_not_mem (by omega)
          rw [← hleft] at hok
          by_cases hsrc : src = .none
          · subst hsrc
            have hrest := ih hun' (by omega) trivial (by simp only [splitNext]; omega) h
              hok (by omega)
            exact ⟨hrest.1, fun hne => absurd rfl hne⟩
          · have hcnt : last' + 1 - start ≤ max := by
              have := hround_end hsrc
              omega
            obtain ⟨hat', haddr⟩ := splitNext_addr hat hround hsrc hcnt
            have hpfn' : (splitNext src (pfn + (last' + 1 - start))).2 + (last + 1 - (last' + 1)) <
                2 ^ 63 := by
              have := splitNext_le src (pfn + (last' + 1 - start))
              omega
            have hrest := ih hun' (by omega) hat' hpfn' h hok (by omega)
            constructor
            · exact hrest.1
            · intro _
              rw [hrest.2 (fun hs => hsrc ((splitNext_eq_none_iff _).mp hs)), haddr]
              congr 1
              omega

theorem seekNode_spec {nodes ns : List Node} {pfn' : ℕ} (h : seekNode nodes pfn = some (ns, pfn')) :
    (Source.nodes ns).At pfn' ∧ pfn' ≤ pfn ∧
      ∀ j, nodeAddr ns (pfn' + j) = nodeAddr nodes (pfn + j) := by
  induction nodes generalizing pfn with
  | nil => cases h
  | cons n rest ih =>
    unfold seekNode at h
    split_ifs at h with hsize
    · obtain ⟨hat, hle, haddr⟩ := ih h
      refine ⟨hat, by omega, fun j => ?_⟩
      rw [haddr j, ← nodeAddr_add n rest]
      congr 1
      omega
    · cases h
      exact ⟨by simpa [Source.At] using hsize, le_refl _, fun j => rfl⟩

/-- An update of one mapping is a loop that starts where the offset of the mapping is. -/
theorem vmBoSplitMapping_loop {env : UpdateEnv} {m : Mapping}
    (h : vmBoSplitMapping env src m flags budget pte = some r) : ∃ src' pfn,
      splitLoop (env.maxEntries m.start) m.last (maskWriteable m flags) env.fuel 0 src' pfn m.start
        budget pte = some r ∧ (src' = .none ↔ src = .none) ∧ src'.At pfn ∧
      pfn ≤ m.offset / pageSize ∧
      ∀ j, src'.addr (pfn + j) = src.addr (m.offset / pageSize + j) := by
  unfold vmBoSplitMapping at h
  cases src with
  | pages dma => exact ⟨_, _, h, Iff.rfl, trivial, le_refl _, fun j => rfl⟩
  | nodes nodes =>
    simp only at h
    split at h
    · cases h
    · rename_i hseek
      obtain ⟨hat, hle, haddr⟩ := seekNode_spec hseek
      exact ⟨_, _, h, by simp, hat, hle, haddr⟩
  | none => exact ⟨_, _, h, Iff.rfl, trivial, le_refl _, fun j => rfl⟩

theorem maskWriteable_present (m : Mapping) (flags : ℕ) :
    (maskWriteable m flags).testBit 0 = flags.testBit 0 := by
  have hbit : (2 ^ 64 - 1 - 2 ^ 3).testBit 0 = true := by decide
  unfold maskWriteable
  split_ifs
  · rfl
  · rw [Nat.testBit_and, hbit, Bool.and_true]

/-- The values found in the uninitialised `max_entries` do not wrap the loop around. -/
def UpdateEnv.Bounded (env : UpdateEnv) : Prop := ∀ start i, env.maxEntries start i < 2 ^ 63

theorem vmBoSplitMapping_frame {env : UpdateEnv} (henv : env.Bounded) {m : Mapping}
    (hm : m.start ≤ m.last ∧ m.last < 2 ^ 50)
    (h : vmBoSplitMapping env src m flags budget pte = some r) {p : ℕ} (hp : ¬ m.Covers p) :
    r.val p = pte p := by
  obtain ⟨src', pfn, hloop, -⟩ := vmBoSplitMapping_loop h
  exact splitLoop_inside (fun _ => henv m.start) hm.2 (by omega) hloop hp

/-- The entry is the one of the source at the page that the mapping shows there. -/
def Entry (src : Source) (flags : ℕ) (m : Mapping) (p : ℕ) (e : Pte) : Prop :=
  e.present = flags.testBit 0 ∧
    (src ≠ .none → e.addr = src.addr (m.offset / pageSize + (p - m.start)))

theorem vmBoSplitMapping_content {env : UpdateEnv} (henv : env.Bounded) {m : Mapping}
    (hm : m.start ≤ m.last ∧ m.last < 2 ^ 50) (hoff : m.offset < 2 ^ 64)
    (h : vmBoSplitMapping env src m flags budget pte = some r) {p : ℕ}
    (hok : r.ok = true ∨ r.val p ≠ pte p) (hp : m.Covers p) : Entry src flags m p (r.val p) := by
  obtain ⟨src', pfn, hloop, hiff, hat, hle, haddr⟩ := vmBoSplitMapping_loop h
  have hpfn : pfn + (m.last + 1 - m.start) < 2 ^ 63 := by
    have : m.offset / pageSize < 2 ^ 50 := by
      unfold pageSize
      omega
    omega
  obtain ⟨hflags, hcontent⟩ := splitLoop_content (fun _ => henv m.start) hm.2 (by omega) hat hpfn
    hloop hok hp
  constructor
  · rw [Pte.present, hflags, maskWriteable_present]
  · intro hsrc
    rw [hcontent (fun hs => hsrc (hiff.mp hs)), haddr]

theorem updateMappings_frame {env : UpdateEnv} (henv : env.Bounded) {ms : List Mapping}
    (hms : ∀ m ∈ ms, m.start ≤ m.last ∧ m.last < 2 ^ 50)
    (h : updateMappings env flags src ms budget pte = some r) {p : ℕ}
    (hp : ∀ m ∈ ms, ¬ m.Covers p) : r.val p = pte p := by
  induction ms generalizing budget pte with
  | nil =>
    cases h
    rfl
  | cons m ms ih =>
    unfold updateMappings at h
    split at h
    · cases h
    · rename_i hr
      cases h
      exact vmBoSplitMapping_frame henv (hms m (by simp)) hr (hp m (by simp))
    · rename_i hr
      have hhead := vmBoSplitMapping_frame henv (hms m (by simp)) hr (hp m (by simp))
      have htail := ih (fun m' hm' => hms m' (by simp [hm'])) h (fun m' hm' => hp m' (by simp [hm']))
      rw [htail]
      exact hhead

theorem updateMappings_content {env : UpdateEnv} (henv : env.Bounded) {ms : List Mapping}
    (hms : ∀ m ∈ ms, (m.start ≤ m.last ∧ m.last < 2 ^ 50) ∧ m.offset < 2 ^ 64)
    (hdisj : ms.Pairwise Mapping.Disjoint)
    (h : updateMappings env flags src ms budget pte = some r) {p : ℕ}
    (hok : r.ok = true ∨ r.val p ≠ pte p) {m : Mapping} (hm : m ∈ ms) (hp : m.Covers p) :
    Entry src flags m p (r.val p) := by
  induction ms generalizing budget pte with
  | nil => cases hm
  | cons m₀ ms ih =>
    have hm₀ := hms m₀ (by simp)
    obtain ⟨hhead, htail⟩ := List.pairwise_cons.mp hdisj
    have hrest : ∀ m' ∈ ms, m'.start ≤ m'.last ∧ m'.last < 2 ^ 50 :=
      fun m' hm' => (hms m' (by simp [hm'])).1
    have hnot : ∀ m' ∈ ms, m'.Covers p → ¬ m₀.Covers p :=
      fun m' hm' hcov hcov₀ => (hhead m' hm').not_covers hcov₀ hcov
    unfold updateMappings at h
    split at h
    · cases h
    · -- the head fails: the mappings after it are not reached
      rename_i hr
      cases h
      rcases List.mem_cons.mp hm with rfl | hm
      · exact vmBoSplitMapping_content henv hm₀.1 hm₀.2 hr hok hp
      · have heq := vmBoSplitMapping_frame henv hm₀.1 hr (hnot m hm hp)
        rcases hok with hok | hne
        · cases hok
        · exact absurd heq hne
    · rename_i hr
      rcases List.mem_cons.mp hm with rfl | hm
      · have heq := updateMappings_frame henv hrest h (fun m' hm' hcov => hnot m' hm' hcov hp)
        rw [heq]
        exact vmBoSplitMapping_content henv hm₀.1 hm₀.2 hr (.inl rfl) hp
      · have heq := vmBoSplitMapping_frame henv hm₀.1 hr (hnot m hm hp)
        simp only at heq
        rw [← heq] at hok
        exact ih (fun m' hm' => hms m' (by simp [hm'])) htail h hok hm

theorem compressed_testBit (n : ℕ) :
    ((n &&& compressedMask) >>> pteCompressedShift).testBit 0 = false := by
  have hmask : compressedMask.testBit (pteCompressedShift + 0) = false := by decide
  rw [Nat.testBit_shiftRight, Nat.testBit_and, hmask, Bool.and_false]

end Writes

theorem vmBoUpdate_freed {env : UpdateEnv} {s : State} {k : Key} {clear : Bool} {budget : ℕ}
    {r : Result State} (h : vmBoUpdate env s k clear budget = some r) : r.val.freed = s.freed := by
  unfold vmBoUpdate at h
  cases hb : s.boVas k with
  | none =>
    rw [hb] at h
    cases h
    rfl
  | some b =>
    simp only [hb] at h
    split at h
    · cases h
    · cases h
      rfl
    · cases h
      rfl

end Gsgpu.Vm
