import Gsgpu.Vm.Requests
import Mathlib.Data.List.Pairwise
import Mathlib.Data.List.Perm.Lattice

/-! The mappings of a VM and the lists of its `bo_va`s: that the interval tree holds disjoint
intervals, and that each mapping in it is on exactly one list. -/
namespace Gsgpu.Vm

/-- The lists hold exactly the mappings in `w`, each once, with their own `bo_va`. -/
def Listed (boVas : Key → Option BoVa) (w : List Mapping) : Prop :=
  ∀ k, (listsOf boVas k).Perm (w.filter fun m => m.boVa = k)

/-- The interval tree and the lists are in order; `bound` is above every page frame number. -/
structure Tidy (bound : ℕ) (s : State) : Prop where
  bounds : ∀ m ∈ s.va, m.start ≤ m.last ∧ m.last < bound
  disjoint : s.va.Pairwise Mapping.Disjoint
  listed : Listed s.boVas s.va

theorem Mapping.Disjoint.symm {m m' : Mapping} (h : m.Disjoint m') : m'.Disjoint m := Or.symm h

instance : Std.Symm Mapping.Disjoint := ⟨fun _ _ h => Or.symm h⟩

theorem Mapping.Disjoint.not_covers {m m' : Mapping} (h : m.Disjoint m') {p : ℕ}
    (hm : m.Covers p) : ¬ m'.Covers p := by
  unfold Mapping.Disjoint at h
  unfold Mapping.Covers at hm ⊢
  omega

theorem vmItInsert_perm (m : Mapping) (va : List Mapping) : (vmItInsert m va).Perm (m :: va) :=
  List.perm_orderedInsert _ _ _

theorem insertSplit_perm (o : Option Mapping) (va : List Mapping) :
    (insertSplit o va).Perm (o.toList ++ va) := by
  cases o with
  | none => exact .rfl
  | some m => exact vmItInsert_perm m va

theorem pairwise_perm {w w' : List Mapping} (h : w.Perm w') (hw : w.Pairwise Mapping.Disjoint) :
    w'.Pairwise Mapping.Disjoint :=
  (h.pairwise_iff fun hd => Mapping.Disjoint.symm hd).mp hw

/-- Non-empty intervals, no two of which share a page frame number. -/
structure Spaced (va : List Mapping) : Prop where
  bounds : ∀ m ∈ va, m.start ≤ m.last
  disjoint : va.Pairwise Mapping.Disjoint

theorem Tidy.spaced {bound : ℕ} {s : State} (h : Tidy bound s) : Spaced s.va :=
  ⟨fun m hm => (h.bounds m hm).1, h.disjoint⟩

namespace Spaced
variable {va : List Mapping}

/-- Two mappings of the tree are the same or disjoint. -/
theorem eq_or_disjoint (h : Spaced va) {m m' : Mapping} (hm : m ∈ va) (hm' : m' ∈ va) :
    m = m' ∨ m.Disjoint m' := by
  by_cases heq : m = m'
  · exact .inl heq
  · right
    exact h.disjoint.forall hm hm' heq

theorem nodup (h : Spaced va) : va.Nodup := by
  apply h.disjoint.imp_of_mem
  intro m m' hm _ hd heq
  subst heq
  have := h.bounds m hm
  unfold Mapping.Disjoint at hd
  omega

end Spaced

namespace Listed
variable {boVas : Key → Option BoVa} {w w' : List Mapping}

theorem perm (h : Listed boVas w) (hw : w.Perm w') : Listed boVas w' := fun k =>
  (h k).trans (hw.filter _)

/-- The `bo_va` of a listed mapping is there. -/
theorem live (h : Listed boVas w) {m : Mapping} (hm : m ∈ w) : ∃ b, boVas m.boVa = some b ∧
    m ∈ b.valids ++ b.invalids := by
  have hmem : m ∈ listsOf boVas m.boVa := (h m.boVa).mem_iff.mpr (by simpa using hm)
  unfold listsOf at hmem
  cases hb : boVas m.boVa with
  | none => rw [hb] at hmem; cases hmem
  | some b => rw [hb] at hmem; exact ⟨b, rfl, hmem⟩

theorem mem_of_mem_lists (h : Listed boVas w) {k : Key} {m : Mapping}
    (hm : m ∈ listsOf boVas k) : m ∈ w ∧ m.boVa = k := by
  simpa using (h k).mem_iff.mp hm

end Listed

theorem listsOf_update_self (boVas : Key → Option BoVa) (k : Key) (b : BoVa) :
    listsOf (Function.update boVas k (some b)) k = b.valids ++ b.invalids := by
  simp [listsOf]

theorem listsOf_update_of_ne (boVas : Key → Option BoVa) {k k' : Key} (o : Option BoVa)
    (h : k' ≠ k) : listsOf (Function.update boVas k o) k' = listsOf boVas k' := by
  simp [listsOf, Function.update_of_ne h]

/-- A mapping put on the invalid list of a `bo_va` that is there. -/
theorem Listed.addInvalid {boVas : Key → Option BoVa} {w : List Mapping} (h : Listed boVas w)
    {m : Mapping} (hlive : boVas m.boVa ≠ none) : Listed (addInvalid boVas m) (m :: w) := by
  intro k
  obtain ⟨b, hb⟩ := Option.ne_none_iff_exists'.mp hlive
  have hk := h k
  unfold Vm.addInvalid
  rw [hb]
  by_cases hkm : k = m.boVa
  · subst hkm
    have hbk : listsOf boVas m.boVa = b.valids ++ b.invalids := by simp [listsOf, hb]
    rw [hbk] at hk
    simp only [listsOf_update_self, List.filter_cons, decide_true, if_true]
    exact List.perm_middle.trans (hk.cons m)
  · simp only [listsOf_update_of_ne boVas _ hkm, List.filter_cons, decide_eq_true_eq,
      if_neg (Ne.symm hkm)]
    exact hk

theorem addInvalid_ne_none {boVas : Key → Option BoVa} {k : Key} (m : Mapping)
    (h : boVas k ≠ none) : addInvalid boVas m k ≠ none := by
  unfold addInvalid
  cases hb : boVas m.boVa with
  | none => exact h
  | some b =>
    by_cases hk : k = m.boVa
    · subst hk; simp
    · simpa [Function.update_of_ne hk] using h

theorem delMapping_ne_none {boVas : Key → Option BoVa} {k : Key} (m : Mapping)
    (h : boVas k ≠ none) : delMapping boVas m k ≠ none := by
  unfold delMapping
  cases hb : boVas m.boVa with
  | none => exact h
  | some b =>
    by_cases hk : k = m.boVa
    · subst hk; simp
    · simpa [Function.update_of_ne hk] using h

/-- A mapping taken off its list. -/
theorem listsOf_delMapping (boVas : Key → Option BoVa) (m : Mapping) :
    listsOf (delMapping boVas m) m.boVa = (listsOf boVas m.boVa).erase m := by
  unfold delMapping
  cases hb : boVas m.boVa with
  | none => simp [listsOf, hb]
  | some b =>
    rw [listsOf_update_self]
    have hbk : listsOf boVas m.boVa = b.valids ++ b.invalids := by simp [listsOf, hb]
    rw [hbk]
    by_cases hm : m ∈ b.valids
    · simp only [if_pos hm]
      rw [List.erase_append_left _ hm]
    · simp only [if_neg hm]
      rw [List.erase_append_right _ hm]

theorem Listed.delMapping {boVas : Key → Option BoVa} {w : List Mapping} (h : Listed boVas w)
    (m : Mapping) : Listed (delMapping boVas m) (w.erase m) := by
  intro k
  have hk := h k
  rw [← List.erase_filter]
  by_cases hkm : k = m.boVa
  · subst hkm
    rw [listsOf_delMapping]
    exact hk.erase m
  · have hne : m ∉ w.filter fun m' => m'.boVa = k := by
      intro hm
      have : m.boVa = k := by simpa using (List.mem_filter.mp hm).2
      exact hkm this.symm
    rw [List.erase_of_not_mem hne]
    have hsame : listsOf (Vm.delMapping boVas m) k = listsOf boVas k := by
      unfold Vm.delMapping
      cases hb : boVas m.boVa with
      | none => rfl
      | some b => exact listsOf_update_of_ne boVas _ hkm
    rw [hsame]
    exact hk

theorem Listed.delMapping_head {boVas : Key → Option BoVa} {w : List Mapping} {m : Mapping}
    (h : Listed boVas (m :: w)) : Listed (Vm.delMapping boVas m) w := by
  have hdel := h.delMapping m
  rwa [List.erase_cons_head] at hdel

section Clear
variable {s e : ℕ} {acc : ClearAcc} {tmp : Mapping} {tmps w : List Mapping}

/-- What the gathering loop keeps: the lists hold the mappings still to come, the splits made so
far, and the mappings that are not touched. -/
def Gathered (acc : ClearAcc) (tmps w : List Mapping) : Prop :=
  Listed acc.boVas (tmps ++ (acc.after.toList ++ (acc.before.toList ++ w)))

theorem Gathered.ne_none (h : Gathered acc (tmp :: tmps) w) : acc.boVas tmp.boVa ≠ none := by
  obtain ⟨b, hb, -⟩ := Listed.live h (m := tmp) (by simp)
  simp [hb]

theorem gathered_keepBefore (h : Gathered acc (tmp :: tmps) w)
    (hb : tmp.start < s → acc.before = none) : Gathered (keepBefore s acc tmp) (tmp :: tmps) w := by
  unfold keepBefore
  split_ifs with hs
  · have hadd := Listed.addInvalid h (m := beforePart s tmp) h.ne_none
    apply hadd.perm
    simp only [hb hs, Option.toList_none, Option.toList_some, List.nil_append]
    rw [← List.append_assoc, ← List.append_assoc]
    exact List.perm_middle.symm
  · exact h

theorem gathered_keepAfter (h : Gathered acc (tmp :: tmps) w)
    (ha : e < tmp.last → acc.after = none) : Gathered (keepAfter e acc tmp) (tmp :: tmps) w := by
  unfold keepAfter
  split_ifs with he
  · have hadd := Listed.addInvalid h (m := afterPart e tmp) h.ne_none
    apply hadd.perm
    simp only [ha he, Option.toList_none, Option.toList_some, List.nil_append]
    exact List.perm_middle.symm
  · exact h

theorem keepBefore_after : (keepBefore s acc tmp).after = acc.after := by
  unfold keepBefore
  split_ifs <;> rfl

theorem keepAfter_before : (keepAfter e acc tmp).before = acc.before := by
  unfold keepAfter
  split_ifs <;> rfl

theorem gathered_clearStep (h : Gathered acc (tmp :: tmps) w)
    (hb : tmp.start < s → acc.before = none) (ha : e < tmp.last → acc.after = none) :
    Gathered (clearStep s e acc tmp) tmps w := by
  have hkept : Gathered (keepAfter e (keepBefore s acc tmp) tmp) (tmp :: tmps) w := by
    apply gathered_keepAfter (gathered_keepBefore h hb)
    rwa [keepBefore_after]
  exact Listed.delMapping_head hkept

theorem clearStep_before : (clearStep s e acc tmp).before =
    if tmp.start < s then some (beforePart s tmp) else acc.before := by
  simp only [clearStep, keepAfter_before]
  unfold keepBefore
  split_ifs <;> rfl

theorem clearStep_after : (clearStep s e acc tmp).after =
    if e < tmp.last then some (afterPart e tmp) else acc.after := by
  unfold clearStep keepAfter
  split_ifs
  · rfl
  · exact keepBefore_after

/-- At most one mapping of the range starts before it, and at most one ends after it. -/
structure CutOnce (s e : ℕ) (tmps : List Mapping) : Prop where
  before : ∀ t ∈ tmps, t.start < s → ∀ t' ∈ tmps, t'.start < s → t = t'
  after : ∀ t ∈ tmps, e < t.last → ∀ t' ∈ tmps, e < t'.last → t = t'

theorem gathered_foldl (hnd : tmps.Nodup) (hc : CutOnce s e tmps) (h : Gathered acc tmps w)
    (hb : ∀ t ∈ tmps, t.start < s → acc.before = none)
    (ha : ∀ t ∈ tmps, e < t.last → acc.after = none) :
    Gathered (tmps.foldl (clearStep s e) acc) [] w := by
  induction tmps generalizing acc with
  | nil => exact h
  | cons t ts ih =>
    have hstep := gathered_clearStep h (hb t (by simp)) (ha t (by simp))
    have hnot := (List.nodup_cons.mp hnd).1
    -- a second split on the same side would be of the mapping just taken
    apply ih (List.nodup_cons.mp hnd).2 _ hstep
    · intro t' ht' hs'
      rw [clearStep_before]
      split_ifs with hs
      · have heq := hc.before t (by simp) hs t' (by simp [ht']) hs'
        exact absurd (heq ▸ ht') hnot
      · exact hb t' (by simp [ht']) hs'
    · intro t' ht' he'
      rw [clearStep_after]
      split_ifs with he
      · have heq := hc.after t (by simp) he t' (by simp [ht']) he'
        exact absurd (heq ▸ ht') hnot
      · exact ha t' (by simp [ht']) he'
    · constructor
      · intro t₁ h₁ hs₁ t₂ h₂ hs₂
        exact hc.before t₁ (by simp [h₁]) hs₁ t₂ (by simp [h₂]) hs₂
      · intro t₁ h₁ he₁ t₂ h₂ he₂
        exact hc.after t₁ (by simp [h₁]) he₁ t₂ (by simp [h₂]) he₂

theorem foldl_before_of_not (h : ∀ t ∈ tmps, ¬ t.start < s) :
    (tmps.foldl (clearStep s e) acc).before = acc.before := by
  induction tmps generalizing acc with
  | nil => rfl
  | cons t ts ih =>
    rw [List.foldl_cons, ih (fun t' ht' => h t' (by simp [ht'])), clearStep_before,
      if_neg (h t (by simp))]

theorem foldl_after_of_not (h : ∀ t ∈ tmps, ¬ e < t.last) :
    (tmps.foldl (clearStep s e) acc).after = acc.after := by
  induction tmps generalizing acc with
  | nil => rfl
  | cons t ts ih =>
    rw [List.foldl_cons, ih (fun t' ht' => h t' (by simp [ht'])), clearStep_after,
      if_neg (h t (by simp))]

theorem foldl_before (hnd : tmps.Nodup) (hc : CutOnce s e tmps) (ht : tmp ∈ tmps)
    (hs : tmp.start < s) :
    (tmps.foldl (clearStep s e) acc).before = some (beforePart s tmp) := by
  obtain ⟨l, r, rfl⟩ := List.append_of_mem ht
  rw [List.foldl_append, List.foldl_cons, foldl_before_of_not, clearStep_before, if_pos hs]
  intro t' ht' hs'
  have heq := hc.before tmp (by simp) hs t' (by simp [ht']) hs'
  have hr : tmp ∉ r := (List.nodup_cons.mp (List.nodup_append.mp hnd).2.1).1
  exact hr (heq ▸ ht')

theorem foldl_after (hnd : tmps.Nodup) (hc : CutOnce s e tmps) (ht : tmp ∈ tmps)
    (he : e < tmp.last) :
    (tmps.foldl (clearStep s e) acc).after = some (afterPart e tmp) := by
  obtain ⟨l, r, rfl⟩ := List.append_of_mem ht
  rw [List.foldl_append, List.foldl_cons, foldl_after_of_not, clearStep_after, if_pos he]
  intro t' ht' he'
  have heq := hc.after tmp (by simp) he t' (by simp [ht']) he'
  have hr : tmp ∉ r := (List.nodup_cons.mp (List.nodup_append.mp hnd).2.1).1
  exact hr (heq ▸ ht')

/-- The mappings that a range does not overlap. -/
def untouched (va : List Mapping) (s e : ℕ) : List Mapping :=
  va.filter fun m => ¬ m.Overlaps s e

/-- What the gathering loop of a clear ends with. -/
def gatherSplits (st : State) (s e : ℕ) : ClearAcc :=
  (vmItIter st.va s e).foldl (clearStep s e) ⟨st.boVas, none, none⟩

theorem mem_vmItIter {va : List Mapping} {m : Mapping} :
    m ∈ vmItIter va s e ↔ m ∈ va ∧ m.start ≤ e ∧ s ≤ m.last := by
  rw [vmItIter, List.mem_filter, decide_eq_true_eq]
  rfl

theorem mem_untouched {va : List Mapping} {m : Mapping} :
    m ∈ untouched va s e ↔ m ∈ va ∧ ¬ m.Overlaps s e := by
  simp [untouched]

section Tidy
variable {bound : ℕ} {st : State}

namespace Spaced

/-- Two mappings that overlap the range and start before it both cover its first page. -/
theorem cutOnce {va : List Mapping} (h : Spaced va) : CutOnce s e (vmItIter va s e) := by
  constructor
  · intro t ht hs t' ht' hs'
    rw [mem_vmItIter] at ht ht'
    rcases h.eq_or_disjoint ht.1 ht'.1 with heq | hd
    · exact heq
    · unfold Mapping.Disjoint at hd
      omega
  · intro t ht he t' ht' he'
    rw [mem_vmItIter] at ht ht'
    rcases h.eq_or_disjoint ht.1 ht'.1 with heq | hd
    · exact heq
    · unfold Mapping.Disjoint at hd
      omega

theorem iter_nodup {va : List Mapping} (h : Spaced va) : (vmItIter va s e).Nodup :=
  h.nodup.filter _

theorem foldl_erase_vmItIter {va : List Mapping} (h : Spaced va) :
    (vmItIter va s e).foldl List.erase va = untouched va s e := by
  rw [← List.diff_eq_foldl, h.nodup.sdiff_eq_filter]
  apply List.filter_congr
  intro m hm
  simp [vmItIter, hm]

/-- The tree after a clear: the splits and what the range does not overlap. -/
theorem clearRange_va_perm (h : Spaced st.va) : (clearRange st s e).va.Perm
    ((gatherSplits st s e).after.toList ++
      ((gatherSplits st s e).before.toList ++ untouched st.va s e)) := by
  have hva : (clearRange st s e).va = insertSplit (gatherSplits st s e).after
      (insertSplit (gatherSplits st s e).before (untouched st.va s e)) := by
    rw [← h.foldl_erase_vmItIter]
    rfl
  rw [hva]
  apply (insertSplit_perm _ _).trans
  exact (insertSplit_perm _ _).append_left _

/-- Where the splits come from. -/
theorem mem_before (h : Spaced st.va) {m : Mapping}
    (hm : m ∈ (gatherSplits st s e).before.toList) :
    ∃ t ∈ vmItIter st.va s e, t.start < s ∧ m = beforePart s t := by
  by_cases hex : ∃ t ∈ vmItIter st.va s e, t.start < s
  · obtain ⟨t, ht, hs⟩ := hex
    have hb : (gatherSplits st s e).before = some (beforePart s t) :=
      foldl_before h.iter_nodup h.cutOnce ht hs
    exact ⟨t, ht, hs, by simpa [hb] using hm⟩
  · push Not at hex
    have hb : (gatherSplits st s e).before = none :=
      foldl_before_of_not fun t ht => (hex t ht).not_gt
    simp [hb] at hm

theorem mem_after (h : Spaced st.va) {m : Mapping}
    (hm : m ∈ (gatherSplits st s e).after.toList) :
    ∃ t ∈ vmItIter st.va s e, e < t.last ∧ m = afterPart e t := by
  by_cases hex : ∃ t ∈ vmItIter st.va s e, e < t.last
  · obtain ⟨t, ht, he⟩ := hex
    have ha : (gatherSplits st s e).after = some (afterPart e t) :=
      foldl_after h.iter_nodup h.cutOnce ht he
    exact ⟨t, ht, he, by simpa [ha] using hm⟩
  · push Not at hex
    have ha : (gatherSplits st s e).after = none :=
      foldl_after_of_not fun t ht => (hex t ht).not_gt
    simp [ha] at hm

/-- What is in the tree after a clear. -/
theorem mem_clearRange (h : Spaced st.va) {m : Mapping} :
    m ∈ (clearRange st s e).va ↔
      (∃ t ∈ vmItIter st.va s e, e < t.last ∧ m = afterPart e t) ∨
      (∃ t ∈ vmItIter st.va s e, t.start < s ∧ m = beforePart s t) ∨
      (m ∈ st.va ∧ ¬ m.Overlaps s e) := by
  rw [h.clearRange_va_perm.mem_iff, List.mem_append, List.mem_append, mem_untouched]
  constructor
  · rintro (ha | hb | hu)
    · exact .inl (h.mem_after ha)
    · exact .inr (.inl (h.mem_before hb))
    · exact .inr (.inr hu)
  · rintro (⟨t, ht, he, rfl⟩ | ⟨t, ht, hs, rfl⟩ | hu)
    · have ha : (gatherSplits st s e).after = some (afterPart e t) :=
        foldl_after h.iter_nodup h.cutOnce ht he
      exact .inl (by simp [ha])
    · have hb : (gatherSplits st s e).before = some (beforePart s t) :=
        foldl_before h.iter_nodup h.cutOnce ht hs
      exact .inr (.inl (by simp [hb]))
    · exact .inr (.inr hu)

end Spaced

theorem Tidy.clearRange_listed (h : Tidy bound st) :
    Listed (clearRange st s e).boVas (clearRange st s e).va := by
  have hparts : Gathered ⟨st.boVas, none, none⟩ (vmItIter st.va s e) (untouched st.va s e) := by
    apply h.listed.perm
    have := List.filter_append_perm (fun m : Mapping => decide (m.Overlaps s e)) st.va
    simpa [untouched, vmItIter] using this.symm
  have hfold := gathered_foldl h.spaced.iter_nodup h.spaced.cutOnce hparts (fun _ _ _ => rfl)
    (fun _ _ _ => rfl)
  exact Listed.perm hfold h.spaced.clearRange_va_perm.symm

/-- The range does not wrap around over a mapping. -/
def NoWrap (st : State) (s e : ℕ) : Prop := s ≤ e + 1 ∨ vmItIter st.va s e = []

instance (st : State) (s e : ℕ) : Decidable (NoWrap st s e) := inferInstanceAs (Decidable (_ ∨ _))

theorem NoWrap.le (h : NoWrap st s e) (ht : tmp ∈ vmItIter st.va s e) : s ≤ e + 1 := by
  rcases h with h | h
  · exact h
  · rw [h] at ht
    cases ht

/-- The splits are disjoint from each other and from what is left alone. -/
theorem Tidy.clearRange_disjoint (h : Tidy bound st) (hw : NoWrap st s e) :
    (clearRange st s e).va.Pairwise Mapping.Disjoint := by
  apply pairwise_perm h.spaced.clearRange_va_perm.symm
  have hrest : ∀ t ∈ vmItIter st.va s e, ∀ m ∈ untouched st.va s e, t.Disjoint m := by
    intro t ht m hm
    have ht' := mem_vmItIter.mp ht
    rw [mem_untouched] at hm
    rcases h.spaced.eq_or_disjoint ht'.1 hm.1 with rfl | hd
    · exact absurd ht'.2 hm.2
    · exact hd
  rw [List.pairwise_append, List.pairwise_append]
  refine ⟨?_, ⟨?_, h.disjoint.filter _, ?_⟩, ?_⟩
  · cases (gatherSplits st s e).after <;> simp
  · cases (gatherSplits st s e).before <;> simp
  · intro b hb m hm
    obtain ⟨t, ht, hs, rfl⟩ := h.spaced.mem_before hb
    have hd := hrest t ht m hm
    rw [mem_vmItIter] at ht
    unfold beforePart Mapping.Disjoint at *
    grind
  · intro a ha m hm
    obtain ⟨t, ht, he, rfl⟩ := h.spaced.mem_after ha
    have hle := hw.le ht
    rcases List.mem_append.mp hm with hm | hm
    · obtain ⟨t', ht', hs, rfl⟩ := h.spaced.mem_before hm
      unfold afterPart beforePart Mapping.Disjoint
      right
      show s - 1 < e + 1
      omega
    · have hd := hrest t ht m hm
      rw [mem_vmItIter] at ht
      unfold afterPart Mapping.Disjoint at *
      grind

theorem Tidy.clearRange (h : Tidy bound st) (hw : NoWrap st s e) :
    Tidy bound (clearRange st s e) := by
  constructor
  · intro m hm
    rcases h.spaced.mem_clearRange.mp hm with ⟨t, ht, he, rfl⟩ | ⟨t, ht, hs, rfl⟩ | ⟨hm, -⟩
    · have hb := h.bounds t (mem_vmItIter.mp ht).1
      unfold afterPart
      dsimp only
      omega
    · have hb := h.bounds t (mem_vmItIter.mp ht).1
      have hle := mem_vmItIter.mp ht
      unfold beforePart
      dsimp only
      omega
    · exact h.bounds m hm
  · exact h.clearRange_disjoint hw
  · exact h.clearRange_listed

/-- A range that wraps around over a mapping leaves two parts of it that overlap. -/
theorem Tidy.not_disjoint_of_wrap (h : Tidy bound st) (hw : ¬ NoWrap st s e) :
    ¬ (Vm.clearRange st s e).va.Pairwise Mapping.Disjoint := by
  unfold NoWrap at hw
  push Not at hw
  obtain ⟨t, ht⟩ := List.exists_mem_of_ne_nil _ hw.2
  have ht' := mem_vmItIter.mp ht
  have ha : afterPart e t ∈ (Vm.clearRange st s e).va :=
    h.spaced.mem_clearRange.mpr (.inl ⟨t, ht, by omega, rfl⟩)
  have hb : beforePart s t ∈ (Vm.clearRange st s e).va :=
    h.spaced.mem_clearRange.mpr (.inr (.inl ⟨t, ht, by omega, rfl⟩))
  have hne : afterPart e t ≠ beforePart s t := by
    intro heq
    have hstart : e + 1 = t.start := congrArg Mapping.start heq
    omega
  intro hp
  have hd := hp.forall ha hb hne
  unfold afterPart beforePart Mapping.Disjoint at hd
  dsimp only at hd
  omega

end Tidy

end Clear

end Gsgpu.Vm
