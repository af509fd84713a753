import Gsgpu.Lib.Family
import Gsgpu.Mn.Registry

/-! The lists of BOs behind the heads of the nodes, and what the list operations do to them. -/
namespace Gsgpu.Mn

open Intrusive

/-- The lists at the heads in `heads` hold exactly the BOs with `mn` set, each in one list. -/
structure Held (L : Links Addr) (heads : Set Addr) (bos : Addr → List ℕ) (mn : ℕ → Bool) :
    Prop where
  isHead : ∀ b, Addr.bo b ∉ heads
  circle : ∀ h ∈ heads, L.Circle h ((bos h).map Addr.bo)
  unique : ∀ h ∈ heads, ∀ h' ∈ heads, ∀ b, b ∈ bos h → b ∈ bos h' → h = h'
  listed : ∀ b, mn b = true ↔ ∃ h ∈ heads, b ∈ bos h

namespace Held

variable {L : Links Addr} {heads : Set Addr} {bos : Addr → List ℕ} {mn : ℕ → Bool} {h a : Addr}
  {b : ℕ}

/-- The lists share no place. -/
theorem family (hh : Held L heads bos mn) : Family L heads (List.map Addr.bo ∘ bos) := by
  refine ⟨hh.circle, fun h hmem h' hmem' hne z hz hz' => ?_⟩
  rcases List.mem_cons.mp hz with rfl | hz
  · rcases List.mem_cons.mp hz' with rfl | hz'
    · exact hne rfl
    · obtain ⟨b, -, rfl⟩ := List.mem_map.mp hz'
      exact hh.isHead b hmem
  · obtain ⟨b, hb, rfl⟩ := List.mem_map.mp hz
    rcases List.mem_cons.mp hz' with rfl | hz'
    · exact hh.isHead b hmem'
    · obtain ⟨b', hb', heq⟩ := List.mem_map.mp hz'
      cases heq
      exact hne (hh.unique h hmem h' hmem' b hb hb')

theorem of_family (hf : Family L heads (List.map Addr.bo ∘ bos)) (hhead : ∀ b, Addr.bo b ∉ heads)
    (hlisted : ∀ b, mn b = true ↔ ∃ h ∈ heads, b ∈ bos h) : Held L heads bos mn := by
  refine ⟨hhead, hf.circle, fun h hmem h' hmem' b hb hb' => ?_, hlisted⟩
  by_contra hne
  exact hf.notMem hmem (List.mem_map_of_mem hb) hmem' (Ne.symm hne)
    (List.mem_cons_of_mem h' (List.mem_map_of_mem hb'))

/-- A listed BO points at BOs and at heads. -/
theorem pointers (hh : Held L heads bos mn) (hb : mn b = true) (ha : a ∉ heads)
    (hbo : ∀ c, a ≠ .bo c) : L.next (.bo b) ≠ a ∧ L.prev (.bo b) ≠ a := by
  obtain ⟨h, hmem, hin⟩ := (hh.listed b).mp hb
  have hc := hh.circle h hmem
  have hin : Addr.bo b ∈ h :: (bos h).map Addr.bo := List.mem_cons_of_mem _ (List.mem_map_of_mem hin)
  have hnot : ∀ z ∈ h :: (bos h).map Addr.bo, z ≠ a := by
    rintro z hz rfl
    rcases List.mem_cons.mp hz with rfl | hz
    · exact ha hmem
    · obtain ⟨c, -, rfl⟩ := List.mem_map.mp hz
      exact hbo c rfl
  exact ⟨hnot _ (hc.next_mem hin), hnot _ (hc.prev_mem hin)⟩

/-- A new head with no BOs. -/
theorem init (hh : Held L heads bos mn) (ha : a ∉ heads) (hbo : ∀ c, a ≠ .bo c) :
    Held (L.init a) (insert a heads) (Function.update bos a []) mn := by
  have hsame : ∀ h ∈ heads, Function.update bos a [] h = bos h := by
    intro h hmem
    have hne : h ≠ a := fun heq => ha (heq ▸ hmem)
    rw [Function.update_of_ne hne]
  have hout : ∀ h ∈ heads, h ≠ a → a ∉ (bos h).map Addr.bo := by
    intro h _ _ hin
    obtain ⟨c, -, heq⟩ := List.mem_map.mp hin
    exact hbo c heq.symm
  refine of_family ?_ (fun b hb => ?_) fun b => ?_
  · rw [Function.comp_update]
    exact hh.family.init hout
  · rcases hb with hb | hb
    · exact hbo b hb.symm
    · exact hh.isHead b hb
  · rw [hh.listed b]
    constructor
    · rintro ⟨h, hmem, hb⟩
      exact ⟨h, .inr hmem, by rwa [hsame h hmem]⟩
    · rintro ⟨h, rfl | hmem, hb⟩
      · simp at hb
      · exact ⟨h, hmem, by rwa [hsame h hmem] at hb⟩

/-- The BOs of one list go to another, and its head is given up. -/
theorem splice (hh : Held L heads bos mn) {l : Addr} (hl : l ∈ heads) (hmem : h ∈ heads)
    (hne : l ≠ h) :
    Held (L.splice l h) (heads \ {l}) (Function.update bos h (bos l ++ bos h)) mn := by
  refine of_family ?_ (fun b hb => hh.isHead b hb.1) fun b => ?_
  · rw [Function.comp_update, List.map_append]
    exact hh.family.splice hl hmem hne
  · rw [hh.listed b]
    constructor
    · rintro ⟨k, hk, hb⟩
      by_cases hkl : k = l
      · subst hkl
        exact ⟨h, ⟨hmem, Ne.symm hne⟩, by simp [hb]⟩
      · refine ⟨k, ⟨hk, hkl⟩, ?_⟩
        by_cases hkh : k = h
        · subst hkh
          simp [hb]
        · rwa [Function.update_of_ne hkh]
    · rintro ⟨k, hk, hb⟩
      by_cases hkh : k = h
      · subst hkh
        rw [Function.update_self, List.mem_append] at hb
        exact hb.elim (fun hb => ⟨l, hl, hb⟩) fun hb => ⟨k, hmem, hb⟩
      · rw [Function.update_of_ne hkh] at hb
        exact ⟨k, hk.1, hb⟩

/-- A BO joins a list. -/
theorem add (hh : Held L heads bos mn) (hmem : h ∈ heads) (hb : mn b = false) :
    Held (L.add (.bo b) h) heads (Function.update bos h (b :: bos h)) (Function.update mn b true) := by
  have hnot : ∀ k ∈ heads, b ∉ bos k := fun k hk hin => by
    simp [(hh.listed b).mpr ⟨k, hk, hin⟩] at hb
  have hout : ∀ k ∈ heads, Addr.bo b ∉ k :: (bos k).map Addr.bo := by
    intro k hk hin
    rcases List.mem_cons.mp hin with rfl | hin
    · exact hh.isHead b hk
    · obtain ⟨c, hc, heq⟩ := List.mem_map.mp hin
      cases heq
      exact hnot k hk hc
  refine of_family ?_ hh.isHead fun c => ?_
  · rw [Function.comp_update, List.map_cons]
    exact hh.family.add hmem hout
  · by_cases hcb : c = b
    · subst hcb
      simp only [Function.update_self, true_iff]
      exact ⟨h, hmem, by simp⟩
    · rw [Function.update_of_ne hcb, hh.listed c]
      refine exists_congr fun k => and_congr_right fun hk => ?_
      by_cases hkh : k = h
      · subst hkh
        simp [hcb]
      · rw [Function.update_of_ne hkh]

/-- A BO leaves its list. -/
theorem delInit (hh : Held L heads bos mn) (hmem : h ∈ heads) {xs ys : List ℕ}
    (hbos : bos h = xs ++ b :: ys) :
    Held (L.delInit (.bo b)) heads (Function.update bos h (xs ++ ys))
      (Function.update mn b false) := by
  have hin : Addr.bo b ∈ (bos h).map Addr.bo := List.mem_map_of_mem (by simp [hbos])
  have hnodup : (bos h).Nodup := (List.nodup_cons.mp (hh.circle h hmem).1).2.of_map
  rw [hbos] at hnodup
  have hleft : b ∉ xs ++ ys := (List.nodup_cons.mp (List.nodup_middle.mp hnodup)).1
  have hxs : b ∉ xs := fun hb => hleft (List.mem_append_left ys hb)
  have herase : (List.map Addr.bo (bos h)).erase (.bo b) = (xs ++ ys).map Addr.bo := by
    rw [← List.map_erase fun _ _ => Addr.bo.inj, hbos, List.erase_append_right _ hxs,
      List.erase_cons_head]
  have hold : ∀ {k : Addr} {c : ℕ}, c ∈ Function.update bos h (xs ++ ys) k ↔
      if k = h then c ∈ xs ++ ys else c ∈ bos k := by
    intro k c
    split_ifs with hkh
    · rw [hkh, Function.update_self]
    · rw [Function.update_of_ne hkh]
  refine of_family ?_ hh.isHead fun c => ?_
  · rw [Function.comp_update, ← herase]
    exact hh.family.delInit hmem hin
  · by_cases hcb : c = b
    · subst hcb
      simp only [Function.update_self, Bool.false_eq_true, false_iff, not_exists, not_and]
      intro k hk hc
      rw [hold] at hc
      split_ifs at hc with hkh
      · exact hleft hc
      · exact hkh (hh.unique k hk h hmem c hc (by simp [hbos]))
    · rw [Function.update_of_ne hcb, hh.listed c]
      refine exists_congr fun k => and_congr_right fun hk => ?_
      rw [hold]
      split_ifs with hkh
      · rw [hkh, hbos]
        simp [hcb]
      · rfl

/-- A head without BOs is given up. -/
theorem drop (hh : Held L heads bos mn) (ha : bos a = []) : Held L (heads \ {a}) bos mn := by
  refine ⟨fun b hb => hh.isHead b hb.1, fun k hk => hh.circle k hk.1,
    fun k hk k' hk' => hh.unique k hk.1 k' hk'.1, fun b => ?_⟩
  rw [hh.listed b]
  constructor
  · rintro ⟨k, hk, hb⟩
    refine ⟨k, ⟨hk, ?_⟩, hb⟩
    rintro rfl
    simp [ha] at hb
  · rintro ⟨k, hk, hb⟩
    exact ⟨k, hk.1, hb⟩

end Held

end Gsgpu.Mn
