import Gsgpu.Lib.Intrusive
import Mathlib.Data.Set.Insert

/-! Several lists at once through the same links, with no entry in two of them. -/
namespace Intrusive

variable {α : Type*}

/-- The lists with the heads `heads` have the entries `xs`, and share none. -/
structure Family (L : Links α) (heads : Set α) (xs : α → List α) : Prop where
  circle : ∀ h ∈ heads, L.Circle h (xs h)
  apart : ∀ h ∈ heads, ∀ k ∈ heads, h ≠ k → ∀ z ∈ h :: xs h, z ∉ k :: xs k

namespace Family

variable {L L' : Links α} {heads : Set α} {xs : α → List α} {h l x : α}

theorem mono {heads' : Set α} (hf : Family L heads xs) (hsub : heads' ⊆ heads) :
    Family L heads' xs :=
  ⟨fun h hh => hf.circle h (hsub hh), fun h hh k hk => hf.apart h (hsub hh) k (hsub hk)⟩

theorem congr {ys : α → List α} (hf : Family L heads xs) (hsame : ∀ h ∈ heads, ys h = xs h) :
    Family L heads ys := by
  refine ⟨fun h hh => ?_, fun h hh k hk hne z hz => ?_⟩
  · rw [hsame h hh]
    exact hf.circle h hh
  · rw [hsame h hh] at hz
    rw [hsame k hk]
    exact hf.apart h hh k hk hne z hz

/-- Where `x` is in a list, there is no other that it is in. -/
theorem notMem (hf : Family L heads xs) (hh : h ∈ heads) (hx : x ∈ xs h) {k : α} (hk : k ∈ heads)
    (hne : k ≠ h) : x ∉ k :: xs k :=
  hf.apart h hh k hk (Ne.symm hne) x (List.mem_cons_of_mem h hx)

variable [DecidableEq α]

/-- One list changes, and no pointer of another. -/
theorem update (hf : Family L heads xs) {ys : List α} (hc : L'.Circle h ys)
    (hframe : ∀ k ∈ heads, k ≠ h → ∀ z ∈ k :: xs k, L'.next z = L.next z ∧ L'.prev z = L.prev z)
    (hapart : ∀ k ∈ heads, k ≠ h → ∀ z ∈ h :: ys, z ∉ k :: xs k) :
    Family L' (insert h heads) (Function.update xs h ys) := by
  have hother : ∀ {k}, k ∈ insert h heads → k ≠ h → k ∈ heads :=
    fun hk hne => hk.resolve_left hne
  refine ⟨fun k hk => ?_, fun k hk k' hk' hne z hz hz' => ?_⟩
  · by_cases hkh : k = h
    · subst hkh
      rwa [Function.update_self]
    · rw [Function.update_of_ne hkh]
      exact (hf.circle k (hother hk hkh)).congr (hframe k (hother hk hkh) hkh)
  · by_cases hkh : k = h
    · subst hkh
      rw [Function.update_self] at hz
      rw [Function.update_of_ne (Ne.symm hne)] at hz'
      exact hapart k' (hother hk' (Ne.symm hne)) (Ne.symm hne) z hz hz'
    · rw [Function.update_of_ne hkh] at hz
      by_cases hkh' : k' = h
      · subst hkh'
        rw [Function.update_self] at hz'
        exact hapart k (hother hk hkh) hkh z hz' hz
      · rw [Function.update_of_ne hkh'] at hz'
        exact hf.apart k (hother hk hkh) k' (hother hk' hkh') hne z hz hz'

/-- A head that is in no list gets an empty one. -/
theorem init (hf : Family L heads xs) (hout : ∀ k ∈ heads, k ≠ h → h ∉ xs k) :
    Family (L.init h) (insert h heads) (Function.update xs h []) := by
  have hnot : ∀ k ∈ heads, k ≠ h → ∀ z ∈ k :: xs k, z ≠ h := by
    rintro k hk hne z hz rfl
    exact (List.mem_cons.mp hz).elim (fun heq => hne heq.symm) (hout k hk hne)
  refine hf.update (L.circle_init h) (fun k hk hne z hz => Links.init_frame (hnot k hk hne z hz)) ?_
  intro k hk hne z hz hz'
  exact hnot k hk hne z hz' (List.mem_singleton.mp hz)

theorem add (hf : Family L heads xs) (hh : h ∈ heads) (hout : ∀ k ∈ heads, x ∉ k :: xs k) :
    Family (L.add x h) heads (Function.update xs h (x :: xs h)) := by
  have hc := hf.circle h hh
  have hinsert := hf.update (hc.add (hout h hh))
    (fun k hk hne z hz => hc.add_frame (hf.apart k hk h hh hne z hz)
      (fun heq => hout k hk (heq ▸ hz))) ?_
  · rwa [Set.insert_eq_of_mem hh] at hinsert
  · intro k hk hne z hz
    rcases List.mem_cons.mp hz with rfl | hz
    · exact hf.apart z hh k hk (Ne.symm hne) z List.mem_cons_self
    · rcases List.mem_cons.mp hz with rfl | hz
      · exact hout k hk
      · exact hf.notMem hh hz hk hne

theorem addTail (hf : Family L heads xs) (hh : h ∈ heads) (hout : ∀ k ∈ heads, x ∉ k :: xs k) :
    Family (L.addTail x h) heads (Function.update xs h (xs h ++ [x])) := by
  have hc := hf.circle h hh
  have hinsert := hf.update (hc.addTail (hout h hh))
    (fun k hk hne z hz => hc.addTail_frame (hf.apart k hk h hh hne z hz)
      (fun heq => hout k hk (heq ▸ hz))) ?_
  · rwa [Set.insert_eq_of_mem hh] at hinsert
  · intro k hk hne z hz
    rcases List.mem_cons.mp hz with rfl | hz
    · exact hf.apart z hh k hk (Ne.symm hne) z List.mem_cons_self
    · rcases List.mem_append.mp hz with hz | hz
      · exact hf.notMem hh hz hk hne
      · rw [List.mem_singleton.mp hz]
        exact hout k hk

theorem delInit (hf : Family L heads xs) (hh : h ∈ heads) (hx : x ∈ xs h) :
    Family (L.delInit x) heads (Function.update xs h ((xs h).erase x)) := by
  have hc := hf.circle h hh
  obtain ⟨us, vs, hsplit⟩ := List.append_of_mem hx
  have hx' : x ∉ us := by
    have hnodup := (List.nodup_cons.mp hc.1).2
    rw [hsplit, List.nodup_append] at hnodup
    exact fun hmem => hnodup.2.2 x hmem x (by simp) rfl
  have herase : (xs h).erase x = us ++ vs := by
    rw [hsplit, List.erase_append_right _ hx', List.erase_cons_head]
  have hc' : (L.delInit x).Circle h ((xs h).erase x) := by
    rw [herase]
    rw [hsplit] at hc
    exact hc.delInit
  have hinsert := hf.update hc'
    (fun k hk hne z hz => hc.delInit_frame hx (hf.apart k hk h hh hne z hz)) ?_
  · rwa [Set.insert_eq_of_mem hh] at hinsert
  · intro k hk hne z hz
    refine hf.apart h hh k hk (Ne.symm hne) z ?_
    rcases List.mem_cons.mp hz with rfl | hz
    · exact List.mem_cons_self
    · exact List.mem_cons_of_mem h (List.mem_of_mem_erase hz)

/-- The entries of one list come before those of another, and its head is given up. -/
theorem splice (hf : Family L heads xs) (hl : l ∈ heads) (hh : h ∈ heads) (hne : l ≠ h) :
    Family (L.splice l h) (heads \ {l}) (Function.update xs h (xs l ++ xs h)) := by
  have hcl := hf.circle l hl
  have hch := hf.circle h hh
  have hrest : Family L (heads \ {l}) xs := hf.mono fun _ hk => hk.1
  have hinsert := hrest.update (hcl.splice hch (hf.apart l hl h hh hne))
    (fun k hk hkh z hz => hcl.splice_frame hch (hf.apart k hk.1 l hl hk.2 z hz)
      (hf.apart k hk.1 h hh hkh z hz)) ?_
  · have hmem : h ∈ heads \ {l} := ⟨hh, Ne.symm hne⟩
    rwa [Set.insert_eq_of_mem hmem] at hinsert
  · intro k hk hkh z hz
    rcases List.mem_cons.mp hz with rfl | hz
    · exact hf.apart z hh k hk.1 (Ne.symm hkh) z List.mem_cons_self
    · rcases List.mem_append.mp hz with hz | hz
      · exact hf.notMem hl hz hk.1 hk.2
      · exact hf.notMem hh hz hk.1 hkh

end Family

end Intrusive
