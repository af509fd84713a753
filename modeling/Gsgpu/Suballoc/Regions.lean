import Gsgpu.Suballoc.Manager
import Mathlib.Data.List.Pairwise
import Mathlib.Data.Nat.ModEq

/-! No region of the suballocator is handed out while someone may still use it: the regions in the
list are sorted and apart, and a region leaves the list only when it is freed and its fence has
signaled. -/
namespace Gsgpu.Suballoc

open Cursor

namespace Manager

/-- What the lists of a manager have in every state. -/
structure Wf (m : Manager) : Prop where
  sorted : m.olist.Pairwise fun a b => a.eoffset ≤ b.soffset
  bounds : ∀ a ∈ m.olist, a.soffset ≤ a.eoffset ∧ a.eoffset ≤ m.size
  aligned : ∀ a ∈ m.olist, a.align ∣ a.soffset
  nodup : (m.olist.map SaBo.id).Nodup
  hole : ∀ id, m.hole = some id → id ∈ m.olist.map SaBo.id
  flist : ∀ i, ∀ id ∈ m.flist i, id ∈ m.olist.map SaBo.id

variable {m m' : Manager} {isSignaled : Fence → Bool}

theorem init_wf (size align : ℕ) : (init size align).Wf where
  sorted := .nil
  bounds := nofun
  aligned := nofun
  nodup := List.nodup_nil
  hole := nofun
  flist _ := nofun

theorem Wf.eq_of_id (h : m.Wf) {a b : SaBo} (ha : a ∈ m.olist) (hb : b ∈ m.olist)
    (hid : a.id = b.id) : a = b :=
  List.inj_on_of_nodup_map h.nodup ha hb hid

theorem mem_removeLocked {id : ℕ} {a : SaBo} :
    a ∈ (m.removeLocked id).olist ↔ a ∈ m.olist ∧ a.id ≠ id := by
  simp [removeLocked, remove]

theorem Wf.removeLocked (h : m.Wf) (id : ℕ) : (m.removeLocked id).Wf := by
  have hsub : (m.removeLocked id).olist.Sublist m.olist := List.filter_sublist
  refine ⟨h.sorted.sublist hsub, ?_, ?_, h.nodup.sublist (hsub.map _), ?_, ?_⟩
  · intro a ha
    exact h.bounds a (hsub.subset ha)
  · intro a ha
    exact h.aligned a (hsub.subset ha)
  · intro k hk
    simp only [Manager.removeLocked] at hk ⊢
    split at hk
    · exact mem_map_remove.mpr (mem_of_prev hk)
    · next hne =>
      refine mem_map_remove.mpr ⟨?_, h.hole k hk⟩
      rintro rfl
      exact hne hk
  · intro i k hk
    obtain ⟨hmem, hne⟩ := List.mem_filter.mp hk
    exact mem_map_remove.mpr ⟨by simpa using hne, h.flist i k hmem⟩

/-- Moving the hole. -/
theorem Wf.setHole (h : m.Wf) {hole : Option ℕ}
    (hhole : ∀ id, hole = some id → id ∈ m.olist.map SaBo.id) : Wf { m with hole := hole } :=
  { h with hole := hhole }

/-- A manager after regions whose fences were seen signaled have left. -/
structure Drops (isSignaled : Fence → Bool) (m m' : Manager) : Prop where
  wf : m'.Wf
  size : m'.size = m.size
  align : m'.align = m.align
  sub : ∀ a ∈ m'.olist, a ∈ m.olist
  kept : ∀ a ∈ m.olist, a ∈ m'.olist ∨ ∃ f, a.fence = some f ∧ isSignaled f = true

theorem Drops.refl (h : m.Wf) : Drops isSignaled m m :=
  ⟨h, rfl, rfl, fun _ ha => ha, fun _ ha => .inl ha⟩

theorem Drops.trans {m'' : Manager} (h : Drops isSignaled m m') (h' : Drops isSignaled m' m'') :
    Drops isSignaled m m'' where
  wf := h'.wf
  size := h'.size.trans h.size
  align := h'.align.trans h.align
  sub a ha := h.sub a (h'.sub a ha)
  kept a ha := by
    rcases h.kept a ha with hin | hsig
    · exact h'.kept a hin
    · exact .inr hsig

theorem Drops.removeLocked (h : m.Wf) {bo : SaBo} (hbo : bo ∈ m.olist) {f : Fence}
    (hf : bo.fence = some f) (hsig : isSignaled f = true) :
    Drops isSignaled m (m.removeLocked bo.id) where
  wf := h.removeLocked bo.id
  size := rfl
  align := rfl
  sub a ha := (mem_removeLocked.mp ha).1
  kept a ha := by
    by_cases hid : a.id = bo.id
    · exact .inr ⟨f, h.eq_of_id ha hbo hid ▸ hf, hsig⟩
    · exact .inl (mem_removeLocked.mpr ⟨ha, hid⟩)

theorem tryFreeFrom_drops {bos : List SaBo} (h : m.Wf) (hmem : ∀ bo ∈ bos, bo ∈ m.olist)
    (hnodup : (bos.map SaBo.id).Nodup) :
    Drops isSignaled m (tryFreeFrom isSignaled bos m) := by
  induction bos generalizing m with
  | nil => exact .refl h
  | cons bo bos ih =>
    rw [tryFreeFrom]
    split
    · exact .refl h
    · next f hf =>
      split
      · next hsig =>
        have hdrop := Drops.removeLocked h (hmem bo List.mem_cons_self) hf hsig
        obtain ⟨hnot, hnodup'⟩ := List.nodup_cons.mp hnodup
        refine hdrop.trans (ih hdrop.wf ?_ hnodup')
        intro b hb
        refine mem_removeLocked.mpr ⟨hmem b (List.mem_cons_of_mem bo hb), fun hid => hnot ?_⟩
        exact hid ▸ List.mem_map_of_mem hb
      · exact .refl h

theorem Wf.tryFree (h : m.Wf) (isSignaled : Fence → Bool) :
    Drops isSignaled m (m.tryFree isSignaled) := by
  obtain ⟨l, r, hsplit⟩ := exists_splits h.hole
  rw [Manager.tryFree, hsplit.after_eq h.nodup]
  have hsub : r.Sublist m.olist := hsplit.eq ▸ List.sublist_append_right l r
  exact tryFreeFrom_drops h (fun _ hb => hsub.subset hb) (h.nodup.sublist (hsub.map _))

theorem searchList_bestBo {tries : ℕ → ℕ} {acc : Search} {i : ℕ} {bo : SaBo}
    (h : (m.searchList isSignaled tries acc i).bestBo = some bo) : acc.bestBo = some bo ∨
      bo ∈ m.olist ∧ ∃ f, bo.fence = some f ∧ isSignaled f = true := by
  rw [searchList] at h
  split at h
  · exact .inl h
  · next b hb =>
    obtain ⟨id, -, hfind⟩ := Option.bind_eq_some_iff.mp hb
    split at h
    · exact .inl h
    · next f hf =>
      split at h
      · exact .inl h
      · next hsig =>
        split at h
        · exact .inl h
        · split at h
          · obtain rfl := Option.some.inj h
            exact .inr ⟨List.mem_of_find?_eq_some hfind, f, hf, by simpa using hsig⟩
          · exact .inl h

/-- What the search finds is a region whose fence was seen signaled. -/
theorem search_bestBo {tries : ℕ → ℕ} {fences : ℕ → Option Fence} {bo : SaBo}
    (h : (m.search isSignaled tries fences).bestBo = some bo) :
    bo ∈ m.olist ∧ ∃ f, bo.fence = some f ∧ isSignaled f = true := by
  have hfold : ∀ (is : List ℕ) (acc : Search),
      (is.foldl (m.searchList isSignaled tries) acc).bestBo = some bo → acc.bestBo = some bo ∨
        bo ∈ m.olist ∧ ∃ f, bo.fence = some f ∧ isSignaled f = true := by
    intro is
    induction is with
    | nil => exact fun acc h => .inl h
    | cons i is ih =>
      intro acc h
      rcases ih _ h with hacc | hfound
      · exact searchList_bestBo hacc
      · exact .inr hfound
  exact (hfold _ _ h).resolve_left nofun

theorem Wf.nextHole (h : m.Wf) (isSignaled : Fence → Bool) (fences : ℕ → Option Fence)
    (tries : ℕ → ℕ) : Drops isSignaled m (m.nextHole isSignaled fences tries).2.1 := by
  simp only [Manager.nextHole]
  split
  · exact ⟨h.setHole (by simp), rfl, rfl, fun _ ha => ha, fun _ ha => .inl ha⟩
  · split
    · exact .refl h
    · next bo hbo =>
      obtain ⟨hmem, f, hf, hsig⟩ := search_bestBo hbo
      have hset : Drops isSignaled m { m with hole := prev SaBo.id m.olist bo.id } :=
        ⟨h.setHole fun _ hid => (mem_of_prev hid).2, rfl, rfl, fun _ ha => ha, fun _ ha => .inl ha⟩
      exact hset.trans (.removeLocked hset.wf hmem hf hsig)

/-- Where the hole begins and ends, and that all regions are on one side of it. -/
theorem Wf.holeOffsets (h : m.Wf) {l r : List SaBo} (hsplit : Splits SaBo.id m.olist m.hole l r) :
    m.holeSoffset ≤ m.holeEoffset ∧ m.holeEoffset ≤ m.size ∧
      (∀ a ∈ l, a.eoffset ≤ m.holeSoffset) ∧ ∀ b ∈ r, m.holeEoffset ≤ b.soffset := by
  have hsorted := h.sorted
  rw [hsplit.eq, List.pairwise_append] at hsorted
  obtain ⟨hl, hr, hlr⟩ := hsorted
  have hbounds : ∀ a, a ∈ l ∨ a ∈ r → a.soffset ≤ a.eoffset ∧ a.eoffset ≤ m.size := by
    intro a ha
    exact h.bounds a (hsplit.eq ▸ List.mem_append.mpr ha)
  have hs : ∀ a ∈ l, a.eoffset ≤ m.holeSoffset := by
    rw [holeSoffset, hsplit.at?_eq h.nodup]
    rcases hsplit.nil_or with ⟨rfl, -⟩ | ⟨l', a, rfl, -⟩
    · exact nofun
    · intro b hb
      rw [List.getLast?_concat]
      rcases List.mem_append.mp hb with hin | hin
      · have := (List.pairwise_append.mp hl).2.2 b hin a (List.mem_singleton_self a)
        exact this.trans (hbounds a (.inl (by simp))).1
      · exact (congrArg SaBo.eoffset (List.mem_singleton.mp hin)).le
  have he : ∀ b ∈ r, m.holeEoffset ≤ b.soffset := by
    rw [holeEoffset, hsplit.after_eq h.nodup]
    cases r with
    | nil => exact nofun
    | cons b r =>
      intro c hc
      rcases List.mem_cons.mp hc with rfl | hin
      · exact le_rfl
      · exact (hbounds b (.inr List.mem_cons_self)).1.trans ((List.pairwise_cons.mp hr).1 c hin)
  have heq : m.holeEoffset = m.size ∧ r = [] ∨ ∃ b ∈ r, m.holeEoffset = b.soffset := by
    rw [holeEoffset, hsplit.after_eq h.nodup]
    cases r with
    | nil => exact .inl ⟨rfl, rfl⟩
    | cons b r => exact .inr ⟨b, List.mem_cons_self, rfl⟩
  have hseq : m.holeSoffset = 0 ∨ ∃ a ∈ l, m.holeSoffset = a.eoffset := by
    rw [holeSoffset, hsplit.at?_eq h.nodup]
    rcases hsplit.nil_or with ⟨rfl, -⟩ | ⟨l', a, rfl, -⟩
    · exact .inl rfl
    · rw [List.getLast?_concat]
      exact .inr ⟨a, by simp, rfl⟩
  have hle : m.holeEoffset ≤ m.size := by
    rcases heq with ⟨heq, -⟩ | ⟨b, hb, heq⟩
    · exact heq.le
    · have := hbounds b (.inr hb)
      omega
  refine ⟨?_, hle, hs, he⟩
  rcases hseq with h0 | ⟨a, ha, hsa⟩
  · omega
  · rcases heq with ⟨heq, -⟩ | ⟨b, hb, heb⟩
    · have := hbounds a (.inl ha)
      omega
    · have := hlr a ha b hb
      omega

/-- What is wasted before an offset to align it. -/
theorem dvd_add_wasted (soffset : ℕ) {align : ℕ} (hpos : 0 < align) :
    align ∣ soffset + (align - soffset % align) % align := by
  have hdiv := Nat.div_add_mod soffset align
  have hlt := Nat.mod_lt soffset hpos
  rcases Nat.eq_zero_or_pos (soffset % align) with h0 | hmod
  · rw [h0, Nat.sub_zero, Nat.mod_self]
    exact Nat.dvd_of_mod_eq_zero h0
  · rw [Nat.mod_eq_of_lt (show align - soffset % align < align by omega)]
    refine ⟨soffset / align + 1, ?_⟩
    rw [Nat.mul_add, Nat.mul_one]
    omega

/-- A region that passes the test of `gsgpu_sa_bo_try_alloc` fits, without wrapping. -/
theorem fits_hole {size align soffset eoffset wasted total most : ℕ} (hle : soffset ≤ eoffset)
    (hend : eoffset ≤ total) (hsize : size ≤ total) (hwasted : wasted < align)
    (halign : align ≤ most) (hfits : total + most ≤ 2 ^ 32)
    (h : u32 (size + wasted) ≤ u32Sub eoffset soffset) :
    u32 (soffset + wasted) = soffset + wasted ∧
      u32 (soffset + wasted + size) = soffset + wasted + size ∧
      soffset + wasted + size ≤ eoffset := by
  have hsub : u32Sub eoffset soffset = eoffset - soffset := by
    rw [u32Sub, u32, Nat.add_comm, Nat.add_sub_assoc hle, Nat.add_mod_left, Nat.mod_eq_of_lt]
    omega
  have hadd : u32 (size + wasted) = size + wasted := Nat.mod_eq_of_lt (by omega)
  rw [hsub, hadd] at h
  exact ⟨Nat.mod_eq_of_lt (by omega), Nat.mod_eq_of_lt (by omega), by omega⟩

/-- The region that is allocated from the hole. -/
theorem Wf.tryAlloc (h : m.Wf) (hfits : m.size + m.align ≤ 2 ^ 32) {id size align : ℕ}
    (hid : id ∉ m.olist.map SaBo.id) (hsize : size ≤ m.size) (halign : align ≤ m.align)
    (hpos : 0 < align) (halloc : m.tryAlloc id size align = some m') :
    m'.Wf ∧ m'.size = m.size ∧ m'.align = m.align ∧ ∃ bo, bo.id = id ∧ bo.fence = none ∧
      bo.align = align ∧ bo.eoffset = bo.soffset + size ∧
      ∀ a, a ∈ m'.olist ↔ a = bo ∨ a ∈ m.olist := by
  obtain ⟨l, r, hsplit⟩ := exists_splits h.hole
  obtain ⟨hhole, hend, hl, hr⟩ := h.holeOffsets hsplit
  simp only [Manager.tryAlloc] at halloc
  split at halloc
  · next hle =>
    obtain rfl := Option.some.inj halloc
    obtain ⟨hs, he, hroom⟩ := fits_hole hhole hend hsize (Nat.mod_lt _ hpos) halign hfits hle
    have hdvd := dvd_add_wasted m.holeSoffset hpos
    rw [hs, he, hsplit.insertAfter_eq h.nodup]
    have hge : m.holeSoffset ≤ m.holeSoffset + (align - m.holeSoffset % align) % align :=
      Nat.le_add_right _ _
    generalize m.holeSoffset + (align - m.holeSoffset % align) % align = soffset at *
    have hsorted := h.sorted
    rw [hsplit.eq, List.pairwise_append] at hsorted
    have hmem : ∀ a bo, a ∈ l ++ bo :: r ↔ a = bo ∨ a ∈ m.olist := by
      intro a bo
      rw [hsplit.eq, List.mem_append, List.mem_append, List.mem_cons]
      tauto
    refine ⟨⟨?_, ?_, ?_, ?_, ?_, ?_⟩, rfl, rfl, _, rfl, rfl, rfl, rfl, fun a => hmem a _⟩
    · refine List.pairwise_append.mpr ⟨hsorted.1, List.pairwise_cons.mpr ⟨?_, hsorted.2.1⟩, ?_⟩
      · intro b hb
        exact hroom.trans (hr b hb)
      · intro a ha b hb
        rcases List.mem_cons.mp hb with rfl | hin
        · exact (hl a ha).trans hge
        · exact hsorted.2.2 a ha b hin
    · intro a ha
      rcases (hmem a _).mp ha with rfl | hin
      · exact ⟨Nat.le_add_right _ _, hroom.trans hend⟩
      · exact h.bounds a hin
    · intro a ha
      rcases (hmem a _).mp ha with rfl | hin
      · exact hdvd
      · exact h.aligned a hin
    · have hnodup := h.nodup
      rw [hsplit.eq] at hid hnodup
      rw [List.map_append, List.map_cons, List.nodup_middle, List.nodup_cons, ← List.map_append]
      exact ⟨hid, hnodup⟩
    · intro k hk
      obtain rfl := Option.some.inj hk
      exact List.mem_map.mpr ⟨_, (hmem _ _).mpr (.inl rfl), rfl⟩
    · intro i k hk
      obtain ⟨a, ha, rfl⟩ := List.mem_map.mp (h.flist i k hk)
      exact List.mem_map.mpr ⟨a, (hmem a _).mpr (.inr ha), rfl⟩
  · cases halloc

/-- A region that is freed with a fence is queued. -/
theorem Wf.queue (h : m.Wf) {id : ℕ} (hid : id ∈ m.olist.map SaBo.id) (f : Fence) :
    (m.free id (some f) false).Wf := by
  have hmap : ∀ bos : List SaBo, (bos.map fun bo =>
      if bo.id = id then { bo with fence := some f } else bo).map SaBo.id = bos.map SaBo.id := by
    intro bos
    rw [List.map_map]
    refine List.map_congr_left fun bo _ => ?_
    simp only [Function.comp]
    split <;> rfl
  have hold : ∀ a ∈ (m.free id (some f) false).olist, ∃ b ∈ m.olist, a.soffset = b.soffset ∧
      a.eoffset = b.eoffset ∧ a.align = b.align := by
    intro a ha
    obtain ⟨b, hb, rfl⟩ := List.mem_map.mp ha
    refine ⟨b, hb, ?_⟩
    split <;> exact ⟨rfl, rfl, rfl⟩
  refine ⟨?_, ?_, ?_, ?_, ?_, ?_⟩
  · refine List.pairwise_map.mpr (h.sorted.imp ?_)
    intro a b hab
    split <;> split <;> exact hab
  · intro a ha
    obtain ⟨b, hb, hs, he, -⟩ := hold a ha
    rw [hs, he]
    exact h.bounds b hb
  · intro a ha
    obtain ⟨b, hb, hs, -, hal⟩ := hold a ha
    rw [hs, hal]
    exact h.aligned b hb
  · exact (hmap _).symm ▸ h.nodup
  · intro k hk
    exact (hmap _).symm ▸ h.hole k hk
  · intro i k hk
    refine (hmap _).symm ▸ ?_
    simp only [free] at hk
    by_cases hi : i = f.context % numFenceLists
    · subst hi
      rw [Function.update_self, List.mem_append, List.mem_singleton] at hk
      rcases hk with hin | rfl
      · exact h.flist _ k hin
      · exact hid
    · rw [Function.update_of_ne hi] at hk
      exact h.flist i k hk

end Manager

/-- A region that may still be used: it is not freed, or its fence has not signaled. -/
def State.Busy (s : State) (r : Region) : Prop :=
  r.freed = none ∨ ∃ f, r.freed = some (some f) ∧ s.signaled f = false

/-- The list knows a region as it was returned and freed. -/
structure Tracks (r : Region) (a : SaBo) : Prop where
  soffset : a.soffset = r.soffset
  eoffset : a.eoffset = r.eoffset
  align : a.align = r.align
  freed : r.freed = a.fence.map some

/-- What holds in every state of a suballocator. -/
structure State.Inv (size align : ℕ) (s : State) : Prop where
  size_eq : s.manager.size = size
  align_eq : s.manager.align = align
  wf : s.manager.Wf
  call : ∀ c, s.call = some c → c.size ≤ size ∧ c.align ≤ align ∧ 0 < c.align
  fresh : ∀ id, s.nextId ≤ id → s.regions id = none
  known : ∀ a ∈ s.manager.olist, ∃ r, s.regions a.id = some r ∧ Tracks r a
  busy : ∀ id r, s.regions id = some r → s.Busy r → id ∈ s.manager.olist.map SaBo.id

namespace State

open Manager

variable {size align : ℕ} {s s' : State}

theorem Init.inv (h : s.Init size align) : s.Inv size align := by
  obtain ⟨hm, hcall, hregions⟩ := h
  refine ⟨hm ▸ rfl, hm ▸ rfl, hm ▸ init_wf size align, ?_, fun id _ => hregions id, ?_, ?_⟩
  · rw [hcall]
    exact nofun
  · rw [hm]
    exact nofun
  · intro id r hr
    rw [hregions] at hr
    cases hr

/-- Steps of the manager that drop only regions whose fences have signaled. -/
theorem Inv.drops (h : s.Inv size align) {isSignaled : Fence → Bool}
    (hsound : ∀ f, isSignaled f = true → s.signaled f = true) {m : Manager}
    (hdrops : Drops isSignaled s.manager m) {call : Option Call}
    (hcall : ∀ c, call = some c → c.size ≤ size ∧ c.align ≤ align ∧ 0 < c.align) :
    Inv size align { s with manager := m, call := call } := by
  refine ⟨hdrops.size.trans h.size_eq, hdrops.align.trans h.align_eq, hdrops.wf, hcall, h.fresh, ?_, ?_⟩
  · intro a ha
    exact h.known a (hdrops.sub a ha)
  · intro id r hr hbusy
    obtain ⟨a, ha, rfl⟩ := List.mem_map.mp (h.busy id r hr hbusy)
    rcases hdrops.kept a ha with hin | ⟨f, hf, hsig⟩
    · exact List.mem_map_of_mem hin
    · -- a region whose fence has signaled is not busy
      obtain ⟨r', hr', htracks⟩ := h.known a ha
      obtain rfl : r' = r := Option.some.inj (hr'.symm.trans hr)
      have hfreed : r'.freed = some (some f) := by rw [htracks.freed, hf, Option.map_some]
      rcases hbusy with hnone | ⟨f', hf', hunsig⟩
      · rw [hfreed] at hnone
        cases hnone
      · rw [hfreed, Option.some.injEq, Option.some.injEq] at hf'
        subst hf'
        have hunsig : s.signaled f = false := hunsig
        rw [hsound f hsig] at hunsig
        cases hunsig

theorem Inv.new (h : s.Inv size align) {sz al : ℕ} {allocOk : Bool}
    (hstep : s.new sz al allocOk = some s') : s'.Inv size align := by
  simp only [State.new] at hstep
  split at hstep
  · exact Option.some.inj hstep ▸ h
  · next hal =>
    split at hstep
    · exact Option.some.inj hstep ▸ h
    · next hsz =>
      split at hstep
      · exact Option.some.inj hstep ▸ h
      · split at hstep
        · cases hstep
        · next hfree =>
          obtain rfl := Option.some.inj hstep
          refine { h with call := ?_ }
          intro c hc
          obtain rfl := Option.some.inj hc
          rw [h.align_eq] at hal
          rw [h.size_eq] at hsz
          exact ⟨not_lt.mp hsz, not_lt.mp hal, Nat.pos_of_ne_zero fun h0 => hfree (.inr h0)⟩

theorem Inv.tryAlloc (h : s.Inv size align) (hfits : size + align ≤ 2 ^ 32) {c : Call}
    (hc : s.call = some c) {m : Manager}
    (halloc : s.manager.tryAlloc s.nextId c.size c.align = some m) :
    Inv size align { s with
      manager := m
      call := none
      nextId := s.nextId + 1
      regions := Function.update s.regions s.nextId
        ((m.olist.find? fun bo => bo.id = s.nextId).map fun bo =>
          ⟨bo.soffset, bo.eoffset, bo.align, none⟩) } := by
  have hnew : s.nextId ∉ s.manager.olist.map SaBo.id := by
    intro hmem
    obtain ⟨a, ha, hid⟩ := List.mem_map.mp hmem
    obtain ⟨r, hr, -⟩ := h.known a ha
    rw [hid, h.fresh _ le_rfl] at hr
    cases hr
  obtain ⟨hsz, hal, hpos⟩ := h.call c hc
  rw [← h.size_eq] at hsz
  rw [← h.align_eq] at hal
  obtain ⟨hwf, hsize, halign, bo, hid, hfence, halignbo, -, hmem⟩ :=
    h.wf.tryAlloc (by rw [h.size_eq, h.align_eq]; exact hfits) hnew hsz hal hpos halloc
  have hbo : bo ∈ m.olist := (hmem bo).mpr (.inl rfl)
  have hfind : (m.olist.find? fun b => b.id = s.nextId) = some bo := by
    obtain ⟨b, hb⟩ := Option.isSome_iff_exists.mp
      (List.find?_isSome.mpr ⟨bo, hbo, by simpa using hid⟩ :
        (m.olist.find? fun b => b.id = s.nextId).isSome)
    have hbid : b.id = s.nextId := by simpa using List.find?_some hb
    rw [hb, hwf.eq_of_id (List.mem_of_find?_eq_some hb) hbo (hbid.trans hid.symm)]
  rw [hfind]
  have hother : ∀ id, id ≠ s.nextId → Function.update s.regions s.nextId
      (some ⟨bo.soffset, bo.eoffset, bo.align, none⟩) id = s.regions id :=
    fun id hne => Function.update_of_ne hne _ _
  refine ⟨hsize.trans h.size_eq, halign.trans h.align_eq, hwf, nofun, ?_, ?_, ?_⟩
  · intro id hle
    have hle : s.nextId + 1 ≤ id := hle
    exact (hother id (by omega)).trans (h.fresh id (by omega))
  · intro a ha
    rcases (hmem a).mp ha with rfl | hin
    · refine ⟨⟨a.soffset, a.eoffset, a.align, none⟩, ?_, rfl, rfl, rfl, ?_⟩
      · rw [hid]
        exact Function.update_self _ _ _
      · rw [hfence]
        rfl
    · obtain ⟨r, hr, htracks⟩ := h.known a hin
      refine ⟨r, (hother a.id ?_).trans hr, htracks⟩
      intro heq
      exact hnew (heq ▸ List.mem_map_of_mem hin)
  · intro id r hr hbusy
    by_cases hne : id = s.nextId
    · rw [hne, ← hid]
      exact List.mem_map_of_mem hbo
    · obtain ⟨a, ha, rfl⟩ := List.mem_map.mp (h.busy id r ((hother id hne).symm.trans hr) hbusy)
      exact List.mem_map_of_mem ((hmem a).mpr (.inr ha))

/-- A region that is freed at once leaves the list, or is queued with its fence. -/
theorem Inv.free (h : s.Inv size align) {id : ℕ} {fence : Option Fence} {signaled : Bool}
    (hsound : Event.Sound s (.free id fence signaled)) {r : Region} (hr : s.regions id = some r)
    (hlive : r.freed = none) :
    Inv size align { s with
      manager := s.manager.free id fence signaled
      regions := Function.update s.regions id (some { r with freed := some fence }) } := by
  have hother : ∀ k, k ≠ id →
      Function.update s.regions id (some { r with freed := some fence }) k = s.regions k :=
    fun k hne => Function.update_of_ne hne _ _
  have hself : Function.update s.regions id (some { r with freed := some fence }) id =
      some { r with freed := some fence } := Function.update_self _ _ _
  have hfresh : ∀ k, s.nextId ≤ k →
      Function.update s.regions id (some { r with freed := some fence }) k = none := by
    intro k hk
    refine (hother k ?_).trans (h.fresh k hk)
    rintro rfl
    rw [h.fresh k hk] at hr
    cases hr
  have hmem := h.busy id r hr (.inl hlive)
  have hgone : (∀ f, fence = some f → s.signaled f = true) → Inv size align { s with
      manager := s.manager.removeLocked id
      regions := Function.update s.regions id (some { r with freed := some fence }) } := by
    intro hsig
    refine ⟨h.size_eq, h.align_eq, h.wf.removeLocked id, h.call, hfresh, ?_, ?_⟩
    · intro a ha
      obtain ⟨hin, hne⟩ := mem_removeLocked.mp ha
      obtain ⟨r', hr', htracks⟩ := h.known a hin
      exact ⟨r', (hother _ hne).trans hr', htracks⟩
    · intro k r' hr' hbusy
      by_cases hk : k = id
      · subst hk
        obtain rfl := Option.some.inj (hself.symm.trans hr')
        rcases hbusy with hnone | ⟨f, hf, hunsig⟩
        · cases hnone
        · have hunsig : s.signaled f = false := hunsig
          rw [hsig f (Option.some.inj hf)] at hunsig
          cases hunsig
      · exact mem_map_remove.mpr ⟨hk, h.busy k r' ((hother k hk).symm.trans hr') hbusy⟩
  cases fence with
  | none => exact hgone nofun
  | some f =>
    cases signaled with
    | true =>
      refine hgone fun g hg => ?_
      obtain rfl := Option.some.inj hg
      exact hsound rfl
    | false =>
      refine ⟨h.size_eq, h.align_eq, h.wf.queue hmem f, h.call, hfresh, ?_, ?_⟩
      · intro a ha
        obtain ⟨b, hb, rfl⟩ := List.mem_map.mp ha
        obtain ⟨r', hr', htracks⟩ := h.known b hb
        by_cases hbid : b.id = id
        · obtain rfl : r' = r := Option.some.inj (hr'.symm.trans (hbid ▸ hr))
          rw [if_pos hbid]
          refine ⟨{ r' with freed := some (some f) }, ?_, htracks.soffset, htracks.eoffset,
            htracks.align, rfl⟩
          rw [show SaBo.id { b with fence := some f } = id from hbid]
          exact hself
        · rw [if_neg hbid]
          exact ⟨r', (hother _ hbid).trans hr', htracks⟩
      · intro k r' hr' hbusy
        have hk : k ∈ s.manager.olist.map SaBo.id := by
          by_cases hk : k = id
          · exact hk ▸ hmem
          · exact h.busy k r' ((hother k hk).symm.trans hr') hbusy
        obtain ⟨b, hb, rfl⟩ := List.mem_map.mp hk
        refine List.mem_map.mpr ⟨_, List.mem_map_of_mem hb, ?_⟩
        split <;> rfl

theorem Inv.signal (h : s.Inv size align) (f : Fence) :
    Inv size align { s with signaled := Function.update s.signaled f true } := by
  refine { h with busy := ?_ }
  intro id r hr hbusy
  refine h.busy id r hr (hbusy.imp_right ?_)
  rintro ⟨g, hg, hunsig⟩
  refine ⟨g, hg, ?_⟩
  by_cases hgf : g = f
  · subst hgf
    simp at hunsig
  · simpa [Function.update_of_ne hgf] using hunsig

theorem Inv.step (h : s.Inv size align) (hfits : size + align ≤ 2 ^ 32) {e : Event}
    (hsound : e.Sound s) (hstep : s.step e = some s') : s'.Inv size align := by
  cases e with
  | new sz al allocOk => exact h.new hstep
  | tryFree isSignaled =>
    simp only [State.step] at hstep
    split at hstep
    · next c hc =>
      split at hstep
      · obtain rfl := Option.some.inj hstep
        refine h.drops hsound (h.wf.tryFree isSignaled) ?_
        intro c' hc'
        obtain rfl := Option.some.inj hc'
        exact h.call c hc
      · cases hstep
    · cases hstep
  | tryAlloc =>
    simp only [State.step] at hstep
    split at hstep
    · next c hc =>
      split at hstep
      · split at hstep
        · next m halloc =>
          obtain rfl := Option.some.inj hstep
          exact h.tryAlloc hfits hc halloc
        · obtain rfl := Option.some.inj hstep
          refine { h with call := ?_ }
          intro c' hc'
          obtain rfl := Option.some.inj hc'
          exact h.call c hc
      · cases hstep
    · cases hstep
  | nextHole isSignaled =>
    simp only [State.step] at hstep
    split at hstep
    · next c hc =>
      have hdrops := h.wf.nextHole isSignaled c.fences c.tries
      split at hstep
      · split at hstep
        · next m fences tries hnext =>
          obtain rfl := Option.some.inj hstep
          rw [hnext] at hdrops
          refine h.drops hsound hdrops ?_
          intro c' hc'
          obtain rfl := Option.some.inj hc'
          exact h.call c hc
        · next m fences tries hnext =>
          obtain rfl := Option.some.inj hstep
          rw [hnext] at hdrops
          exact h.drops hsound hdrops nofun
      · cases hstep
    · cases hstep
  | free id fence signaled =>
    simp only [State.step] at hstep
    split at hstep
    · next r hcall hr =>
      split at hstep
      · next hlive =>
        obtain rfl := Option.some.inj hstep
        exact h.free hsound hr hlive
      · cases hstep
    · cases hstep
  | signal f => exact Option.some.inj hstep ▸ h.signal f

theorem Reachable.inv (hfits : size + align ≤ 2 ^ 32) (h : s.Reachable size align) :
    s.Inv size align :=
  Transition.Reach.invariant (I := State.Inv size align) (fun _ hi => Init.inv hi)
    (fun _ _ _ hs hsound hstep => hs.step hfits hsound hstep) h

/-- Two regions that may still be used do not overlap. -/
theorem Inv.disjoint (h : s.Inv size align) {id id' : ℕ} {r r' : Region}
    (hr : s.regions id = some r) (hr' : s.regions id' = some r') (hne : id ≠ id')
    (hbusy : s.Busy r) (hbusy' : s.Busy r') : r.eoffset ≤ r'.soffset ∨ r'.eoffset ≤ r.soffset := by
  obtain ⟨a, ha, rfl⟩ := List.mem_map.mp (h.busy id r hr hbusy)
  obtain ⟨b, hb, rfl⟩ := List.mem_map.mp (h.busy id' r' hr' hbusy')
  obtain ⟨q, hq, ht⟩ := h.known a ha
  obtain ⟨q', hq', ht'⟩ := h.known b hb
  obtain rfl : q = r := Option.some.inj (hq.symm.trans hr)
  obtain rfl : q' = r' := Option.some.inj (hq'.symm.trans hr')
  rw [← ht.soffset, ← ht.eoffset, ← ht'.soffset, ← ht'.eoffset]
  have hab : a ≠ b := fun heq => hne (congrArg SaBo.id heq)
  have hpair : s.manager.olist.Pairwise fun a b =>
      a.eoffset ≤ b.soffset ∨ b.eoffset ≤ a.soffset := h.wf.sorted.imp .inl
  have : Std.Symm fun a b : SaBo => a.eoffset ≤ b.soffset ∨ b.eoffset ≤ a.soffset :=
    ⟨fun _ _ => Or.symm⟩
  exact hpair.forall ha hb hab

/-- The region that a call returns. -/
theorem Inv.returned (h : s.Inv size align) (h' : s'.Inv size align)
    (hstep : s.step .tryAlloc = some s') {r : Region} (hr : s'.regions s.nextId = some r) {id : ℕ}
    {r' : Region} (hr' : s.regions id = some r') (hbusy : s.Busy r') :
    r.eoffset ≤ r'.soffset ∨ r'.eoffset ≤ r.soffset := by
  have hne : s.nextId ≠ id := by
    rintro rfl
    rw [h.fresh _ le_rfl] at hr'
    cases hr'
  simp only [State.step] at hstep
  split at hstep
  · split at hstep
    · split at hstep
      · obtain rfl := Option.some.inj hstep
        have hlive : r.freed = none := by
          dsimp only at hr
          rw [Function.update_self, Option.map_eq_some_iff] at hr
          obtain ⟨bo, -, rfl⟩ := hr
          rfl
        exact h'.disjoint hr ((Function.update_of_ne hne.symm _ _).trans hr') hne (.inl hlive) hbusy
      · obtain rfl := Option.some.inj hstep
        rw [h.fresh _ le_rfl] at hr
        cases hr
    · cases hstep
  · cases hstep

end State

/-- In every state of a suballocator whose size and alignment fit together into an `unsigned`, the
regions are sorted, apart, within the buffer and aligned, the hole is at the head of the list or at
a region of it, and a region that is returned overlaps none that may still be used. -/
theorem regions_apart (size align : ℕ) (hfits : size + align ≤ 2 ^ 32) {s : State}
    (h : s.Reachable size align) :
    (s.manager.olist.Pairwise fun a b => a.eoffset ≤ b.soffset) ∧
    (∀ a ∈ s.manager.olist, a.soffset ≤ a.eoffset ∧ a.eoffset ≤ size ∧ a.align ∣ a.soffset) ∧
    (s.manager.hole = none ∨ ∃ a ∈ s.manager.olist, s.manager.hole = some a.id) ∧
    (∀ id id' r r', s.regions id = some r → s.regions id' = some r' → id ≠ id' → s.Busy r →
      s.Busy r' → r.eoffset ≤ r'.soffset ∨ r'.eoffset ≤ r.soffset) ∧
    ∀ s', s.step .tryAlloc = some s' → ∀ r, s'.regions s.nextId = some r →
      ∀ id r', s.regions id = some r' → s.Busy r' →
        r.eoffset ≤ r'.soffset ∨ r'.eoffset ≤ r.soffset := by
  have hinv := h.inv hfits
  refine ⟨hinv.wf.sorted, ?_, ?_, ?_, ?_⟩
  · intro a ha
    obtain ⟨hle, hend⟩ := hinv.wf.bounds a ha
    exact ⟨hle, hend.trans_eq hinv.size_eq, hinv.wf.aligned a ha⟩
  · cases hhole : s.manager.hole with
    | none => exact .inl rfl
    | some id =>
      obtain ⟨a, ha, rfl⟩ := List.mem_map.mp (hinv.wf.hole id hhole)
      exact .inr ⟨a, ha, rfl⟩
  · intro id id' r r' hr hr' hne hbusy hbusy'
    exact hinv.disjoint hr hr' hne hbusy hbusy'
  · intro s' hstep r hr id r' hr' hbusy
    exact hinv.returned (hinv.step (e := .tryAlloc) hfits trivial hstep) hstep hr hr' hbusy

/-- The suballocator of `gsgpu_ib_pool_init`. -/
def ibPool : State :=
  ⟨.init (16 * 64 * 1024) gpuPageSize, none, fun _ => false, 0, fun _ => none⟩

/-- The steps of an allocation that finds room at once. -/
def allocate (size align : ℕ) (s : State) : Option State := do
  let s ← s.step (.new size align true)
  let s ← s.step (.tryFree fun _ => false)
  s.step .tryAlloc

theorem State.Reachable.allocate {size align sz al : ℕ} {s s' : State}
    (h : s.Reachable size align) (hs : allocate sz al s = some s') : s'.Reachable size align := by
  obtain ⟨s₁, h₁, hs⟩ := Option.bind_eq_some_iff.mp hs
  obtain ⟨s₂, h₂, h₃⟩ := Option.bind_eq_some_iff.mp hs
  have hr₁ : s₁.Reachable size align := .next h (e := .new sz al true) trivial h₁
  have hr₂ : s₂.Reachable size align := .next hr₁ (e := .tryFree fun _ => false) nofun h₂
  exact .next hr₂ (e := .tryAlloc) trivial h₃

theorem regions_apart_ibPool : ∃ s : State, s.Reachable (16 * 64 * 1024) gpuPageSize ∧
    ∃ r r', s.regions 0 = some r ∧ s.regions 1 = some r' ∧
      (r.eoffset ≤ r'.soffset ∨ r'.eoffset ≤ r.soffset) := by
  have h₀ : ibPool.Reachable (16 * 64 * 1024) gpuPageSize := .start ⟨rfl, rfl, fun _ => rfl⟩
  obtain ⟨s₁, hs₁, s, hs, hr, hr'⟩ : ∃ s₁, allocate 1000 256 ibPool = some s₁ ∧
      ∃ s, allocate 1000 256 s₁ = some s ∧ s.regions 0 = some ⟨0, 1000, 256, none⟩ ∧
        s.regions 1 = some ⟨1024, 2024, 256, none⟩ := ⟨_, rfl, _, rfl, rfl, rfl⟩
  have h := (h₀.allocate hs₁).allocate hs
  exact ⟨s, h, _, _, hr, hr', (regions_apart _ _ (by decide) h).2.2.2.1 0 1 _ _ hr hr' (by decide)
    (.inl rfl) (.inl rfl)⟩

end Gsgpu.Suballoc
