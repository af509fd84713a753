import Gsgpu.Vram.Pin
import Mathlib.Order.Interval.Finset.Nat

/-! Suspend and resume. A compressed BO is let go at suspend, with the start of its first node
saved, and asked back to the pages from there on at resume. -/
namespace Gsgpu.Vram.Resume

variable (d : Device)

/-- The VRAM pages that a BO has. -/
def occupied (b : Bo) : Finset ℕ :=
  if b.mem.memType = .vram then (b.mem.mmNode.getD []).toFinset.biUnion Node.pages else ∅

/-- The start of the first node. -/
def firstStart (b : Bo) : ℕ := ((b.mem.mmNode.getD []).head?.map Node.start).getD 0

/-- The VRAM pages that `gsgpu_zip_gem_bo_validate` lets `gsgpu_vram_mgr_new` choose from. -/
def requested (b : Bo) : Finset ℕ :=
  ((b.restrict d b.preferredDomains b.nodeOffset (b.nodeOffset + b.numPages)).placements.filter
    (·.memType = .vram)).toFinset.biUnion fun p =>
      Finset.Ico p.fpfn (if p.lpfn = 0 then d.size else p.lpfn)

/-- The BOs with their handles, one for every file that has the BO. Remembered here only: the BOs
as the last suspend found them, until the device is resumed. -/
structure State extends Pin.State where
  handles : List ℕ
  down : Option (ℕ → Bo)

/-- What `gsgpu_vram_mgr_new` gives the BOs: nodes that do not overlap. A compressed BO has a page,
and passed `gsgpu_bo_validate_size`. -/
structure Sound (s : Pin.State) : Prop where
  nodes : ∀ i ∈ s.live, (s.bo i).mem.memType = .vram →
    NodesFor d (s.bo i).numPages false ((s.bo i).mem.mmNode.getD []) (s.bo i).mem.start
  apart : ∀ i ∈ s.live, (s.bo i).mem.memType = .vram →
    ((s.bo i).mem.mmNode.getD []).Pairwise fun n m => Disjoint n.pages m.pages
  disjoint : ∀ i ∈ s.live, ∀ j ∈ s.live, i ≠ j → Disjoint (occupied (s.bo i)) (occupied (s.bo j))
  size : ∀ i ∈ s.live, (s.bo i).compressed → 0 < (s.bo i).numPages ∧ (s.bo i).numPages < d.size

/-- BOs come and go, move, and change domains; no saved offset changes but at suspend, and a new BO
has none. -/
structure Later (s t : Pin.State) : Prop where
  old : ∀ i ∈ t.live, i ∈ s.live → (t.bo i).nodeOffset = (s.bo i).nodeOffset ∧
    (t.bo i).compressed = (s.bo i).compressed ∧ (t.bo i).numPages = (s.bo i).numPages
  new : ∀ i ∈ t.live, i ∉ s.live → (t.bo i).nodeOffset = 0

/-- A BO that is only moved. -/
def Moved (b b' : Bo) : Prop := b' = { b with mem := b'.mem, placements := b'.placements }

inductive Event
  | up (t : Pin.State) (handles : List ℕ)
  | suspend (outcomes : List Outcome)
  | evictVram (t : Pin.State)
  | zipValidate (i : ℕ) (o : Outcome)
  | resumed

/-- The loop over the files and their handles in `gsgpu_device_suspend`. -/
def zipEvicts (s : Pin.State) (visits : List (ℕ × Outcome)) : Option Pin.State :=
  visits.foldlM (fun t v => t.zipEvict d v.1 v.2) s

/-- While the device is up, anything happens to the BOs. `gsgpu_bo_evict_vram` and the moves of TTM
follow the loop of the suspend, and the handles are visited again at resume, not all if it fails. -/
def State.Step (s : State) : Event → State → Prop
  | .up t handles, s' => s.down = none ∧ Later s.toState t ∧ (∀ i ∈ handles, i ∈ t.live) ∧
      s' = ⟨t, handles, none⟩
  | .suspend outcomes, s' => s.down = none ∧ outcomes.length = s.handles.length ∧
      ∃ t, zipEvicts d s.toState (s.handles.zip outcomes) = some t ∧
        s' = ⟨t, s.handles, some s.bo⟩
  | .evictVram t, s' => s.down.isSome ∧ t.live = s.live ∧ (∀ i, Moved (s.bo i) (t.bo i)) ∧
      s' = ⟨t, s.handles, s.down⟩
  | .zipValidate i o, s' => s.down.isSome ∧ i ∈ s.handles ∧
      ∃ t, s.toState.zipValidate d i o = some t ∧ s' = ⟨t, s.handles, s.down⟩
  | .resumed, s' => s' = { s with down := none }

def State.Reachable (good : State → Event → Prop) (s : State) : Prop :=
  Transition.Reach (fun s => s.live = ∅ ∧ s.handles = [] ∧ s.down = none)
    (fun s e s' => s.Step d e s' ∧ Sound d s'.toState) good s

/-- A page of VRAM where the BO may be, if the CPU is to access it. -/
def Sees (b : Bo) (p : ℕ) : Prop :=
  (!b.noCpuAccess || b.cpuAccessRequired) → d.visibleVramSize / pageSize % 2 ^ 32 ≠ 0 →
    p < d.visibleVramSize / pageSize % 2 ^ 32

instance (b : Bo) (p : ℕ) : Decidable (Sees d b p) := inferInstanceAs (Decidable (_ → _ → _))

/-- The pages from an offset on that a BO may be asked back to. -/
def window (b : Bo) (offset : ℕ) : Finset ℕ :=
  if .vram ∈ b.preferredDomains then
    (Finset.Ico offset (offset + b.numPages)).filter (Sees d b)
  else ∅

/-- `ttm_bo_validate` does not move a BO to other VRAM when it is let go. -/
def Outcome.Leaves : Outcome → Prop
  | .move p _ _ => p.memType ≠ .vram
  | _ => True

/-- At suspend, a BO in VRAM prefers it, is in one piece that begins with its first node and that
the CPU sees if it may access the BO, and the pages from the offset that another BO still has from
an earlier suspend are not those of a third. -/
structure Restorable (s : State) : Prop where
  domain : ∀ i ∈ s.handles, (s.bo i).compressed → (s.bo i).mem.memType = .vram →
    .vram ∈ (s.bo i).preferredDomains
  piece : ∀ i ∈ s.handles, (s.bo i).compressed → (s.bo i).mem.memType = .vram →
    ∀ n ∈ (s.bo i).mem.mmNode.getD [], firstStart (s.bo i) ≤ n.start ∧
      n.start + n.size ≤ firstStart (s.bo i) + (s.bo i).numPages
  sees : ∀ i ∈ s.handles, (s.bo i).compressed → (s.bo i).mem.memType = .vram →
    ∀ p ∈ occupied (s.bo i), Sees d (s.bo i) p
  stale : ∀ i ∈ s.handles, (s.bo i).compressed → (s.bo i).mem.memType ≠ .vram →
    ∀ j ∈ s.live, (s.bo j).compressed → (s.bo j).mem.memType = .vram →
      Disjoint (window d (s.bo i) (s.bo i).nodeOffset) (occupied (s.bo j))
  stales : ∀ i ∈ s.handles, (s.bo i).compressed → (s.bo i).mem.memType ≠ .vram →
    ∀ j ∈ s.handles, (s.bo j).compressed → (s.bo j).mem.memType ≠ .vram → i ≠ j →
      Disjoint (window d (s.bo i) (s.bo i).nodeOffset) (window d (s.bo j) (s.bo j).nodeOffset)

def Event.Kept (s : State) : Event → Prop
  | .suspend outcomes => Restorable d s ∧ ∀ o ∈ outcomes, Outcome.Leaves o
  | _ => True

variable {d} {b b' : Bo} {o : Outcome} {s s' : State} {t t' : Pin.State} {i : ℕ}

/-- The placements in VRAM are the one of the BO's flags. -/
theorem mem_restrict_vram {domain : Domain} {fpfn lpfn : ℕ} {p : BoPlace} :
    p ∈ (b.restrict d domain fpfn lpfn).placements ∧ p.memType = .vram ↔
      .vram ∈ domain ∧ p = BoPlace.restrict (fpfn % 2 ^ 32) (lpfn % 2 ^ 32)
        (Bo.vramPlace d { b with
          contiguous := true
          cpuAccessRequired := !b.noCpuAccess || b.cpuAccessRequired }) := by
  simp only [Bo.restrict, List.mem_map]
  constructor
  · rintro ⟨⟨q, hq, rfl⟩, hv⟩
    rcases mem_placementFromDomain d hq with ⟨hd, rfl⟩ | ⟨-, rfl⟩ | rfl
    · exact ⟨hd, rfl⟩
    · cases hv
    · cases hv
  · rintro ⟨hd, rfl⟩
    exact ⟨⟨_, by simp [Bo.placementFromDomain, hd], rfl⟩, rfl⟩

/-- A placement from page 0 on, cut down to a range. -/
theorem mem_restrict_range {q : BoPlace} {offset pages size p : ℕ} (hq : q.fpfn = 0)
    (hpos : 0 < pages) :
    p ∈ Finset.Ico (q.restrict offset (offset + pages)).fpfn
        (if (q.restrict offset (offset + pages)).lpfn = 0 then size
          else (q.restrict offset (offset + pages)).lpfn) ↔
      p ∈ Finset.Ico offset (offset + pages) ∧ (q.lpfn ≠ 0 → p < q.lpfn) := by
  simp only [BoPlace.restrict, hq, Finset.mem_Ico]
  split_ifs <;> omega

/-- With no wrap of the 32-bit page numbers, a BO asks for its window. -/
theorem requested_eq_window (hpos : 0 < b.numPages) (hlt : b.nodeOffset + b.numPages < 2 ^ 32) :
    requested d b = window d b b.nodeOffset := by
  ext p
  simp only [requested, Finset.mem_biUnion, List.mem_toFinset, List.mem_filter,
    decide_eq_true_eq, mem_restrict_vram, window]
  rw [Nat.mod_eq_of_lt hlt, Nat.mod_eq_of_lt (by omega : b.nodeOffset < 2 ^ 32)]
  by_cases hd : .vram ∈ b.preferredDomains
  case neg => simp [hd]
  case pos =>
    simp only [hd, true_and, exists_eq_left, if_true, Finset.mem_filter]
    rw [mem_restrict_range rfl hpos]
    refine and_congr_right fun _ => ?_
    simp only [Bo.vramPlace, Sees]
    by_cases haccess : (!b.noCpuAccess || b.cpuAccessRequired) = true <;> simp [haccess]

/-- Nodes that do not overlap have as many pages as their sizes say. -/
theorem card_pages {nodes : List Node} (h : nodes.Pairwise fun n m => Disjoint n.pages m.pages) :
    (nodes.toFinset.biUnion Node.pages).card = (nodes.map Node.size).sum := by
  induction nodes with
  | nil => rfl
  | cons n ns ih =>
    obtain ⟨hn, hns⟩ := List.pairwise_cons.mp h
    have hdisj : Disjoint n.pages (ns.toFinset.biUnion Node.pages) :=
      (Finset.disjoint_biUnion_right _ _ _).mpr fun m hm => hn m (List.mem_toFinset.mp hm)
    rw [List.toFinset_cons, Finset.biUnion_insert, Finset.card_union_of_disjoint hdisj, ih hns,
      List.map_cons, List.sum_cons, Node.pages, Nat.card_Ico]
    omega

/-- A BO in one piece has the pages from its first node on. -/
theorem occupied_eq_Ico (hv : b.mem.memType = .vram)
    (hsum : ((b.mem.mmNode.getD []).map Node.size).sum = b.numPages)
    (hapart : (b.mem.mmNode.getD []).Pairwise fun n m => Disjoint n.pages m.pages)
    (hpiece : ∀ n ∈ b.mem.mmNode.getD [], firstStart b ≤ n.start ∧
      n.start + n.size ≤ firstStart b + b.numPages) :
    occupied b = Finset.Ico (firstStart b) (firstStart b + b.numPages) := by
  rw [occupied, if_pos hv]
  refine Finset.eq_of_subset_of_card_le ?_ ?_
  · refine Finset.biUnion_subset.mpr fun n hn => ?_
    obtain ⟨hlo, hhi⟩ := hpiece n (List.mem_toFinset.mp hn)
    exact Finset.Ico_subset_Ico hlo hhi
  · rw [card_pages hapart, hsum, Nat.card_Ico]
    omega

/-- The offset that a suspend leaves a BO with. -/
def savedOffset (b : Bo) : ℕ :=
  if b.compressed ∧ b.mem.memType = .vram then firstStart b else b.nodeOffset

/-- What the loop of the suspend has made of a BO: where it still is in VRAM, it has its nodes, and
it is not let go before its offset is saved. -/
structure Visiting (b₀ b : Bo) : Prop where
  same : b = { b₀ with nodeOffset := b.nodeOffset, mem := b.mem, placements := b.placements }
  nodes : b.mem.memType = .vram → b₀.mem.memType = .vram ∧ b.mem.mmNode = b₀.mem.mmNode
  offset : b.nodeOffset = savedOffset b₀ ∨
    b.nodeOffset = b₀.nodeOffset ∧ b.mem.memType = b₀.mem.memType

theorem Visiting.refl (b : Bo) : Visiting b b := ⟨rfl, fun hv => ⟨hv, rfl⟩, .inr ⟨rfl, rfl⟩⟩

theorem nodes_of_leaves {ok : Bool} (h : b.validate d o = some (b', ok)) (ho : Outcome.Leaves o)
    (hv : b'.mem.memType = .vram) :
    b.mem.memType = .vram ∧ b'.mem.mmNode = b.mem.mmNode := by
  cases o with
  | fail =>
    cases h
    exact ⟨hv, rfl⟩
  | unbound =>
    simp only [Bo.validate] at h
    split at h
    case isFalse => cases h
    case isTrue =>
      cases h
      cases hv
  | stay p =>
    simp only [Bo.validate] at h
    split at h
    case isFalse => cases h
    case isTrue =>
      cases h
      exact ⟨hv, rfl⟩
  | move p nodes start =>
    simp only [Bo.validate] at h
    split at h
    case isFalse => cases h
    case isTrue =>
      split at h
      case isTrue =>
        cases h
        exact ⟨hv, rfl⟩
      case isFalse =>
        cases h
        exact absurd hv ho

/-- After a visit the offset of the BO is saved, also if it was saved before. -/
theorem Visiting.zipEvict {b₀ : Bo} (h : Visiting b₀ (t.bo i)) (ho : Outcome.Leaves o)
    (hs : t.zipEvict d i o = some t') :
    Visiting b₀ (t'.bo i) ∧ (t'.bo i).nodeOffset = savedOffset b₀ ∧
      (∀ j ≠ i, t'.bo j = t.bo j) ∧ t'.live = t.live := by
  have hcomp : (t.bo i).compressed = b₀.compressed := by rw [h.same]
  simp only [Pin.State.zipEvict] at hs
  split at hs
  case isTrue hres =>
    obtain ⟨⟨b', ok⟩, hval, hs⟩ := Option.bind_eq_some_iff.mp hs
    cases hs
    obtain ⟨heq, -⟩ := Pin.validate_spec hval
    obtain ⟨hv₀, hnodes⟩ := h.nodes hres.2
    have hoffset : b'.nodeOffset = savedOffset b₀ := by
      rw [heq, savedOffset, if_pos ⟨hcomp ▸ hres.1, hv₀⟩, firstStart, ← hnodes]
      rfl
    have hsame : b' =
        { b₀ with nodeOffset := b'.nodeOffset, mem := b'.mem, placements := b'.placements } := by
      rw [heq, h.same]
      rfl
    simp only [Pin.State.setBo, Function.update_self]
    refine ⟨⟨hsame, fun hv => ?_, .inl hoffset⟩, hoffset, fun j hj => by simp [hj], trivial⟩
    exact ⟨hv₀, (nodes_of_leaves hval ho hv).2.trans hnodes⟩
  case isFalse hres =>
    cases hs
    refine ⟨h, ?_, fun _ _ => rfl, rfl⟩
    rcases h.offset with hoff | ⟨hoff, htype⟩
    · exact hoff
    · rw [hoff, savedOffset, if_neg]
      rwa [← hcomp, ← htype]

theorem Visiting.zipEvicts {bo₀ : ℕ → Bo} {visits : List (ℕ × Outcome)}
    (h : ∀ i, Visiting (bo₀ i) (t.bo i)) (ho : ∀ v ∈ visits, Outcome.Leaves v.2)
    (hs : zipEvicts d t visits = some t') :
    (∀ i, Visiting (bo₀ i) (t'.bo i)) ∧ t'.live = t.live ∧
      ∀ i, (t.bo i).nodeOffset = savedOffset (bo₀ i) ∨ i ∈ visits.map Prod.fst →
        (t'.bo i).nodeOffset = savedOffset (bo₀ i) := by
  induction visits generalizing t with
  | nil =>
    cases hs
    exact ⟨h, rfl, by simp⟩
  | cons v vs ih =>
    rw [Resume.zipEvicts, List.foldlM_cons] at hs
    obtain ⟨u, hu, hs⟩ := Option.bind_eq_some_iff.mp hs
    obtain ⟨hvis, hoff, hother, hlive⟩ := (h v.1).zipEvict (ho v (by simp)) hu
    have hall : ∀ i, Visiting (bo₀ i) (u.bo i) := by
      intro i
      by_cases hi : i = v.1
      · subst hi
        exact hvis
      · rw [hother i hi]
        exact h i
    obtain ⟨hvis', hlive', hoff'⟩ := ih hall (fun w hw => ho w (by simp [hw])) hs
    refine ⟨hvis', hlive'.trans hlive, fun i hi => hoff' i ?_⟩
    by_cases heq : i = v.1
    · subst heq
      exact .inl hoff
    · rw [hother i heq]
      simpa [heq] using hi

/-- The pages that a BO is asked back to if it is suspended as it is. -/
def target (d : Device) (b : Bo) : Finset ℕ := window d b (savedOffset b)

/-- The property, of the BOs that the suspend finds. -/
structure Planned (d : Device) (bo₀ : ℕ → Bo) (live : Finset ℕ) (handles : List ℕ) : Prop where
  same : ∀ i ∈ handles, (bo₀ i).compressed → (bo₀ i).mem.memType = .vram →
    target d (bo₀ i) = occupied (bo₀ i)
  others : ∀ i ∈ handles, (bo₀ i).compressed → (bo₀ i).mem.memType ≠ .vram → ∀ j ∈ live,
    (bo₀ j).compressed → (bo₀ j).mem.memType = .vram →
      Disjoint (target d (bo₀ i)) (occupied (bo₀ j))
  apart : ∀ i ∈ handles, (bo₀ i).compressed → ∀ j ∈ handles, (bo₀ j).compressed → i ≠ j →
    Disjoint (target d (bo₀ i)) (target d (bo₀ j))

theorem Restorable.planned (h : Restorable d s) (hs : Sound d s.toState)
    (hh : ∀ i ∈ s.handles, i ∈ s.live) : Planned d s.bo s.live s.handles := by
  have hsame : ∀ i ∈ s.handles, (s.bo i).compressed → (s.bo i).mem.memType = .vram →
      target d (s.bo i) = occupied (s.bo i) := by
    intro i hi hc hv
    have hIco := occupied_eq_Ico hv (hs.nodes i (hh i hi) hv).1 (hs.apart i (hh i hi) hv)
      (h.piece i hi hc hv)
    rw [target, window, if_pos (h.domain i hi hc hv), savedOffset, if_pos ⟨hc, hv⟩, ← hIco]
    exact Finset.filter_true_of_mem (h.sees i hi hc hv)
  have hstale : ∀ i, (s.bo i).mem.memType ≠ .vram →
      target d (s.bo i) = window d (s.bo i) (s.bo i).nodeOffset := by
    intro i hv
    rw [target, savedOffset, if_neg (by simp [hv])]
  have hothers : ∀ i ∈ s.handles, (s.bo i).compressed → (s.bo i).mem.memType ≠ .vram →
      ∀ j ∈ s.live, (s.bo j).compressed → (s.bo j).mem.memType = .vram →
        Disjoint (target d (s.bo i)) (occupied (s.bo j)) := by
    intro i hi hc hv j hj hcj hvj
    rw [hstale i hv]
    exact h.stale i hi hc hv j hj hcj hvj
  refine ⟨hsame, hothers, fun i hi hc j hj hcj hij => ?_⟩
  by_cases hv : (s.bo i).mem.memType = .vram <;> by_cases hvj : (s.bo j).mem.memType = .vram
  · rw [hsame i hi hc hv, hsame j hj hcj hvj]
    exact hs.disjoint i (hh i hi) j (hh j hj) hij
  · rw [hsame i hi hc hv]
    exact (hothers j hj hcj hvj i (hh i hi) hc hv).symm
  · rw [hsame j hj hcj hvj]
    exact hothers i hi hc hv j (hh j hj) hcj hvj
  · rw [hstale i hv, hstale j hvj]
    exact h.stales i hi hc hv j hj hcj hvj hij

/-- What the BOs are asked for while the device is down does not change. -/
structure Aimed (d : Device) (bo₀ : ℕ → Bo) (s : State) : Prop where
  compressed : ∀ i, (s.bo i).compressed = (bo₀ i).compressed
  window : ∀ i ∈ s.handles, window d (s.bo i) (s.bo i).nodeOffset = target d (bo₀ i)
  planned : Planned d bo₀ s.live s.handles

structure State.Inv (d : Device) (s : State) : Prop where
  sound : Sound d s.toState
  handles : ∀ i ∈ s.handles, i ∈ s.live
  offset : ∀ i ∈ s.live, (s.bo i).nodeOffset ≤ d.size
  aimed : ∀ bo₀, s.down = some bo₀ → Aimed d bo₀ s

theorem size_lt (d : Device) : d.size + d.size < 2 ^ 32 := by
  have hreal := d.realVramSize_le
  have hps : pageSize = 16384 := rfl
  have hsize := d.size_eq
  rw [hps] at hsize
  omega

/-- While the device is down, a BO asks for what the suspend has planned for it. -/
theorem State.Inv.requested (h : s.Inv d) {bo₀ : ℕ → Bo} (hd : s.down = some bo₀)
    (hi : i ∈ s.handles) (hc : (s.bo i).compressed) : requested d (s.bo i) = target d (bo₀ i) := by
  have hlive := h.handles i hi
  obtain ⟨hpos, hsize⟩ := h.sound.size i hlive hc
  have hoff := h.offset i hlive
  have hlt := size_lt d
  rw [requested_eq_window hpos (by omega)]
  exact (h.aimed bo₀ hd).window i hi

theorem firstStart_le (hv : ∀ n ∈ b.mem.mmNode.getD [], n.start + n.size ≤ d.size) :
    firstStart b ≤ d.size := by
  rw [firstStart]
  cases hn : b.mem.mmNode.getD [] with
  | nil => simp
  | cons n ns =>
    have := hv n (by simp [hn])
    simp only [List.head?_cons, Option.map_some, Option.getD_some]
    omega

theorem State.Inv.suspend (h : s.Inv d) {outcomes : List Outcome} (hr : Restorable d s)
    (ho : ∀ o ∈ outcomes, Outcome.Leaves o) (hlen : outcomes.length = s.handles.length)
    (ht : zipEvicts d s.toState (s.handles.zip outcomes) = some t) (hs : Sound d t) :
    State.Inv d ⟨t, s.handles, some s.bo⟩ := by
  obtain ⟨hvis, hlive, hoff⟩ := Visiting.zipEvicts (fun i => Visiting.refl (s.bo i))
    (fun v hv => ho v.2 (List.of_mem_zip hv).2) ht
  rw [List.map_fst_zip hlen.ge] at hoff
  refine ⟨hs, fun i hi => ?_, fun i hi => ?_, ?_⟩
  · rw [hlive]
    exact h.handles i hi
  · have hlive' : i ∈ s.live := hlive ▸ hi
    rcases (hvis i).offset with heq | ⟨heq, -⟩
    · simp only [heq, savedOffset]
      split_ifs with hres
      · exact firstStart_le (h.sound.nodes i hlive' hres.2).2.1
      · exact h.offset i hlive'
    · simp only [heq]
      exact h.offset i hlive'
  · rintro bo₀ hd
    cases hd
    refine ⟨fun i => ?_, fun i hi => ?_, ?_⟩
    · simp only
      rw [(hvis i).same]
    · simp only
      rw [hoff i (.inr hi), (hvis i).same]
      rfl
    · simp only
      rw [hlive]
      exact hr.planned h.sound h.handles

/-- The BOs change, and not what they are asked for. -/
theorem State.Inv.kept (h : s.Inv d) (hlive : t.live = s.live)
    (ht : ∀ i, (t.bo i).compressed = (s.bo i).compressed ∧
      (t.bo i).nodeOffset = (s.bo i).nodeOffset ∧
      window d (t.bo i) (s.bo i).nodeOffset = window d (s.bo i) (s.bo i).nodeOffset)
    (hs : Sound d t) : State.Inv d ⟨t, s.handles, s.down⟩ := by
  refine ⟨hs, fun i hi => ?_, fun i hi => ?_, fun bo₀ hd => ?_⟩
  · rw [hlive]
    exact h.handles i hi
  · simp only [(ht i).2.1]
    exact h.offset i (hlive ▸ hi)
  · obtain ⟨hcomp, hwin, hplan⟩ := h.aimed bo₀ hd
    refine ⟨fun i => (ht i).1.trans (hcomp i), fun i hi => ?_, by simpa only [hlive] using hplan⟩
    simp only [(ht i).2.1, (ht i).2.2]
    exact hwin i hi

theorem zipValidate_window (ht : t.zipValidate d i o = some t') :
    t'.live = t.live ∧ ∀ j, (t'.bo j).compressed = (t.bo j).compressed ∧
      (t'.bo j).nodeOffset = (t.bo j).nodeOffset ∧
      window d (t'.bo j) (t.bo j).nodeOffset = window d (t.bo j) (t.bo j).nodeOffset := by
  simp only [Pin.State.zipValidate] at ht
  split at ht
  case isFalse =>
    cases ht
    exact ⟨rfl, fun _ => ⟨rfl, rfl, rfl⟩⟩
  case isTrue =>
    obtain ⟨⟨b', ok⟩, hval, ht⟩ := Option.bind_eq_some_iff.mp ht
    cases ht
    obtain ⟨heq, -⟩ := Pin.validate_spec hval
    refine ⟨rfl, fun j => ?_⟩
    by_cases hj : j = i
    · subst hj
      -- the flag of the CPU's access is set already
      have hsees : ∀ p, Sees d b' p ↔ Sees d (t.bo j) p := by
        intro p
        rw [heq]
        simp [Sees, Bo.restrict]
      simp only [Pin.State.setBo, Function.update_self, window, hsees]
      rw [heq]
      exact ⟨rfl, rfl, rfl⟩
    · simp [Pin.State.setBo, hj]

theorem State.Inv.step {e : Event} (h : s.Inv d) (hg : e.Kept d s) (hs : s.Step d e s')
    (hsound : Sound d s'.toState) : s'.Inv d := by
  cases e with
  | up t handles =>
    obtain ⟨-, hlater, hhandles, rfl⟩ := hs
    refine ⟨hsound, hhandles, fun i hi => ?_, nofun⟩
    by_cases hold : i ∈ s.live
    · simp only [(hlater.old i hi hold).1]
      exact h.offset i hold
    · simp [hlater.new i hi hold]
  | suspend outcomes =>
    obtain ⟨-, hlen, t, ht, rfl⟩ := hs
    exact h.suspend hg.1 hg.2 hlen ht hsound
  | evictVram t =>
    obtain ⟨-, hlive, hmoved, rfl⟩ := hs
    refine h.kept hlive (fun i => ?_) hsound
    rw [hmoved i]
    exact ⟨rfl, rfl, rfl⟩
  | zipValidate i o =>
    obtain ⟨-, -, t, ht, rfl⟩ := hs
    obtain ⟨hlive, hwin⟩ := zipValidate_window ht
    exact h.kept hlive hwin hsound
  | resumed =>
    cases hs
    exact ⟨hsound, h.handles, h.offset, nofun⟩

/-- One BO alone. -/
theorem Sound.single (hlive : t.live = {i})
    (hsize : 0 < (t.bo i).numPages ∧ (t.bo i).numPages < d.size)
    (hnodes : (t.bo i).mem.memType = .vram →
      NodesFor d (t.bo i).numPages false ((t.bo i).mem.mmNode.getD []) (t.bo i).mem.start)
    (hapart : ((t.bo i).mem.mmNode.getD []).Pairwise fun n m => Disjoint n.pages m.pages) :
    Sound d t := by
  refine ⟨?_, ?_, ?_, ?_⟩ <;> simp only [hlive, Finset.mem_singleton, forall_eq]
  · exact hnodes
  · exact fun _ => hapart
  · exact fun h => absurd rfl h
  · exact fun _ => hsize

/-- The BO alone, and in the hands of two files. -/
def alone (b : Bo) : Pin.State := ⟨fun _ => b, {0}, 0⟩

def nothing : State := ⟨Pin.noBos, [], none⟩

end Gsgpu.Vram.Resume
