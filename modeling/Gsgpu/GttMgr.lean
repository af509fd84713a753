import Gsgpu.Basic
import Gsgpu.Lib.Run
import Mathlib.Algebra.BigOperators.Group.Finset.Basic
import Mathlib.Algebra.BigOperators.Intervals

/-! The GTT manager: a signed counter of the pages that are still available, and the nodes of the
memory regions in GTT, most of them without address space until `gsgpu_ttm_alloc_gart`. -/
namespace Gsgpu.GttMgr

/-- `TTM_PL_TT`, and the other memory types. -/
inductive MemType
  | tt
  | other
deriving DecidableEq

/-- A region of a BO: the BO's own, or the one that a call under way wants to replace it with. -/
inductive Slot
  | bo (b : ℕ)
  | tmp (b : ℕ)
deriving DecidableEq

/-- `struct gsgpu_gtt_node`; `start` is none for `GSGPU_BO_INVALID_OFFSET`. -/
structure Node where
  start : Option ℕ
deriving DecidableEq

/-- `struct ttm_mem_reg`. -/
structure MemReg where
  memType : MemType
  numPages : BitVec 64
  mmNode : Option Node

/-- What `gsgpu_gtt_mgr_new` looks at in `struct ttm_place`. -/
structure Place where
  fpfn : ℕ
  lpfn : ℕ
  topdown : Bool
deriving DecidableEq

/-- `struct gsgpu_gtt_mgr` with the size it manages and the regions of all BOs; `live` are the
regions with a node, and `gart` the BOs in `gsgpu_ttm_alloc_gart`. -/
structure State where
  size : ℕ
  available : BitVec 64
  mem : Slot → MemReg
  live : Finset Slot
  gart : ℕ → Bool

def State.setMem (s : State) (x : Slot) (m : MemReg) : State :=
  { s with mem := Function.update s.mem x m }

/-- `gsgpu_gtt_mgr_has_gart_addr`. -/
def Node.hasGartAddr (n : Node) : Bool := n.start.isSome

/-- A request to replace a region in GTT by another is not checked against `available`. -/
def State.exempt (s : State) : Slot → Bool
  | .bo _ => false
  | .tmp b => (s.mem (.bo b)).memType == .tt

/-- `gsgpu_gtt_mgr_alloc`; `inserted` is the outcome of `drm_mm_insert_node_in_range`. -/
def mgrAlloc (node : Node) (inserted : Except Errno ℕ) : Except Errno Node :=
  if node.hasGartAddr then .ok node
  else match inserted with
    | .ok start => .ok { node with start := some start }
    | .error r => .error r

/-- `gsgpu_gtt_mgr_new`, with its return value. The counter is compared as the unsigned number
that `num_pages` makes of it. -/
def State.mgrNew (s : State) (x : Slot) (place : Place) (kzalloc : Bool)
    (inserted : Except Errno ℕ) : State × Except Errno Unit :=
  let m := s.mem x
  if !s.exempt x && s.available.ult m.numPages then (s, .ok ())
  else
    let s' := { s with available := s.available - m.numPages }
    let errOut : State := { s' with available := s'.available + m.numPages }
    if !kzalloc then (errOut, .error .enomem)
    else
      let node : Node := ⟨none⟩
      if place.fpfn ≠ 0 ∨ place.lpfn ≠ 0 ∨ place.topdown then
        match mgrAlloc node inserted with
        | .ok node =>
          ({ s'.setMem x { m with mmNode := some node } with live := insert x s.live }, .ok ())
        | .error _ => (errOut, .ok ())
      else ({ s'.setMem x { m with mmNode := some node } with live := insert x s.live }, .ok ())

/-- `gsgpu_gtt_mgr_del`. -/
def State.mgrDel (s : State) (x : Slot) : State :=
  let m := s.mem x
  match m.mmNode with
  | none => s
  | some _ =>
    { s.setMem x { m with mmNode := none } with
      available := s.available + m.numPages
      live := s.live.erase x }

/-- `bo->mem = tmp`, after the node of the old region is gone. -/
def State.moveMem (s : State) (b : ℕ) : State :=
  let t := s.mem (.tmp b)
  { (s.setMem (.bo b) { t with memType := .tt }).setMem (.tmp b) { t with mmNode := none } with
    live := insert (.bo b) (s.live.erase (.tmp b)) }

/-- `gsgpu_ttm_alloc_gart` up to `ttm_bo_mem_space`: a copy of the region, without its node. -/
def State.allocGart (s : State) (b : ℕ) : Option State :=
  let m := s.mem (.bo b)
  if s.gart b ∨ (s.mem (.tmp b)).mmNode.isSome then none
  else match m.memType, m.mmNode with
    | .tt, some node =>
      if node.hasGartAddr then some s
      else some { s.setMem (.tmp b) { m with mmNode := none } with
        gart := Function.update s.gart b true }
    | _, _ => some s

/-- The rest of `gsgpu_ttm_alloc_gart`: without a node it fails, and else it binds the pages and
gives one of the two nodes back. -/
def State.allocGartEnd (s : State) (b : ℕ) (bind : Bool) : Option State :=
  if s.gart b then
    let s := { s with gart := Function.update s.gart b false }
    match (s.mem (.tmp b)).mmNode with
    | none => some s
    | some _ => if bind then some ((s.mgrDel (.bo b)).moveMem b) else some (s.mgrDel (.tmp b))
  else none

inductive Event
  | create (b : ℕ) (numPages : BitVec 64)
  | request (b : ℕ)
  | mgrNew (x : Slot) (place : Place) (kzalloc : Bool) (inserted : Except Errno ℕ)
  | mgrDel (x : Slot)
  | moveMem (b : ℕ)
  | allocGart (b : ℕ)
  | allocGartEnd (b : ℕ) (bind : Bool)

/-- TTM creates a BO of any size outside GTT, sets a second region up for a BO, asks the manager
for a node for a region that has none, gives nodes back and moves BOs. -/
def State.step (s : State) : Event → Option State
  | .create b n =>
    if (s.mem (.bo b)).mmNode = none ∧ (s.mem (.tmp b)).mmNode = none ∧ s.gart b = false then
      some (s.setMem (.bo b) ⟨.other, n, none⟩)
    else none
  | .request b =>
    if (s.mem (.tmp b)).mmNode = none ∧ s.gart b = false then
      some (s.setMem (.tmp b) { s.mem (.bo b) with mmNode := none })
    else none
  | .mgrNew x place kzalloc inserted =>
    if (s.mem x).mmNode = none then some (s.mgrNew x place kzalloc inserted).1 else none
  | .mgrDel x => some (s.mgrDel x)
  | .moveMem b =>
    if (s.mem (.bo b)).mmNode = none ∧ (s.mem (.tmp b)).mmNode ≠ none ∧ s.gart b = false then
      some (s.moveMem b)
    else none
  | .allocGart b => s.allocGart b
  | .allocGartEnd b bind => s.allocGartEnd b bind

/-- `gsgpu_gtt_mgr_init`, for a size that the caller got by shifting a number of bytes. -/
structure State.Init (s : State) : Prop where
  size : s.size < 2 ^ 63
  available : s.available = BitVec.ofNat 64 s.size
  mem : ∀ x, (s.mem x).mmNode = none
  live : s.live = ∅

def State.Reachable (good : State → Event → Prop) (s : State) : Prop :=
  Transition.Reach State.Init (fun s e s' => s.step e = some s') good s

/-- The pages of all nodes. -/
def State.used (s : State) : ℕ := ∑ x ∈ s.live, (s.mem x).numPages.toNat

/-- The counter tells, as an integer, what the nodes leave of the size. -/
def State.Exact (s : State) : Prop := s.available.toInt = s.size - s.used

/-- A request that is checked gets a node only when there are pages enough. -/
def State.Admits (s : State) (e : Event) : Prop :=
  ∀ x place kzalloc ins s', e = .mgrNew x place kzalloc ins → s.exempt x = false →
    s.step e = some s' → (s'.mem x).mmNode ≠ none →
    ((s.mem x).numPages.toNat : ℤ) ≤ s.available.toInt

/-- A checked request finds the counter not negative, or is for more pages than the negative
counter looks like; an exempt one leaves it a 64-bit number. -/
def Event.Counted (s : State) : Event → Prop
  | .mgrNew x _ _ _ =>
    if s.exempt x then ((s.mem x).numPages.toNat : ℤ) ≤ s.available.toInt + 2 ^ 63
    else 0 ≤ s.available.toInt ∨
      s.available.toInt + 2 ^ 64 < (s.mem x).numPages.toNat
  | _ => True

variable {s s' : State} {x : Slot}

theorem toInt_sub_toNat {a n : BitVec 64} (h : (n.toNat : ℤ) ≤ a.toInt + 2 ^ 63) :
    (a - n).toInt = a.toInt - n.toNat := by
  have hn := n.isLt
  have ha := a.isLt
  simp only [BitVec.toInt_eq_toNat_cond, BitVec.toNat_sub] at h ⊢
  split_ifs at h ⊢ <;> omega

theorem toInt_add_toNat {a n : BitVec 64} (h : a.toInt + n.toNat < 2 ^ 63) :
    (a + n).toInt = a.toInt + n.toNat := by
  have hn := n.isLt
  have ha := a.isLt
  simp only [BitVec.toInt_eq_toNat_cond, BitVec.toNat_add] at h ⊢
  split_ifs at h ⊢ <;> omega

/-- The unsigned comparison is the one of the integers when the counter is not negative. -/
theorem le_toInt_of_not_ult {a n : BitVec 64} (h : a.ult n = false)
    (hc : 0 ≤ a.toInt ∨ a.toInt + 2 ^ 64 < n.toNat) : (n.toNat : ℤ) ≤ a.toInt := by
  have ha := a.isLt
  simp only [BitVec.ult, decide_eq_false_iff_not, Nat.not_lt] at h
  simp only [BitVec.toInt_eq_toNat_cond] at hc ⊢
  split_ifs at hc ⊢ <;> omega

/-- `gsgpu_gtt_mgr_new` leaves everything as it was, or makes a node. -/
theorem mgrNew_cases (s : State) (x : Slot) (place : Place) (kzalloc : Bool)
    (inserted : Except Errno ℕ) :
    (s.mgrNew x place kzalloc inserted).1 = s ∨
    ∃ node, (s.exempt x = true ∨ s.available.ult (s.mem x).numPages = false) ∧
      (s.mgrNew x place kzalloc inserted).1 =
        { s.setMem x { s.mem x with mmNode := some node } with
          available := s.available - (s.mem x).numPages
          live := insert x s.live } := by
  have herr : { s with available := s.available - (s.mem x).numPages + (s.mem x).numPages } = s := by
    rw [BitVec.sub_add_cancel]
  simp only [State.mgrNew]
  split
  case isTrue => exact .inl rfl
  case isFalse hadm =>
    have hadm : s.exempt x = true ∨ s.available.ult (s.mem x).numPages = false := by
      simpa only [Bool.and_eq_true, Bool.not_eq_true', not_and_or, Bool.not_eq_false,
        Bool.not_eq_true] using hadm
    split
    case isTrue => exact .inl herr
    case isFalse =>
      split
      case isTrue =>
        split
        case h_1 node _ => exact .inr ⟨node, hadm, rfl⟩
        case h_2 => exact .inl herr
      case isFalse => exact .inr ⟨_, hadm, rfl⟩

structure State.Inv (s : State) : Prop where
  live : ∀ x, x ∈ s.live ↔ (s.mem x).mmNode ≠ none
  size : s.size < 2 ^ 63
  exact : s.Exact

theorem State.Inv.of_init (h : s.Init) : s.Inv where
  live := by simp [h.live, h.mem]
  size := h.size
  exact := by
    have hs := h.size
    rw [State.Exact, State.used, h.live, Finset.sum_empty, h.available,
      BitVec.toInt_eq_toNat_cond, BitVec.toNat_ofNat]
    split_ifs <;> omega

/-- Regions without a node do not count. -/
theorem used_congr (hl : s'.live = s.live)
    (hm : ∀ x ∈ s.live, (s'.mem x).numPages = (s.mem x).numPages) : s'.used = s.used := by
  rw [State.used, State.used, hl]
  exact Finset.sum_congr rfl fun x hx => by rw [hm x hx]

theorem State.Inv.setMem (h : s.Inv) (hx : (s.mem x).mmNode = none) {m : MemReg}
    (hm : m.mmNode = none) : (s.setMem x m).Inv := by
  have hlive : x ∉ s.live := fun hl => (h.live x).mp hl hx
  refine ⟨fun y => ?_, h.size, ?_⟩
  · by_cases hy : y = x
    · subst hy
      simp [State.setMem, hlive, hm]
    · simpa [State.setMem, hy] using h.live y
  · have : (s.setMem x m).used = s.used := by
      refine used_congr rfl fun y hy => ?_
      have hne : y ≠ x := fun he => hlive (he ▸ hy)
      simp [State.setMem, hne]
    rw [State.Exact, this]
    exact h.exact

theorem State.Inv.mgrDel (h : s.Inv) (x : Slot) : (s.mgrDel x).Inv := by
  simp only [State.mgrDel]
  split
  case h_1 => exact h
  case h_2 node hnode =>
    have hlive : x ∈ s.live := (h.live x).mpr (by simp [hnode])
    have hused : s.used = (s.mem x).numPages.toNat + ∑ y ∈ s.live.erase x,
        (s.mem y).numPages.toNat := (Finset.add_sum_erase s.live _ hlive).symm
    have hsum : ∑ y ∈ s.live.erase x,
        ((Function.update s.mem x { s.mem x with mmNode := none }) y).numPages.toNat =
          ∑ y ∈ s.live.erase x, (s.mem y).numPages.toNat :=
      Finset.sum_congr rfl fun y hy => by simp [Finset.ne_of_mem_erase hy]
    have hsize := h.size
    have hexact := h.exact
    rw [State.Exact, hused] at hexact
    refine ⟨fun y => ?_, h.size, ?_⟩
    · by_cases hy : y = x
      · subst hy
        simp [State.setMem]
      · simpa [State.setMem, hy] using h.live y
    · simp only [State.Exact, State.used, State.setMem, hsum]
      rw [toInt_add_toNat (by omega)]
      omega

/-- A node is made, and its pages are taken from the counter. -/
theorem State.Inv.insert (h : s.Inv) (hx : (s.mem x).mmNode = none) (node : Node)
    (hfits : ((s.mem x).numPages.toNat : ℤ) ≤ s.available.toInt + 2 ^ 63) :
    State.Inv { s.setMem x { s.mem x with mmNode := some node } with
      available := s.available - (s.mem x).numPages
      live := insert x s.live } := by
  have hlive : x ∉ s.live := fun hl => (h.live x).mp hl hx
  have hsum : ∑ y ∈ s.live,
      ((Function.update s.mem x { s.mem x with mmNode := some node }) y).numPages.toNat =
        s.used := by
    refine Finset.sum_congr rfl fun y hy => ?_
    have hne : y ≠ x := fun he => hlive (he ▸ hy)
    simp [hne]
  have hexact := h.exact
  rw [State.Exact] at hexact
  refine ⟨fun y => ?_, h.size, ?_⟩
  · by_cases hy : y = x
    · subst hy
      simp [State.setMem]
    · simpa [State.setMem, hy] using h.live y
  · simp only [State.Exact, State.used, State.setMem, Finset.sum_insert hlive,
      Function.update_self, hsum]
    rw [toInt_sub_toNat hfits, hexact, State.used]
    omega

theorem State.Inv.moveMem (h : s.Inv) {b : ℕ} (hb : (s.mem (.bo b)).mmNode = none)
    (ht : (s.mem (.tmp b)).mmNode ≠ none) : (s.moveMem b).Inv := by
  have hlive : Slot.tmp b ∈ s.live := (h.live _).mpr ht
  have hnot : Slot.bo b ∉ s.live := fun hl => (h.live _).mp hl hb
  have hne : Slot.bo b ∉ s.live.erase (.tmp b) := fun hl => hnot (Finset.mem_of_mem_erase hl)
  refine ⟨fun y => ?_, h.size, ?_⟩
  · by_cases hyt : y = .tmp b
    · subst hyt
      simp [State.moveMem, State.setMem]
    · by_cases hyb : y = .bo b
      · subst hyb
        simp [State.moveMem, State.setMem, ht]
      · simpa [State.moveMem, State.setMem, hyt, hyb] using h.live y
  · have hused : (s.moveMem b).used = s.used := by
      have hsum : ∀ y ∈ s.live.erase (.tmp b),
          ((s.moveMem b).mem y).numPages.toNat = (s.mem y).numPages.toNat := by
        intro y hy
        have hyt : y ≠ .tmp b := Finset.ne_of_mem_erase hy
        have hyb : y ≠ .bo b := fun he => hne (he ▸ hy)
        simp [State.moveMem, State.setMem, hyt, hyb]
      have hmoved : ((s.moveMem b).mem (.bo b)).numPages = (s.mem (.tmp b)).numPages := by
        simp [State.moveMem, State.setMem]
      calc (s.moveMem b).used
          = ((s.moveMem b).mem (.bo b)).numPages.toNat +
              ∑ y ∈ s.live.erase (.tmp b), ((s.moveMem b).mem y).numPages.toNat :=
            Finset.sum_insert hne
        _ = (s.mem (.tmp b)).numPages.toNat +
              ∑ y ∈ s.live.erase (.tmp b), (s.mem y).numPages.toNat := by
            rw [hmoved, Finset.sum_congr rfl hsum]
        _ = s.used := Finset.add_sum_erase _ (fun y => (s.mem y).numPages.toNat) hlive
    rw [State.Exact, hused]
    exact h.exact

/-- A request for a node that is within the counter's range keeps the account. -/
theorem State.Inv.mgrNew (h : s.Inv) {place : Place} {kzalloc : Bool} {inserted : Except Errno ℕ}
    (hg : Event.Counted s (.mgrNew x place kzalloc inserted)) (hx : (s.mem x).mmNode = none) :
    (s.mgrNew x place kzalloc inserted).1.Inv := by
  rcases mgrNew_cases s x place kzalloc inserted with hsame | ⟨node, hadm, hnew⟩
  · rw [hsame]
    exact h
  · rw [hnew]
    refine h.insert hx node ?_
    simp only [Event.Counted] at hg
    split_ifs at hg with hex
    · exact hg
    · have := le_toInt_of_not_ult (hadm.resolve_left hex) hg
      omega

theorem State.Inv.step (h : s.Inv) {e : Event} (hg : e.Counted s) (hs : s.step e = some s') :
    s'.Inv := by
  cases e with
  | create b n =>
    simp only [State.step] at hs
    split at hs
    case isFalse => cases hs
    case isTrue hb =>
      cases hs
      exact h.setMem hb.1 rfl
  | request b =>
    simp only [State.step] at hs
    split at hs
    case isFalse => cases hs
    case isTrue hb =>
      cases hs
      exact h.setMem hb.1 rfl
  | mgrNew x place kzalloc inserted =>
    simp only [State.step] at hs
    split at hs
    case isFalse => cases hs
    case isTrue hx =>
      cases hs
      exact h.mgrNew hg hx
  | mgrDel x =>
    cases hs
    exact h.mgrDel x
  | moveMem b =>
    simp only [State.step] at hs
    split at hs
    case isFalse => cases hs
    case isTrue hb =>
      cases hs
      exact h.moveMem hb.1 hb.2.1
  | allocGart b =>
    simp only [State.step, State.allocGart] at hs
    split at hs
    case isTrue => cases hs
    case isFalse hb =>
      split at hs
      case h_2 =>
        cases hs
        exact h
      case h_1 node _ _ =>
        split at hs
        case isTrue =>
          cases hs
          exact h
        case isFalse =>
          cases hs
          have htmp : (s.mem (.tmp b)).mmNode = none := by
            simpa only [not_or, Bool.not_eq_true, Option.isSome_eq_false_iff,
              Option.isNone_iff_eq_none] using (not_or.mp hb).2
          exact ⟨(h.setMem htmp rfl).live, h.size, (h.setMem htmp rfl).exact⟩
  | allocGartEnd b bind =>
    simp only [State.step, State.allocGartEnd] at hs
    split at hs
    case isFalse => cases hs
    case isTrue =>
      have hgart : State.Inv { s with gart := Function.update s.gart b false } :=
        ⟨h.live, h.size, h.exact⟩
      split at hs
      case h_1 =>
        cases hs
        exact hgart
      case h_2 node hnode =>
        split at hs
        case isFalse =>
          cases hs
          exact hgart.mgrDel (.tmp b)
        case isTrue =>
          cases hs
          refine (hgart.mgrDel (.bo b)).moveMem ?_ ?_
          · simp only [State.mgrDel]
            split
            case h_1 hnone => exact hnone
            case h_2 => simp [State.setMem]
          · simp only [State.mgrDel]
            split
            case h_1 => simp [hnode]
            case h_2 => simp [State.setMem, hnode]

/-- In every run whose requests are all `Counted`, the counter is exact, and requests that are
checked get nodes only when there are pages enough. -/
theorem gtt_available_exact (h : State.Reachable (fun s e => e.Counted s) s) :
    s.Exact ∧ ∀ e : Event, e.Counted s → s.Admits e := by
  have hinv : s.Inv := by
    refine Transition.Reach.invariant ?_ ?_ h
    · exact fun _ hi => .of_init hi
    · exact fun _ _ _ h hg hs => h.step hg hs
  refine ⟨hinv.exact, ?_⟩
  rintro e hg x place kzalloc inserted s' rfl hex hs hnode
  simp only [State.step] at hs
  split at hs
  case isFalse => cases hs
  case isTrue hx =>
    cases hs
    rcases mgrNew_cases s x place kzalloc inserted with hsame | ⟨node, hadm, -⟩
    · exact absurd hx (hsame ▸ hnode)
    · simp only [Event.Counted, hex, Bool.false_eq_true, if_false] at hg
      exact le_toInt_of_not_ult (hadm.resolve_left (by simp [hex])) hg

/-- A manager of one page. -/
def onePage : State where
  size := 1
  available := 1
  mem := fun _ => ⟨.other, 1, none⟩
  live := ∅
  gart := fun _ => false

theorem onePage_init : onePage.Init := ⟨by decide, rfl, fun _ => rfl, rfl⟩

/-- Anywhere, without address space. -/
def anywhere : Place := ⟨0, 0, false⟩

/-- The page is taken by a BO, which then asks for address space: another page, for a moment. -/
def overcommitted : List Event :=
  [.mgrNew (.tmp 0) anywhere true (.ok 0), .moveMem 0, .allocGart 0,
    .mgrNew (.tmp 0) ⟨0, 8, false⟩ true (.ok 0)]

theorem gtt_available_exact_negative :
    ∃ s, State.Reachable (fun s e => e.Counted s) s ∧ s.available.toInt = -1 ∧ s.Exact := by
  have hrun : ∃ s, State.Reachable (fun s e => e.Counted s) s ∧ s.available.toInt = -1 := by
    refine ⟨_, .next (e := .mgrNew (.tmp 0) ⟨0, 8, false⟩ true (.ok 0))
      (.next (e := .allocGart 0) (.next (e := .moveMem 0)
      (.next (e := .mgrNew (.tmp 0) anywhere true (.ok 0)) (.start onePage_init)
      ?_ rfl) trivial rfl) trivial rfl) ?_ rfl, rfl⟩
    · exact .inl (by decide)
    · exact (by decide : ((1 : ℕ) : ℤ) ≤ 0 + 2 ^ 63)
  obtain ⟨s, hs, hneg⟩ := hrun
  exact ⟨s, hs, hneg, (gtt_available_exact hs).1⟩

/-- While the counter is negative, a checked request gets its node. -/
theorem gtt_overcommits :
    ¬ ∀ s, State.Reachable (fun _ _ => True) s → s.Exact ∧ ∀ e : Event, s.Admits e := by
  intro h
  have hrun : ∃ s s', overcommitted.foldlM State.step onePage = some s ∧
      s.exempt (.tmp 1) = false ∧ (s.mem (.tmp 1)).numPages = 1 ∧ s.available.toInt = -1 ∧
      s.step (.mgrNew (.tmp 1) anywhere true (.ok 0)) = some s' ∧
      (s'.mem (.tmp 1)).mmNode ≠ none := ⟨_, _, rfl, rfl, rfl, rfl, rfl, by decide⟩
  obtain ⟨s, s', hs, hex, hpages, hneg, hstep, hnode⟩ := hrun
  have hreach : State.Reachable (fun _ _ => True) s :=
    Transition.Reach.foldlM (.start onePage_init) (fun _ _ _ => trivial) hs
  have := (h s hreach).2 _ (.tmp 1) anywhere true (.ok 0) s' rfl hex hstep hnode
  rw [hpages, hneg] at this
  revert this
  decide

end Gsgpu.GttMgr
