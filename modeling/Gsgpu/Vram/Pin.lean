import Gsgpu.Vram.Bo
import Gsgpu.Vram.Accounting
import Mathlib.Algebra.BigOperators.Pi
import Mathlib.Algebra.Order.Group.Int
import Mathlib.Algebra.Order.Monoid.Prod
import Mathlib.Tactic.Abel

/-! Pinned BOs and the three counters of the memory they take. What is taken from the counters when
a BO is unpinned or destroyed is computed from where it is then. -/
namespace Gsgpu.Vram.Pin

variable (d : Device)

/-- `vram_pin_size`, `visible_pin_size` and `gart_pin_size`. -/
abbrev PinSize := ℤ × ℤ × ℤ

/-- The BOs and the counters; `live` are the BOs that are not destroyed. -/
structure State where
  bo : ℕ → Bo
  live : Finset ℕ
  pinSize : PinSize

def State.setBo (s : State) (i : ℕ) (b : Bo) : State := { s with bo := Function.update s.bo i b }

/-- What `gsgpu_bo_pin_restricted` adds for a BO and `gsgpu_bo_subtract_pin_size` takes off. -/
def pinned (b : Bo) : PinSize :=
  match b.mem.memType with
  | .vram => (b.size, b.visibleSize d, 0)
  | .tt => (0, 0, b.size)
  | .system => 0

/-- `gsgpu_bo_get_preferred_pin_domain`, with `GSGPU_SG_THRESHOLD`. -/
def preferredPinDomain (domain : Domain) : Domain :=
  if domain = {.vram, .tt} then
    if d.realVramSize ≤ 256 * 1024 * 1024 then {.tt} else {.vram}
  else domain

/-- The checks of `gsgpu_bo_pin_restricted`, up to the domain. -/
def pinDomain (b : Bo) (domain : Domain) (minOffset maxOffset : ℕ) : Except Errno Domain :=
  if b.usermm then .error .eperm
  else if maxOffset < minOffset then .error .einval
  else if b.primeShared then
    if .tt ∈ domain then .ok (preferredPinDomain d {.tt}) else .error .einval
  else .ok (preferredPinDomain d domain)

/-- `gsgpu_bo_pin_restricted`; `o` is what `ttm_bo_validate` comes to. -/
def State.pin (s : State) (i : ℕ) (domain : Domain) (minOffset maxOffset : ℕ) (o : Outcome) :
    Option State :=
  let b := s.bo i
  match pinDomain d b domain minOffset maxOffset with
  | .error _ => some s
  | .ok domain =>
    if b.pinCount ≠ 0 then
      if b.mem.memType ∈ domain then some (s.setBo i { b with pinCount := b.pinCount + 1 })
      else some s
    else do
      let (b', ok) ← (b.restrict d domain (minOffset / pageSize) (maxOffset / pageSize)).validate d o
      if ok then
        return { s.setBo i { b' with pinCount := 1 } with pinSize := s.pinSize + pinned d b' }
      else return s.setBo i b'

/-- `gsgpu_bo_unpin`. -/
def State.unpin (s : State) (i : ℕ) (o : Outcome) : Option State :=
  let b := s.bo i
  if b.pinCount = 0 then some s
  else
    let b' := { b with pinCount := b.pinCount - 1 }
    if b'.pinCount ≠ 0 then some (s.setBo i b')
    else do
      let (b'', _) ← b'.release.validate d o
      return { s.setBo i b'' with pinSize := s.pinSize - pinned d b' }

/-- `gsgpu_bo_destroy`, which TTM calls when it has given the BO's nodes back. -/
def State.destroy (s : State) (i : ℕ) : State :=
  let b := { s.bo i with mem := { (s.bo i).mem with mmNode := none } }
  { s with
    live := s.live.erase i
    pinSize := if b.pinCount ≠ 0 then s.pinSize - pinned d b else s.pinSize }

/-- TTM evicts a BO that is not kept by `TTM_PL_FLAG_NO_EVICT`; `gsgpu_evict_flags` has set its
placements. -/
def State.evict (s : State) (i : ℕ) (placements : List BoPlace) (o : Outcome) : Option State :=
  let b := s.bo i
  if b.mem.noEvict ∨ b.mem.memType = .system then none
  else do
    let (b', _) ← { b with placements := placements }.validate d o
    return s.setBo i b'

/-- `gsgpu_zip_gem_bo_evict`, at suspend. -/
def State.zipEvict (s : State) (i : ℕ) (o : Outcome) : Option State :=
  let b := s.bo i
  if b.compressed ∧ b.mem.memType = .vram then do
    let offset := ((b.mem.mmNode.getD []).head?.map Node.start).getD 0
    let (b', _) ← { b with nodeOffset := offset }.release.validate d o
    return s.setBo i b'
  else some s

/-- `gsgpu_zip_gem_bo_validate`, at resume. -/
def State.zipValidate (s : State) (i : ℕ) (o : Outcome) : Option State :=
  let b := s.bo i
  if b.compressed then do
    let (b', _) ← (b.restrict d b.preferredDomains b.nodeOffset
      (b.nodeOffset + b.numPages)).validate d o
    return s.setBo i b'
  else some s

inductive Event
  | create (i : ℕ) (b : Bo)
  | setPlacement (i : ℕ) (domain : Domain)
  | pin (i : ℕ) (domain : Domain) (minOffset maxOffset : ℕ) (o : Outcome)
  | unpin (i : ℕ) (o : Outcome)
  | destroy (i : ℕ)
  | evict (i : ℕ) (placements : List BoPlace) (o : Outcome)
  | zipEvict (i : ℕ) (o : Outcome)
  | zipValidate (i : ℕ) (o : Outcome)

/-- A new BO is not pinned. Its preferred domains may be set later. -/
def State.step (s : State) : Event → Option State
  | .create i b =>
    if i ∉ s.live ∧ b.pinCount = 0 then some { s.setBo i b with live := insert i s.live } else none
  | .setPlacement i domain =>
    if i ∈ s.live then some (s.setBo i { s.bo i with preferredDomains := domain }) else none
  | .pin i domain minOffset maxOffset o =>
    if i ∈ s.live then s.pin d i domain minOffset maxOffset o else none
  | .unpin i o => if i ∈ s.live then s.unpin d i o else none
  | .destroy i => if i ∈ s.live then some (s.destroy d i) else none
  | .evict i placements o => if i ∈ s.live then s.evict d i placements o else none
  | .zipEvict i o => if i ∈ s.live then s.zipEvict d i o else none
  | .zipValidate i o => if i ∈ s.live then s.zipValidate d i o else none

def State.Reachable (good : State → Event → Prop) (s : State) : Prop :=
  Transition.Reach (fun s => s.live = ∅ ∧ s.pinSize = 0) (fun s e s' => s.step d e = some s') good s

/-- What a BO takes of VRAM, of VRAM that the CPU sees, and of GTT, if it is pinned. -/
def share (b : Bo) : PinSize :=
  if b.pinCount = 0 then 0
  else match b.mem.memType with
    | .vram => (b.size,
        ((b.mem.mmNode.getD []).map fun n => n.bytesBelow d.visibleVramSize).sum, 0)
    | .tt => (0, 0, b.size)
    | .system => 0

/-- The counters are the sums over the BOs. -/
def State.Exact (s : State) : Prop := s.pinSize = ∑ i ∈ s.live, share d (s.bo i)

/-- No BO is destroyed while it is pinned in VRAM that the CPU sees a part of only, and has pages
there; no pinned BO is moved between GTT and system memory at resume; and there is room in the
pin counts. -/
def Event.Kept (s : State) : Event → Prop
  | .destroy i => (s.bo i).pinCount ≠ 0 → (s.bo i).mem.memType = .vram →
      d.realVramSize ≠ d.visibleVramSize → (s.bo i).visibleSize d = 0
  | .pin i _ _ _ _ => (s.bo i).pinCount + 1 ≠ 0
  | .zipValidate i o => (s.bo i).pinCount ≠ 0 → (s.bo i).compressed →
      match o with
      | .unbound => False
      | .move p _ _ => (s.bo i).mem.memType ≠ .vram → p.memType ≠ .vram →
          p.memType = (s.bo i).mem.memType
      | _ => True
  | _ => True

/-- A pinned BO in VRAM is one node, and one in GTT is kept there. -/
structure Held (b : Bo) : Prop where
  vram : b.pinCount ≠ 0 → b.mem.memType = .vram → ∃ n, b.mem.mmNode = some [n] ∧
    b.mem.start = n.start ∧ n.size = b.numPages ∧ n.start + n.size ≤ d.size
  tt : b.pinCount ≠ 0 → b.mem.memType = .tt → b.mem.noEvict = true

variable {d} {b b' : Bo} {o : Outcome} {ok : Bool}

theorem bytesBelow_eq_zero {n : Node} {limit : ℕ} (h : limit ≤ n.start * pageSize) :
    n.bytesBelow limit = 0 := by
  rw [Node.bytesBelow, Finset.card_eq_zero, Finset.filter_eq_empty_iff]
  intro x hx
  have := (Finset.mem_Ico.mp hx).1
  omega

theorem bytesBelow_eq_size {n : Node} {limit : ℕ} (h : (n.start + n.size) * pageSize ≤ limit) :
    n.bytesBelow limit = n.size * pageSize := by
  have hall : (Finset.Ico (n.start * pageSize) ((n.start + n.size) * pageSize)).filter
      (· < limit) = Finset.Ico (n.start * pageSize) ((n.start + n.size) * pageSize) := by
    refine Finset.filter_true_of_mem fun x hx => ?_
    have := (Finset.mem_Ico.mp hx).2
    omega
  rw [Node.bytesBelow, hall, Nat.card_Ico, Nat.add_mul]
  omega

/-- For one node the driver's function tells the bytes that the CPU sees. -/
theorem visibleSize_of_node {n : Node} (hm : b.mem.mmNode = some [n])
    (hstart : b.mem.start = n.start) (hsize : n.size = b.numPages)
    (hle : n.start + n.size ≤ d.size) :
    b.visibleSize d = n.bytesBelow d.visibleVramSize := by
  have hreal : d.size * pageSize ≤ d.realVramSize := by
    rw [d.size_eq]
    exact Nat.div_mul_le_self _ _
  have hbytes : (n.start + n.size) * pageSize ≤ d.size * pageSize := Nat.mul_le_mul_right _ hle
  simp only [Bo.visibleSize, hm, hstart]
  split
  case isTrue hfull =>
    rw [bytesBelow_eq_size (by omega), hsize, Bo.size]
  case isFalse =>
    split
    case isTrue hpast =>
      obtain ⟨k, hk⟩ := d.visible_dvd
      have hps : 0 < pageSize := by decide
      rw [hk, Nat.mul_div_cancel_left _ hps] at hpast
      rw [bytesBelow_eq_zero]
      rw [hk, Nat.mul_comm]
      exact Nat.mul_le_mul_right _ hpast
    case isFalse =>
      have hlt := d.bytes_lt
      have hpages : b.numPages < 2 ^ 32 := by
        have : d.size * 1 ≤ d.size * pageSize := Nat.mul_le_mul_left _ (by decide)
        omega
      rw [visibleLoop, ← visSize_eq_bytesBelow (c := d.toConfig)]
      split
      case isTrue hzero =>
        have : b.numPages = 0 := by
          rw [← BitVec.toNat_inj] at hzero
          simp at hzero
          omega
        simp only [Node.visSize, hsize, this, Nat.zero_add]
        split_ifs <;> omega
      case isFalse => simp [visibleLoop]

/-- What is added and taken off for a BO is its share. -/
theorem pinned_eq_share (h : Held d b) (hp : b.pinCount ≠ 0) : pinned d b = share d b := by
  simp only [pinned, share, hp, if_false]
  split
  case h_1 hv =>
    obtain ⟨n, hm, hstart, hsize, hle⟩ := h.vram hp hv
    simp [visibleSize_of_node hm hstart hsize hle, hm]
  case h_2 => rfl
  case h_3 => rfl

/-- `ttm_bo_validate` changes nothing but the region of a BO, and succeeds with one that a
placement asks for. -/
theorem validate_spec (h : b.validate d o = some (b', ok)) :
    b' = { b with mem := b'.mem } ∧ (ok = true → ∃ p ∈ b.placements,
      b'.mem.memType = p.memType ∧ b'.mem.noEvict = p.noEvict ∧
      (p.memType = .vram →
        NodesFor d b.numPages p.contiguous (b'.mem.mmNode.getD []) b'.mem.start)) := by
  cases o with
  | fail =>
    cases h
    exact ⟨rfl, nofun⟩
  | unbound =>
    simp only [Bo.validate] at h
    split at h
    case isFalse => cases h
    case isTrue =>
      cases h
      exact ⟨rfl, nofun⟩
  | stay p =>
    simp only [Bo.validate] at h
    split at h
    case isFalse => cases h
    case isTrue hp =>
      cases h
      exact ⟨rfl, fun _ => ⟨p, hp.1, hp.2.1.symm, rfl, hp.2.2⟩⟩
  | move p nodes start =>
    simp only [Bo.validate] at h
    split at h
    case isFalse => cases h
    case isTrue hp =>
      split at h
      case isTrue =>
        cases h
        exact ⟨rfl, nofun⟩
      case isFalse =>
        cases h
        refine ⟨rfl, fun _ => ⟨p, hp.1, rfl, rfl, fun hv => ?_⟩⟩
        simpa [hv] using hp.2 hv

/-- A pinned BO stays where it is, unless it is moved between GTT and system memory. -/
theorem validate_of_pinned (h : b.validate d o = some (b', ok)) (hpin : b.pinCount ≠ 0) :
    (∃ ne, b'.mem = { b.mem with noEvict := ne } ∧
      (ne = b.mem.noEvict ∨ ∃ p ∈ b.placements, ne = p.noEvict)) ∨
    b.mem.memType ≠ .vram ∧ (o = .unbound ∨ ∃ p nodes start, o = .move p nodes start ∧
      p ∈ b.placements ∧ p.memType ≠ .vram ∧ b'.mem = ⟨p.memType, none, start, p.noEvict⟩) := by
  cases o with
  | fail =>
    cases h
    exact .inl ⟨_, rfl, .inl rfl⟩
  | unbound =>
    simp only [Bo.validate] at h
    split at h
    case isFalse => cases h
    case isTrue ht => exact .inr ⟨by simp [ht], .inl rfl⟩
  | stay p =>
    simp only [Bo.validate] at h
    split at h
    case isFalse => cases h
    case isTrue hp =>
      cases h
      exact .inl ⟨_, rfl, .inr ⟨p, hp.1, rfl⟩⟩
  | move p nodes start =>
    simp only [Bo.validate] at h
    split at h
    case isFalse => cases h
    case isTrue hp =>
      split at h
      case isTrue =>
        cases h
        exact .inl ⟨_, rfl, .inl rfl⟩
      case isFalse hmove =>
        cases h
        have hne : ¬ (b.mem.memType = .vram ∨ p.memType = .vram) :=
          fun hv => hmove ⟨hv, by simpa [Bo.moveRefused] using hpin⟩
        obtain ⟨hb, hpv⟩ := not_or.mp hne
        exact .inr ⟨hb, .inr ⟨p, nodes, start, rfl, hp.1, hpv, by simp [hpv]⟩⟩

structure State.Inv (d : Device) (s : State) : Prop where
  exact : s.Exact d
  held : ∀ i ∈ s.live, Held d (s.bo i)

variable {s s' : State} {i : ℕ}

/-- One BO changes, and the counters by the change of its share. -/
theorem State.Inv.setBo (h : s.Inv d) (hi : i ∈ s.live) (hb : Held d b)
    {x : PinSize} (hx : x = s.pinSize + (share d b - share d (s.bo i))) :
    State.Inv d { s.setBo i b with pinSize := x } := by
  refine ⟨?_, fun j hj => ?_⟩
  · have hother : ∀ j ∈ s.live.erase i, share d (Function.update s.bo i b j) = share d (s.bo j) :=
      fun j hj => by simp [Finset.ne_of_mem_erase hj]
    have hold : s.pinSize = share d (s.bo i) + ∑ j ∈ s.live.erase i, share d (s.bo j) :=
      h.exact.trans (Finset.add_sum_erase s.live (fun j => share d (s.bo j)) hi).symm
    simp only [State.Exact, State.setBo]
    rw [← Finset.add_sum_erase s.live _ hi, Finset.sum_congr rfl hother, Function.update_self, hx,
      hold]
    abel
  · by_cases hj' : j = i
    · subst hj'
      simpa [State.setBo] using hb
    · simpa [State.setBo, hj'] using h.held j hj

/-- A BO changes, and not its share. -/
theorem State.Inv.setBo_same (h : s.Inv d) (hi : i ∈ s.live) (hb : Held d b)
    (hshare : share d b = share d (s.bo i)) : (s.setBo i b).Inv d := by
  have := h.setBo hi hb (x := s.pinSize) (by rw [hshare]; abel)
  exact this

/-- A BO that is not pinned has no share, and nothing is asked of it. -/
theorem share_of_unpinned (h : b.pinCount = 0) : share d b = 0 := by simp [share, h]

theorem held_of_unpinned (h : b.pinCount = 0) : Held d b := ⟨by simp [h], by simp [h]⟩

/-- What a call of `ttm_bo_validate` for a BO with other placements does to a pinned BO. -/
theorem Held.validate (h : Held d (s.bo i)) {places : List BoPlace}
    (hb : b.pinCount = (s.bo i).pinCount ∧ b.numPages = (s.bo i).numPages ∧
      b.mem = (s.bo i).mem ∧ b.placements = places)
    (hv : b.validate d o = some (b', ok))
    (hmove : (s.bo i).pinCount ≠ 0 → (s.bo i).mem.memType ≠ .vram →
      (∀ p ∈ places, p.noEvict = true) ∧ o ≠ .unbound ∧
      ∀ p nodes start, o = .move p nodes start → p.memType ≠ .vram →
        p.memType = (s.bo i).mem.memType) :
    Held d b' ∧ share d b' = share d (s.bo i) := by
  obtain ⟨hpin, hpages, hmem, rfl⟩ := hb
  obtain ⟨heq, -⟩ := validate_spec hv
  have hpin' : b'.pinCount = (s.bo i).pinCount := by rw [heq]; exact hpin
  have hpages' : b'.numPages = (s.bo i).numPages := by rw [heq]; exact hpages
  by_cases h0 : (s.bo i).pinCount = 0
  · rw [share_of_unpinned h0, share_of_unpinned (hpin'.trans h0)]
    exact ⟨held_of_unpinned (hpin'.trans h0), rfl⟩
  · rcases validate_of_pinned hv (hpin ▸ h0) with ⟨ne, hm, hne⟩ | ⟨hnv, hmoved⟩
    · rw [hmem] at hm hne
      constructor
      · refine ⟨fun _ hvram => ?_, fun _ ht => ?_⟩
        · rw [hm] at hvram ⊢
          rw [hpages']
          exact h.vram h0 hvram
        · rw [hm] at ht ⊢
          rcases hne with hne | ⟨p, hp, hne⟩
          · exact hne.trans (h.tt h0 ht)
          · have hnv : (s.bo i).mem.memType ≠ .vram := by
              simp only at ht
              simp [ht]
            exact hne.trans ((hmove h0 hnv).1 p hp)
      · simp only [share, hpin', h0, if_false, hm, Bo.size, hpages']
    · rw [hmem] at hnv
      obtain ⟨hkeep, hun, hsame⟩ := hmove h0 hnv
      rcases hmoved with hmoved | ⟨p, nodes, start, rfl, hp, hpv, hm⟩
      · exact absurd hmoved hun
      · have htype := hsame p nodes start rfl hpv
        constructor
        · refine ⟨fun _ hvram => ?_, fun _ _ => ?_⟩
          · rw [hm] at hvram
            exact absurd hvram hpv
          · rw [hm]
            exact hkeep p hp
        · simp only [share, hpin', h0, if_false, hm, Bo.size, hpages', htype]
          cases hcase : (s.bo i).mem.memType with
          | vram => exact absurd hcase hnv
          | tt => rfl
          | system => rfl

/-- All placements that restrict a BO keep it, and those in VRAM are contiguous. -/
theorem restrict_placements {domain : Domain} {fpfn lpfn : ℕ} {p : BoPlace}
    (hp : p ∈ (b.restrict d domain fpfn lpfn).placements) :
    p.noEvict = true ∧ (p.memType = .vram → p.contiguous = true) := by
  simp only [Bo.restrict, List.mem_map] at hp
  obtain ⟨q, hq, rfl⟩ := hp
  refine ⟨rfl, fun hv => ?_⟩
  rcases mem_placementFromDomain d hq with ⟨-, rfl⟩ | ⟨-, rfl⟩ | rfl
  · rfl
  · cases hv
  · cases hv

theorem State.Inv.pin (h : s.Inv d) (hi : i ∈ s.live) {domain : Domain} {lo hi' : ℕ}
    (hg : (s.bo i).pinCount + 1 ≠ 0) (hs : s.pin d i domain lo hi' o = some s') : s'.Inv d := by
  simp only [State.pin] at hs
  split at hs
  case h_1 =>
    cases hs
    exact h
  case h_2 domain' _ =>
    split at hs
    case isTrue hpin =>
      split at hs
      case isFalse =>
        cases hs
        exact h
      case isTrue =>
        cases hs
        have hheld := h.held i hi
        refine h.setBo_same hi ⟨fun _ => hheld.vram hpin, fun _ => hheld.tt hpin⟩ ?_
        simp only [share, hpin, hg, if_false, Bo.size]
    case isFalse hpin =>
      have h0 : (s.bo i).pinCount = 0 := not_not.mp hpin
      obtain ⟨⟨b', ok⟩, hv, hs⟩ := Option.bind_eq_some_iff.mp hs
      obtain ⟨heq, hok⟩ := validate_spec hv
      have h0' : b'.pinCount = 0 := by rw [heq]; exact h0
      have hpages : b'.numPages = (s.bo i).numPages := by rw [heq]; rfl
      cases ok with
      | false =>
        cases hs
        refine h.setBo_same hi (held_of_unpinned h0') ?_
        rw [share_of_unpinned h0, share_of_unpinned h0']
      | true =>
        cases hs
        obtain ⟨p, hp, htype, hne, hnodes⟩ := hok rfl
        obtain ⟨hkeep, hcont⟩ := restrict_placements hp
        have hheld : Held d { b' with pinCount := 1 } := by
          refine ⟨fun _ hvram => ?_, fun _ _ => hne.trans hkeep⟩
          have hpv : p.memType = .vram := htype.symm.trans hvram
          obtain ⟨hsum, hle, hone⟩ := hnodes hpv
          obtain ⟨n, hn, hstart⟩ := hone (hcont hpv)
          rw [hn] at hsum hle
          have hsome : b'.mem.mmNode = some [n] := by
            cases hm : b'.mem.mmNode with
            | none => simp [hm] at hn
            | some ns => simpa [hm] using hn
          rw [List.map_singleton, List.sum_singleton] at hsum
          exact ⟨n, hsome, hstart, hsum.trans hpages.symm, hle n (by simp)⟩
        refine h.setBo hi hheld ?_
        rw [share_of_unpinned h0, sub_zero, ← pinned_eq_share hheld (by simp)]
        rfl

theorem State.Inv.unpin (h : s.Inv d) (hi : i ∈ s.live) (hs : s.unpin d i o = some s') :
    s'.Inv d := by
  simp only [State.unpin] at hs
  split at hs
  case isTrue =>
    cases hs
    exact h
  case isFalse hpin =>
    split at hs
    case isTrue hmore =>
      cases hs
      have hheld := h.held i hi
      refine h.setBo_same hi ⟨fun _ => hheld.vram hpin, fun _ => hheld.tt hpin⟩ ?_
      simp only [share, hpin, hmore, if_false, Bo.size]
    case isFalse hlast =>
      obtain ⟨⟨b', ok⟩, hv, hs⟩ := Option.bind_eq_some_iff.mp hs
      cases hs
      have h0 : b'.pinCount = 0 := by
        rw [(validate_spec hv).1]
        exact not_not.mp hlast
      refine h.setBo hi (held_of_unpinned h0) ?_
      rw [share_of_unpinned h0, zero_sub, ← pinned_eq_share (h.held i hi) hpin, ← sub_eq_add_neg]
      rfl

/-- With its nodes gone, a BO has the same share only if the CPU saw none or all of VRAM. -/
theorem State.Inv.destroy (h : s.Inv d) (hi : i ∈ s.live)
    (hg : Event.Kept d s (.destroy i)) : (s.destroy d i).Inv d := by
  have hrest : s.pinSize = share d (s.bo i) + ∑ j ∈ s.live.erase i, share d (s.bo j) :=
    h.exact.trans (Finset.add_sum_erase s.live (fun j => share d (s.bo j)) hi).symm
  refine ⟨?_, fun j hj => h.held j (Finset.mem_of_mem_erase hj)⟩
  simp only [State.Exact, State.destroy]
  split
  case isFalse hpin =>
    rw [hrest, share_of_unpinned (not_not.mp hpin), zero_add]
  case isTrue hpin =>
    have hsame : pinned d { s.bo i with mem := { (s.bo i).mem with mmNode := none } } =
        pinned d (s.bo i) := by
      simp only [pinned]
      split
      case h_1 hv =>
        have hvis : Bo.visibleSize d
            { s.bo i with mem := { (s.bo i).mem with mmNode := none } } =
              (s.bo i).visibleSize d := by
          by_cases hfull : d.realVramSize = d.visibleVramSize
          · simp [Bo.visibleSize, hfull, Bo.size]
          · rw [hg hpin hv hfull]
            simp [Bo.visibleSize, hfull]
        rw [hvis]
        rfl
      case h_2 => rfl
      case h_3 => rfl
    rw [hsame, pinned_eq_share (h.held i hi) hpin, hrest]
    abel

theorem State.Inv.evict (h : s.Inv d) (hi : i ∈ s.live) {places : List BoPlace}
    (hs : s.evict d i places o = some s') : s'.Inv d := by
  simp only [State.evict] at hs
  split at hs
  case isTrue => cases hs
  case isFalse hmay =>
    obtain ⟨⟨b', ok⟩, hv, hs⟩ := Option.bind_eq_some_iff.mp hs
    cases hs
    obtain ⟨hne, hsys⟩ := not_or.mp hmay
    obtain ⟨hheld, hshare⟩ := (h.held i hi).validate (b := { s.bo i with placements := places })
      ⟨rfl, rfl, rfl, rfl⟩ hv (fun hpin hnv => by
        cases htype : (s.bo i).mem.memType with
        | vram => exact absurd htype hnv
        | system => exact absurd htype hsys
        | tt => exact absurd ((h.held i hi).tt hpin htype) hne)
    exact h.setBo_same hi hheld hshare

theorem State.Inv.zipEvict (h : s.Inv d) (hi : i ∈ s.live) (hs : s.zipEvict d i o = some s') :
    s'.Inv d := by
  simp only [State.zipEvict] at hs
  split at hs
  case isFalse =>
    cases hs
    exact h
  case isTrue hv =>
    obtain ⟨⟨b', ok⟩, hval, hs⟩ := Option.bind_eq_some_iff.mp hs
    cases hs
    obtain ⟨hheld, hshare⟩ := (h.held i hi).validate (by exact ⟨rfl, rfl, rfl, rfl⟩) hval
      (fun _ hnv => absurd hv.2 hnv)
    exact h.setBo_same hi hheld hshare

theorem State.Inv.zipValidate (h : s.Inv d) (hi : i ∈ s.live)
    (hg : Event.Kept d s (.zipValidate i o)) (hs : s.zipValidate d i o = some s') : s'.Inv d := by
  simp only [State.zipValidate] at hs
  split at hs
  case isFalse =>
    cases hs
    exact h
  case isTrue hc =>
    obtain ⟨⟨b', ok⟩, hval, hs⟩ := Option.bind_eq_some_iff.mp hs
    cases hs
    obtain ⟨hheld, hshare⟩ := (h.held i hi).validate (by exact ⟨rfl, rfl, rfl, rfl⟩) hval
      (fun hpin hnv => by
        have hkept := hg hpin hc
        refine ⟨fun p hp => (restrict_placements hp).1, ?_, ?_⟩
        · rintro rfl
          exact hkept
        · rintro p nodes start rfl
          exact hkept hnv)
    exact h.setBo_same hi hheld hshare

/-- Events of BOs are of live ones. -/
theorem of_guard {c : Prop} [Decidable c] {x : Option State}
    (h : (if c then x else none) = some s') : c ∧ x = some s' := by
  split at h
  case isTrue hc => exact ⟨hc, h⟩
  case isFalse => cases h

theorem State.Inv.create (h : s.Inv d) (hi : i ∉ s.live) (hb : b.pinCount = 0) :
    State.Inv d { s.setBo i b with live := insert i s.live } := by
  have hother : ∀ j ∈ s.live, Function.update s.bo i b j = s.bo j := by
    intro j hj
    have : j ≠ i := fun heq => hi (heq ▸ hj)
    simp [this]
  refine ⟨?_, fun j hj => ?_⟩
  · simp only [State.Exact, State.setBo]
    rw [Finset.sum_insert hi, Function.update_self, share_of_unpinned hb, zero_add]
    exact h.exact.trans (Finset.sum_congr rfl fun j hj => by rw [hother j hj])
  · simp only [State.setBo]
    rcases Finset.mem_insert.mp hj with rfl | hj
    · rw [Function.update_self]
      exact held_of_unpinned hb
    · rw [hother j hj]
      exact h.held j hj

theorem State.Inv.step {e : Event} (h : s.Inv d) (hg : e.Kept d s) (hs : s.step d e = some s') :
    s'.Inv d := by
  cases e with
  | create i b =>
    simp only [State.step] at hs
    split at hs
    case isFalse => cases hs
    case isTrue hnew =>
      cases hs
      exact h.create hnew.1 hnew.2
  | setPlacement i domain =>
    simp only [State.step] at hs
    split at hs
    case isFalse => cases hs
    case isTrue hi =>
      cases hs
      exact h.setBo_same hi ⟨(h.held i hi).vram, (h.held i hi).tt⟩ rfl
  | pin i domain lo hi' o =>
    obtain ⟨hi, hs⟩ := of_guard hs
    exact h.pin hi hg hs
  | unpin i o =>
    obtain ⟨hi, hs⟩ := of_guard hs
    exact h.unpin hi hs
  | destroy i =>
    obtain ⟨hi, hs⟩ := of_guard hs
    cases hs
    exact h.destroy hi hg
  | evict i places o =>
    obtain ⟨hi, hs⟩ := of_guard hs
    exact h.evict hi hs
  | zipEvict i o =>
    obtain ⟨hi, hs⟩ := of_guard hs
    exact h.zipEvict hi hs
  | zipValidate i o =>
    obtain ⟨hi, hs⟩ := of_guard hs
    exact h.zipValidate hi hg hs

theorem share_nonneg (b : Bo) : 0 ≤ share d b := by
  simp only [share]
  split_ifs
  · exact le_rfl
  · split
    case h_1 =>
      refine ⟨Int.natCast_nonneg _, List.sum_nonneg ?_, le_rfl⟩
      simp
    case h_2 => exact ⟨le_rfl, le_rfl, Int.natCast_nonneg _⟩
    case h_3 => exact le_rfl

/-- In every run that destroys, moves and pins BOs as `Event.Kept` asks, the counters are exact in
every state, and none is ever negative. -/
theorem pin_sizes_exact (h : State.Reachable d (fun s e => e.Kept d s) s) :
    s.Exact d ∧ 0 ≤ s.pinSize := by
  have hinv : s.Inv d := by
    refine Transition.Reach.invariant ?_ (fun _ _ _ h hg hs => h.step hg hs) h
    rintro s ⟨hlive, hsize⟩
    exact ⟨by simp [State.Exact, hlive, hsize], by simp [hlive]⟩
  refine ⟨hinv.exact, ?_⟩
  rw [hinv.exact]
  exact Finset.sum_nonneg fun i _ => share_nonneg (s.bo i)

/-- The 256 MiB of the driver, half of them visible. -/
def halfVisible : Device where
  toConfig := splitConfig
  gartSize := 0
  visible_dvd := by decide

/-- A BO of four pages that the CPU need not access, in system memory. -/
def fourPages : Bo where
  numPages := 4
  compressed := false
  cpuAccessRequired := false
  noCpuAccess := true
  contiguous := false
  shadow := false
  usermm := false
  primeShared := false
  preferredDomains := {.vram}
  pinCount := 0
  nodeOffset := 0
  placements := []
  mem := ⟨.system, none, 0, false⟩

def noBos : State := ⟨fun _ => fourPages, ∅, 0⟩

/-- The BO is pinned across the end of the visible half. -/
def pinAcross : Event :=
  .pin 0 {.vram} 0 0 (.move ⟨.vram, 0, 0, true, true, true⟩ [⟨8190, 4⟩] 8190)

theorem pin_sizes_exact_across :
    ∃ s, State.Reachable halfVisible (fun s e => e.Kept halfVisible s) s ∧
      s.pinSize = (4 * 16384, 2 * 16384, 0) ∧ s.Exact halfVisible := by
  have hrun : ∃ s, State.Reachable halfVisible (fun s e => e.Kept halfVisible s) s ∧
      s.pinSize = (4 * 16384, 2 * 16384, 0) :=
    ⟨_, .next (e := pinAcross) (.next (e := .create 0 fourPages) (.start (s := noBos) ⟨rfl, rfl⟩)
      trivial rfl) (by exact (by decide : (0 + 1 : BitVec 32) ≠ 0)) rfl, by decide⟩
  obtain ⟨s, hs, hsize⟩ := hrun
  exact ⟨s, hs, hsize, (pin_sizes_exact hs).1⟩

/-- Destroyed while it is pinned, the BO leaves its visible bytes in the counter. -/
theorem visible_pin_size_leaks :
    ¬ ∀ d s, State.Reachable d (fun _ _ => True) s → s.Exact d ∧ 0 ≤ s.pinSize := by
  intro h
  have hrun : ∃ s, [.create 0 fourPages, pinAcross, .destroy 0].foldlM
      (State.step halfVisible) noBos = some s ∧ s.live = ∅ ∧ s.pinSize ≠ 0 :=
    ⟨_, rfl, by decide, by decide⟩
  obtain ⟨s, hs, hlive, hsize⟩ := hrun
  have hreach : State.Reachable halfVisible (fun _ _ => True) s :=
    Transition.Reach.foldlM (.start ⟨rfl, rfl⟩) (fun _ _ _ => trivial) hs
  have hexact := (h _ s hreach).1
  rw [State.Exact, hlive, Finset.sum_empty] at hexact
  exact hsize hexact

end Gsgpu.Vram.Pin
