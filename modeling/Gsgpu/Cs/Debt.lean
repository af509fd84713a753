import Gsgpu.Cs.Termination
import Gsgpu.Throttle

/-! A submission that may not move any more, as it is when earlier ones have moved too much. -/
namespace Gsgpu.Validation
open Vram Throttle

variable {j : Job} {T : Ttm} {w : Which} {s : Parser} {compat : ℕ → Domain → Place → Bool}

/-- `ttm_bo_mem_compat`: a BO that is where it is asked to be stays there. A BO in system memory has
its `ttm` then. -/
def Ttm.Stays (T : Ttm) (compat : ℕ → Domain → Place → Bool) : Prop :=
  ∀ s b domain, compat b domain (s.mem b) → T.validate s b domain = (.ok (s.mem b), 0)

/-- It is pinned, or where it is allowed to be. -/
def Job.AtRest (j : Job) (compat : ℕ → Domain → Place → Bool) (s : Parser) (b : ℕ) : Prop :=
  (j.bo b).pinCount ≠ 0 ∨ compat b (j.bo b).allowedDomains (s.mem b)

/-- The entries of the list have user pages for which nothing is to be done, and their BOs and
shadows are at rest. -/
structure Job.Resting (j : Job) (compat : ℕ → Domain → Place → Bool) (s : Parser) (w : Which) :
    Prop where
  own : ∀ e ∈ s.list w, ¬ j.Foreign (j.robj e)
  pages : ∀ e ∈ s.list w, (s.needsPages j (j.robj e) && s.userPages e) = false
  atRest : ∀ e ∈ s.list w, j.AtRest compat s (j.robj e)
  shadow : ∀ e ∈ s.list w, ∀ b, (j.bo (j.robj e)).shadow = some b → j.AtRest compat s b

/-- Once the allowance is used up, a BO at rest is left alone, whatever it prefers. -/
theorem csBoValidate_atRest (hT : T.Stays compat) (hmoved : j.bytesMovedThreshold ≤ s.bytesMoved)
    {b : ℕ} (h : j.AtRest compat s b) : csBoValidate j T s b = (.ok (), s) := by
  unfold csBoValidate
  by_cases hpin : (j.bo b).pinCount ≠ 0
  · rw [if_pos hpin]
  · have hcompat := h.resolve_left hpin
    have hdomain : firstDomain j s b = (j.bo b).allowedDomains :=
      if_neg (UInt64.not_lt.mpr hmoved)
    have hattempt : csBoAttempt j T s b (j.bo b).allowedDomains 0 = (.ok (), 0, s) := by
      simp [csBoAttempt, ttmBoValidate, hT s b _ hcompat]
    rw [if_neg hpin]
    simp [hdomain, hattempt]

theorem csValidate_atRest (hT : T.Stays compat) (hmoved : j.bytesMovedThreshold ≤ s.bytesMoved)
    {b : ℕ} (h : j.AtRest compat s b)
    (hshadow : ∀ b', (j.bo b).shadow = some b' → j.AtRest compat s b') (fuel : ℕ) :
    csValidate j T (fuel + 1) s b = some (.ok (), s) := by
  unfold csValidate
  rw [csBoValidate_atRest hT hmoved h]
  dsimp only
  cases hb : (j.bo b).shadow with
  | none => rfl
  | some shadow =>
    dsimp only
    rw [csBoValidate_atRest hT hmoved (hshadow shadow hb)]

theorem passEvictable_eq (s : Parser) (e : ℕ) :
    ∃ evictable, s.passEvictable e = { s with evictable := evictable } := by
  unfold Parser.passEvictable
  split
  · exact ⟨.null, rfl⟩
  · exact ⟨s.evictable, rfl⟩

theorem Job.Resting.setEvictable (h : j.Resting compat s w) (evictable : Evictable) :
    j.Resting compat { s with evictable := evictable } w :=
  ⟨h.own, h.pages, h.atRest, h.shadow⟩

theorem Job.Resting.passEvictable (h : j.Resting compat s w) (e : ℕ) :
    j.Resting compat (s.passEvictable e) w := by
  obtain ⟨evictable, heq⟩ := passEvictable_eq s e
  rw [heq]
  exact h.setEvictable evictable

theorem csVisit_atRest (hT : T.Stays compat) (hmoved : j.bytesMovedThreshold ≤ s.bytesMoved)
    (h : j.Resting compat s w) {e : ℕ} (he : e ∈ s.list w) (fuel : ℕ) :
    csVisit j T (fuel + 1) s e = some (.ok (), s.passEvictable e) := by
  have hbind : bindUserPages j T s e = (.ok false, s) := by
    simp [bindUserPages, h.pages e he]
  have hmoved' : j.bytesMovedThreshold ≤ (s.passEvictable e).bytesMoved := by
    obtain ⟨evictable, heq⟩ := passEvictable_eq s e
    rwa [heq]
  have hrest := h.passEvictable e
  have he' : e ∈ (s.passEvictable e).list w := by rwa [passEvictable_list]
  unfold csVisit
  rw [if_neg (h.own e he), hbind]
  dsimp only
  rw [csValidate_atRest hT hmoved' (hrest.atRest e he') (hrest.shadow e he')]
  rfl

/-- The rest of a walk moves nothing. -/
theorem listLoop_atRest (hT : T.Stays compat) {post : List ℕ} {fuel : ℕ}
    (hmoved : j.bytesMovedThreshold ≤ s.bytesMoved) (hs : s.Listed) (h : j.Resting compat s w)
    (hsplit : ∃ pre, s.list w = pre ++ post) (hfuel : post.length < fuel) :
    ∃ evictable, Parser.Listed { s with evictable := evictable } ∧
      listLoop j T w fuel s post.head? = some (.ok (), { s with evictable := evictable }) := by
  induction post generalizing s fuel with
  | nil =>
    cases fuel with
    | zero => cases hfuel
    | succ fuel => exact ⟨s.evictable, hs, rfl⟩
  | cons e post ih =>
    obtain ⟨fuel, rfl⟩ : ∃ n, fuel = n + 2 := by
      rw [List.length_cons] at hfuel
      exact ⟨fuel - 2, by omega⟩
    obtain ⟨pre, hpre⟩ := hsplit
    have he : e ∈ s.list w := by simp [hpre]
    have hs' := hs.passEvictable e
    have hat : (s.passEvictable e).At w e post := ⟨hs', pre, by rwa [passEvictable_list]⟩
    obtain ⟨ev, heq⟩ := passEvictable_eq s e
    have hrest : ∃ evictable, Parser.Listed { s.passEvictable e with evictable := evictable } ∧
        listLoop j T w (fuel + 1) (s.passEvictable e) post.head? =
          some (.ok (), { s.passEvictable e with evictable := evictable }) := by
      apply ih
      case hmoved => rwa [heq]
      case hs => exact hs'
      case h => exact h.passEvictable e
      case hsplit => exact ⟨pre ++ [e], by simp [passEvictable_list, hpre]⟩
      case hfuel => simpa using hfuel
    obtain ⟨evictable, hlisted, hloop⟩ := hrest
    refine ⟨evictable, by rwa [heq] at hlisted, ?_⟩
    change listLoop j T w (fuel + 2) s (some e) = _
    unfold listLoop
    rw [csVisit_atRest hT hmoved h he]
    dsimp only
    rw [hat.nextEntry, hloop, heq]

/-- A walk over a list that rests moves nothing once the allowance is used up. -/
theorem csListValidate_atRest (hT : T.Stays compat)
    (hmoved : j.bytesMovedThreshold ≤ s.bytesMoved) (hs : s.Listed) (h : j.Resting compat s w)
    {fuel : ℕ} (hfuel : (s.list w).length < fuel) :
    ∃ evictable, Parser.Listed { s with evictable := evictable } ∧
      csListValidate j T w fuel s = some (.ok (), { s with evictable := evictable }) :=
  listLoop_atRest hT hmoved hs h ⟨[], rfl⟩ hfuel

/-- Earlier submissions have spent more time on moves than has passed. For one that asks now, the
walks over its duplicates and its list succeed and move no BO, as long as each is where it is
allowed to be: where it would rather be does not matter. -/
theorem no_moves_in_debt {stats : MmStats} {evs : List Event} (hlog : stats.log2MaxMBps ≠ 0)
    (hscarce : ∀ ev ∈ evs, ev.scarce) {v : Reading} (hv : v.plenty = false) {timeUs : ℤ}
    (hdebt : stats.accumUs + (timeUs - stats.lastUpdateUs) ≤ stats.moved evs)
    (hj : j.bytesMovedThreshold = ((stats.run evs).getThresholdForMoves v timeUs).1.1)
    (hT : T.Stays compat) (hs : s.Listed) (h : ∀ w, j.Resting compat s w) {fuel : ℕ}
    (hfuel : ∀ w, (s.list w).length < fuel) : ∃ evictable evictable',
      csListValidate j T .duplicates fuel s = some (.ok (), { s with evictable := evictable }) ∧
      csListValidate j T .validated fuel { s with evictable := evictable } =
        some (.ok (), { s with evictable := evictable' }) := by
  have hmoved : j.bytesMovedThreshold ≤ s.bytesMoved := by
    rw [hj, MmStats.threshold_in_debt hlog hscarce hv hdebt]
    exact UInt64.zero_le
  obtain ⟨evictable, hlisted, hduplicates⟩ :=
    csListValidate_atRest hT hmoved hs (h .duplicates) (hfuel .duplicates)
  obtain ⟨evictable', -, hvalidated⟩ := csListValidate_atRest
    (s := { s with evictable := evictable }) hT hmoved hlisted
    ((h .validated).setEvictable evictable) (hfuel .validated)
  exact ⟨evictable, evictable', hduplicates, hvalidated⟩

/-- A TTM that has no memory for a BO that is not where it is asked to be. -/
def Ttm.full : Ttm where
  validate s b domain :=
    if (s.mem b).memType ∈ placements domain then (.ok (s.mem b), 0) else (.error .enomem, 0)
  placed := by
    intro s b domain m hm
    split at hm
    · next hin =>
      cases hm
      exact hin
    · cases hm

/-- A BO that would rather be in VRAM, but is in the GART. -/
def expelled : Job where
  bo _ := ⟨{.vram, .tt}, {.vram}, 0, false, none, none, false, 0, by decide, by decide⟩
  robj := id
  bytesMovedThreshold := 0
  bytesMovedVisThreshold := 0
  vramFullVisible := true
  mm := 7

def inGart : Parser where
  validated := [0]
  duplicates := []
  evictable := .entry 0
  bytesMoved := 0
  bytesMovedVis := 0
  mem _ := ⟨.tt, false⟩
  userPages _ := false
  lastSetPages _ := 0
  pages _ := none

theorem no_moves_in_debt_overdrawn : (expelled.bo 0).preferredDomains = {.vram} ∧
    (inGart.mem 0).memType = .tt ∧ ∃ evictable evictable',
      csListValidate expelled .full .duplicates 2 inGart =
        some (.ok (), { inGart with evictable := evictable }) ∧
      csListValidate expelled .full .validated 2 { inGart with evictable := evictable } =
        some (.ok (), { inGart with evictable := evictable' }) := by
  refine ⟨rfl, rfl, ?_⟩
  have hstays : Ttm.full.Stays fun _ domain m => decide (m.memType ∈ placements domain) :=
    fun s b domain hcompat => if_pos (of_decide_eq_true hcompat)
  have hlisted : inGart.Listed := ⟨by decide, by decide, by simp [inGart]⟩
  have hrest : ∀ w, expelled.Resting (fun _ domain m => decide (m.memType ∈ placements domain))
      inGart w := by
    intro w
    constructor
    case own => exact fun e _ hforeign => hforeign.1 rfl
    case pages => exact fun e _ => rfl
    case atRest =>
      intro e _
      exact .inr (show decide (MemType.tt ∈ placements {.vram, .tt}) = true by decide)
    case shadow => exact fun e _ b hb => by cases hb
  have hfuel : ∀ w, (inGart.list w).length < 2 := by
    intro w
    cases w <;> decide
  let stats : MmStats := ⟨3, 0, 0, 0⟩
  have hdebt : stats.accumUs + (150 - stats.lastUpdateUs) ≤ stats.moved MmStats.overdrawn := by
    decide
  exact no_moves_in_debt (by decide) (by decide)
    (v := ⟨1000, 0, 1000, 1000, 1000, true, false⟩) rfl hdebt rfl hstays hlisted hrest hfuel

end Gsgpu.Validation
