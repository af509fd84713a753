import Gsgpu.Sched.Placed
import Mathlib.Data.Finset.Card
import Mathlib.Data.Finset.Range
import Mathlib.Data.Finset.Dedup

/-! `hw_rq_count` is the number of jobs that a scheduler has on its ring or is about to put there,
and never more than `hw_submission_limit`. -/
namespace Gsgpu.Sched.Pipeline

attribute [local grind =] Function.update_apply

variable {p p' : Pipeline}

/-- The jobs of a scheduler that are counted in `hw_rq_count`. -/
def flight (p : Pipeline) (s : ℕ) : Finset ℕ :=
  (Finset.range p.next).filter fun j => (p.stage j).inFlight ∧ p.sched j = s

theorem Placed.lt_next (hp : Placed p) {j : ℕ} (h : p.stage j ≠ .unborn) : j < p.next :=
  not_le.mp fun hle => h ((hp.fresh j).mp hle)

theorem mem_flight (hp : Placed p) {s j : ℕ} :
    j ∈ p.flight s ↔ (p.stage j).inFlight ∧ p.sched j = s := by
  unfold flight
  rw [Finset.mem_filter, Finset.mem_range, and_iff_right_of_imp]
  intro h
  apply hp.lt_next
  intro heq
  rw [heq] at h
  cases h.1

/-- The count is that of the jobs in flight, there is room for them, and for the one in hand. -/
structure Counted (p : Pipeline) : Prop where
  count : ∀ s, p.hwRqCount s = UInt32.ofNat (p.flight s).card
  le_limit : ∀ s, (p.flight s).card ≤ (p.hwSubmissionLimit s).toNat
  lt_limit : ∀ j, p.stage j = .popped →
    (p.flight (p.sched j)).card < (p.hwSubmissionLimit (p.sched j)).toNat

theorem Initial.counted (h : Initial p) : Counted p := by
  obtain ⟨hn, hst, -, -, -, hc, -⟩ := h
  have hempty : ∀ s, p.flight s = ∅ := by
    intro s
    unfold flight
    rw [hn]
    rfl
  constructor
  · intro s
    rw [hc, hempty]
    rfl
  · intro s
    rw [hempty]
    exact Nat.zero_le _
  · intro j hj
    rw [hst] at hj
    cases hj

/-- The count read as a number. -/
theorem Counted.toNat (hc : Counted p) (s : ℕ) : (p.hwRqCount s).toNat = (p.flight s).card := by
  rw [hc.count, UInt32.toNat_ofNat']
  exact Nat.mod_eq_of_lt ((hc.le_limit s).trans_lt (p.hwSubmissionLimit s).toNat_lt)

/-- One scheduler's flight and count change, by the same amount. -/
theorem Counted.moved (hc : Counted p) {s : ℕ}
    (hother : ∀ i, i ≠ s → p'.flight i = p.flight i ∧ p'.hwRqCount i = p.hwRqCount i)
    (hlimit : p'.hwSubmissionLimit = p.hwSubmissionLimit)
    (hcount : p'.hwRqCount s = UInt32.ofNat (p'.flight s).card)
    (hle : (p'.flight s).card ≤ (p.hwSubmissionLimit s).toNat)
    (hpopped : ∀ j, p'.stage j = .popped →
      (p'.flight (p'.sched j)).card < (p.hwSubmissionLimit (p'.sched j)).toNat) : Counted p' where
  count := by
    intro i
    by_cases hi : i = s
    · exact hi ▸ hcount
    · rw [(hother i hi).1, (hother i hi).2]
      exact hc.count i
  le_limit := by
    intro i
    rw [hlimit]
    by_cases hi : i = s
    · exact hi ▸ hle
    · rw [(hother i hi).1]
      exact hc.le_limit i
  lt_limit := by
    rw [hlimit]
    exact hpopped

/-- Nothing that is counted changes. -/
theorem Counted.quiet (hc : Counted p) (hflight : ∀ s, p'.flight s = p.flight s)
    (hcount : p'.hwRqCount = p.hwRqCount) (hlimit : p'.hwSubmissionLimit = p.hwSubmissionLimit)
    (hpopped : ∀ j, p'.stage j = .popped → p.stage j = .popped ∧ p'.sched j = p.sched j) :
    Counted p' where
  count := by
    intro s
    rw [hflight, hcount]
    exact hc.count s
  le_limit := by
    intro s
    rw [hflight, hlimit]
    exact hc.le_limit s
  lt_limit := by
    intro j hj
    obtain ⟨hj, hs⟩ := hpopped j hj
    rw [hs, hflight, hlimit]
    exact hc.lt_limit j hj

/-- A job that is done leaves the flight. -/
theorem Counted.left (hc : Counted p) (hp : Placed p) (hp' : Placed p') {j : ℕ}
    (hj : (p.stage j).inFlight) (hstage : p'.stage = Function.update p.stage j .finished)
    (hsched : p'.sched = p.sched) (hlimit : p'.hwSubmissionLimit = p.hwSubmissionLimit)
    (hcount : p'.hwRqCount =
      Function.update p.hwRqCount (p.sched j) (p.hwRqCount (p.sched j) - 1)) : Counted p' := by
  have herase : ∀ s, p'.flight s = (p.flight s).erase j := by
    intro s
    ext i
    rw [Finset.mem_erase, mem_flight hp', mem_flight hp, hstage, hsched]
    grind
  have hmem : j ∈ p.flight (p.sched j) := (mem_flight hp).mpr ⟨hj, rfl⟩
  have hcard := Finset.card_erase_add_one hmem
  have hother : ∀ s, p.sched j ≠ s → p'.flight s = p.flight s := by
    intro s hs
    rw [herase]
    exact Finset.erase_eq_of_notMem fun hmem => hs ((mem_flight hp).mp hmem).2
  have hle : ∀ s, (p'.flight s).card ≤ (p.flight s).card := by
    intro s
    rw [herase]
    exact Finset.card_erase_le
  apply hc.moved (s := p.sched j)
  case hother =>
    intro i hi
    exact ⟨hother i hi.symm, by rw [hcount, Function.update_of_ne hi]⟩
  case hlimit => exact hlimit
  case hcount =>
    rw [hcount, Function.update_self, hc.count, herase, ← hcard, UInt32.ofNat_add]
    simp
  case hle => exact (hle _).trans (hc.le_limit _)
  case hpopped =>
    intro i hi
    rw [hstage] at hi
    rw [hsched]
    by_cases hij : i = j
    · rw [hij, Function.update_self] at hi
      cases hi
    · rw [Function.update_of_ne hij] at hi
      exact (hle _).trans_lt (hc.lt_limit i hi)

/-- The job in hand is counted. -/
theorem Counted.entered (hc : Counted p) (hp : Placed p) (hp' : Placed p') {j : ℕ}
    (hj : p.stage j = .popped) (hstage : p'.stage = Function.update p.stage j .counted)
    (hsched : p'.sched = p.sched) (hlimit : p'.hwSubmissionLimit = p.hwSubmissionLimit)
    (hcount : p'.hwRqCount =
      Function.update p.hwRqCount (p.sched j) (p.hwRqCount (p.sched j) + 1)) : Counted p' := by
  have hself : p'.flight (p.sched j) = insert j (p.flight (p.sched j)) := by
    ext i
    rw [Finset.mem_insert, mem_flight hp', mem_flight hp, hstage, hsched]
    grind
  have hother : ∀ s, s ≠ p.sched j → p'.flight s = p.flight s := by
    intro s hs
    ext i
    rw [mem_flight hp', mem_flight hp, hstage, hsched]
    grind
  have hnot : j ∉ p.flight (p.sched j) := by
    intro hmem
    have hin := ((mem_flight hp).mp hmem).1
    rw [hj] at hin
    cases hin
  have hcard := (congrArg Finset.card hself).trans (Finset.card_insert_of_notMem hnot)
  apply hc.moved (s := p.sched j)
  case hother =>
    intro i hi
    exact ⟨hother i hi, by rw [hcount, Function.update_of_ne hi]⟩
  case hlimit => exact hlimit
  case hcount =>
    rw [hcount, Function.update_self, hcard, UInt32.ofNat_add, ← hc.count]
    rfl
  case hle =>
    rw [hcard]
    exact hc.lt_limit j hj
  case hpopped =>
    intro i hi
    rw [hstage] at hi
    rw [hsched]
    by_cases hij : i = j
    · rw [hij, Function.update_self] at hi
      cases hi
    · rw [Function.update_of_ne hij] at hi
      have hs : p.sched i ≠ p.sched j := by
        intro hs
        have hi' := (hp.held (p.sched i) i).mpr ⟨by rw [hi]; rfl, rfl⟩
        have hj' := (hp.held (p.sched j) j).mpr ⟨by rw [hj]; rfl, rfl⟩
        rw [hs, hj'] at hi'
        exact hij (Option.some.inj hi').symm
      rw [hother _ hs]
      exact hc.lt_limit i hi

/-- The jobs that a reset takes off the count are on the mirror list. -/
theorem reset_flight (hp : Placed p) (hp' : Placed p') (s : ℕ) (lost : ℕ → Bool)
    (hstage : p'.stage = fun j => if p.stage j = .attached ∧ p.sched j = s ∧ lost j then .detached
      else p.stage j) (hsched : p'.sched = p.sched) :
    p'.flight s = p.flight s \ ((p.mirror s).filter fun j =>
      p.stage j = .attached ∧ lost j).toFinset ∧ ∀ i, i ≠ s → p'.flight i = p.flight i := by
  have hmirrored := hp.mirrored s
  constructor
  · ext j
    rw [Finset.mem_sdiff, mem_flight hp', mem_flight hp, List.mem_toFinset, List.mem_filter,
      hstage, hsched]
    grind
  · intro i hi
    ext j
    rw [mem_flight hp', mem_flight hp, hstage, hsched]
    grind

theorem Counted.reset (hc : Counted p) (hp : Placed p) (hp' : Placed p') (s : ℕ) (lost : ℕ → Bool)
    (hstage : p'.stage = fun j => if p.stage j = .attached ∧ p.sched j = s ∧ lost j then .detached
      else p.stage j) (hsched : p'.sched = p.sched)
    (hlimit : p'.hwSubmissionLimit = p.hwSubmissionLimit)
    (hcount : p'.hwRqCount = Function.update p.hwRqCount s (p.hwRqCount s -
      UInt32.ofNat ((p.mirror s).countP fun j => p.stage j = .attached ∧ lost j))) :
    Counted p' := by
  obtain ⟨hself, hother⟩ := reset_flight hp hp' s lost hstage hsched
  let out := (p.mirror s).filter fun j => p.stage j = .attached ∧ lost j
  have hnodup : out.Nodup := (hp.mirror_nodup s).filter _
  have hsub : out.toFinset ⊆ p.flight s := by
    intro j hj
    obtain ⟨hmem, hlost⟩ := List.mem_filter.mp (List.mem_toFinset.mp hj)
    rw [mem_flight hp]
    have hs := (hp.mirrored s j).mp hmem
    have hat : p.stage j = .attached := (of_decide_eq_true hlost).1
    exact ⟨by rw [hat]; rfl, hs.2⟩
  have hcard : (p'.flight s).card = (p.flight s).card - out.length := by
    rw [hself, Finset.card_sdiff_of_subset hsub, List.toFinset_card_of_nodup hnodup]
  have hout : out.length ≤ (p.flight s).card := by
    rw [← List.toFinset_card_of_nodup hnodup]
    exact Finset.card_le_card hsub
  have hle : ∀ i, (p'.flight i).card ≤ (p.flight i).card := by
    intro i
    by_cases hi : i = s
    · rw [hi, hcard]
      exact Nat.sub_le _ _
    · rw [hother i hi]
  apply hc.moved (s := s)
  case hother =>
    intro i hi
    exact ⟨hother i hi, by rw [hcount, Function.update_of_ne hi]⟩
  case hlimit => exact hlimit
  case hcount =>
    rw [hcount, Function.update_self, hc.count, hcard, List.countP_eq_length_filter]
    apply UInt32.toNat_inj.mp
    have hbound := ((hc.le_limit s).trans_lt (p.hwSubmissionLimit s).toNat_lt)
    rw [UInt32.toNat_sub_of_le]
    all_goals simp only [UInt32.le_iff_toNat_le, UInt32.toNat_ofNat']
    · rw [Nat.mod_eq_of_lt hbound, Nat.mod_eq_of_lt (hout.trans_lt hbound),
        Nat.mod_eq_of_lt ((Nat.sub_le _ _).trans_lt hbound)]
    · rw [Nat.mod_eq_of_lt hbound, Nat.mod_eq_of_lt (hout.trans_lt hbound)]
      exact hout
  case hle => exact (hle _).trans (hc.le_limit _)
  case hpopped =>
    intro j hj
    rw [hstage] at hj
    rw [hsched]
    have hj : p.stage j = .popped := by
      beta_reduce at hj
      by_cases hlost : p.stage j = .attached ∧ p.sched j = s ∧ lost j
      · rw [if_pos hlost] at hj
        cases hj
      · rwa [if_neg hlost] at hj
    exact (hle _).trans_lt (hc.lt_limit j hj)

theorem Counted.step (hc : Counted p) (hp : Placed p) (h : Step p p') : Counted p' := by
  have hp' := hp.step h
  have hquiet : (∀ j, (p'.stage j).inFlight = true ↔ (p.stage j).inFlight = true) →
      p'.sched = p.sched → ∀ s, p'.flight s = p.flight s := by
    intro hin hsched s
    ext j
    rw [mem_flight hp', mem_flight hp, hin, hsched]
  have hfresh := hp.fresh
  cases h with
  | make e s =>
    apply hc.quiet
    case hcount | hlimit => rfl
    case hflight =>
      intro s'
      ext j
      rw [mem_flight hp', mem_flight hp]
      simp only [setStage]
      grind
    case hpopped =>
      simp only [setStage]
      grind
  | @take s e j rest hj he hq hs hhand hroom hkilled hlast =>
    have hsame := hquiet (by simp only [setStage]; grind) rfl
    rw [UInt32.lt_iff_toNat_lt, hc.toNat] at hroom
    constructor
    · intro i
      rw [hsame]
      exact hc.count i
    · intro i
      rw [hsame]
      exact hc.le_limit i
    · intro i hi
      rw [hsame]
      by_cases hij : i = j
      · rw [hij]
        exact hs.symm ▸ hroom
      · simp only [setStage, Function.update_of_ne hij] at hi
        exact hc.lt_limit i hi
  | count hj => exact hc.entered hp hp' hj rfl rfl rfl rfl
  | passed hj => exact hc.left hp hp' (by rw [hj]; rfl) rfl rfl rfl rfl
  | process hj => exact hc.left hp hp' (by rw [hj]; rfl) rfl rfl rfl rfl
  | reset s lost => exact hc.reset hp hp' s lost rfl rfl rfl rfl
  | _ =>
    apply hc.quiet
    case hcount | hlimit => rfl
    case hflight => exact hquiet (by simp only [setStage]; grind) rfl
    case hpopped =>
      simp only [setStage]
      grind

/-- A job that is in flight and in no hand was in flight before. -/
theorem Step.inFlight (hp : Placed p) (h : Step p p') {j : ℕ} (hj : (p'.stage j).inFlight)
    (hnot : (p'.stage j).inHand = false) : (p.stage j).inFlight ∧ p.sched j = p'.sched j := by
  have hfresh := hp.fresh
  cases h <;> simp only [setStage] at hj hnot ⊢ <;> grind

theorem Step.limit (h : Step p p') : p'.hwSubmissionLimit = p.hwSubmissionLimit := by
  cases h <;> rfl

end Gsgpu.Sched.Pipeline
