import Gsgpu.Userptr.Reservations

/-! The pages of a job against the invalidations that completed before it was pushed. Three 32-bit
values decide: `mmu_invalidations`, the `last_set_pages` of the BO and the `user_invalidated` of
the entry. Equal values have to mean that no invalidation of the BO was missed. -/
namespace Gsgpu.Userptr

variable (robj numPages : ℕ → ℕ)

/-- The step misses no invalidation. Pages are installed only with the counter where the check of
the entry saw it, and looked up only with a counter that has moved since the check or with no
invalidation of the BO under way; the counter does not come around to a value that is still kept.
Lists in use by a submission are not linked again, and a submission unreserves only what it has
reserved. -/
def Event.Timely (s : State) : Event → Prop
  | .affectUserptr _ b =>
    (s.bo b).mmuInvalidations + 1 ≠ (s.bo b).lastSetPages ∧
      ∀ e, s.InUse e → robj e = b → (s.entry e).userPages ≠ none →
        (s.bo b).mmuInvalidations + 1 ≠ (s.entry e).userInvalidated
  | .getList _ es => ∀ e ∈ es, ¬ s.InUse e
  | .check p => ∀ e todo, (s.cs p).phase = .check (e :: todo) → (s.bo (robj e)).needsPages →
      ((s.entry e).userInvalidated = (s.bo (robj e)).mmuInvalidations →
        (s.entry e).userPages = none) →
      (s.bo (robj e)).resv = some p
  | .leaveCheck p => (s.cs p).phase = .check [] → (s.cs p).needPages ≠ [] →
      ∀ e ∈ (s.cs p).validated, (s.bo (robj e)).resv = some p
  | .pin p _ => ∀ e todo, (s.cs p).phase = .pin e todo →
      (s.entry e).userInvalidated = (s.bo (robj e)).mmuInvalidations →
      ∀ a ∈ s.affected, a.2 ≠ robj e
  | .validate _ e => (s.bo (robj e)).needsPages → (s.entry e).userPages ≠ none →
      (s.entry e).userInvalidated = (s.bo (robj e)).mmuInvalidations
  | _ => True

/-- Where the counter is as it was kept, the pages were looked up after all invalidations. -/
structure State.Current (s : State) : Prop where
  pages : ∀ b, (s.bo b).lastSetPages = (s.bo b).mmuInvalidations →
    ∀ t ∈ (s.bo b).pages, t = s.started b
  fresh : ∀ b, (s.bo b).handle = false → (s.bo b).lastSetPages = (s.bo b).mmuInvalidations →
    s.started b = 0
  userPages : ∀ e, s.InUse e → ∀ ps, (s.entry e).userPages = some ps →
    (s.entry e).userInvalidated = (s.bo (robj e)).mmuInvalidations →
    ∀ t ∈ ps, t = s.started (robj e)

structure State.Inv (s : State) : Prop where
  current : s.Current robj
  owned : ∀ p, (s.cs p).Owned robj s.bo p
  pushed : s.PagesCurrent

variable {robj numPages} {s s' : State} {p : ℕ}

theorem State.started_congr {b : ℕ} (hb : (s'.bo b).completed = (s.bo b).completed)
    (ha : s'.affected = s.affected) : s'.started b = s.started b := by
  simp only [State.started, hb, ha]

/-- With no invalidation of the BO under way, all that were counted are complete. -/
theorem State.started_eq_completed {b : ℕ} (h : ∀ a ∈ s.affected, a.2 ≠ b) :
    s.started b = (s.bo b).completed := by
  have : s.affected.countP (fun a => a.2 == b) = 0 :=
    List.countP_eq_zero.mpr fun a ha => by simpa using h a ha
  rw [State.started, this, Nat.add_zero]

/-- Only reservations change, and entries lose pages or go out of use. -/
theorem State.Current.of_frame (h : s.Current robj)
    (hbo : ∀ b, s'.bo b = { s.bo b with resv := (s'.bo b).resv })
    (ha : s'.affected = s.affected)
    (he : ∀ e, s'.InUse e → (s'.entry e).userPages ≠ none →
      s.InUse e ∧ s'.entry e = s.entry e) : s'.Current robj := by
  have hstarted : ∀ b, s'.started b = s.started b :=
    fun b => State.started_congr (by rw [hbo]) ha
  refine ⟨fun b => ?_, fun b => ?_, fun e hu ps hps => ?_⟩
  · rw [hbo, hstarted]
    exact h.pages b
  · rw [hbo, hstarted]
    exact h.fresh b
  · obtain ⟨hu', heq⟩ := he e hu (by simp [hps])
    rw [heq] at hps
    rw [hbo, heq, hstarted]
    exact h.userPages e hu' ps hps

/-- A BO changes, but not its invalidations. -/
theorem State.Current.setBo (h : s.Current robj) {b : ℕ} {x : Bo}
    (hc : x.completed = (s.bo b).completed)
    (hm : x.mmuInvalidations = (s.bo b).mmuInvalidations)
    (hp : x.lastSetPages = x.mmuInvalidations → ∀ t ∈ x.pages, t = s.started b)
    (hf : x.handle = false → x.lastSetPages = x.mmuInvalidations → s.started b = 0) :
    (s.setBo b x).Current robj := by
  have hstarted : ∀ b', (s.setBo b x).started b' = s.started b' := by
    intro b'
    refine State.started_congr ?_ rfl
    by_cases hb : b' = b
    · subst hb
      simpa [State.setBo] using hc
    · simp [State.setBo, hb]
  refine ⟨fun b' => ?_, fun b' => ?_, fun e hu ps hps he => ?_⟩
  · rw [hstarted]
    by_cases hb : b' = b
    · subst hb
      simpa [State.setBo] using hp
    · simpa [State.setBo, hb] using h.pages b'
  · rw [hstarted]
    by_cases hb : b' = b
    · subst hb
      simpa [State.setBo] using hf
    · simpa [State.setBo, hb] using h.fresh b'
  · rw [hstarted]
    refine h.userPages e hu ps hps ?_
    by_cases hb : robj e = b
    · simpa [State.setBo, hb, hm] using he
    · simpa [State.setBo, hb] using he

theorem inUse_setCs {c : Cs} {e : ℕ} (hi : c.phase ≠ .idle → (s.cs p).phase ≠ .idle)
    (hc : c.entries = (s.cs p).entries) (hcs : s'.cs = Function.update s.cs p c)
    (h : s'.InUse e) : s.InUse e := by
  obtain ⟨q, hq, he⟩ := h
  rw [hcs] at hq he
  by_cases hqp : q = p
  · subst hqp
    simp only [Function.update_self] at hq he
    exact ⟨q, hi hq, hc ▸ he⟩
  · simp only [Function.update_apply, hqp, if_false] at hq he
    exact ⟨q, hq, he⟩

/-- Every submission is as before but one. -/
theorem owned_update {bo bo' : ℕ → Bo} {cs : ℕ → Cs} {c : Cs}
    (h : ∀ q, (cs q).Owned robj bo q) (hc : c.Owned robj bo' p)
    (ha : ∀ q, q ≠ p → Agree q bo bo') (q : ℕ) :
    (Function.update cs p c q).Owned robj bo' q := by
  by_cases hq : q = p
  · subst hq
    simpa using hc
  · simp only [Function.update_apply, hq, if_false]
    exact (h q).of_agree (ha q hq)

/-! The invalidations and `gsgpu_gem_userptr_ioctl`. -/

theorem State.Inv.rangeStart (h : s.Inv robj) {i : ℕ} (hs : s.rangeStart i = some s') :
    s'.Inv robj := by
  simp only [State.rangeStart] at hs
  split at hs
  case isTrue => cases hs
  case isFalse =>
    cases hs
    exact ⟨⟨h.current.pages, h.current.fresh, h.current.userPages⟩, h.owned, h.pushed⟩

theorem State.Inv.affectUserptr (h : s.Inv robj) {i b : ℕ}
    (hg : Event.Timely robj s (.affectUserptr i b)) (hs : s.affectUserptr i b = some s') :
    s'.Inv robj := by
  simp only [State.affectUserptr] at hs
  split at hs
  case isFalse => cases hs
  case isTrue =>
    cases hs
    obtain ⟨hset, huser⟩ := hg
    refine ⟨⟨fun b' hb' => ?_, fun b' hh hb' => ?_, fun e hu ps hps he => ?_⟩, fun q => ?_,
      h.pushed⟩
    · by_cases hb : b' = b
      · subst hb
        simp only [State.setBo, Function.update_self] at hb'
        exact absurd hb'.symm hset
      · simp only [State.setBo, Function.update_apply, hb, if_false] at hb' ⊢
        simpa [State.started, Function.update_apply, hb, Ne.symm hb] using h.current.pages b' hb'
    · by_cases hb : b' = b
      · subst hb
        simp only [State.setBo, Function.update_self] at hb'
        exact absurd hb'.symm hset
      · simp only [State.setBo, Function.update_apply, hb, if_false] at hb' hh
        simpa [State.started, State.setBo, Function.update_apply, hb, Ne.symm hb]
          using h.current.fresh b' hh hb'
    · by_cases hb : robj e = b
      · simp only [State.setBo, hb, Function.update_self] at he
        exact absurd he.symm (huser e hu hb (by simpa [State.setBo] using hps ▸ nofun))
      · simp only [State.setBo, Function.update_apply, hb, if_false] at he
        simpa [State.started, State.setBo, Function.update_apply, hb, Ne.symm hb]
          using h.current.userPages e hu ps hps he
    · refine (h.owned q).of_agree fun b' => ?_
      by_cases hb : b' = b
      · subst hb
        simp [State.setBo]
      · simp [State.setBo, hb]

theorem State.Inv.rangeEnd (h : s.Inv robj) {i : ℕ} (hs : s.rangeEnd i = some s') :
    s'.Inv robj := by
  simp only [State.rangeEnd] at hs
  split at hs
  case isFalse => cases hs
  case isTrue =>
    cases hs
    -- what the invalidation had counted is complete now
    have hcount : ∀ b, (s.bo b).completed +
        (s.affected.filter fun a => a.1 == i).countP (fun a => a.2 == b) +
        (s.affected.filter fun a => !(a.1 == i)).countP (fun a => a.2 == b) = s.started b := by
      intro b
      rw [Nat.add_assoc, State.started,
        ← List.countP_eq_countP_filter_add s.affected (fun a => a.2 == b) fun a => a.1 == i]
    refine ⟨⟨fun b hb t ht => ?_, fun b hh hb => ?_, fun e hu ps hps he t ht => ?_⟩, fun q => ?_,
      h.pushed⟩
    · exact (h.current.pages b hb t ht).trans (hcount b).symm
    · exact (hcount b).trans (h.current.fresh b hh hb)
    · exact (h.current.userPages e hu ps hps he t ht).trans (hcount _).symm
    · exact (h.owned q).of_agree fun _ => ⟨Iff.rfl, fun _ => rfl, id⟩

theorem State.Inv.userptrPin (h : s.Inv robj) {b r : ℕ} (hs : s.userptrPin b r = some s') :
    s'.Inv robj := by
  simp only [State.userptrPin] at hs
  split at hs
  case isTrue => cases hs
  case isFalse hh =>
    simp only [Bool.not_eq_true] at hh
    cases hs
    refine ⟨h.current.setBo rfl rfl ?_ (h.current.fresh b), fun q => ?_, h.pushed⟩
    · simp only [List.mem_append, List.mem_replicate]
      rintro hset t (ht | ⟨-, rfl⟩)
      · exact h.current.pages b hset t ht
      · have := h.current.fresh b hh hset
        simp only [State.started] at this ⊢
        omega
    · refine (h.owned q).of_agree fun b' => ?_
      by_cases hb : b' = b
      · subst hb
        refine ⟨by simp [State.setBo], fun hr => ?_, by simp [State.setBo]⟩
        simp [(h.owned q).handle_of_resv hr] at hh
      · simp [State.setBo, hb]

theorem State.Inv.userptrDone (h : s.Inv robj) {b : ℕ} (hs : s.userptrDone b = some s') :
    s'.Inv robj := by
  simp only [State.userptrDone] at hs
  split at hs
  case isTrue => cases hs
  case isFalse hh =>
    cases hs
    refine ⟨h.current.setBo rfl rfl (h.current.pages b) nofun, fun q => ?_, h.pushed⟩
    refine (h.owned q).of_agree fun b' => ?_
    by_cases hb : b' = b
    · subst hb
      simp [State.setBo]
    · simp [State.setBo, hb]

/-! The submissions. -/

/-- A step of submission `p` that changes reservations only, and takes pages from entries. -/
theorem State.Inv.of_frame (h : s.Inv robj) {c : Cs}
    (hi : c.phase ≠ .idle → (s.cs p).phase ≠ .idle) (hc : c.entries = (s.cs p).entries)
    (hcs : s'.cs = Function.update s.cs p c)
    (hbo : ∀ b, s'.bo b = { s.bo b with resv := (s'.bo b).resv })
    (ha : s'.affected = s.affected)
    (he : ∀ e, (s'.entry e).userPages ≠ none → s'.entry e = s.entry e)
    (hpushed : s'.pushed = s.pushed)
    (howned : c.Owned robj s'.bo p) (hagree : ∀ q, q ≠ p → Agree q s.bo s'.bo) :
    s'.Inv robj where
  current := h.current.of_frame hbo ha fun e hu hps => ⟨inUse_setCs hi hc hcs hu, he e hps⟩
  owned := hcs ▸ owned_update h.owned howned hagree
  pushed := by
    simp only [State.PagesCurrent, hpushed]
    exact h.pushed

theorem State.Inv.getList (h : s.Inv robj) {es : List ℕ} (hs : s.getList robj p es = some s') :
    s'.Inv robj := by
  simp only [State.getList] at hs
  split at hs
  case isFalse => cases hs
  case isTrue hp =>
    cases hs
    refine ⟨h.current.of_frame (fun _ => rfl) rfl fun e hu hps => ?_, ?_, h.pushed⟩
    · by_cases he : e ∈ es
      · simp [he] at hps
      · simp only [he, if_false, and_true]
        obtain ⟨q, hq, hmem⟩ := hu
        by_cases hqp : q = p
        · subst hqp
          simp [State.setCs, he] at hmem
        · simp only [State.setCs, Function.update_apply, hqp, if_false] at hq hmem
          exact ⟨q, hq, hmem⟩
    · exact owned_update h.owned ((h.owned p).getList hp.1 hp.2) fun _ _ => Agree.refl

theorem State.Inv.reserve (h : s.Inv robj) (hs : s.reserve robj p = some s') : s'.Inv robj := by
  simp only [State.reserve] at hs
  split at hs
  case h_2 => cases hs
  case h_1 hp =>
    obtain ⟨⟨bo, v, d⟩, hr, hs⟩ := Option.bind_eq_some_iff.mp hs
    cases hs
    refine h.of_frame (p := p) (fun _ => by simp [hp]) ?_ rfl (reserveBuffers_spec hr).1 rfl
      (fun _ _ => rfl) rfl ((h.owned p).reserve hp hr) fun q hq => agree_reserveBuffers hq hr
    rfl

theorem State.Inv.leaveCheck (h : s.Inv robj) (hg : Event.Timely robj s (.leaveCheck p))
    (hs : s.leaveCheck robj p = some s') : s'.Inv robj := by
  simp only [State.leaveCheck] at hs
  split at hs
  case h_2 => cases hs
  case h_1 hp =>
    have hi : (s.cs p).phase ≠ .idle := by simp [hp]
    split at hs
    case isTrue hn =>
      cases hs
      refine h.of_frame (p := p) (fun _ => hi) ?_ rfl (fun _ => rfl) rfl (fun _ _ => rfl) rfl
        ((h.owned p).setPhase (fun _ => hi) ?_ (fun _ => hn) (by simp [hp, Phase.holds]) (by simp))
        fun _ _ => Agree.refl
      · rfl
      · intro e he
        rcases List.mem_append.mp he with he | he
        · exact (h.owned p).duplicates e he
        · exact (h.owned p).validated e he
    case isFalse hn =>
      cases hs
      refine h.of_frame (p := p) (fun _ => hi) ?_ rfl (fun _ => by simp) rfl (fun _ _ => rfl) rfl
        ((h.owned p).unreserve (fun _ => hi) ?_ ?_ ?_)
        fun q hq => agree_unreserve hq (hg hp hn)
      · rfl
      · split
        · simp [Phase.todo]
        · exact (h.owned p).needPages
      · split <;> rfl
      · split <;> rfl

theorem State.Inv.updatePte (h : s.Inv robj) (hs : s.updatePte robj p = some s') :
    s'.Inv robj := by
  simp only [State.updatePte] at hs
  split at hs
  case h_2 => cases hs
  case h_1 hp =>
    have hi : (s.cs p).phase ≠ .idle := by simp [hp]
    cases hs
    refine h.of_frame (p := p) (fun _ => hi) ?_ rfl (fun _ => rfl) rfl (fun _ _ => rfl) rfl
      ((h.owned p).setPhase (fun _ => hi) (by simp [Phase.todo])
        (fun _ => (h.owned p).settled (by simp [hp, Phase.settled])) (by simp [hp, Phase.holds]) ?_)
      fun _ _ => Agree.refl
    · rfl
    · rintro uses hu u hmem
      cases hu
      obtain ⟨e, he, rfl⟩ := List.mem_map.mp hmem
      exact ⟨⟨e, he, rfl⟩, rfl⟩

/-- The pages of an entry in use change, and are current if the sample is. -/
theorem State.Current.setEntry (h : s.Current robj) {e : ℕ} {x : Entry}
    (hx : ∀ ps, x.userPages = some ps →
      x.userInvalidated = (s.bo (robj e)).mmuInvalidations → ∀ t ∈ ps, t = s.started (robj e)) :
    (s.setEntry e x).Current robj := by
  refine ⟨h.pages, h.fresh, fun e' hu ps hps he => ?_⟩
  by_cases hee : e' = e
  · subst hee
    simp only [State.setEntry, Function.update_self] at hps he
    exact hx ps hps he
  · simp only [State.setEntry, Function.update_apply, hee, if_false] at hps he
    exact h.userPages e' hu ps hps he

/-- An entry that a submission has still to work on is in use. -/
theorem Cs.Owned.inUse (h : (s.cs p).Owned robj s.bo p) {e : ℕ} (he : e ∈ (s.cs p).phase.todo) :
    s.InUse e := by
  refine ⟨p, ?_, h.todo e he⟩
  intro hi
  simp [hi, Phase.todo] at he

theorem State.Inv.setEntry (h : s.Inv robj) {e : ℕ} {x : Entry}
    (hx : ∀ ps, x.userPages = some ps →
      x.userInvalidated = (s.bo (robj e)).mmuInvalidations → ∀ t ∈ ps, t = s.started (robj e)) :
    (s.setEntry e x).Inv robj :=
  ⟨h.current.setEntry hx, h.owned, h.pushed⟩

/-- Only the phase of a submission changes. -/
theorem State.Inv.setPhase (h : s.Inv robj) {phase : Phase}
    (hi : phase ≠ .idle → (s.cs p).phase ≠ .idle)
    (htodo : ∀ e ∈ phase.todo, e ∈ (s.cs p).entries)
    (hs : phase.settled → (s.cs p).needPages = [])
    (hh : phase.holds = (s.cs p).phase.holds)
    (hu : ∀ uses, phase = .mapped uses → ∀ u ∈ uses,
      (∃ e ∈ (s.cs p).entries, robj e = u.1) ∧ u.2 = (s.bo u.1).pages) :
    (s.setCs p { s.cs p with phase := phase }).Inv robj := by
  refine h.of_frame (p := p) ?_ ?_ rfl (fun _ => rfl) rfl (fun _ _ => rfl) rfl
    ((h.owned p).setPhase hi htodo hs hh hu) fun _ _ => Agree.refl
  · exact hi
  · rfl

theorem State.Inv.check (h : s.Inv robj) (hg : Event.Timely robj s (.check p))
    (hs : s.check robj p = some s') : s'.Inv robj := by
  simp only [State.check] at hs
  split at hs
  case h_2 => cases hs
  case h_1 e todo hp =>
    have hi : (s.cs p).phase ≠ .idle := by simp [hp]
    have huse : s.InUse e := (h.owned p).inUse (by simp [hp, Phase.todo])
    generalize hpages : (if ((s.bo (robj e)).userptrInvalidated (s.entry e).userInvalidated).1
      then none else (s.entry e).userPages) = pages at hs
    -- the new sample comes with pages only if it is the old one
    have hentry : (s.setEntry e ⟨(s.bo (robj e)).mmuInvalidations, pages⟩).Inv robj := by
      refine h.setEntry fun ps hps _ => ?_
      rw [← hpages] at hps
      split at hps
      case isTrue => cases hps
      case isFalse heq =>
        exact h.current.userPages e huse ps hps (by simpa [Bo.userptrInvalidated] using heq)
    split at hs
    case isTrue hneed =>
      cases hs
      have hr : (s.bo (robj e)).resv = some p := by
        rw [Bool.and_eq_true, Option.isNone_iff_eq_none] at hneed
        refine hg e todo hp hneed.1 fun heq => ?_
        simpa [Bo.userptrInvalidated, heq, hneed.2] using hpages
      refine hentry.of_frame (p := p) (fun _ => hi) ?_ rfl ?_ rfl (fun _ _ => rfl) rfl
        ((h.owned p).needs hp) fun q hq b => ?_
      · rfl
      · intro b
        by_cases hb : b = robj e
        · subst hb
          simp [State.setBo, State.setEntry, State.setCs]
        · simp [State.setBo, State.setEntry, State.setCs, hb]
      · by_cases hb : b = robj e
        · subst hb
          simp [State.setBo, State.setEntry, State.setCs, hr, hq.symm]
        · simp [State.setBo, State.setEntry, State.setCs, hb]
    case isFalse =>
      cases hs
      refine hentry.setPhase (fun _ => hi) (fun x hx => ?_) (by simp [Phase.settled]) ?_ (by simp)
      · exact (h.owned p).todo x (by simp only [hp, Phase.todo]; exact List.mem_cons_of_mem _ hx)
      · simp [State.setEntry, hp, Phase.holds]

theorem State.Inv.alloc (h : s.Inv robj) (hs : s.alloc p = some s') : s'.Inv robj := by
  simp only [State.alloc] at hs
  split at hs
  case h_3 => cases hs
  case h_1 e todo hp =>
    cases hs
    have hentry : (s.setEntry e { s.entry e with userPages := some [] }).Inv robj :=
      h.setEntry fun ps hps _ => by cases hps; simp
    refine hentry.setPhase (fun _ => ?_) (fun x hx => ?_) (by simp [Phase.settled]) ?_ (by simp)
    · simp [State.setEntry, hp]
    · exact (h.owned p).todo x (by simpa only [hp, Phase.todo] using hx)
    · simp [State.setEntry, hp, Phase.holds]
  case h_2 hp =>
    cases hs
    refine h.of_frame (p := p) (fun _ => by simp [hp]) ?_ rfl (fun _ => rfl) rfl (fun _ _ => rfl)
      rfl ((h.owned p).again hp) fun _ _ => Agree.refl
    rfl

theorem State.Inv.pin (h : s.Inv robj) {r : ℕ} (hg : Event.Timely robj s (.pin p r))
    (hs : s.pin robj numPages p r = some s') : s'.Inv robj := by
  simp only [State.pin] at hs
  split at hs
  case h_2 => cases hs
  case h_1 e todo hp =>
    split at hs
    case h_2 => cases hs
    case h_1 pages hpages =>
      split at hs
      case isFalse => cases hs
      case isTrue =>
        cases hs
        have huse : s.InUse e := (h.owned p).inUse (by simp [hp, Phase.todo])
        have hentry : (s.setEntry e { s.entry e with
            userPages := some (pages ++
              List.replicate r (s.bo (robj e)).completed) }).Inv robj := by
          refine h.setEntry fun ps hps heq t ht => ?_
          cases hps
          rcases List.mem_append.mp ht with ht | ht
          · exact h.current.userPages e huse pages hpages heq t ht
          · rw [(List.mem_replicate.mp ht).2, State.started_eq_completed (hg e todo hp heq)]
        have htodo : ∀ x ∈ e :: todo, x ∈ (s.cs p).entries :=
          fun x hx => (h.owned p).todo x (by simpa only [hp, Phase.todo] using hx)
        refine hentry.setPhase (fun _ => ?_) ?_ ?_ ?_ ?_
        · simp [State.setEntry, hp]
        · split
          · exact htodo
          · exact fun x hx => htodo x (List.mem_cons_of_mem _ hx)
        · split <;> simp [Phase.settled]
        · split <;> simp [State.setEntry, hp, Phase.holds]
        · intro uses hu
          split at hu <;> cases hu

theorem State.Inv.validate (h : s.Inv robj) {e : ℕ} (hg : Event.Timely robj s (.validate p e))
    (hs : s.validate robj p e = some s') : s'.Inv robj := by
  simp only [State.validate] at hs
  split at hs
  case h_2 => cases hs
  case h_1 todo hp =>
    split at hs
    case isFalse => cases hs
    case isTrue he =>
      have huse : s.InUse e := (h.owned p).inUse (by simpa [hp, Phase.todo] using he)
      have hentries : e ∈ (s.cs p).entries :=
        (h.owned p).todo e (by simpa [hp, Phase.todo] using he)
      have hphase : (s.setCs p { s.cs p with phase := .validate (todo.erase e) }).Inv robj := by
        refine h.setPhase (fun _ => by simp [hp]) (fun x hx => ?_) (fun _ => ?_)
          (by simp [hp, Phase.holds]) (by simp)
        · refine (h.owned p).todo x ?_
          simp only [hp, Phase.todo]
          exact List.mem_of_mem_erase hx
        · exact (h.owned p).settled (by simp [hp, Phase.settled])
      split at hs
      case h_2 =>
        cases hs
        exact hphase
      case h_1 pages hneeds hpages =>
        cases hs
        have heq := hg hneeds (by
          simp only [State.setCs] at hpages
          simp [hpages])
        have hr : (s.bo (robj e)).resv = some p :=
          (h.owned p).held (by simp [hp, Phase.holds])
            ((h.owned p).settled (by simp [hp, Phase.settled])) e hentries
        have hbo : ((s.setCs p { s.cs p with phase := .validate (todo.erase e) }).setBo (robj e)
            ((s.bo (robj e)).setUserPages pages)).Current robj := by
          refine hphase.current.setBo (by rfl) (by rfl) (fun _ => ?_) ?_
          · exact h.current.userPages e huse pages hpages heq
          · intro hh
            have := (h.owned p).handle (by simp [hp]) e hentries
            simp only [Bo.setUserPages] at hh
            simp [hh] at this
        refine ⟨hbo.setEntry (by simp), fun q => ?_, h.pushed⟩
        · by_cases hq : q = p
          · subst hq
            refine (hphase.owned q).of_resv (fun uses => by simp [State.setCs]) (fun b => ?_)
              fun b => ?_
            all_goals
              by_cases hb : b = robj e
              · subst hb
                simp [State.setBo, State.setEntry, State.setCs, Bo.setUserPages]
              · simp [State.setBo, State.setEntry, State.setCs, hb]
          · refine (hphase.owned q).of_agree fun b => ?_
            by_cases hb : b = robj e
            · subst hb
              simp [State.setBo, State.setEntry, State.setCs, hr, Ne.symm hq, Bo.setUserPages]
            · simp [State.setBo, State.setEntry, State.setCs, hb]

/-- All of a submission's list is reserved by it once the check is left. -/
theorem Cs.Owned.held_validated {bo : ℕ → Bo} {c : Cs} (h : c.Owned robj bo p)
    (hh : c.phase.holds) (hs : c.phase.settled) :
    ∀ e ∈ c.validated, (bo (robj e)).resv = some p :=
  fun e he => h.held hh (h.settled hs) e (h.validated e he)

/-- The submission ends, and unreserves its list. -/
theorem State.Inv.finish (h : s.Inv robj) (hh : (s.cs p).phase.holds)
    (hs : (s.cs p).phase.settled) :
    State.Inv robj { s.setCs p { s.cs p with phase := .idle } with
      bo := unreserve robj (s.cs p).validated s.bo } := by
  have howned : { s.cs p with phase := .idle, tries := (s.cs p).tries }.Owned robj
      (unreserve robj (s.cs p).validated s.bo) p :=
    (h.owned p).unreserve (by simp) (by simp [Phase.todo]) rfl rfl
  refine h.of_frame (p := p) ?_ ?_ rfl (fun b => by simp) rfl (fun _ _ => rfl) rfl howned
    fun q hq => agree_unreserve hq ((h.owned p).held_validated hh hs)
  · simp
  · rfl

/-- The check under the notifier's lock: the pages that are mapped are the BO's, and the counters
tell that they are current. -/
theorem State.Inv.submit (h : s.Inv robj) (hs : s.submit robj p = some s') : s'.Inv robj := by
  simp only [State.submit] at hs
  split at hs
  case h_2 => cases hs
  case h_1 uses hp =>
    have hfinish := h.finish (p := p) (by simp [hp, Phase.holds]) (by simp [hp, Phase.settled])
    split at hs
    case isFalse => cases hs
    case isTrue =>
      split at hs
      case isTrue =>
        cases hs
        exact hfinish
      case isFalse hneeds =>
        cases hs
        refine ⟨⟨hfinish.current.pages, hfinish.current.fresh, hfinish.current.userPages⟩,
          hfinish.owned, ?_⟩
        simp only [State.PagesCurrent, List.mem_cons, forall_eq_or_imp]
        refine ⟨fun u hu t ht => ?_, h.pushed⟩
        obtain ⟨v, hv, rfl⟩ := List.mem_map.mp hu
        obtain ⟨⟨e, he, hb⟩, hpages⟩ := (h.owned p).uses uses hp v hv
        have hset : (s.bo v.1).lastSetPages = (s.bo v.1).mmuInvalidations := by
          simp only [List.any_eq_true, not_exists, not_and] at hneeds
          have := hneeds e he
          simp only [Bo.needsPages, hb, bne_iff_ne, not_not] at this
          exact this.symm
        have hstarted : t = s.started v.1 := h.current.pages v.1 hset t (hpages ▸ ht)
        rw [hstarted, State.started]
        exact Nat.le_add_right _ _

theorem State.Inv.fail (h : s.Inv robj) (hs : s.fail robj p = some s') : s'.Inv robj := by
  have hdrop : (s.cs p).phase.holds = false →
      (s.setCs p { s.cs p with phase := .idle }).Inv robj := fun hh =>
    h.setPhase (by simp) (by simp [Phase.todo]) (by simp [Phase.settled]) hh.symm (by simp)
  simp only [State.fail] at hs
  split at hs
  case h_1 => cases hs
  case h_2 => cases hs
  case h_3 hp =>
    cases hs
    exact hdrop (by simp [hp, Phase.holds])
  case h_4 hp =>
    cases hs
    exact hdrop (by simp [hp, Phase.holds])
  case h_5 e _ hp =>
    cases hs
    exact (hdrop (by simp [hp, Phase.holds])).setEntry (by simp)
  case h_6 hp =>
    cases hs
    exact h.finish (by simp [hp, Phase.holds]) (by simp [hp, Phase.settled])
  case h_7 hp =>
    cases hs
    exact h.finish (by simp [hp, Phase.holds]) (by simp [hp, Phase.settled])

theorem State.Inv.step (h : s.Inv robj) {ev : Event} (hg : ev.Timely robj s)
    (hs : s.step robj numPages ev = some s') : s'.Inv robj := by
  cases ev with
  | rangeStart i => exact h.rangeStart hs
  | affectUserptr i b => exact h.affectUserptr hg hs
  | rangeEnd i => exact h.rangeEnd hs
  | userptrPin b r => exact h.userptrPin hs
  | userptrDone b => exact h.userptrDone hs
  | getList p es => exact h.getList hs
  | reserve p => exact h.reserve hs
  | check p => exact h.check hg hs
  | leaveCheck p => exact h.leaveCheck hg hs
  | alloc p => exact h.alloc hs
  | pin p r => exact h.pin hg hs
  | validate p e => exact h.validate hg hs
  | updatePte p => exact h.updatePte hs
  | submit p => exact h.submit hs
  | fail p => exact h.fail hs

theorem State.Inv.initial : State.initial.Inv robj where
  current := ⟨by simp [State.initial], by simp [State.initial, State.started],
    by simp [State.initial]⟩
  owned := fun p => {
    validated := by simp [State.initial]
    duplicates := by simp [State.initial]
    needPages := by simp [State.initial]
    todo := by simp [State.initial, Phase.todo]
    handle := by simp [State.initial]
    settled := by simp [State.initial]
    covered := by simp [State.initial]
    locked := by simp [State.initial]
    held := by simp [State.initial]
    uses := by simp [State.initial] }
  pushed := by simp [State.PagesCurrent, State.initial]

/-- In a run whose steps all meet `Timely`, every job uses current pages. -/
theorem pushed_pages_current (h : State.Reachable robj numPages (fun s e => e.Timely robj s) s) :
    s.PagesCurrent := by
  have : s.Inv robj := by
    refine Transition.Reach.invariant ?_ ?_ h
    · rintro _ rfl
      exact State.Inv.initial
    · exact fun _ _ _ h hg hs => h.step hg hs
  exact this.pushed

/-- One BO of one page, invalidated once; a submission looks its page up, finds that it is there in
the second check and pushes the job. -/
theorem pushed_pages_current_refilled :
    ∃ s, State.Reachable id (fun _ => 1) (fun s e => e.Timely id s) s ∧
      s.pushed = [[⟨0, [1], 1⟩]] ∧ s.PagesCurrent := by
  have hunused : ∀ {s : State} (e : ℕ), s.cs = State.initial.cs → ¬ s.InUse e := by
    rintro s e hs ⟨p, hp, -⟩
    simp [hs, State.initial] at hp
  have hrun : ∃ s, State.Reachable id (fun _ => 1) (fun s e => e.Timely id s) s ∧
      s.pushed = [[⟨0, [1], 1⟩]] := by
    refine ⟨_, .next (e := .submit 0) (.next (e := .updatePte 0) (.next (e := .validate 0 0)
      (.next (e := .leaveCheck 0) (.next (e := .check 0) (.next (e := .reserve 0)
      (.next (e := .alloc 0) (.next (e := .pin 0 1) (.next (e := .alloc 0)
      (.next (e := .leaveCheck 0) (.next (e := .check 0) (.next (e := .reserve 0)
      (.next (e := .getList 0 [0]) (.next (e := .rangeEnd 0) (.next (e := .affectUserptr 0 0)
      (.next (e := .rangeStart 0) (.next (e := .userptrDone 0) (.start rfl)
      trivial rfl) trivial rfl) ?_ rfl) trivial rfl) ?_ rfl) trivial rfl) ?_ rfl) ?_ rfl) trivial
      rfl) ?_ rfl) trivial rfl) trivial rfl) ?_ rfl) ?_ rfl) ?_ rfl) trivial rfl) trivial rfl, rfl⟩
    · exact ⟨by decide, fun e he => absurd he (hunused e rfl)⟩
    · exact fun e _ => hunused e rfl
    · intro e todo hp _ _
      cases hp
      rfl
    · exact fun _ _ e he => nomatch he
    · exact fun _ _ _ _ a ha => nomatch ha
    · intro e todo hp _ _
      cases hp
      rfl
    · exact fun _ hn => absurd rfl hn
    · exact fun _ _ => rfl
  obtain ⟨s, hs, hpushed⟩ := hrun
  exact ⟨s, hs, hpushed, pushed_pages_current hs⟩

/-- The invalidation of the BO comes between the check that found the page and the installation of
the page, which then takes the new counter for its own. -/
theorem pushed_pages_stale :
    ¬ ∀ (robj numPages : ℕ → ℕ) (s : State),
      State.Reachable robj numPages (fun _ _ => True) s → s.PagesCurrent := by
  intro h
  have hrun : ∃ s, [Event.userptrDone 0, .rangeStart 0, .affectUserptr 0 0, .rangeEnd 0,
      .getList 0 [0], .reserve 0, .check 0, .leaveCheck 0, .alloc 0, .pin 0 1, .alloc 0,
      .reserve 0, .check 0, .leaveCheck 0, .rangeStart 1, .affectUserptr 1 0, .rangeEnd 1,
      .validate 0 0, .updatePte 0, .submit 0].foldlM (State.step id fun _ => 1) State.initial =
        some s ∧ s.pushed = [[⟨0, [1], 2⟩]] := ⟨_, rfl, rfl⟩
  obtain ⟨s, hs, hpushed⟩ := hrun
  have hstale := h id (fun _ => 1) s (Transition.Reach.foldlM (.start rfl) (by simp) hs)
  have : 2 ≤ 1 := hstale _ (hpushed ▸ List.mem_singleton_self _) _ (List.mem_singleton_self _) 1
    (List.mem_singleton_self _)
  omega

end Gsgpu.Userptr
