import Gsgpu.ParserBos.References
import Gsgpu.ParserBos.Reservations

/-! The references and the reservations of a call balance, as long as no entry lacks its pages while
another of its BO is listed before it, and no validation fails once the pages of its entry are set.
Where a step does otherwise they do not. -/
namespace Gsgpu.ParserBos

/-- An entry in need of pages is not on the duplicates, and `gsgpu_cs_validate` does not fail for
an entry whose pages have just been set. -/
def Call.good (c : Call) (s : State) : Event → Bool
  | .lacks =>
    match s.phase with
    | .lacks e _ => !(c.lacksPages s e && s.duplicates.contains e)
    | _ => true
  | .validated ok =>
    match s.phase with
    | .validate _ _ true => ok
    | _ => true
  | _ => true

/-- The invariant of a call all of whose steps are good. -/
structure Call.Inv (c : Call) (s : State) : Prop where
  lists : c.Listed s
  references : s.Accounted
  reservations : c.Reserved s

variable {c : Call} {s s' : State}

/-- What a good second test is. -/
theorem Call.good_lacks (h : c.good s .lacks = true) :
    ∀ e todo, s.phase = .lacks e todo → c.lacksPages s e = true → e ∉ s.duplicates := by
  intro e todo hphase hlacks hmem
  simp [Call.good, hphase, hlacks, hmem] at h

/-- What a good return is. -/
theorem Call.good_validated {ok : Bool} (h : c.good s (.validated ok) = true) :
    ∀ dups e, s.phase = .validate dups e true → ok = true := by
  intro dups e hphase
  simpa [Call.good, hphase] using h

theorem Call.Start.inv (h : c.Start s) : c.Inv s where
  lists := h.lists
  references := by
    have hnone : ∀ x, s.hold (.array x) = [] := fun x => State.hold_array_none (h.userPages x)
    have hdropped : s.hold .dropped = [] := h.dropped
    refine ⟨fun k t ht => ?_, fun t ht => ?_, fun k => ?_, fun k k' hne t ht ht' => ?_⟩
    · cases k with
      | dropped => simp [hdropped] at ht
      | ttm b => exact h.pages.below b t ht
      | array x => simp [hnone] at ht
    · obtain ⟨b, hb⟩ := h.pages.held t ht
      exact ⟨.ttm b, hb⟩
    · cases k with
      | dropped => simp [hdropped]
      | ttm b => exact h.pages.nodup b
      | array x => simp [hnone]
    · cases k with
      | dropped => simp [hdropped] at ht
      | array x => simp [hnone] at ht
      | ttm b =>
        cases k' with
        | dropped => simp [hdropped] at ht'
        | array x => simp [hnone] at ht'
        | ttm b' => exact h.pages.apart b b' (fun heq => hne (by rw [heq])) t ht ht'
  reservations := .of_zero h.strays h.held (by rw [h.phase]; rfl)

/-- Every good step keeps the invariant. -/
theorem Call.Inv.step (h : c.Inv s) {event : Event} (hgood : c.good s event = true)
    (hs : c.step s event = some s') : c.Inv s' := by
  obtain ⟨hl, ha, hr⟩ := h
  refine ⟨hl.step hs, ?_, ?_⟩
  · cases event with
    | reserve v d => exact ha.reserve hs
    | reserveFails => exact ha.reserveFails hl hs
    | check => exact ha.check hl hs
    | lacks => exact ha.lacks hs
    | alloc ok => exact ha.alloc hl hs
    | pin r => exact ha.pin hl hs
    | validatePts ok => exact ha.validatePts hl hs
    | evict x => exact ha.evict hs
    | visit moved => exact ha.visit hl hs
    | validated ok => exact ha.validated hl (Call.good_validated hgood) hs
    | fence ok => exact ha.fence hl hs
    | freePages => exact ha.freePages hl hs
    | invalidate b =>
      cases hs
      refine ha.same rfl rfl (fun b' => ?_) fun _ => rfl
      by_cases hb : b' = b
      · subst hb
        simp [State.invalidate, State.setBo]
      · simp [State.invalidate, State.setBo, hb]
    | replace b n =>
      cases hs
      exact ha.replace b n
  · cases event with
    | reserve v d => exact hr.reserve hs
    | reserveFails => exact hr.reserveFails hs
    | check => exact hr.check hs
    | lacks => exact hr.lacks hl (Call.good_lacks hgood) hs
    | alloc ok => exact hr.alloc hs
    | pin r => exact hr.pin hs
    | validatePts ok => exact hr.validatePts hs
    | evict x => exact hr.evict hs
    | visit moved => exact hr.visit hs
    | validated ok => exact hr.validated hs
    | fence ok => exact hr.fence hs
    | freePages => exact hr.freePages hs
    | invalidate b =>
      cases hs
      exact hr.keep rfl rfl rfl rfl
    | replace b n =>
      cases hs
      exact hr.keep rfl rfl rfl rfl

theorem Call.Inv.balanced (h : c.Inv s) : c.Balanced s where
  strays := h.reservations.strays
  once := h.references.nodup .dropped
  owned := fun b => h.references.apart (.ttm b) .dropped (by simp)
  pages := fun b => h.references.nodup (.ttm b)
  apart := fun b b' hne => h.references.apart (.ttm b) (.ttm b') (by simpa using hne)
  kept := by
    intro failed hphase t ht
    obtain ⟨k, hk⟩ := Custody.Exact.held h.references t ht
    cases k with
    | dropped => exact .inl hk
    | ttm b => exact .inr ⟨b, hk⟩
    | array x =>
      have hnot : s.phase.owns x = false := by rw [hphase]; rfl
      rw [State.hold_array_not hnot] at hk
      exact absurd hk List.not_mem_nil
  failed := fun hphase => h.reservations.held_eq_zero (by rw [hphase]; rfl)
  succeeded := by
    intro hphase b
    have hholds : s.phase.holds = true := by rw [hphase]; rfl
    rw [h.reservations.held_of_holds hholds]
    split
    · next hmem => exact List.count_eq_one_of_mem (h.reservations.nodup hholds) hmem
    · next hmem => exact List.count_eq_zero.mpr hmem

/-- In every call whose steps are good, the references and the reservations are balanced. -/
theorem parserBos_balanced (c : Call) (s : State)
    (h : c.Reachable (fun s event => c.good s event = true) s) : c.Balanced s := by
  have hinv : c.Inv s := Transition.Reach.invariant (fun _ hstart => hstart.inv)
    (fun _ _ _ hi hgood hs => hi.step hgood hs) h
  exact hinv.balanced

/-- Entry 0 for a userptr BO of two pages, entries 1 and 2 for another BO. -/
def mixedCall : Call where
  robj := fun e => min e 1
  userptrs := [0]
  numPages := fun _ => 2
  userptr := fun b => b == 0
  foreign := fun _ => false
  nodup := List.nodup_singleton 0

/-- The pages of every BO were invalidated, and none has any. -/
def invalidated (list : List ℕ) : State where
  bo := fun _ => ⟨1, 0, []⟩
  entry := fun _ => ⟨0, none⟩
  phase := .reserve
  validated := list
  duplicates := []
  needPages := []
  tries := 10
  held := fun _ => 0
  strays := []
  next := 0
  dropped := []

theorem start_invalidated (c : Call) (list : List ℕ) (h : ∀ e ∈ c.userptrs, e ∈ list) :
    c.Start (invalidated list) where
  phase := rfl
  userPages := fun _ => rfl
  listed := h
  needPages := rfl
  held := fun _ => rfl
  strays := rfl
  pages := ⟨fun _ _ ht => absurd ht List.not_mem_nil, fun _ ht => absurd ht (Nat.not_lt_zero _),
    fun _ => List.nodup_nil, fun _ _ _ _ ht => absurd ht List.not_mem_nil⟩
  dropped := rfl

/-- The loop up to the validation of the lists, with the array of entry 0 filled in two pieces. -/
def toValidation : List Event :=
  [.reserve [0, 1] [2], .check, .lacks, .check, .alloc true, .pin (some 1), .pin (some 1),
    .alloc true, .reserve [0, 1] [], .check, .lacks, .check, .validatePts true, .visit true,
    .validated true, .visit true, .visit true]

/-- The error that comes after the pages of entry 0 were set. -/
def toError : List Event := [.validated false, .freePages, .freePages]

/-- The rest of it, without an error. -/
def toReturn : List Event :=
  [.validated true, .visit true, .validated true, .visit true, .fence true, .freePages, .freePages]

theorem parserBos_balanced_mixed : ∃ s,
    mixedCall.Reachable (fun s event => mixedCall.good s event = true) s ∧
      s.phase = .done false ∧ (s.bo 0).pages = [0, 1] ∧ mixedCall.Balanced s := by
  have hrun : (((toValidation ++ toReturn).foldlM (fun s event =>
      if mixedCall.good s event then mixedCall.step s event else none)
      (invalidated [0, 1, 2])).map fun s => (s.phase, (s.bo 0).pages)) =
      some (.done false, [0, 1]) := by decide
  obtain ⟨s, hs, heq⟩ := Option.map_eq_some_iff.mp hrun
  have hreach := Transition.Reach.guarded
    (.start (start_invalidated mixedCall [0, 1, 2] (by decide))) hs
  simp only [Prod.mk.injEq] at heq
  exact ⟨s, hreach, heq.1, heq.2, parserBos_balanced mixedCall s hreach⟩

/-- The validation of a userptr BO fails once its pages are set: it keeps pages that are dropped. -/
theorem parserBos_drops_set_pages : ∃ s, mixedCall.Reachable (fun _ _ => True) s ∧
    s.phase = .done true ∧ (s.bo 0).pages = [0, 1] ∧ s.dropped = [0, 1] ∧
      ¬ mixedCall.Balanced s := by
  have hrun : (((toValidation ++ toError).foldlM mixedCall.step (invalidated [0, 1, 2])).map
      fun s => (s.phase, (s.bo 0).pages, s.dropped)) = some (.done true, [0, 1], [0, 1]) := by
    decide
  obtain ⟨s, hs, heq⟩ := Option.map_eq_some_iff.mp hrun
  have hreach : mixedCall.Reachable (fun _ _ => True) s := Transition.Reach.foldlM
    (.start (start_invalidated mixedCall [0, 1, 2] (by decide))) (by simp) hs
  simp only [Prod.mk.injEq] at heq
  refine ⟨s, hreach, heq.1, heq.2.1, heq.2.2, fun hb => ?_⟩
  exact hb.owned 0 0 (by simp [heq.2.1]) (by simp [heq.2.2])

/-- Entries 0 and 1 for one userptr BO. -/
def twiceCall : Call where
  robj := fun _ => 0
  userptrs := [0, 1]
  numPages := fun _ => 2
  userptr := fun _ => true
  foreign := fun _ => false
  nodup := by decide

/-- The first reservation, and the tests of both. -/
def toSecondTest : List Event := [.reserve [0] [1], .check, .lacks, .check, .lacks]

/-- A userptr BO without pages is listed twice: it is unreserved twice. -/
theorem parserBos_unreserves_twice : ∃ s, twiceCall.Reachable (fun _ _ => True) s ∧
    s.strays = [0] ∧ ¬ twiceCall.Balanced s := by
  have hrun : ((toSecondTest.foldlM twiceCall.step (invalidated [0, 1])).map State.strays) =
      some [0] := by decide
  obtain ⟨s, hs, heq⟩ := Option.map_eq_some_iff.mp hrun
  have hreach : twiceCall.Reachable (fun _ _ => True) s := Transition.Reach.foldlM
    (.start (start_invalidated twiceCall [0, 1] (by decide))) (by simp) hs
  refine ⟨s, hreach, heq, fun hb => ?_⟩
  have hnil := hb.strays
  rw [heq] at hnil
  cases hnil

end Gsgpu.ParserBos
