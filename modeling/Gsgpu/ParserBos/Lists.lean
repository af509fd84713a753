import Gsgpu.ParserBos.Call
import Mathlib.Data.List.Perm.Basic

/-! Where the entries are during a call, and which of them have an array of pages. -/
namespace Gsgpu.ParserBos

/-- The entries that a loop has still to go through. -/
def Phase.todo : Phase → List ℕ
  | .check todo | .fill todo | .freePages _ todo => todo
  | .lacks e todo | .pin e todo => e :: todo
  | _ => []

/-- The entries that have still to get an array. -/
def Phase.unfilled : Phase → List ℕ
  | .fill todo | .pin _ todo => todo
  | _ => []

/-- The phases of the two tests. -/
def Phase.tests : Phase → Bool
  | .check _ | .lacks _ _ => true
  | _ => false

/-- The invariant of the lists. An array has the size of its BO except where it is being filled. -/
structure Call.Listed (c : Call) (s : State) : Prop where
  todo_nodup : s.phase.todo.Nodup
  todo_mem : ∀ e ∈ s.phase.todo, e ∈ c.userptrs
  need_nodup : s.needPages.Nodup
  need_mem : ∀ e ∈ s.needPages, e ∈ c.userptrs
  empty : s.phase = .reserve → s.needPages = []
  apart : s.phase.tests = true → ∀ e ∈ s.phase.todo, e ∉ s.needPages
  lacking : s.phase.tests = true → ∀ e ∈ s.needPages, (s.entry e).userPages = none
  unfilled : ∀ e ∈ s.phase.unfilled, (s.entry e).userPages = none
  listed : ∀ e ∈ c.userptrs, e ∈ s.validated ∨ e ∈ s.duplicates ∨ e ∈ s.needPages
  mem : ∀ e pages, (s.entry e).userPages = some pages → e ∈ c.userptrs
  full : ∀ e pages, (s.entry e).userPages = some pages → (∀ todo, s.phase ≠ .pin e todo) →
    pages.length = c.numPages (c.robj e)

variable {c : Call} {s s' : State} {phase : Phase} {e : ℕ} {todo : List ℕ} {failed : Bool}

/-! What unreserving leaves as it is. -/
section Frames

theorem State.unreserve_eq (s : State) (b : ℕ) :
    ∃ held strays, s.unreserve b = { s with held := held, strays := strays } := by
  unfold State.unreserve
  split
  · exact ⟨s.held, b :: s.strays, rfl⟩
  · exact ⟨_, s.strays, rfl⟩

theorem Call.backoff_eq (c : Call) (s : State) (list : List ℕ) :
    ∃ held strays, c.backoff s list = { s with held := held, strays := strays } := by
  induction list generalizing s with
  | nil => exact ⟨s.held, s.strays, rfl⟩
  | cons e list ih =>
    obtain ⟨held, strays, he⟩ := s.unreserve_eq (c.robj e)
    obtain ⟨held', strays', hl⟩ := ih (s.unreserve (c.robj e))
    refine ⟨held', strays', ?_⟩
    change c.backoff (s.unreserve (c.robj e)) list = _
    rw [hl, he]

/-- The reservations do not matter to the lists. -/
theorem Call.Listed.held (h : c.Listed s) (held : ℕ → ℕ) (strays : List ℕ) (tries : ℕ) :
    c.Listed { s with held := held, strays := strays, tries := tries } :=
  ⟨h.todo_nodup, h.todo_mem, h.need_nodup, h.need_mem, h.empty, h.apart, h.lacking, h.unfilled,
    h.listed, h.mem, h.full⟩

end Frames

/-- Nor do the references. -/
theorem Call.Listed.drop (h : c.Listed s) (pages : List ℕ) : c.Listed (s.drop pages) :=
  ⟨h.todo_nodup, h.todo_mem, h.need_nodup, h.need_mem, h.empty, h.apart, h.lacking, h.unfilled,
    h.listed, h.mem, h.full⟩

theorem Call.Listed.setBo (h : c.Listed s) (b : ℕ) (x : Bo) : c.Listed (s.setBo b x) :=
  ⟨h.todo_nodup, h.todo_mem, h.need_nodup, h.need_mem, h.empty, h.apart, h.lacking, h.unfilled,
    h.listed, h.mem, h.full⟩

theorem Call.Listed.next (h : c.Listed s) (n : ℕ) : c.Listed { s with next := n } :=
  ⟨h.todo_nodup, h.todo_mem, h.need_nodup, h.need_mem, h.empty, h.apart, h.lacking, h.unfilled,
    h.listed, h.mem, h.full⟩

@[simp] theorem State.setEntry_entry (s : State) (e : ℕ) (x : Entry) :
    (s.setEntry e x).entry = Function.update s.entry e x := rfl

/-- The array of an entry is given up. -/
theorem Call.Listed.clear (h : c.Listed s) (e : ℕ) (sample : UInt32) :
    c.Listed (s.setEntry e ⟨sample, none⟩) := by
  have hnone : ∀ x, (s.entry x).userPages = none →
      ((s.setEntry e ⟨sample, none⟩).entry x).userPages = none := by
    intro x hx
    by_cases hxe : x = e <;> simp [hxe, hx]
  have hsome : ∀ x pages, ((s.setEntry e ⟨sample, none⟩).entry x).userPages = some pages →
      (s.entry x).userPages = some pages := by
    intro x pages hx
    by_cases hxe : x = e <;> simp_all
  exact {
    todo_nodup := h.todo_nodup
    todo_mem := h.todo_mem
    need_nodup := h.need_nodup
    need_mem := h.need_mem
    empty := h.empty
    apart := h.apart
    lacking := fun ht x hx => hnone x (h.lacking ht x hx)
    unfilled := fun x hx => hnone x (h.unfilled x hx)
    listed := h.listed
    mem := fun x pages hx => h.mem x pages (hsome x pages hx)
    full := fun x pages hx => h.full x pages (hsome x pages hx) }

/-- Nothing but the sample of an entry changes. -/
theorem Call.Listed.sample (h : c.Listed s) (e : ℕ) (sample : UInt32) :
    c.Listed (s.setEntry e ⟨sample, (s.entry e).userPages⟩) := by
  have hsame : ∀ x, ((s.setEntry e ⟨sample, (s.entry e).userPages⟩).entry x).userPages =
      (s.entry x).userPages := by
    intro x
    by_cases hxe : x = e
    · subst hxe
      simp
    · simp [hxe]
  exact {
    todo_nodup := h.todo_nodup
    todo_mem := h.todo_mem
    need_nodup := h.need_nodup
    need_mem := h.need_mem
    empty := h.empty
    apart := h.apart
    lacking := fun ht x hx => (hsame x).trans (h.lacking ht x hx)
    unfilled := fun x hx => (hsame x).trans (h.unfilled x hx)
    listed := h.listed
    mem := fun x pages hx => h.mem x pages ((hsame x).symm.trans hx)
    full := fun x pages hx => h.full x pages ((hsame x).symm.trans hx) }

/-- A loop goes on, with some of its entries behind it. -/
theorem Call.Listed.advance (h : c.Listed s) (htodo : phase.todo.Sublist s.phase.todo)
    (hempty : phase ≠ .reserve) (htests : phase.tests = true → s.phase.tests = true)
    (hunfilled : phase.unfilled = []) (hpin : ∀ e todo, s.phase ≠ .pin e todo) :
    c.Listed (s.setPhase phase) where
  todo_nodup := h.todo_nodup.sublist htodo
  todo_mem := fun x hx => h.todo_mem x (htodo.subset hx)
  need_nodup := h.need_nodup
  need_mem := h.need_mem
  empty := fun hr => absurd hr hempty
  apart := fun ht x hx => h.apart (htests ht) x (htodo.subset hx)
  lacking := fun ht => h.lacking (htests ht)
  unfilled := by
    intro x hx
    change x ∈ phase.unfilled at hx
    rw [hunfilled] at hx
    exact absurd hx List.not_mem_nil
  listed := h.listed
  mem := h.mem
  full := fun x pages hx _ => h.full x pages hx (hpin x)

/-- The loop at `error_free_pages` starts. -/
theorem Call.Listed.leave (h : c.Listed s) (failed : Bool)
    (hpin : ∀ e todo, s.phase = .pin e todo → (s.entry e).userPages = none) :
    c.Listed (c.leave s failed) where
  todo_nodup := c.nodup
  todo_mem := fun _ hx => hx
  need_nodup := h.need_nodup
  need_mem := h.need_mem
  empty := fun hr => Phase.noConfusion hr
  apart := fun ht => Bool.noConfusion ht
  lacking := fun ht => Bool.noConfusion ht
  unfilled := fun _ hx => absurd hx List.not_mem_nil
  listed := h.listed
  mem := h.mem
  full := by
    intro x pages hx _
    refine h.full x pages hx fun todo hphase => ?_
    have hnone := hpin x todo hphase
    exact Option.some_ne_none pages (hx.symm.trans hnone)

theorem Call.Listed.fail (h : c.Listed s) (hpin : ∀ e todo, s.phase ≠ .pin e todo) :
    c.Listed (c.fail s) := by
  obtain ⟨held, strays, heq⟩ := c.backoff_eq s s.validated
  unfold Call.fail
  rw [heq]
  exact (h.held held strays s.tries).leave true fun x todo hphase => absurd hphase (hpin x todo)

/-- The tests are over, and the entries that were moved are to get arrays. -/
theorem Call.Listed.fill (h : c.Listed s) (htests : s.phase.tests = true) :
    c.Listed (s.setPhase (.fill s.needPages)) where
  todo_nodup := h.need_nodup
  todo_mem := h.need_mem
  need_nodup := h.need_nodup
  need_mem := h.need_mem
  empty := fun hr => Phase.noConfusion hr
  apart := fun ht => Bool.noConfusion ht
  lacking := fun ht => Bool.noConfusion ht
  unfilled := h.lacking htests
  listed := h.listed
  mem := h.mem
  full := by
    intro x pages hx _
    refine h.full x pages hx fun todo hphase => ?_
    rw [hphase] at htests
    cases htests

/-! The steps of the call. -/
section Steps

theorem Call.Listed.reserve (h : c.Listed s) {v d : List ℕ} (hs : c.reserve s v d = some s') :
    c.Listed s' := by
  unfold Call.reserve at hs
  split at hs
  · next hphase =>
    split at hs
    · next hcond =>
      cases hs
      have hperm : (v ++ d).Perm s.validated := List.isPerm_iff.mp hcond.1
      have hneed : s.needPages = [] := h.empty hphase
      exact {
        todo_nodup := c.nodup
        todo_mem := fun _ hx => hx
        need_nodup := h.need_nodup
        need_mem := h.need_mem
        empty := fun hr => Phase.noConfusion hr
        apart := fun _ x _ => by simp [hneed]
        lacking := fun _ x hx => by simp [hneed] at hx
        unfilled := fun _ hx => absurd hx List.not_mem_nil
        listed := by
          intro x hx
          obtain hv | hd | hn := h.listed x hx
          · have hvd := hperm.mem_iff.mpr hv
            simp only [List.mem_append] at hvd ⊢
            tauto
          · simp only [List.mem_append]
            tauto
          · exact .inr (.inr hn)
        mem := h.mem
        full := fun x pages hx _ => h.full x pages hx (by simp [hphase]) }
    · cases hs
  · cases hs

theorem Call.Listed.reserveFails (h : c.Listed s) (hs : c.reserveFails s = some s') :
    c.Listed s' := by
  unfold Call.reserveFails at hs
  split at hs
  · next hphase =>
    cases hs
    exact h.leave true fun x todo heq => by simp [hphase] at heq
  · cases hs

theorem Call.Listed.check (h : c.Listed s) (hs : c.check s = some s') : c.Listed s' := by
  unfold Call.check at hs
  split at hs
  · next e todo hphase =>
    dsimp only at hs
    split at hs
    · cases hs
      refine ((h.drop _).clear e _).advance ?_ (by simp) ?_ rfl ?_ <;>
        simp [State.setEntry, State.drop, hphase, Phase.todo, Phase.tests]
    · cases hs
      refine (h.sample e _).advance ?_ (by simp) ?_ rfl ?_ <;>
        simp [State.setEntry, hphase, Phase.todo, Phase.tests]
  · next hphase =>
    split at hs
    · cases hs
      refine h.advance ?_ (by simp) ?_ rfl ?_ <;> simp [hphase, Phase.todo, Phase.tests]
    · next hneed =>
      obtain ⟨held, strays, heq⟩ := c.backoff_eq s s.validated
      rw [heq] at hs
      have hback := h.held held strays (s.tries - 1)
      dsimp only at hs
      split at hs
      · cases hs
        exact hback.leave true fun x todo heq => by simp [hphase] at heq
      · cases hs
        exact hback.fill (by simp [hphase, Phase.tests])
  · cases hs

theorem Call.Listed.lacks (h : c.Listed s) (hs : c.lacks s = some s') : c.Listed s' := by
  unfold Call.lacks at hs
  split at hs
  · next e todo hphase =>
    have htodo : (e :: todo).Nodup := by simpa [hphase, Phase.todo] using h.todo_nodup
    have hmem : ∀ x ∈ e :: todo, x ∈ c.userptrs := by simpa [hphase, Phase.todo] using h.todo_mem
    have hapart : ∀ x ∈ e :: todo, x ∉ s.needPages := by
      simpa [hphase, Phase.todo, Phase.tests] using h.apart
    split at hs
    · next hlacks =>
      cases hs
      have hnone : (s.entry e).userPages = none := by
        simp only [Call.lacksPages, Bool.and_eq_true, Option.isNone_iff_eq_none] at hlacks
        exact hlacks.2
      obtain ⟨held, strays, heq⟩ := State.unreserve_eq { s with
        validated := s.validated.erase e
        duplicates := s.duplicates.erase e
        needPages := e :: s.needPages } (c.robj e)
      rw [heq]
      exact {
        todo_nodup := (List.nodup_cons.mp htodo).2
        todo_mem := fun x hx => hmem x (List.mem_cons_of_mem e hx)
        need_nodup := List.nodup_cons.mpr ⟨hapart e List.mem_cons_self, h.need_nodup⟩
        need_mem := List.forall_mem_cons.mpr ⟨hmem e List.mem_cons_self, h.need_mem⟩
        empty := fun hr => Phase.noConfusion hr
        apart := by
          intro _ x hx hx'
          obtain rfl | hx' := List.mem_cons.mp hx'
          · exact (List.nodup_cons.mp htodo).1 hx
          · exact hapart x (List.mem_cons_of_mem e hx) hx'
        lacking := fun _ => List.forall_mem_cons.mpr
          ⟨hnone, h.lacking (by simp [hphase, Phase.tests])⟩
        unfilled := fun _ hx => absurd hx List.not_mem_nil
        listed := by
          intro x hx
          by_cases hxe : x = e
          · exact .inr (.inr (List.mem_cons.mpr (.inl hxe)))
          · obtain hv | hd | hn := h.listed x hx
            · exact .inl ((List.mem_erase_of_ne hxe).mpr hv)
            · exact .inr (.inl ((List.mem_erase_of_ne hxe).mpr hd))
            · exact .inr (.inr (List.mem_cons_of_mem e hn))
        mem := h.mem
        full := fun x pages hx _ => h.full x pages hx (by simp [hphase]) }
    · cases hs
      refine h.advance ?_ (by simp) ?_ rfl ?_ <;> simp [hphase, Phase.todo, Phase.tests]
  · cases hs

/-- The array of the current entry is new, or has more pages. -/
theorem Call.Listed.setArray (h : c.Listed s) (htodo : s.phase.todo = e :: todo)
    (hnone : ∀ x ∈ todo, (s.entry x).userPages = none)
    (hcur : ∀ x todo', s.phase = .pin x todo' → x = e) {pages : List ℕ} (n : ℕ)
    (htodo' : phase.todo.Sublist (e :: todo)) (hunfilled : phase.unfilled = todo)
    (hempty : phase ≠ .reserve) (htests : phase.tests = false)
    (hfull : phase = .pin e todo ∨ pages.length = c.numPages (c.robj e)) :
    c.Listed { s.setEntry e { s.entry e with userPages := some pages } with
      next := n
      phase := phase } := by
  have hnodup : (e :: todo).Nodup := htodo ▸ h.todo_nodup
  have hmem : ∀ x ∈ e :: todo, x ∈ c.userptrs := htodo ▸ h.todo_mem
  have hother : ∀ x, x ≠ e →
      (s.setEntry e { s.entry e with userPages := some pages }).entry x = s.entry x := by
    intro x hx
    rw [State.setEntry_entry, Function.update_of_ne hx]
  exact {
    todo_nodup := hnodup.sublist htodo'
    todo_mem := fun x hx => hmem x (htodo'.subset hx)
    need_nodup := h.need_nodup
    need_mem := h.need_mem
    empty := fun hr => absurd hr hempty
    apart := fun ht => absurd (htests.symm.trans ht) Bool.false_ne_true
    lacking := fun ht => absurd (htests.symm.trans ht) Bool.false_ne_true
    unfilled := by
      intro x hx
      have hx' : x ∈ todo := hunfilled ▸ hx
      rw [hother x fun heq => (List.nodup_cons.mp hnodup).1 (heq ▸ hx')]
      exact hnone x hx'
    listed := h.listed
    mem := by
      intro x pages' hx
      by_cases hxe : x = e
      · exact hxe ▸ hmem e List.mem_cons_self
      · rw [hother x hxe] at hx
        exact h.mem x pages' hx
    full := by
      intro x pages' hx hnot
      by_cases hxe : x = e
      · subst hxe
        simp only [State.setEntry_entry, Function.update_self, Option.some.injEq] at hx
        exact hx ▸ hfull.resolve_left (hnot todo)
      · rw [hother x hxe] at hx
        exact h.full x pages' hx fun todo' heq => hxe (hcur x todo' heq) }

theorem Call.Listed.alloc (h : c.Listed s) {ok : Bool} (hs : c.alloc s ok = some s') :
    c.Listed s' := by
  unfold Call.alloc at hs
  split at hs
  · next e todo hphase =>
    split at hs
    · cases hs
      refine h.setArray (by rw [hphase]; rfl) (fun x hx => h.unfilled x ?_) ?_ s.next
        (List.Sublist.refl _) rfl (by simp) rfl (.inl rfl)
      · rw [hphase]
        exact List.mem_cons_of_mem e hx
      · simp [hphase]
    · cases hs
      exact (h.clear e _).leave true fun x todo heq => by simp [State.setEntry, hphase] at heq
  · next hphase =>
    cases hs
    exact {
      todo_nodup := List.nodup_nil
      todo_mem := fun _ hx => absurd hx List.not_mem_nil
      need_nodup := List.nodup_nil
      need_mem := fun _ hx => absurd hx List.not_mem_nil
      empty := fun _ => rfl
      apart := fun ht => Bool.noConfusion ht
      lacking := fun ht => Bool.noConfusion ht
      unfilled := fun _ hx => absurd hx List.not_mem_nil
      listed := by
        intro x hx
        have hmem := h.listed x hx
        simp only [List.mem_append]
        tauto
      mem := h.mem
      full := fun x pages hx _ => h.full x pages hx (by simp [hphase]) }
  · cases hs

theorem Call.Listed.pin (h : c.Listed s) {r : Option ℕ} (hs : c.pin s r = some s') :
    c.Listed s' := by
  unfold Call.pin at hs
  split at hs
  · next e todo hphase =>
    dsimp only at hs
    cases r with
    | none =>
      cases hs
      refine ((h.drop _).clear e _).leave true fun x todo' heq => ?_
      have hxe : x = e := by
        simp only [State.setEntry, State.drop, hphase, Phase.pin.injEq] at heq
        exact heq.1.symm
      subst hxe
      simp
    | some r =>
      simp only at hs
      split at hs
      · next hle =>
        cases hs
        have hlen : (((s.entry e).userPages.getD []) ++ List.range' s.next r).length =
            ((s.entry e).userPages.getD []).length + r := by simp
        have hnone : ∀ x ∈ todo, (s.entry x).userPages = none := fun x hx =>
          h.unfilled x (by rwa [hphase])
        have hcur : ∀ x todo', s.phase = .pin x todo' → x = e := by
          intro x todo' heq
          rw [hphase] at heq
          cases heq
          rfl
        refine h.setArray (by rw [hphase]; rfl) hnone hcur (s.next + r) ?_ ?_ ?_ ?_ ?_
        · split
          · exact List.Sublist.refl _
          · exact List.sublist_cons_self e todo
        · split <;> rfl
        · split <;> simp
        · split <;> rfl
        · rw [hlen]
          split
          · exact .inl rfl
          · exact .inr (by omega)
      · cases hs
  · cases hs

theorem Call.Listed.validatePts (h : c.Listed s) {ok : Bool} (hs : c.validatePts s ok = some s') :
    c.Listed s' := by
  unfold Call.validatePts at hs
  split at hs
  · next hphase =>
    split at hs
    · cases hs
      exact h.advance (List.nil_sublist _) (by simp) (by simp [Phase.tests]) rfl (by simp [hphase])
    · cases hs
      exact h.fail (by simp [hphase])
  · cases hs

/-- `list_move` on `validated`. -/
theorem Call.Listed.move (h : c.Listed s) (x : ℕ) :
    c.Listed { s with validated := x :: s.validated.erase x } where
  todo_nodup := h.todo_nodup
  todo_mem := h.todo_mem
  need_nodup := h.need_nodup
  need_mem := h.need_mem
  empty := h.empty
  apart := h.apart
  lacking := h.lacking
  unfilled := h.unfilled
  listed := by
    intro y hy
    by_cases hyx : y = x
    · exact .inl (List.mem_cons.mpr (.inl hyx))
    · obtain hv | hd := h.listed y hy
      · exact .inl (List.mem_cons_of_mem x ((List.mem_erase_of_ne hyx).mpr hv))
      · exact .inr hd
  mem := h.mem
  full := h.full

theorem Call.Listed.evict (h : c.Listed s) {x : ℕ} (hs : c.evict s x = some s') : c.Listed s' := by
  unfold Call.evict at hs
  dsimp only at hs
  split at hs
  · split at hs
    · cases hs
      exact h.move x
    · cases hs
  · split at hs
    · cases hs
      exact h.move x
    · cases hs
  · cases hs

theorem Call.Listed.visit (h : c.Listed s) {moved : Bool} (hs : c.visit s moved = some s') :
    c.Listed s' := by
  unfold Call.visit at hs
  dsimp only at hs
  split at hs
  · next hphase =>
    split at hs
    · cases hs
      exact h.fail (by simp [hphase])
    · split at hs
      · split at hs
        · cases hs
          refine ((h.drop _).setBo _ _).advance (List.nil_sublist _) (by simp)
            (by simp [Phase.tests]) rfl ?_
          simp [State.setBo, State.drop, hphase]
        · cases hs
          exact h.fail (by simp [hphase])
      · cases hs
        exact h.advance (List.nil_sublist _) (by simp) (by simp [Phase.tests]) rfl
          (by simp [hphase])
  · next hphase =>
    cases hs
    exact h.advance (List.nil_sublist _) (by simp) (by simp [Phase.tests]) rfl (by simp [hphase])
  · next hphase =>
    cases hs
    exact h.advance (List.nil_sublist _) (by simp) (by simp [Phase.tests]) rfl (by simp [hphase])
  · cases hs

theorem Call.Listed.validated (h : c.Listed s) {ok : Bool} (hs : c.validated s ok = some s') :
    c.Listed s' := by
  unfold Call.validated at hs
  split at hs
  · next dups e binding hphase =>
    split at hs
    · dsimp only at hs
      cases hs
      cases binding with
      | true =>
        refine (h.clear e _).advance (List.nil_sublist _) (by simp) (by simp [Phase.tests]) rfl ?_
        simp [State.setEntry, hphase]
      | false =>
        exact h.advance (List.nil_sublist _) (by simp) (by simp [Phase.tests]) rfl
          (by simp [hphase])
    · cases hs
      exact h.fail (by simp [hphase])
  · cases hs

theorem Call.Listed.fence (h : c.Listed s) {ok : Bool} (hs : c.fence s ok = some s') :
    c.Listed s' := by
  unfold Call.fence at hs
  split at hs
  · next hphase =>
    split at hs
    · cases hs
      exact h.leave false fun x todo heq => by simp [hphase] at heq
    · cases hs
      exact h.fail (by simp [hphase])
  · cases hs

theorem Call.Listed.freePages (h : c.Listed s) (hs : c.freePages s = some s') : c.Listed s' := by
  unfold Call.freePages at hs
  split at hs
  · next hphase =>
    split at hs
    · cases hs
      refine h.advance ?_ (by simp) ?_ rfl ?_ <;> simp [hphase, Phase.todo, Phase.tests]
    · cases hs
      refine (h.drop _).advance ?_ (by simp) ?_ rfl ?_ <;>
        simp [State.drop, hphase, Phase.todo, Phase.tests]
  · next hphase =>
    cases hs
    exact h.advance (List.nil_sublist _) (by simp) (by simp [Phase.tests]) rfl (by simp [hphase])
  · cases hs

/-- Every step keeps the lists. -/
theorem Call.Listed.step (h : c.Listed s) {event : Event} (hs : c.step s event = some s') :
    c.Listed s' := by
  cases event with
  | reserve v d => exact h.reserve hs
  | reserveFails => exact h.reserveFails hs
  | check => exact h.check hs
  | lacks => exact h.lacks hs
  | alloc ok => exact h.alloc hs
  | pin r => exact h.pin hs
  | validatePts ok => exact h.validatePts hs
  | evict x => exact h.evict hs
  | visit moved => exact h.visit hs
  | validated ok => exact h.validated hs
  | fence ok => exact h.fence hs
  | freePages => exact h.freePages hs
  | invalidate b =>
    cases hs
    exact h.setBo b _
  | replace b n =>
    cases hs
    exact ((h.drop _).setBo b _).next _

end Steps

/-- Before the loop the entries are on `validated`, without arrays. -/
theorem Call.Start.lists (h : c.Start s) : c.Listed s where
  todo_nodup := by simp [h.phase, Phase.todo]
  todo_mem := by simp [h.phase, Phase.todo]
  need_nodup := by simp [h.needPages]
  need_mem := by simp [h.needPages]
  empty := fun _ => h.needPages
  apart := by simp [h.phase, Phase.tests]
  lacking := fun _ x _ => h.userPages x
  unfilled := fun x _ => h.userPages x
  listed := fun x hx => .inl (h.listed x hx)
  mem := fun x pages hx => by simp [h.userPages x] at hx
  full := fun x pages hx => by simp [h.userPages x] at hx

end Gsgpu.ParserBos
