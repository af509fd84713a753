import Gsgpu.ParserBos.Lists

/-! Where each reference to a page is: dropped, with a BO or with an entry. The array of an entry
is still there when `gsgpu_cs_validate` runs after its pages were set, but no longer its owner, and
at `error_free_pages` each array is dropped once. -/
namespace Gsgpu.ParserBos
open Custody

/-- Whether an entry is still to give its array up. -/
def Phase.owns : Phase → ℕ → Bool
  | .validate _ e true, x => x != e
  | .freePages _ todo, x => todo.contains x
  | .done _, _ => false
  | _, _ => true

/-- Where a reference can be. -/
inductive Place
  | dropped
  | ttm (b : ℕ)
  | array (e : ℕ)
deriving DecidableEq

def State.hold (s : State) : Place → List ℕ
  | .dropped => s.dropped
  | .ttm b => (s.bo b).pages
  | .array e => if s.phase.owns e then (s.entry e).userPages.getD [] else []

/-- Every reference is at one place. -/
def State.Accounted (s : State) : Prop := Exact s.hold s.next

variable {c : Call} {s s' : State} {phase : Phase} {e : ℕ} {todo : List ℕ}

theorem State.hold_array :
    s.hold (.array e) = if s.phase.owns e then (s.entry e).userPages.getD [] else [] := rfl

theorem State.owns_of_phase (hphase : s.phase = phase) (howns : ∀ x, phase.owns x = true) (x : ℕ) :
    s.phase.owns x = true := by
  rw [hphase]
  exact howns x

/-- What an entry that owns its array has. -/
theorem State.hold_array_owned (h : s.phase.owns e = true) :
    s.hold (.array e) = (s.entry e).userPages.getD [] := by
  rw [State.hold_array, if_pos h]

theorem State.hold_array_none (h : (s.entry e).userPages = none) : s.hold (.array e) = [] := by
  rw [State.hold_array, h, Option.getD_none, ite_self]

theorem State.hold_array_congr (hphase : s'.phase.owns e = s.phase.owns e)
    (hpages : (s'.entry e).userPages.getD [] = (s.entry e).userPages.getD []) :
    s'.hold (.array e) = s.hold (.array e) := by
  rw [State.hold_array, State.hold_array, hphase, hpages]

theorem State.hold_array_not (h : s.phase.owns e = false) : s.hold (.array e) = [] := by
  rw [State.hold_array, h]
  rfl

namespace State.Accounted

/-- No reference moves where the arrays and their owners are the same. -/
theorem same (h : s.Accounted) (hnext : s'.next = s.next)
    (hdropped : s'.dropped = s.dropped) (hpages : ∀ b, (s'.bo b).pages = (s.bo b).pages)
    (harray : ∀ x, s'.hold (.array x) = s.hold (.array x)) : s'.Accounted := by
  unfold State.Accounted
  rw [hnext]
  refine h.congr fun k => ?_
  cases k with
  | dropped => exact hdropped
  | ttm b => exact hpages b
  | array x => exact harray x

/-- An entry drops its array. -/
theorem drop (h : s.Accounted) (e : ℕ) (hnext : s'.next = s.next)
    (hdropped : s'.dropped = s.dropped ++ s.hold (.array e))
    (hpages : ∀ b, (s'.bo b).pages = (s.bo b).pages) (hself : s'.hold (.array e) = [])
    (hothers : ∀ x, x ≠ e → s'.hold (.array x) = s.hold (.array x)) : s'.Accounted := by
  unfold State.Accounted
  rw [hnext]
  have hne : Place.array e ≠ .dropped := by simp
  refine (h.given hne).congr fun k => ?_
  cases k with
  | dropped =>
    rw [give_to]
    exact hdropped
  | ttm b =>
    rw [give_of_ne _ (by simp) (by simp)]
    exact hpages b
  | array x =>
    by_cases hx : x = e
    · subst hx
      rw [give_from _ hne]
      exact hself
    · rw [give_of_ne _ (by simpa using hx) (by simp)]
      exact hothers x hx

/-- A BO drops its pages, and gets those of an entry. -/
theorem set (h : s.Accounted) (e b : ℕ) (hnext : s'.next = s.next)
    (hdropped : s'.dropped = s.dropped ++ (s.bo b).pages)
    (hpages : (s'.bo b).pages = s.hold (.array e))
    (hother : ∀ b', b' ≠ b → (s'.bo b').pages = (s.bo b').pages)
    (hself : s'.hold (.array e) = [])
    (hothers : ∀ x, x ≠ e → s'.hold (.array x) = s.hold (.array x)) : s'.Accounted := by
  unfold State.Accounted
  rw [hnext]
  have hne : Place.ttm b ≠ .dropped := by simp
  have hne' : Place.array e ≠ .ttm b := by simp
  refine ((h.given hne).given hne').congr fun k => ?_
  cases k with
  | dropped =>
    rw [give_of_ne _ (by simp) (by simp), give_to]
    exact hdropped
  | ttm b' =>
    by_cases hb : b' = b
    · subst hb
      rw [give_to, give_from _ hne, give_of_ne _ (by simp) (by simp), List.nil_append]
      exact hpages
    · rw [give_of_ne _ (by simp) (by simpa using hb), give_of_ne _ (by simpa using hb) (by simp)]
      exact hother b' hb
  | array x =>
    by_cases hx : x = e
    · subst hx
      rw [give_from _ hne']
      exact hself
    · rw [give_of_ne _ (by simpa using hx) (by simp), give_of_ne _ (by simp) (by simp)]
      exact hothers x hx

/-- An entry gets `n` more references. -/
theorem more (h : s.Accounted) (e n : ℕ) (hnext : s'.next = s.next + n)
    (hdropped : s'.dropped = s.dropped) (hpages : ∀ b, (s'.bo b).pages = (s.bo b).pages)
    (hself : s'.hold (.array e) = s.hold (.array e) ++ List.range' s.next n)
    (hothers : ∀ x, x ≠ e → s'.hold (.array x) = s.hold (.array x)) : s'.Accounted := by
  unfold State.Accounted
  rw [hnext]
  refine (h.made (k := .array e) n).congr fun k => ?_
  cases k with
  | dropped =>
    rw [make_of_ne _ (by simp)]
    exact hdropped
  | ttm b =>
    rw [make_of_ne _ (by simp)]
    exact hpages b
  | array x =>
    by_cases hx : x = e
    · subst hx
      rw [make_self]
      exact hself
    · rw [make_of_ne _ (by simpa using hx)]
      exact hothers x hx

/-- A BO drops its pages, and gets `n` others. -/
theorem replace (h : s.Accounted) (b n : ℕ) :
    (s.replace b n).Accounted := by
  have hne : Place.ttm b ≠ .dropped := by simp
  refine ((h.given hne).made (k := .ttm b) n).congr fun k => ?_
  cases k with
  | dropped =>
    rw [make_of_ne _ (by simp), give_to]
    rfl
  | ttm b' =>
    by_cases hb : b' = b
    · subst hb
      rw [make_self, give_from _ hne, List.nil_append]
      simp [State.hold, State.replace, State.setUserPages, State.setBo, State.drop]
    · rw [make_of_ne _ (by simpa using hb), give_of_ne _ (by simpa using hb) (by simp)]
      simp [State.hold, State.replace, State.setUserPages, State.setBo, State.drop, hb]
  | array x =>
    rw [make_of_ne _ (by simp), give_of_ne _ (by simp) (by simp)]
    rfl

/-- The phase changes, and no array its owner. -/
theorem setPhase (h : s.Accounted)
    (howns : ∀ x, (s.entry x).userPages ≠ none → phase.owns x = s.phase.owns x) :
    (s.setPhase phase).Accounted := by
  refine h.same rfl rfl (fun _ => rfl) fun x => ?_
  by_cases hx : (s.entry x).userPages = none
  · rw [State.hold_array_none hx]
    exact State.hold_array_none hx
  · rw [State.hold_array, State.hold_array]
    change (if phase.owns x then (s.entry x).userPages.getD [] else []) = _
    rw [howns x hx]

/-- The reservations do not matter to the references. -/
theorem held (h : s.Accounted) (held : ℕ → ℕ) (strays : List ℕ) (tries : ℕ) :
    { s with held := held, strays := strays, tries := tries }.Accounted :=
  h.congr fun k => by cases k <;> rfl

/-- The loop at `error_free_pages` starts, where every entry owns its array. -/
theorem leave (h : s.Accounted) (hl : c.Listed s) (failed : Bool)
    (howns : ∀ x, (s.entry x).userPages ≠ none → s.phase.owns x = true) :
    (c.leave s failed).Accounted := by
  refine h.setPhase fun x hx => ?_
  obtain ⟨pages, hpages⟩ := Option.ne_none_iff_exists'.mp hx
  rw [howns x hx]
  simpa [Phase.owns] using hl.mem x pages hpages

theorem fail (h : s.Accounted) (hl : c.Listed s)
    (howns : ∀ x, (s.entry x).userPages ≠ none → s.phase.owns x = true) :
    (c.fail s).Accounted := by
  obtain ⟨held, strays, heq⟩ := c.backoff_eq s s.validated
  unfold Call.fail
  rw [heq]
  exact (h.held held strays s.tries).leave (hl.held held strays s.tries) true howns

/-! The steps of the call. -/
section Steps

/-- Where every entry owns its array. -/
theorem advance (h : s.Accounted) (hphase : ∀ x, s.phase.owns x = true)
    (hphase' : ∀ x, phase.owns x = true) : (s.setPhase phase).Accounted :=
  h.setPhase fun x _ => by rw [hphase, hphase']

theorem reserve (h : s.Accounted) {v d : List ℕ} (hs : c.reserve s v d = some s') :
    s'.Accounted := by
  unfold Call.reserve at hs
  split at hs
  · next hphase =>
    split at hs
    · cases hs
      refine h.same rfl rfl (fun _ => rfl) fun x => ?_
      rw [State.hold_array, State.hold_array, hphase]
      rfl
    · cases hs
  · cases hs

theorem reserveFails (h : s.Accounted) (hl : c.Listed s) (hs : c.reserveFails s = some s') :
    s'.Accounted := by
  unfold Call.reserveFails at hs
  split at hs
  · next hphase =>
    cases hs
    exact h.leave hl true fun x _ => State.owns_of_phase hphase (fun _ => rfl) x
  · cases hs

/-- The array of an entry, where it is full. -/
theorem take_array (hl : c.Listed s) {pages : List ℕ} (hpages : (s.entry e).userPages = some pages)
    (hpin : ∀ todo, s.phase ≠ .pin e todo) (howns : s.phase.owns e = true) :
    pages.take (c.numPages (c.robj e)) = s.hold (.array e) := by
  rw [State.hold_array_owned howns, hpages, Option.getD_some,
    List.take_of_length_le (hl.full e pages hpages hpin).le]

theorem check (h : s.Accounted) (hl : c.Listed s) (hs : c.check s = some s') :
    s'.Accounted := by
  unfold Call.check at hs
  split at hs
  · next e todo hphase =>
    have howns := State.owns_of_phase hphase fun _ => rfl
    dsimp only at hs
    split at hs
    · next pages _ hpages =>
      cases hs
      refine h.drop e rfl ?_ (fun _ => rfl) ?_ fun x hx => ?_
      · rw [← take_array hl hpages (by simp [hphase]) (howns e)]
        rfl
      · exact State.hold_array_none (by simp [State.setPhase])
      · rw [State.hold_array_owned (howns x), State.hold_array_owned rfl]
        simp [State.setPhase, State.drop, hx]
    · cases hs
      refine h.same rfl rfl (fun _ => rfl) fun x => ?_
      rw [State.hold_array_owned (howns x), State.hold_array_owned rfl]
      by_cases hx : x = e
      · subst hx
        simp [State.setPhase]
      · simp [State.setPhase, hx]
  · next hphase =>
    have howns := State.owns_of_phase hphase fun _ => rfl
    split at hs
    · cases hs
      exact h.advance howns fun _ => rfl
    · obtain ⟨held, strays, heq⟩ := c.backoff_eq s s.validated
      rw [heq] at hs
      have hback := h.held held strays (s.tries - 1)
      dsimp only at hs
      split at hs
      · cases hs
        exact hback.leave (hl.held held strays (s.tries - 1)) true fun x _ => howns x
      · cases hs
        exact hback.advance howns fun _ => rfl
  · cases hs

theorem lacks (h : s.Accounted) (hs : c.lacks s = some s') : s'.Accounted := by
  unfold Call.lacks at hs
  split at hs
  · next e todo hphase =>
    have howns := State.owns_of_phase hphase fun _ => rfl
    split at hs
    · cases hs
      obtain ⟨held, strays, heq⟩ := State.unreserve_eq { s with
        validated := s.validated.erase e
        duplicates := s.duplicates.erase e
        needPages := e :: s.needPages } (c.robj e)
      rw [heq]
      refine h.same rfl rfl (fun _ => rfl) fun x => ?_
      rw [State.hold_array_owned (howns x), State.hold_array_owned rfl]
      rfl
    · cases hs
      exact h.advance howns fun _ => rfl
  · cases hs

theorem alloc (h : s.Accounted) (hl : c.Listed s) {ok : Bool} (hs : c.alloc s ok = some s') :
    s'.Accounted := by
  unfold Call.alloc at hs
  split at hs
  · next e todo hphase =>
    have howns := State.owns_of_phase hphase fun _ => rfl
    have hnone : (s.entry e).userPages = none :=
      hl.unfilled e (by simp [hphase, Phase.unfilled])
    split at hs
    · cases hs
      refine h.same rfl rfl (fun _ => rfl) fun x => ?_
      rw [State.hold_array_owned (howns x), State.hold_array_owned rfl]
      by_cases hx : x = e
      · subst hx
        simp [State.setPhase, hnone]
      · simp [State.setPhase, hx]
    · cases hs
      have hsame : (s.setEntry e { s.entry e with userPages := none }).Accounted := by
        refine h.same rfl rfl (fun _ => rfl) fun x => State.hold_array_congr rfl ?_
        by_cases hx : x = e
        · subst hx
          simp [hnone]
        · simp [hx]
      exact hsame.leave (hl.clear e _) true fun x _ => howns x
  · next hphase =>
    cases hs
    refine h.same rfl rfl (fun _ => rfl) fun x => ?_
    rw [State.hold_array_owned rfl, State.hold_array_owned (by rw [hphase]; rfl)]
  · cases hs

theorem pin (h : s.Accounted) (hl : c.Listed s) {r : Option ℕ} (hs : c.pin s r = some s') :
    s'.Accounted := by
  unfold Call.pin at hs
  split at hs
  · next e todo hphase =>
    have howns := State.owns_of_phase hphase fun _ => rfl
    dsimp only at hs
    cases r with
    | none =>
      cases hs
      have hdrop : ((s.drop ((s.entry e).userPages.getD [])).setEntry e
          { s.entry e with userPages := none }).Accounted := by
        refine h.drop e rfl ?_ (fun _ => rfl) ?_ fun x hx => ?_
        · rw [State.hold_array_owned (howns e)]
          rfl
        · exact State.hold_array_none (by simp)
        · exact State.hold_array_congr rfl (by simp [State.drop, hx])
      exact hdrop.leave ((hl.drop _).clear e _) true fun x _ => howns x
    | some r =>
      simp only at hs
      split at hs
      · cases hs
        have howns' : ∀ x, (if ((s.entry e).userPages.getD []).length + r <
            c.numPages (c.robj e) then Phase.pin e todo else .fill todo).owns x = true := by
          intro x
          split <;> rfl
        refine h.more e r rfl rfl (fun _ => rfl) ?_ fun x hx => ?_
        · rw [State.hold_array_owned (howns e), State.hold_array_owned (howns' e)]
          simp
        · rw [State.hold_array_owned (howns x), State.hold_array_owned (howns' x)]
          simp [hx]
      · cases hs
  · cases hs

theorem validatePts (h : s.Accounted) (hl : c.Listed s) {ok : Bool}
    (hs : c.validatePts s ok = some s') : s'.Accounted := by
  unfold Call.validatePts at hs
  split at hs
  · next hphase =>
    have howns := State.owns_of_phase hphase fun _ => rfl
    split at hs
    · cases hs
      exact h.advance howns fun _ => rfl
    · cases hs
      exact h.fail hl fun x _ => howns x
  · cases hs

theorem evict (h : s.Accounted) {x : ℕ} (hs : c.evict s x = some s') : s'.Accounted := by
  unfold Call.evict at hs
  dsimp only at hs
  split at hs
  · split at hs
    · cases hs
      exact h.same rfl rfl (fun _ => rfl) fun _ => rfl
    · cases hs
  · split at hs
    · cases hs
      exact h.same rfl rfl (fun _ => rfl) fun _ => rfl
    · cases hs
  · cases hs

theorem visit (h : s.Accounted) (hl : c.Listed s) {moved : Bool} (hs : c.visit s moved = some s') :
    s'.Accounted := by
  unfold Call.visit at hs
  dsimp only at hs
  split at hs
  · next dups e hphase =>
    have howns := State.owns_of_phase hphase fun _ => rfl
    split at hs
    · cases hs
      exact h.fail hl fun x _ => howns x
    · split at hs
      · next pages _ hpages =>
        split at hs
        · cases hs
          refine h.set e (c.robj e) rfl rfl ?_ (fun b hb => ?_) ?_ fun x hx => ?_
          · rw [← take_array hl hpages (by simp [hphase]) (howns e)]
            simp [State.setPhase, State.setUserPages, State.setBo]
          · simp [State.setPhase, State.setUserPages, State.setBo, State.drop, hb]
          · exact State.hold_array_not (by simp [State.setPhase, Phase.owns])
          · rw [State.hold_array_owned (howns x)]
            exact State.hold_array_owned (by simp [State.setPhase, Phase.owns, hx])
        · cases hs
          exact h.fail hl fun x _ => howns x
      · cases hs
        exact h.advance howns fun _ => rfl
  · next hphase =>
    cases hs
    exact h.advance (State.owns_of_phase hphase fun _ => rfl) fun _ => rfl
  · next hphase =>
    cases hs
    exact h.advance (State.owns_of_phase hphase fun _ => rfl) fun _ => rfl
  · cases hs

/-- Where `gsgpu_cs_validate` does not fail once the pages of its entry are set. -/
theorem validated (h : s.Accounted) (hl : c.Listed s) {ok : Bool}
    (hgood : ∀ dups e, s.phase = .validate dups e true → ok = true)
    (hs : c.validated s ok = some s') : s'.Accounted := by
  unfold Call.validated at hs
  split at hs
  · next dups e binding hphase =>
    cases binding with
    | true =>
      rw [if_pos (hgood dups e hphase)] at hs
      cases hs
      refine h.same rfl rfl (fun _ => rfl) fun x => ?_
      by_cases hx : x = e
      · subst hx
        rw [State.hold_array_none (by simp [State.setPhase]),
          State.hold_array_not (by simp [hphase, Phase.owns])]
      · rw [State.hold_array_owned rfl, State.hold_array_owned (by simp [hphase, Phase.owns, hx])]
        simp [State.setPhase, hx]
    | false =>
      have howns := State.owns_of_phase hphase fun _ => rfl
      split at hs
      · cases hs
        exact h.advance howns fun _ => rfl
      · cases hs
        exact h.fail hl fun x _ => howns x
  · cases hs

theorem fence (h : s.Accounted) (hl : c.Listed s) {ok : Bool} (hs : c.fence s ok = some s') :
    s'.Accounted := by
  unfold Call.fence at hs
  split at hs
  · next hphase =>
    have howns := State.owns_of_phase hphase fun _ => rfl
    split at hs
    · cases hs
      exact h.leave hl false fun x _ => howns x
    · cases hs
      exact h.fail hl fun x _ => howns x
  · cases hs

theorem freePages (h : s.Accounted) (hl : c.Listed s) (hs : c.freePages s = some s') :
    s'.Accounted := by
  unfold Call.freePages at hs
  split at hs
  · next failed e todo hphase =>
    have htodo : (e :: todo).Nodup := by simpa [hphase, Phase.todo] using hl.todo_nodup
    have howns : s.phase.owns e = true := by simp [hphase, Phase.owns]
    split at hs
    · next hnone =>
      cases hs
      refine h.setPhase fun x hx => ?_
      have hxe : x ≠ e := fun heq => hx (heq ▸ hnone)
      simp [hphase, Phase.owns, hxe]
    · next pages hpages =>
      cases hs
      refine h.drop e rfl ?_ (fun _ => rfl) ?_ fun x hx => ?_
      · rw [← take_array hl hpages (by simp [hphase]) howns]
        rfl
      · exact State.hold_array_not (by simpa [State.setPhase, Phase.owns] using
          (List.nodup_cons.mp htodo).1)
      · rw [State.hold_array, State.hold_array]
        simp [State.setPhase, State.drop, hphase, Phase.owns, hx]
  · next hphase =>
    cases hs
    exact h.setPhase fun x _ => by simp [hphase, Phase.owns]
  · cases hs

end Steps

end State.Accounted

end Gsgpu.ParserBos
