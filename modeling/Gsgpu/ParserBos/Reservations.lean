import Gsgpu.ParserBos.Lists

/-! Which BOs the call has reserved: those of the entries on `validated`, each once, from the
reservation to the return or to the error. -/
namespace Gsgpu.ParserBos

/-- The phases with reservations. -/
def Phase.holds : Phase → Bool
  | .reserve | .fill _ | .pin _ _ | .freePages true _ | .done true => false
  | _ => true

structure Call.Reserved (c : Call) (s : State) : Prop where
  strays : s.strays = []
  held : ∀ b, s.held b = if s.phase.holds then (s.validated.map c.robj).count b else 0
  nodup : s.phase.holds = true → (s.validated.map c.robj).Nodup

variable {c : Call} {s s' : State} {phase : Phase}

/-- `gsgpu_bo_unreserve` for a BO that is reserved. -/
theorem State.unreserve_of_held {b : ℕ} (h : s.held b ≠ 0) :
    s.unreserve b = { s with held := Function.update s.held b (s.held b - 1) } := by
  unfold State.unreserve
  rw [if_neg h]

/-- `ttm_eu_backoff_reservation` for the entries whose BOs are reserved. -/
theorem Call.backoff_of_held {list : List ℕ}
    (h : ∀ b, s.held b = (list.map c.robj).count b) :
    c.backoff s list = { s with held := fun _ => 0 } := by
  induction list generalizing s with
  | nil =>
    have hzero : s.held = fun _ => 0 := funext h
    rw [← hzero]
    rfl
  | cons e list ih =>
    have hheld : s.held (c.robj e) = (list.map c.robj).count (c.robj e) + 1 := by
      rw [h, List.map_cons, List.count_cons_self]
    change c.backoff (s.unreserve (c.robj e)) list = _
    rw [State.unreserve_of_held (by omega), ih]
    intro b
    by_cases hb : b = c.robj e
    · subst hb
      simp only [Function.update_self]
      omega
    · simp only [Function.update_of_ne hb]
      rw [h, List.map_cons, List.count_cons_of_ne (Ne.symm hb)]

namespace Call.Reserved

theorem held_of_holds (h : c.Reserved s) (hphase : s.phase.holds = true) (b : ℕ) :
    s.held b = (s.validated.map c.robj).count b := by
  rw [h.held, if_pos hphase]

theorem held_eq_zero (h : c.Reserved s) (hphase : s.phase.holds = false) (b : ℕ) :
    s.held b = 0 := by
  rw [h.held, hphase]
  rfl

/-- The reservations stay as they are. -/
theorem keep (h : c.Reserved s) (hstrays : s'.strays = s.strays) (hheld : s'.held = s.held)
    (hvalidated : s'.validated = s.validated) (hholds : s'.phase.holds = s.phase.holds) :
    c.Reserved s' := by
  refine ⟨hstrays.trans h.strays, fun b => ?_, fun hh => ?_⟩
  · rw [hheld, hvalidated, hholds]
    exact h.held b
  · rw [hvalidated]
    exact h.nodup (hholds ▸ hh)

/-- The order of the list does not matter. -/
theorem perm (h : c.Reserved s) {list : List ℕ} (hperm : list.Perm s.validated) :
    c.Reserved { s with validated := list } := by
  refine ⟨h.strays, fun b => ?_, fun hh => ?_⟩
  · rw [(hperm.map c.robj).count_eq]
    exact h.held b
  · exact (hperm.map c.robj).nodup_iff.mpr (h.nodup hh)

/-- Without reservations. -/
theorem of_zero (hstrays : s.strays = []) (hheld : ∀ b, s.held b = 0)
    (hholds : s.phase.holds = false) : c.Reserved s := by
  refine ⟨hstrays, fun b => ?_, fun hh => ?_⟩
  · rw [hheld, hholds]
    rfl
  · rw [hholds] at hh
    cases hh

/-- Everything on `validated` is unreserved. -/
theorem backoff (h : c.Reserved s) (hphase : s.phase.holds = true) :
    c.backoff s s.validated = { s with held := fun _ => 0 } :=
  Call.backoff_of_held (h.held_of_holds hphase)

theorem fail (h : c.Reserved s) (hphase : s.phase.holds = true) : c.Reserved (c.fail s) := by
  unfold Call.fail
  rw [h.backoff hphase]
  exact of_zero h.strays (fun _ => rfl) rfl

theorem reserve (h : c.Reserved s) {v d : List ℕ} (hs : c.reserve s v d = some s') :
    c.Reserved s' := by
  unfold Call.reserve at hs
  split at hs
  · next hphase =>
    split at hs
    · next hcond =>
      cases hs
      refine ⟨h.strays, fun b => ?_, fun _ => hcond.2.1⟩
      change s.held b + _ = _
      rw [h.held_eq_zero (by rw [hphase]; rfl), Nat.zero_add]
      rfl
    · cases hs
  · cases hs

theorem reserveFails (h : c.Reserved s) (hs : c.reserveFails s = some s') : c.Reserved s' := by
  unfold Call.reserveFails at hs
  split at hs
  · next hphase =>
    cases hs
    exact h.keep rfl rfl rfl (by rw [hphase]; rfl)
  · cases hs

theorem check (h : c.Reserved s) (hs : c.check s = some s') : c.Reserved s' := by
  unfold Call.check at hs
  split at hs
  · next hphase =>
    dsimp only at hs
    split at hs
    · cases hs
      exact h.keep rfl rfl rfl (by rw [hphase]; rfl)
    · cases hs
      exact h.keep rfl rfl rfl (by rw [hphase]; rfl)
  · next hphase =>
    split at hs
    · cases hs
      exact h.keep rfl rfl rfl (by rw [hphase]; rfl)
    · rw [h.backoff (by rw [hphase]; rfl)] at hs
      dsimp only at hs
      split at hs
      · cases hs
        exact of_zero h.strays (fun _ => rfl) rfl
      · cases hs
        exact of_zero h.strays (fun _ => rfl) rfl
  · cases hs

/-- Where an entry that lacks its pages is not on the duplicates, it is the one that its BO is
reserved for. -/
theorem lacks (h : c.Reserved s) (hl : c.Listed s)
    (hgood : ∀ e todo, s.phase = .lacks e todo → c.lacksPages s e = true → e ∉ s.duplicates)
    (hs : c.lacks s = some s') : c.Reserved s' := by
  unfold Call.lacks at hs
  split at hs
  · next e todo hphase =>
    have hholds : s.phase.holds = true := by rw [hphase]; rfl
    split at hs
    · next hlacks =>
      cases hs
      have hneed : e ∉ s.needPages :=
        hl.apart (by simp [hphase, Phase.tests]) e (by simp [hphase, Phase.todo])
      have hvalidated : e ∈ s.validated := by
        have hmem := hl.listed e (hl.todo_mem e (by simp [hphase, Phase.todo]))
        have hdup := hgood e todo hphase hlacks
        tauto
      have hperm := (List.perm_cons_erase hvalidated).map c.robj
      have hcount : ∀ b, s.held b = (c.robj e :: (s.validated.erase e).map c.robj).count b := by
        intro b
        rw [h.held_of_holds hholds, hperm.count_eq, List.map_cons]
      have hself : s.held (c.robj e) =
          ((s.validated.erase e).map c.robj).count (c.robj e) + 1 := by
        rw [hcount, List.count_cons_self]
      rw [State.unreserve_of_held (b := c.robj e) (by change s.held (c.robj e) ≠ 0; omega)]
      refine ⟨h.strays, fun b => ?_, fun _ => ?_⟩
      · change Function.update s.held (c.robj e) (s.held (c.robj e) - 1) b =
          ((s.validated.erase e).map c.robj).count b
        by_cases hb : b = c.robj e
        · subst hb
          rw [Function.update_self]
          omega
        · rw [Function.update_of_ne hb, hcount, List.count_cons_of_ne (Ne.symm hb)]
      · have hnodup := hperm.nodup_iff.mp (h.nodup hholds)
        rw [List.map_cons] at hnodup
        exact (List.nodup_cons.mp hnodup).2
    · cases hs
      exact h.keep rfl rfl rfl (by rw [hphase]; rfl)
  · cases hs

theorem alloc (h : c.Reserved s) {ok : Bool} (hs : c.alloc s ok = some s') : c.Reserved s' := by
  unfold Call.alloc at hs
  split at hs
  · next hphase =>
    split at hs
    · cases hs
      exact h.keep rfl rfl rfl (by rw [hphase]; rfl)
    · cases hs
      exact h.keep rfl rfl rfl (by rw [show s.phase = _ from hphase]; rfl)
  · next hphase =>
    cases hs
    exact of_zero h.strays (h.held_eq_zero (by rw [hphase]; rfl)) rfl
  · cases hs

theorem pin (h : c.Reserved s) {r : Option ℕ} (hs : c.pin s r = some s') : c.Reserved s' := by
  unfold Call.pin at hs
  split at hs
  · next hphase =>
    have hholds : s.phase.holds = false := by rw [hphase]; rfl
    dsimp only at hs
    split at hs
    · cases hs
      exact of_zero h.strays (h.held_eq_zero hholds) rfl
    · split at hs
      · cases hs
        refine of_zero h.strays (h.held_eq_zero hholds) ?_
        dsimp only
        split <;> rfl
      · cases hs
  · cases hs

theorem validatePts (h : c.Reserved s) {ok : Bool} (hs : c.validatePts s ok = some s') :
    c.Reserved s' := by
  unfold Call.validatePts at hs
  split at hs
  · next hphase =>
    split at hs
    · cases hs
      exact h.keep rfl rfl rfl (by rw [hphase]; rfl)
    · cases hs
      exact h.fail (by rw [hphase]; rfl)
  · cases hs

theorem evict (h : c.Reserved s) {x : ℕ} (hs : c.evict s x = some s') : c.Reserved s' := by
  unfold Call.evict at hs
  dsimp only at hs
  split at hs
  · split at hs
    · next hx =>
      cases hs
      exact h.perm (List.perm_cons_erase hx).symm
    · cases hs
  · split at hs
    · next hx =>
      cases hs
      exact h.perm (List.perm_cons_erase hx.1).symm
    · cases hs
  · cases hs

theorem visit (h : c.Reserved s) {moved : Bool} (hs : c.visit s moved = some s') :
    c.Reserved s' := by
  unfold Call.visit at hs
  dsimp only at hs
  split at hs
  · next hphase =>
    have hholds : s.phase.holds = true := by rw [hphase]; rfl
    split at hs
    · cases hs
      exact h.fail hholds
    · split at hs
      · split at hs
        · cases hs
          exact h.keep rfl rfl rfl hholds.symm
        · cases hs
          exact h.fail hholds
      · cases hs
        exact h.keep rfl rfl rfl hholds.symm
  · next hphase =>
    cases hs
    exact h.keep rfl rfl rfl (by rw [hphase]; rfl)
  · next hphase =>
    cases hs
    exact h.keep rfl rfl rfl (by rw [hphase]; rfl)
  · cases hs

theorem validated (h : c.Reserved s) {ok : Bool} (hs : c.validated s ok = some s') :
    c.Reserved s' := by
  unfold Call.validated at hs
  split at hs
  · next binding hphase =>
    have hholds : s.phase.holds = true := by rw [hphase]; rfl
    split at hs
    · dsimp only at hs
      cases hs
      cases binding <;> exact h.keep rfl rfl rfl hholds.symm
    · cases hs
      exact h.fail hholds
  · cases hs

theorem fence (h : c.Reserved s) {ok : Bool} (hs : c.fence s ok = some s') : c.Reserved s' := by
  unfold Call.fence at hs
  split at hs
  · next hphase =>
    have hholds : s.phase.holds = true := by rw [hphase]; rfl
    split at hs
    · cases hs
      exact h.keep rfl rfl rfl hholds.symm
    · cases hs
      exact h.fail hholds
  · cases hs

theorem freePages (h : c.Reserved s) (hs : c.freePages s = some s') : c.Reserved s' := by
  unfold Call.freePages at hs
  split at hs
  · next failed e todo hphase =>
    split at hs
    · cases hs
      exact h.keep rfl rfl rfl (by rw [hphase]; cases failed <;> rfl)
    · cases hs
      exact h.keep rfl rfl rfl (by rw [hphase]; cases failed <;> rfl)
  · next failed hphase =>
    cases hs
    exact h.keep rfl rfl rfl (by rw [hphase]; cases failed <;> rfl)
  · cases hs

end Call.Reserved

end Gsgpu.ParserBos
