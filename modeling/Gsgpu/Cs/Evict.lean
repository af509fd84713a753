import Gsgpu.Cs.Validate

/-! What the parts of `gsgpu_cs_list_validate` leave as it was: only the BO that is validated moves,
and a BO that is evicted goes where its own domains allow and leaves the order of the other
entries. -/
namespace Gsgpu.Validation
open Vram

variable {j : Job} {T : Ttm} {s s' : Parser} {b : ℕ}

theorem placements_of_ne_empty {domain : Domain} (h : domain ≠ ∅) : placements domain = domain :=
  if_neg h

/-- Only BO `b` may be elsewhere. -/
structure Moved (b : ℕ) (s s' : Parser) : Prop where
  validated : s'.validated = s.validated
  duplicates : s'.duplicates = s.duplicates
  evictable : s'.evictable = s.evictable
  mem : ∀ b', b' ≠ b → s'.mem b' = s.mem b'
  userPages : s'.userPages = s.userPages
  lastSetPages : s'.lastSetPages = s.lastSetPages
  pages : s'.pages = s.pages

theorem Moved.refl (s : Parser) : Moved b s s := ⟨rfl, rfl, rfl, fun _ _ => rfl, rfl, rfl, rfl⟩

theorem Moved.trans {s₁ s₂ s₃ : Parser} (h : Moved b s₁ s₂) (h' : Moved b s₂ s₃) : Moved b s₁ s₃ where
  validated := h'.validated.trans h.validated
  duplicates := h'.duplicates.trans h.duplicates
  evictable := h'.evictable.trans h.evictable
  mem := fun b' hb => (h'.mem b' hb).trans (h.mem b' hb)
  userPages := h'.userPages.trans h.userPages
  lastSetPages := h'.lastSetPages.trans h.lastSetPages
  pages := h'.pages.trans h.pages

theorem Moved.within (h : Moved b s s') : s'.within = s.within := by
  unfold Parser.within
  rw [h.evictable, h.validated]

theorem Moved.list (h : Moved b s s') (w : Which) : s'.list w = s.list w := by
  cases w
  · exact h.validated
  · exact h.duplicates

theorem Moved.needsPages (h : Moved b s s') (b' : ℕ) : s'.needsPages j b' = s.needsPages j b' := by
  unfold Parser.needsPages
  rw [h.lastSetPages]

theorem ttmBoValidate_cases {domain : Domain} {bytes n : UInt64} {r : Except Errno Unit}
    (h : ttmBoValidate T s b domain bytes = (r, n, s')) :
    (∃ m, r = .ok () ∧ m.memType ∈ placements domain ∧
      s' = { s with mem := Function.update s.mem b m }) ∨
    ∃ e, r = .error e ∧ s' = s ∧ (T.validate s b domain).1 = .error e := by
  unfold ttmBoValidate at h
  split at h
  · next m k hm =>
    obtain ⟨rfl, -, rfl⟩ := by simpa only [Prod.mk.injEq] using h
    exact .inl ⟨m, rfl, T.placed s b domain m (by rw [hm]), rfl⟩
  · next e k hm =>
    obtain ⟨rfl, -, rfl⟩ := by simpa only [Prod.mk.injEq] using h
    exact .inr ⟨e, rfl, rfl, by rw [hm]⟩

theorem ttmBoValidate_spec {domain : Domain} {bytes n : UInt64} {r : Except Errno Unit}
    (h : ttmBoValidate T s b domain bytes = (r, n, s')) :
    Moved b s s' ∧ (r = .ok () → (s'.mem b).memType ∈ placements domain) ∧
      (r ≠ .ok () → s'.mem = s.mem) := by
  rcases ttmBoValidate_cases h with ⟨m, rfl, hm, rfl⟩ | ⟨e, rfl, rfl, -⟩
  · refine ⟨⟨rfl, rfl, rfl, fun b' hb => Function.update_of_ne hb _ _, rfl, rfl, rfl⟩, fun _ => ?_,
      fun hne => absurd rfl hne⟩
    dsimp only
    rwa [Function.update_self]
  · exact ⟨.refl _, (fun hok => by cases hok), fun _ => rfl⟩

theorem csBoAttempt_spec {domain : Domain} {bytes n : UInt64} {r : Except Errno Unit}
    (h : csBoAttempt j T s b domain bytes = (r, n, s')) :
    Moved b s s' ∧ (r = .ok () → (s'.mem b).memType ∈ placements domain) ∧
      (r ≠ .ok () → s'.mem = s.mem) := by
  unfold csBoAttempt at h
  rcases hvalidate : ttmBoValidate T s b domain bytes with ⟨r₁, n₁, s₁⟩
  rw [hvalidate] at h
  obtain ⟨rfl, -, rfl⟩ := by simpa only [Prod.mk.injEq] using h
  obtain ⟨hmoved, hok, herror⟩ := ttmBoValidate_spec hvalidate
  exact ⟨{ hmoved with }, hok, herror⟩

theorem firstDomain_cases (j : Job) (s : Parser) (b : ℕ) :
    firstDomain j s b = (j.bo b).preferredDomains ∨ firstDomain j s b = (j.bo b).allowedDomains := by
  unfold firstDomain
  dsimp only
  split
  · split
    · split
      · exact .inl rfl
      · exact .inr rfl
    · exact .inl rfl
  · exact .inr rfl

/-- A BO that is not pinned is where its domains allow it. -/
def Job.Settled (j : Job) (s : Parser) (b : ℕ) : Prop :=
  (j.bo b).pinCount = 0 →
    (s.mem b).memType ∈ (j.bo b).allowedDomains ∪ (j.bo b).preferredDomains

/-- A BO that is not pinned has a domain. -/
def Job.HasDomain (j : Job) (b : ℕ) : Prop :=
  (j.bo b).pinCount = 0 → (j.bo b).allowedDomains ≠ ∅

theorem settled_of_mem {domain : Domain} (hb : j.HasDomain b)
    (hdomain : domain = (j.bo b).preferredDomains ∨ domain = (j.bo b).allowedDomains)
    (h : (s.mem b).memType ∈ placements domain) : j.Settled s b := by
  intro hpin
  have hne := hb hpin
  rcases hdomain with rfl | rfl
  · rw [placements_of_ne_empty (mt (j.bo b).nonempty hne)] at h
    exact Finset.mem_union_right _ h
  · rw [placements_of_ne_empty hne] at h
    exact Finset.mem_union_left _ h

theorem csBoValidate_spec {r : Except Errno Unit} (h : csBoValidate j T s b = (r, s')) :
    Moved b s s' ∧ (r = .ok () → j.HasDomain b → j.Settled s' b) ∧
      (r ≠ .ok () → (j.bo b).pinCount = 0 ∧ s'.mem = s.mem) := by
  unfold csBoValidate at h
  split at h
  · next hpin =>
    obtain ⟨rfl, rfl⟩ := by simpa only [Prod.mk.injEq] using h
    exact ⟨.refl s, fun _ _ hzero => absurd hzero hpin, fun hne => absurd rfl hne⟩
  · next hpin =>
    have hpin := not_ne_iff.mp hpin
    dsimp only at h
    rcases hattempt : csBoAttempt j T s b (firstDomain j s b) 0 with ⟨r₁, n₁, s₁⟩
    obtain ⟨hmoved₁, hok₁, herror₁⟩ := csBoAttempt_spec hattempt
    rw [hattempt] at h
    dsimp only at h
    split at h
    · next hretry =>
      rcases hattempt₂ : csBoAttempt j T s₁ b (j.bo b).allowedDomains n₁ with ⟨r₂, n₂, s₂⟩
      obtain ⟨hmoved₂, hok₂, herror₂⟩ := csBoAttempt_spec hattempt₂
      rw [hattempt₂] at h
      obtain ⟨rfl, rfl⟩ := by simpa only [Prod.mk.injEq] using h
      refine ⟨hmoved₁.trans hmoved₂, fun hok hb => ?_, fun hne => ⟨hpin, ?_⟩⟩
      · exact settled_of_mem hb (.inr rfl) (hok₂ hok)
      · rw [herror₂ hne, herror₁ (by rw [hretry.1]; simp)]
    · obtain ⟨rfl, rfl⟩ := by simpa only [Prod.mk.injEq] using h
      refine ⟨hmoved₁, fun hok hb => ?_, fun hne => ⟨hpin, herror₁ hne⟩⟩
      exact settled_of_mem hb (firstDomain_cases j s b) (hok₁ hok)

/-- The candidate `x` may be moved away for BO `v`: it is where `v` may be, and may be elsewhere. -/
structure Job.Displaces (j : Job) (s : Parser) (v x : ℕ) : Prop where
  ne : j.robj x ≠ v
  pinCount : (j.bo (j.robj x)).pinCount = 0
  mem : (s.mem (j.robj x)).memType ∈ (j.bo v).allowedDomains
  other : ¬ (j.bo (j.robj x)).allowedDomains ⊆ (j.bo v).allowedDomains

/-- `p->evictable` is an entry of the list, in which no entry is twice. -/
structure Parser.Listed (s : Parser) : Prop where
  validated : s.validated.Nodup
  duplicates : s.duplicates.Nodup
  entry : ∀ e, s.evictable = .entry e → e ∈ s.validated

/-- The entry `x` was evicted for BO `v`. -/
structure Job.Evicts (j : Job) (v x : ℕ) (s s' : Parser) : Prop where
  displaces : j.Displaces s v x
  walk : ∃ skipped rest, s.within = skipped ++ x :: rest ∧ (∀ c ∈ skipped, ¬ j.Displaces s v c) ∧
    ∀ y, y ∈ s'.within ↔ rest ≠ [] ∧ (y ∈ rest ∨ y = x)
  mem : ∃ m : Place, m.memType ∈ (j.bo (j.robj x)).allowedDomains \ (j.bo v).allowedDomains ∧
    s'.mem = Function.update s.mem (j.robj x) m
  validated : s'.validated = x :: s.validated.erase x
  duplicates : s'.duplicates = s.duplicates
  userPages : s'.userPages = s.userPages
  lastSetPages : s'.lastSetPages = s.lastSetPages
  pages : s'.pages = s.pages
  listed : s'.Listed

theorem Job.Evicts.within {v x : ℕ} (h : j.Evicts v x s s') : x ∈ s.within := by
  obtain ⟨skipped, rest, split, -, -⟩ := h.walk
  rw [split]
  simp

theorem Job.Evicts.within' {v x : ℕ} (h : j.Evicts v x s s') : ∀ y ∈ s'.within, y = x ∨ y ∈ s.within := by
  obtain ⟨skipped, rest, split, -, hwithin⟩ := h.walk
  intro y hy
  rw [split]
  rcases ((hwithin y).mp hy).2 with hy | rfl
  · exact .inr (List.mem_append_right _ (List.mem_cons_of_mem _ hy))
  · exact .inl rfl

theorem takeWhile_ne_eq {l pre post : List ℕ} {e : ℕ} (hnodup : l.Nodup)
    (hl : l = pre ++ e :: post) : l.takeWhile (· ≠ e) = pre := by
  subst hl
  have hpre : ∀ x ∈ pre, x ≠ e := by
    rintro x hx rfl
    exact (List.nodup_append.mp hnodup).2.2 x hx x (List.mem_cons_self ..) rfl
  rw [List.takeWhile_append_of_pos (by simpa using hpre)]
  simp

theorem Parser.Listed.within_eq {e : ℕ} {pre post : List ℕ} (h : s.Listed)
    (he : s.evictable = .entry e) (hlist : s.validated = pre ++ e :: post) :
    s.within = e :: pre.reverse := by
  unfold Parser.within
  simp only [he]
  rw [takeWhile_ne_eq h.validated hlist]

/-- How the walk over the candidates ends: at the head of the list, at a candidate, or with one
moved away. Those that were passed over before could not be moved. -/
inductive Job.Walked (j : Job) (T : Ttm) (s : Parser) (v : ℕ) (candidates : List ℕ) :
    Bool → Parser → Prop
  | head (bytesMoved bytesMovedVis : UInt64) (passed : ∀ c ∈ candidates, ¬ j.Displaces s v c) :
      j.Walked T s v candidates false { s with
        evictable := .head
        bytesMoved := bytesMoved
        bytesMovedVis := bytesMovedVis }
  | stopped (skipped : List ℕ) (x : ℕ) (rest : List ℕ) (bytesMoved bytesMovedVis : UInt64)
      (split : candidates = skipped ++ x :: rest) (passed : ∀ c ∈ skipped, ¬ j.Displaces s v c)
      (why : j.robj x = v ∨ ∃ domain err, (T.validate s (j.robj x) domain).1 = .error err) :
      j.Walked T s v candidates false { s with
        evictable := .entry x
        bytesMoved := bytesMoved
        bytesMovedVis := bytesMovedVis }
  | moved (skipped : List ℕ) (x : ℕ) (rest : List ℕ) (bytesMoved bytesMovedVis : UInt64) (m : Place)
      (split : candidates = skipped ++ x :: rest) (passed : ∀ c ∈ skipped, ¬ j.Displaces s v c)
      (displaces : j.Displaces s v x)
      (mem : m.memType ∈ (j.bo (j.robj x)).allowedDomains \ (j.bo v).allowedDomains) :
      j.Walked T s v candidates true { s with
        validated := x :: s.validated.erase x
        evictable := prevEntry rest
        bytesMoved := bytesMoved
        bytesMovedVis := bytesMovedVis
        mem := Function.update s.mem (j.robj x) m }

theorem Job.Walked.cons {v : ℕ} {candidates : List ℕ} {t : Bool} {x : ℕ}
    (h : j.Walked T s v candidates t s') (hx : ¬ j.Displaces s v x) :
    j.Walked T s v (x :: candidates) t s' := by
  cases h with
  | head bytesMoved bytesMovedVis passed =>
    exact .head bytesMoved bytesMovedVis (List.forall_mem_cons.mpr ⟨hx, passed⟩)
  | stopped skipped y rest bytesMoved bytesMovedVis split passed why =>
    exact .stopped (x :: skipped) y rest bytesMoved bytesMovedVis (congrArg (x :: ·) split)
      (List.forall_mem_cons.mpr ⟨hx, passed⟩) why
  | moved skipped y rest bytesMoved bytesMovedVis m split passed displaces mem =>
    exact .moved (x :: skipped) y rest bytesMoved bytesMovedVis m (congrArg (x :: ·) split)
      (List.forall_mem_cons.mpr ⟨hx, passed⟩) displaces mem

theorem evictFrom_walked {v : ℕ} {candidates : List ℕ} {t : Bool}
    (h : evictFrom j T s v candidates = (t, s')) : j.Walked T s v candidates t s' := by
  induction candidates with
  | nil =>
    obtain ⟨rfl, rfl⟩ := by simpa only [evictFrom, Prod.mk.injEq] using h
    exact .head s.bytesMoved s.bytesMovedVis fun c hc => absurd hc List.not_mem_nil
  | cons x rest ih =>
    rw [evictFrom] at h
    dsimp only at h
    split at h
    · next heq =>
      obtain ⟨rfl, rfl⟩ := by simpa only [Prod.mk.injEq] using h
      exact .stopped [] x rest s.bytesMoved s.bytesMovedVis rfl
        (fun c hc => absurd hc List.not_mem_nil) (.inl heq)
    · next hne =>
      split at h
      · next hpin => exact (ih h).cons fun hx => hpin hx.pinCount
      · next hpin =>
        split at h
        · next hmem => exact (ih h).cons fun hx => hmem hx.mem
        · next hmem =>
          split at h
          · next hother =>
            exact (ih h).cons fun hx => hx.other (Finset.sdiff_eq_empty_iff_subset.mp hother)
          · next hother =>
            rcases hvalidate : ttmBoValidate T s (j.robj x)
              ((j.bo (j.robj x)).allowedDomains \ (j.bo v).allowedDomains) 0 with ⟨r, n, s₁⟩
            rw [hvalidate] at h
            rcases ttmBoValidate_cases hvalidate with ⟨m, rfl, hm, rfl⟩ | ⟨e, rfl, rfl, he⟩
            · obtain ⟨rfl, rfl⟩ := by simpa only [Prod.mk.injEq] using h
              rw [placements_of_ne_empty hother] at hm
              refine .moved [] x rest _ _ m rfl (fun c hc => absurd hc List.not_mem_nil)
                ⟨hne, not_ne_iff.mp hpin, not_not.mp hmem, ?_⟩ hm
              exact fun hsub => hother (Finset.sdiff_eq_empty_iff_subset.mpr hsub)
            · obtain ⟨rfl, rfl⟩ := by simpa only [Prod.mk.injEq] using h
              exact .stopped [] x rest _ _ rfl (fun c hc => absurd hc List.not_mem_nil)
                (.inr ⟨_, e, he⟩)

theorem Parser.Listed.mem_of_within (h : s.Listed) {x : ℕ} (hx : x ∈ s.within) :
    x ∈ s.validated := by
  unfold Parser.within at hx
  split at hx
  · cases hx
  · cases hx
  · next e he =>
    rcases List.mem_cons.mp hx with rfl | hx
    · exact h.entry _ he
    · exact (List.takeWhile_sublist _).subset (List.mem_reverse.mp hx)

theorem Parser.Listed.congr (h : s.Listed) (hvalidated : s'.validated = s.validated)
    (hduplicates : s'.duplicates = s.duplicates)
    (hevictable : ∀ e, s'.evictable = .entry e → s.evictable = .entry e) : s'.Listed :=
  ⟨hvalidated ▸ h.validated, hduplicates ▸ h.duplicates,
    fun e he => hvalidated ▸ h.entry e (hevictable e he)⟩

theorem Parser.Listed.of_moved (h : s.Listed) (hm : Moved b s s') : s'.Listed :=
  h.congr hm.validated hm.duplicates fun _ he => hm.evictable ▸ he

theorem Parser.Listed.passEvictable (h : s.Listed) (e : ℕ) : (s.passEvictable e).Listed := by
  unfold Parser.passEvictable
  split
  · exact h.congr rfl rfl fun _ he => by cases he
  · exact h

/-- The walk for an eviction ended without one. -/
structure Parser.Held (s s' : Parser) : Prop where
  validated : s'.validated = s.validated
  duplicates : s'.duplicates = s.duplicates
  mem : s'.mem = s.mem
  userPages : s'.userPages = s.userPages
  lastSetPages : s'.lastSetPages = s.lastSetPages
  pages : s'.pages = s.pages
  within : ∀ y ∈ s'.within, y ∈ s.within
  listed : s'.Listed

theorem Parser.Held.list (h : s.Held s') (w : Which) : s'.list w = s.list w := by
  cases w
  · exact h.validated
  · exact h.duplicates

theorem Parser.Listed.split_within (h : s.Listed) {skipped rest : List ℕ} {x : ℕ}
    (hwithin : s.within = skipped ++ x :: rest) :
    ∃ post, s.validated = rest.reverse ++ x :: post := by
  cases he : s.evictable with
  | null => simp [Parser.within, he] at hwithin
  | head => simp [Parser.within, he] at hwithin
  | entry e =>
    obtain ⟨pre, post, hlist⟩ := List.append_of_mem (h.entry e he)
    rw [h.within_eq he hlist] at hwithin
    have hrev := congrArg List.reverse hwithin
    simp only [List.reverse_cons, List.reverse_reverse, List.reverse_append,
      List.append_assoc, List.singleton_append] at hrev
    refine ⟨skipped.reverse ++ post, ?_⟩
    rw [hlist, List.append_cons, hrev]
    simp

/-- The list, and what is left of the walk, after candidate `x` was moved to the head. -/
theorem Parser.Listed.evicted (hs : s.Listed) {skipped rest : List ℕ} {x : ℕ}
    (split : s.within = skipped ++ x :: rest) (hvalidated : s'.validated = x :: s.validated.erase x)
    (hduplicates : s'.duplicates = s.duplicates) (hevictable : s'.evictable = prevEntry rest) :
    s'.Listed ∧ ∀ y, y ∈ s'.within ↔ rest ≠ [] ∧ (y ∈ rest ∨ y = x) := by
  obtain ⟨post, hlist⟩ := hs.split_within split
  have hperm : s'.validated.Perm s.validated := by
    rw [hvalidated]
    refine (List.perm_cons_erase ?_).symm
    rw [hlist]
    simp
  have hnodup := hs.validated
  have herase : s.validated.erase x = rest.reverse ++ post := by
    rw [hlist] at hnodup ⊢
    rw [List.erase_append_right _ fun hx => ?_, List.erase_cons_head]
    exact (List.nodup_append.mp hnodup).2.2 x hx x (List.mem_cons_self ..) rfl
  rw [herase] at hvalidated
  have hlisted : s'.Listed := by
    refine ⟨hperm.nodup_iff.mpr hs.validated, hduplicates ▸ hs.duplicates, fun e he => ?_⟩
    cases rest with
    | nil =>
      rw [hevictable] at he
      cases he
    | cons c rest =>
      rw [hevictable, prevEntry, Evictable.entry.injEq] at he
      rw [hvalidated, ← he]
      simp
  refine ⟨hlisted, fun y => ?_⟩
  cases rest with
  | nil => simp [Parser.within, hevictable, prevEntry]
  | cons c rest =>
    have hlist' : s'.validated = (x :: rest.reverse) ++ c :: post := by
      rw [hvalidated]
      simp
    rw [hlisted.within_eq hevictable hlist']
    simp only [List.reverse_cons, List.reverse_reverse, List.mem_cons, List.mem_append,
      List.not_mem_nil, or_false, ne_eq, reduceCtorEq, not_false_eq_true, true_and]
    tauto

theorem csTryEvict_held {v : ℕ} (hs : s.Listed) (h : csTryEvict j T s v = (false, s')) :
    s.Held s' := by
  unfold csTryEvict at h
  split at h
  · obtain ⟨-, rfl⟩ := by simpa only [Prod.mk.injEq] using h
    exact ⟨rfl, rfl, rfl, rfl, rfl, rfl, fun _ hy => hy, hs⟩
  · cases evictFrom_walked h with
    | head bytesMoved bytesMovedVis passed =>
      refine ⟨rfl, rfl, rfl, rfl, rfl, rfl, fun y hy => ?_, hs.validated, hs.duplicates, fun e he => ?_⟩
      · simp [Parser.within] at hy
      · cases he
    | stopped skipped x rest bytesMoved bytesMovedVis split passed why =>
      obtain ⟨post, hlist⟩ := hs.split_within split
      have hlisted : Parser.Listed { s with
          evictable := .entry x
          bytesMoved := bytesMoved
          bytesMovedVis := bytesMovedVis } := by
        refine ⟨hs.validated, hs.duplicates, fun e he => ?_⟩
        obtain rfl := by simpa only [Evictable.entry.injEq] using he
        show x ∈ s.validated
        rw [hlist]
        simp
      refine ⟨rfl, rfl, rfl, rfl, rfl, rfl, fun y hy => ?_, hlisted⟩
      rw [hlisted.within_eq rfl hlist, List.reverse_reverse] at hy
      rw [split]
      exact List.mem_append_right _ hy

theorem csTryEvict_evicts {v : ℕ} (hs : s.Listed) (h : csTryEvict j T s v = (true, s')) :
    ∃ x, j.Evicts v x s s' := by
  unfold csTryEvict at h
  split at h
  · simp at h
  · cases evictFrom_walked h with
    | moved skipped x rest bytesMoved bytesMovedVis m split passed displaces mem =>
      generalize hs' : ({ s with
        validated := x :: s.validated.erase x
        evictable := prevEntry rest
        bytesMoved := bytesMoved
        bytesMovedVis := bytesMovedVis
        mem := Function.update s.mem (j.robj x) m } : Parser) = s'
      have hvalidated : s'.validated = x :: s.validated.erase x := by rw [← hs']
      obtain ⟨hlisted, hwithin⟩ := hs.evicted split hvalidated (by rw [← hs']) (by rw [← hs'])
      exact ⟨x, displaces, ⟨skipped, rest, split, passed, hwithin⟩, ⟨m, mem, by rw [← hs']⟩,
        hvalidated, by rw [← hs'], by rw [← hs'], by rw [← hs'], by rw [← hs'], hlisted⟩

/-- A walk that comes to a candidate that it may move, and ends without an eviction, was stopped. -/
theorem csTryEvict_stopped {v x : ℕ} (hx : x ∈ s.within) (hdisplaces : j.Displaces s v x)
    (h : csTryEvict j T s v = (false, s')) : ∃ skipped c rest, s.within = skipped ++ c :: rest ∧
      x ∈ c :: rest ∧ (j.robj c = v ∨ ∃ domain err, (T.validate s (j.robj c) domain).1 = .error err) := by
  unfold csTryEvict at h
  split at h
  · next hnull => simp [Parser.within, hnull] at hx
  · cases evictFrom_walked h with
    | head bytesMoved bytesMovedVis passed => exact absurd hdisplaces (passed x hx)
    | stopped skipped c rest bytesMoved bytesMovedVis split passed why =>
      refine ⟨skipped, c, rest, split, ?_, why⟩
      rw [split] at hx
      exact (List.mem_append.mp hx).resolve_left fun hin => passed x hin hdisplaces

end Gsgpu.Validation
