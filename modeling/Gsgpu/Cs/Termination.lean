import Gsgpu.Cs.Evict

/-! The loops of `gsgpu_cs_list_validate` end. Every eviction for a BO takes one more BO out of that
BO's domains, and the list after the entry that is being visited only gets shorter. -/
namespace Gsgpu.Validation
open Vram

variable {j : Job} {T : Ttm} {s s' : Parser} {w : Which}

/-- What every way through the loop of `gsgpu_cs_validate` keeps, and what it has at its end. -/
theorem csValidate_rule {I Q : Parser → Prop} {b : ℕ}
    (hbo : ∀ s r s', I s → csBoValidate j T s b = (r, s') → I s' ∧ (r = .ok () → Q s'))
    (hevict : ∀ s t s', I s → (j.bo b).pinCount = 0 → csTryEvict j T s b = (t, s') → I s')
    (hshadow : ∀ shadow, (j.bo b).shadow = some shadow → ∀ s r s', I s → Q s →
      csBoValidate j T s shadow = (r, s') → I s' ∧ Q s') {fuel : ℕ} {r : Except Errno Unit}
    (hs : I s) (h : csValidate j T fuel s b = some (r, s')) : I s' ∧ (r = .ok () → Q s') := by
  induction fuel generalizing s with
  | zero => cases h
  | succ fuel ih =>
    rw [csValidate] at h
    rcases hvalidate : csBoValidate j T s b with ⟨r₁, s₁⟩
    rw [hvalidate] at h
    obtain ⟨hs₁, hok⟩ := hbo s r₁ s₁ hs hvalidate
    cases r₁ with
    | error e =>
      have hpin := ((csBoValidate_spec hvalidate).2.2 (by simp)).1
      by_cases he : e = .enomem
      · subst he
        dsimp only at h
        rcases htry : csTryEvict j T s₁ b with ⟨t, s₂⟩
        rw [htry] at h
        have hs₂ := hevict s₁ t s₂ hs₁ hpin htry
        cases t with
        | true => exact ih hs₂ h
        | false =>
          obtain ⟨rfl, rfl⟩ := by simpa only [Option.some.injEq, Prod.mk.injEq] using h
          exact ⟨hs₂, fun hr => by cases hr⟩
      · have h : some (Except.error e, s₁) = some (r, s') := by
          rw [← h]
          cases e <;> first | rfl | exact absurd rfl he
        obtain ⟨rfl, rfl⟩ := by simpa only [Option.some.injEq, Prod.mk.injEq] using h
        exact ⟨hs₁, fun hr => by cases hr⟩
    | ok u =>
      cases hsh : (j.bo b).shadow with
      | none =>
        simp only [hsh, Option.some.injEq, Prod.mk.injEq] at h
        obtain ⟨rfl, rfl⟩ := h
        exact ⟨hs₁, hok⟩
      | some shadow =>
        simp only [hsh, Option.some.injEq] at h
        obtain ⟨hs₂, hQ⟩ := hshadow shadow hsh s₁ r s' hs₁ (hok rfl) h
        exact ⟨hs₂, fun _ => hQ⟩

theorem countP_lt_countP {α : Type*} {p q : α → Bool} {l : List α} {x : α} (hx : x ∈ l)
    (hle : ∀ y ∈ l, p y → q y) (hq : q x = true) (hp : p x = false) :
    l.countP p < l.countP q := by
  obtain ⟨l₁, l₂, rfl⟩ := List.append_of_mem hx
  have h₁ : l₁.countP p ≤ l₁.countP q :=
    List.countP_mono_left fun y hy => hle y (List.mem_append_left _ hy)
  have h₂ : l₂.countP p ≤ l₂.countP q :=
    List.countP_mono_left fun y hy => hle y (List.mem_append_right _ (List.mem_cons_of_mem _ hy))
  simp only [List.countP_append, List.countP_cons, hq, hp, if_true, Bool.false_eq_true, if_false]
  omega

/-- The entries whose BO is where BO `v` may be. -/
def Job.crowd (j : Job) (v : ℕ) (s : Parser) : ℕ :=
  s.validated.countP fun x => decide ((s.mem (j.robj x)).memType ∈ (j.bo v).allowedDomains)

theorem Job.Evicts.crowd_lt {v x : ℕ} (h : j.Evicts v x s s') (hs : s.Listed) :
    j.crowd v s' < j.crowd v s := by
  obtain ⟨m, hm, hmem⟩ := h.mem
  have hx := hs.mem_of_within h.within
  have hperm : s'.validated.Perm s.validated := by
    rw [h.validated]
    exact (List.perm_cons_erase hx).symm
  unfold Job.crowd
  rw [hperm.countP_eq, hmem]
  refine countP_lt_countP hx (fun y _ hy => ?_) (by simpa using h.displaces.mem) ?_
  · by_cases hxy : j.robj y = j.robj x
    · rw [hxy, Function.update_self] at hy
      exact absurd (of_decide_eq_true hy) (Finset.mem_sdiff.mp hm).2
    · rwa [Function.update_of_ne hxy] at hy
  · rw [Function.update_self]
    exact decide_eq_false (Finset.mem_sdiff.mp hm).2

theorem csValidate_terminates (hs : s.Listed) (b : ℕ) :
    ∃ fuel r s', csValidate j T fuel s b = some (r, s') := by
  induction hn : j.crowd b s using Nat.strong_induction_on generalizing s with
  | _ n ih =>
    rcases hvalidate : csBoValidate j T s b with ⟨r, s₁⟩
    obtain ⟨hmoved, -, herror⟩ := csBoValidate_spec hvalidate
    cases r with
    | ok u =>
      cases hsh : (j.bo b).shadow with
      | none => exact ⟨1, .ok (), s₁, by simp only [csValidate, hvalidate, hsh]⟩
      | some shadow =>
        exact ⟨1, (csBoValidate j T s₁ shadow).1, (csBoValidate j T s₁ shadow).2,
          by simp only [csValidate, hvalidate, hsh]⟩
    | error e =>
      by_cases he : e = .enomem
      · subst he
        have hs₁ := hs.of_moved hmoved
        have hcrowd : j.crowd b s₁ = j.crowd b s := by
          unfold Job.crowd
          rw [hmoved.validated, (herror (by simp)).2]
        rcases htry : csTryEvict j T s₁ b with ⟨t, s₂⟩
        cases t with
        | false => exact ⟨1, .error .enomem, s₂, by simp only [csValidate, hvalidate, htry]⟩
        | true =>
          obtain ⟨x, hx⟩ := csTryEvict_evicts hs₁ htry
          have hlt := hx.crowd_lt hs₁
          obtain ⟨fuel, r, s', h⟩ := ih (j.crowd b s₂) (by omega) hx.listed rfl
          exact ⟨fuel + 1, r, s', by simp only [csValidate, hvalidate, htry, h]⟩
      · refine ⟨1, .error e, s₁, ?_⟩
        rw [csValidate, hvalidate]
        cases e <;> first | rfl | exact absurd rfl he

theorem csValidate_mono {fuel fuel' b : ℕ} {out : Except Errno Unit × Parser} (hle : fuel ≤ fuel')
    (h : csValidate j T fuel s b = some out) : csValidate j T fuel' s b = some out := by
  induction fuel generalizing fuel' s with
  | zero => cases h
  | succ fuel ih =>
    obtain ⟨fuel', rfl⟩ : ∃ n, fuel' = n + 1 := ⟨fuel' - 1, by omega⟩
    rw [csValidate] at h ⊢
    rcases hvalidate : csBoValidate j T s b with ⟨r, s₁⟩
    rw [hvalidate] at h
    cases r with
    | ok u => exact h
    | error e =>
      by_cases he : e = .enomem
      · subst he
        dsimp only at h ⊢
        rcases htry : csTryEvict j T s₁ b with ⟨t, s₂⟩
        rw [htry] at h
        cases t with
        | true => exact ih (by omega) h
        | false => exact h
      · cases e <;> first | exact h | exact absurd rfl he

theorem csVisit_mono {fuel fuel' e : ℕ} {out : Except Errno Unit × Parser} (hle : fuel ≤ fuel')
    (h : csVisit j T fuel s e = some out) : csVisit j T fuel' s e = some out := by
  unfold csVisit at h ⊢
  by_cases hmm : j.Foreign (j.robj e)
  · rw [if_pos hmm] at h ⊢
    exact h
  · rw [if_neg hmm] at h ⊢
    rcases hbind : bindUserPages j T s e with ⟨r, s₁⟩
    rw [hbind] at h
    cases r with
    | error r => exact h
    | ok binding =>
      dsimp only at h ⊢
      cases hvalidate : csValidate j T fuel (s₁.passEvictable e) (j.robj e) with
      | none => simp [hvalidate] at h
      | some o =>
        rw [csValidate_mono hle hvalidate]
        rwa [hvalidate] at h

theorem listLoop_mono {fuel fuel' : ℕ} {cur : Option ℕ} {out : Except Errno Unit × Parser}
    (hle : fuel ≤ fuel') (h : listLoop j T w fuel s cur = some out) :
    listLoop j T w fuel' s cur = some out := by
  induction fuel generalizing fuel' s cur with
  | zero => cases h
  | succ fuel ih =>
    obtain ⟨fuel', rfl⟩ : ∃ n, fuel' = n + 1 := ⟨fuel' - 1, by omega⟩
    cases cur with
    | none => exact h
    | some e =>
      rw [listLoop] at h ⊢
      cases hvisit : csVisit j T fuel s e with
      | none => simp [hvisit] at h
      | some o =>
        rw [csVisit_mono (by omega) hvisit]
        rw [hvisit] at h
        obtain ⟨r, s₁⟩ := o
        cases r with
        | error r => exact h
        | ok u => exact ih (by omega) h

/-- The loop is at entry `e`, with `post` after it. -/
structure Parser.At (w : Which) (e : ℕ) (post : List ℕ) (s : Parser) : Prop where
  listed : s.Listed
  split : ∃ pre, s.list w = pre ++ e :: post

/-- What an eviction leaves of the entries that are still to be visited. -/
def Which.evict (w : Which) (x : ℕ) (post : List ℕ) : List ℕ :=
  match w with
  | .validated => post.erase x
  | .duplicates => post

theorem Which.evict_sublist (w : Which) (x : ℕ) (post : List ℕ) :
    (w.evict x post).Sublist post := by
  cases w
  · exact List.erase_sublist
  · exact List.Sublist.refl post

theorem Parser.Listed.nodup_list (h : s.Listed) (w : Which) : (s.list w).Nodup := by
  cases w
  · exact h.validated
  · exact h.duplicates

section At

variable {e : ℕ} {post : List ℕ}

theorem Parser.At.nodup (h : s.At w e post) : (e :: post).Nodup := by
  obtain ⟨pre, hpre⟩ := h.split
  have := h.listed.nodup_list w
  rw [hpre] at this
  exact this.of_append_right

theorem Parser.At.moved {b : ℕ} (h : s.At w e post) (hm : Moved b s s') : s'.At w e post :=
  ⟨h.listed.of_moved hm, (hm.list w) ▸ h.split⟩

theorem Parser.At.held (h : s.At w e post) (hh : s.Held s') : s'.At w e post :=
  ⟨hh.listed, (hh.list w) ▸ h.split⟩

theorem Parser.At.evicts {x : ℕ} (h : s.At w e post) (hx : j.Evicts (j.robj e) x s s') :
    s'.At w e (w.evict x post) := by
  refine ⟨hx.listed, ?_⟩
  obtain ⟨pre, hpre⟩ := h.split
  cases w with
  | duplicates => exact ⟨pre, hx.duplicates.trans hpre⟩
  | validated =>
    have hne : x ≠ e := by
      rintro rfl
      exact hx.displaces.ne rfl
    have hpre : s.validated = pre ++ e :: post := hpre
    have hvalidated : s'.validated = x :: s.validated.erase x := hx.validated
    rw [hpre, List.erase_append] at hvalidated
    split at hvalidated
    · next hin =>
      -- an entry that was visited before: none is after the current one
      have hnodup := h.listed.validated
      rw [hpre] at hnodup
      have hpost : x ∉ post := fun hpost =>
        (List.nodup_append.mp hnodup).2.2 x hin x (List.mem_cons_of_mem _ hpost) rfl
      refine ⟨x :: pre.erase x, ?_⟩
      show s'.validated = _ ++ e :: post.erase x
      rw [hvalidated, List.erase_of_not_mem hpost, List.cons_append]
    · refine ⟨x :: pre, ?_⟩
      show s'.validated = _ ++ e :: post.erase x
      rw [hvalidated, List.erase_cons_tail (by simpa using hne.symm), List.cons_append]

theorem Parser.At.congr (h : s.At w e post) (hs : s'.Listed) (hlist : s'.list w = s.list w) :
    s'.At w e post :=
  ⟨hs, hlist ▸ h.split⟩

theorem Parser.At.unique {post' : List ℕ} (h : s.At w e post) (h' : s.At w e post') :
    post = post' := by
  obtain ⟨pre, hpre⟩ := h.split
  obtain ⟨pre', hpre'⟩ := h'.split
  have hnodup := h.listed.nodup_list w
  obtain rfl : pre = pre' :=
    (takeWhile_ne_eq hnodup hpre).symm.trans (takeWhile_ne_eq hnodup hpre')
  exact (List.cons.inj (List.append_cancel_left (hpre.symm.trans hpre'))).2

/-- The entries after `e` are the ones that are visited next. -/
theorem Parser.At.nextEntry (h : s.At w e post) : nextEntry (s.list w) e = post.head? := by
  obtain ⟨pre, hpre⟩ := h.split
  have hnodup := h.listed.nodup_list w
  rw [hpre] at hnodup ⊢
  have hne : ∀ x ∈ pre, x ≠ e := by
    rintro x hx rfl
    exact (List.nodup_append.mp hnodup).2.2 x hx x (List.mem_cons_self ..) rfl
  unfold Validation.nextEntry
  rw [List.dropWhile_append_of_pos (by simpa using hne)]
  simp

end At

theorem bindUserPages_cases {e : ℕ} {r : Except Errno Bool}
    (h : bindUserPages j T s e = (r, s')) :
    (∃ err, r = .error err) ∨
    (r = .ok false ∧ s' = s ∧ ¬ (s.needsPages j (j.robj e) = true ∧ s.userPages e = true)) ∨
    r = .ok true ∧ s.needsPages j (j.robj e) = true ∧ s.userPages e = true ∧
      ∃ s₁, Moved (j.robj e) s s₁ ∧ s' = s₁.setUserPages j (j.robj e) e := by
  unfold bindUserPages at h
  dsimp only at h
  split at h
  · next hneeds =>
    rcases hvalidate : ttmBoValidate T s (j.robj e) {.system} 0 with ⟨r₁, n, s₁⟩
    rw [hvalidate] at h
    cases r₁ with
    | error err =>
      obtain ⟨rfl, -⟩ := by simpa only [Prod.mk.injEq] using h
      exact .inl ⟨err, rfl⟩
    | ok u =>
      obtain ⟨rfl, rfl⟩ := by simpa only [Prod.mk.injEq] using h
      obtain ⟨hneeds, hcarries⟩ := Bool.and_eq_true_iff.mp hneeds
      exact .inr (.inr ⟨rfl, hneeds, hcarries, s₁, (ttmBoValidate_spec hvalidate).1, rfl⟩)
  · next hneeds =>
    obtain ⟨rfl, rfl⟩ := by simpa only [Prod.mk.injEq] using h
    exact .inr (.inl ⟨rfl, rfl, by simpa using hneeds⟩)

theorem Parser.Listed.bind {e : ℕ} {binding : Bool} (hs : s.Listed)
    (h : bindUserPages j T s e = (.ok binding, s')) : s'.Listed ∧ ∀ w, s'.list w = s.list w := by
  rcases bindUserPages_cases h with ⟨err, hr⟩ | ⟨-, rfl, -⟩ | ⟨-, -, -, s₁, hmoved, rfl⟩
  · cases hr
  · exact ⟨hs, fun _ => rfl⟩
  · exact ⟨(hs.of_moved hmoved).congr rfl rfl fun _ he => he, fun w => by
      rw [← hmoved.list w]
      cases w <;> rfl⟩

theorem passEvictable_list (s : Parser) (e : ℕ) (w : Which) : (s.passEvictable e).list w = s.list w := by
  unfold Parser.passEvictable
  split
  · cases w <;> rfl
  · rfl

theorem csVisit_ok {fuel e : ℕ} (h : csVisit j T fuel s e = some (.ok (), s')) :
    ∃ binding s₁ s₂, bindUserPages j T s e = (.ok binding, s₁) ∧
      csValidate j T fuel (s₁.passEvictable e) (j.robj e) = some (.ok (), s₂) ∧
      s' = if binding then { s₂ with userPages := Function.update s₂.userPages e false } else s₂ := by
  unfold csVisit at h
  split at h
  · simp at h
  · rcases hbind : bindUserPages j T s e with ⟨r, s₁⟩
    rw [hbind] at h
    cases r with
    | error r => simp at h
    | ok binding =>
      dsimp only at h
      cases hvalidate : csValidate j T fuel (s₁.passEvictable e) (j.robj e) with
      | none => simp [hvalidate] at h
      | some o =>
        obtain ⟨r, s₂⟩ := o
        rw [hvalidate] at h
        cases r with
        | error r => simp at h
        | ok u =>
          refine ⟨binding, s₁, s₂, rfl, hvalidate, ?_⟩
          cases binding
          · simpa using h.symm
          · simpa using h.symm

/-- A visit of an entry leaves the entry where it is, and none more after it. -/
theorem csVisit_at {fuel e : ℕ} {post : List ℕ} (hs : s.At w e post)
    (h : csVisit j T fuel s e = some (.ok (), s')) :
    ∃ post', post'.Sublist post ∧ s'.At w e post' := by
  obtain ⟨binding, s₁, s₂, hbind, hvalidate, hs'⟩ := csVisit_ok h
  obtain ⟨hlisted, hlist⟩ := hs.listed.bind hbind
  have hs₁ : (s₁.passEvictable e).At w e post :=
    hs.congr (hlisted.passEvictable e) ((passEvictable_list s₁ e w).trans (hlist w))
  obtain ⟨⟨post', hsub, hs₂⟩, -⟩ := csValidate_rule (Q := fun _ => True)
    (I := fun s => ∃ post', post'.Sublist post ∧ s.At w e post')
    (fun s r s' ⟨post', hsub, hs⟩ h => ⟨⟨post', hsub, hs.moved (csBoValidate_spec h).1⟩, fun _ => trivial⟩)
    (fun s t s' ⟨post', hsub, hs⟩ _ h => by
      cases t with
      | false => exact ⟨post', hsub, hs.held (csTryEvict_held hs.listed h)⟩
      | true =>
        obtain ⟨x, hx⟩ := csTryEvict_evicts hs.listed h
        exact ⟨w.evict x post', (w.evict_sublist x post').trans hsub, hs.evicts hx⟩)
    (fun _ _ s r s' ⟨post', hsub, hs⟩ _ h => ⟨⟨post', hsub, hs.moved (csBoValidate_spec h).1⟩, trivial⟩)
    ⟨post, List.Sublist.refl post, hs₁⟩ hvalidate
  refine ⟨post', hsub, ?_⟩
  rw [hs']
  split
  · exact hs₂.congr (hs₂.listed.congr rfl rfl fun _ he => he) (by cases w <;> rfl)
  · exact hs₂

theorem csVisit_terminates (hs : s.Listed) (e : ℕ) :
    ∃ fuel r s', csVisit j T fuel s e = some (r, s') := by
  by_cases hmm : j.Foreign (j.robj e)
  · exact ⟨0, .error .eperm, s, if_pos hmm⟩
  · rcases hbind : bindUserPages j T s e with ⟨r, s₁⟩
    cases r with
    | error err => exact ⟨0, .error err, s₁, by rw [csVisit, if_neg hmm, hbind]⟩
    | ok binding =>
      have hs₁ := (hs.bind hbind).1.passEvictable e
      obtain ⟨fuel, r, s', h⟩ := csValidate_terminates (j := j) (T := T) hs₁ (j.robj e)
      cases r with
      | error err => exact ⟨fuel, .error err, s', by simp only [csVisit, if_neg hmm, hbind, h]⟩
      | ok u =>
        refine ⟨fuel, .ok (), if binding then
          { s' with userPages := Function.update s'.userPages e false } else s', ?_⟩
        simp only [csVisit, if_neg hmm, hbind, h]
        split <;> rfl

/-- The walk over the entries ends, whatever TTM makes of them. -/
theorem listLoop_terminates (hs : s.Listed) {pre todo : List ℕ} (hlist : s.list w = pre ++ todo) :
    ∃ fuel r s', listLoop j T w fuel s todo.head? = some (r, s') := by
  induction hn : todo.length using Nat.strong_induction_on generalizing s pre todo with
  | _ n ih =>
    cases todo with
    | nil => exact ⟨1, .ok (), s, rfl⟩
    | cons e post =>
      obtain ⟨fuel, r, s₁, hvisit⟩ := csVisit_terminates (j := j) (T := T) hs e
      cases r with
      | error err => exact ⟨fuel + 1, .error err, s₁, by simp only [List.head?_cons, listLoop, hvisit]⟩
      | ok u =>
        obtain ⟨post', hsub, hs₁⟩ := csVisit_at ⟨hs, pre, hlist⟩ hvisit
        obtain ⟨pre', hpre'⟩ := hs₁.split
        have hlt : post'.length < n := by
          have := hsub.length_le
          simp only [List.length_cons] at hn
          omega
        obtain ⟨fuel', r, s', h⟩ := ih post'.length hlt hs₁.listed
          (hpre'.trans (List.append_cons pre' e post')) rfl
        refine ⟨max fuel fuel' + 1, r, s', ?_⟩
        rw [List.head?_cons, listLoop, csVisit_mono (le_max_left fuel fuel') hvisit]
        dsimp only
        rw [hs₁.nextEntry]
        exact listLoop_mono (le_max_right fuel fuel') h

theorem csListValidate_terminates (hs : s.Listed) (w : Which) :
    ∃ fuel r s', csListValidate j T w fuel s = some (r, s') :=
  listLoop_terminates hs (List.nil_append _).symm

end Gsgpu.Validation
