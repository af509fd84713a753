import Gsgpu.Cs.ListValidate

/-! When `gsgpu_cs_list_validate` loses an entry. If an entry can be evicted for a BO that is visited
before it, TTM can make the call come to that: it has no memory for that BO until the entry is gone,
and room for all the others. -/
namespace Gsgpu.Validation
open Vram

variable {j : Job} {T : Ttm} {s₀ s s' : Parser} {w : Which}


/-- A choice among placements. -/
def pickPlace (domain : Domain) : Place :=
  ⟨if .system ∈ domain then .system else if .tt ∈ domain then .tt else .vram, false⟩

theorem pickPlace_mem {domain : Domain} (h : domain ≠ ∅) : (pickPlace domain).memType ∈ domain := by
  unfold pickPlace
  dsimp only
  split
  · assumption
  · next hsystem =>
    split
    · assumption
    · next htt =>
      obtain ⟨m, hm⟩ := Finset.nonempty_iff_ne_empty.mpr h
      cases m
      · exact absurd hm hsystem
      · exact absurd hm htt
      · exact hm

theorem placements_ne_empty (domain : Domain) : placements domain ≠ ∅ := by
  unfold placements
  split
  · exact Finset.singleton_ne_empty _
  · assumption

/-- TTM has no memory left for the BOs of `p`, and room for the others. -/
def Ttm.failing (p : Parser → ℕ → Bool) : Ttm where
  validate := fun s b domain =>
    if p s b then (.error .enomem, 0) else (.ok (pickPlace (placements domain)), 0)
  placed := by
    intro s b domain m hm
    split at hm
    · cases hm
    · obtain rfl := Except.ok.inj hm
      exact pickPlace_mem (placements_ne_empty domain)

variable {p : Parser → ℕ → Bool} {b : ℕ}

theorem ttmBoValidate_room (hp : p s b = false) (domain : Domain) (bytes : UInt64) :
    ∃ n s', ttmBoValidate (.failing p) s b domain bytes = (.ok (), n, s') := by
  unfold ttmBoValidate Ttm.failing
  simp [hp]

theorem csBoValidate_room (hp : p s b = false) :
    ∃ s', csBoValidate j (.failing p) s b = (.ok (), s') := by
  unfold csBoValidate
  split
  · exact ⟨s, rfl⟩
  · obtain ⟨n, s', hs'⟩ := ttmBoValidate_room hp (firstDomain j s b) 0
    dsimp only
    unfold csBoAttempt
    rw [hs']
    simp

/-- Both attempts fail. -/
theorem csBoValidate_full (hpin : (j.bo b).pinCount = 0) (hp : ∀ s', Moved b s s' → s'.mem = s.mem →
    p s' b = true) : (csBoValidate j (.failing p) s b).1 = .error .enomem := by
  have hfail : ∀ s', Moved b s s' → s'.mem = s.mem → ∀ domain bytes,
      (csBoAttempt j (.failing p) s' b domain bytes).1 = .error .enomem := by
    intro s' hm hmem domain bytes
    unfold csBoAttempt ttmBoValidate Ttm.failing
    simp [hp s' hm hmem]
  unfold csBoValidate
  rw [if_neg (not_not.mpr hpin)]
  dsimp only
  rcases hattempt : csBoAttempt j (.failing p) s b (firstDomain j s b) 0 with ⟨r, n, s₁⟩
  have hr : r = .error .enomem := by
    have := hfail s (.refl s) rfl (firstDomain j s b) 0
    rwa [hattempt] at this
  subst hr
  obtain ⟨hm, -, herror⟩ := csBoAttempt_spec hattempt
  dsimp only
  split
  · exact hfail s₁ hm (herror (by simp)) _ _
  · rfl

theorem bindUserPages_room {e : ℕ} (hp : j.Carries s e → p s (j.robj e) = false) :
    ∃ binding s', bindUserPages j (.failing p) s e = (.ok binding, s') := by
  unfold bindUserPages
  dsimp only
  split
  · next hneeds =>
    obtain ⟨n, s', hs'⟩ := ttmBoValidate_room (hp (Bool.and_eq_true_iff.mp hneeds)) {.system} 0
    rw [hs']
    exact ⟨true, _, rfl⟩
  · exact ⟨false, s, rfl⟩

/-- A visit that TTM does not make fail in its first part returns what `gsgpu_cs_validate` does. -/
theorem csVisit_of_bind {fuel e : ℕ} {r : Except Errno Unit} (hmm : ¬ j.Foreign (j.robj e))
    (hbind : ∃ binding s', bindUserPages j T s e = (.ok binding, s'))
    (h : csVisit j T fuel s e = some (r, s')) : ∃ binding s₁ s₂,
      bindUserPages j T s e = (.ok binding, s₁) ∧
      csValidate j T fuel (s₁.passEvictable e) (j.robj e) = some (r, s₂) := by
  obtain ⟨binding, s₁, hs₁⟩ := hbind
  rw [csVisit, if_neg hmm, hs₁] at h
  dsimp only at h
  cases hvalidate : csValidate j T fuel (s₁.passEvictable e) (j.robj e) with
  | none => simp [hvalidate] at h
  | some o =>
    obtain ⟨r', s₂⟩ := o
    refine ⟨binding, s₁, s₂, hs₁, ?_⟩
    rw [hvalidate] at h
    cases r' with
    | error err =>
      obtain ⟨rfl, -⟩ := by simpa only [Option.some.injEq, Prod.mk.injEq] using h
      exact hvalidate
    | ok u =>
      dsimp only at h
      split at h
      · obtain ⟨rfl, -⟩ := by simpa only [Option.some.injEq, Prod.mk.injEq] using h
        exact hvalidate
      · obtain ⟨rfl, -⟩ := by simpa only [Option.some.injEq, Prod.mk.injEq] using h
        exact hvalidate

/-- TTM has room for a BO and for its shadow. -/
theorem csValidate_room {fuel : ℕ} {r : Except Errno Unit} (hp : p s b = false)
    (hshadow : ∀ shadow, (j.bo b).shadow = some shadow → ∀ s, p s shadow = false)
    (h : csValidate j (.failing p) fuel s b = some (r, s')) :
    r = .ok () ∧ ∃ s₁, Moved b s s₁ ∧
      (s' = s₁ ∨ ∃ shadow, (j.bo b).shadow = some shadow ∧ Moved shadow s₁ s') := by
  cases fuel with
  | zero => cases h
  | succ fuel =>
    obtain ⟨s₁, hs₁⟩ := csBoValidate_room (j := j) hp
    obtain ⟨hm, -, -⟩ := csBoValidate_spec hs₁
    rw [csValidate, hs₁] at h
    dsimp only at h
    split at h
    · obtain ⟨rfl, rfl⟩ := by simpa only [Option.some.injEq, Prod.mk.injEq] using h
      exact ⟨rfl, s₁, hm, .inl rfl⟩
    · next shadow hsh =>
      obtain ⟨s₂, hs₂⟩ := csBoValidate_room (j := j) (hshadow shadow hsh s₁)
      rw [hs₂] at h
      obtain ⟨rfl, rfl⟩ := by simpa only [Option.some.injEq, Prod.mk.injEq] using h
      exact ⟨rfl, s₁, hm, .inr ⟨shadow, hsh, (csBoValidate_spec hs₂).1⟩⟩

/-- There is no memory for the BO of `e` as long as that of `x` is where it may be; but when the pages
that `e` carries are set there is room in system memory. -/
def Job.full (j : Job) (e x : ℕ) (s : Parser) (b : ℕ) : Bool :=
  decide (b = j.robj e) && decide ((s.mem (j.robj x)).memType ∈ (j.bo (j.robj e)).allowedDomains) &&
    !(s.needsPages j (j.robj e) && s.userPages e)

variable {e x : ℕ}

theorem full_of_ne (hb : b ≠ j.robj e) (s : Parser) : j.full e x s b = false := by
  simp [Job.full, hb]

theorem full_of_carries (h : j.Carries s e) (b : ℕ) : j.full e x s b = false := by
  simp [Job.full, h.1, h.2]

theorem full_iff : j.full e x s (j.robj e) = true ↔
    (s.mem (j.robj x)).memType ∈ (j.bo (j.robj e)).allowedDomains ∧ ¬ j.Carries s e := by
  cases hneeds : s.needsPages j (j.robj e) <;> simp [Job.full, Job.Carries, hneeds]

/-- The visit of `e` has begun, and `x` can still be evicted for its BO. -/
structure Job.Crowded (j : Job) (e x : ℕ) (post : List ℕ) (s : Parser) : Prop where
  here : s.At .validated e post
  robj : (s.validated.map j.robj).Nodup
  mem : x ∈ post
  within : x ∈ s.within
  displaces : j.Displaces s (j.robj e) x
  pages : s.pages (j.robj x) = none
  carries : ¬ j.Carries s e

/-- Entry `x` is no longer after `e`, and its pages are not set. -/
structure Job.Lost (j : Job) (e x : ℕ) (s : Parser) : Prop where
  here : ∃ post, x ∉ post ∧ s.At .validated e post
  robj : (s.validated.map j.robj).Nodup
  pages : s.pages (j.robj x) = none

section Crowded

variable {post : List ℕ}

/-- Only where the BO of `x` is matters, not what the attempts count. -/
theorem Job.Crowded.moved (h : j.Crowded e x post s) (hm : Moved (j.robj e) s s') :
    j.Crowded e x post s' where
  here := h.here.moved hm
  robj := hm.validated ▸ h.robj
  mem := h.mem
  within := hm.within ▸ h.within
  displaces := { h.displaces with
    mem := by rw [hm.mem _ h.displaces.ne]; exact h.displaces.mem }
  pages := by rw [hm.pages]; exact h.pages
  carries := fun hc => h.carries (hc.congr hm.lastSetPages.symm hm.userPages.symm)

theorem Job.Crowded.full (h : j.Crowded e x post s) : j.full e x s (j.robj e) = true :=
  full_iff.mpr ⟨h.displaces.mem, h.carries⟩

theorem Job.Crowded.entry_mem (h : j.Crowded e x post s) : e ∈ s.validated := by
  obtain ⟨pre, hpre⟩ := h.here.split
  have hpre : s.validated = pre ++ e :: post := hpre
  rw [hpre]
  simp

/-- Between `p->evictable` and `x` there is no entry of the BO that is visited. -/
theorem Job.Crowded.not_stopped (h : j.Crowded e x post s) {skipped rest : List ℕ} {c : ℕ}
    (hwithin : s.within = skipped ++ c :: rest) (hx : x ∈ c :: rest) : j.robj c ≠ j.robj e := by
  intro hc
  have hce : c = e := by
    refine List.inj_on_of_nodup_map h.robj (h.here.listed.mem_of_within ?_) h.entry_mem hc
    rw [hwithin]
    simp
  subst hce
  have hx : x ∈ rest := (List.mem_cons.mp hx).resolve_left fun heq => h.displaces.ne (heq ▸ hc)
  obtain ⟨post', hlist⟩ := h.here.listed.split_within hwithin
  obtain ⟨pre, hpre⟩ := h.here.split
  have hpre : s.validated = pre ++ c :: post := hpre
  have hnodup := h.here.listed.validated
  have heq : rest.reverse = pre :=
    (takeWhile_ne_eq hnodup hlist).symm.trans (takeWhile_ne_eq hnodup hpre)
  rw [hpre] at hnodup
  have hin : x ∈ pre := heq ▸ List.mem_reverse.mpr hx
  exact (List.nodup_append.mp hnodup).2.2 x hin x (List.mem_cons_of_mem _ h.mem) rfl

theorem Job.Evicts.robj {v y : ℕ} (h : j.Evicts v y s s') (hs : s.Listed)
    (hrobj : (s.validated.map j.robj).Nodup) : (s'.validated.map j.robj).Nodup := by
  rw [h.validated]
  exact ((List.perm_cons_erase (hs.mem_of_within h.within)).symm.map j.robj).nodup_iff.mpr hrobj

/-- The loop of `gsgpu_cs_validate` goes on until `x` is evicted. -/
theorem Job.Crowded.validate (h : j.Crowded e x post s) (hpin : (j.bo (j.robj e)).pinCount = 0)
    (hshadow : ∀ shadow, (j.bo (j.robj e)).shadow = some shadow → shadow ≠ j.robj e) {fuel : ℕ}
    {r : Except Errno Unit}
    (hvalidate : csValidate j (.failing (j.full e x)) fuel s (j.robj e) = some (r, s')) :
    r = .ok () ∧ j.Lost e x s' := by
  induction fuel generalizing s post with
  | zero => cases hvalidate
  | succ fuel ih =>
    have hfull := csBoValidate_full (j := j) (p := j.full e x) hpin fun s' hm _ => (h.moved hm).full
    rw [csValidate] at hvalidate
    rcases hbo : csBoValidate j (.failing (j.full e x)) s (j.robj e) with ⟨r₁, s₁⟩
    rw [hbo] at hvalidate hfull
    obtain rfl : r₁ = .error .enomem := hfull
    have h₁ := h.moved (csBoValidate_spec hbo).1
    dsimp only at hvalidate
    rcases htry : csTryEvict j (.failing (j.full e x)) s₁ (j.robj e) with ⟨t, s₂⟩
    rw [htry] at hvalidate
    cases t with
    | false =>
      obtain ⟨skipped, c, rest, hwithin, hin, why⟩ := csTryEvict_stopped h₁.within h₁.displaces htry
      have hne := h₁.not_stopped hwithin hin
      rcases why with hc | ⟨domain, err, herr⟩
      · exact absurd hc hne
      · simp [Ttm.failing, full_of_ne hne] at herr
    | true =>
      obtain ⟨y, hy⟩ := csTryEvict_evicts h₁.here.listed htry
      obtain ⟨m, hm, hmem⟩ := hy.mem
      have hhere := h₁.here.evicts hy
      have hrobj := hy.robj h₁.here.listed h₁.robj
      have hpages : s₂.pages (j.robj x) = none := by
        rw [hy.pages]
        exact h₁.pages
      by_cases hyx : y = x
      · -- now there is room
        subst hyx
        have hroom : j.full e y s₂ (j.robj e) = false := by
          refine Bool.eq_false_iff.mpr fun hfull => (Finset.mem_sdiff.mp hm).2 ?_
          have := (full_iff.mp hfull).1
          rwa [hmem, Function.update_self] at this
        obtain ⟨rfl, s₃, hs₃, hs'⟩ := csValidate_room hroom
          (fun shadow hsh s => full_of_ne (hshadow shadow hsh) s) hvalidate
        have hlost : j.Lost e y s₃ := by
          refine ⟨⟨post.erase y, h.here.nodup.of_cons.not_mem_erase, hhere.moved hs₃⟩, ?_, ?_⟩
          · rw [hs₃.validated]
            exact hrobj
          · rw [hs₃.pages]
            exact hpages
        refine ⟨rfl, ?_⟩
        rcases hs' with rfl | ⟨shadow, -, hsh⟩
        · exact hlost
        · obtain ⟨post', hpost', hat⟩ := hlost.here
          exact ⟨⟨post', hpost', hat.moved hsh⟩, hsh.validated ▸ hlost.robj, hsh.pages ▸ hlost.pages⟩
      · obtain ⟨skipped, rest, split, passed, hwithin⟩ := hy.walk
        have hrest : x ∈ rest := by
          have hin := h₁.within
          rw [split] at hin
          rcases List.mem_append.mp hin with hin | hin
          · exact absurd h₁.displaces (passed x hin)
          · exact (List.mem_cons.mp hin).resolve_left (Ne.symm hyx)
        have hne : j.robj x ≠ j.robj y := fun heq => hyx
          (List.inj_on_of_nodup_map h₁.robj (h₁.here.listed.mem_of_within h₁.within)
            (h₁.here.listed.mem_of_within hy.within) heq).symm
        have h₂ : j.Crowded e x (post.erase y) s₂ := {
          here := hhere
          robj := hrobj
          mem := (List.mem_erase_of_ne (Ne.symm hyx)).mpr h₁.mem
          within := (hwithin x).mpr ⟨List.ne_nil_of_mem hrest, .inl hrest⟩
          displaces := { h₁.displaces with
            mem := by rw [hmem, Function.update_of_ne hne]; exact h₁.displaces.mem }
          pages := hpages
          carries := fun hc => h₁.carries (hc.congr hy.lastSetPages.symm hy.userPages.symm) }
        exact ih h₂ hvalidate

end Crowded

/-- A visit that succeeds sets the pages of the entry's BO only. -/
theorem csVisit_pages {y fuel : ℕ} (hs : s.Listed) (h : csVisit j T fuel s y = some (.ok (), s'))
    {b : ℕ} (hb : b ≠ j.robj y) : s'.pages b = s.pages b := by
  obtain ⟨binding, s₁, s₂, hbind, hvalidate, hs'⟩ := csVisit_ok h
  have hs₁ : s₁.pages b = s.pages b := by
    rcases bindUserPages_cases hbind with ⟨err, hr⟩ | ⟨-, rfl, -⟩ | ⟨-, -, -, s₃, hm, rfl⟩
    · cases hr
    · rfl
    · rw [← hm.pages]
      exact Function.update_of_ne hb _ _
  have hpass : (s₁.passEvictable y).pages = s₁.pages := by
    unfold Parser.passEvictable
    split <;> rfl
  have hs₂ : s₂.pages b = s.pages b := by
    refine (csValidate_rule (Q := fun _ => True) (I := fun t => t.Listed ∧ t.pages b = s.pages b)
      (fun t r t' ht hr => ?_) (fun t o t' ht _ ho => ?_) (fun _ _ t r t' ht _ hr => ?_)
      ⟨(hs.bind hbind).1.passEvictable y, ?_⟩ hvalidate).1.2
    · have hm := (csBoValidate_spec hr).1
      exact ⟨⟨ht.1.of_moved hm, hm.pages ▸ ht.2⟩, fun _ => trivial⟩
    · cases o with
      | false =>
        have hh := csTryEvict_held ht.1 ho
        exact ⟨hh.listed, hh.pages ▸ ht.2⟩
      | true =>
        obtain ⟨x, hx⟩ := csTryEvict_evicts ht.1 ho
        exact ⟨hx.listed, hx.pages ▸ ht.2⟩
    · have hm := (csBoValidate_spec hr).1
      exact ⟨⟨ht.1.of_moved hm, hm.pages ▸ ht.2⟩, trivial⟩
    · rw [hpass, hs₁]
  rw [hs']
  split <;> exact hs₂

/-- TTM has room for the BO of an entry and its shadow, and the BO is no other process's. -/
def Job.Room (j : Job) (p : Parser → ℕ → Bool) (y : ℕ) : Prop :=
  ¬ j.Foreign (j.robj y) ∧ (∀ s, p s (j.robj y) = false) ∧
    ∀ shadow, (j.bo (j.robj y)).shadow = some shadow → ∀ s, p s shadow = false

theorem csVisit_room {y fuel : ℕ} {r : Except Errno Unit} (hroom : j.Room p y)
    (h : csVisit j (.failing p) fuel s y = some (r, s')) : r = .ok () := by
  obtain ⟨hmm, hbo, hshadow⟩ := hroom
  obtain ⟨binding, s₁, s₂, -, hvalidate⟩ := csVisit_of_bind hmm (bindUserPages_room fun _ => hbo s) h
  exact (csValidate_room (hbo _) hshadow hvalidate).1

/-- With room for all that are left the walk succeeds. -/
theorem listLoop_room {todo : List ℕ} (hs : s.Listed) (hlist : ∃ pre, s.list w = pre ++ todo)
    (hroom : ∀ y ∈ todo, j.Room p y) {fuel : ℕ} {r : Except Errno Unit}
    (h : listLoop j (.failing p) w fuel s todo.head? = some (r, s')) :
    r = .ok () ∧ ∀ b, (∀ y ∈ todo, j.robj y ≠ b) → s'.pages b = s.pages b := by
  induction fuel generalizing s todo with
  | zero => cases h
  | succ fuel ih =>
    cases todo with
    | nil =>
      obtain ⟨rfl, rfl⟩ := by simpa only [List.head?_nil, listLoop, Option.some.injEq,
        Prod.mk.injEq] using h
      exact ⟨rfl, fun _ _ => rfl⟩
    | cons y post =>
      rw [List.head?_cons, listLoop] at h
      cases hvisit : csVisit j (.failing p) fuel s y with
      | none => simp [hvisit] at h
      | some o =>
        obtain ⟨r₁, s₁⟩ := o
        obtain rfl := csVisit_room (hroom y (List.mem_cons_self ..)) hvisit
        obtain ⟨post', hsub, hat⟩ := csVisit_at ⟨hs, hlist⟩ hvisit
        rw [hvisit] at h
        dsimp only at h
        rw [hat.nextEntry] at h
        obtain ⟨pre, hpre⟩ := hat.split
        obtain ⟨hr, hpages⟩ := ih hat.listed ⟨pre ++ [y], by rw [hpre, List.append_cons]⟩
          (fun z hz => hroom z (List.mem_cons_of_mem _ (hsub.subset hz))) h
        refine ⟨hr, fun b hb => ?_⟩
        rw [hpages b fun z hz => hb z (List.mem_cons_of_mem _ (hsub.subset hz))]
        exact csVisit_pages hs hvisit (hb y (List.mem_cons_self ..)).symm

theorem csVisit_room_frame {y fuel : ℕ} (hroom : j.Room p y) (hy : s.evictable ≠ .entry y)
    (h : csVisit j (.failing p) fuel s y = some (.ok (), s')) : s'.validated = s.validated ∧
      s'.duplicates = s.duplicates ∧ s'.evictable = s.evictable ∧
      ∀ b, b ≠ j.robj y → (∀ shadow, (j.bo (j.robj y)).shadow = some shadow → b ≠ shadow) →
        s'.mem b = s.mem b := by
  obtain ⟨binding, s₁, s₂, hbind, hvalidate, hs'⟩ := csVisit_ok h
  obtain ⟨s₃, hs₃, hev, hmem₃⟩ : ∃ s₃, Moved (j.robj y) s s₃ ∧ s₁.evictable = s.evictable ∧
      s₁.validated = s₃.validated ∧ s₁.duplicates = s₃.duplicates ∧ s₁.mem = s₃.mem := by
    rcases bindUserPages_cases hbind with ⟨err, hr⟩ | ⟨-, rfl, -⟩ | ⟨-, -, -, s₃, hm, rfl⟩
    · cases hr
    · exact ⟨s₁, .refl _, rfl, rfl, rfl, rfl⟩
    · exact ⟨s₃, hm, hm.evictable, rfl, rfl, rfl⟩
  have hpass : s₁.passEvictable y = s₁ := if_neg (hev ▸ hy)
  rw [hpass] at hvalidate
  obtain ⟨-, s₄, hs₄, hs₂⟩ := csValidate_room (hroom.2.1 s₁) hroom.2.2 hvalidate
  obtain ⟨hvalidated, hduplicates, hevictable, hmem⟩ : s₂.validated = s₄.validated ∧
      s₂.duplicates = s₄.duplicates ∧ s₂.evictable = s₄.evictable ∧
      ∀ b, (∀ shadow, (j.bo (j.robj y)).shadow = some shadow → b ≠ shadow) →
        s₂.mem b = s₄.mem b := by
    rcases hs₂ with rfl | ⟨shadow, hsh, hm⟩
    · exact ⟨rfl, rfl, rfl, fun _ _ => rfl⟩
    · exact ⟨hm.validated, hm.duplicates, hm.evictable, fun b hb => hm.mem b (hb shadow hsh)⟩
  have hend : s'.validated = s₂.validated ∧ s'.duplicates = s₂.duplicates ∧
      s'.evictable = s₂.evictable ∧ s'.mem = s₂.mem := by
    rw [hs']
    split <;> exact ⟨rfl, rfl, rfl, rfl⟩
  refine ⟨?_, ?_, ?_, fun b hb hsh => ?_⟩
  · rw [hend.1, hvalidated, hs₄.validated, hmem₃.1, hs₃.validated]
  · rw [hend.2.1, hduplicates, hs₄.duplicates, hmem₃.2.1, hs₃.duplicates]
  · rw [hend.2.2.1, hevictable, hs₄.evictable, hev]
  · rw [hend.2.2.2, hmem b hsh, hs₄.mem b hb, hmem₃.2.2, hs₃.mem b hb]

/-- The walk is still before `e`, which is before `x`, which is not after `p->evictable`. -/
structure Job.Ahead (j : Job) (s₀ : Parser) (e x : ℕ) (todo : List ℕ) (s : Parser) : Prop where
  listed : s.Listed
  split : ∃ pre, s.validated = pre ++ todo
  robj : (s.validated.map j.robj).Nodup
  subset : ∀ y ∈ todo, y ∈ s₀.validated
  sublist : [e, x].Sublist todo
  within : x ∈ s.within
  displaces : j.Displaces s (j.robj e) x
  pages : s.pages (j.robj x) = none

section Ahead

variable {y : ℕ} {post : List ℕ}

theorem Job.Ahead.mem (h : j.Ahead s₀ e x (y :: post) s) : x ∈ post := by
  rcases List.sublist_cons_iff.mp h.sublist with hsub | ⟨l, hl, hsub⟩
  · exact hsub.subset (by simp)
  · obtain ⟨-, rfl⟩ := List.cons.inj hl
    exact hsub.subset (by simp)

theorem Job.Ahead.here (h : j.Ahead s₀ e x (y :: post) s) : s.At .validated y post :=
  ⟨h.listed, h.split⟩

/-- `p->evictable` is after the entry that is visited. -/
theorem Job.Ahead.evictable_ne (h : j.Ahead s₀ e x (y :: post) s) : s.evictable ≠ .entry y := by
  intro hev
  obtain ⟨pre, hpre⟩ := h.split
  have hwithin := h.within
  rw [h.listed.within_eq hev hpre] at hwithin
  have hnodup := h.listed.validated
  rw [hpre] at hnodup
  rcases List.mem_cons.mp hwithin with rfl | hin
  · exact (List.nodup_cons.mp hnodup.of_append_right).1 h.mem
  · exact (List.nodup_append.mp hnodup).2.2 x (List.mem_reverse.mp hin) x
      (List.mem_cons_of_mem _ h.mem) rfl

/-- The entry `x` is another than the one that is visited, and so are their BOs. -/
theorem Job.Ahead.robj_ne (h : j.Ahead s₀ e x (y :: post) s) : j.robj x ≠ j.robj y := by
  obtain ⟨pre, hpre⟩ := h.split
  intro heq
  have hxy : x = y := by
    refine List.inj_on_of_nodup_map h.robj (h.listed.mem_of_within h.within) ?_ heq
    rw [hpre]
    simp
  exact (List.nodup_cons.mp h.here.nodup).1 (hxy ▸ h.mem)

/-- An entry before `e` is visited without an eviction. -/
theorem Job.Ahead.visit (h : j.Ahead s₀ e x (y :: post) s) (hready : j.Ready s₀) (hne : y ≠ e)
    (hroom : j.Room (j.full e x) y) {fuel : ℕ}
    (hvisit : csVisit j (.failing (j.full e x)) fuel s y = some (.ok (), s')) :
    j.Ahead s₀ e x post s' := by
  obtain ⟨hvalidated, hduplicates, hevictable, hmem⟩ := csVisit_room_frame hroom h.evictable_ne hvisit
  have hlisted : s'.Listed := h.listed.congr hvalidated hduplicates fun _ he => hevictable ▸ he
  have hwithin : s'.within = s.within := by
    unfold Parser.within
    rw [hevictable, hvalidated]
  obtain ⟨pre, hpre⟩ := h.split
  refine ⟨hlisted, ⟨pre ++ [y], ?_⟩, hvalidated ▸ h.robj,
    fun z hz => h.subset z (List.mem_cons_of_mem _ hz), ?_, hwithin ▸ h.within,
    { h.displaces with mem := ?_ }, ?_⟩
  · rw [hvalidated, hpre, List.append_cons]
  · rcases List.sublist_cons_iff.mp h.sublist with hsub | ⟨l, hl, -⟩
    · exact hsub
    · exact absurd (List.cons.inj hl).1.symm hne
  · rw [hmem _ h.robj_ne]
    · exact h.displaces.mem
    · intro shadow hsh
      exact hready.shadow .validated y (h.subset y (List.mem_cons_self ..)) shadow hsh .validated x
        (h.subset x (List.mem_cons_of_mem _ h.mem))
  · rw [csVisit_pages h.listed hvisit h.robj_ne]
    exact h.pages

/-- The visit of `e` evicts `x`. -/
theorem Job.Ahead.enter (h : j.Ahead s₀ e x (e :: post) s) (hready : j.Ready s₀)
    (hmm : ¬ j.Foreign (j.robj e)) (hpin : (j.bo (j.robj e)).pinCount = 0) {fuel : ℕ}
    {r : Except Errno Unit}
    (hvisit : csVisit j (.failing (j.full e x)) fuel s e = some (r, s')) :
    r = .ok () ∧ j.Lost e x s' := by
  have hshadow : ∀ shadow, (j.bo (j.robj e)).shadow = some shadow → shadow ≠ j.robj e := by
    intro shadow hsh
    have he := h.subset e (List.mem_cons_self ..)
    exact (hready.shadow .validated e he shadow hsh .validated e he).symm
  have hcrowded : ∀ binding s₁, bindUserPages j (.failing (j.full e x)) s e = (.ok binding, s₁) →
      j.Crowded e x post (s₁.passEvictable e) := by
    intro binding s₁ hbind
    have hlisted := (h.listed.bind hbind).1
    have hlist := (h.listed.bind hbind).2 .validated
    have hfacts : s₁.evictable = s.evictable ∧ s₁.mem (j.robj x) = s.mem (j.robj x) ∧
        s₁.pages (j.robj x) = s.pages (j.robj x) ∧ ¬ j.Carries s₁ e := by
      rcases bindUserPages_cases hbind with ⟨err, hr⟩ | ⟨-, rfl, hnone⟩ | ⟨-, -, -, s₂, hm, rfl⟩
      · cases hr
      · exact ⟨rfl, rfl, rfl, hnone⟩
      · refine ⟨hm.evictable, hm.mem _ h.robj_ne, ?_, fun hc => ?_⟩
        · rw [← hm.pages]
          exact Function.update_of_ne h.robj_ne _ _
        · simp [Job.Carries, Parser.needsPages, Parser.setUserPages] at hc
    obtain ⟨hev, hmem, hpages, hcarries⟩ := hfacts
    have hpass : s₁.passEvictable e = s₁ := if_neg (hev ▸ h.evictable_ne)
    have hvalidated : s₁.validated = s.validated := hlist
    rw [hpass]
    refine ⟨h.here.congr hlisted hlist, hvalidated ▸ h.robj, h.mem, ?_,
      { h.displaces with mem := hmem ▸ h.displaces.mem }, hpages.trans h.pages, hcarries⟩
    have hwithin : s₁.within = s.within := by
      unfold Parser.within
      rw [hev, hvalidated]
    rw [hwithin]
    exact h.within
  have hbind := bindUserPages_room (j := j) (p := j.full e x) (s := s) fun hc =>
    full_of_carries hc (j.robj e)
  obtain ⟨binding, s₁, s₂, hs₁, hvalidate⟩ := csVisit_of_bind hmm hbind hvisit
  obtain ⟨rfl, -⟩ := (hcrowded binding s₁ hs₁).validate hpin hshadow hvalidate
  refine ⟨rfl, ?_⟩
  obtain ⟨binding, s₁, s₂, hs₁, hvalidate, hs'⟩ := csVisit_ok hvisit
  obtain ⟨-, ⟨post', hpost', hat⟩, hrobj, hpages⟩ :=
    (hcrowded binding s₁ hs₁).validate hpin hshadow hvalidate
  rw [hs']
  split
  · exact ⟨⟨post', hpost', hat.congr (hat.listed.congr rfl rfl fun _ he => he) rfl⟩, hrobj, hpages⟩
  · exact ⟨⟨post', hpost', hat⟩, hrobj, hpages⟩

end Ahead

/-- The whole walk: TTM fails only for the BO of `e`, and `x` is lost. -/
theorem Job.Ahead.listLoop {todo : List ℕ} (h : j.Ahead s₀ e x todo s) (hready : j.Ready s₀)
    (hown : ∀ y ∈ s₀.validated, ¬ j.Foreign (j.robj y)) (he : e ∈ s₀.validated)
    (hpin : (j.bo (j.robj e)).pinCount = 0) {fuel : ℕ} {r : Except Errno Unit}
    (hloop : listLoop j (.failing (j.full e x)) .validated fuel s todo.head? = some (r, s')) :
    r = .ok () ∧ s'.pages (j.robj x) = none := by
  have hroom : ∀ y ∈ s₀.validated, y ≠ e → j.Room (j.full e x) y := by
    intro y hy hne
    refine ⟨hown y hy, full_of_ne (hready.robj_ne he hy hne), fun shadow hsh => full_of_ne ?_⟩
    exact (hready.shadow .validated y hy shadow hsh .validated e he).symm
  induction fuel generalizing s todo with
  | zero => cases hloop
  | succ fuel ih =>
    cases todo with
    | nil => exact absurd h.sublist.subset (by simp)
    | cons y post =>
      rw [List.head?_cons, Validation.listLoop] at hloop
      cases hvisit : csVisit j (.failing (j.full e x)) fuel s y with
      | none => simp [hvisit] at hloop
      | some o =>
        obtain ⟨r₁, s₁⟩ := o
        rw [hvisit] at hloop
        by_cases hye : y = e
        · subst hye
          obtain ⟨rfl, ⟨post', hpost', hat⟩, -, hpages⟩ :=
            h.enter hready (hown y he) hpin hvisit
          obtain ⟨post'', hsub, hat'⟩ := csVisit_at h.here hvisit
          obtain rfl := hat.unique hat'
          dsimp only at hloop
          rw [hat.nextEntry] at hloop
          obtain ⟨pre, hpre⟩ := hat.split
          have hin : ∀ z ∈ post', z ∈ s₀.validated ∧ z ≠ y := by
            intro z hz
            refine ⟨h.subset z (List.mem_cons_of_mem _ (hsub.subset hz)), ?_⟩
            rintro rfl
            exact (List.nodup_cons.mp hat.nodup).1 hz
          obtain ⟨hr, hrest⟩ := listLoop_room hat.listed ⟨pre ++ [y], by rw [hpre, List.append_cons]⟩
            (fun z hz => hroom z (hin z hz).1 (hin z hz).2) hloop
          refine ⟨hr, (hrest _ fun z hz => ?_).trans hpages⟩
          refine hready.robj_ne (h.subset x (List.mem_cons_of_mem _ h.mem)) (hin z hz).1 ?_
          rintro rfl
          exact hpost' hz
        · have hy := hroom y (h.subset y (List.mem_cons_self ..)) hye
          obtain rfl := csVisit_room hy hvisit
          have h₁ := h.visit hready hye hy hvisit
          obtain ⟨hvalidated, -⟩ := csVisit_room_frame hy h.evictable_ne hvisit
          have hat : s₁.At .validated y post := h.here.congr h₁.listed hvalidated
          dsimp only at hloop
          rw [hat.nextEntry] at hloop
          exact ih h₁ hloop

/-- Whatever TTM makes of its calls, `gsgpu_cs_list_validate` returns, and when it returns 0 every BO
is where it may be, every entry's pages that were needed are set, and no entry is gone. -/
def Job.ValidatesAll (j : Job) (w : Which) (s : Parser) : Prop :=
  ∀ T, (∃ fuel r s', csListValidate j T w fuel s = some (r, s')) ∧
    ∀ fuel s', csListValidate j T w fuel s = some (.ok (), s') → j.Validated w s s'

/-- For every list of entries the call does what it should when the list is safe, and only then, for
entries that all belong to the caller. -/
theorem csListValidate_validatesAll_iff (j : Job) (w : Which) (s : Parser) (hs : j.Ready s) :
    (j.Safe w s → j.ValidatesAll w s) ∧
      ((∀ e ∈ s.list w, ¬ j.Foreign (j.robj e)) → j.ValidatesAll w s → j.Safe w s) := by
  refine ⟨fun hsafe T => ⟨csListValidate_terminates hs.listed w, fun fuel s' h => ?_⟩,
    fun hown hall => ⟨fun e he hpin hempty => ?_, ?_⟩⟩
  · exact (hs.between w).listLoop hs hsafe h
  · -- with room for all, the call succeeds, and the BO is in no domain of its own
    obtain ⟨⟨fuel, r, s', h⟩, hvalidated⟩ := hall (.failing fun _ _ => false)
    obtain ⟨rfl, -⟩ := listLoop_room hs.listed ⟨[], rfl⟩
      (fun y hy => ⟨hown y hy, fun _ => rfl, fun _ _ _ => rfl⟩) h
    have hsettled := (hvalidated fuel s' h).settled e he hpin
    have hsub := (j.bo (j.robj e)).subset
    rw [hempty] at hsettled hsub
    rw [Finset.subset_empty.mp hsub] at hsettled
    simp at hsettled
  · rintro rfl e x hsub hwithin hpin hdisplaces hcarries
    have he : e ∈ s.validated := hsub.subset (by simp)
    have hx : x ∈ s.validated := hsub.subset (by simp)
    obtain ⟨⟨fuel, r, s', h⟩, hvalidated⟩ := hall (.failing (j.full e x))
    have hahead : j.Ahead s e x s.validated s :=
      ⟨hs.listed, ⟨[], rfl⟩, hs.robj, fun _ hy => hy, hsub, hwithin, hdisplaces, hs.pages _⟩
    obtain ⟨rfl, hpages⟩ := hahead.listLoop hs hown he hpin h
    obtain ⟨e', -, -, hp⟩ := (hvalidated fuel s' h).installed x hx hcarries
    rw [hpages] at hp
    cases hp

section Runs

/-- A BO for the CPU, and one of the user's pages, which have been invalidated. -/
def cpuAndUserptr : Job where
  bo := fun b => if b = 0 then
      ⟨{.system}, {.system}, 0, false, none, none, false, 0, by decide, by decide⟩
    else ⟨{.tt}, {.tt}, 0, false, none, some 7, true, 1, by decide, by decide⟩
  robj := id
  bytesMovedThreshold := 0
  bytesMovedVisThreshold := 0
  vramFullVisible := true
  mm := 7

/-- Both BOs are in system memory, and the second entry carries new pages. -/
def unbound (evictable : Evictable) : Parser where
  validated := [0, 1]
  duplicates := []
  evictable := evictable
  bytesMoved := 0
  bytesMovedVis := 0
  mem := fun _ => ⟨.system, false⟩
  userPages := fun e => e == 1
  lastSetPages := fun _ => 0
  pages := fun _ => none

theorem cpuAndUserptr_ready (evictable : Evictable)
    (h : ∀ e, evictable = .entry e → e = 0 ∨ e = 1) : cpuAndUserptr.Ready (unbound evictable) where
  listed := ⟨by simp [unbound], by simp [unbound], fun e he => by simpa [unbound] using h e he⟩
  robj := by simp [unbound, cpuAndUserptr]
  shadow := by
    intro w e _ shadow hsh
    simp only [cpuAndUserptr] at hsh
    split at hsh <;> cases hsh
  pages := fun _ => rfl

/-- When nothing may be evicted, no entry is lost. -/
theorem csListValidate_validatesAll_null :
    cpuAndUserptr.ValidatesAll .validated (unbound .null) := by
  have hready : cpuAndUserptr.Ready (unbound .null) := cpuAndUserptr_ready .null fun e he => by cases he
  refine (csListValidate_validatesAll_iff cpuAndUserptr .validated (unbound .null) hready).1
    ⟨fun e _ _ => ?_, fun _ e x _ hx => ?_⟩
  · unfold cpuAndUserptr
    dsimp only
    split <;> decide
  · cases hx

/-- There is no memory for the first BO until the second is in the GART. The second entry is then at
the head of the list, the call returns 0, and the pages it carries are not set. -/
theorem csListValidate_loses_pages :
    cpuAndUserptr.Carries (unbound (.entry 1)) 1 ∧ ∃ s,
      csListValidate cpuAndUserptr (.failing (cpuAndUserptr.full 0 1)) .validated 4
        (unbound (.entry 1)) = some (.ok (), s) ∧
      s.validated = [1, 0] ∧ s.pages 1 = none ∧ s.needsPages cpuAndUserptr 1 = true :=
  ⟨⟨rfl, rfl⟩, _, rfl, rfl, rfl, rfl⟩

end Runs

end Gsgpu.Validation
