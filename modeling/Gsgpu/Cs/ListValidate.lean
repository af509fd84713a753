import Gsgpu.Cs.Termination

/-! What holds when `gsgpu_cs_list_validate` has returned 0. An entry that an eviction moves to the
head of the list before the loop has come to it is not visited any more: its BO is where it may be,
but user pages that the entry carries are not set. -/
namespace Gsgpu.Validation
open Vram

variable {j : Job} {T : Ttm} {s₀ s s' : Parser} {w : Which}

/-- What `gsgpu_cs_list_validate` is called with. `ttm_eu_reserve_buffers` leaves each BO once on the
list of those it has reserved, shadows are nobody's entries, and no pages have been set yet. -/
structure Job.Ready (j : Job) (s : Parser) : Prop where
  listed : s.Listed
  robj : (s.validated.map j.robj).Nodup
  shadow : ∀ w, ∀ e ∈ s.list w, ∀ shadow, (j.bo (j.robj e)).shadow = some shadow →
    ∀ w', ∀ e' ∈ s.list w', j.robj e' ≠ shadow
  pages : ∀ b, s.pages b = none

/-- The user pages of an entry of the list are in the BO of `e`. -/
def Job.Installed (j : Job) (l : List ℕ) (s : Parser) (e : ℕ) : Prop :=
  ∃ e' ∈ l, j.robj e' = j.robj e ∧ s.pages (j.robj e) = some e'

/-- The entry needs pages and carries them. -/
def Job.Carries (j : Job) (s : Parser) (e : ℕ) : Prop :=
  s.needsPages j (j.robj e) = true ∧ s.userPages e = true

/-- What a return of 0 promises. -/
structure Job.Validated (j : Job) (w : Which) (s₀ s : Parser) : Prop where
  settled : ∀ e ∈ s₀.list w, j.Settled s (j.robj e)
  installed : ∀ e ∈ s₀.list w, j.Carries s₀ e → j.Installed (s₀.list w) s e
  perm : s.validated.Perm s₀.validated

/-- No entry is lost: the BOs that may be moved have a domain, and no entry that carries the pages it
needs can be evicted, from `p->evictable` on, for a BO that is visited before it. -/
def Job.Safe (j : Job) (w : Which) (s : Parser) : Prop :=
  (∀ e ∈ s.list w, j.HasDomain (j.robj e)) ∧
    (w = .validated → ∀ e x, [e, x].Sublist s.validated → x ∈ s.within →
      (j.bo (j.robj e)).pinCount = 0 → j.Displaces s (j.robj e) x → ¬ j.Carries s x)

/-- What is known at an entry, or between two. `todo` are the entries still to be visited. -/
structure Job.Walk (j : Job) (w : Which) (s₀ : Parser) (todo : List ℕ) (s : Parser) : Prop where
  listed : s.Listed
  perm : s.validated.Perm s₀.validated
  duplicates : s.duplicates = s₀.duplicates
  sublist : todo.Sublist (s₀.list w)
  pages : ∀ x ∈ s₀.list w, j.Carries s₀ x →
    j.Installed (s₀.list w) s x ∨ x ∈ todo ∧ j.Carries s x
  order : w = .validated → (∀ x ∈ todo, s.mem (j.robj x) = s₀.mem (j.robj x)) ∧
    ∀ x ∈ todo, x ∈ s.within → x ∈ s₀.within

/-- What is known between two entries. -/
structure Job.Between (j : Job) (w : Which) (s₀ : Parser) (todo : List ℕ) (s : Parser) : Prop
    extends j.Walk w s₀ todo s where
  split : ∃ pre, s.list w = pre ++ todo
  settled : ∀ x ∈ s₀.list w, x ∉ todo → j.Settled s (j.robj x)

/-- What is known during the visit of entry `e`, when its user pages have been set. -/
structure Job.Visiting (j : Job) (w : Which) (s₀ : Parser) (e : ℕ) (post : List ℕ) (s : Parser) :
    Prop extends j.Walk w s₀ post s where
  here : s.At w e post
  sublist' : (e :: post).Sublist (s₀.list w)
  settled : ∀ x ∈ s₀.list w, x ∉ e :: post → j.robj x ≠ j.robj e → j.Settled s (j.robj x)

theorem Job.Settled.congr {b : ℕ} (h : j.Settled s b) (hmem : s'.mem b = s.mem b) :
    j.Settled s' b := by
  intro hpin
  rw [hmem]
  exact h hpin

theorem Job.Carries.congr {e : ℕ} (h : j.Carries s e) (hlast : s'.lastSetPages = s.lastSetPages)
    (hpages : s'.userPages = s.userPages) : j.Carries s' e := by
  unfold Job.Carries Parser.needsPages
  rw [hlast, hpages]
  exact h

theorem Job.Installed.congr {l : List ℕ} {e : ℕ} (h : j.Installed l s e)
    (hpages : s'.pages = s.pages) : j.Installed l s' e := by
  unfold Job.Installed
  rw [hpages]
  exact h

/-- Different entries of the list of reserved BOs have different BOs. -/
theorem Job.Ready.robj_ne (h : j.Ready s₀) {e x : ℕ} (he : e ∈ s₀.validated) (hx : x ∈ s₀.validated)
    (hne : x ≠ e) : j.robj x ≠ j.robj e :=
  fun heq => hne (List.inj_on_of_nodup_map h.robj hx he heq)

section Visiting

variable {e : ℕ} {post : List ℕ}

theorem Job.Visiting.mem (h : j.Visiting w s₀ e post s) : e ∈ s₀.list w :=
  h.sublist'.subset (List.mem_cons_self ..)

/-- A BO that no entry still to be visited has may move. -/
theorem Job.Visiting.moved {b : ℕ} (h : j.Visiting w s₀ e post s) (hm : Moved b s s')
    (hb : w = .validated → ∀ x ∈ post, j.robj x ≠ b)
    (hsettled : ∀ x ∈ s₀.list w, j.robj x ≠ j.robj e → j.robj x ≠ b) :
    j.Visiting w s₀ e post s' where
  listed := h.listed.of_moved hm
  perm := hm.validated ▸ h.perm
  duplicates := hm.duplicates.trans h.duplicates
  sublist := h.sublist
  pages := fun x hx hcarries => (h.pages x hx hcarries).imp (fun hi => hi.congr hm.pages)
    fun ⟨hpost, hc⟩ => ⟨hpost, hc.congr hm.lastSetPages hm.userPages⟩
  order := fun hw => ⟨fun x hx => (hm.mem _ (hb hw x hx)).trans ((h.order hw).1 x hx),
    fun x hx hwithin => (h.order hw).2 x hx (hm.within ▸ hwithin)⟩
  here := h.here.moved hm
  sublist' := h.sublist'
  settled := fun x hx hpost hne => (h.settled x hx hpost hne).congr (hm.mem _ (hsettled x hx hne))

theorem Job.Visiting.held (h : j.Visiting w s₀ e post s) (hh : s.Held s') :
    j.Visiting w s₀ e post s' where
  listed := hh.listed
  perm := hh.validated ▸ h.perm
  duplicates := hh.duplicates.trans h.duplicates
  sublist := h.sublist
  pages := fun x hx hcarries => (h.pages x hx hcarries).imp (fun hi => hi.congr hh.pages)
    fun ⟨hpost, hc⟩ => ⟨hpost, hc.congr hh.lastSetPages hh.userPages⟩
  order := fun hw => ⟨fun x hx => (congrFun hh.mem _).trans ((h.order hw).1 x hx),
    fun x hx hwithin => (h.order hw).2 x hx (hh.within x hwithin)⟩
  here := h.here.held hh
  sublist' := h.sublist'
  settled := fun x hx hpost hne => (h.settled x hx hpost hne).congr (congrFun hh.mem _)

/-- An eviction takes an entry from those still to be visited. It carries no pages that it needs. -/
theorem Job.Visiting.evicts {x : ℕ} (h : j.Visiting w s₀ e post s) (hready : j.Ready s₀)
    (hsafe : j.Safe w s₀) (hpin : (j.bo (j.robj e)).pinCount = 0)
    (hx : j.Evicts (j.robj e) x s s') : j.Visiting w s₀ e (w.evict x post) s' := by
  obtain ⟨m, hm, hmem⟩ := hx.mem
  have hother : ∀ b, b ≠ j.robj x → s'.mem b = s.mem b := fun b hb => by
    rw [hmem, Function.update_of_ne hb]
  have hxmem := h.listed.mem_of_within hx.within
  have hnodup := h.here.nodup
  have hkept : ∀ y ∈ post, y ≠ x → y ∈ w.evict x post := by
    intro y hy hne
    cases w
    · exact (List.mem_erase_of_ne hne).mpr hy
    · exact hy
  refine { listed := hx.listed, perm := ?_, duplicates := hx.duplicates.trans h.duplicates,
           sublist := (w.evict_sublist x post).trans h.sublist, pages := ?_, order := ?_,
           here := h.here.evicts hx, sublist' := ?_, settled := ?_ }
  · rw [hx.validated]
    exact (List.perm_cons_erase hxmem).symm.trans h.perm
  · intro y hy hcarries
    refine (h.pages y hy hcarries).imp (fun hi => hi.congr hx.pages) fun ⟨hpost, hc⟩ => ?_
    refine ⟨?_, hc.congr hx.lastSetPages hx.userPages⟩
    cases w with
    | duplicates => exact hpost
    | validated =>
      refine hkept y hpost ?_
      rintro rfl
      obtain ⟨hmem₀, hwithin₀⟩ := h.order rfl
      have hdisplaces : j.Displaces s₀ (j.robj e) y :=
        { hx.displaces with mem := hmem₀ y hpost ▸ hx.displaces.mem }
      have hsub : [e, y].Sublist s₀.validated :=
        (List.Sublist.cons_cons e (List.singleton_sublist.mpr hpost)).trans h.sublist'
      exact hsafe.2 rfl e y hsub (hwithin₀ y hpost hx.within) hpin hdisplaces hcarries
  · rintro rfl
    obtain ⟨hmem₀, hwithin₀⟩ := h.order rfl
    have hne : ∀ y ∈ post.erase x, y ≠ x := by
      rintro y hy rfl
      exact hnodup.of_cons.not_mem_erase hy
    constructor
    · intro y hy
      have hy' := List.mem_of_mem_erase hy
      rw [hother, hmem₀ y hy']
      exact hready.robj_ne (h.perm.subset hxmem) (h.sublist.subset hy') (hne y hy)
    · intro y hy hwithin
      exact hwithin₀ y (List.mem_of_mem_erase hy) ((hx.within' y hwithin).resolve_left (hne y hy))
  · exact (List.Sublist.cons_cons e (w.evict_sublist x post)).trans h.sublist'
  · intro y hy hpost hne
    by_cases hyx : j.robj y = j.robj x
    · intro _
      rw [hyx, hmem, Function.update_self]
      exact Finset.mem_union_left _ (Finset.mem_sdiff.mp hm).1
    · refine (h.settled y hy ?_ hne).congr (hother _ hyx)
      intro hin
      rcases List.mem_cons.mp hin with rfl | hin
      · exact hpost (List.mem_cons_self ..)
      · refine hpost (List.mem_cons_of_mem _ (hkept y hin ?_))
        rintro rfl
        exact hyx rfl

theorem Job.Visiting.passEvictable (h : j.Visiting w s₀ e post s) (e' : ℕ) :
    j.Visiting w s₀ e post (s.passEvictable e') := by
  have hlisted := h.listed.passEvictable e'
  have hlist := passEvictable_list s e' w
  unfold Parser.passEvictable at hlisted hlist ⊢
  split at hlisted
  · next hev =>
    rw [if_pos hev] at hlist ⊢
    exact { h with
      listed := hlisted
      order := fun hw => ⟨(h.order hw).1, fun x _ hx => by simp [Parser.within] at hx⟩
      here := h.here.congr hlisted hlist }
  · next hev =>
    rw [if_neg hev]
    exact h

/-- The user pages that entry `e` carries and needs are set. -/
theorem Job.Between.bind (h : j.Between w s₀ (e :: post) s) (hready : j.Ready s₀) {binding : Bool}
    (hbind : bindUserPages j T s e = (.ok binding, s')) : j.Visiting w s₀ e post s' := by
  have hhere : s.At w e post := ⟨h.listed, h.split⟩
  have hsub : post.Sublist (s₀.list w) := (List.sublist_cons_self e post).trans h.sublist
  obtain ⟨hlisted, hlist⟩ := h.listed.bind hbind
  rcases bindUserPages_cases hbind with ⟨err, hr⟩ | ⟨-, rfl, hnone⟩ | ⟨-, -, -, s₁, hm, rfl⟩
  · cases hr
  · refine { h.toWalk with
      sublist := hsub, pages := ?_, order := ?_, here := hhere, sublist' := h.sublist,
      settled := fun x hx hpost _ => h.settled x hx hpost }
    · intro x hx hcarries
      refine (h.pages x hx hcarries).imp id fun ⟨hin, hc⟩ => ⟨?_, hc⟩
      rcases List.mem_cons.mp hin with rfl | hin
      · exact absurd hc hnone
      · exact hin
    · intro hw
      exact ⟨fun x hx => (h.order hw).1 x (List.mem_cons_of_mem _ hx),
        fun x hx => (h.order hw).2 x (List.mem_cons_of_mem _ hx)⟩
  · refine {
      listed := hlisted, perm := hm.validated ▸ h.perm,
      duplicates := hm.duplicates.trans h.duplicates, sublist := hsub, pages := ?_, order := ?_,
      here := hhere.congr hlisted (hlist w), sublist' := h.sublist,
      settled := fun x hx hpost hne => (h.settled x hx hpost).congr (hm.mem _ hne) }
    · intro x hx hcarries
      by_cases hxe : j.robj x = j.robj e
      · refine .inl ⟨e, h.sublist.subset (List.mem_cons_self ..), hxe.symm, ?_⟩
        rw [hxe]
        exact Function.update_self _ _ _
      · have hpages : ∀ p, s.pages (j.robj x) = some p →
            (s₁.setUserPages j (j.robj e) e).pages (j.robj x) = some p := by
          intro p hp
          rw [← hp, ← hm.pages]
          exact Function.update_of_ne hxe _ _
        refine (h.pages x hx hcarries).imp (fun ⟨e', he', hr, hp⟩ => ⟨e', he', hr, hpages e' hp⟩)
          fun ⟨hin, hneeds, hc⟩ => ⟨?_, ?_, hm.userPages ▸ hc⟩
        · refine (List.mem_cons.mp hin).resolve_left ?_
          rintro rfl
          exact hxe rfl
        · have hlast : (s₁.setUserPages j (j.robj e) e).lastSetPages (j.robj x) =
              s.lastSetPages (j.robj x) := by
            rw [← hm.lastSetPages]
            exact Function.update_of_ne hxe _ _
          unfold Parser.needsPages at hneeds ⊢
          rwa [hlast]
    · intro hw
      obtain ⟨hmem₀, hwithin₀⟩ := h.order hw
      refine ⟨fun x hx => ?_, fun x hx hwithin => ?_⟩
      · rw [← hmem₀ x (List.mem_cons_of_mem _ hx)]
        refine hm.mem _ ?_
        subst hw
        refine hready.robj_ne (h.sublist.subset (List.mem_cons_self ..)) (hsub.subset hx) ?_
        rintro rfl
        exact (List.nodup_cons.mp hhere.nodup).1 hx
      · refine hwithin₀ x (List.mem_cons_of_mem _ hx) ?_
        rw [← hm.within]
        exact hwithin

/-- The visit of an entry. -/
theorem Job.Between.visit (h : j.Between w s₀ (e :: post) s) (hready : j.Ready s₀)
    (hsafe : j.Safe w s₀) {fuel : ℕ} (hvisit : csVisit j T fuel s e = some (.ok (), s')) :
    ∃ post', j.Between w s₀ post' s' ∧ nextEntry (s'.list w) e = post'.head? := by
  obtain ⟨binding, s₁, s₂, hbind, hvalidate, hs'⟩ := csVisit_ok hvisit
  have he : e ∈ s₀.list w := h.sublist.subset (List.mem_cons_self ..)
  obtain ⟨⟨post', hs₂⟩, hsettled⟩ := csValidate_rule (Q := fun s => j.Settled s (j.robj e))
    (I := fun s => ∃ post', j.Visiting w s₀ e post' s)
    (fun s r s' ⟨post', hs⟩ hr => by
      obtain ⟨hm, hok, -⟩ := csBoValidate_spec hr
      refine ⟨⟨post', hs.moved hm ?_ fun _ _ hne => hne⟩, fun hr => hok hr (hsafe.1 e he)⟩
      rintro rfl x hx
      refine hready.robj_ne he (hs.sublist.subset hx) ?_
      rintro rfl
      exact (List.nodup_cons.mp hs.here.nodup).1 hx)
    (fun s t s' ⟨post', hs⟩ hpin ht => by
      cases t with
      | false => exact ⟨post', hs.held (csTryEvict_held hs.listed ht)⟩
      | true =>
        obtain ⟨x, hx⟩ := csTryEvict_evicts hs.listed ht
        exact ⟨w.evict x post', hs.evicts hready hsafe hpin hx⟩)
    (fun shadow hshadow s r s' ⟨post', hs⟩ hq hr => by
      have hne := hready.shadow w e he shadow hshadow w
      obtain ⟨hm, -, -⟩ := csBoValidate_spec hr
      exact ⟨⟨post', hs.moved hm (fun _ x hx => hne x (hs.sublist.subset hx))
        fun x hx _ => hne x hx⟩, hq.congr (hm.mem _ (hne e he))⟩)
    ⟨post, (h.bind hready hbind).passEvictable e⟩ hvalidate
  replace hsettled := hsettled rfl
  have hall : ∀ x ∈ s₀.list w, x ∉ post' → j.Settled s₂ (j.robj x) := by
    intro x hx hpost
    by_cases hxe : j.robj x = j.robj e
    · rw [hxe]
      exact hsettled
    · refine hs₂.settled x hx ?_ hxe
      intro hin
      rcases List.mem_cons.mp hin with rfl | hin
      · exact hxe rfl
      · exact hpost hin
  obtain ⟨pre, hpre⟩ := hs₂.here.split
  have hlist : s'.list w = s₂.list w := by
    rw [hs']
    split
    · cases w <;> rfl
    · rfl
  refine ⟨post', ?_, by rw [hlist]; exact hs₂.here.nextEntry⟩
  rw [hs']
  split
  · refine { hs₂.toWalk with
      listed := hs₂.listed.congr rfl rfl fun _ he => he, pages := ?_,
      split := ⟨pre ++ [e], ?_⟩, settled := hall }
    · intro x hx hcarries
      refine (hs₂.pages x hx hcarries).imp (fun hi => hi.congr rfl) fun ⟨hin, hneeds, hc⟩ =>
        ⟨hin, hneeds, ?_⟩
      show Function.update s₂.userPages e false x = true
      rw [Function.update_of_ne, hc]
      rintro rfl
      exact (List.nodup_cons.mp hs₂.here.nodup).1 hin
    · rw [← List.append_cons, ← hpre]
      cases w <;> rfl
  · refine { hs₂.toWalk with split := ⟨pre ++ [e], ?_⟩, settled := hall }
    rw [← List.append_cons, ← hpre]

theorem Job.Between.listLoop {todo : List ℕ} (h : j.Between w s₀ todo s) (hready : j.Ready s₀)
    (hsafe : j.Safe w s₀) {fuel : ℕ}
    (hloop : listLoop j T w fuel s todo.head? = some (.ok (), s')) : j.Validated w s₀ s' := by
  induction fuel generalizing s todo with
  | zero => cases hloop
  | succ fuel ih =>
    cases todo with
    | nil =>
      obtain ⟨-, rfl⟩ := by simpa only [List.head?_nil, Validation.listLoop, Option.some.injEq,
        Prod.mk.injEq] using hloop
      refine ⟨fun x hx => h.settled x hx (List.not_mem_nil), fun x hx hcarries => ?_, h.perm⟩
      exact (h.pages x hx hcarries).resolve_right fun hmem => List.not_mem_nil hmem.1
    | cons e post =>
      rw [List.head?_cons, Validation.listLoop] at hloop
      cases hvisit : csVisit j T fuel s e with
      | none => simp [hvisit] at hloop
      | some o =>
        obtain ⟨r, s₁⟩ := o
        rw [hvisit] at hloop
        cases r with
        | error err => simp at hloop
        | ok u =>
          obtain ⟨post', hs₁, hnext⟩ := h.visit hready hsafe hvisit
          dsimp only at hloop
          rw [hnext] at hloop
          exact ih hs₁ hloop

end Visiting

theorem Job.Ready.between (h : j.Ready s) (w : Which) : j.Between w s (s.list w) s where
  listed := h.listed
  perm := .refl _
  duplicates := rfl
  sublist := .refl _
  pages := fun _ hx hcarries => .inr ⟨hx, hcarries⟩
  order := fun _ => ⟨fun _ _ => rfl, fun _ _ hx => hx⟩
  split := ⟨[], rfl⟩
  settled := fun _ hx hnot => absurd hx hnot

end Gsgpu.Validation
