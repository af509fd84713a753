import Gsgpu.Userptr.Pages
import Mathlib.Data.List.Basic

/-! Who has which BO reserved. From the check that finds no entry in need of pages until the push,
a submission has all its BOs reserved, so nobody else changes their pages. -/
namespace Gsgpu.Userptr

/-- The phases with reservations. -/
def Phase.holds : Phase → Bool
  | .check _ | .validate _ | .mapped _ => true
  | .idle | .reserve | .fill _ | .pin _ _ => false

/-- The phases in which `need_pages` is empty. -/
def Phase.settled : Phase → Bool
  | .reserve | .validate _ | .mapped _ => true
  | .idle | .check _ | .fill _ | .pin _ _ => false

/-- The entries that a phase has still to work on. -/
def Phase.todo : Phase → List ℕ
  | .check todo | .fill todo | .validate todo => todo
  | .pin e todo => e :: todo
  | .idle | .reserve | .mapped _ => []

variable (robj : ℕ → ℕ)

/-- The reservations of submission `p`, in the state of the BOs `bo`. -/
structure Cs.Owned (bo : ℕ → Bo) (p : ℕ) (c : Cs) : Prop where
  validated : ∀ e ∈ c.validated, e ∈ c.entries
  duplicates : ∀ e ∈ c.duplicates, e ∈ c.entries
  needPages : ∀ e ∈ c.needPages, e ∈ c.entries
  todo : ∀ e ∈ c.phase.todo, e ∈ c.entries
  handle : c.phase ≠ .idle → ∀ e ∈ c.entries, (bo (robj e)).handle
  settled : c.phase.settled → c.needPages = []
  covered : c.phase ≠ .idle → ∀ e ∈ c.entries,
    ∃ e', (e' ∈ c.needPages ∨ e' ∈ c.validated) ∧ robj e' = robj e
  locked : ∀ b, (bo b).resv = some p → c.phase.holds ∧ ∃ e ∈ c.validated, robj e = b
  held : c.phase.holds → c.needPages = [] → ∀ e ∈ c.entries, (bo (robj e)).resv = some p
  uses : ∀ uses, c.phase = .mapped uses → ∀ u ∈ uses,
    (∃ e ∈ c.entries, robj e = u.1) ∧ u.2 = (bo u.1).pages

variable {robj} {bo bo' : ℕ → Bo} {p : ℕ} {c : Cs}

/-- What submission `p` knows of the BOs: which it has reserved, their pages, and the handles. -/
def Agree (p : ℕ) (bo bo' : ℕ → Bo) : Prop :=
  ∀ b, ((bo' b).resv = some p ↔ (bo b).resv = some p) ∧
    ((bo b).resv = some p → (bo' b).pages = (bo b).pages) ∧
    ((bo b).handle = true → (bo' b).handle = true)

theorem Agree.refl : Agree p bo bo := fun _ => ⟨Iff.rfl, fun _ => rfl, id⟩

theorem Cs.Owned.of_agree (h : c.Owned robj bo p) (ha : Agree p bo bo') :
    c.Owned robj bo' p where
  validated := h.validated
  duplicates := h.duplicates
  needPages := h.needPages
  todo := h.todo
  handle := fun hp e he => (ha _).2.2 (h.handle hp e he)
  settled := h.settled
  covered := h.covered
  locked := fun b hb => h.locked b ((ha b).1.mp hb)
  held := fun hp hn e he => (ha _).1.mpr (h.held hp hn e he)
  uses := by
    intro uses hu u hmem
    obtain ⟨⟨e, he, hb⟩, hp⟩ := h.uses uses hu u hmem
    have hn : c.needPages = [] := h.settled (by simp [hu, Phase.settled])
    have hr : (bo u.1).resv = some p := hb ▸ h.held (by simp [hu, Phase.holds]) hn e he
    exact ⟨⟨e, he, hb⟩, hp.trans ((ha _).2.1 hr).symm⟩

/-- Before the pages are mapped, their changes do not matter. -/
theorem Cs.Owned.of_resv (h : c.Owned robj bo p) (hm : ∀ uses, c.phase ≠ .mapped uses)
    (hr : ∀ b, (bo' b).resv = (bo b).resv) (hh : ∀ b, (bo' b).handle = (bo b).handle) :
    c.Owned robj bo' p where
  validated := h.validated
  duplicates := h.duplicates
  needPages := h.needPages
  todo := h.todo
  handle := fun hp e he => (hh _).trans (h.handle hp e he)
  settled := h.settled
  covered := h.covered
  locked := fun b hb => h.locked b ((hr b).symm.trans hb)
  held := fun hp hn e he => (hr _).trans (h.held hp hn e he)
  uses := fun uses hu => absurd hu (hm uses)

/-- A BO that a submission has reserved has its handle. -/
theorem Cs.Owned.handle_of_resv (h : c.Owned robj bo p) {b : ℕ} (hb : (bo b).resv = some p) :
    (bo b).handle = true := by
  obtain ⟨hp, e, he, rfl⟩ := h.locked b hb
  refine h.handle ?_ e (h.validated e he)
  rintro hi
  simp [hi, Phase.holds] at hp

@[simp] theorem unreserve_eq (es : List ℕ) (b : ℕ) :
    unreserve robj es bo b =
      { bo b with resv := if ∃ e ∈ es, robj e = b then none else (bo b).resv } := by
  by_cases h : ∃ e ∈ es, robj e = b <;> simp [unreserve, List.mem_map, h]

/-- Others do not see what a submission unreserves of its own. -/
theorem agree_unreserve {q : ℕ} {es : List ℕ} (hq : q ≠ p)
    (h : ∀ e ∈ es, (bo (robj e)).resv = some p) : Agree q bo (unreserve robj es bo) := by
  intro b
  simp only [unreserve_eq]
  refine ⟨?_, fun _ => trivial, id⟩
  split
  case isTrue hb =>
    obtain ⟨e, he, rfl⟩ := hb
    simp [h e he, hq.symm]
  case isFalse hb => rfl

section Reserve

variable {es v d : List ℕ}

/-- `ttm_eu_reserve_buffers` reserves every BO of the list, and each for an entry that stays. -/
theorem reserveBuffers_spec (h : reserveBuffers robj p es bo = some (bo', v, d)) :
    (∀ b, bo' b = { bo b with resv := (bo' b).resv }) ∧
    (∀ e ∈ es, (bo' (robj e)).resv = some p) ∧
    (∀ b, (bo' b).resv = (bo b).resv ∨
      (bo b).resv = none ∧ (bo' b).resv = some p ∧ ∃ e ∈ v, robj e = b) ∧
    (∀ e ∈ v, e ∈ es) ∧ ∀ e ∈ d, e ∈ es := by
  induction es generalizing bo bo' v d with
  | nil =>
    simp only [reserveBuffers, Option.some.injEq, Prod.mk.injEq] at h
    obtain ⟨rfl, rfl, rfl⟩ := h
    simp
  | cons e es ih =>
    simp only [reserveBuffers] at h
    split at h
    case h_1 hr =>
      obtain ⟨⟨bo₁, v₁, d₁⟩, h₁, h₂⟩ := Option.bind_eq_some_iff.mp h
      simp only [Option.some.injEq, Prod.mk.injEq] at h₂
      obtain ⟨rfl, rfl, rfl⟩ := h₂
      obtain ⟨hframe, hes, hres, hv, hd⟩ := ih h₁
      have he : (bo₁ (robj e)).resv = some p := by
        rcases hres (robj e) with h | ⟨_, h, _⟩
        · simpa using h
        · exact h
      refine ⟨fun b => ?_, ?_, fun b => ?_, ?_, ?_⟩
      · rw [hframe b]
        by_cases hb : b = robj e <;> simp [hb]
      · simp only [List.mem_cons, forall_eq_or_imp]
        exact ⟨he, hes⟩
      · by_cases hb : b = robj e
        · subst hb
          exact .inr ⟨hr, he, e, by simp, rfl⟩
        · rcases hres b with h | ⟨h₀, h, x, hx, hxb⟩
          · simp only [Function.update_apply, hb, if_false] at h
            exact .inl h
          · simp only [Function.update_apply, hb, if_false] at h₀
            exact .inr ⟨h₀, h, x, by simp [hx], hxb⟩
      · simp only [List.mem_cons, forall_eq_or_imp, true_or, true_and]
        exact fun x hx => .inr (hv x hx)
      · exact fun x hx => List.mem_cons_of_mem _ (hd x hx)
    case h_2 q hr =>
      split at h
      case isFalse => cases h
      case isTrue hq =>
        obtain ⟨⟨bo₁, v₁, d₁⟩, h₁, h₂⟩ := Option.bind_eq_some_iff.mp h
        simp only [Option.some.injEq, Prod.mk.injEq] at h₂
        obtain ⟨rfl, rfl, rfl⟩ := h₂
        obtain ⟨hframe, hes, hres, hv, hd⟩ := ih h₁
        have he : (bo₁ (robj e)).resv = some p := by
          rcases hres (robj e) with h | ⟨_, h, _⟩
          · rw [h, hr, hq]
          · exact h
        refine ⟨hframe, ?_, hres, fun x hx => List.mem_cons_of_mem _ (hv x hx), ?_⟩
        · simp only [List.mem_cons, forall_eq_or_imp]
          exact ⟨he, hes⟩
        · simp only [List.mem_cons, forall_eq_or_imp, true_or, true_and]
          exact fun x hx => .inr (hd x hx)

theorem agree_reserveBuffers {q : ℕ} (hq : q ≠ p)
    (h : reserveBuffers robj p es bo = some (bo', v, d)) : Agree q bo bo' := by
  obtain ⟨hframe, -, hres, -⟩ := reserveBuffers_spec h
  intro b
  refine ⟨?_, fun _ => by rw [hframe b], fun hb => by rw [hframe b]; exact hb⟩
  rcases hres b with h | ⟨h₀, h, -⟩
  · rw [h]
  · simp [h₀, h, hq.symm]

end Reserve

/-! A submission's own steps. -/
section Steps

variable {phase : Phase}

theorem Cs.Owned.getList (h : c.Owned robj bo p) (hp : c.phase = .idle) {es : List ℕ}
    (hh : ∀ e ∈ es, (bo (robj e)).handle) :
    (⟨.reserve, es, es, [], [], 10⟩ : Cs).Owned robj bo p where
  validated := fun _ he => he
  duplicates := by simp
  needPages := by simp
  todo := by simp [Phase.todo]
  handle := fun _ => hh
  settled := fun _ => rfl
  covered := fun _ e he => ⟨e, .inr he, rfl⟩
  locked := fun b hb => by simpa [hp, Phase.holds] using (h.locked b hb).1
  held := fun hp => by simp [Phase.holds] at hp
  uses := by simp

/-- The phase changes, and the reservations do not. -/
theorem Cs.Owned.setPhase (h : c.Owned robj bo p) (hi : phase ≠ .idle → c.phase ≠ .idle)
    (htodo : ∀ e ∈ phase.todo, e ∈ c.entries) (hs : phase.settled → c.needPages = [])
    (hh : phase.holds = c.phase.holds)
    (hu : ∀ uses, phase = .mapped uses → ∀ u ∈ uses,
      (∃ e ∈ c.entries, robj e = u.1) ∧ u.2 = (bo u.1).pages) :
    { c with phase := phase }.Owned robj bo p where
  validated := h.validated
  duplicates := h.duplicates
  needPages := h.needPages
  todo := htodo
  handle := fun hp => h.handle (hi hp)
  settled := hs
  covered := fun hp => h.covered (hi hp)
  locked := fun b hb => by simpa [hh] using h.locked b hb
  held := fun hp => h.held (hh ▸ hp)
  uses := hu

theorem Cs.Owned.reserve (h : c.Owned robj bo p) (hp : c.phase = .reserve) {v d : List ℕ}
    (hr : reserveBuffers robj p c.validated bo = some (bo', v, d)) :
    { c with
      phase := .check c.entries
      validated := v
      duplicates := d ++ c.duplicates }.Owned robj bo' p := by
  obtain ⟨hframe, hes, hres, hv, hd⟩ := reserveBuffers_spec hr
  have hi : c.phase ≠ .idle := by simp [hp]
  have hn : c.needPages = [] := h.settled (by simp [hp, Phase.settled])
  have hlocked : ∀ b, (bo' b).resv = some p → ∃ e ∈ v, robj e = b := by
    intro b hb
    rcases hres b with h' | ⟨-, -, h'⟩
    · have := (h.locked b (h' ▸ hb)).1
      simp [hp, Phase.holds] at this
    · exact h'
  have hheld : ∀ e ∈ c.entries, (bo' (robj e)).resv = some p := by
    intro e he
    obtain ⟨e', he', heq⟩ := h.covered hi e he
    simp only [hn, List.not_mem_nil, false_or] at he'
    exact heq ▸ hes e' he'
  exact {
    validated := fun e he => h.validated e (hv e he)
    duplicates := by
      intro e he
      rcases List.mem_append.mp he with he | he
      · exact h.validated e (hd e he)
      · exact h.duplicates e he
    needPages := h.needPages
    todo := fun _ he => he
    handle := fun _ e he => by rw [hframe]; exact h.handle hi e he
    settled := by simp [Phase.settled]
    covered := fun _ e he =>
      let ⟨e', he', heq⟩ := hlocked _ (hheld e he)
      ⟨e', .inr he', heq⟩
    locked := fun b hb => ⟨rfl, hlocked b hb⟩
    held := fun _ _ => hheld
    uses := by simp }

/-- The next entry of the check needs pages: it moves to `need_pages`, and its BO is unreserved. -/
theorem Cs.Owned.needs (h : c.Owned robj bo p) {e : ℕ} {todo : List ℕ}
    (hp : c.phase = .check (e :: todo)) :
    { c with
      phase := .check todo
      validated := c.validated.erase e
      duplicates := c.duplicates.erase e
      needPages := e :: c.needPages }.Owned robj
      (Function.update bo (robj e) { bo (robj e) with resv := none }) p where
  validated := fun x hx => h.validated x (List.mem_of_mem_erase hx)
  duplicates := fun x hx => h.duplicates x (List.mem_of_mem_erase hx)
  needPages := by
    simp only [List.mem_cons, forall_eq_or_imp]
    exact ⟨h.todo e (by simp [hp, Phase.todo]), h.needPages⟩
  todo := fun x hx => h.todo x (by simp only [hp, Phase.todo]; exact List.mem_cons_of_mem _ hx)
  handle := by
    intro _ x hx
    have := h.handle (by simp [hp]) x hx
    by_cases hb : robj x = robj e <;> simp_all
  settled := by simp [Phase.settled]
  covered := by
    intro _ x hx
    obtain ⟨x', hx', heq⟩ := h.covered (by simp [hp]) x hx
    by_cases hxe : x' = e
    · exact ⟨e, by simp, hxe ▸ heq⟩
    · refine ⟨x', ?_, heq⟩
      rcases hx' with hx' | hx'
      · exact .inl (List.mem_cons_of_mem _ hx')
      · exact .inr ((List.mem_erase_of_ne hxe).mpr hx')
  locked := by
    intro b hb
    by_cases hbe : b = robj e
    · simp [hbe] at hb
    · simp only [Function.update_apply, hbe, if_false] at hb
      obtain ⟨-, x, hx, rfl⟩ := h.locked b hb
      have hxe : x ≠ e := fun h => hbe (h ▸ rfl)
      exact ⟨rfl, x, (List.mem_erase_of_ne hxe).mpr hx, rfl⟩
  held := by simp
  uses := by simp

/-- Everything on the list is unreserved. -/
theorem Cs.Owned.unreserve (h : c.Owned robj bo p) {tries : ℕ}
    (hi : phase ≠ .idle → c.phase ≠ .idle) (htodo : ∀ e ∈ phase.todo, e ∈ c.entries)
    (hs : phase.settled = false) (hh : phase.holds = false) :
    { c with phase := phase, tries := tries }.Owned robj
      (Userptr.unreserve robj c.validated bo) p where
  validated := h.validated
  duplicates := h.duplicates
  needPages := h.needPages
  todo := htodo
  handle := fun hp e he => by simpa using h.handle (hi hp) e he
  settled := fun hp => by simp [hs] at hp
  covered := fun hp => h.covered (hi hp)
  locked := by
    intro b hb
    simp only [unreserve_eq] at hb
    split at hb
    case isTrue => cases hb
    case isFalse hb' => exact absurd (h.locked b hb).2 hb'
  held := fun hp => by simp [hh] at hp
  uses := by
    intro uses hu
    simp only at hu
    simp [hu, Phase.holds] at hh

/-- The arrays are filled, and the entries go back on the list. -/
theorem Cs.Owned.again (h : c.Owned robj bo p) (hp : c.phase = .fill []) :
    { c with
      phase := .reserve
      validated := c.needPages ++ c.validated
      needPages := [] }.Owned robj bo p where
  validated := by
    intro e he
    rcases List.mem_append.mp he with he | he
    · exact h.needPages e he
    · exact h.validated e he
  duplicates := h.duplicates
  needPages := by simp
  todo := by simp [Phase.todo]
  handle := fun _ => h.handle (by simp [hp])
  settled := fun _ => rfl
  covered := by
    intro _ e he
    obtain ⟨e', he', heq⟩ := h.covered (by simp [hp]) e he
    exact ⟨e', .inr (List.mem_append.mpr he'), heq⟩
  locked := by
    intro b hb
    have := (h.locked b hb).1
    simp [hp, Phase.holds] at this
  held := fun hp => by simp [Phase.holds] at hp
  uses := by simp

end Steps

end Gsgpu.Userptr
