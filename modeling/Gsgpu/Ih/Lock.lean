import Gsgpu.Ih.Process

/-! What the lock gives in every run: one invocation at a time moves the read pointer, always by
whole entries, so that its loop ends and reads inside the ring. -/
namespace Gsgpu.Ih

variable {r : Ring} {s s' : State} {i : ℕ} {p : Phase} {e : Event}

/-- The ring in entries. -/
def Ring.entries (r : Ring) : ℕ := 2 ^ (Nat.clog 2 (r.ringSize / 4) - 2)

theorem Ring.dwords_eq (r : Ring) : r.dwords = 4 * r.entries := by
  have h := r.two_le
  unfold Ring.dwords Ring.entries
  generalize Nat.clog 2 (r.ringSize / 4) = k at h ⊢
  obtain ⟨j, rfl⟩ := Nat.exists_eq_add_of_le h
  rw [Nat.pow_add, Nat.add_sub_cancel_left]

theorem Ring.entries_pos (r : Ring) : 0 < r.entries := Nat.two_pow_pos _

theorem Ring.wrap_eq (r : Ring) (x : ℕ) : r.wrap x = x % (4 * r.entries) := by
  rw [← r.dwords_eq, Ring.wrap, Ring.ptrMask, Ring.dwords, Nat.and_two_pow_sub_one_eq_mod]

theorem Ring.wrap_mul (r : Ring) (x : ℕ) : r.wrap (4 * x) = 4 * (x % r.entries) := by
  rw [r.wrap_eq, Nat.mul_mod_mul_left]

theorem State.getWptr_eq (s : State) : s.getWptr r = 4 * (s.written.length % r.entries) :=
  r.wrap_mul _

/-- The phases under the lock. -/
def Phase.holds : Phase → Bool
  | .test _ | .prescreen _ | .skip _ | .decode _ | .decoded _ _ | .dispatch _ _ => true
  | .setRptr _ | .unlock _ => true
  | _ => false

/-- The read pointer is an entry ahead and not wrapped yet. -/
def Phase.advanced : Phase → Bool
  | .skip _ | .decoded _ _ => true
  | _ => false

/-- The local variable `wptr`, once it is set. -/
def Phase.wptr : Phase → Option ℕ
  | .restart w | .test w | .prescreen w | .skip w | .decode w | .setRptr w | .unlock w
  | .compare w => some w
  | .decoded w _ | .dispatch w _ => some w
  | _ => none

/-- In the body of the loop the read pointer is not at its end. -/
def Phase.reading : Phase → Bool
  | .prescreen _ | .decode _ => true
  | _ => false

theorem Phase.holds_of_inLoop (h : p.inLoop = true) : p.holds = true := by
  cases p <;> simp_all [Phase.inLoop, Phase.holds]

theorem Phase.holds_of_advanced (h : p.advanced = true) : p.holds = true := by
  cases p <;> simp_all [Phase.advanced, Phase.holds]

theorem Phase.holds_of_reading (h : p.reading = true) : p.holds = true := by
  cases p <;> simp_all [Phase.reading, Phase.holds]

structure State.Locked (r : Ring) (s : State) : Prop where
  owner : ∀ i, (s.phase i).holds = true → s.lock = true
  unique : ∀ i j, (s.phase i).holds = true → (s.phase j).holds = true → i = j
  held : s.lock = true → ∃ i, (s.phase i).holds = true
  sample : ∀ i w, (s.phase i).wptr = some w → ∃ t < r.entries, w = 4 * t
  reading : ∀ i w, (s.phase i).reading = true → (s.phase i).wptr = some w → s.rptr ≠ w
  rptr : ∃ x ≤ r.entries, s.rptr = 4 * x ∧
    (x = r.entries → ∃ i, (s.phase i).advanced = true)

/-- What an invocation does with the lock when it goes from one phase to another. -/
inductive Turn (s s' : State) (q p : Phase) : Prop
  | keep : p.holds = q.holds → s'.lock = s.lock → Turn s s' q p
  | take : p.holds = true → s.lock = false → s'.lock = true → Turn s s' q p
  | give : p.holds = false → q.holds = true → s'.lock = false → Turn s s' q p

/-- One invocation goes to another phase, and moves the read pointer only under the lock. -/
theorem State.Locked.update {q : Phase} (h : s.Locked r) (hq : s.phase i = q)
    (hphase : s'.phase = Function.update s.phase i p)
    (hturn : Turn s s' q p) (hw : ∀ w, p.wptr = some w → ∃ t < r.entries, w = 4 * t)
    (hread : ∀ w, p.reading = true → p.wptr = some w → s'.rptr ≠ w)
    (hrptr : s'.rptr = s.rptr ∧ q.advanced = false ∨
      q.holds = true ∧ ∃ x ≤ r.entries, s'.rptr = 4 * x ∧
        (x = r.entries → p.advanced = true)) : s'.Locked r := by
  subst hq
  have hself : s'.phase i = p := by rw [hphase, Function.update_self]
  have hother : ∀ j, j ≠ i → s'.phase j = s.phase j := fun j hj => by
    rw [hphase, Function.update_of_ne hj]
  refine ⟨fun j hj => ?_, fun j k hj hk => ?_, fun hl => ?_, fun j w hj => ?_, fun j w hr hj => ?_, ?_⟩
  · by_cases hji : j = i
    · subst hji
      rw [hself] at hj
      cases hturn with
      | keep hp hl =>
        rw [hl]
        exact h.owner j (hp ▸ hj)
      | take _ _ hl => exact hl
      | give hp _ _ => simp [hp] at hj
    · rw [hother j hji] at hj
      have hlock := h.owner j hj
      cases hturn with
      | keep _ hl => rw [hl, hlock]
      | take _ hfree _ => simp [hlock] at hfree
      | give _ hi _ => exact absurd (h.unique j i hj hi) hji
  · have hnot : ∀ l, l ≠ i → (s.phase l).holds = true → p.holds = true → False := by
      intro l hl hheld hp
      cases hturn with
      | keep hsame _ => exact hl (h.unique l i hheld (hsame ▸ hp))
      | take _ hfree _ => simp [h.owner l hheld] at hfree
      | give hno _ _ => simp [hno] at hp
    by_cases hji : j = i <;> by_cases hki : k = i
    · rw [hji, hki]
    · subst hji
      rw [hself] at hj
      rw [hother k hki] at hk
      exact (hnot k hki hk hj).elim
    · subst hki
      rw [hself] at hk
      rw [hother j hji] at hj
      exact (hnot j hji hj hk).elim
    · rw [hother j hji] at hj
      rw [hother k hki] at hk
      exact h.unique j k hj hk
  · cases hturn with
    | keep hp hlock =>
      obtain ⟨j, hj⟩ := h.held (hlock ▸ hl)
      refine ⟨j, ?_⟩
      by_cases hji : j = i
      · subst hji
        rw [hself, hp, hj]
      · rw [hother j hji, hj]
    | take hp _ _ => exact ⟨i, by rw [hself, hp]⟩
    | give _ _ hfree => simp [hfree] at hl
  · by_cases hji : j = i
    · subst hji
      rw [hself] at hj
      exact hw w hj
    · rw [hother j hji] at hj
      exact h.sample j w hj
  · by_cases hji : j = i
    · subst hji
      rw [hself] at hr hj
      exact hread w hr hj
    · rw [hother j hji] at hr hj
      rcases hrptr with ⟨hsame, -⟩ | ⟨hheld, -⟩
      · rw [hsame]
        exact h.reading j w hr hj
      · exact absurd (h.unique j i (Phase.holds_of_reading hr) hheld) hji
  · rcases hrptr with ⟨hsame, hnot⟩ | ⟨-, x, hx, heq, hadv⟩
    · obtain ⟨x, hx, heq, hadv⟩ := h.rptr
      refine ⟨x, hx, hsame.trans heq, fun hfull => ?_⟩
      obtain ⟨j, hj⟩ := hadv hfull
      have hji : j ≠ i := fun hji => by simp [hji ▸ hj] at hnot
      exact ⟨j, by rw [hother j hji, hj]⟩
    · exact ⟨x, hx, heq, fun hfull => ⟨i, by rw [hself, hadv hfull]⟩⟩

/-- The read pointer is inside the ring, unless the owner of the lock has still to wrap it. -/
theorem State.Locked.rptr_lt (h : s.Locked r)
    (hadv : ∀ i, (s.phase i).holds = true → (s.phase i).advanced = false) :
    ∃ x < r.entries, s.rptr = 4 * x := by
  obtain ⟨x, hx, heq, hfull⟩ := h.rptr
  refine ⟨x, lt_of_le_of_ne hx fun hx => ?_, heq⟩
  obtain ⟨i, hi⟩ := hfull hx
  simp [hadv i (Phase.holds_of_advanced hi)] at hi

theorem State.Locked.rptr_lt_of_owner (h : s.Locked r) (hi : (s.phase i).holds = true)
    (hadv : (s.phase i).advanced = false) : ∃ x < r.entries, s.rptr = 4 * x :=
  h.rptr_lt fun j hj => by rwa [h.unique j i hj hi]

theorem State.Locked.rptr_lt_of_free (h : s.Locked r) (hfree : s.lock = false) :
    ∃ x < r.entries, s.rptr = 4 * x :=
  h.rptr_lt fun j hj => by simp [h.owner j hj] at hfree

/-- The wrapped read pointer. -/
theorem State.Locked.wrap_rptr (h : s.Locked r) : ∃ x < r.entries, r.wrap s.rptr = 4 * x := by
  obtain ⟨x, -, heq, -⟩ := h.rptr
  exact ⟨x % r.entries, Nat.mod_lt _ r.entries_pos, by rw [heq, r.wrap_mul]⟩

theorem State.Locked.advance (h : s.Locked r) {credit : Bool}
    (hs : s.advance r i credit = some s') : s'.Locked r := by
  have hsample : ∀ w, (s.phase i).wptr = some w → ∃ t < r.entries, w = 4 * t := h.sample i
  have hwptr : ∃ t < r.entries, s.getWptr r = 4 * t :=
    ⟨_, Nat.mod_lt _ r.entries_pos, s.getWptr_eq⟩
  unfold State.advance at hs
  cases hp : s.phase i with
  | idle => simp [hp] at hs
  | start =>
    simp only [hp] at hs
    split at hs <;> cases hs
    · exact h.update hp rfl (.keep rfl rfl) nofun nofun (.inl ⟨rfl, rfl⟩)
    · exact h.update hp rfl (.keep rfl rfl) (by rintro w ⟨⟩; exact hwptr) nofun
        (.inl ⟨rfl, rfl⟩)
  | restart w =>
    simp only [hp] at hs
    rw [hp] at hsample
    split at hs <;> cases hs
    · exact h.update hp rfl (.keep rfl rfl) nofun nofun (.inl ⟨rfl, rfl⟩)
    case isFalse.refl hlock =>
      exact h.update hp rfl (.take rfl (by simpa using hlock) rfl) hsample nofun
        (.inl ⟨rfl, rfl⟩)
  | test w =>
    simp only [hp] at hs
    rw [hp] at hsample
    split at hs <;> cases hs
    case isTrue.refl hne =>
      exact h.update hp rfl (.keep rfl rfl) hsample (by rintro w' - ⟨⟩; exact hne)
        (.inl ⟨rfl, rfl⟩)
    · exact h.update hp rfl (.keep rfl rfl) hsample nofun (.inl ⟨rfl, rfl⟩)
  | prescreen w =>
    have hnext : ∃ x ≤ r.entries, s.rptr + 4 = 4 * x := by
      obtain ⟨x, hx, heq⟩ := h.rptr_lt_of_owner (i := i) (by rw [hp]; rfl) (by rw [hp]; rfl)
      exact ⟨x + 1, hx, by omega⟩
    obtain ⟨x, hx, heq⟩ := hnext
    have hne := h.reading i w (by rw [hp]; rfl) (by rw [hp]; rfl)
    simp only [hp] at hs
    rw [hp] at hsample
    split at hs <;> cases hs
    · exact h.update hp rfl (.keep rfl rfl) hsample (by rintro w' - ⟨⟩; exact hne)
        (.inl ⟨rfl, rfl⟩)
    · exact h.update hp rfl (.keep rfl rfl) hsample nofun
        (.inr ⟨rfl, x, hx, heq, fun _ => rfl⟩)
  | skip w =>
    obtain ⟨x, hx, heq⟩ := h.wrap_rptr
    simp only [hp] at hs
    rw [hp] at hsample
    cases hs
    exact h.update hp rfl (.keep rfl rfl) hsample nofun
      (.inr ⟨rfl, x, hx.le, heq, fun hfull => absurd hfull hx.ne⟩)
  | decode w =>
    obtain ⟨x, hx, heq⟩ := h.rptr_lt_of_owner (i := i) (by rw [hp]; rfl) (by rw [hp]; rfl)
    simp only [hp] at hs
    rw [hp] at hsample
    cases hs
    exact h.update hp rfl (.keep rfl rfl) hsample nofun
      (.inr ⟨rfl, x + 1, hx, by simp only; omega, fun _ => rfl⟩)
  | decoded w entry =>
    obtain ⟨x, hx, heq⟩ := h.wrap_rptr
    simp only [hp] at hs
    rw [hp] at hsample
    cases hs
    exact h.update hp rfl (.keep rfl rfl) hsample nofun
      (.inr ⟨rfl, x, hx.le, heq, fun hfull => absurd hfull hx.ne⟩)
  | dispatch w entry =>
    simp only [hp] at hs
    rw [hp] at hsample
    cases hs
    exact h.update hp rfl (.keep rfl rfl) hsample nofun (.inl ⟨rfl, rfl⟩)
  | setRptr w =>
    simp only [hp] at hs
    rw [hp] at hsample
    cases hs
    exact h.update hp rfl (.keep rfl rfl) hsample nofun (.inl ⟨rfl, rfl⟩)
  | unlock w =>
    simp only [hp] at hs
    cases hs
    exact h.update hp rfl (.give rfl rfl rfl) nofun nofun (.inl ⟨rfl, rfl⟩)
  | recheck =>
    simp only [hp] at hs
    cases hs
    exact h.update hp rfl (.keep rfl rfl) (by rintro w ⟨⟩; exact hwptr) nofun
      (.inl ⟨rfl, rfl⟩)
  | compare w =>
    simp only [hp] at hs
    rw [hp] at hsample
    split at hs <;> cases hs
    · exact h.update hp rfl (.keep rfl rfl) hsample nofun (.inl ⟨rfl, rfl⟩)
    · exact h.update hp rfl (.keep rfl rfl) nofun nofun (.inl ⟨rfl, rfl⟩)

theorem State.Locked.step (h : s.Locked r) (hs : s.step r e = some s') : s'.Locked r := by
  cases e with
  | write dw =>
    simp only [State.step] at hs
    split at hs <;> cases hs
    exact ⟨h.owner, h.unique, h.held, h.sample, h.reading, h.rptr⟩
  | call i =>
    simp only [State.step] at hs
    split at hs <;> cases hs
    case isTrue.refl hp =>
      exact h.update hp rfl (.keep rfl rfl) nofun nofun (.inl ⟨rfl, rfl⟩)
  | advance i credit => exact h.advance hs

theorem State.Locked.initial (h : s.Init) : s.Locked r where
  owner i hi := by simp [h.phase i, Phase.holds] at hi
  unique i j hi := by simp [h.phase i, Phase.holds] at hi
  held hl := by simp [h.lock] at hl
  sample i w hi := by simp [h.phase i, Phase.wptr] at hi
  reading i w hi := by simp [h.phase i, Phase.reading] at hi
  rptr := ⟨0, Nat.zero_le _, h.rptr, fun h0 => absurd h0 r.entries_pos.ne⟩

/-- Every index read is inside the ring. -/
theorem State.Locked.reads_lt (h : s.Locked r) {x : ℕ} (hx : x ∈ s.reads e) : x < r.dwords := by
  cases e with
  | write dw => cases hx
  | call i => cases hx
  | advance i credit =>
    have hend : (s.phase i).reading = true → s.rptr + 3 < r.dwords := by
      intro hread
      obtain ⟨y, hy, heq⟩ := h.rptr_lt_of_owner (Phase.holds_of_reading hread)
        (by generalize s.phase i = q at hread; cases q <;> simp_all [Phase.reading, Phase.advanced])
      rw [r.dwords_eq]
      omega
    unfold State.reads at hx
    cases hp : s.phase i <;> simp only [hp] at hx hend <;> try cases hx
    case prescreen.head => exact lt_of_le_of_lt (Nat.le_add_right _ 3) (hend rfl)
    case prescreen.tail hx =>
      have := hend rfl
      split at hx
      · cases hx with
        | head => omega
        | tail _ hx => cases hx
      · cases hx
    case decode.head => exact lt_of_le_of_lt (Nat.le_add_right _ 3) (hend rfl)
    case decode.tail hx =>
      have := hend rfl
      have hx : x ∈ [s.rptr + 1, s.rptr + 2, s.rptr + 3] := hx
      simp only [List.mem_cons, List.not_mem_nil, or_false] at hx
      omega

/-- Other invocations stay where they are, and the read pointer is that of the owner of the lock. -/
theorem State.advance_frame {credit : Bool} (hs : s.advance r i credit = some s') :
    (∀ j, j ≠ i → s'.phase j = s.phase j) ∧
      ((s.phase i).holds = false → s'.rptr = s.rptr) := by
  have hupdate : ∀ {q : Phase} {j : ℕ}, j ≠ i → Function.update s.phase i q j = s.phase j :=
    fun hj => Function.update_of_ne hj _ _
  unfold State.advance at hs
  cases hp : s.phase i <;> simp only [hp] at hs <;> (try split at hs) <;> cases hs <;>
    first
      | exact ⟨fun _ hj => hupdate hj, fun _ => rfl⟩
      | exact ⟨fun _ hj => hupdate hj, nofun⟩

/-- The order of the phases in the loop, in steps before the next entry. -/
def Phase.rank : Phase → ℕ
  | .decoded _ _ => 4
  | .skip _ | .dispatch _ _ => 3
  | .test _ => 2
  | .prescreen _ => 1
  | _ => 0

/-- A bound of the steps that an invocation has still to make in its loop. -/
def State.remaining (r : Ring) (s : State) (i : ℕ) : ℕ :=
  6 * Cyclic.dist r.entries (s.rptr / 4 % r.entries) ((s.phase i).wptr.getD 0 / 4) +
    (s.phase i).rank

theorem State.remaining_lt_dwords (s : State) (i : ℕ) : s.remaining r i < 2 * r.dwords := by
  have hdist : Cyclic.dist r.entries (s.rptr / 4 % r.entries) ((s.phase i).wptr.getD 0 / 4) <
      r.entries := Cyclic.dist_lt r.entries_pos
  have hrank : (s.phase i).rank ≤ 4 := by
    generalize s.phase i = q
    cases q <;> simp [Phase.rank]
  rw [State.remaining, r.dwords_eq]
  omega

/-- With an entry read, the end is one nearer. -/
theorem State.Locked.dist_next (h : s.Locked r) (hread : (s.phase i).reading = true) {w : ℕ}
    (hw : (s.phase i).wptr = some w) :
    Cyclic.dist r.entries ((s.rptr + 4) / 4 % r.entries) (w / 4) + 1 =
      Cyclic.dist r.entries (s.rptr / 4 % r.entries) (w / 4) := by
  obtain ⟨x, hx, heq⟩ := h.rptr_lt_of_owner (Phase.holds_of_reading hread)
    (by generalize s.phase i = q at hread; cases q <;> simp_all [Phase.reading, Phase.advanced])
  obtain ⟨t, ht, rfl⟩ := h.sample i w hw
  have hne := h.reading i _ hread hw
  rw [heq] at hne ⊢
  rw [show (4 * x + 4) / 4 = x + 1 by omega, show 4 * x / 4 = x by omega,
    show 4 * t / 4 = t by omega, Nat.mod_eq_of_lt hx]
  exact Cyclic.dist_next hx ht (by omega)

theorem Ring.wrap_div (r : Ring) (x : ℕ) : r.wrap x / 4 % r.entries = x / 4 % r.entries := by
  rw [r.wrap_eq, Nat.mod_mul_right_div_self, Nat.mod_mod]

/-- Each step of an invocation in its loop leaves fewer to make. -/
theorem State.Locked.remaining_lt (h : s.Locked r) {credit : Bool} (hin : (s.phase i).inLoop)
    (hs : s.advance r i credit = some s') (hin' : (s'.phase i).inLoop) :
    s'.remaining r i < s.remaining r i := by
  unfold State.advance at hs
  cases hp : s.phase i with
  | idle | start | restart | setRptr | unlock | recheck | compare => simp [hp, Phase.inLoop] at hin
  | test w =>
    simp only [hp] at hs
    split at hs <;> cases hs
    · simp [State.remaining, State.setPhase, hp, Phase.wptr, Phase.rank]
    · simp [State.setPhase, Phase.inLoop] at hin'
  | prescreen w =>
    have hnext := h.dist_next (i := i) (w := w) (by rw [hp]; rfl) (by rw [hp]; rfl)
    simp only [hp] at hs
    split at hs <;> cases hs
    · simp [State.remaining, State.setPhase, hp, Phase.wptr, Phase.rank]
    · simp only [State.remaining, State.setPhase, hp, Phase.wptr, Phase.rank,
        Function.update_self, Option.getD_some]
      omega
  | skip w =>
    simp only [hp] at hs
    cases hs
    simp [State.remaining, State.setPhase, hp, Phase.wptr, Phase.rank, r.wrap_div]
  | decode w =>
    have hnext := h.dist_next (i := i) (w := w) (by rw [hp]; rfl) (by rw [hp]; rfl)
    simp only [hp] at hs
    cases hs
    simp only [State.remaining, State.setPhase, hp, Phase.wptr, Phase.rank,
      Function.update_self, Option.getD_some]
    omega
  | decoded w entry =>
    simp only [hp] at hs
    cases hs
    simp [State.remaining, State.setPhase, hp, Phase.wptr, Phase.rank, r.wrap_div]
  | dispatch w entry =>
    simp only [hp] at hs
    cases hs
    simp [State.remaining, State.setPhase, hp, Phase.wptr, Phase.rank]

/-- Nobody else moves an invocation in its loop, or its read pointer. -/
theorem State.Locked.remaining_eq (h : s.Locked r) (hin : (s.phase i).inLoop)
    (he : e.isAdvance i = false) (hs : s.step r e = some s') :
    s'.remaining r i = s.remaining r i := by
  have hheld := Phase.holds_of_inLoop hin
  have hsame : s'.phase i = s.phase i ∧ s'.rptr = s.rptr := by
    cases e with
    | write dw =>
      simp only [State.step] at hs
      split at hs <;> cases hs
      exact ⟨rfl, rfl⟩
    | call j =>
      simp only [State.step] at hs
      split at hs <;> cases hs
      case isTrue.refl hj =>
        have hij : i ≠ j := by
          rintro rfl
          simp [hj, Phase.holds] at hheld
        exact ⟨Function.update_of_ne hij _ _, rfl⟩
    | advance j credit =>
      have hij : i ≠ j := by simpa [Event.isAdvance] using he
      obtain ⟨hphase, hrptr⟩ := State.advance_frame hs
      refine ⟨hphase i hij, hrptr ?_⟩
      by_contra hj
      exact hij (h.unique i j hheld (by simpa using hj))
  rw [State.remaining, State.remaining, hsame.1, hsame.2]

/-- As long as an invocation stays in its loop, its steps are bounded. -/
theorem State.Locked.count_le (h : s.Locked r) {es : List Event}
    (hes : ∀ p, p <+: es → ∃ t, p.foldlM (State.step r) s = some t ∧ (t.phase i).inLoop) :
    es.countP (Event.isAdvance i) ≤ s.remaining r i := by
  induction es generalizing s with
  | nil => simp
  | cons e es ih =>
    obtain ⟨_, h₀, hin⟩ := hes [] List.nil_prefix
    cases h₀
    obtain ⟨t, ht, hin'⟩ := hes [e] (by simp)
    rw [List.foldlM_cons] at ht
    obtain ⟨_, hs, ht⟩ := Option.bind_eq_some_iff.mp ht
    cases ht
    have hrest := ih (h.step hs) fun p hp => by
      obtain ⟨t', ht', hin⟩ := hes (e :: p) (by simpa using hp)
      rw [List.foldlM_cons, hs] at ht'
      exact ⟨t', ht', hin⟩
    cases he : e.isAdvance i with
    | false =>
      rw [List.countP_cons_of_neg (by simp [he]), ← h.remaining_eq hin he hs]
      exact hrest
    | true =>
      rw [List.countP_cons_of_pos he]
      cases e with
      | write dw => cases he
      | call j => cases he
      | advance j credit =>
        obtain rfl : i = j := by simpa [Event.isAdvance] using he
        have := h.remaining_lt hin hs hin'
        omega

theorem State.Locked.loopsEnd (h : s.Locked r) : s.LoopsEnd r := fun i _ hes =>
  lt_of_le_of_lt (h.count_le hes) (s.remaining_lt_dwords i)

end Gsgpu.Ih
