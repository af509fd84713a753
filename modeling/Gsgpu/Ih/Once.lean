import Gsgpu.Ih.Lock
import Mathlib.Data.List.Forall2

/-! Every entry is handled once: what the ring still holds from the read pointer on, and how far
the owner of the lock goes. -/
namespace Gsgpu.Ih

variable {r : Ring} {s s' : State} {i : ℕ} {e : Event}

/-- The owner of the lock, with `n` entries read, goes up to an entry that was written. -/
def State.Bound (r : Ring) (s : State) (n w : ℕ) : Prop :=
  s.observed = w ∧ ∃ t, n ≤ t ∧ t ≤ s.written.length ∧ w = 4 * (t % r.entries)

/-- What is known of an invocation when `n` entries have been read. -/
def State.At (r : Ring) (s : State) (n : ℕ) : Phase → Prop
  | .test w | .skip w => s.Bound r n w ∧ s.log.length = n
  | .prescreen w | .decode w => s.Bound r (n + 1) w ∧ s.log.length = n
  | .decoded w entry | .dispatch w entry => s.Bound r n w ∧ s.log.length + 1 = n ∧
      ∃ dw, s.written[s.log.length]? = some dw ∧ entry = decodeIv dw
  | .setRptr w | .unlock w => s.observed = w ∧ w = s.rptr ∧ s.log.length = n
  | _ => True

/-- With `n` entries read, the ring holds all later ones from the read pointer on. -/
structure State.Inv (r : Ring) (s : State) (n : ℕ) : Prop where
  locked : s.Locked r
  live : s.enabled = true ∧ s.shutdown = false
  le : n ≤ s.written.length
  room : s.written.length < n + r.entries
  pos : s.rptr % (4 * r.entries) = 4 * (n % r.entries)
  ring : Circular.Holds r.entries (fun j => s.entryAt (4 * j)) (n % r.entries) (s.written.drop n)
  log : ∀ (j : ℕ) (x : Handled), s.log[j]? = some x → ∃ dw, s.written[j]? = some dw ∧ x.Of dw
  free : s.lock = false → s.log.length = n ∧ s.observed = s.rptr
  owner : ∀ i, s.At r n (s.phase i)
  settled : s.Running → s.Settled → n = s.written.length

variable {n : ℕ}

theorem State.Inv.rptr_of_owner (h : s.Inv r n) (hi : (s.phase i).holds = true)
    (hadv : (s.phase i).advanced = false) : s.rptr = 4 * (n % r.entries) := by
  obtain ⟨x, hx, heq⟩ := h.locked.rptr_lt_of_owner hi hadv
  rw [← h.pos, heq, Nat.mod_eq_of_lt (by omega)]

theorem State.Inv.rptr_of_free (h : s.Inv r n) (hfree : s.lock = false) :
    s.rptr = 4 * (n % r.entries) := by
  obtain ⟨x, hx, heq⟩ := h.locked.rptr_lt_of_free hfree
  rw [← h.pos, heq, Nat.mod_eq_of_lt (by omega)]

/-- The entry at the read pointer is the next one that was written. -/
theorem State.Inv.entryAt_rptr (h : s.Inv r n) (hr : s.rptr = 4 * (n % r.entries)) {dw : Entry}
    (hn : s.written[n]? = some dw) : s.entryAt s.rptr = dw := by
  have := h.ring 0 dw (by rw [List.getElem?_drop, Nat.add_zero, hn])
  rw [Nat.add_zero, Nat.mod_mod] at this
  rw [hr]
  exact this

/-- With the next entry read, the ring holds the rest. -/
theorem State.Inv.ring_pop (h : s.Inv r n) (hn : n < s.written.length) :
    Circular.Holds r.entries (fun j => s.entryAt (4 * j)) ((n + 1) % r.entries)
      (s.written.drop (n + 1)) := by
  have hring := h.ring
  rw [List.drop_eq_getElem_cons hn] at hring
  have := hring.pop
  rwa [Nat.mod_add_mod] at this

/-- A new entry is in the ring behind the others. -/
theorem State.Inv.ring_push (h : s.Inv r n) (dw : Entry) :
    Circular.Holds r.entries (fun j => (s.write r dw).entryAt (4 * j)) (n % r.entries)
      ((s.written ++ [dw]).drop n) := by
  have hlen : (s.written.drop n).length = s.written.length - n := List.length_drop
  have hle := h.le
  have hplace : (n % r.entries + (s.written.drop n).length) % r.entries =
      s.written.length % r.entries := by
    rw [Nat.mod_add_mod, hlen, Nat.add_sub_cancel' hle]
  have hpush := h.ring.push (by have := h.room; omega) dw
  rw [hplace, ← List.drop_append_of_le_length hle] at hpush
  intro j w hj
  have := hpush j w hj
  generalize (n % r.entries + j) % r.entries = m at this ⊢
  rw [← this]
  funext k
  simp only [State.entryAt, State.write, State.getWptr_eq]
  by_cases hm : m = s.written.length % r.entries
  · subst hm
    rw [Function.update_self, dif_pos (by omega)]
    congr 1
    exact Fin.ext (Nat.add_sub_cancel_left _ _)
  · rw [Function.update_of_ne hm, dif_neg (by omega)]
    rfl

/-- The hardware writes an entry. -/
theorem State.Inv.write (h : s.Inv r n) {dw : Entry} (hg : Event.Fresh r s (.write dw))
    (hroom : r.wrap (s.getWptr r + 4) ≠ r.wrap s.rptr) : (s.write r dw).Inv r n := by
  have hle := h.le
  have hlen : (s.write r dw).written.length = s.written.length + 1 := List.length_append
  have hget : ∀ {j : ℕ} {x : Entry}, s.written[j]? = some x → (s.written ++ [dw])[j]? = some x :=
    fun hj => by rw [List.getElem?_append_left (List.getElem?_eq_some_iff.mp hj).1, hj]
  have hbound : ∀ {m w : ℕ}, s.Bound r m w → (s.write r dw).Bound r m w := by
    rintro m w ⟨hobs, t, hmt, ht, hw⟩
    exact ⟨hobs, t, hmt, by rw [hlen]; omega, hw⟩
  refine ⟨h.locked.step (e := .write dw) (by simp [State.step, hroom]), h.live, by rw [hlen]; omega,
    ?_, h.pos, h.ring_push dw, ?_, h.free, fun i => ?_, fun hrun hset => absurd hset (hg hrun)⟩
  · have hne : (s.written.length + 1) % r.entries ≠ n % r.entries := by
      intro heq
      refine hroom ?_
      rw [s.getWptr_eq, show 4 * (s.written.length % r.entries) + 4 =
        4 * (s.written.length % r.entries + 1) by omega, r.wrap_mul, r.wrap_eq, h.pos,
        Nat.mod_add_mod, heq]
    have := h.room
    rw [hlen]
    refine lt_of_le_of_ne (by omega) fun heq => hne ?_
    rw [heq, Nat.add_mod_right]
  · intro j x hj
    obtain ⟨y, hy, hof⟩ := h.log j x hj
    exact ⟨y, hget hy, hof⟩
  · have hat := h.owner i
    change (s.write r dw).At r n (s.phase i)
    cases hp : s.phase i with
    | idle | start | restart | recheck | compare => trivial
    | setRptr | unlock =>
      rw [hp] at hat
      exact hat
    | test | prescreen | skip | decode =>
      rw [hp] at hat
      exact ⟨hbound hat.1, hat.2⟩
    | decoded | dispatch =>
      rw [hp] at hat
      obtain ⟨hb, hlog, x, hx, hentry⟩ := hat
      exact ⟨hbound hb, hlog, x, hget hx, hentry⟩

/-- Nothing is asked of invocations without the lock. -/
theorem State.at_of_not_holds {p : Phase} (hp : p.holds = false) : s.At r n p := by
  cases p <;> trivial

theorem State.Settled.not_holds (h : s.Settled) (i : ℕ) : (s.phase i).holds = false := by
  rcases h i with hi | hi <;> rw [hi] <;> rfl

/-- The owner of the lock makes a step that keeps it. -/
theorem State.Inv.own {p : Phase} {n' : ℕ} (h : s.Inv r n) (hl : s'.Locked r)
    (hphase : s'.phase i = p) (hp : p.holds = true)
    (hsame : s'.written = s.written ∧ s'.enabled = s.enabled ∧ s'.shutdown = s.shutdown)
    (hnn : n ≤ n') (hle : n' ≤ s.written.length)
    (hpos : s'.rptr % (4 * r.entries) = 4 * (n' % r.entries))
    (hring : Circular.Holds r.entries (fun j => s'.entryAt (4 * j)) (n' % r.entries)
      (s.written.drop n'))
    (hlog : ∀ (j : ℕ) (x : Handled), s'.log[j]? = some x →
      ∃ dw, s.written[j]? = some dw ∧ x.Of dw)
    (hat : s'.At r n' p) : s'.Inv r n' := by
  obtain ⟨hw, hen, hsh⟩ := hsame
  have hheld : (s'.phase i).holds = true := by rw [hphase, hp]
  refine ⟨hl, by rw [hen, hsh]; exact h.live, by rw [hw]; exact hle, ?_, hpos, by rw [hw]; exact hring,
    by rw [hw]; exact hlog, fun hfree => ?_, fun j => ?_, fun _ hset => ?_⟩
  · have := h.room
    rw [hw]
    omega
  · simp [hl.owner i hheld] at hfree
  · by_cases hj : (s'.phase j).holds = true
    · rw [hl.unique j i hj hheld, hphase]
      exact hat
    · exact State.at_of_not_holds (by simpa using hj)
  · simp [hset.not_holds i] at hheld

/-- An invocation without the lock makes a step that does not take it. -/
theorem State.Inv.move {p : Phase} (h : s.Inv r n) (hl : (s.setPhase i p).Locked r)
    (hp : p.holds = false)
    (hset : (s.setPhase i p).Running → (s.setPhase i p).Settled → n = s.written.length) :
    (s.setPhase i p).Inv r n := by
  refine ⟨hl, h.live, h.le, h.room, h.pos, h.ring, h.log, h.free, fun j => ?_, hset⟩
  by_cases hj : j = i
  · subst hj
    rw [State.setPhase_self]
    exact State.at_of_not_holds hp
  · rw [State.setPhase_of_ne hj]
    exact h.owner j

theorem State.not_settled {p : Phase} (hp : p ≠ .idle) (hp' : ∀ w, p ≠ .compare w) :
    ¬ (s.setPhase i p).Settled := by
  intro h
  have hi := h i
  rw [State.setPhase_self] at hi
  exact hi.elim hp (hp' _)

/-- The invocation that takes the lock has a write pointer in front of the read pointer. -/
theorem State.Inv.bound_of_fresh (h : s.Inv r n) (hfree : s.lock = false) {w : ℕ}
    (hw : ∃ t < r.entries, w = 4 * t)
    (hfresh : Cyclic.dist r.dwords s.rptr w ≤ Cyclic.dist r.dwords s.rptr (s.getWptr r)) :
    ∃ t, n ≤ t ∧ t ≤ s.written.length ∧ w = 4 * (t % r.entries) := by
  obtain ⟨t, ht, rfl⟩ := hw
  have hle := h.le
  rw [h.rptr_of_free hfree, s.getWptr_eq, r.dwords_eq, Cyclic.dist_mul, Cyclic.dist_mul,
    Cyclic.dist_mod hle h.room] at hfresh
  refine ⟨n + Cyclic.dist r.entries (n % r.entries) t, by omega, by omega, ?_⟩
  rw [Cyclic.add_dist_mod ht]

/-- Reading an entry under the lock: it is the next one, and the ring holds the rest. -/
theorem State.Inv.read (h : s.Inv r n) (hi : (s.phase i).reading = true) {w : ℕ}
    (hb : s.Bound r (n + 1) w) : ∃ dw, s.written[n]? = some dw ∧ s.entryAt s.rptr = dw ∧
      (s.rptr + 4) % (4 * r.entries) = 4 * ((n + 1) % r.entries) ∧ n < s.written.length := by
  obtain ⟨-, t, hnt, ht, -⟩ := hb
  have hn : n < s.written.length := by omega
  have hr : s.rptr = 4 * (n % r.entries) := h.rptr_of_owner (Phase.holds_of_reading hi)
    (by generalize s.phase i = q at hi; cases q <;> simp_all [Phase.reading, Phase.advanced])
  have hget : s.written[n]? = some (s.written[n]) := List.getElem?_eq_getElem hn
  refine ⟨_, hget, h.entryAt_rptr hr hget, ?_, hn⟩
  rw [hr, show 4 * (n % r.entries) + 4 = 4 * (n % r.entries + 1) by omega, Nat.mul_mod_mul_left,
    Nat.mod_add_mod]

/-- One more entry is handled. -/
theorem log_append {log : List Handled} {written : List Entry} {x : Handled} {dw : Entry}
    (h : ∀ (j : ℕ) (y : Handled), log[j]? = some y → ∃ dw, written[j]? = some dw ∧ y.Of dw)
    (hdw : written[log.length]? = some dw) (hx : x.Of dw) (j : ℕ) (y : Handled)
    (hj : (log ++ [x])[j]? = some y) : ∃ dw, written[j]? = some dw ∧ y.Of dw := by
  rcases Nat.lt_trichotomy j log.length with hlt | rfl | hgt
  · rw [List.getElem?_append_left hlt] at hj
    exact h j y hj
  · rw [List.getElem?_concat_length, Option.some.injEq] at hj
    exact ⟨dw, hdw, hj ▸ hx⟩
  · rw [List.getElem?_eq_none (by simp; omega)] at hj
    cases hj

theorem State.Inv.advance (h : s.Inv r n) {credit : Bool}
    (hg : Event.Fresh r s (.advance i credit)) (hs : s.advance r i credit = some s') :
    ∃ n', s'.Inv r n' := by
  have hl := h.locked.advance hs
  have hat := h.owner i
  unfold State.advance at hs
  cases hp : s.phase i with
  | idle => simp [hp] at hs
  | start =>
    simp only [hp, h.live.1, h.live.2, Bool.not_true, Bool.or_self, Bool.false_eq_true,
      if_false] at hs
    cases hs
    exact ⟨n, h.move hl rfl fun _ hset => absurd hset (State.not_settled (by simp) (by simp))⟩
  | restart w =>
    simp only [hp] at hs
    split at hs <;> cases hs
    case isTrue.refl hlock =>
      -- The owner of the lock is still under way.
      obtain ⟨j, hj⟩ := h.locked.held hlock
      have hji : j ≠ i := by
        rintro rfl
        simp [hp, Phase.holds] at hj
      refine ⟨n, h.move hl rfl fun _ hset => ?_⟩
      have := hset.not_holds j
      rw [State.setPhase_of_ne hji, hj] at this
      cases this
    case isFalse.refl hlock =>
      have hfree : s.lock = false := by simpa using hlock
      have hsample := h.locked.sample i w (by rw [hp]; rfl)
      exact ⟨n, h.own hl (State.setPhase_self s i (.test w)) rfl ⟨rfl, rfl, rfl⟩ le_rfl h.le h.pos
        h.ring h.log ⟨⟨rfl, h.bound_of_fresh hfree hsample (hg w hp hfree)⟩, (h.free hfree).1⟩⟩
  | test w =>
    have hr := h.rptr_of_owner (i := i) (by rw [hp]; rfl) (by rw [hp]; rfl)
    rw [hp] at hat
    obtain ⟨⟨hobs, t, hnt, ht, hw⟩, hlog⟩ := hat
    simp only [hp] at hs
    split at hs <;> cases hs
    case isTrue.refl hne =>
      have hlt : n ≠ t := by
        rintro rfl
        exact hne (hr.trans hw.symm)
      exact ⟨n, h.own hl (State.setPhase_self s i (.prescreen w)) rfl ⟨rfl, rfl, rfl⟩ le_rfl h.le
        h.pos h.ring h.log ⟨⟨hobs, t, by omega, ht, hw⟩, hlog⟩⟩
    case isFalse.refl heq =>
      exact ⟨n, h.own hl (State.setPhase_self s i (.setRptr w)) rfl ⟨rfl, rfl, rfl⟩ le_rfl h.le
        h.pos h.ring h.log ⟨hobs, (not_not.mp heq).symm, hlog⟩⟩
  | prescreen w =>
    rw [hp] at hat
    obtain ⟨hb, hlog⟩ := hat
    obtain ⟨dw, hdw, hentry, hpos, hn⟩ := h.read (i := i) (by rw [hp]; rfl) hb
    simp only [hp] at hs
    split at hs <;> cases hs
    · exact ⟨n, h.own hl (State.setPhase_self s i (.decode w)) rfl ⟨rfl, rfl, rfl⟩ le_rfl h.le
        h.pos h.ring h.log ⟨hb, hlog⟩⟩
    case isFalse.refl hdrop =>
      have hof : (Handled.dropped (s.entryAt s.rptr)).Of dw := by
        refine ⟨hentry, ?_⟩
        simp only [State.prescreened, Bool.or_eq_true, Bool.not_eq_true', beq_iff_eq, not_or,
          Bool.not_eq_false] at hdrop
        rw [← hentry]
        exact ⟨hdrop.1.1, hdrop.1.2⟩
      exact ⟨n + 1, h.own hl (State.setPhase_self s i (.skip w)) rfl ⟨rfl, rfl, rfl⟩
        (Nat.le_succ n) hn hpos (h.ring_pop hn) (log_append h.log (hlog ▸ hdw) hof)
        ⟨hb, by simp [hlog]⟩⟩
  | skip w =>
    rw [hp] at hat
    simp only [hp] at hs
    cases hs
    exact ⟨n, h.own hl (State.setPhase_self s i (.test w)) rfl ⟨rfl, rfl, rfl⟩ le_rfl h.le
      (by rw [r.wrap_eq, Nat.mod_mod, h.pos]) h.ring h.log hat⟩
  | decode w =>
    rw [hp] at hat
    obtain ⟨hb, hlog⟩ := hat
    obtain ⟨dw, hdw, hentry, hpos, hn⟩ := h.read (i := i) (by rw [hp]; rfl) hb
    simp only [hp] at hs
    cases hs
    exact ⟨n + 1, h.own hl (State.setPhase_self s i (.decoded w _)) rfl ⟨rfl, rfl, rfl⟩
      (Nat.le_succ n) hn hpos (h.ring_pop hn) h.log
      ⟨hb, by rw [← hlog]; rfl, dw, hlog ▸ hdw, by rw [hentry]⟩⟩
  | decoded w entry =>
    rw [hp] at hat
    simp only [hp] at hs
    cases hs
    exact ⟨n, h.own hl (State.setPhase_self s i (.dispatch w entry)) rfl ⟨rfl, rfl, rfl⟩ le_rfl
      h.le (by rw [r.wrap_eq, Nat.mod_mod, h.pos]) h.ring h.log hat⟩
  | dispatch w entry =>
    rw [hp] at hat
    obtain ⟨hb, hlog, dw, hdw, hentry⟩ := hat
    simp only [hp] at hs
    cases hs
    exact ⟨n, h.own hl (State.setPhase_self s i (.test w)) rfl ⟨rfl, rfl, rfl⟩ le_rfl h.le h.pos
      h.ring (log_append h.log hdw hentry) ⟨hb, by simpa using hlog⟩⟩
  | setRptr w =>
    rw [hp] at hat
    simp only [hp] at hs
    cases hs
    exact ⟨n, h.own hl (State.setPhase_self s i (.unlock w)) rfl ⟨rfl, rfl, rfl⟩ le_rfl h.le h.pos
      h.ring h.log hat⟩
  | unlock w =>
    rw [hp] at hat
    obtain ⟨hobs, hw, hlog⟩ := hat
    simp only [hp] at hs
    cases hs
    refine ⟨n, hl, h.live, h.le, h.room, h.pos, h.ring, h.log, fun _ => ⟨hlog, hobs.trans hw⟩,
      fun j => State.at_of_not_holds ?_, fun _ hset => ?_⟩
    · by_contra hj
      have := hl.owner j (by simpa using hj)
      cases this
    · exact absurd hset (State.not_settled (s := s) (p := .recheck) (by simp) (by simp))
  | recheck =>
    simp only [hp] at hs
    cases hs
    refine ⟨n, h.move hl rfl fun _ hset => ?_⟩
    -- All have read the write pointer for the last time, and this one just now.
    have hfree : s.lock = false := by
      by_contra hlock
      obtain ⟨j, hj⟩ := hl.held (by simpa [State.setPhase] using hlock)
      simp [hset.not_holds j] at hj
    have hi := hset i
    rw [State.setPhase_self] at hi
    rcases hi with hi | hi
    · cases hi
    · have heq : s.getWptr r = s.rptr := by simpa [State.setPhase] using hi
      rw [s.getWptr_eq, h.rptr_of_free hfree] at heq
      by_contra hne
      have := Cyclic.dist_mod h.le h.room
      rw [show s.written.length % r.entries = n % r.entries by omega,
        Cyclic.dist_self (Nat.mod_lt _ r.entries_pos)] at this
      have := h.le
      omega
  | compare w =>
    simp only [hp] at hs
    split at hs <;> cases hs
    · exact ⟨n, h.move hl rfl fun _ hset => absurd hset (State.not_settled (by simp) (by simp))⟩
    case isFalse.refl heq =>
      refine ⟨n, h.move hl rfl fun _ hset => ?_⟩
      refine h.settled ⟨i, by simp [hp]⟩ fun j => ?_
      by_cases hj : j = i
      · subst hj
        rw [hp, ← not_not.mp heq]
        exact .inr rfl
      · rw [← State.setPhase_of_ne (s := s) (p := .idle) hj]
        exact hset j

theorem State.Inv.step (h : s.Inv r n) (hg : e.Fresh r s) (hs : s.step r e = some s') :
    ∃ n', s'.Inv r n' := by
  cases e with
  | write dw =>
    simp only [State.step] at hs
    split at hs <;> cases hs
    case isTrue.refl hroom => exact ⟨n, h.write hg hroom⟩
  | call i =>
    have hl := h.locked.step hs
    simp only [State.step] at hs
    split at hs <;> cases hs
    exact ⟨n, h.move hl rfl fun _ hset => absurd hset (State.not_settled (by simp) (by simp))⟩
  | advance i credit => exact h.advance hg hs

theorem State.Inv.initial (h : s.Init) : s.Inv r 0 where
  locked := .initial h
  live := ⟨h.enabled, h.shutdown⟩
  le := Nat.zero_le _
  room := by simp [h.written, r.entries_pos]
  pos := by simp [h.rptr]
  ring := by simpa [h.written] using Circular.Holds.empty
  log j x hj := by simp [h.log] at hj
  free _ := by simp [h.log, h.observed, h.rptr]
  owner i := by
    rw [h.phase i]
    trivial
  settled := fun ⟨i, hi⟩ => absurd (h.phase i) hi

theorem forall₂_take {α β : Type*} {R : α → β → Prop} {l : List α} {m : List β}
    (h : ∀ (j : ℕ) (x : α), l[j]? = some x → ∃ y, m[j]? = some y ∧ R x y) :
    List.Forall₂ R l (m.take l.length) := by
  induction l generalizing m with
  | nil => simp
  | cons a l ih =>
    obtain ⟨b, hb, hab⟩ := h 0 a rfl
    cases m with
    | nil => cases hb
    | cons b' m =>
      cases hb
      exact .cons hab (ih fun j x hj => h (j + 1) x hj)

theorem State.Inv.inOrder (h : s.Inv r n) : s.InOrder r := by
  refine ⟨forall₂_take h.log, fun hfree => ?_⟩
  obtain ⟨hlog, hobs⟩ := h.free hfree
  rw [hobs, h.rptr_of_free hfree, hlog, r.wrap_mul]

/-- The last invocation returns from its last look at the write pointer. -/
theorem State.Inv.settled_of_last (h : s.Inv r n) (hs : s.step r e = some s') (hrun : s.Running)
    (hlast : ¬ s'.Running) : s.Settled ∧ s'.log = s.log ∧ s'.written = s.written := by
  have hidle : ∀ j, s'.phase j = .idle := fun j => by_contra fun hj => hlast ⟨j, hj⟩
  cases e with
  | write dw =>
    simp only [State.step] at hs
    split at hs <;> cases hs
    exact absurd hrun hlast
  | call i =>
    simp only [State.step] at hs
    split at hs <;> cases hs
    have := hidle i
    simp at this
  | advance i credit =>
    have hother : ∀ j, j ≠ i → s.phase j = .idle := fun j hj => by
      rw [← (State.advance_frame hs).1 j hj, hidle j]
    have hi := hidle i
    simp only [State.step] at hs
    unfold State.advance at hs
    cases hp : s.phase i <;> simp only [hp] at hs <;> (try split at hs) <;> cases hs <;>
      simp only [State.setPhase, Function.update_self, reduceCtorEq] at hi
    case start.isTrue.refl hoff => simp [h.live] at hoff
    case restart.isTrue.refl w hlock =>
      obtain ⟨j, hj⟩ := h.locked.held hlock
      by_cases hji : j = i
      · rw [hji, hp] at hj
        cases hj
      · rw [hother j hji] at hj
        cases hj
    case compare.isFalse.refl w heq =>
      refine ⟨fun j => ?_, rfl, rfl⟩
      by_cases hji : j = i
      · rw [hji, hp, not_not.mp heq]
        exact .inr rfl
      · exact .inl (hother j hji)

theorem State.Inv.drained (h : s.Inv r n) : s.Drained r := by
  intro e s' hs hrun hlast
  obtain ⟨hset, hlog, hw⟩ := h.settled_of_last hs hrun hlast
  have hfree : s.lock = false := by
    by_contra hlock
    obtain ⟨j, hj⟩ := h.locked.held (by simpa using hlock)
    simp [hset.not_holds j] at hj
  rw [hlog, hw, (h.free hfree).1, h.settled hrun hset]

/-- In every run in which invocations take the lock with a write pointer that still is in front of
the read pointer, and no entry comes too late to be seen, all entries are handled once and in
order. -/
theorem vectors_handled_once (h : State.Reachable r (fun s e => e.Fresh r s) s) :
    s.InOrder r ∧ s.LoopsEnd r ∧ (∀ e, ∀ x ∈ s.reads e, x < r.dwords) ∧ s.Drained r := by
  have hinv : ∃ n, s.Inv r n := by
    refine Transition.Reach.invariant (I := fun s => ∃ n, s.Inv r n) ?_ ?_ h
    · exact fun _ hi => ⟨0, .initial hi⟩
    · exact fun _ _ _ ⟨_, h⟩ hg hs => h.step hg hs
  obtain ⟨n, hinv⟩ := hinv
  exact ⟨hinv.inOrder, hinv.locked.loopsEnd, fun e x hx => hinv.locked.reads_lt hx, hinv.drained⟩

/-- The ring of `gsgpu_ih_sw_init`. -/
def ihRing : Ring where
  ringSize := 4 * 1024
  two_le := by decide
  lt := by decide

def reset : State where
  ring := fun _ => 0
  rptr := 0
  rptrReg := 0
  lock := false
  enabled := true
  shutdown := false
  phase := fun _ => .idle
  written := []
  log := []
  observed := 0

theorem reset_init : reset.Init := ⟨rfl, rfl, rfl, rfl, fun _ => rfl, rfl, rfl, rfl⟩

/-- A page fault of process 1. -/
def fault : Entry := fun k => if k.val = 0 then 0x92 else if k.val = 2 then 0x10000 else 0

/-- An invocation drops one fault, and the write pointer it looks at last shows another one. -/
theorem vectors_handled_once_again :
    ∃ s, State.Reachable ihRing (fun s e => e.Fresh ihRing s) s ∧ s.log.length = 1 ∧
      s.phase 0 = .restart 8 ∧ s.InOrder ihRing := by
  have hrun : ∃ s, State.Reachable ihRing (fun s e => e.Fresh ihRing s) s ∧ s.log.length = 1 ∧
      s.phase 0 = .restart 8 := by
    refine ⟨_, .next (e := .advance 0 true) (.next (e := .advance 0 true)
      (.next (e := .advance 0 true) (.next (e := .advance 0 true) (.next (e := .write fault)
      (.next (e := .advance 0 true) (.next (e := .advance 0 true) (.next (e := .advance 0 false)
      (.next (e := .advance 0 true) (.next (e := .advance 0 true) (.next (e := .advance 0 true)
      (.next (e := .call 0) (.next (e := .write fault) (.start reset_init) ?_ rfl)
      trivial rfl) nofun rfl) ?_ rfl) nofun rfl) nofun rfl) nofun rfl) nofun rfl) ?_ rfl)
      nofun rfl) nofun rfl) nofun rfl) nofun rfl, rfl, rfl⟩
    · exact fun ⟨_, hi⟩ => absurd rfl hi
    · intro w hw _
      cases hw
      decide
    · intro _ hset
      rcases hset 0 with hi | hi <;> cases hi
  obtain ⟨s, hs, hlog, hphase⟩ := hrun
  exact ⟨s, hs, hlog, hphase, (vectors_handled_once hs).1⟩

/-- An invocation reads the write pointer. Before it takes the lock, the hardware writes another
entry and a second invocation handles both; the first one then goes on behind them. -/
def overtaken : List Event :=
  [.write fault, .call 0, .advance 0 true, .write fault, .call 1] ++
    List.replicate 17 (.advance 1 true) ++ List.replicate 6 (.advance 0 true)

theorem vector_dispatched_unwritten :
    ¬ ∀ r s, State.Reachable r (fun _ _ => True) s →
      s.InOrder r ∧ s.LoopsEnd r ∧ (∀ e, ∀ x ∈ s.reads e, x < r.dwords) ∧ s.Drained r := by
  intro h
  have hrun : ∃ s, overtaken.foldlM (State.step ihRing) reset = some s ∧ s.written.length = 2 ∧
      s.log.length = 3 := ⟨_, rfl, rfl, rfl⟩
  obtain ⟨s, hs, hwritten, hlog⟩ := hrun
  have hreach : State.Reachable ihRing (fun _ _ => True) s :=
    Transition.Reach.foldlM (.start reset_init) (fun _ _ _ => trivial) hs
  have hlen := (h ihRing s hreach).1.1.length_eq
  rw [List.length_take, hwritten, hlog] at hlen
  cases hlen

end Gsgpu.Ih
