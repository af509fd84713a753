import Gsgpu.ParserBos.Call
import Gsgpu.Reserve.Held

/-! What a call has once it has returned, whatever the others did meanwhile. -/
namespace Gsgpu.Reserve

variable {w : Buffers} {st st' : State} {i : ℕ}

attribute [local simp] Phase.held Phase.checked Phase.ready Phase.offLru Phase.entries

namespace Holds

theorem reserve (h : Holds w st i) {ticket intr dups : Bool} {list : List ℕ}
    (hs : st.reserve i ticket intr dups list = some st') : Holds w st' i := by
  unfold State.reserve at hs
  split at hs
  · next hcond =>
    have howned : ∀ l, st.owner l ≠ some (.call i) := by
      intro l hl
      simpa [hcond.1] using (h.owned l).mp hl
    have hcalled : ∀ c : Call, c.phase.held = [] → c.phase.checked = [] → c.phase.ready = [] →
        c.phase.offLru = [] → c.dups = [] → (∀ v, c.phase.entries = some v → v = c.list) →
        (∀ s, c.ticket = some s → s = st.next) →
        ∀ next, (c.ticket ≠ none → st.next < next) →
          Holds w { st.setCall i c with next := next } i := by
      intro c hheld hchecked hready hoff hdups hlist hticket next hnext
      constructor <;> simp only [State.setCall, Function.update_self]
      case owned =>
        rw [hheld]
        simpa using howned
      case nodup =>
        rw [hheld]
        exact List.nodup_nil
      case slots =>
        rw [hready]
        simp
      case off =>
        rw [hoff]
        simp
      case writers =>
        rw [hchecked]
        simp
      case entries =>
        intro v hv
        simp [hdups, hlist v hv]
      case stamp =>
        intro s hs
        rw [hticket s hs]
        exact hnext (by simp [hs])
    split at hs
    · cases hs
      apply hcalled <;> simp
    · split at hs <;> cases hs <;> apply hcalled <;>
        simp
  · cases hs

theorem lock (h : Holds w st i) {signal : Bool} (hs : st.lock w i signal = some st') :
    Holds w st' i := by
  unfold State.lock at hs
  split at hs
  · next before e rest hphase =>
    obtain ⟨ret, hret, rfl⟩ := Option.map_eq_some_iff.mp hs
    cases ret with
    | none =>
      apply h.acquire (State.boReserve_none hret)
      case hready => simpa [hphase] using fun x hx => .inl hx
      all_goals simp [hphase]
    | some ret =>
      dsimp only
      split
      · next hcond =>
        rw [hcond.1] at hret
        have hmem := (h.owned _).mp (State.boReserve_already hret)
        rw [hphase] at hmem
        obtain ⟨owned, nodup, slots, off, writers, entries, stamp⟩ := h
        rw [hphase] at owned nodup slots off writers entries
        obtain ⟨hlist, hdups⟩ := entries _ rfl
        constructor <;> simp only [State.setCall, Function.update_self]
        case owned => exact owned
        case nodup => exact nodup
        case slots => exact slots
        case off => exact off
        case writers => exact writers
        case stamp => exact stamp
        case entries =>
          intro v hv
          cases hv
          have hmem' : w.lock e ∈ (before ++ rest).map w.lock := by
            rw [List.map_append]
            exact List.mem_append_left _ hmem
          constructor
          · have hmove : (before ++ rest ++ e :: (st.call i).dups).Perm
                (before ++ e :: rest ++ (st.call i).dups) := by
              simpa using List.perm_middle.append_left before
            exact hmove.trans hlist
          · intro d hd
            cases hd with
            | head => exact hmem'
            | tail _ hd =>
              have hold := hdups d hd
              simp only [List.map_append, List.map_cons, List.mem_append, List.mem_cons]
                at hold hmem' ⊢
              grind
      · have hret' : ret ≠ .nomem := fun heq => State.boReserve_ne_nomem (heq ▸ hret)
        apply h.keep
        all_goals simp [hphase, hret']
  · cases hs

/-- An entry at the end whose `cpu_writers` are known. -/
theorem mem_tail_append {P : ℕ → Prop} {before : List ℕ} {e : ℕ} (he : P e) :
    ∀ x ∈ (before ++ [e]).tail, x ∈ before.tail ∨ P x := by
  intro x hx
  cases before with
  | nil => cases hx
  | cons b before =>
    obtain hx | hx := List.mem_append.mp hx
    · exact .inl hx
    · exact .inr (by rwa [List.mem_singleton.mp hx])

theorem writersStep (h : Holds w st i) (hs : st.writers w i = some st') : Holds w st' i := by
  unfold State.writers at hs
  split at hs
  · next e before rest hphase =>
    split at hs
    · cases hs
      have hheld : (st.call i).phase.held.Perm (e :: before) := by
        simp [hphase, List.perm_append_singleton]
      apply h.release (p := .back .busy e before before rest) hheld
      case hst => simp [State.setOwner, Function.update_apply]
      case hnext => rfl
      all_goals simp [hphase]
    · next hzero =>
      have hzero' : st.cpuWriters (w.bo e) = 0 := by omega
      have htail : ∀ x ∈ (before ++ [e]).tail, x ∈ before.tail ∨ st.cpuWriters (w.bo x) = 0 :=
        mem_tail_append hzero'
      split at hs
      · cases hs
        apply h.keep
        case hchecked => simpa [hphase] using htail
        case hready => simpa [hphase] using fun x hx => .inl hx
        all_goals simp [hphase]
      · next hshared =>
        cases hs
        apply h.keep
        case hchecked => simpa [hphase] using htail
        case hready =>
          intro x hx
          rw [hphase]
          obtain hx | hx := List.mem_append.mp hx
          · exact .inl hx
          · exact .inr fun h => absurd (List.mem_singleton.mp hx ▸ h) hshared
        all_goals simp [hphase]
  · cases hs

theorem share (h : Holds w st i) {ok : Bool} (hs : st.share w i ok = some st') :
    Holds w st' i := by
  unfold State.share at hs
  split at hs
  · next e waited before rest hphase =>
    split at hs
    · cases hs
      have hslot : Function.update st.slot (w.lock e) true (w.lock e) = true :=
        Function.update_self ..
      have hperm : (e :: (before ++ rest)).Perm (before ++ e :: rest) := List.perm_middle.symm
      apply (h.reserveSlot (w.lock e)).keep
      all_goals cases waited
      case hready.true => simp [hphase]
      case hready.false =>
        intro x hx
        rw [hphase]
        obtain hx | hx := List.mem_append.mp hx
        · exact .inl hx
        · exact .inr fun _ => List.mem_singleton.mp hx ▸ hslot
      case hchecked.false => simpa [hphase] using fun x hx => .inl hx
      case hentries.true => simpa [hphase] using hperm
      all_goals simp [hphase]
    · split at hs
      · next hwaited =>
        cases hs
        apply h.keep
        all_goals simp [hphase, hwaited]
      · next hwaited =>
        cases hs
        apply h.keep
        all_goals simp [hphase, hwaited]
  · cases hs

theorem back (h : Holds w st i) (hs : st.back w i = some st') : Holds w st' i := by
  unfold State.back at hs
  split at hs
  · next ret e left before rest hphase =>
    split at hs
    · next x hx =>
      cases hs
      have hleft : left = left.dropLast ++ [x] := by
        obtain ⟨l, rfl⟩ := List.getLast?_eq_some_iff.mp hx
        simp
      have hperm : (st.call i).phase.held.Perm
          (x :: (Phase.back ret e left.dropLast before rest).held) := by
        have hmove : left.Perm (x :: left.dropLast) := by
          nth_rewrite 1 [hleft]
          exact List.perm_append_singleton x _
        simp only [hphase, Phase.held]
        split
        · exact hmove.append_right [e]
        · exact hmove
      apply h.release (p := .back ret e left.dropLast before rest) hperm
      case hst => simp [State.setOwner, Function.update_apply]
      case hnext => rfl
      all_goals simp [hphase]
    · next hnil =>
      have hempty := List.getLast?_eq_none_iff.mp hnil
      split at hs
      · next hret =>
        cases hs
        apply h.keep
        all_goals simp [hphase, hempty, hret]
      · cases hs
        apply h.keep
        all_goals simp [hphase, hempty]
  · cases hs

theorem slow (h : Holds w st i) {signal : Bool} (hs : st.slow w i signal = some st') :
    Holds w st' i := by
  unfold State.slow at hs
  split at hs
  · next e before rest hphase =>
    split at hs
    · next hfree =>
      cases hs
      have hperm : (e :: (before ++ rest)).Perm (before ++ e :: rest) := List.perm_middle.symm
      apply h.acquire (Option.isNone_iff_eq_none.mp hfree)
      all_goals split
      case hready.isFalse hshared =>
        intro x hx
        exact .inr fun h => absurd (List.mem_singleton.mp hx ▸ h) hshared
      case hentries.isFalse => simpa [hphase] using hperm
      all_goals simp [hphase]
    · split at hs <;> cases hs
      apply h.keep
      all_goals simp [hphase]
  · cases hs

theorem finish (h : Holds w st i) (hs : st.finish w i = some st') : Holds w st' i := by
  unfold State.finish at hs
  split at hs
  · next before hphase =>
    cases hs
    obtain ⟨owned, nodup, slots, off, writers, entries, stamp⟩ := h
    rw [hphase] at owned nodup slots off writers entries
    constructor <;> simp only [State.call_setPhase, State.owner_setPhase, State.slot_setPhase,
      State.lru_setPhase, State.cpuWriters_setPhase, State.next_setPhase]
    case owned => exact owned
    case nodup => exact nodup
    case slots => exact slots
    case writers => exact writers
    case stamp => exact stamp
    case off =>
      intro e he
      have hmem : w.bo e ∈ before.map w.bo := List.mem_map_of_mem he
      simp [hmem]
    case entries =>
      intro v hv
      cases hv
      exact entries before (by simp)
  · cases hs

theorem leave (h : Holds w st i) {fence : Bool} (hs : st.leave i fence = some st') :
    Holds w st' i := by
  unfold State.leave at hs
  split at hs
  · next list hphase =>
    cases hs
    apply h.keep
    all_goals simp [hphase]
    · exact fun e he => .inl he
    · exact fun e he => .inl he
  · cases hs

theorem unlock (h : Holds w st i) {noEvict : Bool} (hs : st.unlock w i noEvict = some st') :
    Holds w st' i := by
  unfold State.unlock at hs
  split at hs
  · next fence e todo hphase =>
    cases hs
    have hnodup := h.nodup
    have hslots := h.slots
    have hoff := h.off
    have hwriters := h.writers
    rw [hphase] at hnodup hslots hoff hwriters
    simp only [Phase.held, List.map_cons, List.nodup_cons] at hnodup
    have hne : ∀ x ∈ todo, w.lock x ≠ w.lock e := fun x hx heq =>
      hnodup.1 (heq ▸ List.mem_map_of_mem hx)
    have hbo : ∀ x ∈ todo, w.bo x ≠ w.bo e := fun x hx heq => hne x hx (congrArg w.resv heq)
    have hnext : ∀ st₁ : State, st₁.owner = st.owner → st₁.call = st.call → st₁.next = st.next →
        st₁.lru = st.lru → st₁.cpuWriters = st.cpuWriters →
        (∀ x ∈ todo, st₁.slot (w.lock x) = st.slot (w.lock x)) →
        Holds w (((st₁.addToLru (w.bo e) noEvict).setOwner (w.lock e) none).setPhase i
          (.release fence todo)) i := by
      intro st₁ howner hcall hnext hlru hcpu hslot
      apply h.release (e := e) (p := .release fence todo)
      case hheld => simp [hphase]
      case hst => simp [State.setOwner, Function.update_apply, howner]
      case hcall => simp [hcall]
      case hnext => simp [State.setOwner, hnext]
      case hslot =>
        intro x hx hshared
        simpa [State.setOwner, hslot x hx] using hslots x (List.mem_cons_of_mem e hx) hshared
      case hoff =>
        intro x hx
        simpa [State.setOwner, State.lru_addToLru _ _ _ (hbo x hx), hlru] using
          hoff x (List.mem_cons_of_mem e hx)
      case hchecked =>
        intro x hx
        simpa [State.setOwner, hcpu] using hwriters x (List.mem_of_mem_tail hx)
      case hentries => simp
    split
    · exact hnext _ rfl rfl rfl rfl rfl fun x hx => State.slot_addFence _ _ _ (hne x hx)
    · exact hnext _ rfl rfl rfl rfl rfl fun _ _ => rfl
  · next hphase =>
    cases hs
    apply h.keep
    all_goals simp [hphase]
  · cases hs

/-- A step of its own. -/
theorem step (h : Holds w st i) {ev : Event} (hmover : ev.mover = .call i)
    (hs : st.step w ev = some st') : Holds w st' i := by
  cases ev <;> cases hmover
  case reserve => exact h.reserve hs
  case lock => exact h.lock hs
  case writers => exact h.writersStep hs
  case share => exact h.share hs
  case back => exact h.back hs
  case slow => exact h.slow hs
  case finish => exact h.finish hs
  case leave => exact h.leave hs
  case unlock => exact h.unlock hs

end Holds

theorem start_holds (i : ℕ) : Holds w State.start i := by
  constructor <;> simp [State.start]

theorem Reached.holds (h : State.Reached w st) : ∀ i, Holds w st i := by
  induction h with
  | start hinit => exact hinit ▸ start_holds
  | @next st st' ev hr _ hstep ih =>
    intro i
    by_cases hmover : ev.mover = .call i
    · exact (ih i).step hmover hstep
    · exact (ih i).frame (State.step_frame ih hstep) hmover

/-- A call that returned 0 has the locks of its list, each once. Its list and its duplicates are the
entries it was called with, the lock of each duplicate is that of an entry of the list, and each
shared entry has a slot. The BOs are off their LRU lists, and no CPU writes to any but the first. -/
theorem reserved_exact (h : State.Reached w st) {v : List ℕ}
    (hi : (st.call i).phase = .reserved v) :
    (v ++ (st.call i).dups).Perm (st.call i).list ∧ (v.map w.lock).Nodup ∧
      (∀ d ∈ (st.call i).dups, w.lock d ∈ v.map w.lock) ∧
      (∀ l, st.owner l = some (.call i) ↔ l ∈ v.map w.lock) ∧
      (∀ e ∈ v, w.shared e → st.slot (w.lock e)) ∧ (∀ e ∈ v, st.lru (w.bo e) = false) ∧
      ∀ e ∈ v.tail, st.cpuWriters (w.bo e) = 0 := by
  obtain ⟨owned, nodup, slots, off, writers, entries, -⟩ := Reached.holds h i
  rw [hi] at owned nodup slots off writers entries
  obtain ⟨hlist, hdups⟩ := entries v rfl
  exact ⟨hlist, nodup, hdups, owned, slots, off, writers⟩

/-- What it returned with is what `gsgpu_cs_parser_bos` goes on with. -/
theorem parserBos_reserve (h : State.Reached w st) {v : List ℕ}
    (hi : (st.call i).phase = .reserved v) {c : ParserBos.Call} (hc : ∀ e, c.robj e = w.lock e)
    {s : ParserBos.State} (hs : s.phase = .reserve) (hlist : s.validated = (st.call i).list) :
    (c.reserve s v (st.call i).dups).isSome := by
  obtain ⟨-, hnodup, -, -, -, entries, -⟩ := Reached.holds h i
  rw [hi] at hnodup entries
  obtain ⟨hperm, hdups⟩ := entries v rfl
  have hrobj : c.robj = w.lock := funext hc
  unfold ParserBos.Call.reserve
  rw [hs, hlist, hrobj, if_pos ⟨List.isPerm_iff.mpr hperm, hnodup, hdups⟩]
  rfl

/-- A call that returned an error has no lock, unless it could not reserve a slot: then it has the
lock of that entry. -/
theorem failed_exact (h : State.Reached w st) {ret : Errno} {e : ℕ}
    (hi : (st.call i).phase = .failed ret e) (l : ℕ) :
    st.owner l = some (.call i) ↔ ret = .nomem ∧ l = w.lock e := by
  rw [(Reached.holds h i).owned, hi]
  by_cases hret : ret = .nomem <;> simp [hret]

/-- A call that has fenced its buffers or backed off has no lock. -/
theorem finished_exact (h : State.Reached w st) (hi : (st.call i).phase = .finished) (l : ℕ) :
    st.owner l ≠ some (.call i) := by
  intro hl
  simpa [hi] using ((Reached.holds h i).owned l).mp hl

/-- A run of the steps of a list. -/
theorem reached_of_run {α : Type} {es : List Event} {f : State → α} {a : α}
    (hrun : (es.foldlM (State.step w) State.start).map f = some a) :
    ∃ st, State.Reached w st ∧ f st = a := by
  obtain ⟨st, hfold, hst⟩ := Option.map_eq_some_iff.mp hrun
  have hstart : State.Reached w State.start := .start rfl
  exact ⟨st, hstart.foldlM (fun _ _ _ => trivial) hfold, hst⟩

/-- Ten BOs with reservation objects of their own, of which an entry has the one of its last
digit; every entry is shared. -/
def tenBuffers : Buffers := ⟨(· % 10), fun _ => true, id⟩

/-- Two calls with two BOs in opposite orders: the second, which has its first BO twice, backs off
for the first and waits. -/
def crossedRun : List Event :=
  [.reserve 0 true true true [0, 1], .reserve 1 true true true [11, 21, 10],
    .lock 0 false, .writers 0, .share 0 true, .lock 1 false, .writers 1, .share 1 true,
    .lock 1 false, .lock 1 false, .back 1, .back 1, .lock 0 false, .writers 0, .share 0 true,
    .finish 0, .leave 0 true, .unlock 0 false, .unlock 0 false, .unlock 0 false, .slow 1 false,
    .share 1 true, .lock 1 false, .writers 1, .share 1 true, .finish 1]

theorem reserved_exact_crossed : ∃ st, State.Reached tenBuffers st ∧
    (st.call 1).phase = .reserved [10, 11] ∧ (st.call 1).dups = [21] ∧
      ([10, 11] ++ (st.call 1).dups).Perm (st.call 1).list := by
  have hrun : (crossedRun.foldlM (State.step tenBuffers) State.start).map
      (fun st => ((st.call 1).phase, (st.call 1).dups)) = some (.reserved [10, 11], [21]) := by
    decide
  obtain ⟨st, hreach, hst⟩ := reached_of_run hrun
  obtain ⟨hphase, hdups⟩ := Prod.mk.inj hst
  exact ⟨st, hreach, hphase, hdups, (reserved_exact hreach hphase).1⟩

theorem failed_exact_nomem : ∃ st, State.Reached tenBuffers st ∧
    (st.call 0).phase = .failed .nomem 1 ∧ st.owner 1 = some (.call 0) := by
  have hrun : ([.reserve 0 true true true [0, 1], .lock 0 false, .writers 0, .share 0 true,
      .lock 0 false, .writers 0, .share 0 false, .back 0, .back 0].foldlM (State.step tenBuffers)
        State.start).map (fun st => (st.call 0).phase) = some (.failed .nomem 1) := by
    decide
  obtain ⟨st, hreach, hphase⟩ := reached_of_run hrun
  exact ⟨st, hreach, hphase, (failed_exact hreach hphase 1).mpr ⟨rfl, rfl⟩⟩

end Gsgpu.Reserve
