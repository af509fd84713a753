import Gsgpu.Ring.Buffer
import Gsgpu.Lib.Run
import Mathlib.Data.Nat.Prime.Basic
import Mathlib.Tactic.Set
import Mathlib.Tactic.ByContra

/-! How much of the ring is in flight. Nothing checks for free space at run time: that unread
commands are not overwritten rests on the size `gsgpu_ring_init` chooses for the number of
submissions the scheduler lets through. A submission counts from its reservation, as the
scheduler counts it. -/
namespace Gsgpu.CommandRing

open Cs (RingType)

/-- The ring and its reader. `unread` keeps the dwords the hardware has not read of the committed
submissions, oldest first, and `emitting` those written since the reservation; no function of the
source reads them. -/
structure Machine where
  ring : Ring
  /-- The write pointer register. -/
  hwWptr : ℕ
  rptr : ℕ
  unread : List (List ℕ)
  emitting : Option (List ℕ)

inductive Event
  | alloc (ndw : ℕ)
  | write (v : ℕ)
  | commit
  | undo
  /-- The hardware fetches a dword. -/
  | read

/-- The oldest submission loses a dword, and is gone with its last. -/
def fetch : List (List ℕ) → List (List ℕ)
  | [] => []
  | u :: us => if u.length ≤ 1 then us else u.tail :: us

namespace Machine

/-- An initialized ring. -/
def start (ring : Ring) : Machine := ⟨ring, 0, 0, [], none⟩

/-- The dwords between the read pointer and the write pointer. -/
def inFlight (m : Machine) : List ℕ := m.unread.flatten ++ m.emitting.getD []

/-- The state after an event; an event that cannot happen in the state changes nothing. -/
def step (m : Machine) : Event → Machine
  | .alloc ndw =>
    match m.emitting, m.ring.alloc ndw with
    | none, .ok ring => { m with ring := ring, emitting := some [] }
    | _, _ => m
  | .write v =>
    match m.emitting with
    | some words => { m with ring := m.ring.write v, emitting := some (words ++ [v]) }
    | none => m
  | .commit =>
    match m.emitting with
    | some words =>
      let submission := words ++ m.ring.nops
      { m with
        ring := m.ring.commit
        hwWptr := m.ring.commit.wptr % 2 ^ 32
        unread := if submission = [] then m.unread else m.unread ++ [submission]
        emitting := none }
    | none => m
  | .undo =>
    match m.emitting with
    | some _ => { m with ring := m.ring.undo, emitting := none }
    | none => m
  | .read =>
    -- equal pointers are an idle ring
    if m.rptr = m.hwWptr then m
    else { m with rptr := (m.rptr + 1) % 2 ^ 32 &&& m.ring.bufMask, unread := fetch m.unread }

/-- The runs considered: the scheduler starts a submission while fewer than the allowed number
are unread, and a submission stays within its reservation. -/
def Allowed (submissions : ℕ) (m : Machine) : Event → Prop
  | .alloc _ => m.unread.length < submissions
  | .write _ => 0 < m.ring.countDw
  | _ => True

def Reachable (ring : Ring) (submissions : ℕ) (m : Machine) : Prop :=
  Transition.Reach (fun m => m = start ring) (fun m e m' => m.step e = m') (Allowed submissions) m

/-- Less than a ring of dwords is in flight, each is still where it was written, and the pointers
meet only when nothing is left to read. -/
structure Safe (m : Machine) : Prop where
  distance : m.inFlight.length < m.ring.ringSize / 4
  intact : Circular.Holds (m.ring.ringSize / 4) m.ring.ring m.rptr m.inFlight
  idle : m.ring.wptr &&& m.ring.bufMask = m.rptr &&& m.ring.bufMask → m.unread = []
  hwIdle : m.hwWptr &&& m.ring.bufMask = m.rptr &&& m.ring.bufMask → m.unread = []

/-- A ring of `2 ^ k` dwords that takes up to `submissions` submissions of up to `most` dwords. -/
structure Fits (k submissions most : ℕ) : Prop where
  pos : 0 < submissions
  aligned : 16 ∣ most
  lt : submissions * most < 2 ^ k

/-- What the states of such a ring have. -/
structure Inv (k submissions most : ℕ) (m : Machine) : Prop where
  sized : m.ring.Sized k
  maxDw : m.ring.maxDw / 16 * 16 = most
  rptr : m.rptr < 2 ^ k
  wptr : m.ring.wptr = (m.rptr + m.inFlight.length) % 2 ^ k
  hwWptr : m.hwWptr = (m.rptr + m.unread.flatten.length) % 2 ^ k
  aligned : 16 ∣ m.hwWptr
  unread : ∀ u ∈ m.unread, 0 < u.length ∧ u.length ≤ most
  count : m.unread.length ≤ submissions
  /-- What is written of a submission, and what is left of its reservation of `n` dwords. -/
  emitting : ∀ words, m.emitting = some words → m.unread.length < submissions ∧
    m.ring.wptrOld = m.hwWptr ∧
    ∃ n ≤ most, 16 ∣ n ∧ words.length ≤ n ∧ m.ring.countDw ≤ (n : ℤ) - words.length
  intact : Circular.Holds (2 ^ k) m.ring.ring m.rptr m.inFlight

variable {k submissions most : ℕ} {m : Machine}

theorem inFlight_none (h : m.emitting = none) : m.inFlight = m.unread.flatten := by
  simp [inFlight, h]

theorem inFlight_some {words : List ℕ} (h : m.emitting = some words) :
    m.inFlight = m.unread.flatten ++ words := by
  simp [inFlight, h]

private theorem length_flatten_le {us : List (List ℕ)} (h : ∀ u ∈ us, u.length ≤ most) :
    us.flatten.length ≤ us.length * most := by
  induction us with
  | nil => simp
  | cons u us ih =>
    have hu := h u List.mem_cons_self
    have hus := ih fun v hv => h v (List.mem_cons_of_mem u hv)
    rw [List.flatten_cons, List.length_append, List.length_cons, Nat.succ_mul]
    omega

/-- Committed submissions leave room for those the scheduler may still start. -/
theorem Inv.unread_le (h : m.Inv k submissions most) :
    m.unread.flatten.length ≤ m.unread.length * most :=
  length_flatten_le fun u hu => (h.unread u hu).2

theorem Inv.emitting_le (h : m.Inv k submissions most) {words : List ℕ}
    (he : m.emitting = some words) {n : ℕ} (hn : n ≤ most) :
    m.unread.flatten.length + n ≤ submissions * most := by
  have hlt := (h.emitting words he).1
  have hle := h.unread_le
  have hmul : (m.unread.length + 1) * most ≤ submissions * most := Nat.mul_le_mul_right _ hlt
  rw [Nat.succ_mul] at hmul
  omega

theorem Inv.inFlight_le (h : m.Inv k submissions most) :
    m.inFlight.length ≤ submissions * most := by
  cases he : m.emitting with
  | none =>
    rw [inFlight_none he]
    exact le_trans h.unread_le (Nat.mul_le_mul_right _ h.count)
  | some words =>
    obtain ⟨-, -, n, hn, -, hlen, -⟩ := h.emitting words he
    have := h.emitting_le he hn
    rw [inFlight_some he, List.length_append]
    omega

theorem Inv.safe (h : m.Inv k submissions most) (hf : Fits k submissions most) : m.Safe := by
  have hsize : m.ring.ringSize / 4 = 2 ^ k := by
    rw [h.sized.ringSize]
    omega
  have hlt : m.inFlight.length < 2 ^ k := lt_of_le_of_lt h.inFlight_le hf.lt
  -- equal pointers leave an offset of zero, since it is below the ring size
  have hidle : ∀ n, n < 2 ^ k →
      (m.rptr + n) % 2 ^ k &&& m.ring.bufMask = m.rptr &&& m.ring.bufMask → n = 0 := by
    intro n hn heq
    rw [h.sized.bufMask, Nat.and_two_pow_sub_one_eq_mod, Nat.and_two_pow_sub_one_eq_mod,
      Nat.mod_mod] at heq
    by_contra hne
    have hdiff : (m.rptr + 0) % 2 ^ k ≠ (m.rptr + n) % 2 ^ k :=
      Circular.index_ne (Nat.pos_of_ne_zero hne) (by omega)
    exact hdiff heq.symm
  -- no unread submission is empty
  have hempty : m.unread.flatten = [] → m.unread = [] := by
    intro hnil
    rw [List.eq_nil_iff_forall_not_mem]
    intro u hu
    have := (h.unread u hu).1
    rw [List.flatten_eq_nil_iff.mp hnil u hu] at this
    simp at this
  refine ⟨hsize ▸ hlt, hsize ▸ h.intact, fun heq => ?_, fun heq => ?_⟩
  · rw [h.wptr] at heq
    have hzero := List.length_eq_zero_iff.mp (hidle _ hlt heq)
    exact hempty (List.append_eq_nil_iff.mp hzero).1
  · rw [h.hwWptr] at heq
    have hle : m.unread.flatten.length ≤ m.inFlight.length := by simp [inFlight]
    exact hempty (List.length_eq_zero_iff.mp (hidle _ (by omega) heq))

/-- A granted reservation. -/
theorem step_alloc (he : m.emitting = none) {ndw : ℕ} (hle : Ring.reserved ndw ≤ m.ring.maxDw) :
    m.step (.alloc ndw) = { m with
      ring := { m.ring with countDw := toInt (Ring.reserved ndw), wptrOld := m.ring.wptr }
      emitting := some [] } := by
  simp only [step, he, Ring.alloc_eq, if_neg (not_lt.mpr hle)]

theorem step_alloc_refused {ndw : ℕ} (hlt : m.ring.maxDw < Ring.reserved ndw) :
    m.step (.alloc ndw) = m := by
  simp only [step, Ring.alloc_eq, if_pos hlt]
  split <;> simp_all

theorem step_write {words : List ℕ} (he : m.emitting = some words) (v : ℕ) :
    m.step (.write v) = { m with ring := m.ring.emit [v], emitting := some (words ++ [v]) } := by
  simp only [step, he]
  rfl

theorem step_commit {words : List ℕ} (he : m.emitting = some words) :
    m.step .commit = { m with
      ring := m.ring.emit m.ring.nops
      hwWptr := (m.ring.emit m.ring.nops).wptr % 2 ^ 32
      unread := if words ++ m.ring.nops = [] then m.unread else m.unread ++ [words ++ m.ring.nops]
      emitting := none } := by
  simp only [step, he, Ring.commit_eq]

theorem step_undo {words : List ℕ} (he : m.emitting = some words) :
    m.step .undo = { m with ring := { m.ring with wptr := m.ring.wptrOld }, emitting := none } := by
  simp only [step, he, Ring.undo]

theorem Inv.alloc (h : m.Inv k submissions most) (hlt : m.unread.length < submissions) (ndw : ℕ) :
    (m.step (.alloc ndw)).Inv k submissions most := by
  rcases Nat.lt_or_ge m.ring.maxDw (Ring.reserved ndw) with hrefused | hle
  · rwa [step_alloc_refused hrefused]
  · cases he : m.emitting with
    | some words => simpa only [step, he] using h
    | none =>
      have hin := inFlight_none he
      have hw : m.ring.wptr = m.hwWptr := by rw [h.wptr, h.hwWptr, hin]
      have hdvd : 16 ∣ Ring.reserved ndw := Nat.dvd_mul_left 16 _
      have hmost : Ring.reserved ndw ≤ most := by
        have := h.maxDw
        omega
      have hint : toInt (Ring.reserved ndw) ≤ (Ring.reserved ndw : ℤ) := by
        unfold toInt
        split <;> omega
      have hin' : ∀ ring, inFlight { m with ring := ring, emitting := some [] } = m.inFlight := by
        intro ring
        rw [hin, inFlight_some rfl, List.append_nil]
      rw [step_alloc he hle]
      refine ⟨⟨h.sized.bufMask, h.sized.ptrMask, h.sized.ringSize, h.sized.le⟩, h.maxDw, h.rptr,
        ?_, h.hwWptr, h.aligned, h.unread, h.count, ?_, ?_⟩
      · rw [hin']
        exact h.wptr
      · intro words hwords
        obtain rfl := Option.some.inj hwords
        exact ⟨hlt, hw, _, hmost, hdvd, Nat.zero_le _, by simpa using hint⟩
      · rw [hin']
        exact h.intact

theorem Inv.write (h : m.Inv k submissions most) (hf : Fits k submissions most)
    (hcount : 0 < m.ring.countDw) (v : ℕ) : (m.step (.write v)).Inv k submissions most := by
  cases he : m.emitting with
  | none => simpa only [step, he] using h
  | some words =>
    obtain ⟨hlt, hold, n, hn, hdvd, hlen, hleft⟩ := h.emitting words he
    have hroom := h.emitting_le he hn
    have hfit := hf.lt
    have hin := inFlight_some he
    have hinlen : m.inFlight.length = m.unread.flatten.length + words.length := by
      rw [hin, List.length_append]
    have hin' : ∀ ring, inFlight { m with ring := ring, emitting := some (words ++ [v]) } =
        m.inFlight ++ [v] := by
      intro ring
      rw [hin, inFlight_some rfl, List.append_assoc]
    have hwlt : m.ring.wptr < 2 ^ k := h.wptr ▸ Nat.mod_lt _ (Nat.two_pow_pos k)
    rw [step_write he]
    refine ⟨h.sized.emit [v], ?_, h.rptr, ?_, h.hwWptr, h.aligned, h.unread, h.count, ?_, ?_⟩
    · simpa using h.maxDw
    · rw [hin', h.sized.emit_wptr hwlt, h.wptr, Nat.mod_add_mod, List.length_append, Nat.add_assoc]
    · intro words' hwords
      obtain rfl := Option.some.inj hwords
      refine ⟨hlt, by simpa using hold, n, hn, hdvd, ?_, ?_⟩
      · rw [List.length_append, List.length_singleton]
        omega
      · rw [Ring.emit_countDw, List.length_append, List.length_singleton]
        omega
    · rw [hin']
      exact h.sized.emit_holds h.wptr h.intact [v] (by rw [hinlen, List.length_singleton]; omega)

theorem Inv.undo (h : m.Inv k submissions most) : (m.step .undo).Inv k submissions most := by
  cases he : m.emitting with
  | none => simpa only [step, he] using h
  | some words =>
    obtain ⟨-, hold, -⟩ := h.emitting words he
    have hin' : ∀ ring, inFlight { m with ring := ring, emitting := none } = m.unread.flatten :=
      fun ring => inFlight_none rfl
    rw [step_undo he]
    refine ⟨⟨h.sized.bufMask, h.sized.ptrMask, h.sized.ringSize, h.sized.le⟩, h.maxDw, h.rptr,
      ?_, h.hwWptr, h.aligned, h.unread, h.count, ?_, ?_⟩
    · rw [hin', ← h.hwWptr]
      exact hold
    · intro words' hwords
      cases hwords
    · rw [hin']
      exact (inFlight_some he ▸ h.intact).left

/-- The padded submission fits its reservation and ends on a multiple of 16. -/
theorem Inv.padded (h : m.Inv k submissions most) (hf : Fits k submissions most)
    {words : List ℕ} (he : m.emitting = some words) :
    (words ++ m.ring.nops).length ≤ most ∧
      16 ∣ m.hwWptr + (words ++ m.ring.nops).length := by
  obtain ⟨-, -, n, hn, hdvd, hlen, -⟩ := h.emitting words he
  have hbase : m.hwWptr < 2 ^ k := h.hwWptr ▸ Nat.mod_lt _ (Nat.two_pow_pos k)
  have hwptr : m.ring.wptr = (m.hwWptr + words.length) % 2 ^ k := by
    rw [h.wptr, h.hwWptr, Nat.mod_add_mod, inFlight_some he, List.length_append, Nat.add_assoc]
  -- a ring of less than 16 dwords has room for nothing
  have hring : 16 ∣ 2 ^ k ∨ words.length = 0 ∧ m.hwWptr < 2 ^ k := by
    have hpos := hf.pos
    have hfit := hf.lt
    rcases Nat.lt_or_ge k 4 with hk | hk
    · right
      have hk16 : 2 ^ k < 2 ^ 4 := Nat.pow_lt_pow_right (by omega) hk
      have hle : most ≤ submissions * most := Nat.le_mul_of_pos_left most hpos
      have hal := hf.aligned
      exact ⟨by omega, hbase⟩
    · exact .inl (Nat.pow_dvd_pow 2 hk)
  have hpad := Ring.padding_le hwptr h.aligned hring hdvd hlen
  simp only [List.length_append, Ring.nops, List.length_replicate]
  exact ⟨by omega, by rw [← Nat.add_assoc]; exact hpad.2⟩

/-- Multiples of 16 stay so around the ring. -/
private theorem dvd_mod_two_pow {n : ℕ} (k : ℕ) (h : 16 ∣ n) : 16 ∣ n % 2 ^ k := by
  rcases Nat.lt_or_ge k 4 with hk | hk
  · have hdvd : 2 ^ k ∣ 16 := Nat.pow_dvd_pow 2 (show k ≤ 4 by omega)
    rw [Nat.mod_eq_zero_of_dvd (Nat.dvd_trans hdvd h)]
    exact Nat.dvd_zero 16
  · exact (Nat.dvd_mod_iff (Nat.pow_dvd_pow 2 hk)).mpr h

theorem Inv.commit (h : m.Inv k submissions most) (hf : Fits k submissions most) :
    (m.step .commit).Inv k submissions most := by
  cases he : m.emitting with
  | none => simpa only [step, he] using h
  | some words =>
    obtain ⟨hlt, -⟩ := h.emitting words he
    obtain ⟨hmost, hdvd⟩ := h.padded hf he
    have hroom := h.emitting_le he hmost
    have hfit := hf.lt
    have hwlt : m.ring.wptr < 2 ^ k := h.wptr ▸ Nat.mod_lt _ (Nat.two_pow_pos k)
    set submission := words ++ m.ring.nops with hsub
    have hqueue : m.inFlight ++ m.ring.nops = m.unread.flatten ++ submission := by
      rw [inFlight_some he, hsub, List.append_assoc]
    have hwptr : (m.ring.emit m.ring.nops).wptr =
        (m.rptr + (m.unread.flatten ++ submission).length) % 2 ^ k := by
      rw [h.sized.emit_wptr hwlt, h.wptr, Nat.mod_add_mod, Nat.add_assoc, ← List.length_append,
        hqueue]
    have hlt32 : (m.ring.emit m.ring.nops).wptr < 2 ^ 32 := by
      rw [hwptr]
      exact lt_of_lt_of_le (Nat.mod_lt _ (Nat.two_pow_pos k))
        (Nat.pow_le_pow_right (by omega) (le_trans h.sized.le (by omega)))
    have haligned : 16 ∣ (m.ring.emit m.ring.nops).wptr := by
      have hbase : (m.hwWptr + submission.length) % 2 ^ k = (m.ring.emit m.ring.nops).wptr := by
        rw [hwptr, h.hwWptr, Nat.mod_add_mod, Nat.add_assoc, ← List.length_append]
      rw [← hbase]
      exact dvd_mod_two_pow k hdvd
    have hflatten : (if submission = [] then m.unread else m.unread ++ [submission]).flatten =
        m.unread.flatten ++ submission := by
      split
      · next hnil => rw [hnil, List.append_nil]
      · rw [List.flatten_append, List.flatten_singleton]
    rw [step_commit he]
    refine ⟨h.sized.emit _, ?_, h.rptr, ?_, ?_, ?_, ?_, ?_, ?_, ?_⟩
    · simpa using h.maxDw
    · rw [inFlight_none rfl, hflatten]
      exact hwptr
    · rw [Nat.mod_eq_of_lt hlt32, hflatten]
      exact hwptr
    · rw [Nat.mod_eq_of_lt hlt32]
      exact haligned
    · intro u hu
      split at hu
      · exact h.unread u hu
      · next hne =>
        rcases List.mem_append.mp hu with hmem | hmem
        · exact h.unread u hmem
        · rw [List.mem_singleton.mp hmem]
          exact ⟨List.length_pos_iff.mpr hne, hmost⟩
    · simp only
      split
      · exact h.count
      · simpa using hlt
    · intro words' hwords
      cases hwords
    · rw [inFlight_none rfl, hflatten, ← hqueue]
      refine h.sized.emit_holds h.wptr h.intact _ ?_
      rw [← List.length_append, hqueue, List.length_append]
      omega

/-- A fetch takes the first unread dword. -/
private theorem fetch_flatten {w : ℕ} {u : List ℕ} {us : List (List ℕ)} :
    (fetch ((w :: u) :: us)).flatten = u ++ us.flatten := by
  simp only [fetch, List.length_cons]
  split
  · next hle =>
    have hnil : u = [] := List.length_eq_zero_iff.mp (by omega)
    rw [hnil, List.nil_append]
  · rw [List.tail_cons, List.flatten_cons]

theorem Inv.read (h : m.Inv k submissions most) : (m.step .read).Inv k submissions most := by
  by_cases hidle : m.rptr = m.hwWptr
  · simpa only [step, hidle, if_true] using h
  -- the pointers differ, so something is unread
  obtain ⟨w, u, us, hunread⟩ : ∃ w u us, m.unread = (w :: u) :: us := by
    cases hcases : m.unread with
    | nil =>
      have := h.hwWptr
      rw [hcases, List.flatten_nil, List.length_nil, Nat.add_zero, Nat.mod_eq_of_lt h.rptr] at this
      exact absurd this.symm hidle
    | cons u us =>
      cases u with
      | nil => simpa using (h.unread [] (by rw [hcases]; exact List.mem_cons_self)).1
      | cons w u => exact ⟨w, u, us, rfl⟩
  have hrptr : (m.rptr + 1) % 2 ^ 32 &&& m.ring.bufMask = (m.rptr + 1) % 2 ^ k := by
    rw [h.sized.bufMask, Nat.and_two_pow_sub_one_eq_mod,
      Nat.mod_mod_of_dvd _ (Nat.pow_dvd_pow 2 (le_trans h.sized.le (by omega)))]
  have hflat : m.unread.flatten = w :: (fetch m.unread).flatten := by
    rw [hunread, fetch_flatten, List.flatten_cons, List.cons_append]
  have hin : m.inFlight = w :: ((fetch m.unread).flatten ++ m.emitting.getD []) := by
    rw [inFlight, hflat, List.cons_append]
  have hlen : (fetch m.unread).length ≤ m.unread.length := by
    rw [hunread, fetch]
    split <;> simp
  have hturn : ∀ n, ((m.rptr + 1) % 2 ^ k + n) % 2 ^ k = (m.rptr + (n + 1)) % 2 ^ k := by
    intro n
    rw [Nat.mod_add_mod, Nat.add_assoc, Nat.add_comm 1]
  simp only [step, if_neg hidle, hrptr]
  refine ⟨h.sized, h.maxDw, Nat.mod_lt _ (Nat.two_pow_pos k), ?_, ?_, h.aligned, ?_,
    le_trans hlen h.count, ?_, ?_⟩
  · rw [h.wptr, hin, List.length_cons, inFlight, hturn]
  · rw [h.hwWptr, hflat, List.length_cons, hturn]
  · intro v hv
    simp only [hunread, fetch] at hv
    split at hv
    · exact h.unread v (by rw [hunread]; exact List.mem_cons_of_mem _ hv)
    · next hlong =>
      rcases List.mem_cons.mp hv with htail | hmem
      · have hle := (h.unread (w :: u) (by rw [hunread]; exact List.mem_cons_self)).2
        rw [htail, List.tail_cons]
        rw [List.length_cons] at hle hlong
        omega
      · exact h.unread v (by rw [hunread]; exact List.mem_cons_of_mem _ hmem)
  · intro words hwords
    obtain ⟨hlt, hrest⟩ := h.emitting words hwords
    exact ⟨lt_of_le_of_lt hlen hlt, hrest⟩
  · exact (hin ▸ h.intact).pop

theorem Inv.step (h : m.Inv k submissions most) (hf : Fits k submissions most) (e : Event)
    (he : m.Allowed submissions e) : (m.step e).Inv k submissions most := by
  cases e with
  | alloc ndw => exact h.alloc he ndw
  | write v => exact h.write hf he v
  | commit => exact h.commit hf
  | undo => exact h.undo
  | read => exact h.read

variable {ring : Ring}

theorem inv_start (hs : ring.Sized k) (hw : ring.wptr = 0) (hmost : ring.maxDw / 16 * 16 = most) :
    (start ring).Inv k submissions most where
  sized := hs
  maxDw := hmost
  rptr := Nat.two_pow_pos k
  wptr := by simp [start, hw, inFlight]
  hwWptr := by simp [start]
  aligned := Nat.dvd_zero 16
  unread u hu := by simp [start] at hu
  count := Nat.zero_le _
  emitting words hwords := by simp [start] at hwords
  intact := Circular.Holds.empty

theorem Reachable.inv (h : m.Reachable ring submissions) (hs : ring.Sized k) (hw : ring.wptr = 0)
    (hf : Fits k submissions (ring.maxDw / 16 * 16)) :
    m.Inv k submissions (ring.maxDw / 16 * 16) :=
  Transition.Reach.invariant (fun _ hm => hm ▸ inv_start hs hw rfl)
    (fun _ e _ hinv hg heq => heq ▸ hinv.step hf e hg) h

theorem Reachable.next (h : m.Reachable ring submissions) {e : Event}
    (he : m.Allowed submissions e) : (m.step e).Reachable ring submissions :=
  Transition.Reach.next h he rfl

/-- A reserved submission can be written to the end of its reservation. -/
theorem Reachable.emit {written : List ℕ} (h : m.Reachable ring submissions)
    (he : m.emitting = some written) (words : List ℕ)
    (hcount : (words.length : ℤ) ≤ m.ring.countDw) :
    Reachable ring submissions
      { m with ring := m.ring.emit words, emitting := some (written ++ words) } := by
  induction words generalizing m written with
  | nil =>
    have hm : { m with ring := m.ring.emit [], emitting := some (written ++ []) } = m := by
      simp [Ring.emit, ← he]
    rwa [hm]
  | cons v words ih =>
    rw [List.length_cons] at hcount
    have hnext := h.next (e := .write v) (show 0 < m.ring.countDw by omega)
    rw [step_write he] at hnext
    have hcount' : (words.length : ℤ) ≤ (m.ring.emit [v]).countDw := by
      rw [Ring.emit_countDw, List.length_singleton]
      omega
    have := ih hnext rfl hcount'
    rwa [List.append_assoc] at this

/-- One more submission of `n` dwords, all of its reservation. -/
theorem Reachable.submit {n : ℕ} (h : m.Reachable ring submissions) (he : m.emitting = none)
    (hlt : m.unread.length < submissions) (hs : m.ring.Sized k) (hw : m.ring.wptr < 2 ^ k)
    (hdvd : 16 ∣ n) (hpos : 0 < n) (hmax : n ≤ m.ring.maxDw) (hint : n < 2 ^ 31)
    (halign : 16 ∣ (m.ring.wptr + n) % 2 ^ k) :
    ∃ m' : Machine, m'.Reachable ring submissions ∧ m'.emitting = none ∧
      m'.unread.length = m.unread.length + 1 ∧
      m'.unread.flatten.length = m.unread.flatten.length + n ∧ m'.ring.Sized k ∧
      m'.ring.maxDw = m.ring.maxDw ∧ m'.ring.wptr = (m.ring.wptr + n) % 2 ^ k ∧
      m'.rptr = m.rptr := by
  have hres : Ring.reserved n = n := by
    unfold Ring.reserved
    omega
  have halloc := h.next (e := .alloc n) hlt
  rw [step_alloc he (by rw [hres]; exact hmax), hres] at halloc
  have hcount : toInt n = n := if_pos hint
  have hemit := halloc.emit rfl (List.replicate n 0) (by simp [hcount])
  set ring₁ : Ring := { m.ring with countDw := toInt n, wptrOld := m.ring.wptr }
  have hs₁ : ring₁.Sized k := ⟨hs.bufMask, hs.ptrMask, hs.ringSize, hs.le⟩
  have hwptr : (ring₁.emit (List.replicate n 0)).wptr = (m.ring.wptr + n) % 2 ^ k := by
    rw [hs₁.emit_wptr hw, List.length_replicate]
  have hnops : (ring₁.emit (List.replicate n 0)).nops = [] := by
    rw [Ring.nops, Ring.padding_eq, hwptr, Nat.mod_eq_zero_of_dvd halign]
    rfl
  have hne : List.replicate n 0 ≠ [] := by
    rw [ne_eq, List.replicate_eq_nil_iff]
    omega
  have hcommit := hemit.next (e := .commit) trivial
  rw [step_commit rfl] at hcommit
  simp only [hnops, List.nil_append, List.append_nil, if_neg hne] at hcommit
  refine ⟨_, hcommit, rfl, by simp, by simp, (hs₁.emit _).emit [], by simp [ring₁], ?_, rfl⟩
  rw [(hs₁.emit _).emit_wptr (by rw [hwptr]; exact Nat.mod_lt _ (Nat.two_pow_pos k)), hwptr,
    List.length_nil, Nat.add_zero, Nat.mod_mod]

/-- Submissions of `n` dwords that the hardware does not read. -/
theorem exists_unread {n : ℕ} (hs : ring.Sized k) (hw : ring.wptr = 0) (hdvd : 16 ∣ n)
    (hpos : 0 < n) (hmax : n ≤ ring.maxDw) (hint : n < 2 ^ 31) (j : ℕ) (hj : j ≤ submissions) :
    ∃ m : Machine, m.Reachable ring submissions ∧ m.emitting = none ∧ m.unread.length = j ∧
      m.unread.flatten.length = j * n ∧ m.ring.Sized k ∧ m.ring.maxDw = ring.maxDw ∧
      m.ring.wptr = j * n % 2 ^ k ∧ m.rptr = 0 := by
  induction j with
  | zero =>
    exact ⟨start ring, .start rfl, rfl, rfl, by simp [start], hs, rfl, by simp [start, hw], rfl⟩
  | succ j ih =>
    obtain ⟨m, hm, he, hlen, hflat, hsm, hmaxm, hwm, hr⟩ := ih (by omega)
    have hsum : (m.ring.wptr + n) % 2 ^ k = (j + 1) * n % 2 ^ k := by
      rw [hwm, Nat.mod_add_mod, Nat.succ_mul]
    obtain ⟨m', hm', he', hlen', hflat', hsm', hmaxm', hwm', hr'⟩ :=
      hm.submit he (by omega) hsm (by rw [hwm]; exact Nat.mod_lt _ (Nat.two_pow_pos k)) hdvd hpos
        (by omega) hint (by
          rw [hsum]
          exact dvd_mod_two_pow k (Nat.dvd_trans hdvd (Nat.dvd_mul_left n _)))
    refine ⟨m', hm', he', by omega, ?_, hsm', by omega, by rw [hwm', hsum], by omega⟩
    rw [hflat', hflat, Nat.succ_mul]

end Machine

/-- The arguments for which the ring size exceeds what can be in flight: no submission at all, or
a product that neither overflows nor already is a power of two. -/
def Roomy (maxDw submissions : ℕ) : Prop :=
  maxDw < 16 ∨ maxDw * 4 * submissions < 2 ^ 32 ∧ ¬∃ e, maxDw = 2 ^ e

section Size

variable {maxDw j k : ℕ}

/-- With room, the largest submissions do not fill the ring. -/
private theorem Roomy.lt (h : Roomy maxDw (2 ^ j))
    (hclog : Nat.clog 2 (maxDw * 4 * 2 ^ j % 2 ^ 32) = k + 2) :
    2 ^ j * (maxDw / 16 * 16) < 2 ^ k := by
  rcases h with hsmall | ⟨hfit, hpow⟩
  · rw [Nat.div_eq_of_lt hsmall, Nat.zero_mul, Nat.mul_zero]
    exact Nat.two_pow_pos k
  · rw [Nat.mod_eq_of_lt hfit] at hclog
    have hle : maxDw * 4 * 2 ^ j ≤ 2 ^ (k + 2) := hclog ▸ Nat.le_pow_clog (by omega) _
    have hprod : 2 ^ j * maxDw ≤ 2 ^ k := by
      have : maxDw * 4 * 2 ^ j = 2 ^ j * maxDw * 4 := by rw [mul_right_comm, mul_comm maxDw]
      rw [this, pow_add] at hle
      omega
    have hne : 2 ^ j * maxDw ≠ 2 ^ k := by
      intro heq
      have hdvd : maxDw ∣ 2 ^ k := ⟨2 ^ j, by rw [← heq, mul_comm]⟩
      obtain ⟨e, -, he⟩ := (Nat.dvd_prime_pow Nat.prime_two).mp hdvd
      exact hpow ⟨e, he⟩
    have : 2 ^ j * (maxDw / 16 * 16) ≤ 2 ^ j * maxDw :=
      Nat.mul_le_mul_left _ (Nat.div_mul_le_self _ _)
    omega

/-- Without it, the largest submissions fill the ring at least, also when they are kept below
the size an `int` counts. -/
private theorem le_of_not_roomy (h : ¬Roomy maxDw (2 ^ j)) (hk : k ≤ 29)
    (hclog : Nat.clog 2 (maxDw * 4 * 2 ^ j % 2 ^ 32) = k + 2) :
    2 ^ k ≤ 2 ^ j * min (maxDw / 16 * 16) (2 ^ 29) := by
  rw [Roomy, not_or, not_and_or, not_not] at h
  obtain ⟨hlarge, hcase⟩ := h
  have hpos := Nat.two_pow_pos j
  have hk29 : 2 ^ k ≤ 2 ^ 29 := Nat.pow_le_pow_right (by omega) hk
  rcases Nat.lt_or_ge (2 ^ 29) (maxDw / 16 * 16) with hbig | hsmall
  · rw [min_eq_right hbig.le]
    exact le_trans hk29 (Nat.le_mul_of_pos_left _ hpos)
  · rw [min_eq_left hsmall]
    have hprod : maxDw * 4 * 2 ^ j = 2 ^ j * maxDw * 4 := by rw [mul_right_comm, mul_comm maxDw]
    rcases Nat.lt_or_ge (maxDw * 4 * 2 ^ j) (2 ^ 32) with hfit | hover
    · obtain ⟨e, he⟩ := hcase.resolve_left (not_not.mpr hfit)
      have he4 : 4 ≤ e := by
        by_contra hlt
        have : 2 ^ e ≤ 2 ^ 3 := Nat.pow_le_pow_right (by omega) (by omega)
        omega
      have hdvd : 16 ∣ maxDw := he ▸ Nat.pow_dvd_pow 2 he4
      have hexact : 2 ^ (j + e + 2) = 2 ^ j * maxDw * 4 := by
        rw [pow_add, pow_add, he]
        rfl
      rw [Nat.mod_eq_of_lt hfit, hprod, ← hexact, Nat.clog_pow 2 _ (by omega)] at hclog
      rw [Nat.div_mul_cancel hdvd, he, ← pow_add]
      exact Nat.pow_le_pow_right (by omega) (by omega)
    · -- the product overflowed, so a ring of at most `2 ^ 29` dwords is too small
      have hhalf : maxDw ≤ 2 * (maxDw / 16 * 16) := by omega
      have hmul : 2 ^ j * maxDw ≤ 2 ^ j * (2 * (maxDw / 16 * 16)) := Nat.mul_le_mul_left _ hhalf
      rw [mul_left_comm] at hmul
      omega

end Size

/-- Unread commands are safe in all runs exactly when the ring has room to spare. The driver
initializes both of its rings with 256 dwords, a power of two: with full submissions the pointers
meet on a full ring. -/
theorem ring_safe_iff (type : RingType) (maxDw j : ℕ) {ring : Ring}
    (hinit : ringInit type maxDw (2 ^ j) = some ring) :
    (∀ m : Machine, m.Reachable ring (2 ^ j) → m.Safe) ↔ Roomy maxDw (2 ^ j) := by
  obtain ⟨k, hs, -, hmax, hw, -, -, -, hclog⟩ := ringInit_eq_some hinit
  constructor
  · intro hsafe
    by_contra hnot
    have hfill := le_of_not_roomy hnot hs.le hclog
    rw [Roomy, not_or] at hnot
    set n := min (maxDw / 16 * 16) (2 ^ 29) with hn
    have hdvd : 16 ∣ n := by omega
    obtain ⟨m, hm, he, -, hflat, hsm, -⟩ := Machine.exists_unread hs hw hdvd
      (show 0 < n by omega) (show n ≤ ring.maxDw by omega) (show n < 2 ^ 31 by omega)
      (2 ^ j) (le_refl (2 ^ j))
    have hdist := (hsafe m hm).distance
    rw [Machine.inFlight_none he, hflat, hsm.ringSize] at hdist
    omega
  · intro hroomy m hm
    have hf : Machine.Fits k (2 ^ j) (ring.maxDw / 16 * 16) :=
      ⟨Nat.two_pow_pos j, Nat.dvd_mul_left 16 _, hmax ▸ hroomy.lt hclog⟩
    exact (hm.inv hs hw hf).safe hf

theorem ring_safe_iff_three_quarters : ∃ ring, ringInit .xdma 192 2 = some ring ∧
    ∀ m : Machine, m.Reachable ring 2 → m.Safe := by
  have hclog : Nat.clog 2 1536 = 11 := by decide
  obtain ⟨ring, hring⟩ : ∃ ring, ringInit .xdma 192 (2 ^ 1) = some ring := by
    simp [ringInit, roundupPowOfTwo, hclog]
  refine ⟨ring, hring, (ring_safe_iff .xdma 192 1 hring).mpr (.inr ⟨by decide, ?_⟩)⟩
  rintro ⟨e, he⟩
  have hthree : 3 ∣ 2 ^ e := he ▸ (by decide : 3 ∣ 192)
  exact absurd (Nat.prime_three.dvd_of_dvd_pow hthree) (by decide)

/-- Two full submissions on a ring of the driver: what the hardware sees is an idle ring. -/
theorem ring_looks_idle_while_full : ∃ ring, ringInit .xdma 256 2 = some ring ∧
    ∃ m : Machine, m.Reachable ring 2 ∧ m.unread.length = 2 ∧
      m.inFlight.length = m.ring.ringSize / 4 ∧
      m.ring.wptr &&& m.ring.bufMask = m.rptr &&& m.ring.bufMask := by
  have hclog : Nat.clog 2 2048 = 11 := by decide
  obtain ⟨ring, hring⟩ : ∃ ring, ringInit .xdma 256 2 = some ring := by
    simp [ringInit, roundupPowOfTwo, hclog]
  obtain ⟨k, hs, -, hmax, hw, -, -, -, hk⟩ := ringInit_eq_some hring
  have hk' : Nat.clog 2 2048 = k + 2 := hk
  obtain rfl : k = 9 := by omega
  obtain ⟨m, hm, he, hlen, hflat, hsm, -, hwm, hr⟩ := Machine.exists_unread hs hw
    (show 16 ∣ 256 by decide) (by decide) hmax.ge (by decide) 2 (le_refl 2)
  refine ⟨ring, hring, m, hm, hlen, ?_, ?_⟩
  · rw [Machine.inFlight_none he, hflat, hsm.ringSize]
    rfl
  · rw [hwm, hr]
    rfl

end Gsgpu.CommandRing
