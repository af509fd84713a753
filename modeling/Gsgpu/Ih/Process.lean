import Gsgpu.Basic
import Gsgpu.Lib.Run
import Gsgpu.Lib.Cyclic
import Gsgpu.Lib.Circular
import Mathlib.Data.Nat.Log

/-! The interrupt ring: the hardware writes entries of four dwords, and any number of invocations
of `gsgpu_ih_process` take them out. The write pointer is read outside of the lock. -/
namespace Gsgpu.Ih

/-- What `gsgpu_ih_ring_init` is called with. An entry fits, and the size in bytes is an `unsigned`. -/
structure Ring where
  ringSize : ℕ
  two_le : 2 ≤ Nat.clog 2 (ringSize / 4)
  lt : Nat.clog 2 (ringSize / 4) < 30

/-- The ring in dwords after `gsgpu_ih_ring_init`, with `order_base_2`. -/
def Ring.dwords (r : Ring) : ℕ := 2 ^ Nat.clog 2 (r.ringSize / 4)

def Ring.ptrMask (r : Ring) : ℕ := r.dwords - 1

/-- The dwords of an interrupt vector. -/
abbrev Entry := Fin 4 → BitVec 32

/-- `struct gsgpu_iv_entry`, of what `ih_func_decode_iv` sets. -/
structure IvEntry where
  clientId : BitVec 32
  srcId : BitVec 32
  ringId : BitVec 32
  vmid : BitVec 32
  pasid : BitVec 32
  srcData0 : BitVec 32
  srcData1 : BitVec 32
deriving DecidableEq

/-- `ih_func_decode_iv`, with `GSGPU_IH_CLIENTID_LEGACY`. -/
def decodeIv (dw : Entry) : IvEntry where
  clientId := 0
  srcId := dw 0 &&& 0xff
  srcData0 := dw 1 &&& 0xffffffff
  ringId := dw 2 &&& 0xff
  vmid := (dw 2 >>> 8) &&& 0xff
  pasid := (dw 2 >>> 16) &&& 0xffff
  srcData1 := dw 3

/-- `VISLANDS30_IV_SRCID_GFX_PAGE_INV_FAULT` and `VISLANDS30_IV_SRCID_GFX_MEM_PROT_FAULT`. -/
def isVmFault (dw0 : BitVec 32) : Bool := dw0 &&& 0xff = 0x92 ∨ dw0 &&& 0xff = 0x93

/-- Where an invocation of `gsgpu_ih_process` is, with its local variables. The phases from `test`
to `unlock` are those under the lock. -/
inductive Phase
  | idle
  | start
  | restart (wptr : ℕ)
  | test (wptr : ℕ)
  | prescreen (wptr : ℕ)
  | skip (wptr : ℕ)
  | decode (wptr : ℕ)
  | decoded (wptr : ℕ) (entry : IvEntry)
  | dispatch (wptr : ℕ) (entry : IvEntry)
  | setRptr (wptr : ℕ)
  | unlock (wptr : ℕ)
  | recheck
  | compare (wptr : ℕ)
deriving DecidableEq

/-- What became of an entry. -/
inductive Handled
  | dispatched (entry : IvEntry)
  | dropped (dw : Entry)

/-- The ring and the invocations. Remembered here only: all entries that the hardware has written,
what was made of the entries read, and the write pointer of the last invocation that had the
lock. -/
structure State where
  ring : ℕ → BitVec 32
  rptr : ℕ
  rptrReg : ℕ
  lock : Bool
  enabled : Bool
  shutdown : Bool
  phase : ℕ → Phase
  written : List Entry
  log : List Handled
  observed : ℕ

variable (r : Ring)

def Ring.wrap (x : ℕ) : ℕ := x &&& r.ptrMask

/-- `ih_func_get_wptr`. -/
def State.getWptr (s : State) : ℕ := r.wrap (4 * s.written.length)

/-- The entry at an index of the ring. -/
def State.entryAt (s : State) (i : ℕ) : Entry := fun k => s.ring (i + k)

def State.setPhase (s : State) (i : ℕ) (p : Phase) : State :=
  { s with phase := Function.update s.phase i p }

@[simp] theorem State.setPhase_self (s : State) (i : ℕ) (p : Phase) :
    (s.setPhase i p).phase i = p := by simp [State.setPhase]

theorem State.setPhase_of_ne {s : State} {i j : ℕ} {p : Phase} (h : j ≠ i) :
    (s.setPhase i p).phase j = s.phase j := by simp [State.setPhase, h]

/-- The test of `ih_func_prescreen_iv`; `credit` is what `gsgpu_vm_pasid_fault_credit` says. -/
def State.prescreened (s : State) (credit : Bool) : Bool :=
  !isVmFault (s.ring s.rptr) || s.ring (s.rptr + 2) >>> 16 == 0 || credit

/-- The next step of an invocation. -/
def State.advance (s : State) (i : ℕ) (credit : Bool) : Option State :=
  match s.phase i with
  | .idle => none
  | .start =>
    if !s.enabled || s.shutdown then some (s.setPhase i .idle)
    else some (s.setPhase i (.restart (s.getWptr r)))
  | .restart wptr =>
    if s.lock then some (s.setPhase i .idle)
    else some { s.setPhase i (.test wptr) with lock := true, observed := wptr }
  | .test wptr =>
    if s.rptr ≠ wptr then some (s.setPhase i (.prescreen wptr))
    else some (s.setPhase i (.setRptr wptr))
  | .prescreen wptr =>
    if s.prescreened credit then some (s.setPhase i (.decode wptr))
    else some { s.setPhase i (.skip wptr) with
      rptr := s.rptr + 4
      log := s.log ++ [.dropped (s.entryAt s.rptr)] }
  | .skip wptr => some { s.setPhase i (.test wptr) with rptr := r.wrap s.rptr }
  | .decode wptr =>
    some { s.setPhase i (.decoded wptr (decodeIv (s.entryAt s.rptr))) with rptr := s.rptr + 4 }
  | .decoded wptr entry => some { s.setPhase i (.dispatch wptr entry) with rptr := r.wrap s.rptr }
  | .dispatch wptr entry =>
    some { s.setPhase i (.test wptr) with log := s.log ++ [.dispatched entry] }
  | .setRptr wptr => some { s.setPhase i (.unlock wptr) with rptrReg := s.rptr }
  | .unlock _ => some { s.setPhase i .recheck with lock := false }
  | .recheck => some (s.setPhase i (.compare (s.getWptr r)))
  | .compare wptr =>
    if wptr ≠ s.rptr then some (s.setPhase i (.restart wptr)) else some (s.setPhase i .idle)

/-- The hardware writes the dwords of an entry at the write pointer and moves that. -/
def State.write (s : State) (dw : Entry) : State :=
  { s with
    ring := fun x =>
      if h : s.getWptr r ≤ x ∧ x < s.getWptr r + 4 then dw ⟨x - s.getWptr r, by omega⟩
      else s.ring x
    written := s.written ++ [dw] }

inductive Event
  | write (dw : Entry)
  | call (i : ℕ)
  | advance (i : ℕ) (credit : Bool)

/-- The hardware does not write an entry with which its pointer would come to the read pointer. -/
def State.step (s : State) : Event → Option State
  | .write dw =>
    if r.wrap (s.getWptr r + 4) ≠ r.wrap s.rptr then some (s.write r dw) else none
  | .call i => if s.phase i = .idle then some (s.setPhase i .start) else none
  | .advance i credit => s.advance r i credit

/-- `gsgpu_ih_irq_init` has run and nothing has happened since. -/
structure State.Init (s : State) : Prop where
  rptr : s.rptr = 0
  lock : s.lock = false
  enabled : s.enabled = true
  shutdown : s.shutdown = false
  phase : ∀ i, s.phase i = .idle
  written : s.written = []
  log : s.log = []
  observed : s.observed = 0

def State.Reachable (good : State → Event → Prop) (s : State) : Prop :=
  Transition.Reach State.Init (fun s e s' => s.step r e = some s') good s

/-- The indices of the ring that a step reads. -/
def State.reads (s : State) : Event → List ℕ
  | .advance i _ =>
    match s.phase i with
    | .prescreen _ => s.rptr :: if isVmFault (s.ring s.rptr) then [s.rptr + 2] else []
    | .decode _ => [s.rptr, s.rptr + 1, s.rptr + 2, s.rptr + 3]
    | _ => []
  | _ => []

/-- The body and the test of the loop. -/
def Phase.inLoop : Phase → Bool
  | .test _ | .prescreen _ | .skip _ | .decode _ | .decoded _ _ | .dispatch _ _ => true
  | _ => false

def Event.isAdvance (i : ℕ) : Event → Bool
  | .advance j _ => i = j
  | _ => false

/-- What is made of an entry: it is passed on as it was written, or it is a VM fault of some
process. -/
def Handled.Of : Handled → Entry → Prop
  | .dispatched entry, dw => entry = decodeIv dw
  | .dropped dw', dw => dw' = dw ∧ isVmFault (dw 0) ∧ dw 2 >>> 16 ≠ 0

def State.Running (s : State) : Prop := ∃ i, s.phase i ≠ .idle

/-- The entries handled are the first ones written, in their order, and up to the last write
pointer that was used under the lock. -/
def State.InOrder (s : State) : Prop :=
  List.Forall₂ Handled.Of s.log (s.written.take s.log.length) ∧
    (s.lock = false → s.observed = r.wrap (4 * s.log.length))

/-- An invocation stays in its loop for so many of its steps only, whatever happens between
them. -/
def State.LoopsEnd (s : State) : Prop :=
  ∀ i es, (∀ p, p <+: es → ∃ t, p.foldlM (State.step r) s = some t ∧ (t.phase i).inLoop) →
    es.countP (Event.isAdvance i) < 2 * r.dwords

/-- When the last invocation returns, nothing is left in the ring. -/
def State.Drained (s : State) : Prop :=
  ∀ e s', s.step r e = some s' → s.Running → ¬ s'.Running → s'.log.length = s'.written.length

/-- All invocations under way have read the write pointer for the last time. -/
def State.Settled (s : State) : Prop := ∀ i, s.phase i = .idle ∨ s.phase i = .compare s.rptr

/-- An invocation that takes the lock has a write pointer that no other one has passed, and the
hardware writes nothing that no invocation under way will see. -/
def Event.Fresh (s : State) : Event → Prop
  | .advance i _ => ∀ wptr, s.phase i = .restart wptr → s.lock = false →
      Cyclic.dist r.dwords s.rptr wptr ≤ Cyclic.dist r.dwords s.rptr (s.getWptr r)
  | .write _ => s.Running → ¬ s.Settled
  | _ => True

end Gsgpu.Ih
