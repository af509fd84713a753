import Gsgpu.Basic
import Gsgpu.Lib.Run

/-! Interrupts of the display controller. Their status bits, cleared by writing ones, and their
enable bits share one register, which the handler and the functions that enable and disable a
source each read, change and write back without a lock. -/
namespace Gsgpu.DcIrq

/-- `enum dc_irq_source`. -/
inductive Source
  | vsync0
  | vsync1
  | i2c0
  | i2c1
  | hpdHdmi0
  | hpdHdmi1
  | hpdVga
deriving DecidableEq

/-- `dc_interrupt_to_irq_source`, for the ids that `dc_register_irq_handlers` has added. -/
def interruptToIrqSource : ℕ → Option Source
  | 1 => some .vsync1
  | 3 => some .vsync0
  | 12 => some .i2c0
  | 13 => some .i2c1
  | 14 => some .hpdHdmi0
  | 15 => some .hpdHdmi1
  | 16 => some .hpdVga
  | _ => none

/-- The status bit of a source in `DC_INT_REG`. -/
def Source.statusBit : Source → ℕ
  | .vsync1 => 0
  | .vsync0 => 2
  | .i2c0 => 11
  | .i2c1 => 12
  | .hpdHdmi0 => 13
  | .hpdHdmi1 => 14
  | .hpdVga => 15

/-- Its enable bit. -/
def Source.enableBit (src : Source) : ℕ := src.statusBit + 16

/-- `INT_VSYNC0_ENABLE` and `INT_VSYNC1_ENABLE`. -/
def vsyncEnable (link : ℕ) : ℕ := if link = 0 then 18 else 16

/-- The bits that `dc_crtc_vblank_ack` sets. -/
def vblankAckBits (link : ℕ) : List ℕ := [vsyncEnable link]

/-- The bits that `dc_i2c_ack` sets. -/
def i2cAckBits (link : ℕ) : List ℕ := if link = 0 then [11] else [12]

/-- The bits that `dc_hpd_ack` sets. -/
def hpdAckBits (link : ℕ) : List ℕ := if link = 0 then [13, 15] else [14]

/-- `dc_submit_interrupt_ack`, with the link that it takes for a source. -/
def Source.ackBits : Source → List ℕ
  | .vsync0 => vblankAckBits 0
  | .vsync1 => vblankAckBits 1
  | .i2c0 => i2cAckBits 0
  | .i2c1 => i2cAckBits 1
  | .hpdHdmi0 | .hpdHdmi1 => hpdAckBits 0
  | .hpdVga => hpdAckBits 1

def Source.isHpd : Source → Bool
  | .hpdHdmi0 | .hpdHdmi1 | .hpdVga => true
  | _ => false

/-- The bits that `dc_i2c_int_enable` changes. -/
def i2cEnableBits (link : ℕ) : List ℕ := if link = 0 then [27] else [28]

/-- The bits that `dc_hpd_enable` changes. -/
def hpdEnableBits (link : ℕ) : List ℕ := if link = 0 then [31, 29] else [30]

/-- `dc_interrupt_enable`, with the link that it takes for a source. -/
def Source.enableBits : Source → List ℕ
  | .vsync0 => [vsyncEnable 0]
  | .vsync1 => [vsyncEnable 1]
  | .i2c0 => i2cEnableBits 0
  | .i2c1 => i2cEnableBits 1
  | .hpdHdmi0 | .hpdVga => hpdEnableBits 0
  | .hpdHdmi1 => hpdEnableBits 1

def setBits (value : BitVec 32) (bits : List ℕ) : BitVec 32 :=
  bits.foldl (fun v k => v ||| BitVec.twoPow 32 k) value

def clearBits (value : BitVec 32) (bits : List ℕ) : BitVec 32 :=
  bits.foldl (fun v k => v &&& ~~~BitVec.twoPow 32 k) value

/-- A write to `DC_INT_REG`. -/
def writeInt (reg value : BitVec 32) : BitVec 32 :=
  (value &&& 0xffff0000#32) ||| (reg &&& ~~~value &&& 0xffff#32)

/-- Where a run of `gsgpu_dc_irq_handler` is: in its loop, or in the acknowledgement of the source
that it dispatches, about to read or write a register. -/
inductive Run
  | idle
  | loop (intReg : BitVec 32) (i : ℕ)
  | ack (intReg : BitVec 32) (i : ℕ) (src : Source)
  | ackVga (intReg : BitVec 32) (i : ℕ) (src : Source) (value : BitVec 32)
  | ackVgaWrite (intReg : BitVec 32) (i : ℕ) (src : Source) (value vga : BitVec 32)
  | ackWrite (intReg : BitVec 32) (i : ℕ) (src : Source) (value : BitVec 32)
deriving DecidableEq

/-- Where a call of `dc_interrupt_enable` is, after its first read. -/
inductive Call
  | idle
  | write (src : Source) (enable : Bool) (value : BitVec 32)
  | vgaRead (enable : Bool)
  | vgaWrite (vga : BitVec 32)
deriving DecidableEq

/-- The two registers with the runs and calls. Remembered here only: what was requested last for a
source, and the status bits that the hardware has set since a run read them. -/
structure State where
  reg : BitVec 32
  vgaCfg : BitVec 32
  run : ℕ → Run
  call : ℕ → Call
  last : Source → Bool
  again : ℕ → ℕ → Bool

def State.setRun (s : State) (h : ℕ) (r : Run) : State :=
  { s with run := Function.update s.run h r }

def State.setCall (s : State) (c : ℕ) (x : Call) : State :=
  { s with call := Function.update s.call c x }

/-- `DC_VGA_HPD_STATUS_MASK`. -/
def vgaStatus (vga : BitVec 32) : BitVec 32 := vga &&& 0x3

/-- What `dc_hpd_ack` writes to `DC_VGA_HOTPULG_CFG`: the other state, or zero for an error. -/
def hpdAckVga (vga : BitVec 32) : BitVec 32 :=
  if vgaStatus vga = 1 then (vga &&& ~~~0x3) ||| 0x2
  else if vgaStatus vga = 2 then (vga &&& ~~~0x3) ||| 0x1
  else 0

/-- What `dc_hpd_enable` writes there. -/
def hpdEnableVga (enable : Bool) (vga : BitVec 32) : BitVec 32 :=
  if enable then if vga = 0 then 0x6409 else (vga &&& ~~~0x3) ||| 0x1 else 0

/-- The next step of a handler run. The loop passes over the bits of sources that nobody has
registered for. -/
def State.runStep (s : State) (h : ℕ) : Option State :=
  match s.run h with
  | .idle => none
  | .loop intReg i =>
    if intReg ≠ 0 ∧ i < 17 then
      if intReg &&& 0x1 = 0 then some (s.setRun h (.loop (intReg >>> 1) (i + 1)))
      else match interruptToIrqSource i with
        | none => some (s.setRun h (.loop (intReg >>> 1) (i + 1)))
        | some src => some (s.setRun h (.ack intReg i src))
    else some (s.setRun h .idle)
  | .ack intReg i src =>
    if src.isHpd ∧ s.reg.getLsbD 15 then some (s.setRun h (.ackVga intReg i src s.reg))
    else some (s.setRun h (.ackWrite intReg i src (setBits s.reg src.ackBits)))
  | .ackVga intReg i src value => some (s.setRun h (.ackVgaWrite intReg i src value s.vgaCfg))
  | .ackVgaWrite intReg i src value vga =>
    some { s.setRun h (if vgaStatus vga = 1 ∨ vgaStatus vga = 2 then
        .ackWrite intReg i src (setBits value src.ackBits) else .loop (intReg >>> 1) (i + 1)) with
      vgaCfg := hpdAckVga vga }
  | .ackWrite intReg i _ value =>
    some { s.setRun h (.loop (intReg >>> 1) (i + 1)) with reg := writeInt s.reg value }

/-- The next step of a call of `dc_interrupt_enable`. -/
def State.callStep (s : State) (c : ℕ) : Option State :=
  match s.call c with
  | .idle => none
  | .write src enable value =>
    some { s.setCall c (if src.isHpd then .vgaRead enable else .idle) with
      reg := writeInt s.reg value }
  | .vgaRead enable => some (s.setCall c (.vgaWrite (hpdEnableVga enable s.vgaCfg)))
  | .vgaWrite vga => some { s.setCall c .idle with vgaCfg := vga }

inductive Event
  | hw (b : ℕ)
  | irq (h : ℕ)
  | runStep (h : ℕ)
  | request (c : ℕ) (src : Source) (enable : Bool)
  | callStep (c : ℕ)

/-- A run and a call start with a read of the register. -/
def State.step (s : State) : Event → Option State
  | .hw b =>
    if b < 16 then some { s with
      reg := s.reg ||| BitVec.twoPow 32 b
      again := fun h k => s.again h k || k = b }
    else none
  | .irq h =>
    if s.run h = .idle then some { s.setRun h (.loop (s.reg &&& 0xffff#32) 1) with
      again := Function.update s.again h fun _ => false }
    else none
  | .runStep h => s.runStep h
  | .request c src enable =>
    if s.call c = .idle then
      let value := if enable then setBits s.reg src.enableBits else clearBits s.reg src.enableBits
      some { s.setCall c (.write src enable value) with last := Function.update s.last src enable }
    else none
  | .callStep c => s.callStep c

/-- Nothing is under way, and what is enabled counts as requested. -/
structure State.Init (s : State) : Prop where
  run : ∀ h, s.run h = .idle
  call : ∀ c, s.call c = .idle
  last : ∀ src, s.last src = s.reg.getLsbD src.enableBit

def State.Reachable (good : State → Event → Prop) (s : State) : Prop :=
  Transition.Reach State.Init (fun s e s' => s.step e = some s') good s

/-- The bits that a run has read as set and has still to dispatch, the one that it dispatches now
included. -/
def Run.todo : Run → ℕ → Bool
  | .idle, _ => false
  | .loop intReg i, b | .ack intReg i _, b | .ackVga intReg i _ _, b
  | .ackVgaWrite intReg i _ _ _, b | .ackWrite intReg i _ _, b =>
    i ≤ b + 1 ∧ intReg.getLsbD (b + 1 - i)

/-- The source that a run dispatches. -/
def Run.source : Run → Option Source
  | .ack _ _ src | .ackVga _ _ src _ | .ackVgaWrite _ _ src _ _ | .ackWrite _ _ src _ => some src
  | _ => none

/-- A step clears a status bit only if it is one of a run that had read the bit and dispatches it,
and with the end of a dispatch the bit is clear, if the hardware has not set it again. -/
def State.Safe (s : State) (e : Event) : Prop :=
  ∀ s', s.step e = some s' →
    (∀ b < 16, s.reg.getLsbD b = true → s'.reg.getLsbD b = false →
      ∃ h, e = .runStep h ∧ (s.run h).todo b = true) ∧
    ∀ h src, (s.run h).source = some src → (s'.run h).source = none →
      s'.reg.getLsbD src.statusBit = true → s.again h src.statusBit = true

/-- With nothing under way, the enable bits are as they were requested last. -/
def State.Follows (s : State) : Prop :=
  (∀ h, s.run h = .idle) → (∀ c, s.call c = .idle) →
    ∀ src, s.reg.getLsbD src.enableBit = s.last src

/-- What is written back has no status bit that was not to be cleared; all enable bits but those
that the call is for are as they were read, and there is no other request for these since. An
acknowledgement of a hot plug finds the VGA state it expects. -/
def Event.Exclusive (s : State) : Event → Prop
  | .runStep h =>
    match s.run h with
    | .ackVgaWrite _ _ src _ vga =>
      vgaStatus vga = 1 ∨ vgaStatus vga = 2 ∨ s.reg.getLsbD src.statusBit = false
    | .ackWrite _ _ _ value =>
      (∀ b < 16, value.getLsbD b = true → s.reg.getLsbD b = true → (s.run h).todo b = true) ∧
        ∀ b < 32, 16 ≤ b → value.getLsbD b = s.reg.getLsbD b
    | _ => True
  | .callStep c =>
    match s.call c with
    | .write src enable value =>
      (∀ b < 16, value.getLsbD b = true → s.reg.getLsbD b = false) ∧
        (∀ b < 32, 16 ≤ b → b ∉ src.enableBits → value.getLsbD b = s.reg.getLsbD b) ∧
        ∀ src', src'.enableBit ∈ src.enableBits → s.last src' = enable
    | _ => True
  | _ => True

variable {s s' : State} {e : Event} {h c b : ℕ} {value reg : BitVec 32} {bits : List ℕ}

theorem getLsbD_setBits (hb : b < 32) :
    (setBits value bits).getLsbD b = (value.getLsbD b || decide (b ∈ bits)) := by
  unfold setBits
  induction bits generalizing value with
  | nil => simp
  | cons k bits ih =>
    rw [List.foldl_cons, ih, BitVec.getLsbD_or, BitVec.getLsbD_twoPow]
    by_cases hk : b = k
    · subst hk
      simp [hb]
    · simp [hk, Ne.symm hk]

theorem getLsbD_clearBits (hb : b < 32) :
    (clearBits value bits).getLsbD b = (value.getLsbD b && decide (b ∉ bits)) := by
  unfold clearBits
  induction bits generalizing value with
  | nil => simp
  | cons k bits ih =>
    rw [List.foldl_cons, ih, BitVec.getLsbD_and, BitVec.getLsbD_not, BitVec.getLsbD_twoPow]
    by_cases hk : b = k
    · subst hk
      simp [hb]
    · simp [hb, hk, Ne.symm hk]

/-- The status bits written as one are cleared, the enable bits are set as written. -/
theorem getLsbD_writeInt (hb : b < 32) : (writeInt reg value).getLsbD b =
    if b < 16 then reg.getLsbD b && !value.getLsbD b else value.getLsbD b := by
  have hmask : ∀ k : Fin 32, (0xffff0000#32).getLsbD k = !decide (k.val < 16) ∧
      (0xffff#32).getLsbD k = decide (k.val < 16) := by decide
  obtain ⟨hhigh, hlow⟩ := hmask ⟨b, hb⟩
  simp only at hhigh hlow
  rw [writeInt, BitVec.getLsbD_or, BitVec.getLsbD_and, BitVec.getLsbD_and, BitVec.getLsbD_and,
    BitVec.getLsbD_not, hhigh, hlow]
  split_ifs with hlt <;> simp [hlt, hb]

theorem Source.statusBit_lt (src : Source) : src.statusBit < 16 := by cases src <;> decide

theorem Source.enableBit_range (src : Source) : 16 ≤ src.enableBit ∧ src.enableBit < 32 := by
  cases src <;> decide

/-- The value of the register that an acknowledgement has read, with what it has added. -/
def Run.written : Run → Option (BitVec 32)
  | .ackVga _ _ _ value | .ackVgaWrite _ _ _ value _ | .ackWrite _ _ _ value => some value
  | _ => none

structure State.Inv (s : State) : Prop where
  ack : ∀ h src value, (s.run h).source = some src → (s.run h).written = some value →
    s.reg.getLsbD src.statusBit = true →
      value.getLsbD src.statusBit = true ∨ s.again h src.statusBit = true
  calls : ∀ c src enable value, s.call c = .write src enable value →
    ∀ b < 32, b ∈ src.enableBits → value.getLsbD b = enable
  enable : ∀ src, s.reg.getLsbD src.enableBit = s.last src ∨
    ∃ c src' enable value, s.call c = .write src' enable value ∧ src.enableBit ∈ src'.enableBits

/-- The runs read the register, or clear status bits in it. -/
theorem State.Inv.setRun (hi : s.Inv) {r : Run}
    (hrun : s'.run = Function.update s.run h r)
    (hsame : s'.call = s.call ∧ s'.last = s.last ∧ s'.again = s.again)
    (hstatus : ∀ b < 16, s'.reg.getLsbD b = true → s.reg.getLsbD b = true)
    (henable : ∀ b < 32, 16 ≤ b → s'.reg.getLsbD b = s.reg.getLsbD b)
    (hack : ∀ src value, r.source = some src → r.written = some value →
      s'.reg.getLsbD src.statusBit = true →
        value.getLsbD src.statusBit = true ∨ s.again h src.statusBit = true) : s'.Inv := by
  obtain ⟨hcall, hlast, hagain⟩ := hsame
  refine ⟨fun k src value hsrc hvalue hset => ?_, fun c => ?_, fun src => ?_⟩
  · rw [hagain]
    by_cases hk : k = h
    · rw [hk, hrun, Function.update_self] at hsrc hvalue
      rw [hk]
      exact hack src value hsrc hvalue hset
    · rw [hrun, Function.update_of_ne hk] at hsrc hvalue
      exact hi.ack k src value hsrc hvalue (hstatus _ src.statusBit_lt hset)
  · rw [hcall]
    exact hi.calls c
  · rw [hcall, hlast, henable _ src.enableBit_range.2 src.enableBit_range.1]
    exact hi.enable src

theorem State.Inv.runStep (hi : s.Inv) (hg : Event.Exclusive s (.runStep h))
    (hs : s.runStep h = some s') : s'.Inv := by
  unfold State.runStep at hs
  cases hr : s.run h with
  | idle => simp [hr] at hs
  | loop intReg i =>
    simp only [hr] at hs
    split_ifs at hs
    · cases hs
      exact hi.setRun rfl ⟨rfl, rfl, rfl⟩ (fun _ _ => id) (fun _ _ _ => rfl) nofun
    · cases hsrc : interruptToIrqSource i <;> rw [hsrc] at hs <;> cases hs
      · exact hi.setRun rfl ⟨rfl, rfl, rfl⟩ (fun _ _ => id) (fun _ _ _ => rfl) nofun
      · exact hi.setRun rfl ⟨rfl, rfl, rfl⟩ (fun _ _ => id) (fun _ _ _ => rfl) nofun
    · cases hs
      exact hi.setRun rfl ⟨rfl, rfl, rfl⟩ (fun _ _ => id) (fun _ _ _ => rfl) nofun
  | ack intReg i src =>
    simp only [hr] at hs
    split_ifs at hs <;> cases hs
    · refine hi.setRun rfl ⟨rfl, rfl, rfl⟩ (fun _ _ => id) (fun _ _ _ => rfl) ?_
      rintro _ _ ⟨⟩ ⟨⟩ hset
      exact .inl hset
    · refine hi.setRun rfl ⟨rfl, rfl, rfl⟩ (fun _ _ => id) (fun _ _ _ => rfl) ?_
      rintro _ _ ⟨⟩ ⟨⟩ hset
      have hlt := src.statusBit_lt
      have hset : s.reg.getLsbD src.statusBit = true := hset
      exact .inl (by rw [getLsbD_setBits (by omega), hset, Bool.true_or])
  | ackVga intReg i src value =>
    have hack := hi.ack h src value (by rw [hr]; rfl) (by rw [hr]; rfl)
    simp only [hr] at hs
    cases hs
    refine hi.setRun rfl ⟨rfl, rfl, rfl⟩ (fun _ _ => id) (fun _ _ _ => rfl) ?_
    rintro _ _ ⟨⟩ ⟨⟩ hset
    exact hack hset
  | ackVgaWrite intReg i src value vga =>
    have hack := hi.ack h src value (by rw [hr]; rfl) (by rw [hr]; rfl)
    simp only [hr] at hs
    cases hs
    refine hi.setRun rfl ⟨rfl, rfl, rfl⟩ (fun _ _ => id) (fun _ _ _ => rfl) ?_
    intro src' value' hsrc hvalue hset
    split_ifs at hsrc hvalue
    · cases hsrc
      cases hvalue
      have hlt := src.statusBit_lt
      rw [getLsbD_setBits (by omega)]
      exact (hack hset).imp_left fun hv => by rw [hv, Bool.true_or]
    · cases hsrc
  | ackWrite intReg i src value =>
    simp only [Event.Exclusive, hr] at hg
    simp only [hr] at hs
    cases hs
    refine hi.setRun rfl ⟨rfl, rfl, rfl⟩ (fun b hb hset => ?_) (fun b hb hb' => ?_) nofun
    · simp only [getLsbD_writeInt (show b < 32 by omega), hb, if_true, Bool.and_eq_true] at hset
      exact hset.1
    · simp only [getLsbD_writeInt hb, Nat.not_lt.mpr hb', if_false]
      exact hg.2 b hb hb'

theorem State.Inv.hw (hi : s.Inv) (hb : b < 16) : State.Inv { s with
    reg := s.reg ||| BitVec.twoPow 32 b
    again := fun h k => s.again h k || k = b } := by
  have hbit : ∀ k, k ≠ b → (s.reg ||| BitVec.twoPow 32 b).getLsbD k = s.reg.getLsbD k := by
    intro k hk
    rw [BitVec.getLsbD_or, BitVec.getLsbD_twoPow]
    simp [Ne.symm hk]
  refine ⟨fun h src value hsrc hvalue hset => ?_, hi.calls, fun src => ?_⟩
  · by_cases hk : src.statusBit = b
    · exact .inr (by simp [hk])
    · rw [hbit _ hk] at hset
      exact (hi.ack h src value hsrc hvalue hset).imp_right fun hagain => by simp [hagain]
  · have := src.enableBit_range
    rw [hbit _ (by omega)]
    exact hi.enable src

theorem State.Inv.irq (hi : s.Inv) : State.Inv { s.setRun h (.loop (s.reg &&& 0xffff#32) 1) with
    again := Function.update s.again h fun _ => false } := by
  refine ⟨fun k src value hsrc hvalue hset => ?_, hi.calls, hi.enable⟩
  by_cases hk : k = h
  · subst hk
    simp [State.setRun, Run.source] at hsrc
  · simp only [State.setRun, Function.update_of_ne hk] at hsrc hvalue ⊢
    exact hi.ack k src value hsrc hvalue hset

theorem State.Inv.request (hi : s.Inv) {src : Source} {enable : Bool} (hc : s.call c = .idle) :
    State.Inv { s.setCall c (.write src enable
        (if enable then setBits s.reg src.enableBits else clearBits s.reg src.enableBits)) with
      last := Function.update s.last src enable } := by
  have hother : ∀ {k : ℕ} {x : Call}, s.call k = x → x ≠ .idle →
      Function.update s.call c (.write src enable
        (if enable then setBits s.reg src.enableBits else clearBits s.reg src.enableBits)) k = x := by
    intro k x hk hx
    have hkc : k ≠ c := fun heq => hx (by rw [← hk, heq, hc])
    rw [Function.update_of_ne hkc, hk]
  refine ⟨hi.ack, fun k src' enable' value hk b hb hmem => ?_, fun src' => ?_⟩
  · by_cases hkc : k = c
    · subst hkc
      simp only [State.setCall, Function.update_self, Call.write.injEq] at hk
      obtain ⟨rfl, rfl, rfl⟩ := hk
      split_ifs with hen
      · rw [getLsbD_setBits hb, hen]
        simp [hmem]
      · rw [getLsbD_clearBits hb]
        simp [hmem, hen]
    · simp only [State.setCall, Function.update_of_ne hkc] at hk
      exact hi.calls k src' enable' value hk b hb hmem
  · by_cases hsrc : src' = src
    · subst hsrc
      exact .inr ⟨c, src', enable, _, Function.update_self _ _ _, by cases src' <;> decide⟩
    · have hkeep : Function.update s.last src enable src' = s.last src' :=
        Function.update_of_ne hsrc _ _
      refine (hi.enable src').imp (fun heq => heq.trans hkeep.symm) ?_
      rintro ⟨k, src'', enable', value, hk, hmem⟩
      exact ⟨k, src'', enable', value, hother hk nofun, hmem⟩

/-- The call writes: its enable bits are as requested, all others as before. -/
theorem State.Inv.write (hi : s.Inv) {src : Source} {enable : Bool} {x : Call}
    (hc : s.call c = .write src enable value) (hx : ∀ src enable value, x ≠ .write src enable value)
    (hother : ∀ b < 32, 16 ≤ b → b ∉ src.enableBits → value.getLsbD b = s.reg.getLsbD b)
    (hlast : ∀ src', src'.enableBit ∈ src.enableBits → s.last src' = enable) :
    State.Inv { s.setCall c x with reg := writeInt s.reg value } := by
  refine ⟨fun h src value hsrc hvalue hset => ?_, fun k src' enable' value' hk => ?_, fun src' => ?_⟩
  · have hlt := src.statusBit_lt
    rw [getLsbD_writeInt (by omega), if_pos hlt, Bool.and_eq_true] at hset
    exact hi.ack h src value hsrc hvalue hset.1
  · by_cases hkc : k = c
    · subst hkc
      simp only [State.setCall, Function.update_self] at hk
      exact absurd hk (hx _ _ _)
    · simp only [State.setCall, Function.update_of_ne hkc] at hk
      exact hi.calls k src' enable' value' hk
  · obtain ⟨hge, hlt⟩ := src'.enableBit_range
    simp only [getLsbD_writeInt hlt, Nat.not_lt.mpr hge, if_false]
    by_cases hmem : src'.enableBit ∈ src.enableBits
    · exact .inl ((hi.calls c src enable value hc _ hlt hmem).trans (hlast src' hmem).symm)
    · rw [hother _ hlt hge hmem]
      refine (hi.enable src').imp id ?_
      rintro ⟨k, src'', enable', value', hk, hmem'⟩
      have hkc : k ≠ c := by
        rintro rfl
        rw [hc] at hk
        cases hk
        exact hmem hmem'
      exact ⟨k, src'', enable', value', by simpa [State.setCall, hkc] using hk, hmem'⟩

/-- A call that has written is done with the register. -/
theorem State.Inv.setCall (hi : s.Inv) {x : Call} (hc : ∀ src enable value,
    s.call c ≠ .write src enable value) (hx : ∀ src enable value, x ≠ .write src enable value)
    (hcall : s'.call = Function.update s.call c x)
    (hsame : s'.reg = s.reg ∧ s'.run = s.run ∧ s'.last = s.last ∧ s'.again = s.again) :
    s'.Inv := by
  obtain ⟨hreg, hrun, hlast, hagain⟩ := hsame
  refine ⟨?_, fun k src enable value hk => ?_, fun src => ?_⟩
  · rw [hreg, hrun, hagain]
    exact hi.ack
  · by_cases hkc : k = c
    · rw [hkc, hcall, Function.update_self] at hk
      exact absurd hk (hx _ _ _)
    · rw [hcall, Function.update_of_ne hkc] at hk
      exact hi.calls k src enable value hk
  · rw [hreg, hlast]
    refine (hi.enable src).imp id ?_
    rintro ⟨k, src', enable, value, hk, hmem⟩
    have hkc : k ≠ c := fun heq => hc _ _ _ (heq ▸ hk)
    exact ⟨k, src', enable, value, by rw [hcall, Function.update_of_ne hkc, hk], hmem⟩

theorem State.Inv.step (hi : s.Inv) (hg : e.Exclusive s) (hs : s.step e = some s') : s'.Inv := by
  cases e with
  | hw b =>
    simp only [State.step] at hs
    split at hs <;> cases hs
    case isTrue.refl hb => exact hi.hw hb
  | irq h =>
    simp only [State.step] at hs
    split at hs <;> cases hs
    exact hi.irq
  | runStep h => exact hi.runStep hg hs
  | request c src enable =>
    simp only [State.step] at hs
    split at hs <;> cases hs
    case isTrue.refl hc => exact hi.request hc
  | callStep c =>
    simp only [State.step, State.callStep] at hs
    cases hc : s.call c with
    | idle => simp [hc] at hs
    | write src enable value =>
      simp only [Event.Exclusive, hc] at hg
      simp only [hc] at hs
      cases hs
      refine hi.write hc (fun _ _ _ => ?_) hg.2.1 hg.2.2
      split_ifs <;> simp
    | vgaRead enable =>
      simp only [hc] at hs
      cases hs
      exact hi.setCall (x := .vgaWrite _) (by simp [hc]) nofun rfl ⟨rfl, rfl, rfl, rfl⟩
    | vgaWrite vga =>
      simp only [hc] at hs
      cases hs
      exact hi.setCall (x := .idle) (by simp [hc]) nofun rfl ⟨rfl, rfl, rfl, rfl⟩

theorem State.Inv.initial (h : s.Init) : s.Inv where
  ack k src value hsrc := by simp [h.run k, Run.source] at hsrc
  calls k src enable value hk := by simp [h.call k] at hk
  enable src := .inl (h.last src).symm

theorem State.Inv.follows (hi : s.Inv) : s.Follows := by
  intro _ hcalls src
  refine (hi.enable src).resolve_right ?_
  rintro ⟨c, src', enable, value, hc, -⟩
  simp [hcalls c] at hc

/-- A write clears the bits that it writes as ones. -/
theorem cleared_of_writeInt (hb : b < 16) (hset : reg.getLsbD b = true)
    (hclear : (writeInt reg value).getLsbD b = false) : value.getLsbD b = true := by
  rw [getLsbD_writeInt (by omega), if_pos hb, hset, Bool.true_and] at hclear
  simpa using hclear

theorem clears_none (hreg : s'.reg = s.reg) {P : ℕ → Prop} :
    ∀ b < 16, s.reg.getLsbD b = true → s'.reg.getLsbD b = false → P b := by
  intro b _ hset hclear
  rw [hreg, hset] at hclear
  cases hclear

theorem ends_none (hrun : s'.run = s.run) {P : ℕ → Source → Prop} :
    ∀ h src, (s.run h).source = some src → (s'.run h).source = none → P h src := by
  intro h src hsrc hnone
  rw [hrun, hsrc] at hnone
  cases hnone

/-- A handler run ends its dispatch with the write, or with the error of a hot plug. -/
theorem State.Inv.safe_runStep (hi : s.Inv) (hg : Event.Exclusive s (.runStep h)) :
    s.Safe (.runStep h) := by
  intro s' hs
  have hframe : ∀ {r : Run} {k : ℕ} {src : Source}, (s.run k).source = some src →
      (Function.update s.run h r k).source = none →
        k = h ∧ (s.run h).source = some src ∧ r.source = none := by
    intro r k src hsrc hnone
    by_cases hk : k = h
    · subst hk
      rw [Function.update_self] at hnone
      exact ⟨rfl, hsrc, hnone⟩
    · rw [Function.update_of_ne hk, hsrc] at hnone
      cases hnone
  simp only [State.step] at hs
  unfold State.runStep at hs
  cases hr : s.run h with
  | idle => simp [hr] at hs
  | loop intReg i =>
    have hsame : s'.reg = s.reg ∧ ∃ r, s'.run = Function.update s.run h r := by
      simp only [hr] at hs
      split_ifs at hs
      · cases hs
        exact ⟨rfl, _, rfl⟩
      · cases hsrc : interruptToIrqSource i <;> rw [hsrc] at hs <;> cases hs
        · exact ⟨rfl, _, rfl⟩
        · exact ⟨rfl, _, rfl⟩
      · cases hs
        exact ⟨rfl, _, rfl⟩
    obtain ⟨hreg, r, hrun⟩ := hsame
    refine ⟨clears_none hreg, fun k src hsrc hnone _ => ?_⟩
    · rw [hrun] at hnone
      obtain ⟨-, hsrc, -⟩ := hframe hsrc hnone
      simp [hr, Run.source] at hsrc
  | ack intReg i src =>
    simp only [hr] at hs
    split_ifs at hs <;> cases hs
    all_goals
      refine ⟨clears_none rfl, fun k src hsrc hnone _ => ?_⟩
      obtain ⟨-, -, hnone⟩ := hframe hsrc hnone
      cases hnone
  | ackVga intReg i src value =>
    simp only [hr] at hs
    cases hs
    refine ⟨clears_none rfl, fun k src hsrc hnone _ => ?_⟩
    obtain ⟨-, -, hnone⟩ := hframe hsrc hnone
    cases hnone
  | ackVgaWrite intReg i src value vga =>
    simp only [Event.Exclusive, hr] at hg
    simp only [hr] at hs
    cases hs
    refine ⟨clears_none rfl, fun k src' hsrc hnone hset => ?_⟩
    obtain ⟨-, hsrc, hnone⟩ := hframe hsrc hnone
    rw [hr] at hsrc
    cases hsrc
    split_ifs at hnone with hvga
    · cases hnone
    · have hclear := (hg.resolve_left fun h1 => hvga (.inl h1)).resolve_left
        fun h2 => hvga (.inr h2)
      exact absurd (hset.symm.trans hclear) (by simp)
  | ackWrite intReg i src value =>
    have hack := hi.ack h src value (by rw [hr]; rfl) (by rw [hr]; rfl)
    simp only [Event.Exclusive, hr] at hg
    simp only [hr] at hs
    cases hs
    refine ⟨fun b hb hset hclear => ⟨h, rfl, ?_⟩, fun k src' hsrc hnone hset => ?_⟩
    · rw [hr]
      exact hg.1 b hb (cleared_of_writeInt hb hset hclear) hset
    · obtain ⟨rfl, hsrc, -⟩ := hframe hsrc hnone
      rw [hr] at hsrc
      cases hsrc
      have hlt := src.statusBit_lt
      rw [getLsbD_writeInt (by omega), if_pos hlt, Bool.and_eq_true] at hset
      refine (hack hset.1).resolve_left fun hv => ?_
      simp [hv] at hset

theorem State.Inv.safe (hi : s.Inv) (hg : e.Exclusive s) : s.Safe e := by
  cases e with
  | runStep h => exact hi.safe_runStep hg
  | hw b =>
    intro s' hs
    simp only [State.step] at hs
    split at hs <;> cases hs
    refine ⟨fun k hk hset hclear => ?_, ends_none rfl⟩
    rw [BitVec.getLsbD_or, hset, Bool.true_or] at hclear
    cases hclear
  | irq h =>
    intro s' hs
    simp only [State.step] at hs
    split at hs <;> cases hs
    case isTrue.refl hr =>
      refine ⟨clears_none rfl, fun k src hsrc hnone => ?_⟩
      have hkh : k ≠ h := by
        rintro rfl
        simp [hr, Run.source] at hsrc
      simp only [State.setRun, Function.update_of_ne hkh, hsrc] at hnone
      cases hnone
  | request c src enable =>
    intro s' hs
    simp only [State.step] at hs
    split at hs <;> cases hs
    exact ⟨clears_none rfl, ends_none rfl⟩
  | callStep c =>
    intro s' hs
    simp only [State.step, State.callStep] at hs
    cases hc : s.call c with
    | idle => simp [hc] at hs
    | write src enable value =>
      simp only [Event.Exclusive, hc] at hg
      simp only [hc] at hs
      cases hs
      refine ⟨fun k hk hset hclear => ?_, ends_none rfl⟩
      have := hg.1 k hk (cleared_of_writeInt hk hset hclear)
      exact absurd (hset.symm.trans this) (by simp)
    | vgaRead enable =>
      simp only [hc] at hs
      cases hs
      exact ⟨clears_none rfl, ends_none rfl⟩
    | vgaWrite vga =>
      simp only [hc] at hs
      cases hs
      exact ⟨clears_none rfl, ends_none rfl⟩

end Gsgpu.DcIrq
