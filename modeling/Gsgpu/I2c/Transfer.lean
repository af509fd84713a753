import Gsgpu.Basic
import Mathlib.Data.Int.Notation
import Mathlib.Data.List.Basic

/-! The transfers of the display controller's I2C adapter, against what the controller answers to
each command. What was answered so far is kept in a log; a run that needs more answers than it is
given has no result. -/
namespace Gsgpu.I2c

/-- How a wait for a command ends: not before the timeout, or with what the status and receive
registers hold then. A busy bus is looked for after a stop only. -/
inductive Response
  | timeout
  | done (noack busy : Bool) (rxr : BitVec 8)
deriving DecidableEq

/-- The commands: `CR_START | CR_WRITE` with an address byte, `CR_WRITE` with a byte, `CR_READ`, with
`CR_ACK` for the last byte, and `CR_STOP`. -/
inductive Command
  | start (addr : BitVec 8)
  | write (byte : BitVec 8)
  | read (last : Bool)
  | stop
deriving DecidableEq

abbrev Exchange := Command × Response

/-- The answers to come, and the exchanges so far. -/
structure Bus where
  responses : List Response
  log : List Exchange
deriving DecidableEq

/-- A command and the wait for it. -/
def Bus.issue (c : Command) (s : Bus) : Option (Response × Bus) :=
  match s.responses with
  | [] => none
  | r :: rs => some (r, ⟨rs, s.log ++ [(c, r)]⟩)

/-- The loop of `i2c_stop`, over the answers. -/
def stopLoop : List Response → List Exchange → Option (ℤ × Bus)
  | [], _ => none
  | .timeout :: rs, log => some (-1, ⟨rs, log ++ [(.stop, .timeout)]⟩)
  | .done noack busy rxr :: rs, log =>
    let log := log ++ [(.stop, .done noack busy rxr)]
    if busy then stopLoop rs log else some (0, ⟨rs, log⟩)

/-- `i2c_stop`. -/
def i2cStop (s : Bus) : Option (ℤ × Bus) := stopLoop s.responses s.log

/-- One try of `i2c_start`: what it returns, or none to try again. -/
def startOnce (addr : BitVec 8) (s : Bus) : Option (Option ℤ × Bus) := do
  let (r, s) ← s.issue (.start addr)
  match r with
  | .timeout => some (some (-1), s)
  | .done noack _ _ =>
    if noack then do
      let (stopped, s) ← i2cStop s
      some (if stopped < 0 then some (-1) else none, s)
    else some (some 1, s)

/-- The loop of `i2c_start`. -/
def startLoop (addr : BitVec 8) : ℕ → Bus → Option (ℤ × Bus)
  | 0, s => do
    let (ret, s) ← startOnce addr s
    some (ret.getD 0, s)
  | retry + 1, s => do
    let (ret, s) ← startOnce addr s
    match ret with
    | some ret => some (ret, s)
    | none => startLoop addr retry s

/-- What is used of `struct i2c_msg`; `len` is the length of `buf`. -/
structure Msg where
  addr : ℕ
  rd : Bool
  buf : List (BitVec 8)
deriving DecidableEq

/-- The address byte. -/
def Msg.addrByte (m : Msg) : BitVec 8 :=
  BitVec.ofNat 8 ((m.addr &&& 0x7f) <<< 1 ||| if m.rd then 1 else 0)

/-- `i2c_start`. -/
def i2cStart (m : Msg) (s : Bus) : Option (ℤ × Bus) := startLoop m.addrByte 5 s

/-- `i2c_read` from byte `i` on, with the bytes it leaves in `buf`. -/
def i2cRead : List (BitVec 8) → ℕ → Bus → Option (ℤ × List (BitVec 8) × Bus)
  | [], i, s => some (i, [], s)
  | b :: bs, i, s => do
    let (r, s) ← s.issue (.read bs.isEmpty)
    match r with
    | .timeout => some (-1, b :: bs, s)
    | .done _ _ rxr => do
      let (ret, bs, s) ← i2cRead bs (i + 1) s
      some (ret, rxr :: bs, s)

/-- `i2c_write` from byte `i` on. -/
def i2cWrite : List (BitVec 8) → ℕ → Bus → Option (ℤ × Bus)
  | [], i, s => some (i, s)
  | b :: bs, i, s => do
    let (r, s) ← s.issue (.write b)
    match r with
    | .timeout => some (-1, s)
    | .done noack _ _ =>
      if noack then do
        let (stopped, s) ← i2cStop s
        some (if stopped < 0 then -1 else 0, s)
      else i2cWrite bs (i + 1) s

/-- The bytes of one message. -/
def transfer (m : Msg) (s : Bus) : Option (ℤ × Msg × Bus) :=
  if m.rd then do
    let (ret, buf, s) ← i2cRead m.buf 0 s
    some (ret, { m with buf := buf }, s)
  else do
    let (ret, s) ← i2cWrite m.buf 0 s
    some (ret, m, s)

/-- The loop of `i2c_doxfer` from message `i` on, with the messages as it leaves them. -/
def doxferLoop : List Msg → ℕ → Bus → Option (ℤ × List Msg × Bus)
  | [], i, s => do
    let (stopped, s) ← i2cStop s
    some (if stopped < 0 then -1 else i, [], s)
  | m :: ms, i, s => do
    let (ret, s) ← i2cStart m s
    if ret ≤ 0 then some (ret, m :: ms, s)
    else do
      let (ret, m, s) ← transfer m s
      if ret < 0 then some (-1, m :: ms, s)
      else do
        let (stopped, s) ← i2cStop s
        if stopped < 0 then some (-1, m :: ms, s)
        else do
          let (ret, ms, s) ← doxferLoop ms (i + 1) s
          some (ret, m :: ms, s)

/-- `i2c_doxfer`. -/
def i2cDoxfer (ms : List Msg) (s : Bus) : Option (ℤ × List Msg × Bus) := doxferLoop ms 0 s

/-- `EAGAIN` and `EREMOTEIO`. -/
def eagain : ℤ := 11
def eremoteio : ℤ := 121

/-- `gsgpu_dc_i2c_xfer`, with `adapter->retries`. -/
def dcI2cXfer : ℕ → List Msg → Bus → Option (ℤ × List Msg × Bus)
  | 0, ms, s => some (-eremoteio, ms, s)
  | retries + 1, ms, s => do
    let (ret, ms, s) ← i2cDoxfer ms s
    if ret ≠ -eagain then some (ret, ms, s) else dcI2cXfer retries ms s

end Gsgpu.I2c
