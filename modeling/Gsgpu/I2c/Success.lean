import Gsgpu.I2c.Transfer
import Mathlib.Data.List.Forall2

/-! When a transfer's return value is right. Every function is summed up by what it adds to the log:
whether an answer stayed out, whether a written byte was refused, which addresses were acknowledged,
and which bytes got over the bus. -/
namespace Gsgpu.I2c

/-! ### What a log says -/

/-- An answer stayed out. -/
def HasTimeout (log : List Exchange) : Prop := ∃ x ∈ log, x.2 = .timeout

/-- The byte of a write was not acknowledged. -/
def Exchange.Refused (x : Exchange) : Prop := ∃ byte busy rxr, x = (.write byte, .done true busy rxr)

def HasRefused (log : List Exchange) : Prop := ∃ x ∈ log, x.Refused

/-- Whether an address byte was acknowledged. -/
def Exchange.startAck : Exchange → Option Bool
  | (.start _, .done noack _ _) => some !noack
  | _ => none

def startAcks (log : List Exchange) : List Bool := log.filterMap Exchange.startAck

/-- The last six address bytes were not acknowledged. -/
def GaveUp (log : List Exchange) : Prop := ∃ before, startAcks log = before ++ List.replicate 6 false

/-- What an exchange does on the bus when it is acknowledged. -/
inductive Effect
  | addressed (addr : BitVec 8)
  | wrote (byte : BitVec 8)
  | got (byte : BitVec 8)
deriving DecidableEq

def Exchange.effect : Exchange → Option Effect
  | (.start addr, .done false _ _) => some (.addressed addr)
  | (.write byte, .done false _ _) => some (.wrote byte)
  | (.read _, .done _ _ rxr) => some (.got rxr)
  | _ => none

def effects (log : List Exchange) : List Effect := log.filterMap Exchange.effect

/-- A message is transferred by the acknowledgement of its address, and of every byte that it writes
or by a byte received for every one that it reads. -/
def Msg.effects (m : Msg) : List Effect :=
  .addressed m.addrByte :: m.buf.map (if m.rd then .got else .wrote)

section Logs
variable {a b : List Exchange} {x : Exchange}

@[simp] theorem hasTimeout_nil : ¬HasTimeout [] := by simp [HasTimeout]

@[simp] theorem hasTimeout_append : HasTimeout (a ++ b) ↔ HasTimeout a ∨ HasTimeout b := by
  simp [HasTimeout, or_and_right, exists_or]

@[simp] theorem hasTimeout_cons : HasTimeout (x :: a) ↔ x.2 = .timeout ∨ HasTimeout a := by
  simp [HasTimeout]

@[simp] theorem hasRefused_nil : ¬HasRefused [] := by simp [HasRefused]

@[simp] theorem hasRefused_append : HasRefused (a ++ b) ↔ HasRefused a ∨ HasRefused b := by
  simp [HasRefused, or_and_right, exists_or]

@[simp] theorem hasRefused_cons : HasRefused (x :: a) ↔ x.Refused ∨ HasRefused a := by
  simp [HasRefused]

@[simp] theorem startAcks_nil : startAcks [] = [] := rfl

@[simp] theorem startAcks_append : startAcks (a ++ b) = startAcks a ++ startAcks b :=
  List.filterMap_append

@[simp] theorem startAcks_cons : startAcks (x :: a) = x.startAck.toList ++ startAcks a := by
  cases h : x.startAck <;> simp [startAcks, h]

@[simp] theorem effects_nil : effects [] = [] := rfl

@[simp] theorem effects_append : effects (a ++ b) = effects a ++ effects b := List.filterMap_append

@[simp] theorem effects_cons : effects (x :: a) = x.effect.toList ++ effects a := by
  cases h : x.effect <;> simp [effects, h]

/-- Before an acknowledged address nothing was given up. -/
theorem gaveUp_append {before : List Bool} (ha : startAcks a = before ++ [true]) :
    GaveUp (a ++ b) ↔ GaveUp b := by
  simp only [GaveUp, startAcks_append, ha]
  constructor
  · rintro ⟨front, h⟩
    rw [List.append_assoc, List.singleton_append] at h
    rcases List.append_eq_append_iff.mp h with ⟨rest, -, hrest⟩ | ⟨rest, -, hrest⟩
    · cases rest with
      | nil => cases hrest
      | cons r rest => exact ⟨rest, (List.cons.inj hrest).2⟩
    · have : true ∈ List.replicate 6 false := by
        rw [hrest]
        simp
      simp at this
  · rintro ⟨front, h⟩
    exact ⟨before ++ [true] ++ front, by rw [h, List.append_assoc (before ++ [true])]⟩

/-- A log without addresses gave nothing up. -/
theorem not_gaveUp_of_nil (h : startAcks a = []) : ¬GaveUp a := by
  rintro ⟨before, hb⟩
  rw [h] at hb
  simpa using congrArg List.length hb

end Logs

/-! ### One function at a time -/

section Functions
variable {s s' : Bus} {ret : ℤ}

theorem of_issue {c : Command} {r : Response} (h : s.issue c = some (r, s')) :
    s'.log = s.log ++ [(c, r)] := by
  unfold Bus.issue at h
  split at h
  · cases h
  · cases h
    rfl

/-- A return value of -1 after an answer that stayed out, and only then. -/
def Fails (ret : ℤ) (seg : List Exchange) : Prop := HasTimeout seg ∧ ret = -1

/-- What a stop adds to the log says nothing of addresses and bytes. -/
structure Quiet (seg : List Exchange) : Prop where
  refused : ¬HasRefused seg
  startAcks : startAcks seg = []
  effects : effects seg = []

theorem Quiet.cons_stop {r : Response} {seg : List Exchange} (h : Quiet seg) :
    Quiet ((.stop, r) :: seg) :=
  ⟨by simp [Exchange.Refused, h.refused], by simp [Exchange.startAck, h.startAcks],
    by simp [Exchange.effect, h.effects]⟩

theorem quiet_nil : Quiet [] := ⟨hasRefused_nil, rfl, rfl⟩

theorem i2cStop_log (h : i2cStop s = some (ret, s')) : ∃ seg, s'.log = s.log ++ seg ∧ Quiet seg ∧
    (Fails ret seg ∨ ¬HasTimeout seg ∧ ret = 0) := by
  unfold i2cStop at h
  generalize s.log = log at h ⊢
  generalize s.responses = rs at h
  induction rs generalizing log with
  | nil => cases h
  | cons r rs ih =>
    cases r with
    | timeout =>
      cases h
      exact ⟨_, rfl, quiet_nil.cons_stop, .inl ⟨by simp, rfl⟩⟩
    | done noack busy rxr =>
      cases busy with
      | false =>
        cases h
        exact ⟨_, rfl, quiet_nil.cons_stop, .inr ⟨by simp, rfl⟩⟩
      | true =>
        obtain ⟨seg, hlog, hquiet, hret⟩ := ih _ h
        refine ⟨_, hlog.trans (List.append_assoc _ _ _), hquiet.cons_stop, ?_⟩
        simpa [Fails] using hret

/-- How a try to address a message goes. -/
inductive Tried (addr : BitVec 8) (seg : List Exchange) : Option ℤ → Prop
  | failed (h : HasTimeout seg) : Tried addr seg (some (-1))
  | addressed (h : ¬HasTimeout seg) (heffects : effects seg = [.addressed addr])
      (hacks : startAcks seg = [true]) : Tried addr seg (some 1)
  | refused (h : ¬HasTimeout seg) (heffects : effects seg = []) (hacks : startAcks seg = [false]) :
      Tried addr seg none

theorem startOnce_log {addr : BitVec 8} {ret : Option ℤ} (h : startOnce addr s = some (ret, s')) :
    ∃ seg, s'.log = s.log ++ seg ∧ ¬HasRefused seg ∧ Tried addr seg ret := by
  obtain ⟨⟨r, s₁⟩, hissue, h⟩ := Option.bind_eq_some_iff.mp h
  have hlog := of_issue hissue
  cases r with
  | timeout =>
    cases h
    exact ⟨_, hlog, by simp [Exchange.Refused], .failed (by simp)⟩
  | done noack busy rxr =>
    cases noack with
    | false =>
      cases h
      exact ⟨_, hlog, by simp [Exchange.Refused],
        .addressed (by simp) (by simp [Exchange.effect]) (by simp [Exchange.startAck])⟩
    | true =>
      obtain ⟨⟨stopped, s₂⟩, hstop, h⟩ := Option.bind_eq_some_iff.mp h
      obtain ⟨seg, hlog', hquiet, hret⟩ := i2cStop_log hstop
      cases h
      refine ⟨_, by rw [hlog', hlog, List.append_assoc], by simp [Exchange.Refused, hquiet.refused], ?_⟩
      rcases hret with ⟨htime, rfl⟩ | ⟨htime, rfl⟩
      · exact .failed (by simp [htime])
      · exact .refused (by simp [htime]) (by simp [Exchange.effect, hquiet.effects])
          (by simp [Exchange.startAck, hquiet.startAcks])

/-- What the loop returns. -/
inductive Started (addr : BitVec 8) (retry : ℕ) (seg : List Exchange) : ℤ → Prop
  | failed (h : HasTimeout seg) : Started addr retry seg (-1)
  | addressed (before : List Bool) (h : ¬HasTimeout seg) (heffects : effects seg = [.addressed addr])
      (hacks : startAcks seg = before ++ [true]) : Started addr retry seg 1
  | refused (h : ¬HasTimeout seg) (hacks : startAcks seg = List.replicate (retry + 1) false) :
      Started addr retry seg 0

theorem startLoop_log {addr : BitVec 8} {retry : ℕ} (h : startLoop addr retry s = some (ret, s')) :
    ∃ seg, s'.log = s.log ++ seg ∧ ¬HasRefused seg ∧ Started addr retry seg ret := by
  induction retry generalizing s with
  | zero =>
    obtain ⟨⟨r, s₁⟩, honce, h⟩ := Option.bind_eq_some_iff.mp h
    obtain ⟨seg, hlog, hno, htried⟩ := startOnce_log honce
    cases h
    refine ⟨seg, hlog, hno, ?_⟩
    cases htried with
    | failed htime => exact .failed htime
    | addressed htime heffects hacks => exact .addressed [] htime heffects hacks
    | refused htime heffects hacks => exact .refused htime hacks
  | succ retry ih =>
    obtain ⟨⟨r, s₁⟩, honce, h⟩ := Option.bind_eq_some_iff.mp h
    obtain ⟨seg, hlog, hno, htried⟩ := startOnce_log honce
    cases htried with
    | failed htime =>
      cases h
      exact ⟨seg, hlog, hno, .failed htime⟩
    | addressed htime heffects hacks =>
      cases h
      exact ⟨seg, hlog, hno, .addressed [] htime heffects hacks⟩
    | refused htime heffects hacks =>
      obtain ⟨rest, hlog', hno', hstarted⟩ := ih h
      refine ⟨seg ++ rest, by rw [hlog', hlog, List.append_assoc], by simp [hno, hno'], ?_⟩
      cases hstarted with
      | failed htime' => exact .failed (by simp [htime'])
      | addressed before htime' heffects' hacks' =>
        exact .addressed (false :: before) (by simp [htime, htime']) (by simp [heffects, heffects'])
          (by simp [hacks, hacks'])
      | refused htime' hacks' =>
        refine .refused (by simp [htime, htime']) ?_
        rw [startAcks_append, hacks, hacks', List.replicate_succ (n := retry + 1)]
        rfl

theorem i2cRead_log {buf buf' : List (BitVec 8)} {i : ℕ} (h : i2cRead buf i s = some (ret, buf', s')) :
    ∃ seg, s'.log = s.log ++ seg ∧ ¬HasRefused seg ∧ startAcks seg = [] ∧
      (Fails ret seg ∨
        ¬HasTimeout seg ∧ ret = i + buf.length ∧ effects seg = buf'.map .got) := by
  induction buf generalizing i s buf' with
  | nil =>
    cases h
    exact ⟨[], by simp, by simp, rfl, .inr ⟨by simp, by simp, rfl⟩⟩
  | cons b buf ih =>
    obtain ⟨⟨r, s₁⟩, hissue, h⟩ := Option.bind_eq_some_iff.mp h
    have hlog := of_issue hissue
    cases r with
    | timeout =>
      cases h
      exact ⟨_, hlog, by simp [Exchange.Refused], by simp [Exchange.startAck], .inl ⟨by simp, rfl⟩⟩
    | done noack busy rxr =>
      obtain ⟨⟨ret', buf'', s₂⟩, hread, h⟩ := Option.bind_eq_some_iff.mp h
      cases h
      obtain ⟨seg, hlog', hno, hacks, hret⟩ := ih hread
      refine ⟨_, by rw [hlog', hlog, List.append_assoc], by simp [Exchange.Refused, hno],
        by simp [Exchange.startAck, hacks], ?_⟩
      rcases hret with ⟨htime, hret⟩ | ⟨htime, hret, heffects⟩
      · exact .inl ⟨by simp [htime], hret⟩
      · refine .inr ⟨by simp [htime], ?_, by simp [Exchange.effect, heffects]⟩
        rw [hret, List.length_cons]
        push_cast
        omega

/-- What the writes of a message return: 0 as well if a byte was refused. -/
inductive Written (buf : List (BitVec 8)) (i : ℕ) (seg : List Exchange) : ℤ → Prop
  | failed (h : HasTimeout seg) : Written buf i seg (-1)
  | all (h : ¬HasTimeout seg) (hno : ¬HasRefused seg) (heffects : effects seg = buf.map .wrote) :
      Written buf i seg (i + buf.length)
  | refused (h : ¬HasTimeout seg) (hrefused : HasRefused seg)
      (hless : (effects seg).length < buf.length) : Written buf i seg 0

theorem i2cWrite_log {buf : List (BitVec 8)} {i : ℕ} (h : i2cWrite buf i s = some (ret, s')) :
    ∃ seg, s'.log = s.log ++ seg ∧ startAcks seg = [] ∧ Written buf i seg ret := by
  induction buf generalizing i s with
  | nil =>
    cases h
    refine ⟨[], by simp, rfl, ?_⟩
    have hall : Written [] i [] (i + ([] : List (BitVec 8)).length) :=
      .all hasTimeout_nil hasRefused_nil rfl
    simpa using hall
  | cons b buf ih =>
    obtain ⟨⟨r, s₁⟩, hissue, h⟩ := Option.bind_eq_some_iff.mp h
    have hlog := of_issue hissue
    cases r with
    | timeout =>
      cases h
      exact ⟨_, hlog, by simp [Exchange.startAck], .failed (by simp)⟩
    | done noack busy rxr =>
      cases noack with
      | true =>
        obtain ⟨⟨stopped, s₂⟩, hstop, h⟩ := Option.bind_eq_some_iff.mp h
        obtain ⟨seg, hlog', hquiet, hret⟩ := i2cStop_log hstop
        cases h
        refine ⟨_, by rw [hlog', hlog, List.append_assoc],
          by simp [Exchange.startAck, hquiet.startAcks], ?_⟩
        rcases hret with ⟨htime, rfl⟩ | ⟨htime, rfl⟩
        · exact .failed (by simp [htime])
        · exact .refused (by simp [htime]) (by simp [Exchange.Refused])
            (by simp [Exchange.effect, hquiet.effects])
      | false =>
        obtain ⟨seg, hlog', hacks, hwritten⟩ := ih h
        refine ⟨_, by rw [hlog', hlog, List.append_assoc], by simp [Exchange.startAck, hacks], ?_⟩
        cases hwritten with
        | failed htime => exact .failed (by simp [htime])
        | all htime hno heffects =>
          have hall : Written (b :: buf) i ([(.write b, .done false busy rxr)] ++ seg)
              (i + (b :: buf).length) :=
            .all (by simp [htime]) (by simp [Exchange.Refused, hno])
              (by simp [Exchange.effect, heffects])
          have hcount : ((i + 1 : ℕ) : ℤ) + buf.length = i + (b :: buf).length := by
            rw [List.length_cons]
            push_cast
            omega
          rw [hcount]
          exact hall
        | refused htime hrefused hless =>
          exact .refused (by simp [htime]) (by simp [hrefused]) (by simp [Exchange.effect, hless])

/-- A message afterwards: only the bytes of one that reads may have changed. -/
structure Msg.Updated (m m' : Msg) : Prop where
  addr : m'.addr = m.addr
  rd : m'.rd = m.rd
  length : m'.buf.length = m.buf.length
  kept : m.rd = false → m'.buf = m.buf

theorem Msg.Updated.refl (m : Msg) : m.Updated m := ⟨rfl, rfl, rfl, fun _ => rfl⟩

theorem Msg.Updated.addrByte {m m' : Msg} (h : m.Updated m') : m'.addrByte = m.addrByte := by
  unfold Msg.addrByte
  rw [h.addr, h.rd]

/-- What the bytes of a message return. -/
inductive Moved (m : Msg) (seg : List Exchange) : ℤ → Prop
  | failed (h : HasTimeout seg) : Moved m seg (-1)
  | all (n : ℕ) (h : ¬HasTimeout seg) (hno : ¬HasRefused seg)
      (heffects : effects seg = m.buf.map (if m.rd then .got else .wrote)) : Moved m seg n
  | refused (h : ¬HasTimeout seg) (hrefused : HasRefused seg)
      (hless : (effects seg).length < m.buf.length) : Moved m seg 0

theorem i2cRead_length {buf buf' : List (BitVec 8)} {i : ℕ}
    (h : i2cRead buf i s = some (ret, buf', s')) : buf'.length = buf.length := by
  induction buf generalizing i s buf' with
  | nil =>
    cases h
    rfl
  | cons b buf ih =>
    obtain ⟨⟨r, s₁⟩, -, h⟩ := Option.bind_eq_some_iff.mp h
    cases r with
    | timeout =>
      cases h
      rfl
    | done noack busy rxr =>
      obtain ⟨⟨ret', buf'', s₂⟩, hread, h⟩ := Option.bind_eq_some_iff.mp h
      cases h
      rw [List.length_cons, List.length_cons, ih hread]

theorem transfer_log {m m' : Msg} (h : transfer m s = some (ret, m', s')) :
    ∃ seg, s'.log = s.log ++ seg ∧ startAcks seg = [] ∧ m.Updated m' ∧ Moved m' seg ret := by
  unfold transfer at h
  by_cases hrd : m.rd
  · rw [if_pos hrd] at h
    obtain ⟨⟨ret', buf, s₁⟩, hread, h⟩ := Option.bind_eq_some_iff.mp h
    cases h
    obtain ⟨seg, hlog, hno, hacks, hret⟩ := i2cRead_log hread
    refine ⟨seg, hlog, hacks, ⟨rfl, rfl, i2cRead_length hread, by simp [hrd]⟩, ?_⟩
    rcases hret with ⟨htime, rfl⟩ | ⟨htime, rfl, heffects⟩
    · exact .failed htime
    · have hmoved := Moved.all (m := { m with buf := buf }) (0 + m.buf.length) htime hno (by simp [heffects, hrd])
      exact_mod_cast hmoved
  · rw [if_neg hrd] at h
    obtain ⟨⟨ret', s₁⟩, hwrite, h⟩ := Option.bind_eq_some_iff.mp h
    cases h
    obtain ⟨seg, hlog, hacks, hwritten⟩ := i2cWrite_log hwrite
    refine ⟨seg, hlog, hacks, .refl m, ?_⟩
    cases hwritten with
    | failed htime => exact .failed htime
    | all htime hno heffects =>
      have hmoved := Moved.all (m := m) (0 + m.buf.length) htime hno (by simp [heffects, hrd])
      exact_mod_cast hmoved
    | refused htime hrefused hless => exact .refused htime hrefused hless

/-- What the messages return: their number as well if a written byte was refused. -/
inductive Ran (ms ms' : List Msg) (i : ℕ) (seg : List Exchange) : ℤ → Prop
  | failed (h : HasTimeout seg) : Ran ms ms' i seg (-1)
  | gaveUp (h : ¬HasTimeout seg) (hgave : GaveUp seg) (hne : ms ≠ []) : Ran ms ms' i seg 0
  | all (h : ¬HasTimeout seg) (hgave : ¬GaveUp seg) (hno : ¬HasRefused seg)
      (heffects : effects seg = ms'.flatMap Msg.effects) : Ran ms ms' i seg (i + ms.length)
  | refused (h : ¬HasTimeout seg) (hgave : ¬GaveUp seg) (hrefused : HasRefused seg)
      (hless : (effects seg).length < (ms'.flatMap Msg.effects).length) :
      Ran ms ms' i seg (i + ms.length)

/-- A message that is acknowledged, then its bytes and a stop, then the others. -/
theorem Ran.cons {m m' : Msg} {ms ms' : List Msg} {i : ℕ} {start bytes stop rest : List Exchange}
    {before : List Bool} (hm : m.Updated m') (hstart : ¬HasTimeout start) (hno : ¬HasRefused start)
    (haddr : Gsgpu.I2c.effects start = [.addressed m.addrByte])
    (hacks : startAcks start = before ++ [true]) {n : ℤ} (hmoved : Moved m' bytes n) (hn : 0 ≤ n)
    (hbytes : startAcks bytes = []) (hquiet : Quiet stop) (hstop : ¬HasTimeout stop)
    (h : Ran ms ms' (i + 1) rest ret) :
    Ran (m :: ms) (m' :: ms') i (start ++ bytes ++ stop ++ rest) ret := by
  have hgave : GaveUp (start ++ bytes ++ stop ++ rest) ↔ GaveUp rest := by
    have hends : startAcks (start ++ bytes ++ stop) = before ++ [true] := by
      simp [hacks, hbytes, hquiet.startAcks]
    exact gaveUp_append hends
  have hcount : ((i + 1 : ℕ) : ℤ) + ms.length = i + (m :: ms).length := by
    rw [List.length_cons]
    push_cast
    omega
  have hsum : effects (start ++ bytes ++ stop ++ rest) =
      .addressed m'.addrByte :: (effects bytes ++ effects rest) := by
    simp [haddr, hquiet.effects, hm.addrByte]
  have hlist : (m' :: ms').flatMap Msg.effects =
      .addressed m'.addrByte ::
        (m'.buf.map (if m'.rd then .got else .wrote) ++ ms'.flatMap Msg.effects) := by
    simp [Msg.effects]
  have hlen : ((m' :: ms').flatMap Msg.effects).length =
      m'.buf.length + (ms'.flatMap Msg.effects).length + 1 := by
    rw [hlist]
    simp
  have hsumlen : (effects (start ++ bytes ++ stop ++ rest)).length =
      (effects bytes).length + (effects rest).length + 1 := by
    rw [hsum]
    simp
  cases hmoved with
  | failed _ => exact absurd hn (by decide)
  | all n htime hno' heffects =>
    have hlen' : (effects bytes).length = m'.buf.length := by
      rw [heffects, List.length_map]
    cases h with
    | failed h => exact .failed (by simp [h])
    | gaveUp h hg _ => exact .gaveUp (by simp [hstart, htime, hstop, h]) (hgave.mpr hg) (by simp)
    | all h hg hr he =>
      exact hcount ▸ .all (by simp [hstart, htime, hstop, h]) (mt hgave.mp hg)
        (by simp [hno, hno', hquiet.refused, hr]) (by rw [hsum, hlist, heffects, he])
    | refused h hg hr he =>
      exact hcount ▸ .refused (by simp [hstart, htime, hstop, h]) (mt hgave.mp hg) (by simp [hr])
        (by omega)
  | refused htime hrefused hless =>
    cases h with
    | failed h => exact .failed (by simp [h])
    | gaveUp h hg _ => exact .gaveUp (by simp [hstart, htime, hstop, h]) (hgave.mpr hg) (by simp)
    | all h hg hr he =>
      have : (effects rest).length = (ms'.flatMap Msg.effects).length := by rw [he]
      exact hcount ▸ .refused (by simp [hstart, htime, hstop, h]) (mt hgave.mp hg)
        (by simp [hrefused]) (by omega)
    | refused h hg hr he =>
      exact hcount ▸ .refused (by simp [hstart, htime, hstop, h]) (mt hgave.mp hg)
        (by simp [hrefused]) (by omega)

theorem doxferLoop_log {ms ms' : List Msg} {i : ℕ} (h : doxferLoop ms i s = some (ret, ms', s')) :
    ∃ seg, s'.log = s.log ++ seg ∧ List.Forall₂ Msg.Updated ms ms' ∧ Ran ms ms' i seg ret := by
  induction ms generalizing i s ms' with
  | nil =>
    obtain ⟨⟨stopped, s₁⟩, hstop, h⟩ := Option.bind_eq_some_iff.mp h
    obtain ⟨seg, hlog, hquiet, hret⟩ := i2cStop_log hstop
    cases h
    refine ⟨seg, hlog, .nil, ?_⟩
    rcases hret with ⟨htime, rfl⟩ | ⟨htime, rfl⟩
    · exact .failed htime
    · have hall : Ran [] [] i seg (i + ([] : List Msg).length) :=
        .all htime (not_gaveUp_of_nil hquiet.startAcks) hquiet.refused (by simp [hquiet.effects])
      simpa using hall
  | cons m ms ih =>
    obtain ⟨⟨ret₁, s₁⟩, hstart, h⟩ := Option.bind_eq_some_iff.mp h
    obtain ⟨start, hlog₁, hno₁, hstarted⟩ := startLoop_log hstart
    have hsame : List.Forall₂ Msg.Updated (m :: ms) (m :: ms) :=
      List.forall₂_same.mpr fun m _ => .refl m
    cases hstarted with
    | failed htime =>
      cases h
      exact ⟨start, hlog₁, hsame, .failed htime⟩
    | refused htime hacks =>
      cases h
      exact ⟨start, hlog₁, hsame, .gaveUp htime ⟨[], hacks⟩ (by simp)⟩
    | addressed before htime₁ haddr hacks =>
      obtain ⟨⟨ret₂, m', s₂⟩, hmove, h⟩ := Option.bind_eq_some_iff.mp h
      obtain ⟨bytes, hlog₂, hbytes, hupdated, hmoved⟩ := transfer_log hmove
      have hrest : List.Forall₂ Msg.Updated (m :: ms) (m' :: ms) :=
        .cons hupdated (List.forall₂_same.mpr fun m _ => .refl m)
      dsimp only at h
      by_cases hneg : ret₂ < 0
      · rw [if_pos hneg] at h
        cases h
        refine ⟨start ++ bytes, by rw [hlog₂, hlog₁, List.append_assoc], hrest, ?_⟩
        cases hmoved with
        | failed htime => exact .failed (by simp [htime])
        | all n _ _ _ => omega
        | refused _ _ _ => exact absurd hneg (by decide)
      · rw [if_neg hneg] at h
        obtain ⟨⟨stopped, s₃⟩, hstop, h⟩ := Option.bind_eq_some_iff.mp h
        obtain ⟨stop, hlog₃, hquiet, hret⟩ := i2cStop_log hstop
        rcases hret with ⟨htime, rfl⟩ | ⟨htime, rfl⟩
        · cases h
          exact ⟨start ++ bytes ++ stop, by simp only [hlog₃, hlog₂, hlog₁, List.append_assoc], hrest,
            .failed (by simp [htime])⟩
        · obtain ⟨⟨ret₃, ms₃, s₄⟩, hloop, h⟩ := Option.bind_eq_some_iff.mp h
          cases h
          obtain ⟨rest, hlog₄, hall, hran⟩ := ih hloop
          dsimp only at hlog₄
          exact ⟨start ++ bytes ++ stop ++ rest,
            by simp only [hlog₄, hlog₃, hlog₂, hlog₁, List.append_assoc], .cons hupdated hall,
            .cons hupdated htime₁ hno₁ haddr hacks hmoved (Int.not_lt.mp hneg) hbytes hquiet htime hran⟩

end Functions

/-! ### Whole transfers -/

/-- The return value is the number of messages, and all of them were transferred in order, or it is
an error. -/
def Truthful (ms ms' : List Msg) (ret : ℤ) (log : List Exchange) : Prop :=
  ret = ms.length ∧ List.Forall₂ Msg.Updated ms ms' ∧ effects log = ms'.flatMap Msg.effects ∨ ret < 0

section Xfer
variable {ms ms' : List Msg} {s s' : Bus} {ret : ℤ} {retries : ℕ}

/-- The error that is worth another try is never returned. -/
theorem Ran.ne_eagain {i : ℕ} {seg : List Exchange} (h : Ran ms ms' i seg ret) : ret ≠ -eagain := by
  have he : eagain = 11 := rfl
  cases h with
  | failed h => omega
  | gaveUp h hgave hne => omega
  | all h hgave hno heffects => omega
  | refused h hgave hrefused hless => omega

theorem dcI2cXfer_cases (h : dcI2cXfer retries ms s = some (ret, ms', s')) :
    retries = 0 ∧ ret = -eremoteio ∧ s' = s ∨
      ∃ seg, s'.log = s.log ++ seg ∧ List.Forall₂ Msg.Updated ms ms' ∧ Ran ms ms' 0 seg ret := by
  cases retries with
  | zero =>
    cases h
    exact .inl ⟨rfl, rfl, rfl⟩
  | succ retries =>
    obtain ⟨⟨ret₁, ms₁, s₁⟩, hdo, h⟩ := Option.bind_eq_some_iff.mp h
    obtain ⟨seg, hlog, hall, hran⟩ := doxferLoop_log hdo
    dsimp only at h
    rw [if_pos hran.ne_eagain] at h
    cases h
    exact .inr ⟨seg, hlog, hall, hran⟩

theorem Ran.truthful_iff {seg : List Exchange} (hall : List.Forall₂ Msg.Updated ms ms')
    (h : Ran ms ms' 0 seg ret) :
    Truthful ms ms' ret seg ↔ HasTimeout seg ∨ ¬GaveUp seg ∧ ¬HasRefused seg := by
  unfold Truthful
  cases h with
  | failed h => exact ⟨fun _ => .inl h, fun _ => .inr (by decide)⟩
  | gaveUp h hgave hne =>
    constructor
    · rintro (⟨hret, -⟩ | hret)
      · have hlen := List.length_pos_iff.mpr hne
        omega
      · omega
    · rintro (htime | ⟨hno, -⟩)
      · exact absurd htime h
      · exact absurd hgave hno
  | all h hgave hno heffects =>
    exact ⟨fun _ => .inr ⟨hgave, hno⟩, fun _ => .inl ⟨by simp, hall, heffects⟩⟩
  | refused h hgave hrefused hless =>
    constructor
    · rintro (⟨-, -, heffects⟩ | hret)
      · rw [heffects] at hless
        omega
      · omega
    · rintro (htime | ⟨-, hno⟩)
      · exact absurd htime h
      · exact absurd hrefused hno

/-- A transfer that ends tells the truth exactly when an answer stayed out, or no message was given
up for its address and no written byte was refused. -/
theorem dcI2cXfer_truthful_iff (retries : ℕ) (responses : List Response)
    (h : dcI2cXfer retries ms ⟨responses, []⟩ = some (ret, ms', s')) :
    Truthful ms ms' ret s'.log ↔ HasTimeout s'.log ∨ ¬GaveUp s'.log ∧ ¬HasRefused s'.log := by
  rcases dcI2cXfer_cases h with ⟨-, rfl, rfl⟩ | ⟨seg, hlog, hall, hran⟩
  · have hnone : ¬GaveUp [] := not_gaveUp_of_nil rfl
    exact ⟨fun _ => .inr ⟨hnone, hasRefused_nil⟩, fun _ => .inr (by decide)⟩
  · rw [List.nil_append] at hlog
    rw [hlog]
    exact hran.truthful_iff hall

end Xfer

/-- A byte is written to the EDID's address, and one is read. -/
def edidRead : List Msg := [⟨0x50, false, [0]⟩, ⟨0x50, true, [0]⟩]

/-- The controller is ready after every command, and everything is acknowledged but the byte of the
first message. -/
def offsetRefused : List Response :=
  [.done false false 0, .done true false 0, .done false false 0, .done false false 0,
    .done false false 0, .done false false 7, .done false false 0, .done false false 0]

/-- The refused byte goes unnoticed, and what is read counts. -/
theorem offsetRefused_untruthful :
    ∃ s', dcI2cXfer 5 edidRead ⟨offsetRefused, []⟩ =
        some (2, [⟨0x50, false, [0]⟩, ⟨0x50, true, [7]⟩], s') ∧
      ¬Truthful edidRead [⟨0x50, false, [0]⟩, ⟨0x50, true, [7]⟩] 2 s'.log := by
  refine ⟨_, rfl, ?_⟩
  rintro (⟨-, -, heffects⟩ | hret)
  · exact absurd heffects (by decide)
  · exact absurd hret (by decide)

/-- Everything is acknowledged. -/
def allAcknowledged : List Response :=
  [.done false false 0, .done false false 0, .done false false 0, .done false false 0,
    .done false false 7, .done false false 0, .done false false 0]

theorem dcI2cXfer_truthful_all : ∃ s' : Bus,
    dcI2cXfer 5 edidRead ⟨allAcknowledged, []⟩ =
        some (2, [⟨0x50, false, [0]⟩, ⟨0x50, true, [7]⟩], s') ∧
      (Truthful edidRead [⟨0x50, false, [0]⟩, ⟨0x50, true, [7]⟩] 2 s'.log ↔
        HasTimeout s'.log ∨ ¬GaveUp s'.log ∧ ¬HasRefused s'.log) :=
  ⟨_, rfl, dcI2cXfer_truthful_iff 5 allAcknowledged rfl⟩

end Gsgpu.I2c
