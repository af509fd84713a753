import Gsgpu.Sync.Object
import Gsgpu.Lib.Run
import Mathlib.Data.List.Induction

/-! What a sync object waits for, over all interleavings of additions, signaling and takers. The
entry of a context is the latest fence added to it since it was last removed; a fence is never
forgotten before it has signaled, unless a later one of its context was given away. -/
namespace Gsgpu.SyncObject

open Buckets

section Order

-- `base` is a sequence number of each context that its fences are counted from
variable (base : ℕ → UInt32)

/-- How far a fence is from the base of its context. -/
def rank (f : DmaFence) : ℕ := (f.seqno - base f.context).toNat

/-- The fences of a context stay within half of the range of sequence numbers. -/
def InWindow (f : DmaFence) : Prop := rank base f < 2 ^ 31

variable {base}

/-- Within a window the cyclic comparison is an order. -/
theorem isLater_iff {f g : DmaFence} (hf : InWindow base f) (hg : InWindow base g)
    (hctx : f.context = g.context) : f.isLater g = true ↔ rank base g < rank base f := by
  unfold InWindow rank at *
  rw [← hctx] at hg ⊢
  simp only [DmaFence.isLater, hctx, decide_true, Bool.true_and, Bool.and_eq_true,
    decide_eq_true_eq, UInt32.toNat_sub] at *
  have := f.seqno.toNat_lt
  have := g.seqno.toNat_lt
  have := (base f.context).toNat_lt
  omega

/-- The rank identifies a fence of a context. -/
theorem eq_of_rank {f g : DmaFence} (hctx : f.context = g.context)
    (h : rank base f = rank base g) : f = g := by
  have hseq : f.seqno = g.seqno := by
    rw [rank, rank, hctx] at h
    have := f.seqno.toNat_lt
    have := g.seqno.toNat_lt
    have := (base g.context).toNat_lt
    rw [UInt32.toNat_sub, UInt32.toNat_sub] at h
    apply UInt32.toNat_inj.mp
    omega
  cases f
  cases g
  simp_all

theorem keepLater_cases {k f : DmaFence} (hk : InWindow base k) (hf : InWindow base f)
    (hctx : k.context = f.context) :
    Sync.keepLater (some k) f = k ∧ rank base f < rank base k ∨
      Sync.keepLater (some k) f = f ∧ rank base k ≤ rank base f := by
  simp only [Sync.keepLater]
  split
  · next hlater => exact .inl ⟨rfl, (isLater_iff hk hf hctx).mp hlater⟩
  · next hnot => exact .inr ⟨rfl, not_lt.mp fun hlt => hnot ((isLater_iff hk hf hctx).mpr hlt)⟩

/-- An entry is the latest of some additions, with all their flags. -/
structure Latest (base : ℕ → UInt32) (adds : List (DmaFence × Bool)) (e : SyncEntry) : Prop where
  mem : ∃ a ∈ adds, a.1 = e.fence
  max : ∀ a ∈ adds, rank base a.1 ≤ rank base e.fence
  explicit : e.explicit = adds.any Prod.snd

theorem Latest.single (f : DmaFence) (explicit : Bool) :
    Latest base [(f, explicit)] (Sync.merge f explicit none) :=
  ⟨⟨_, List.mem_singleton_self _, rfl⟩, by simp [Sync.merge], by simp [Sync.merge]⟩

theorem Latest.merge {adds : List (DmaFence × Bool)} {e : SyncEntry} (h : Latest base adds e)
    {f : DmaFence} (hctx : e.fence.context = f.context) (he : InWindow base e.fence)
    (hf : InWindow base f) (explicit : Bool) :
    Latest base (adds ++ [(f, explicit)]) (Sync.merge f explicit (some e)) := by
  have hflag : (Sync.merge f explicit (some e)).explicit = (adds ++ [(f, explicit)]).any Prod.snd := by
    simp [Sync.merge, h.explicit]
  rcases keepLater_cases he hf hctx with ⟨hkeep, hlt⟩ | ⟨hkeep, hle⟩
  · refine ⟨?_, ?_, hflag⟩
    · obtain ⟨a, ha, heq⟩ := h.mem
      exact ⟨a, List.mem_append_left _ ha, by rw [heq]; exact hkeep.symm⟩
    · intro a ha
      simp only [Sync.merge, hkeep]
      rcases List.mem_append.mp ha with hin | hin
      · exact h.max a hin
      · rw [List.mem_singleton.mp hin]
        exact hlt.le
  · refine ⟨⟨_, List.mem_append_right _ (List.mem_singleton_self _), hkeep.symm⟩, ?_, hflag⟩
    intro a ha
    simp only [Sync.merge, hkeep]
    rcases List.mem_append.mp ha with hin | hin
    · exact le_trans (h.max a hin) hle
    · rw [List.mem_singleton.mp hin]

/-- The latest of some additions does not depend on their order. -/
theorem Latest.perm {adds adds' : List (DmaFence × Bool)} {e e' : SyncEntry}
    (h : Latest base adds e) (h' : Latest base adds' e') (hperm : adds.Perm adds')
    (hctx : ∀ a ∈ adds, ∀ b ∈ adds, a.1.context = b.1.context) : e = e' := by
  obtain ⟨a, ha, hae⟩ := h.mem
  obtain ⟨a', ha', hae'⟩ := h'.mem
  have hfence : e.fence = e'.fence := by
    apply eq_of_rank
    · rw [← hae, ← hae']
      exact hctx a ha a' (hperm.mem_iff.mpr ha')
    · apply le_antisymm
      · rw [← hae]
        exact h'.max a (hperm.mem_iff.mp ha)
      · rw [← hae']
        exact h.max a' (hperm.mem_iff.mpr ha')
  have hflag : e.explicit = e'.explicit := by
    rw [h.explicit, h'.explicit, Bool.eq_iff_iff, List.any_eq_true, List.any_eq_true]
    simp only [hperm.mem_iff]
  cases e
  cases e'
  simp_all

end Order

/-- A sync object among its fences. What was added to the entry of a context since it was last
removed, all fences added, those that `gsgpu_sync_get_fence` gave away, and the VM updates seen,
are remembered here only. -/
structure State where
  sync : Sync
  sig : Sync.Signals
  since : ℕ → List (DmaFence × Bool)
  added : List DmaFence
  taken : List DmaFence
  updates : List DmaFence

inductive Event
  | add (f : DmaFence) (explicit allocOk : Bool)
  | signal (now : Sync.Signals)
  | peek (ring : Option ℕ)
  | get

/-- The additions that still count for the entries of a table. -/
def State.remaining (env : Env) (s : State) (sync : Sync) : ℕ → List (DmaFence × Bool) :=
  fun c => if (sync.find env c).isSome then s.since c else []

def State.step (env : Env) (adev : Option ℕ) (s : State) : Event → State
  | .add f explicit allocOk =>
    let updates := if Sync.isVmUpdate env adev f then s.updates ++ [f] else s.updates
    match Sync.syncFence env adev allocOk s.sync f explicit with
    | (.ok (), sync) =>
      { s with
        sync := sync
        since := Function.update s.since f.context (s.since f.context ++ [(f, explicit)])
        added := s.added ++ [f]
        updates := updates }
    | (.error _, sync) => { s with sync := sync, updates := updates }
  | .signal now => { s with sig := now }
  | .peek ring =>
    let r := s.sync.peekFence env s.sig ring
    { s with sync := r.2, since := s.remaining env r.2 }
  | .get =>
    let r := s.sync.getFence s.sig
    { s with
      sync := r.2
      since := s.remaining env r.2
      taken := s.taken ++ (r.1.map SyncEntry.fence).toList }

/-- The fences of a context signal in order, and stay signaled. -/
structure InOrder (base : ℕ → UInt32) (sig : Sync.Signals) : Prop where
  le : ∀ f g, InWindow base f → InWindow base g → f.context = g.context →
    rank base f ≤ rank base g → sig.signaled g = true → sig.signaled f = true

def Event.Allowed (base : ℕ → UInt32) (s : State) : Event → Prop
  | .add f _ _ => InWindow base f
  | .signal now => InOrder base now ∧ ∀ f, s.sig.signaled f = true → now.signaled f = true
  | _ => True

def State.Init (base : ℕ → UInt32) (s : State) : Prop :=
  s.sync = .create ∧ InOrder base s.sig ∧ (∀ c, s.since c = []) ∧ s.added = [] ∧ s.taken = [] ∧
    s.updates = []

def State.Reachable (env : Env) (adev : Option ℕ) (base : ℕ → UInt32) (s : State) : Prop :=
  Transition.Reach (State.Init base) (fun s e s' => s.step env adev e = s')
    (fun s e => e.Allowed base s) s

/-- The last VM update among some fences. Fences of several contexts are not compared, so then
nothing is said. -/
def LastUpdate (base : ℕ → UInt32) (updates : List DmaFence) (last : Option DmaFence) : Prop :=
  (∀ f ∈ updates, ∀ g ∈ updates, f.context = g.context) →
    match last with
    | none => updates = []
    | some f => f ∈ updates ∧ ∀ g ∈ updates, rank base g ≤ rank base f

/-- A fence is waited for, has signaled, or was covered by one that was given away. -/
def State.Covers (env : Env) (base : ℕ → UInt32) (s : State) (g : DmaFence) : Prop :=
  s.sig.signaled g = true ∨
    (∃ e, s.sync.find env g.context = some e ∧ rank base g ≤ rank base e.fence) ∨
    ∃ f ∈ s.taken, f.context = g.context ∧ rank base g ≤ rank base f

/-- What every state of a sync object has. -/
structure State.Inv (env : Env) (base : ℕ → UInt32) (s : State) : Prop where
  wf : s.sync.Wf env
  inOrder : InOrder base s.sig
  latest : ∀ c e, s.sync.find env c = some e → Latest base (s.since c) e
  since : ∀ c, s.sync.find env c = none → s.since c = []
  context : ∀ c, ∀ a ∈ s.since c, a.1.context = c ∧ InWindow base a.1
  window : ∀ g ∈ s.added, InWindow base g
  covered : ∀ g ∈ s.added, s.Covers env base g
  updatesWindow : ∀ g ∈ s.updates, InWindow base g
  lastVmUpdate : LastUpdate base s.updates s.sync.lastVmUpdate

section Steps

variable {env : Env} {adev : Option ℕ} {base : ℕ → UInt32} {s : State}

namespace State

theorem Init.inv (h : s.Init base) : s.Inv env base := by
  obtain ⟨hsync, horder, hsince, hadded, -, hupdates⟩ := h
  have hfind : ∀ c, s.sync.find env c = none := by
    intro c
    rw [hsync]
    rfl
  refine ⟨?_, horder, ?_, fun c _ => hsince c, ?_, ?_, ?_, ?_, ?_⟩
  · rw [hsync]
    exact ⟨fun i e he => (List.not_mem_nil he).elim, fun i => List.nodup_nil⟩
  · intro c e he
    simp [hfind c] at he
  · intro c a ha
    simp [hsince c] at ha
  · simp [hadded]
  · simp [hadded]
  · simp [hupdates]
  · intro _
    rw [hsync]
    exact hupdates

/-- The entry of a context is in the window. -/
theorem Inv.entry_window (h : s.Inv env base) {c : ℕ} {e : SyncEntry}
    (he : s.sync.find env c = some e) : InWindow base e.fence := by
  obtain ⟨a, ha, heq⟩ := (h.latest c e he).mem
  rw [← heq]
  exact (h.context c a ha).2

theorem LastUpdate.keepLater {updates : List DmaFence} {last : Option DmaFence}
    (h : LastUpdate base updates last) (hw : ∀ g ∈ updates, InWindow base g) {f : DmaFence}
    (hf : InWindow base f) : LastUpdate base (updates ++ [f]) (some (Sync.keepLater last f)) := by
  intro hctx
  have hold := h fun g hg g' hg' =>
    hctx g (List.mem_append_left _ hg) g' (List.mem_append_left _ hg')
  have hfmem : f ∈ updates ++ [f] := List.mem_append_right _ (List.mem_singleton_self f)
  cases last with
  | none =>
    have hnil : updates = [] := hold
    simp [hnil, Sync.keepLater]
  | some k =>
    obtain ⟨hk, hmax⟩ := hold
    have hkf := hctx k (List.mem_append_left _ hk) f hfmem
    rcases keepLater_cases (hw k hk) hf hkf with ⟨hkeep, hlt⟩ | ⟨hkeep, hle⟩
    · rw [hkeep]
      refine ⟨List.mem_append_left _ hk, fun g hg => ?_⟩
      rcases List.mem_append.mp hg with hin | hin
      · exact hmax g hin
      · rw [List.mem_singleton.mp hin]
        exact hlt.le
    · rw [hkeep]
      refine ⟨hfmem, fun g hg => ?_⟩
      rcases List.mem_append.mp hg with hin | hin
      · exact le_trans (hmax g hin) hle
      · rw [List.mem_singleton.mp hin]

/-- A new VM update is kept when it is later. -/
theorem Inv.updates_add (h : s.Inv env base) (adev : Option ℕ) {f : DmaFence}
    (hf : InWindow base f) (explicit allocOk : Bool) :
    (∀ g ∈ (if Sync.isVmUpdate env adev f then s.updates ++ [f] else s.updates),
      InWindow base g) ∧
    LastUpdate base (if Sync.isVmUpdate env adev f then s.updates ++ [f] else s.updates)
      (Sync.syncFence env adev allocOk s.sync f explicit).2.lastVmUpdate := by
  rw [Sync.syncFence_lastVmUpdate]
  split
  · refine ⟨?_, LastUpdate.keepLater h.lastVmUpdate h.updatesWindow hf⟩
    intro g hg
    rcases List.mem_append.mp hg with hin | hin
    · exact h.updatesWindow g hin
    · rw [List.mem_singleton.mp hin]
      exact hf
  · exact ⟨h.updatesWindow, h.lastVmUpdate⟩

/-- The entry of the context an addition was to. -/
private theorem Inv.merge_latest (h : s.Inv env base) {f : DmaFence} (hf : InWindow base f)
    (explicit : Bool) : Latest base (s.since f.context ++ [(f, explicit)])
      (Sync.merge f explicit (s.sync.find env f.context)) := by
  cases he : s.sync.find env f.context with
  | none =>
    rw [h.since _ he]
    exact Latest.single f explicit
  | some e =>
    exact (h.latest _ e he).merge (h.wf.find_context he) (h.entry_window he) hf explicit

/-- An addition that succeeds. -/
theorem Inv.add_ok (h : s.Inv env base) {f : DmaFence} (hf : InWindow base f)
    {explicit allocOk : Bool} {sync : Sync} {updates : List DmaFence}
    (hres : Sync.syncFence env adev allocOk s.sync f explicit = (.ok (), sync))
    (huw : ∀ g ∈ updates, InWindow base g)
    (hlast : LastUpdate base updates sync.lastVmUpdate) :
    Inv env base { s with
      sync := sync
      since := Function.update s.since f.context (s.since f.context ++ [(f, explicit)])
      added := s.added ++ [f]
      updates := updates } := by
  obtain ⟨hwf, hfind⟩ := h.wf.syncFence hres
  have hmerge := h.merge_latest hf explicit
  refine ⟨hwf, h.inOrder, ?_, ?_, ?_, ?_, ?_, huw, hlast⟩
  · intro c e he
    dsimp only at he ⊢
    rw [hfind] at he
    by_cases hc : c = f.context
    · subst hc
      rw [if_pos rfl, Option.some.injEq] at he
      rw [Function.update_self, ← he]
      exact hmerge
    · rw [if_neg hc] at he
      rw [Function.update_of_ne hc]
      exact h.latest c e he
  · intro c hc
    dsimp only at hc ⊢
    rw [hfind] at hc
    split at hc
    · cases hc
    · next hne =>
      rw [Function.update_of_ne hne]
      exact h.since c hc
  · intro c a ha
    dsimp only at ha
    by_cases hc : c = f.context
    · subst hc
      rw [Function.update_self] at ha
      rcases List.mem_append.mp ha with hin | hin
      · exact h.context _ a hin
      · rw [List.mem_singleton.mp hin]
        exact ⟨rfl, hf⟩
    · rw [Function.update_of_ne hc] at ha
      exact h.context c a ha
  · intro g hg
    rcases List.mem_append.mp hg with hin | hin
    · exact h.window g hin
    · rw [List.mem_singleton.mp hin]
      exact hf
  · intro g hg
    -- the entry of the context is at least as late as the fence and as the entry before
    have hentry : ∀ g', g'.context = f.context →
        rank base g' ≤ rank base (Sync.merge f explicit (s.sync.find env f.context)).fence →
        ∃ e, sync.find env g'.context = some e ∧ rank base g' ≤ rank base e.fence := by
      intro g' hctx hle
      refine ⟨_, ?_, hle⟩
      rw [hfind, if_pos hctx, hctx]
    rcases List.mem_append.mp hg with hin | hin
    · rcases h.covered g hin with hsig | ⟨e, he, hle⟩ | htaken
      · exact .inl hsig
      · by_cases hc : g.context = f.context
        · obtain ⟨a, ha, hae⟩ := (h.latest _ e he).mem
          have hmax := hmerge.max a (List.mem_append_left _ (hc ▸ ha))
          rw [hae] at hmax
          exact .inr (.inl (hentry g hc (le_trans hle hmax)))
        · refine .inr (.inl ⟨e, ?_, hle⟩)
          rw [hfind, if_neg hc, he]
      · exact .inr (.inr htaken)
    · rw [List.mem_singleton.mp hin]
      refine .inr (.inl (hentry f rfl ?_))
      exact hmerge.max (f, explicit) (List.mem_append_right _ (List.mem_singleton_self _))

/-- An addition without memory for an entry: only the VM update is remembered. -/
theorem Inv.add_error (h : s.Inv env base) {f : DmaFence} {explicit allocOk : Bool} {r : Errno}
    {sync : Sync} {updates : List DmaFence}
    (hres : Sync.syncFence env adev allocOk s.sync f explicit = (.error r, sync))
    (huw : ∀ g ∈ updates, InWindow base g)
    (hlast : LastUpdate base updates sync.lastVmUpdate) :
    Inv env base { s with sync := sync, updates := updates } := by
  have hfences := Sync.syncFence_error hres
  have hfind : ∀ c, sync.find env c = s.sync.find env c := by
    intro c
    rw [Sync.find, hfences, Sync.find]
  refine ⟨by rw [Sync.Wf, hfences]; exact h.wf, h.inOrder, ?_, ?_, h.context, h.window, ?_, huw,
    hlast⟩
  · intro c e he
    exact h.latest c e (hfind c ▸ he)
  · intro c hc
    exact h.since c (hfind c ▸ hc)
  · intro g hg
    have := h.covered g hg
    simpa only [Covers, hfind] using this

theorem Inv.add (h : s.Inv env base) {f : DmaFence} (hf : InWindow base f)
    (explicit allocOk : Bool) : (s.step env adev (.add f explicit allocOk)).Inv env base := by
  obtain ⟨huw, hlast⟩ := h.updates_add adev hf explicit allocOk
  simp only [step]
  rcases hres : Sync.syncFence env adev allocOk s.sync f explicit with ⟨r | ⟨⟩, sync⟩
  · rw [hres] at hlast
    exact h.add_error hres huw hlast
  · rw [hres] at hlast
    exact h.add_ok hf hres huw hlast

/-- Walking over the table takes away only entries that have signaled or are given away. -/
theorem Inv.scan (h : s.Inv env base) {β : Type} {v : SyncEntry → Verdict β}
    {t : Fin 16 → List SyncEntry} {r : Option β} (hscan : Scanned v s.sync.fences t r)
    {taken : List DmaFence} (hsub : ∀ f ∈ s.taken, f ∈ taken)
    (hdrop : ∀ e, v e = .drop → s.sig.signaled e.fence = true)
    (htake : ∀ e b, v e = .stop false b → r = some b → e.fence ∈ taken) :
    Inv env base { s with
      sync := { s.sync with fences := t }
      since := s.remaining env { s.sync with fences := t }
      taken := taken } := by
  have hwf : Sync.Wf env { s.sync with fences := t } := h.wf.sublist hscan.sublist
  have hold : ∀ c e, Sync.find env { s.sync with fences := t } c = some e →
      s.sync.find env c = some e := by
    intro c e he
    obtain ⟨⟨i, hi⟩, hkey⟩ := hwf.lookup_eq_some_iff.mp he
    exact h.wf.lookup_eq_some_iff.mpr ⟨⟨i, (hscan.sublist i).subset hi⟩, hkey⟩
  refine ⟨hwf, h.inOrder, ?_, ?_, ?_, h.window, ?_, h.updatesWindow, h.lastVmUpdate⟩
  · intro c e he
    simp only [remaining, he, Option.isSome_some, if_true]
    exact h.latest c e (hold c e he)
  · intro c hc
    simp only [remaining, hc]
    rfl
  · intro c a ha
    simp only [remaining] at ha
    split at ha
    · exact h.context c a ha
    · cases ha
  · intro g hg
    rcases h.covered g hg with hsig | ⟨e, he, hle⟩ | ⟨f, hf, hcov⟩
    · exact .inl hsig
    · have hctx := h.wf.find_context he
      obtain ⟨⟨i, hi⟩, -⟩ := h.wf.lookup_eq_some_iff.mp he
      rcases hscan.removed i e hi with hin | hd | ⟨b, hstop, hb⟩
      · exact .inr (.inl ⟨e, hwf.lookup_eq_some_iff.mpr ⟨⟨i, hin⟩, hctx⟩, hle⟩)
      · exact .inl (h.inOrder.le g e.fence (h.window g hg) (h.entry_window he) hctx.symm hle
          (hdrop e hd))
      · exact .inr (.inr ⟨e.fence, htake e b hstop hb, hctx, hle⟩)
    · exact .inr (.inr ⟨f, hsub f hf, hcov⟩)

theorem Inv.peek (h : s.Inv env base) (ring : Option ℕ) :
    (s.step env adev (.peek ring)).Inv env base := by
  have hscan := scan_scanned (Sync.peekEntry env s.sig ring) s.sync.fences
  refine h.scan hscan (fun f hf => hf) ?_ ?_
  · intro e hdrop
    simp only [Sync.peekEntry] at hdrop
    split at hdrop
    · assumption
    · split at hdrop
      · split at hdrop
        · split at hdrop <;> cases hdrop
        · cases hdrop
      · cases hdrop
  · -- what is peeked at stays
    intro e b hstop
    simp only [Sync.peekEntry] at hstop
    split at hstop
    · cases hstop
    · split at hstop
      · split at hstop
        · split at hstop <;> cases hstop
        · cases hstop
      · cases hstop

theorem Inv.get (h : s.Inv env base) : (s.step env adev .get).Inv env base := by
  have hscan := scan_scanned (Sync.getEntry s.sig) s.sync.fences
  refine h.scan hscan (fun f hf => List.mem_append_left _ hf) ?_ ?_
  · intro e hdrop
    simp only [Sync.getEntry] at hdrop
    split at hdrop
    · assumption
    · cases hdrop
  · intro e b hstop hres
    simp only [Sync.getEntry] at hstop
    split at hstop
    · cases hstop
    · cases hstop
      refine List.mem_append_right _ ?_
      simp only [Sync.getFence, hres]
      simp

theorem Inv.signal (h : s.Inv env base) {now : Sync.Signals} (horder : InOrder base now)
    (hmono : ∀ f, s.sig.signaled f = true → now.signaled f = true) :
    (s.step env adev (.signal now)).Inv env base := by
  refine ⟨h.wf, horder, h.latest, h.since, h.context, h.window, ?_, h.updatesWindow,
    h.lastVmUpdate⟩
  intro g hg
  rcases h.covered g hg with hsig | hrest
  · exact .inl (hmono g hsig)
  · exact .inr hrest

theorem Inv.step (h : s.Inv env base) (e : Event) (he : e.Allowed base s) :
    (s.step env adev e).Inv env base := by
  cases e with
  | add f explicit allocOk => exact h.add he explicit allocOk
  | signal now => exact h.signal he.1 he.2
  | peek ring => exact h.peek ring
  | get => exact h.get

theorem Reachable.inv (h : s.Reachable env adev base) : s.Inv env base :=
  Transition.Reach.invariant (fun _ hi => hi.inv) (fun _ e _ hs hg heq => heq ▸ hs.step e hg) h

theorem Reachable.step (h : s.Reachable env adev base) (e : Event) (he : e.Allowed base s) :
    (s.step env adev e).Reachable env adev base :=
  .next h he rfl

/-- Waiting for a sync object waits for every fence that was added and not given away. -/
theorem Inv.wait (h : s.Inv env base) {dmaFenceWait : DmaFence → Except Errno Unit}
    {now : Sync.Signals} (horder : InOrder base now)
    (hmono : ∀ f, s.sig.signaled f = true → now.signaled f = true)
    (hwait : ∀ f, dmaFenceWait f = .ok () → now.signaled f = true)
    (hok : (s.sync.wait dmaFenceWait).1 = .ok ()) {g : DmaFence} (hg : g ∈ s.added) :
    now.signaled g = true ∨
      ∃ f ∈ s.taken, f.context = g.context ∧ rank base g ≤ rank base f := by
  rcases h.covered g hg with hsig | ⟨e, he, hle⟩ | htaken
  · exact .inl (hmono g hsig)
  · left
    obtain ⟨⟨i, hi⟩, hctx⟩ := h.wf.lookup_eq_some_iff.mp he
    have hnone : (Buckets.scan (Sync.waitEntry dmaFenceWait) s.sync.fences).1 = none := by
      simp only [Sync.wait] at hok
      split at hok
      · cases hok
      · next hn => exact hn
    -- the loop ran to the end, so it dropped the entry, after its wait
    have hdone : dmaFenceWait e.fence = .ok () := by
      rcases (scan_scanned _ s.sync.fences).removed i e hi with hin | hdrop | ⟨b, -, hb⟩
      · have hkeep := scan_none hnone i e hin
        simp only [Sync.waitEntry] at hkeep
        split at hkeep <;> cases hkeep
      · simp only [Sync.waitEntry] at hdrop
        split at hdrop
        · next hw => exact hw
        · cases hdrop
      · rw [hnone] at hb
        cases hb
    exact horder.le g e.fence (h.window g hg) (h.entry_window he) hctx.symm hle (hwait _ hdone)
  · exact .inr htaken

end State

/-- A new sync object with some fences added to it. -/
def addAll (env : Env) (adev : Option ℕ) (adds : List (DmaFence × Bool)) : Sync :=
  adds.foldl (fun sync a => (Sync.syncFence env adev true sync a.1 a.2).2) .create

/-- The VM updates among some additions. -/
def vmUpdates (env : Env) (adev : Option ℕ) (adds : List (DmaFence × Bool)) : List DmaFence :=
  (adds.map Prod.fst).filter fun f => Sync.isVmUpdate env adev f

/-- With memory for an entry an addition succeeds. -/
private theorem syncFence_alloc (env : Env) (adev : Option ℕ) (sync : Sync) (f : DmaFence) (explicit : Bool) :
    ∃ sync', Sync.syncFence env adev true sync f explicit = (.ok (), sync') := by
  simp only [Sync.syncFence]
  split
  · exact ⟨_, rfl⟩
  · exact ⟨_, rfl⟩

/-- Additions alone are a run. -/
private theorem exists_addAll (env : Env) (adev : Option ℕ) (adds : List (DmaFence × Bool))
    (hw : ∀ a ∈ adds, InWindow base a.1) :
    ∃ s : State, s.Reachable env adev base ∧ s.sync = addAll env adev adds ∧
      (∀ c, s.since c = adds.filter fun a => a.1.context = c) ∧
      s.updates = vmUpdates env adev adds := by
  induction adds using List.reverseRecOn with
  | nil =>
    let sig : Sync.Signals := ⟨fun _ => false, fun _ => false⟩
    have horder : InOrder base sig := ⟨fun _ _ _ _ _ _ h => by cases h⟩
    exact ⟨⟨.create, sig, fun _ => [], [], [], []⟩,
      .start ⟨rfl, horder, fun _ => rfl, rfl, rfl, rfl⟩, rfl, fun _ => rfl, rfl⟩
  | append_singleton adds a ih =>
    obtain ⟨s, hs, hsync, hsince, hupdates⟩ :=
      ih fun b hb => hw b (List.mem_append_left _ hb)
    have ha := hw a (List.mem_append_right _ (List.mem_singleton_self a))
    have hallowed : (Event.add a.1 a.2 true).Allowed base s := ha
    have hnext : (s.step env adev (.add a.1 a.2 true)).Reachable env adev base :=
      .next hs hallowed rfl
    obtain ⟨sync', hadd⟩ := syncFence_alloc env adev s.sync a.1 a.2
    simp only [State.step, hadd] at hnext
    refine ⟨_, hnext, ?_, ?_, ?_⟩
    · rw [addAll, List.foldl_append, ← addAll, ← hsync, List.foldl_cons, List.foldl_nil, hadd]
    · intro c
      dsimp only
      rw [List.filter_append, ← hsince c]
      by_cases hc : a.1.context = c
      · subst hc
        simp
      · rw [Function.update_of_ne (Ne.symm hc)]
        simp [hc]
    · dsimp only
      rw [vmUpdates, List.map_append, List.filter_append, ← vmUpdates, ← hupdates]
      by_cases hu : Sync.isVmUpdate env adev a.1 = true
      · simp [hu]
      · simp [hu]

/-- The entries do not depend on the order of the additions. -/
theorem addAll_perm {adds adds' : List (DmaFence × Bool)} (hperm : adds.Perm adds')
    (hw : ∀ a ∈ adds, InWindow base a.1) (c : ℕ) :
    (addAll env adev adds).find env c = (addAll env adev adds').find env c := by
  obtain ⟨s, hs, hsync, hsince, -⟩ := exists_addAll env adev adds hw
  obtain ⟨s', hs', hsync', hsince', -⟩ := exists_addAll env adev adds'
    fun a ha => hw a (hperm.mem_iff.mpr ha)
  have hfilter : (s.since c).Perm (s'.since c) := by
    rw [hsince, hsince']
    exact hperm.filter _
  rw [← hsync, ← hsync']
  -- an entry is there when something was added to the context
  have hsome : ∀ {s s' : State}, s.Inv env base → s'.Inv env base →
      (s.since c).Perm (s'.since c) → s.sync.find env c = none → s'.sync.find env c = none := by
    intro s s' hinv hinv' hp hnone
    rw [hinv.since c hnone, List.nil_perm] at hp
    cases he : s'.sync.find env c with
    | none => rfl
    | some e =>
      obtain ⟨a, ha, -⟩ := (hinv'.latest c e he).mem
      rw [hp] at ha
      cases ha
  cases he : s.sync.find env c with
  | none => exact (hsome hs.inv hs'.inv hfilter he).symm
  | some e =>
    cases he' : s'.sync.find env c with
    | none =>
      rw [hsome hs'.inv hs.inv hfilter.symm he'] at he
      cases he
    | some e' =>
      refine congrArg some ((hs.inv.latest c e he).perm (hs'.inv.latest c e' he') hfilter ?_)
      intro a ha b hb
      rw [(hs.inv.context c a ha).1, (hs.inv.context c b hb).1]

/-- Nor does the last VM update, when the VM updates are of one context. -/
theorem addAll_perm_lastVmUpdate {adds adds' : List (DmaFence × Bool)} (hperm : adds.Perm adds')
    (hw : ∀ a ∈ adds, InWindow base a.1)
    (hctx : ∀ f ∈ vmUpdates env adev adds, ∀ g ∈ vmUpdates env adev adds,
      f.context = g.context) :
    (addAll env adev adds).lastVmUpdate = (addAll env adev adds').lastVmUpdate := by
  obtain ⟨s, hs, hsync, -, hupdates⟩ := exists_addAll env adev adds hw
  obtain ⟨s', hs', hsync', -, hupdates'⟩ := exists_addAll env adev adds'
    fun a ha => hw a (hperm.mem_iff.mpr ha)
  have hmem : ∀ f, f ∈ s.updates ↔ f ∈ s'.updates := by
    intro f
    rw [hupdates, hupdates']
    exact ((hperm.map Prod.fst).filter _).mem_iff
  rw [← hupdates] at hctx
  have hlast := hs.inv.lastVmUpdate hctx
  have hlast' := hs'.inv.lastVmUpdate fun f hf g hg =>
    hctx f ((hmem f).mpr hf) g ((hmem g).mpr hg)
  rw [← hsync, ← hsync']
  cases hf : s.sync.lastVmUpdate with
  | none =>
    rw [hf] at hlast
    have hnil : s.updates = [] := hlast
    cases hf' : s'.sync.lastVmUpdate with
    | none => rfl
    | some f' =>
      rw [hf'] at hlast'
      have := (hmem f').mpr hlast'.1
      rw [hnil] at this
      cases this
  | some f =>
    rw [hf] at hlast
    cases hf' : s'.sync.lastVmUpdate with
    | none =>
      rw [hf'] at hlast'
      have hnil : s'.updates = [] := hlast'
      have := (hmem f).mp hlast.1
      rw [hnil] at this
      cases this
    | some f' =>
      rw [hf'] at hlast'
      have hf'mem := (hmem f').mpr hlast'.1
      exact congrArg some (eq_of_rank (hctx f hlast.1 f' hf'mem)
        (le_antisymm (hlast'.2 f ((hmem f).mp hlast.1)) (hlast.2 f' hf'mem)))

end Steps

/-- In every run a sync object has one entry for each context, the latest fence added to it since
it was last removed, with the flags of all of these; it keeps the latest VM update, if these are
of one context; a successful wait means that every fence added has signaled, or was covered by
one that was given away; a clone has the unsignaled entries; and what is added does not depend on
the order of the additions. -/
theorem sync_keeps_latest (env : Env) (adev : Option ℕ) (base : ℕ → UInt32) {s : State}
    (h : s.Reachable env adev base) :
    s.sync.Wf env ∧
    (∀ c e, s.sync.find env c = some e → Latest base (s.since c) e) ∧
    LastUpdate base s.updates s.sync.lastVmUpdate ∧
    (∀ (dmaFenceWait : DmaFence → Except Errno Unit) (now : Sync.Signals), InOrder base now →
      (∀ f, s.sig.signaled f = true → now.signaled f = true) →
      (∀ f, dmaFenceWait f = .ok () → now.signaled f = true) →
      (s.sync.wait dmaFenceWait).1 = .ok () → ∀ g ∈ s.added, now.signaled g = true ∨
        ∃ f ∈ s.taken, f.context = g.context ∧ rank base g ≤ rank base f) ∧
    (∀ allocOk source clone,
      Sync.clone env s.sig allocOk s.sync .create = (.ok (), source, clone) →
      clone.lastVmUpdate = s.sync.lastVmUpdate ∧ ∀ c, clone.find env c =
        (s.sync.find env c).filter fun e => !s.sig.signaled e.fence) ∧
    ∀ adds adds' : List (DmaFence × Bool), adds.Perm adds' → (∀ a ∈ adds, InWindow base a.1) →
      (∀ c, (addAll env adev adds).find env c = (addAll env adev adds').find env c) ∧
      ((∀ f ∈ vmUpdates env adev adds, ∀ g ∈ vmUpdates env adev adds, f.context = g.context) →
        (addAll env adev adds).lastVmUpdate = (addAll env adev adds').lastVmUpdate) := by
  have hinv := h.inv
  refine ⟨hinv.wf, hinv.latest, hinv.lastVmUpdate, ?_, ?_, ?_⟩
  · intro dmaFenceWait now horder hmono hwait hok g hg
    exact hinv.wait horder hmono hwait hok hg
  · intro allocOk source clone hclone
    obtain ⟨-, -, -, hlast, hfind⟩ := Sync.clone_ok hinv.wf hclone
    exact ⟨hlast, hfind⟩
  · intro adds adds' hperm hw
    exact ⟨addAll_perm hperm hw, addAll_perm_lastVmUpdate hperm hw⟩

section Runs

/-- All fences are VM updates of device 0 and share a bucket. -/
def oneBucket : Env := ⟨fun _ => some ⟨0, 0, true⟩, fun _ => 0⟩

/-- A new object. -/
def fresh : State :=
  ⟨.create, ⟨fun _ => false, fun _ => false⟩, fun _ => [], [], [], []⟩

/-- The fences up to a sequence number have signaled, in every context. -/
def upTo (n : UInt32) : Sync.Signals := ⟨fun f => decide (f.seqno ≤ n), fun _ => false⟩

private theorem fresh_reachable : fresh.Reachable oneBucket (some 0) fun _ => 0 :=
  .start ⟨rfl, ⟨fun _ _ _ _ _ _ h => nomatch h⟩, fun _ => rfl, rfl, rfl, rfl⟩

private theorem inOrder_upTo (n : UInt32) : InOrder (fun _ => 0) (upTo n) where
  le f g _ _ _ hle hg := by
    have hg' : g.seqno.toNat ≤ n.toNat := by simpa [upTo, UInt32.le_iff_toNat_le] using hg
    have hle' : f.seqno.toNat ≤ g.seqno.toNat := by simpa [rank] using hle
    simpa [upTo, UInt32.le_iff_toNat_le] using le_trans hle' hg'

/-- A new object after some events. -/
def after (es : List Event) : State := es.foldl (State.step oneBucket (some 0)) fresh

/-- After a fence signaled and was dropped the entry of its context is a new one. -/
def dropped : List Event :=
  [.add ⟨1, 1⟩ true true, .signal (upTo 1), .peek none, .add ⟨1, 2⟩ false true]

private theorem after_dropped_reachable :
    (after dropped).Reachable oneBucket (some 0) fun _ => 0 := by
  have h₁ := fresh_reachable.step (.add ⟨1, 1⟩ true true) (show rank _ _ < _ by decide)
  have h₂ := h₁.step (.signal (upTo 1)) ⟨inOrder_upTo 1, fun f hf => nomatch hf⟩
  have h₃ := h₂.step (.peek none) trivial
  exact h₃.step (.add ⟨1, 2⟩ false true) (show rank _ _ < _ by decide)

theorem sync_keeps_latest_dropped :
    (after dropped).Reachable oneBucket (some 0) (fun _ => 0) ∧
    Latest (fun _ => 0) ((after dropped).since 1) ⟨⟨1, 2⟩, false⟩ :=
  ⟨after_dropped_reachable,
    (sync_keeps_latest oneBucket (some 0) (fun _ => 0) after_dropped_reachable).2.1 1 _
      (by decide)⟩

/-- The flag of a fence that was dropped is forgotten; a fence that was given away is not waited
for; and between VM updates of several contexts the last one added wins over a later one. -/
theorem sync_forgets :
    (after dropped).sync.find oneBucket 1 = some ⟨⟨1, 2⟩, false⟩ ∧
    ((after [.add ⟨1, 1⟩ true true, .get]).added = [⟨1, 1⟩] ∧
      (after [.add ⟨1, 1⟩ true true, .get]).sig.signaled ⟨1, 1⟩ = false ∧
      ((after [.add ⟨1, 1⟩ true true, .get]).sync.wait fun _ => .error .einval).1 = .ok ()) ∧
    (after [.add ⟨1, 5⟩ false true, .add ⟨2, 1⟩ false true, .add ⟨1, 3⟩ false true]).sync.lastVmUpdate =
      some ⟨1, 3⟩ ∧ DmaFence.isLater ⟨1, 5⟩ ⟨1, 3⟩ = true := by
  refine ⟨by decide, ⟨by decide, by decide, ?_⟩, by decide, by decide⟩
  rfl

end Runs

end Gsgpu.SyncObject
