import Gsgpu.Lib.Tiles
import Gsgpu.Move.Copy
import Mathlib.Logic.Function.Basic

/-! The engine that executes the jobs of a move: the packets of an IB as rectangles of pixels of 8
bytes, the addresses looked up in the GART, and the bytes copied so far. -/
namespace Gsgpu.Move
open Gsgpu.PageTable (xdmaCopy copyRow copyRows execCopy)

/-! ### Packets -/

/-- What a copy packet says: `height` rows of `width` pixels, one pitch apart. -/
structure Rect where
  src : ℕ
  dst : ℕ
  width : ℕ
  height : ℕ
  srcPitch : ℕ
  dstPitch : ℕ

/-- The eight words after a packet's header. -/
def Rect.ofArgs (args : List ℕ) : Rect where
  src := args.getD 1 0 + args.getD 2 0 * 2 ^ 32
  dst := args.getD 3 0 + args.getD 4 0 * 2 ^ 32
  width := args.getD 0 0 % 2 ^ 16
  height := args.getD 0 0 / 2 ^ 16
  srcPitch := args.getD 5 0
  dstPitch := args.getD 6 0

/-- The copies of an IB in order; a packet that is not a copy is a NOP. -/
def ibRects : List ℕ → List Rect
  | [] => []
  | hdr :: rest =>
    if hdr = xdmaCopy then Rect.ofArgs rest :: ibRects (rest.drop 8) else ibRects rest
termination_by ib => ib.length
decreasing_by all_goals simp only [List.length_drop, List.length_cons]; omega

/-- The pixels of one row, each with the address it is read from and the one it is written to. -/
def rowPixels (src dst width : ℕ) : List (ℕ × ℕ) :=
  (List.range width).map fun i => (src + i * 8, dst + i * 8)

def Rect.pixels (r : Rect) : List (ℕ × ℕ) :=
  (List.range r.height).flatMap fun y => rowPixels (r.src + y * r.srcPitch) (r.dst + y * r.dstPitch) r.width

/-- One pixel written to memory. -/
def movePixel (m : Memory) (p : ℕ × ℕ) : Memory := m.write64 p.2 (m.read64 p.1)

theorem copyRow_eq_foldl (src dst n i : ℕ) (m : Memory) : copyRow src dst n i m =
    ((List.range n).map fun j => (src + (i + j) * 8, dst + (i + j) * 8)).foldl movePixel m := by
  induction n generalizing i m with
  | zero => rfl
  | succ n ih =>
    unfold copyRow
    rw [ih, List.range_succ_eq_map, List.map_cons, List.foldl_cons, List.map_map]
    congr 2
    funext j
    simp only [Function.comp, Nat.succ_eq_add_one, Nat.add_assoc, Nat.add_comm 1]

theorem copyRows_eq_foldl (src dst srcPitch dstPitch width h r : ℕ) (m : Memory) :
    copyRows src dst srcPitch dstPitch width h r m = ((List.range h).flatMap fun y =>
      rowPixels (src + (r + y) * srcPitch) (dst + (r + y) * dstPitch) width).foldl movePixel m := by
  induction h generalizing r m with
  | zero => rfl
  | succ h ih =>
    unfold copyRows
    rw [ih, copyRow_eq_foldl, List.range_succ_eq_map, List.flatMap_cons, List.foldl_append,
      List.flatMap_map]
    simp only [rowPixels, Nat.zero_add, Nat.add_zero, Nat.succ_eq_add_one, Nat.add_assoc,
      Nat.add_comm 1]

/-- A packet does to a flat memory what its pixels do one by one. -/
theorem execCopy_eq_pixels (args : List ℕ) (m : Memory) :
    execCopy args m = (Rect.ofArgs args).pixels.foldl movePixel m := by
  unfold PageTable.execCopy
  rw [copyRows_eq_foldl]
  simp only [Rect.pixels, Rect.ofArgs, Nat.zero_add]

/-! ### Addresses -/

/-- Where a byte is: at an offset in VRAM, or at a bus address in system memory. -/
inductive Loc
  | vram (offset : ℕ)
  | system (addr : ℕ)
deriving DecidableEq

/-- The page that an entry of the GART shows; its permissions are not looked at. -/
def ptePage (pte : ℕ) : ℕ := pte / 2 ^ 12 * 2 ^ 12

/-- Where the byte at an address is. -/
def Gmc.locate (g : Gmc) (gart : ℕ → ℕ) (a : ℕ) : Loc :=
  if a < g.vramStart then
    let offset := a - g.gartStart
    .system (ptePage (gart (offset / pageSize)) + offset % pageSize)
  else .vram (a - g.vramStart)

/-- Inside the table of the GART. -/
def Gmc.InTable (g : Gmc) (a : ℕ) : Prop := g.tableAddr ≤ a ∧ a < g.tableAddr + g.gartPages * 8

instance (g : Gmc) (a : ℕ) : Decidable (g.InTable a) := inferInstanceAs (Decidable (_ ∧ _))

/-! ### Execution -/

/-- The entries of the GART, those that the engine works with since the last flush, and the bytes
it has copied, each from where to where. -/
structure Engine where
  gart : ℕ → ℕ
  tlb : ℕ → ℕ
  copied : List (Loc × Loc)

/-- The entry in the IB at an address. -/
def Job.entry (j : Job) (a : ℕ) : Option ℕ :=
  let array := j.gpuAddr + j.numDw * 4
  if array ≤ a ∧ (a - array) % 8 = 0 then j.entries[(a - array) / 8]? else none

/-- One pixel; `none` is a write into the table of something else than an entry of the IB. -/
def Engine.pixel (g : Gmc) (j : Job) (e : Engine) (p : ℕ × ℕ) : Option Engine :=
  if g.InTable p.2 then
    (j.entry p.1).map fun v =>
      { e with gart := Function.update e.gart ((p.2 - g.tableAddr) / 8) v }
  else
    some { e with
      copied := e.copied ++
        (List.range 8).map fun b => (g.locate e.tlb (p.1 + b), g.locate e.tlb (p.2 + b)) }

/-- The flush of the VM before a job that needs it. -/
def Engine.flush (e : Engine) (j : Job) : Engine :=
  if j.vmNeedsFlush then { e with tlb := e.gart } else e

def Job.pixels (j : Job) : List (ℕ × ℕ) := (ibRects j.ib).flatMap Rect.pixels

def Engine.job (g : Gmc) (e : Engine) (j : Job) : Option Engine :=
  j.pixels.foldlM (Engine.pixel g j) (e.flush j)

/-- The jobs run in the order of their submission. -/
def Engine.run (g : Gmc) (e : Engine) (jobs : List Job) : Option Engine := jobs.foldlM (Engine.job g) e

section Pixels
variable {g : Gmc} {j : Job} {src dst n : ℕ}

/-- Pixels in a row that leave the table alone copy the bytes in a row. -/
theorem Engine.pixels_copied (e : Engine) (hno : ∀ i < n, ¬ g.InTable (dst + i * 8)) :
    (rowPixels src dst n).foldlM (Engine.pixel g j) e =
      some { e with
        copied := e.copied ++
          (List.range (n * 8)).map fun k => (g.locate e.tlb (src + k), g.locate e.tlb (dst + k)) } := by
  unfold rowPixels
  induction n with
  | zero => simp
  | succ n ih =>
    rw [List.range_succ, List.map_append, List.foldlM_append, ih (fun i hi => hno i (by omega)),
      Nat.succ_mul, Tiles.map_range_add]
    have hlast := hno n (by omega)
    simp [Engine.pixel, hlast, Nat.add_assoc]

/-- Pixels in a row from the entries of the IB to the table write these entries. -/
theorem Engine.pixels_mapped (e : Engine) {first : ℕ} (hn : n ≤ j.entries.length)
    (hfirst : first + n ≤ g.gartPages) :
    (rowPixels (j.gpuAddr + j.numDw * 4) (g.tableAddr + first * 8) n).foldlM (Engine.pixel g j) e =
      some { e with
        gart := fun x => if first ≤ x ∧ x < first + n then j.entries.getD (x - first) 0 else e.gart x } := by
  unfold rowPixels
  induction n with
  | zero =>
    have hnone : (fun x => if first ≤ x ∧ x < first + 0 then j.entries.getD (x - first) 0
        else e.gart x) = e.gart := by
      funext x
      rw [if_neg (by omega)]
    rw [hnone]
    rfl
  | succ n ih =>
    rw [List.range_succ, List.map_append, List.foldlM_append, ih (by omega) (by omega)]
    have htable : g.InTable (g.tableAddr + first * 8 + n * 8) := ⟨by omega, by omega⟩
    have hentry : j.entry (j.gpuAddr + j.numDw * 4 + n * 8) = some (j.entries.getD n 0) := by
      have hlt : n < j.entries.length := by omega
      have hsub : j.gpuAddr + j.numDw * 4 + n * 8 - (j.gpuAddr + j.numDw * 4) = n * 8 := by omega
      unfold Job.entry
      dsimp only
      rw [hsub, if_pos ⟨by omega, by omega⟩, Nat.mul_div_cancel _ (by decide),
        List.getElem?_eq_getElem hlt, List.getD_eq_getElem _ _ hlt]
    have hidx : (g.tableAddr + first * 8 + n * 8 - g.tableAddr) / 8 = first + n := by omega
    simp only [List.map_cons, List.map_nil, Option.bind_eq_bind, Option.bind_some, List.foldlM_cons,
      Engine.pixel, if_pos htable, hentry, Option.map_some, hidx, List.foldlM_nil]
    congr 2
    funext x
    by_cases hx : x = first + n
    · subst hx
      rw [Function.update_self, if_pos (by omega), Nat.add_sub_cancel_left]
    · rw [Function.update_of_ne hx]
      congr 1
      rw [eq_iff_iff]
      omega

end Pixels

end Gsgpu.Move
