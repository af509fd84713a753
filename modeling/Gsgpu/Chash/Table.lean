import Gsgpu.Basic
import Mathlib.Data.Nat.Bits
import Mathlib.Logic.Function.Basic

/-! Closed hash tables with linear probing. Two bitmaps tell which slots are occupied and which of
these are valid; a slot that is occupied and not valid is a tombstone. A lookup tidies up while it
probes: it moves entries to earlier tombstones and empties tombstones that lead nowhere. -/
namespace Gsgpu.Chash

variable {V : Type}

/-- `hash_32` and `hash_64` of the kernel, which keep the upper `bits` of a product. -/
structure Hashes where
  hash32 : ℕ → ℕ → ℕ
  hash64 : ℕ → ℕ → ℕ
  hash32_lt : ∀ key bits, bits < 32 → hash32 key bits < 2 ^ bits
  hash64_lt : ∀ key bits, bits < 32 → hash64 key bits < 2 ^ bits

/-- `struct __chash_table`, on a machine with 64 bits in a `long`. The statistics are left out. A
table without values has the unit type for them. -/
structure Table (V : Type) where
  bits : ℕ
  keySize : ℕ
  occupBitmap : ℕ → BitVec 64
  validBitmap : ℕ → BitVec 64
  keys : ℕ → ℕ
  values : ℕ → V

/-- `chash_table_alloc`; the memory is zeroed. -/
def tableAlloc (bits keySize : ℕ) (zero : V) (allocOk : Bool) : Except Errno (Table V) :=
  if 31 < bits then .error .einval
  else if keySize ≠ 4 ∧ keySize ≠ 8 then .error .einval
  else if !allocOk then .error .enomem
  else .ok ⟨bits, keySize, fun _ => 0, fun _ => 0, fun _ => 0, fun _ => zero⟩

/-- `struct chash_iter`. -/
structure Iter where
  mask : BitVec 64
  slot : ℕ

/-- `CHASH_ITER_INIT` and `CHASH_ITER_SET`. -/
def Iter.init (s : ℕ) : Iter := ⟨1 <<< (s &&& 63), s⟩

namespace Table

/-- How many slots there are. -/
def size (t : Table V) : ℕ := 2 ^ t.bits

def sizeMask (t : Table V) : ℕ := 2 ^ t.bits - 1

/-- `CHASH_ITER_INC`. -/
def inc (t : Table V) (it : Iter) : Iter :=
  ⟨it.mask <<< 1 ||| it.mask >>> 63, (it.slot + 1) &&& t.sizeMask⟩

/-- `CHASH_SUB`, in 32 bits. -/
def sub (t : Table V) (a b : ℕ) : ℕ := ((a + 2 ^ 32 - b) % 2 ^ 32) &&& t.sizeMask

/-- `CHASH_IN_RANGE`. -/
def inRange (t : Table V) (slot first last : ℕ) : Bool :=
  decide (t.sub slot first ≤ t.sub last first)

/-- `chash_iter_is_valid`. -/
def isValid (t : Table V) (it : Iter) : Bool := t.validBitmap (it.slot >>> 6) &&& it.mask != 0

/-- `chash_iter_is_empty`. -/
def isEmpty (t : Table V) (it : Iter) : Bool := t.occupBitmap (it.slot >>> 6) &&& it.mask == 0

/-- `chash_iter_set_valid`. -/
def setValid (t : Table V) (it : Iter) : Table V :=
  let w := it.slot >>> 6
  { t with
    validBitmap := Function.update t.validBitmap w (t.validBitmap w ||| it.mask)
    occupBitmap := Function.update t.occupBitmap w (t.occupBitmap w ||| it.mask) }

/-- `chash_iter_set_invalid`. -/
def setInvalid (t : Table V) (it : Iter) : Table V :=
  let w := it.slot >>> 6
  { t with validBitmap := Function.update t.validBitmap w (t.validBitmap w &&& ~~~it.mask) }

/-- `chash_iter_set_empty`. -/
def setEmpty (t : Table V) (it : Iter) : Table V :=
  let w := it.slot >>> 6
  { t with occupBitmap := Function.update t.occupBitmap w (t.occupBitmap w &&& ~~~it.mask) }

/-- What is kept of a key in `keys32` or `keys64`. -/
def storedKey (t : Table V) (key : ℕ) : ℕ := if t.keySize = 4 then key % 2 ^ 32 else key % 2 ^ 64

/-- The hash of a key; `hash_32` takes its lower half. -/
def hash (H : Hashes) (t : Table V) (key : ℕ) : ℕ :=
  if t.keySize = 4 then H.hash32 (key % 2 ^ 32) t.bits else H.hash64 key t.bits

/-- `chash_iter_hash`. -/
def iterHash (H : Hashes) (t : Table V) (it : Iter) : ℕ := t.hash H (t.keys it.slot)

/-- `chash_iter_relocate` within a table; `none` where it would stop at the `BUG_ON`. -/
def relocate (t : Table V) (dst src : Iter) : Option (Table V) :=
  if src.slot = dst.slot then none
  else some (({ t with
    keys := Function.update t.keys dst.slot (t.keys src.slot)
    values := Function.update t.values dst.slot (t.values src.slot) }.setValid dst).setInvalid src)

/-- The loop that empties the tombstones from `it` on, up to slot `stop`. -/
def cleanUp (stop : ℕ) : ℕ → Table V → Iter → Option (Table V)
  | 0, _, _ => none
  | n + 1, t, it =>
    if it.slot = stop then some t
    else cleanUp stop n (if !t.isValid it then t.setEmpty it else t) (t.inc it)

/-- The loop that advances past valid slots. -/
def skipValid (t : Table V) : ℕ → Iter → Option Iter
  | 0, _ => none
  | n + 1, it => if t.isValid it then skipValid t n (t.inc it) else some it

/-- The loop that looks for a free slot before slot `stop`. -/
def skipValidTo (t : Table V) (stop : ℕ) : ℕ → Iter → Option Iter
  | 0, _ => none
  | n + 1, it =>
    if it.slot ≠ stop ∧ t.isValid it then skipValidTo t stop n (t.inc it) else some it

/-- What `chash_table_find` remembers as it probes: the first tombstone that it could relocate to
or add to, and the first of those that may be redundant. A search for removal wants none of the
former. -/
structure Marks where
  firstAvail : Option ℕ
  firstRedundant : Option Iter

/-- The body of the loop of `chash_table_find`, at a slot that is not empty and does not have the
key. -/
def probe (H : Hashes) (forRemoval : Bool) (t : Table V) (it : Iter) (m : Marks) :
    Option (Table V × Marks) :=
  if !t.isValid it then
    if !forRemoval && m.firstAvail.isNone then some (t, { m with firstAvail := some it.slot })
    else if m.firstRedundant.isNone then
      some (t, { m with firstRedundant := some (.init it.slot) })
    else some (t, m)
  else
    match m.firstRedundant with
    | none => some (t, m)
    | some first =>
      let curHash := t.iterHash H it
      if !t.inRange curHash (first.slot + 1) it.slot then do
        -- the entry has a hash at or before the first tombstone
        let t ← t.relocate first it
        let first ← t.skipValid t.size (t.inc first)
        some (t, { m with firstRedundant := some first })
      else if curHash ≠ it.slot then do
        -- to its home position or as close as possible
        let new ← t.skipValidTo it.slot t.size (.init curHash)
        if new.slot ≠ it.slot then
          let t ← t.relocate new it
          some (t, m)
        else some (t, m)
      else some (t, m)

/-- What `chash_table_find` returns: where the entry is, or the first available slot. -/
inductive Found
  | found (it : Iter)
  | notFound (it : Option Iter)

/-- The loop of `chash_table_find`. -/
def findLoop (H : Hashes) (key : ℕ) (forRemoval : Bool) (hash : ℕ) :
    ℕ → Table V → Iter → Marks → Option (Found × Table V)
  | 0, _, _, _ => none
  | n + 1, t, it, m =>
    if t.isValid it && t.keys it.slot == key then
      match m.firstAvail with
      | some avail => do
        let t ← t.relocate (.init avail) it
        some (.found (.init avail), t)
      | none => some (.found it, t)
    else if t.isEmpty it then do
      let t ← match m.firstRedundant with
        | none => some t
        | some first => cleanUp it.slot t.size t first
      some (.notFound (some ((m.firstAvail.map Iter.init).getD it)), t)
    else do
      let (t, m) ← t.probe H forRemoval it m
      let it := t.inc it
      if it.slot = hash then some (.notFound (m.firstAvail.map Iter.init), t)
      else findLoop H key forRemoval hash n t it m

/-- `chash_table_find`. -/
def find (H : Hashes) (t : Table V) (key : ℕ) (forRemoval : Bool) : Option (Found × Table V) :=
  findLoop H key forRemoval (t.hash H key) t.size t (.init (t.hash H key)) ⟨none, none⟩

/-- `__chash_table_copy_in`; a NULL value is `none`. -/
def copyIn (H : Hashes) (t : Table V) (key : ℕ) (value : Option V) :
    Option (Except Errno ℕ × Table V) := do
  match ← t.find H key false with
  | (.found it, t) =>
    some (.ok 1, { t with values := Function.update t.values it.slot (value.getD (t.values it.slot)) })
  | (.notFound none, t) => some (.error .enomem, t)
  | (.notFound (some it), t) =>
    let t := t.setValid it
    some (.ok 0, { t with
      keys := Function.update t.keys it.slot (t.storedKey key)
      values := Function.update t.values it.slot (value.getD (t.values it.slot)) })

/-- `__chash_table_copy_out`: the slot, and the value that is copied. -/
def copyOut (H : Hashes) (t : Table V) (key : ℕ) (remove : Bool) :
    Option (Except Errno (ℕ × V) × Table V) := do
  match ← t.find H key remove with
  | (.found it, t) =>
    some (.ok (it.slot, t.values it.slot), if remove then t.setInvalid it else t)
  | (.notFound _, t) => some (.error .einval, t)

end Table

end Gsgpu.Chash
