import Mathlib.Algebra.Group.Nat.Defs
import Mathlib.Logic.Function.Basic

/-!
# The id allocator of `lib/idr`

An `ida_s` hands out numbers without keeping pointers for them. Its bitmap has
`IDA_BITMAP_LONGS` words, of which both functions use the low `sizeof(long)`
bits: the id `8 * i + b` belongs to bit `b` of word `i`.
-/

namespace MyOS2.Ida

def sizeofLong : Nat := 8

def idaBitmapLongs : Nat := 32768 / sizeofLong

/-- `ida_s`, whose words are a fixed array. -/
structure IdaS where
  bitmap : Nat → BitVec 64

/-- `ida_init` (`idr.h:158-163`); the words come zeroed from `kzalloc`. -/
def idaInit : IdaS := { bitmap := fun _ => 0 }

/-- The inner loop of `ida_alloc_range` over at most `n` bits from `bitIdx` on: the first bit that
is clear. -/
def firstClear (slot : BitVec 64) : Nat → Nat → Option Nat
  | 0, _ => none
  | n + 1, bitIdx =>
    if slot &&& (1 <<< bitIdx) = 0 then some bitIdx else firstClear slot n (bitIdx + 1)

/-- The outer loop of `ida_alloc_range` over at most `n` words from `slotIdx` on. -/
def scanSlots (ida : IdaS) : Nat → Nat → Int
  | 0, _ => -1
  | n + 1, slotIdx =>
    let slot := ida.bitmap slotIdx
    match if slot ≠ ~~~1 then firstClear slot sizeofLong 0 else none with
    | some bitIdx => slotIdx * sizeofLong + bitIdx
    | none => scanSlots ida n (slotIdx + 1)

/-- `ida_alloc_range` (`idr.c:402-414`). The word index starts at `min`, `max` is not read, and the
bitmap is not written. -/
def idaAllocRange (ida : IdaS) (min _max : Nat) : Int :=
  scanSlots ida (idaBitmapLongs - min) min

/-- `ida_free` (`idr.c:418-428`): the word is masked with the bit of the id, not with its
complement. -/
def idaFree (ida : IdaS) (id : Nat) : Option IdaS :=
  let slotIdx := id / sizeofLong
  if slotIdx < idaBitmapLongs then
    let slot := ida.bitmap slotIdx &&& (1 <<< (id % sizeofLong))
    some { bitmap := Function.update ida.bitmap slotIdx slot }
  else none

def IdaS.holds (ida : IdaS) (id : Nat) : Bool :=
  (ida.bitmap (id / sizeofLong)).getLsbD (id % sizeofLong)

def Representable (id : Nat) : Prop := id / sizeofLong < idaBitmapLongs

/-! ## An allocator and its clients -/

/-- An allocator together with the ids that were returned and not freed since. -/
structure Clients where
  ida : IdaS
  allocated : Nat → Bool

/-- The calls of its clients. -/
inductive Op
  | allocRange (min max : Nat)
  | free (id : Nat)

def Clients.step (s : Clients) : Op → Option (Int × Clients)
  | .allocRange min max =>
    let ret := idaAllocRange s.ida min max
    if 0 ≤ ret then
      some (ret, { s with allocated := Function.update s.allocated ret.toNat true })
    else some (ret, s)
  | .free id => do
    let ida ← idaFree s.ida id
    some (0, { ida := ida, allocated := Function.update s.allocated id false })

def Clients.init : Clients := { ida := idaInit, allocated := fun _ => false }

/-- What a caller promises: the bounds are `uint` values, and only an allocated id is freed. -/
def Clients.Ok (s : Clients) : Op → Prop
  | .allocRange min max => min < 2 ^ 32 ∧ max < 2 ^ 32
  | .free id => s.allocated id = true

end MyOS2.Ida
