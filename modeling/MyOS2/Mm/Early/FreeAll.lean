import MyOS2.Mm.Early.Memblock

/-!
# Handing the free memory over (`memblock.c`, `mm_init.c`)

`memblock_free_all` first sets `PG_reserved` on the pages of the reserved regions, then cuts the
free ranges into blocks of page frames and calls `memblock_free_pages` on each. The state is the
flag of every page, and the calls in their order.
-/

namespace MyOS2.Memblock

def maxOrder : Nat := 10

/-- `PFN_UP` and `PFN_DOWN`. -/
def pfnUp (x : Nat) : Nat := u64 (x + pageSize - 1) / 2 ^ pageShift

@[inherit_doc pfnUp]
def pfnDown (x : Nat) : Nat := x / 2 ^ pageShift

/-! ## The reserved pages -/

/-- The loop of `reserve_bootmem_region` over the `n` frames from `pfn` on; only the frames below
`max_pfn` have a page. -/
def reserveLoop (maxPfn : Nat) : Nat → Nat → (Nat → Bool) → (Nat → Bool)
  | 0, _, reserved => reserved
  | n + 1, pfn, reserved =>
    reserveLoop maxPfn n (pfn + 1)
      (if pfn < maxPfn then Function.update reserved pfn true else reserved)

/-- `reserve_bootmem_region` (`mm_init.c:38-77`). -/
def reserveBootmemRegion (maxPfn start end_ : Nat) (reserved : Nat → Bool) : Nat → Bool :=
  reserveLoop maxPfn (pfnUp end_ - pfnDown start) (pfnDown start) reserved

def memmapInitLoop (maxPfn : Nat) (t : MmblkType) :
    Nat → Nat → (Nat → Bool) → Option (Nat → Bool)
  | 0, _, reserved => some reserved
  | n + 1, i, reserved => do
    let region ← t.entry i
    memmapInitLoop maxPfn t n (i + 1) (reserveBootmemRegion maxPfn region.base region.end_ reserved)

/-- `memmap_init_reserved_pages` (`memblock.c:653-676`): the bound of `for_each_memblock_type` is
`cnt + 1`. -/
def memmapInitReservedPages (maxPfn : Nat) (t : MmblkType) (reserved : Nat → Bool) :
    Option (Nat → Bool) :=
  memmapInitLoop maxPfn t (t.cnt + 1) 0 reserved

/-! ## The free pages -/

/-- The index of the lowest set bit among the `n` lowest ones, `n` if there is none. -/
def lowestBit : Nat → Nat → Nat
  | 0, _ => 0
  | n + 1, word => if word % 2 = 1 then 0 else lowestBit n (word / 2) + 1

/-- `__ffs` (`bitops_arch.h:119-127`): undefined on `0`. -/
def ffs (word : Nat) : Option Nat :=
  if word = 0 then none else some (lowestBit 64 word)

/-- The flags of the pages, and the calls `memblock_free_pages(pfn, order)`. -/
structure Handover where
  reserved : Nat → Bool
  released : List (Nat × Nat)

/-- `memblock_free_pages` (`buddy.c:547-573`) as far as it matters here: it clears `PG_reserved` on
every page of the block. -/
def memblockFreePages (s : Handover) (pfn order : Nat) : Handover :=
  { reserved := fun f => if pfn ≤ f ∧ f < pfn + 2 ^ order then false else s.reserved f
    released := s.released ++ [(pfn, order)] }

/-- The loop that lowers `order` until the block fits below `end_pfn`; a shift by a negative `order`
would be undefined. -/
def lowerOrder (startPfn endPfn : Nat) : Nat → Option Nat
  | 0 => if endPfn < startPfn + 1 then none else some 0
  | order + 1 =>
    if endPfn < startPfn + 2 ^ (order + 1) then lowerOrder startPfn endPfn order
    else some (order + 1)

/-- The loop that cuts one range into blocks; the first argument bounds the number of rounds. -/
def cutRange : Nat → Nat → Nat → Handover → Option Handover
  | 0, startPfn, endPfn, s => if startPfn < endPfn then none else some s
  | fuel + 1, startPfn, endPfn, s =>
    if startPfn < endPfn then do
      let low ← ffs startPfn
      let order ← lowerOrder startPfn endPfn (min maxOrder low)
      cutRange fuel (startPfn + 2 ^ order) endPfn (memblockFreePages s startPfn order)
    else some s

def freeRange (maxLowPfn : Nat) (s : Handover) (range : Nat × Nat) : Option Handover :=
  let startPfn := pfnUp range.1
  let endPfn := min (pfnDown range.2) maxLowPfn
  if endPfn ≤ startPfn then some s else cutRange (endPfn - startPfn) startPfn endPfn s

/-- `memblock_free_all` (`memblock.c:681-711`); no page is reserved before. -/
def memblockFreeAll (maxPfn maxLowPfn : Nat) (mb : MemblockS) : Option Handover := do
  let reserved ← memmapInitReservedPages maxPfn mb.reserved fun _ => false
  (freeMemRanges mb memblockNone).foldlM (freeRange maxLowPfn) ⟨reserved, []⟩

end MyOS2.Memblock
