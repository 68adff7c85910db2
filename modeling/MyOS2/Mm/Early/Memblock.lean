import MyOS2.Misc.Word

/-!
# The boot-time memory map (`mm/early/memblock.c`)

A `mmblk_type_s` is a fixed array of regions of which the first `cnt` are in use. The entries
behind them are never cleared, and two loops of the source read the one at index `cnt`, so they
are kept: `regions` are the entries in use, `stale` the ones behind them.

A call is `none` when it reads or writes outside the array. `BUG_ON` comes back: the endless
loop at the end of `panic` is commented out (`debug/panic.c`).
-/

namespace MyOS2.Memblock

def physAddrMax : Nat := 2 ^ 64 - 1

/-- `PAGE_SHIFT` and `PAGE_SIZE`. -/
def pageShift : Nat := 12

@[inherit_doc pageShift]
def pageSize : Nat := 2 ^ pageShift

/-- `memblock_region` (`memblock_types.h:19-24`). -/
structure MmblkRgn where
  base : Nat
  size : Nat
  flags : Nat
  deriving DecidableEq, Repr

def MmblkRgn.end_ (r : MmblkRgn) : Nat := u64 (r.base + r.size)

/-- `memblock_type` (`memblock_types.h:34-40`). -/
structure MmblkType where
  regions : List MmblkRgn
  stale : List MmblkRgn
  totalSize : Nat
  deriving DecidableEq, Repr

namespace MmblkType

def cnt (t : MmblkType) : Nat := t.regions.length

def max (t : MmblkType) : Nat := t.regions.length + t.stale.length

/-- The array entry at index `i`, in use or not. -/
def entry (t : MmblkType) (i : Nat) : Option MmblkRgn := (t.regions ++ t.stale)[i]?

end MmblkType

/-! ## Adding a range -/

/-- `simple_mmblk_remove_rgn` (`memblock.c:108-120`): the entries behind `rgnIdx` move down by one,
the last of them stays where it was as well. -/
def simpleMmblkRemoveRgn (t : MmblkType) (rgnIdx : Nat) : MmblkType :=
  match t.regions[rgnIdx]?, t.regions.getLast? with
  | some rgn, some last =>
    { regions := t.regions.eraseIdx rgnIdx
      stale := last :: t.stale
      totalSize := u64Sub t.totalSize rgn.size }
  | _, _ => t

/-- The loop of `simple_mmblk_merge_rgn` for `n = end_rgn - i` more rounds: each moves `i` up or
takes one region away and `end_rgn` down. -/
def mergeLoop : Nat → MmblkType → Nat → MmblkType
  | 0, t, _ => t
  | n + 1, t, i =>
    match t.regions[i]?, t.regions[i + 1]? with
    | some this, some next =>
      if this.end_ ≠ next.base ∨ this.flags ≠ next.flags then mergeLoop n t (i + 1)
      else
        let merged := { this with size := u64 (this.size + next.size) }
        mergeLoop n
          (simpleMmblkRemoveRgn
            { t with
              regions := t.regions.set i merged
              totalSize := u64 (t.totalSize + next.size) } (i + 1)) i
    | _, _ => t

/-- An `int` assigned from the word `n` and compared as a word again: the low 32 bits,
sign-extended. -/
def wordOfInt (n : Nat) : Nat :=
  if n % 2 ^ 32 < 2 ^ 31 then n % 2 ^ 32 else 2 ^ 64 - 2 ^ 32 + n % 2 ^ 32

/-- `simple_mmblk_merge_rgn` (`memblock.c:131-156`). -/
def simpleMmblkMergeRgn (t : MmblkType) (startRgn endRgn : Nat) : MmblkType :=
  let i := if startRgn ≠ 0 then wordOfInt (startRgn - 1) else 0
  let endRgn := min endRgn (u64Sub t.cnt 1)
  mergeLoop (endRgn - i) t i

/-- `memblock_insert_region` (`memblock.c:172-184`). The argument `flags` is not stored: the new
entry keeps the flags the slot had. -/
def memblockInsertRegion (t : MmblkType) (idx base size : Nat) : Option MmblkType :=
  match t.stale, t.entry idx with
  | _ :: stale, some slot =>
    some
      { regions := t.regions.take idx ++ { slot with base := base, size := size } ::
          t.regions.drop idx
        stale := stale
        totalSize := u64 (t.totalSize + size) }
  | _, _ => none

/-- The loop of `simple_mmblk_add_range` at index `idx`. The bound of `for_each_memblock_type` is
`cnt + 1`, so the entry behind the last region is visited too. The first argument bounds the rounds.
-/
def addRangeLoop : Nat → MmblkType → Nat → Nat → Nat → Option MmblkType
  | 0, _, _, _, _ => none
  | fuel + 1, t, idx, base, end_ =>
    if ¬ idx < t.cnt + 1 then some t
    else do
      let rgn ← t.entry idx
      if rgn.end_ ≤ base ∧ idx ≠ t.cnt then addRangeLoop fuel t (idx + 1) base end_
      else
        let last := idx = t.cnt ∨ end_ ≤ rgn.base
        let insertSize := if last then u64Sub end_ base else u64Sub rgn.base base
        let base' := if last then end_ else rgn.end_
        let t ← memblockInsertRegion t idx base insertSize
        let t := simpleMmblkMergeRgn t (u64Sub idx 1) idx
        if end_ ≤ base' then some t else addRangeLoop fuel t (idx + 1) base' end_

/-- `memblock_cap_size` (`memblock.c:102-105`). -/
def memblockCapSize (base size : Nat) : Nat := min size (u64Sub physAddrMax base)

/-- `simple_mmblk_add_range` (`memblock.c:204-262`); it always returns `ENOERR`. -/
def simpleMmblkAddRange (t : MmblkType) (base size : Nat) : Option MmblkType :=
  let size := memblockCapSize base size
  let end_ := u64 (base + size)
  if size = 0 then some t else addRangeLoop (t.max + 2) t 0 base end_

/-- A `memblock_type` with no region, its array of `max` entries zeroed as the static arrays of the
source are. -/
def MmblkType.empty (max : Nat) : MmblkType :=
  { regions := [], stale := List.replicate max ⟨0, 0, 0⟩, totalSize := 0 }

/-! ## Walking the free ranges -/

/-- The bits of `enum mmblk_flags`. -/
def memblockNone : Nat := 0

@[inherit_doc memblockNone]
def memblockHotplug : Nat := 1

@[inherit_doc memblockNone]
def memblockMirror : Nat := 2

@[inherit_doc memblockNone]
def memblockNomap : Nat := 4

@[inherit_doc memblockNone]
def memblockDriverManaged : Nat := 8

/-- `should_skip_region` (`memblock.c:290-315`). -/
def shouldSkipRegion (isMemory : Bool) (m : MmblkRgn) (flags : Nat) : Bool :=
  isMemory &&
    ((flags &&& memblockHotplug = 0 && m.flags &&& memblockHotplug ≠ 0) ||
      (flags &&& memblockMirror ≠ 0 && m.flags &&& memblockMirror = 0) ||
      (flags &&& memblockNomap = 0 && m.flags &&& memblockNomap ≠ 0) ||
      (flags &&& memblockDriverManaged = 0 && m.flags &&& memblockDriverManaged ≠ 0))

/-- `r_gap_start` and `r_gap_end` of `__simple_next_mem_range`: the gap before the region `idxB` of
`exclude`, or behind the last one. -/
def rGapStart (exclude : MmblkType) (idxB : Nat) : Nat :=
  match idxB with
  | 0 => 0
  | b + 1 => (exclude.regions[b]?.map MmblkRgn.end_).getD 0

@[inherit_doc rGapStart]
def rGapEnd (exclude : MmblkType) (idxB : Nat) : Nat :=
  (exclude.regions[idxB]?.map MmblkRgn.base).getD physAddrMax

/-- How the inner loop of `__simple_next_mem_range` ends: at an intersection, or without one at the
index `idxB`. -/
inductive GapScan
  | found (idxB outStart outEnd : Nat)
  | passed (idxB : Nat)

/-- The inner loop from `idxB` on, for the `n = cnt + 1 - idxB` gaps left. -/
def scanGaps (exclude : MmblkType) (mStart mEnd : Nat) : Nat → Nat → GapScan
  | 0, idxB => .passed idxB
  | n + 1, idxB =>
    let gapStart := rGapStart exclude idxB
    let gapEnd := rGapEnd exclude idxB
    if mEnd ≤ gapStart then .passed idxB
    else if mStart < gapEnd then .found idxB (max mStart gapStart) (min mEnd gapEnd)
    else scanGaps exclude mStart mEnd n (idxB + 1)

/-- The outer loop from `idxA` on, for the `n = cnt - idxA` regions left. The result is the pair of
indices to go on with, and the range. -/
def scanRegions (isMemory : Bool) (within exclude : MmblkType) (flags : Nat) :
    Nat → Nat → Nat → Option ((Nat × Nat) × (Nat × Nat))
  | 0, _, _ => none
  | n + 1, idxA, idxB =>
    match within.regions[idxA]? with
    | none => none
    | some m =>
      if shouldSkipRegion isMemory m flags then
        scanRegions isMemory within exclude flags n (idxA + 1) idxB
      else
        match scanGaps exclude m.base m.end_ (exclude.cnt + 1 - idxB) idxB with
        | .found b outStart outEnd =>
          if m.end_ ≤ rGapEnd exclude b then some ((idxA + 1, b), (outStart, outEnd))
          else some ((idxA, b + 1), (outStart, outEnd))
        | .passed b => scanRegions isMemory within exclude flags n (idxA + 1) b

/-- `__simple_next_mem_range` (`memblock.c:342-401`). `*idx` holds the index into `within` in its
low half and the gap index in its high half; `none` is the end, `ULLONG_MAX`. -/
def simpleNextMemRange (isMemory : Bool) (within exclude : MmblkType) (flags idx : Nat) :
    Option (Nat × (Nat × Nat)) :=
  let idxA := idx % 2 ^ 32
  let idxB := idx / 2 ^ 32
  (scanRegions isMemory within exclude flags (within.cnt - idxA) idxA idxB).map
    fun p => (p.1.1 % 2 ^ 32 + u64 (p.1.2 * 2 ^ 32), p.2)

/-- The ranges an iteration visits from `*idx` on, at most `n` of them. -/
def forEachMemRange (isMemory : Bool) (within exclude : MmblkType) (flags : Nat) :
    Nat → Nat → List (Nat × Nat)
  | 0, _ => []
  | n + 1, idx =>
    match simpleNextMemRange isMemory within exclude flags idx with
    | none => []
    | some (idx, range) => range :: forEachMemRange isMemory within exclude flags n idx

/-- `memblock_s`, without the direction flag that no function here reads. -/
structure MemblockS where
  memory : MmblkType
  reserved : MmblkType
  currentLimit : Nat
  deriving DecidableEq

/-- `for_each_free_mem_range`: the ranges it visits. Every round moves one of the two indices, which
bounds their number. -/
def freeMemRanges (mb : MemblockS) (flags : Nat) : List (Nat × Nat) :=
  forEachMemRange true mb.memory mb.reserved flags (mb.memory.cnt + mb.reserved.cnt + 2) 0

/-! ## Trimming -/

/-- The loop of `memblock_trim_memory` with the cursor at the region `i` for the second argument
`i + 1`; the first bounds the rounds. The cursor moves down by itself, and once more by hand when a
region was removed. -/
def trimLoop (align : Nat) : Nat → Nat → MmblkType → MmblkType
  | 0, _, t => t
  | _, 0, t => t
  | n + 1, i + 1, t =>
    match t.regions[i]? with
    | none => t
    | some r =>
      let start := roundUp r.base align
      let end_ := roundDown r.end_ align
      if start = r.base ∧ end_ = r.end_ then trimLoop align n i t
      else if start < end_ then
        trimLoop align n i
          { t with regions := t.regions.set i { r with base := start, size := end_ - start } }
      else trimLoop align n (i - 1) (simpleMmblkRemoveRgn t i)

/-- `memblock_trim_memory` (`memblock.c:594-617`). -/
def memblockTrimMemory (mb : MemblockS) (align : Nat) : MemblockS :=
  { mb with memory := trimLoop align mb.memory.cnt mb.memory.cnt mb.memory }

/-! ## Allocating -/

def clamp (val lo hi : Nat) : Nat := min (max val lo) hi

/-- The body of the loop of `__memblock_find_range_bottom_up` for one free range: the candidate
address, if the block fits behind it. -/
def candidate (start end_ size align : Nat) (range : Nat × Nat) : Option Nat :=
  let thisStart := clamp range.1 start end_
  let thisEnd := clamp range.2 start end_
  let cand := roundUp thisStart align
  if cand < thisEnd ∧ size ≤ thisEnd - cand then some cand else none

/-- `__memblock_find_range_bottom_up` (`memblock.c:418-435`). -/
def memblockFindRangeBottomUp (mb : MemblockS) (start end_ size align flags : Nat) : Nat :=
  ((freeMemRanges mb flags).findSome? (candidate start end_ size align)).getD 0

/-- `simple_mmblk_reserve` (`memblock.c:281-284`). -/
def simpleMmblkReserve (mb : MemblockS) (base size : Nat) : Option MemblockS := do
  let reserved ← simpleMmblkAddRange mb.reserved base size
  some { mb with reserved := reserved }

def smpCacheBytes : Nat := 64

/-- The window end `memblock_alloc_range` works with: `MEMBLOCK_ALLOC_ACCESSIBLE` and
`MEMBLOCK_ALLOC_NOLEAKTRACE` stand for the current limit. -/
def pumpedEnd (mb : MemblockS) (end_ : Nat) : Nat :=
  if end_ = 0 ∨ end_ = 1 then mb.currentLimit else end_

/-- `memblock_alloc_range` (`memblock.c:464-488`). -/
def memblockAllocRange (mb : MemblockS) (size align start end_ : Nat) :
    Option (Nat × MemblockS) :=
  let align := if align = 0 then smpCacheBytes else align
  let end_ := pumpedEnd mb end_
  let start := max start pageSize
  let end_ := max start end_
  let found := memblockFindRangeBottomUp mb start end_ size align memblockNone
  if found = 0 then some (0, mb)
  else do
    let mb ← simpleMmblkReserve mb found size
    some (found, mb)

end MyOS2.Memblock
