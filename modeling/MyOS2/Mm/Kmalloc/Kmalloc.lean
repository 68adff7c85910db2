import MyOS2.Mm.Kmalloc.Slub

/-!
# The `kmalloc` family (`mm/kmalloc/slub.h`, `slab_common.c`)

A request goes to one of the caches `kmalloc_caches` or, above `KMALLOC_MAX_CACHE_SIZE`, to the
page allocator; `kfree` finds out which it was from the first page of the block. The state holds
the caches, the pages, and where every block handed out came from. What `alloc_pages` answers is
an input; it refuses orders above `MAX_ORDER`. `none` is a call that does not come back.
-/

namespace MyOS2.Kmalloc

open Function Slub

def kmallocMaxCacheSize : Nat := 4096

/-- `size_to_index` (`slab_common.c:158-172`); it spins on other sizes. -/
def sizeToIndex (bytes : Nat) : Option Nat :=
  if bytes = 0 ∨ 192 < bytes then none
  else some (
    let k := (bytes - 1) / 8
    if k = 0 then 3 else if k = 1 then 4 else if k ≤ 3 then 5 else if k ≤ 7 then 6
    else if k ≤ 11 then 1 else if k ≤ 15 then 7 else if k ≤ 23 then 2 else 255)

def kmallocInfo : List Nat :=
  [0, 96, 192, 8, 16, 32, 64, 128, 256, 512, 1024, 2048, 4096, 8192, 16384, 32768, 65536, 131072,
    262144, 524288, 1048576, 2097152]

/-- `kmalloc_slab` (`slab_common.c:178-189`). -/
def kmallocSlab (size : Nat) : Option (Option Nat) :=
  if size = 0 ∨ kmallocMaxCacheSize < size then some none
  else if size ≤ 192 then (sizeToIndex size).map some
  else some (some (fls64 (size - 1)))

/-- `create_kmalloc_cache` (`slab_common.c:138-150`). -/
def createKmallocCache (index : Nat) : Option (Except Int Cache) :=
  simpleKmemCacheOpen (BitVec.ofNat 32 (kmallocInfo.getD index 0)) 8 none

/-- `create_kmalloc_caches` (`slab_common.c:231-243`). -/
def kmallocCaches (index : Nat) : Cache :=
  match createKmallocCache index with
  | some (.ok c) => c
  | _ => ⟨0, 0, 0, 0, 0, none⟩

/-- Where a block comes from, and where `kfree` puts it: a cache, or the page allocator with the
first page and the order. -/
inductive Origin
  | cache (index : Nat)
  | pages (pfn : Pfn) (order : Nat)
  deriving DecidableEq

def Origin.bytes : Origin → Nat
  | .cache index => (kmallocCaches index).objectSize
  | .pages _ order => 4096 * 2 ^ order

/-- The caches of `kmalloc`, the pages and the blocks in use. -/
structure Heap where
  users : Nat → Users
  /-- `compound_head`. -/
  head : Pfn → Pfn
  /-- `PG_slab`, with `slab_cache`. -/
  slab : Pfn → Option Nat
  /-- `folio_order`. -/
  order : Pfn → Nat
  live : List (Addr × Origin)

/-- What a call returns: the pointer, where it is from, and how many bytes of the block were cleared
last. -/
structure Block where
  ptr : Addr
  origin : Origin
  cleared : Nat

/-- The memory when a call returns, from what it was before its `memset`. -/
def Block.after (b : Block) (mem : Addr → UInt8) : Addr → UInt8 := fun a =>
  if b.ptr ≤ a ∧ a < b.ptr + b.cleared then 0 else mem a

namespace Heap

/-- The pages of a block name the first one as their head. -/
def compound (h : Heap) (pfn order : Nat) : Pfn → Pfn := fun q =>
  if pfn ≤ q ∧ q < pfn + 2 ^ order then pfn else h.head q

def addSlab (h : Heap) (index : Nat) : Option Pages → Heap
  | some pg =>
    { h with
      head := h.compound pg.pfn (kmallocCaches index).order
      slab := update h.slab pg.pfn (some index) }
  | none => h

/-- `kmem_cache_alloc` (`slub.c:227-229`). -/
def kmemCacheAlloc (h : Heap) (index : Nat) (zero : Bool) (answers : List (Option Pages)) :
    Option (Option Block × Heap) := do
  let c := kmallocCaches index
  let (r, u) ← (h.users index).step c (.alloc answers zero)
  let h' := { h.addSlab index (newSlab (h.users index) (.alloc answers zero)) with
    users := update h.users index u }
  match r with
  | .allocated x =>
    if x = 0 then some (none, h')
    else some (some ⟨x, .cache index, if zero then c.objectSize else 0⟩,
      { h' with live := (x, .cache index) :: h.live })
  | _ => none

/-- `kmalloc_large` (`slab_common.c:265-275`). -/
def kmallocLarge (h : Heap) (size : Nat) (zero : Bool) (answers : List (Option Pages)) :
    Option (Option Block × Heap) :=
  let order := getOrder size
  if 10 < order then some (none, h)
  else
    match answers with
    | some pg :: _ =>
      some (some ⟨pageToVirt pg.pfn, .pages pg.pfn order, if zero then size else 0⟩,
        { h with
          head := h.compound pg.pfn order
          order := update h.order pg.pfn order
          live := (pageToVirt pg.pfn, .pages pg.pfn order) :: h.live })
    | _ => some (none, h)

/-- `__kmalloc` (`slab_common.c:246-257`): it spins on sizes that no cache has. -/
def kmalloc' (h : Heap) (size : Nat) (zero : Bool) (answers : List (Option Pages)) :
    Option (Option Block × Heap) :=
  if kmallocMaxCacheSize < size then none
  else do
    match ← kmallocSlab size with
    | some index => h.kmemCacheAlloc index zero answers
    | none => some (none, h)

/-- `kmalloc` (`slub.h:125-134`) and `kzalloc` (`slub.h:169-172`). -/
def kmalloc (h : Heap) (size : Nat) (zero : Bool) (answers : List (Option Pages)) :
    Option (Option Block × Heap) :=
  if kmallocMaxCacheSize < size then h.kmallocLarge size zero answers
  else h.kmalloc' size zero answers

/-- `kmalloc_array`, and `kcalloc` with `zero` (`slub.h:139-160`); `constant` is what
`__builtin_constant_p` answers for both arguments: 0 in a build without `-O`, as this one is. -/
def kmallocArray (h : Heap) (constant : Bool) (n size : Nat) (zero : Bool)
    (answers : List (Option Pages)) : Option (Option Block × Heap) :=
  if 2 ^ 64 ≤ n * size then some (none, h)
  else if constant then h.kmalloc (n * size) zero answers
  else h.kmalloc' (n * size) zero answers

/-- Which allocator `kfree` (`slub.h:182-196`) gives a block to. -/
def kfreeTo (h : Heap) (x : Addr) : Origin :=
  let folio := h.head (virtToPfn x)
  match h.slab folio with
  | some index => .cache index
  | none => .pages folio (h.order folio)

/-- `free_large_kmalloc` (`slab_common.c:278-284`) and `kfree` (`slub.h:182-196`). -/
def kfree (h : Heap) (x : Addr) : Option Heap :=
  match h.kfreeTo x with
  | .cache index => do
    let (r, u) ← (h.users index).step (kmallocCaches index) (.free x)
    let slab := match r with
      | .freed (some (p, _)) => update h.slab p none
      | _ => h.slab
    some { h with
      users := update h.users index u
      slab
      live := h.live.erase (x, .cache index) }
  | .pages pfn order => some { h with live := h.live.erase (x, .pages pfn order) }

end Heap

/-! ## Runs -/

/-- The calls, with what `alloc_pages` answers. -/
inductive Op
  | kmalloc (size : Nat) (zero : Bool) (answers : List (Option Pages))
  | kmallocArray (constant : Bool) (n size : Nat) (zero : Bool) (answers : List (Option Pages))
  | kfree (x : Addr)

def Op.bytes : Op → Nat
  | .kmalloc size _ _ => size
  | .kmallocArray _ n size _ _ => n * size
  | .kfree _ => 0

def Op.zero : Op → Bool
  | .kmalloc _ zero _ => zero
  | .kmallocArray _ _ _ zero _ => zero
  | .kfree _ => false

namespace Heap

def step (h : Heap) : Op → Option (Option Block × Heap)
  | .kmalloc size zero answers => h.kmalloc size zero answers
  | .kmallocArray constant n size zero answers => h.kmallocArray constant n size zero answers
  | .kfree x => (h.kfree x).map fun h' => (none, h')

/-- The pages from `pfn` on are in no slab and in no block that was handed out. -/
def Unused (h : Heap) (pfn order : Nat) : Prop :=
  (∀ p index, h.slab p = some index →
    p + 2 ^ (kmallocCaches index).order ≤ pfn ∨ pfn + 2 ^ order ≤ p) ∧
  ∀ x p o, (x, .pages p o) ∈ h.live → p + 2 ^ o ≤ pfn ∨ pfn + 2 ^ order ≤ p

/-- What `alloc_pages` answers to the request: unused pages, marked as compound pages when there is
more than one. -/
def AnswersOk (h : Heap) (size : Nat) : List (Option Pages) → Prop
  | [] => False
  | none :: _ => True
  | some pg :: _ =>
    if kmallocMaxCacheSize < size then h.Unused pg.pfn (getOrder size)
    else ∀ index, kmallocSlab size = some (some index) →
      h.Unused pg.pfn (kmallocCaches index).order ∧
        pg.head = decide (0 < (kmallocCaches index).order)

/-- Sizes are 64-bit numbers, and blocks are freed that were handed out. -/
def Ok (h : Heap) : Op → Prop
  | .kmalloc size _ answers => size < 2 ^ 64 ∧ h.AnswersOk size answers
  | .kmallocArray _ n size _ answers =>
    (n < 2 ^ 64 ∧ size < 2 ^ 64) ∧ h.AnswersOk (n * size) answers
  | .kfree x => ∃ o, (x, o) ∈ h.live

/-- The caches were just created, and no page is a slab. -/
structure Start (h : Heap) : Prop where
  users : ∀ index, Users.Start (h.users index)
  slab : ∀ p, h.slab p = none
  live : h.live = []

end Heap

end MyOS2.Kmalloc
