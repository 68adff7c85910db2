import Mathlib.Algebra.Group.Nat.Defs
import Mathlib.Logic.Function.Basic

/-!
# The per-cpu allocator

`mm/misc/percpu.c` gives out offsets from chunks. A chunk has room for one unit per cpu; a
per-cpu pointer is an offset from the first chunk, and the copy of a cpu lies
`pcpu_unit_offsets[cpu]` bytes above it. An `int` is a 32-bit word whose arithmetic wraps
around.

A call is given the addresses that `kzalloc` will answer with; creating a chunk fails when there
are no more.
-/

namespace MyOS2.Percpu

abbrev CInt := BitVec 32

def enomem : CInt := 12

/-- `pcpu_chunk_s`. `base_addr` is the distance of `data` from the first chunk. -/
structure Chunk where
  freeBytes : CInt
  freeOffset : CInt
  baseAddr : Int
  data : Nat
  deriving DecidableEq

/-- The globals of `percpu.c`; `pcpu_chunk_lists` in list order. The first chunk comes first,
`pcpu_reserved_chunk` second. -/
structure Globals where
  nrCpuIds : Nat
  staticSize : Nat
  chunkSize : Nat
  pcpuBaseAddr : Nat
  chunks : List Chunk
  deriving DecidableEq

/-- `ALIGN(x, a)` for an `int` `x` and a `size_t` `a`. -/
def align (x : CInt) (a : Nat) : CInt :=
  let mask : CInt := BitVec.ofNat 32 a - 1
  (x + mask) &&& ~~~mask

/-- `simple_pcpu_find_block_fit` (`percpu.c:173-181`). -/
def simplePcpuFindBlockFit (chunk : Chunk) (size : CInt) (a : Nat) : CInt :=
  let allocOffset := align chunk.freeOffset a
  let needSize := allocOffset + size - chunk.freeOffset
  if chunk.freeBytes.slt needSize then -enomem else allocOffset

/-- The chunk after an area of `size` bytes was taken at `start`: the free bytes do not pay for what
lies between the old free offset and `start`. -/
def Chunk.take (chunk : Chunk) (size start : CInt) : Chunk :=
  { chunk with freeOffset := start + size, freeBytes := chunk.freeBytes - size }

/-- `simple_pcpu_alloc_area` (`percpu.c:204-212`). It spins for ever when `start` lies below the
free offset. -/
def simplePcpuAllocArea (chunk : Chunk) (size start : CInt) : Option (CInt × Chunk) :=
  if start.slt chunk.freeOffset then none else some (start, chunk.take size start)

/-- `simple_pcpu_create_chunk` (`percpu.c:120-135`). -/
def Globals.newChunk (g : Globals) (data : Nat) : Chunk :=
  { freeBytes := BitVec.ofNat 32 g.chunkSize
    freeOffset := 0
    baseAddr := (data : Int) - g.pcpuBaseAddr
    data := data }

/-- The loop over the chunks: the index of the chunk that served the request, the offset in it and
the chunks afterwards. -/
def searchChunks (size : CInt) (a : Nat) : List Chunk → Option (Option (Nat × CInt × List Chunk))
  | [] => some none
  | chunk :: rest =>
    let off := simplePcpuFindBlockFit chunk size a
    if off.slt 0 then do
      let found ← searchChunks size a rest
      some (found.map fun r => (r.1 + 1, r.2.1, chunk :: r.2.2))
    else do
      let (off, chunk) ← simplePcpuAllocArea chunk size off
      some (some (0, off, chunk :: rest))

/-- From `restart` on: search, and create a chunk as long as nothing fits. -/
def restart (size : CInt) (a : Nat) :
    List Nat → Globals → Option (Option (Nat × CInt) × Globals)
  | news, g => do
    match ← searchChunks size a g.chunks with
    | some (i, off, chunks) => some (some (i, off), { g with chunks := chunks })
    | none =>
      match news with
      | [] => some (none, g)
      | data :: news => restart size a news { g with chunks := g.chunks ++ [g.newChunk data] }

/-- Reserved requests are served from the reserved chunk alone. -/
def allocReserved (size : CInt) (a : Nat) (g : Globals) :
    Option (Option (Nat × CInt) × Globals) :=
  match g.chunks with
  | first :: reserved :: rest =>
    let off := simplePcpuFindBlockFit reserved size a
    if off.slt 0 then some (none, g)
    else do
      let (off, reserved) ← simplePcpuAllocArea reserved size off
      some (some (1, off), { g with chunks := first :: reserved :: rest })
  | _ => none

/-- `simple_pcpu_alloc_noprof` (`percpu.c:231-331`), with the chunk and the offset in it in place of
their sum. Passing `size` on truncates it. -/
def simplePcpuAllocNoprof (size a : Nat) (reserved : Bool) (news : List Nat) (g : Globals) :
    Option (Option (Nat × CInt) × Globals) :=
  let size : CInt := BitVec.ofNat 32 size
  if reserved then allocReserved size a g else restart size a news g

/-- `__roundup_pow_of_two` (`log2.h:44-51`). -/
def roundupPowOfTwo (n : Nat) : Nat := 2 ^ (Nat.log2 (n - 1) + 1)

def pageSize : Nat := 4096

/-- `size_sum` of `simple_pcpu_setup_first_chunk`: the static area and what is reserved behind it.
-/
def sizeSum (staticSize : Nat) : Nat := staticSize + 2 * pageSize

/-- `early_pcpu_create_chunk` (`percpu.c:136-151`) and `simple_pcpu_setup_first_chunk`
(`percpu.c:337-370`). -/
def simplePcpuSetupFirstChunk (nrCpuIds staticSize first reserved : Nat) : Globals :=
  let g : Globals :=
    { nrCpuIds := nrCpuIds
      staticSize := staticSize
      chunkSize := roundupPowOfTwo (sizeSum staticSize)
      pcpuBaseAddr := first
      chunks := [] }
  let firstChunk : Chunk :=
    { freeBytes := BitVec.ofNat 32 (g.chunkSize - sizeSum staticSize)
      freeOffset := BitVec.ofNat 32 (sizeSum staticSize)
      baseAddr := 0
      data := first }
  { g with chunks := [firstChunk, g.newChunk reserved] }

/-- `pcpu_unit_offsets`, as `simple_pcpu_setup_first_chunk` (`percpu.c:337-370`) fills it. -/
def Globals.pcpuUnitOffsets (g : Globals) (cpu : Nat) : Nat := cpu * g.staticSize

/-! ## The allocator and its users -/

/-- A per-cpu variable: the range it was given in its chunk. -/
structure Area where
  chunk : Nat
  off : Nat
  size : Nat
  align : Nat
  deriving DecidableEq

/-- The allocator together with the per-cpu variables there are. The static ones are one range at
the start of the first chunk. -/
structure Areas extends Globals where
  vars : List Area
  deriving DecidableEq

/-- A request, with the memory `kzalloc` has for new chunks. -/
structure Op where
  size : Nat
  align : Nat
  reserved : Bool
  news : List Nat

/-- One allocation: the per-cpu pointer, `none` for `NULL`. -/
def Areas.step (s : Areas) (op : Op) : Option (Option Int × Areas) := do
  let (found, g) ← simplePcpuAllocNoprof op.size op.align op.reserved op.news s.toGlobals
  match found with
  | none => some (none, { s with toGlobals := g })
  | some (i, off) =>
    let base := (g.chunks[i]?.map Chunk.baseAddr).getD 0
    let v : Area := { chunk := i, off := off.toNat, size := op.size, align := op.align }
    some (some (base + off.toInt), { toGlobals := g, vars := v :: s.vars })

/-- The ranges `[a, a + m)` and `[b, b + n)` have no byte in common. -/
def Apart (a : Int) (m : Nat) (b : Int) (n : Nat) : Prop :=
  m = 0 ∨ n = 0 ∨ a + m ≤ b ∨ b + n ≤ a

instance (a : Int) (m : Nat) (b : Int) (n : Nat) : Decidable (Apart a m b n) :=
  inferInstanceAs (Decidable (_ ∨ _ ∨ _ ∨ _))

/-- The memory of a chunk at `data` holds a unit of `chunk_size` bytes for each cpu. -/
def Globals.unitsApart (g : Globals) (data data' : Nat) : Prop :=
  Apart data (g.nrCpuIds * g.chunkSize) data' (g.nrCpuIds * g.chunkSize)

instance (g : Globals) (data data' : Nat) : Decidable (g.unitsApart data data') :=
  inferInstanceAs (Decidable (Apart _ _ _ _))

/-- The allocator after setup, with the static variables. The linker script keeps the static area
below `0x1000000` bytes (`kernel.lds:96`). -/
def Areas.Start (s : Areas) : Prop :=
  ∃ nrCpuIds staticSize first reserved, staticSize < 0x1000000 ∧
    s.toGlobals = simplePcpuSetupFirstChunk nrCpuIds staticSize first reserved ∧
    s.unitsApart first reserved ∧
    s.vars = [{ chunk := 0, off := 0, size := staticSize, align := 1 }]

/-- The alignment is a power of two, the arguments are `size_t` values, and `kzalloc` answers with
memory that is not in use. -/
def Areas.Ok (s : Areas) (op : Op) : Prop :=
  (∃ k, op.align = 2 ^ k) ∧ op.align < 2 ^ 64 ∧ op.size < 2 ^ 64 ∧
    (s.chunks.map Chunk.data ++ op.news).Pairwise s.unitsApart

end MyOS2.Percpu
