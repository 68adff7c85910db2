import MyOS2.Mm.VmMap.UnmappedArea

/-!
# Mapping memory (`do_mmap` in `mm/vm_map/mmap.c`)

The checks of a request, the choice of its address, the test of `MAP_FIXED_NOREPLACE`, and
the flags of the new area. `simple_mmap_region` is `VmaList.mapRegion`, with its error for
a file that may not be mapped writable. Errors are returned as `ulong`.
-/

namespace MyOS2.Mmap

/-! ## Flags of a request and of an area -/

def protRead : Nat := 1
def protWrite : Nat := 2
def protExec : Nat := 4

def mapShared : Nat := 1
def mapPrivate : Nat := 2
def mapSharedValidate : Nat := 3
def mapDroppable : Nat := 8
def mapType : Nat := 0xf
def mapGrowsdown : Nat := 0x100
def mapLocked : Nat := 0x2000
def mapHugetlb : Nat := 0x40000
def mapSync : Nat := 0x80000
def mapFixedNoreplace : Nat := 0x100000

def legacyMapMask : Nat :=
  mapShared ||| mapPrivate ||| mapFixed ||| 0x20 ||| 0x800 ||| 0x1000 ||| 0x4000000 |||
    mapGrowsdown ||| mapLocked ||| 0x4000 ||| 0x8000 ||| 0x10000 ||| 0x20000 ||| mapHugetlb |||
    0x40 ||| 21 <<< 26 ||| 30 <<< 26

def vmRead : Nat := 1
def vmWrite : Nat := 2
def vmExec : Nat := 4
def vmShared : Nat := 8
def vmMayread : Nat := 0x10
def vmMaywrite : Nat := 0x20
def vmMayexec : Nat := 0x40
def vmMayshare : Nat := 0x80
def vmLocked : Nat := 0x2000
def vmNoreserve : Nat := 0x200000
def vmSync : Nat := 0x800000
def vmWipeonfork : Nat := 0x2000000
def vmDontdump : Nat := 0x4000000
def vmDroppable : Nat := 2 ^ 40

def hasBit (x mask : Nat) : Bool := x &&& mask != 0

def clearBits (x mask : Nat) : Nat := x ^^^ (x &&& mask)

def calcVmTrans (x bit1 bit2 : Nat) : Nat :=
  if bit1 = 0 ∨ bit2 = 0 then 0
  else if bit1 ≤ bit2 then (x &&& bit1) * (bit2 / bit1)
  else (x &&& bit1) / (bit1 / bit2)

/-- `calc_vm_prot_bits` (`vm_map.h:413-419`). -/
def calcVmProtBits (prot : Nat) : Nat :=
  calcVmTrans prot protRead vmRead ||| calcVmTrans prot protWrite vmWrite |||
    calcVmTrans prot protExec vmExec

/-- `calc_vm_flag_bits` (`vm_map.h:425-431`). -/
def calcVmFlagBits (flags : Nat) : Nat :=
  calcVmTrans flags mapGrowsdown vmGrowsdown ||| calcVmTrans flags mapLocked vmLocked |||
    calcVmTrans flags mapSync vmSync

/-! ## The request -/

/-- What `do_mmap` reads of a `file_s`, its inode and its mapping. -/
structure MmapFile where
  id : FileId
  /-- `path_noexec`. -/
  noexec : Bool
  /-- `FMODE_READ`, `FMODE_WRITE` and `FMODE_UNSIGNED_OFFSET` of `f_mode`. -/
  read : Bool
  write : Bool
  unsignedOffset : Bool
  /-- A regular file, a block device or a socket. -/
  sized : Bool
  /-- `IS_APPEND`. -/
  append : Bool
  /-- `FOP_MMAP_SYNC`. -/
  mmapSync : Bool
  /-- `f_op->mmap` is there; it is `generic_file_mmap` wherever it is. -/
  mmap : Bool
  /-- `i_mmap_writable` is negative. -/
  denyWritable : Bool

/-- The arguments of `do_mmap`. -/
structure MmapReq where
  file : Option MmapFile
  addr : Nat
  len : Nat
  prot : Nat
  flags : Nat
  vmFlags : Nat
  pgoff : Nat

/-- The other fields of the `mm_s`, and `sysctl_max_map_count`. -/
structure MmapEnv where
  mmapBase : Nat
  defFlags : Nat
  maxMapCount : Int

/-- `round_hint_to_min` (`mmap.c:424-431`). -/
def roundHintToMin (hint : Nat) : Nat :=
  let hint := pageMask hint
  if hint ≠ 0 ∧ hint < mmapMinAddr then pageAlign mmapMinAddr else hint

/-- `file_mmap_ok` (`mmap.c:452-462`). -/
def fileMmapOk (f : MmapFile) (pgoff len : Nat) : Bool :=
  let maxsize := if f.sized then 2 ^ 63 - 1 else if f.unsignedOffset then 0 else 2 ^ 64 - 1
  if maxsize ≠ 0 ∧ maxsize < len then false
  else decide (pgoff ≤ u64Sub maxsize len / pageSize)

/-- The switch of `do_mmap` (`mmap.c:468-646`) for a file: the flags of the new area. -/
def fileVmFlags (f : MmapFile) (prot flags pgoff len vmFlags : Nat) : Except Nat Nat := do
  if !fileMmapOk f pgoff len then throw 75
  let flagsMask := legacyMapMask ||| if f.mmapSync then mapSync else 0
  let type := flags &&& mapType
  if type ≠ mapShared ∧ type ≠ mapSharedValidate ∧ type ≠ mapPrivate then throw 22
  -- `MAP_SHARED` drops the flags it does not know, and falls through
  let vmFlags ← if type = mapPrivate then pure vmFlags else do
    if type = mapSharedValidate && hasBit (clearBits flags flagsMask) (2 ^ 64 - 1) then throw 95
    if hasBit prot protWrite && !f.write then throw 13
    if f.append && f.write then throw 13
    let vmFlags := vmFlags ||| vmShared ||| vmMayshare
    pure (if f.write then vmFlags else clearBits vmFlags (vmMaywrite ||| vmShared))
  if !f.read then throw 13
  let vmFlags ← if f.noexec then do
      if hasBit vmFlags vmExec then throw 1
      pure (clearBits vmFlags vmMayexec)
    else pure vmFlags
  if !f.mmap then throw 19
  if hasBit vmFlags vmGrowsdown then throw 22
  pure vmFlags

/-- The switch of `do_mmap` (`mmap.c:468-646`) without a file: flags and `pgoff`, or an error. -/
def anonVmFlags (addr flags vmFlags : Nat) : Except Nat (Nat × Nat) := do
  let type := flags &&& mapType
  if type = mapShared then
    if hasBit vmFlags vmGrowsdown then throw 22
    pure (vmFlags ||| vmShared ||| vmMayshare, 0)
  else if type = mapDroppable then
    if hasBit flags (mapLocked ||| mapHugetlb) then throw 22
    if hasBit vmFlags vmGrowsdown then throw 22
    pure (vmFlags ||| vmDroppable ||| vmNoreserve ||| vmWipeonfork ||| vmDontdump, addr / pageSize)
  else if type = mapPrivate then pure (vmFlags, addr / pageSize)
  else throw 22

def reqArea (r : MmapReq) (prot flags vmFlags addr len : Nat) : Except Nat Vma :=
  match r.file with
  | some f => do
    let vmFlags ← fileVmFlags f prot flags r.pgoff len vmFlags
    pure ⟨addr, addr + len, r.pgoff, vmFlags, some f.id, false⟩
  | none => do
    let (vmFlags, pgoff) ← anonVmFlags addr flags vmFlags
    pure ⟨addr, addr + len, pgoff, vmFlags, none, false⟩

/-- What `simple_mmap_region` gets for its file: `mapping_map_writable` for a shared area that may
be written. -/
def setupError (r : MmapReq) (area : Vma) : Int :=
  if r.file.any (·.denyWritable) && hasBit area.vmFlags vmShared && hasBit area.vmFlags vmMaywrite then
    -eperm
  else 0

namespace VmaList

/-- `do_mmap` (`mmap.c:468-646`). -/
def doMmap (l : VmaList Vma) (m : MmapEnv) (r : MmapReq) (a : Allocs) :
    Option (Nat × VmaList Vma) :=
  if r.len = 0 then some (errValue 22, l)
  else
    let prot := if hasBit r.prot protRead && !r.file.any (·.noexec) then r.prot ||| protExec
      else r.prot
    let flags := if hasBit r.flags mapFixedNoreplace then r.flags ||| mapFixed else r.flags
    let addr := if hasBit flags mapFixed then r.addr else roundHintToMin r.addr
    let len := pageAlign r.len
    if len = 0 then some (errValue 12, l)
    else if (r.pgoff + len / pageSize) % 2 ^ 64 < r.pgoff then some (errValue 75, l)
    else if m.maxMapCount < l.mapCount then some (errValue 12, l)
    else
      let vmFlags := r.vmFlags ||| calcVmProtBits prot ||| calcVmFlagBits flags ||| m.defFlags |||
        vmMayread ||| vmMaywrite ||| vmMayexec
      do
        let addr ← l.getUnmappedArea m.mmapBase addr len flags
        if isErrValue addr then some (addr, l)
        else
          let found ← if hasBit flags mapFixedNoreplace then
              l.findVmaIntersection addr ((addr + len) % 2 ^ 64)
            else some none
          if found.isSome then some (errValue 17, l)
          else
            match reqArea r prot flags vmFlags addr len with
            | .error err => some (errValue err, l)
            | .ok area =>
              (l.mapRegion area (setupError r area) a).map fun x =>
                (if x.1 = 0 then addr else errValue (-x.1).toNat, x.2)

end VmaList

end MyOS2.Mmap
