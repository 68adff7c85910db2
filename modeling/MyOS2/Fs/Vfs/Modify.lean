import MyOS2.Fs.Vfs.Dcache
import Mathlib.Data.List.DropRight

/-!
# Creating and removing names (`fs/vfs/namei.c`)

The calls look up the directory and then the last component with `__lookup_hash`,
which leaves a negative dentry where there is nothing. A directory whose file system
lacks the method answers `-EPERM`. The methods themselves are those of FAT32: `create`
and `mkdir` put an entry where the directory has room, without looking at the others;
`unlink` and `rmdir` mark the entry that the inode was read from. Where there is room, and for which inode, is part of the call; clusters are
not part of the state.
-/

namespace MyOS2.Namei

def eperm : Int := 1

/-- Which methods a directory's `i_op` has. FAT32 has them all (`myos_fat32_namei.c:200-209`), the
directories of shmem have no `unlink` (`shmem.c:385-392`). -/
structure Methods where
  create : Bool
  mkdir : Bool
  rmdir : Bool
  unlink : Bool

/-- The cache with what the calls ask of an inode: `S_ISDIR (i_mode)`, which FAT32 sets for the root
only, `IS_DEADDIR`, and `i_op`. -/
structure Icache extends Dcache where
  sIsDir : Ino → Bool
  sDead : Ino → Bool
  iOp : Ino → Methods

/-- Where a new entry comes to be among the others, and its inode. -/
structure Room where
  slot : Nat
  inode : Ino

/-- Why `FAT32_alloc_new_dir` fails. -/
inductive DirError
  | noMem
  | io
  deriving DecidableEq

def DirError.errno : DirError → Int
  | .noMem => -12
  | .io => -5

/-- The call that creates a name; a new directory may fail for want of a cluster. -/
inductive Create
  | creat
  | mkdir (newDir : Option DirError)
  deriving DecidableEq

def Methods.creates (m : Methods) : Create → Bool
  | .creat => m.create
  | .mkdir _ => m.mkdir

/-- The call that removes a name. -/
inductive Remove
  | unlink
  | rmdir
  deriving DecidableEq

/-- `filename_parentat` (`namei.c:630-648`): an error, or the directory and the last component, in
`nd`. -/
def Dcache.filenameParentat (c : Dcache) (fuel : Nat) (fs : TaskFs) (name : Name) :
    Option (Int × Dcache × Nameidata) :=
  c.linkPathWalk fuel name (Vfs.pathInit fs name)

namespace Icache

section

variable (s : Icache)

/-- `__lookup_hash` (`namei.c:352-378`). -/
def lookupHash (name : Name) (base : DentryId) : Option (Except Int DentryId × Icache) :=
  match s.dLookup base name with
  | some dentry => some (.ok dentry, s)
  | none => do
    let dir ← s.dInode base
    if s.sDead dir then some (.error (-enoent), s)
    else
      some (.ok s.nextDentry, { s with toDcache := s.addChild base name (s.find dir name) })

/-- `filename_create` (`namei.c:770-823`), with `LOOKUP_DIRECTORY`: the directory and the dentry of
the last component. -/
def filenameCreate (fuel : Nat) (fs : TaskFs) (name : Name) :
    Option (Except Int (Path × DentryId) × Icache) := do
  let (err, c, nd) ← s.filenameParentat fuel fs name
  let s := { s with toDcache := c }
  if err ≠ 0 then some (.error err, s)
  else if nd.lastType ≠ .norm then some (.error (-eexist), s)
  else do
    match ← s.lookupHash nd.last nd.path.dentry with
    | (.error err, s) => some (.error err, s)
    | (.ok dentry, s) => some (.ok (nd.path, dentry), s)

/-- `vfat_add_entry` (`namei_vfat.c:199-223`): trailing dots are left out. -/
def vfatAddEntry (dir : Ino) (name : Name) (room : Room) : Int × Icache :=
  let kept := name.rdropWhile (· == '.')
  if kept = [] then (-enoent, s)
  else
    (0, { s with
      entries := Function.update s.entries dir
        ((s.entries dir).take room.slot ++ (kept, room.inode) :: (s.entries dir).drop room.slot) })

/-- `FAT32_create` (`myos_fat32_namei.c:100-111`) and `FAT32_mkdir` (`myos_fat32_namei.c:113-126`).
-/
def fat32Create (dir : Ino) (name : Name) (room : Room) : Create → Int × Icache
  | .creat => s.vfatAddEntry dir name room
  | .mkdir (some err) => (err.errno, s)
  | .mkdir none => s.vfatAddEntry dir name room

/-- `do_creatat` (`namei.c:899-934`) and `do_mkdirat` (`968-997`), which differ in the method only.
-/
def doCreate (call : Create) (room : Room) (fuel : Nat) (fs : TaskFs) (name : Name) :
    Option (Int × Icache) := do
  match ← s.filenameCreate fuel fs name with
  | (.error err, s) => some (err, s)
  | (.ok (path, dentry), s) => do
    let dir ← s.dInode path.dentry
    if !(s.iOp dir).creates call then some (-eperm, s)
    else some (s.fat32Create dir (s.dName dentry) room call)

def doCreatat : Room → Nat → TaskFs → Name → Option (Int × Icache) :=
  s.doCreate .creat

/-- `do_mkdirat` (`namei.c:966-997`). -/
def doMkdirat (newDir : Option DirError) : Room → Nat → TaskFs → Name → Option (Int × Icache) :=
  s.doCreate (.mkdir newDir)

/-- `FAT32_mark_entry_romoved` (`myos_fat32_namei.c:137-149`): the entry that the inode was read
from. -/
def fat32MarkEntryRemoved (dir inode : Ino) : Icache :=
  { s with
    entries := Function.update s.entries dir ((s.entries dir).eraseP fun e => e.2 == inode) }

/-- `vfs_unlink` (`namei.c:1125-1143`). -/
def vfsUnlink (dir inode : Ino) : Int × Icache :=
  if !(s.iOp dir).unlink then (-eperm, s) else (0, s.fat32MarkEntryRemoved dir inode)

/-- `do_unlinkat` (`namei.c:1151-1195`). -/
def doUnlinkat (fuel : Nat) (fs : TaskFs) (name : Name) : Option (Int × Icache) := do
  let (err, c, nd) ← s.filenameParentat fuel fs name
  let s := { s with toDcache := c }
  if err ≠ 0 then some (err, s)
  else if nd.lastType ≠ .norm then some (-eisdir, s)
  else do
    match ← s.lookupHash nd.last nd.path.dentry with
    | (.error err, s) => some (err, s)
    | (.ok dentry, s) => do
      let inode ← s.dInode dentry
      if s.sIsDir inode then some (-eisdir, s)
      else do
        let dir ← s.dInode nd.path.dentry
        some (s.vfsUnlink dir inode)

/-- `FAT32_rmdir` (`myos_fat32_namei.c:151-169`) and `vfs_rmdir` (`namei.c:1021-1040`). -/
def vfsRmdir (dir inode : Ino) : Int × Icache :=
  if !(s.iOp dir).rmdir then (-eperm, s)
  else if s.entries inode ≠ [] then (-enotempty, s)
  else
    let s := s.fat32MarkEntryRemoved dir inode
    (0, { s with sDead := Function.update s.sDead inode true })

/-- `do_rmdir` (`namei.c:1042-1090`). -/
def doRmdir (fuel : Nat) (fs : TaskFs) (name : Name) : Option (Int × Icache) := do
  let (err, c, nd) ← s.filenameParentat fuel fs name
  let s := { s with toDcache := c }
  if err ≠ 0 then some (err, s)
  else
    match nd.lastType with
    | .dotdot => some (-enotempty, s)
    | .dot => some (-einval, s)
    | .root => some (-ebusy, s)
    | .norm => do
      match ← s.lookupHash nd.last nd.path.dentry with
      | (.error err, s) => some (err, s)
      | (.ok dentry, s) =>
        match s.dInode dentry with
        | none => some (-enoent, s)
        | some inode =>
          if !s.sIsDir inode then some (-enotdir, s)
          else do
            let dir ← s.dInode nd.path.dentry
            some (s.vfsRmdir dir inode)

def doRemove : Remove → Nat → TaskFs → Name → Option (Int × Icache)
  | .unlink => s.doUnlinkat
  | .rmdir => s.doRmdir

end

end Icache

end MyOS2.Namei
