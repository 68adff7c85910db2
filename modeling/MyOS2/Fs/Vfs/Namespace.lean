import MyOS2.Fs.Vfs.Dcache

/-!
# Mounting (`fs/vfs/namespace.c`)

`do_mount` looks a directory up, climbs to the top of the mounts on it, and puts a
new mount there: one of a file system that `vfs_get_tree` answers with, or a bind
mount of another path. A mount that is refused stays behind, attached to nothing.
Memory for mounts and mount points is always there.
-/

namespace MyOS2.Namei

open Function

abbrev SbId := Nat

/-- The mounts of a system; `nextMnt` is what the allocator gives out next. -/
structure Namespace extends Dcache where
  mntSb : MntId → SbId
  nextMnt : MntId

/-- What `vfs_get_tree` (`super.c:423-474`) leaves in `fc->root`: the root of a file system that is
there already, or of a new one with the given inode. -/
inductive Tree
  | error (err : Int)
  | known (root : DentryId) (sb : SbId)
  | fresh (inode : Ino) (sb : SbId)

/-- What is mounted: `MS_BIND` with `dev_name`, which is `none` when it is `NULL`, or a file system.
-/
inductive Source
  | bind (oldName : Option Name)
  | new (tree : Tree)

/-- The arguments of a call of `do_mount`, by a process with the given root and working directory.
-/
structure MountCall where
  fs : TaskFs
  dirName : Name
  source : Source

/-- `lock_mount` (`namespace.c:229-253`). -/
def Vfs.lockMount (v : Vfs) : Nat → Path → Option Path
  | 0, _ => none
  | fuel + 1, path =>
    match v.lookupMnt path with
    | none => some path
    | some mnt => v.lockMount fuel ⟨mnt, v.mntRoot mnt⟩

namespace Namespace

section

variable (n : Namespace)

/-- `d_make_root` (`dcache.c:362-374`). -/
def addRoot (inode : Ino) : DentryId × Namespace :=
  let dentry := n.nextDentry
  (dentry, { n with
    dParent := update n.dParent dentry dentry
    dName := update n.dName dentry ['/']
    dSubdirs := update n.dSubdirs dentry []
    dInode := update n.dInode dentry (some inode)
    nextDentry := n.nextDentry + 1 })

/-- `vfs_create_mount` and `clone_mnt` (`380-399`): a mount that is its own parent. -/
def createMount (root : DentryId) (sb : SbId) : MntId × Namespace :=
  let mnt := n.nextMnt
  (mnt, { n with
    mntSb := update n.mntSb mnt sb
    mntRoot := update n.mntRoot mnt root
    mntMountpoint := update n.mntMountpoint mnt root
    mntParent := update n.mntParent mnt mnt
    mntMounts := update n.mntMounts mnt []
    nextMnt := n.nextMnt + 1 })

/-- `attach_recursive_mnt` (`namespace.c:322-350`) and `graft_tree` (`namespace.c:367-375`). -/
def mntSetMountpoint (path : Path) (child : MntId) : Namespace :=
  { n with
    mntMountpoint := update n.mntMountpoint child path.dentry
    mntParent := update n.mntParent child path.mnt
    mntMounts := update n.mntMounts path.mnt (n.mntMounts path.mnt ++ [child]) }

/-- `__do_loopback` (`namespace.c:400-423`) and `do_loopback` (`namespace.c:428-463`). -/
def doLoopback (fuel : Nat) (fs : TaskFs) (path : Path) : Option Name → Option (Int × Namespace)
  | none | some [] => some (-einval, n)
  | some oldName => do
    match ← n.pathLookupat fuel fs oldName with
    | (.error err, c) => some (err, { n with toDcache := c })
    | (.ok oldPath, c) => do
      let n := { n with toDcache := c }
      let path ← n.lockMount fuel path
      let (mnt, n) := n.createMount oldPath.dentry (n.mntSb oldPath.mnt)
      some (0, n.mntSetMountpoint path mnt)

/-- `do_add_mount` (`namespace.c:469-495`): the same file system is refused on its own root. -/
def doAddMount (newmnt : MntId) (path : Path) : Int × Namespace :=
  if n.mntSb path.mnt = n.mntSb newmnt ∧ n.mntRoot path.mnt = path.dentry then (-ebusy, n)
  else (0, n.mntSetMountpoint path newmnt)

/-- `do_new_mount_fc` (`namespace.c:501-536`). -/
def doNewMountFc (fuel : Nat) (path : Path) (root : DentryId) (sb : SbId) :
    Option (Int × Namespace) := do
  let (mnt, n) := n.createMount root sb
  let path ← n.lockMount fuel path
  some (n.doAddMount mnt path)

/-- `do_new_mount` (`namespace.c:545-592`). -/
def doNewMount (fuel : Nat) (path : Path) : Tree → Option (Int × Namespace)
  | .error err => some (err, n)
  | .known root sb => n.doNewMountFc fuel path root sb
  | .fresh inode sb =>
    let (root, n) := n.addRoot inode
    n.doNewMountFc fuel path root sb

/-- `do_mount` (`namespace.c:634-645`) and `path_mount` (`namespace.c:611-629`). -/
def doMount (fuel : Nat) (call : MountCall) : Option (Int × Namespace) := do
  match ← n.pathLookupat fuel call.fs call.dirName with
  | (.error err, c) => some (err, { n with toDcache := c })
  | (.ok path, c) =>
    let n := { n with toDcache := c }
    match call.source with
    | .bind oldName => n.doLoopback fuel call.fs path oldName
    | .new tree => n.doNewMount fuel path tree

end

end Namespace

end MyOS2.Namei
