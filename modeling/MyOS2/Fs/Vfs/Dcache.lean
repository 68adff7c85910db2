import MyOS2.Fs.Vfs.Namei

/-!
# Path lookup over inodes (`fs/vfs/namei.c`, `fs/vfs/dcache.c`)

The walk of `MyOS2.Namei` with the inodes of the dentries and the directories of
the file systems. A dentry without an inode is negative: it says that its name
does not exist. What a step does is `none` where the code reads the inode of a
negative dentry, or goes round a loop over mounts more than `fuel` times.
-/

namespace MyOS2.Namei

open Function

def eexist : Int := 17
def enotdir : Int := 20
def eisdir : Int := 21
def einval : Int := 22
def ebusy : Int := 16
def enotempty : Int := 39

abbrev Ino := Nat
abbrev Name := List Char

/-- The dentry cache over file systems. `entries` are the names of a directory, in the order in
which its `lookup` method meets them. Every inode has that method, as in FAT32; `iLookup` is not
used here. -/
structure Dcache extends Vfs where
  dInode : DentryId → Option Ino
  entries : Ino → List (Name × Ino)

namespace Dcache

/-- `i_op->lookup`: the inode of the first entry of the name. -/
def find (c : Dcache) (dir : Ino) (name : Name) : Option Ino :=
  ((c.entries dir).find? fun e => e.1 == name).map Prod.snd

/-- `__myos_d_alloc` (`dcache.c:164-192`), and the new dentry at the tail of `d_subdirs`. -/
def addChild (c : Dcache) (dir : DentryId) (name : Name) (inode : Option Ino) : Dcache :=
  let dentry := c.nextDentry
  { c with
    dParent := update c.dParent dentry dir
    dName := update c.dName dentry name
    dSubdirs := update (update c.dSubdirs dentry []) dir (c.dSubdirs dir ++ [dentry])
    dInode := update c.dInode dentry inode
    nextDentry := c.nextDentry + 1 }

/-- `__lookup_slow` (`namei.c:308-343`). -/
def lookupSlow (c : Dcache) (name : Name) (dir : DentryId) :
    Option (Except Int (DentryId × Dcache)) := do
  let inode ← c.dInode dir
  match c.find inode name with
  | none => some (.error (-enoent))
  | some found => some (.ok (c.nextDentry, c.addChild dir name (some found)))

/-- `walk_component` (`namei.c:429-466`). -/
def walkComponent (c : Dcache) (fuel : Nat) (nd : Nameidata) :
    Option (Int × Dcache × Nameidata) :=
  if nd.lastType ≠ .norm then do
    let nd ← c.handleDots fuel nd
    some (0, c, nd)
  else
    match c.dLookup nd.path.dentry nd.last with
    | some dentry => do
      let nd ← c.stepInto fuel nd dentry
      some (0, c, nd)
    | none => do
      match ← c.lookupSlow nd.last nd.path.dentry with
      | .error err => some (err, c, nd)
      | .ok (dentry, c) => do
        let nd ← c.stepInto fuel nd dentry
        some (0, c, nd)

/-- The loop of `link_path_walk` (`namei.c:478-539`). -/
def linkPathLoop (fuel : Nat) : Nat → Dcache → List Char → Nameidata →
    Option (Int × Dcache × Nameidata)
  | 0, _, _, _ => none
  | n + 1, c, name, nd =>
    let last := name.takeWhile (· != '/')
    let rest := (name.dropWhile (· != '/')).dropWhile (· == '/')
    let nd := { nd with last, lastType := Vfs.lastTypeOf last }
    if rest = [] then some (0, c, nd)
    else do
      let (err, c, nd) ← c.walkComponent fuel nd
      if err ≠ 0 then some (err, c, nd) else linkPathLoop fuel n c rest nd

/-- `link_path_walk` (`namei.c:478-539`). -/
def linkPathWalk (c : Dcache) (fuel : Nat) (name : List Char) (nd : Nameidata) :
    Option (Int × Dcache × Nameidata) :=
  let nd := { nd with lastType := .root }
  let name := name.dropWhile (· == '/')
  if name = [] then some (0, c, nd) else linkPathLoop fuel name.length c name nd

/-- `path_lookupat` (`namei.c:572-592`). An error of the last component is found again by
`link_path_walk` and ends the loop. -/
def pathLookupat (c : Dcache) (fuel : Nat) (fs : TaskFs) (name : List Char) :
    Option (Except Int Path × Dcache) := do
  let (err, c, nd) ← c.linkPathWalk fuel name (Vfs.pathInit fs name)
  if err ≠ 0 then some (.error err, c)
  else do
    let (err, c, nd) ← c.walkComponent fuel nd
    if err ≠ 0 then some (.error err, c) else some (.ok nd.path, c)

end Dcache

end MyOS2.Namei
