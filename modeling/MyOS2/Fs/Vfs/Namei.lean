import Mathlib.Logic.Function.Basic

/-!
# Path lookup (`fs/vfs/namei.c`)

A path is a mount and a dentry. The walk goes down through the dentry cache, which
it extends by what the file system finds, and into whatever is mounted where it
arrives; `..` goes up, across the root of a mount to the place it is mounted on.
A walk that never ends is `none`; the functions that fail return a negative number.
-/

namespace MyOS2.Namei

open Function

abbrev MntId := Nat
abbrev DentryId := Nat

/-- `path_s` (`path.h`). -/
structure Path where
  mnt : MntId
  dentry : DentryId
  deriving DecidableEq

def enoent : Int := 2

/-- The mounts and the dentry cache. `iLookup` tells which names the file system of a directory
knows; `nextDentry` is given out next. -/
structure Vfs where
  mntRoot : MntId → DentryId
  mntMountpoint : MntId → DentryId
  mntParent : MntId → MntId
  mntMounts : MntId → List MntId
  dParent : DentryId → DentryId
  dName : DentryId → List Char
  dSubdirs : DentryId → List DentryId
  nextDentry : DentryId
  iLookup : DentryId → List Char → Bool

/-- `LAST_ROOT` and the others, as in `last_type`. -/
inductive LastType
  | root
  | norm
  | dot
  | dotdot
  deriving DecidableEq

/-- `nameidata_s` (`namei.c:36-53`). -/
structure Nameidata where
  path : Path
  root : Path
  last : List Char
  lastType : LastType

/-- `root` and `pwd` of `taskfs_s`. -/
structure TaskFs where
  root : Path
  pwd : Path

namespace Vfs

/-- `mnt_has_parent` (`mount.h:88-91`). -/
def mntHasParent (v : Vfs) (m : MntId) : Bool := m != v.mntParent m

/-- `choose_mountpoint` (`namei.c:199-218`). -/
def chooseMountpoint (v : Vfs) (root : Path) : Nat → MntId → Option (Option Path)
  | 0, _ => none
  | fuel + 1, m =>
    if v.mntHasParent m then
      let mountpoint := v.mntMountpoint m
      let m := v.mntParent m
      if root.dentry = mountpoint ∧ root.mnt = m then some none
      else if mountpoint ≠ v.mntRoot m then some (some ⟨m, mountpoint⟩)
      else v.chooseMountpoint root fuel m
    else some none

/-- `__lookup_mnt` (`namespace.c:60-73`) and `lookup_mnt` (`namespace.c:91-100`). -/
def lookupMnt (v : Vfs) (path : Path) : Option MntId :=
  (v.mntMounts path.mnt).find? fun p =>
    v.mntParent p == path.mnt && v.mntMountpoint p == path.dentry

/-- `traverse_mounts` (`namei.c:223-242`). -/
def traverseMounts (v : Vfs) : Nat → Path → Option Path
  | 0, _ => none
  | fuel + 1, path =>
    match v.lookupMnt path with
    | some mounted => v.traverseMounts fuel ⟨mounted, v.mntRoot mounted⟩
    | none => some path

section

variable (v : Vfs)

/-- `handle_mounts` (`namei.c:248-255`) and `step_into` (`namei.c:293-303`). -/
def stepInto (fuel : Nat) (nd : Nameidata) (dentry : DentryId) : Option Nameidata := do
  let path ← v.traverseMounts fuel ⟨nd.path.mnt, dentry⟩
  some { nd with path }

/-- `__d_lookup` (`dcache.c:133-151`); `strncmp` looks no further than the name that is searched
for. -/
def dLookup (parent : DentryId) (name : List Char) : Option DentryId :=
  (v.dSubdirs parent).find? fun c => name.isPrefixOf (v.dName c)

/-- `__lookup_slow` (`namei.c:308-343`). -/
def lookupSlow (name : List Char) (dir : DentryId) : Except Int (DentryId × Vfs) :=
  if v.iLookup dir name then
    let dentry := v.nextDentry
    .ok (dentry, { v with
      dParent := update v.dParent dentry dir
      dName := update v.dName dentry name
      dSubdirs := update (update v.dSubdirs dentry []) dir (v.dSubdirs dir ++ [dentry])
      nextDentry := v.nextDentry + 1 })
  else .error (-enoent)

/-- `follow_dotdot` (`namei.c:383-403`). -/
def followDotdot (fuel : Nat) (nd : Nameidata) : Option (Option DentryId × Nameidata) :=
  if nd.path.dentry = v.mntRoot nd.path.mnt then do
    match ← v.chooseMountpoint nd.root fuel nd.path.mnt with
    | none => some (none, nd)
    | some path => some (some (v.dParent path.dentry), { nd with path })
  else some (some (v.dParent nd.path.dentry), nd)

/-- `handle_dots` (`namei.c:407-425`). -/
def handleDots (fuel : Nat) (nd : Nameidata) : Option Nameidata :=
  if nd.lastType = .dotdot then do
    match ← v.followDotdot fuel nd with
    | (none, nd) => v.stepInto fuel nd nd.path.dentry
    | (some parent, nd) => v.stepInto fuel nd parent
  else some nd

/-- `walk_component` (`namei.c:429-466`). -/
def walkComponent (fuel : Nat) (nd : Nameidata) : Option (Int × Vfs × Nameidata) :=
  if nd.lastType ≠ .norm then do
    let nd ← v.handleDots fuel nd
    some (0, v, nd)
  else
    match v.dLookup nd.path.dentry nd.last with
    | some dentry => do
      let nd ← v.stepInto fuel nd dentry
      some (0, v, nd)
    | none =>
      match v.lookupSlow nd.last nd.path.dentry with
      | .error err => some (err, v, nd)
      | .ok (dentry, v) => do
        let nd ← v.stepInto fuel nd dentry
        some (0, v, nd)

end

def lastTypeOf (name : List Char) : LastType :=
  if name = ['.', '.'] then .dotdot else if name = ['.'] then .dot else .norm

/-- The loop of `link_path_walk` (`namei.c:478-539`). -/
def linkPathLoop (fuel : Nat) : Nat → Vfs → List Char → Nameidata →
    Option (Int × Vfs × Nameidata)
  | 0, _, _, _ => none
  | n + 1, v, name, nd =>
    let last := name.takeWhile (· != '/')
    let rest := (name.dropWhile (· != '/')).dropWhile (· == '/')
    let nd := { nd with last, lastType := lastTypeOf last }
    if rest = [] then some (0, v, nd)
    else do
      let (err, v, nd) ← v.walkComponent fuel nd
      if err ≠ 0 then some (err, v, nd) else linkPathLoop fuel n v rest nd

/-- `link_path_walk` (`namei.c:478-539`). -/
def linkPathWalk (v : Vfs) (fuel : Nat) (name : List Char) (nd : Nameidata) :
    Option (Int × Vfs × Nameidata) :=
  let nd := { nd with lastType := .root }
  let name := name.dropWhile (· == '/')
  if name = [] then some (0, v, nd) else linkPathLoop fuel name.length v name nd

/-- `path_init` (`namei.c:547-560`). -/
def pathInit (fs : TaskFs) (name : List Char) : Nameidata :=
  { path := if name.head? = some '/' then fs.root else fs.pwd
    root := fs.root
    last := []
    lastType := .root }

/-- `path_lookupat` (`namei.c:572-592`). An error of the last component is found again by
`link_path_walk` and ends the loop. -/
def pathLookupat (v : Vfs) (fuel : Nat) (fs : TaskFs) (name : List Char) :
    Option (Except Int Path × Vfs) := do
  let (err, v, nd) ← v.linkPathWalk fuel name (pathInit fs name)
  if err ≠ 0 then some (.error err, v)
  else do
    let (err, v, nd) ← v.walkComponent fuel nd
    if err ≠ 0 then some (.error err, v) else some (.ok nd.path, v)

/-- `init_chroot` (`init.c:59-80`). -/
def initChroot (v : Vfs) (fuel : Nat) (fs : TaskFs) (filename : List Char) :
    Option (Int × TaskFs × Vfs) := do
  match ← v.pathLookupat fuel fs filename with
  | (.error err, v) => some (err, fs, v)
  | (.ok path, v) => some (0, { fs with root := path }, v)

/-! ## What lies below a directory -/

def up (v : Vfs) (path : Path) : Option Path :=
  if path.dentry = v.mntRoot path.mnt then
    if v.mntHasParent path.mnt then some ⟨v.mntParent path.mnt, v.mntMountpoint path.mnt⟩
    else none
  else some ⟨path.mnt, v.dParent path.dentry⟩

/-- Going up, across mounts too, leads to the root. -/
inductive Below (v : Vfs) (root : Path) : Path → Prop
  | root : Below v root root
  | under {path above : Path} : v.up path = some above → Below v root above → Below v root path

/-- The dentry lies in the part of its file system that the mount shows. -/
inductive Shown (v : Vfs) (m : MntId) : DentryId → Prop
  | root : Shown v m (v.mntRoot m)
  | child {d : DentryId} : d < v.nextDentry → v.dParent d ≠ d → Shown v m (v.dParent d) →
      Shown v m d

/-- Parents of dentries and of mounts lead to an end, children are entered with their parents,
mounts sit on directories that are there, and the allocator gives out what nothing refers to. -/
structure WellFormed (v : Vfs) : Prop where
  mounts : ∃ (rank : MntId → Nat) (bound : Nat),
    ∀ m, rank m < bound ∧ (v.mntParent m ≠ m → rank (v.mntParent m) < rank m)
  dentries : ∃ depth : DentryId → Nat,
    ∀ d < v.nextDentry, v.dParent d ≠ d → depth (v.dParent d) < depth d
  dParent : ∀ d < v.nextDentry, v.dParent d < v.nextDentry
  mounted : ∀ m, ∀ k ∈ v.mntMounts m, k ≠ m
  mountpoint : ∀ m, v.mntParent m ≠ m → v.Shown (v.mntParent m) (v.mntMountpoint m)
  mntRoot : ∀ m, v.mntRoot m < v.nextDentry
  subdirs : ∀ d, ∀ c ∈ v.dSubdirs d, c < v.nextDentry ∧ v.dParent c = d ∧ c ≠ d

/-- The mount has no parent, or it covers the root of such a mount, directly or with other mounts in
between. -/
inductive OnTop (v : Vfs) : MntId → Prop
  | top {m : MntId} : v.mntParent m = m → OnTop v m
  | covers {m : MntId} : v.mntMountpoint m = v.mntRoot (v.mntParent m) →
      OnTop v (v.mntParent m) → OnTop v m

end Vfs

end MyOS2.Namei
