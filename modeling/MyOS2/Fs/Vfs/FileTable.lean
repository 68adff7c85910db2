import MyOS2.Misc.Runs
import Mathlib.Algebra.GroupWithZero.Nat
import Mathlib.Data.List.Nodup

/-!
# Open files and descriptor tables (`fs/vfs/file.c`, `fs/vfs/file_table.c`, `fs/syscall.c`)

An open file is reached from the slots of descriptor tables and through the temporary references
of `fget`. The file keeps, besides `f_count`, the cache its memory came from and the caches it
has been given back to; a released file is never allocated again under the same name, so that a
second release can be told apart from that of a new file. A step is `none` where the code reads
a released file, an empty slot or a descriptor that was never assigned.
-/

namespace MyOS2.Files

open Function

abbrev FileId := Nat
abbrev TableId := Nat
abbrev TaskId := Nat

/-- Where the memory of a `file_s` comes from or goes to. -/
inductive Cache
  | filp
  | kmalloc
  deriving DecidableEq

/-- A `file_s`: `f_count`, and where its memory came from and was given back to. -/
structure OpenFile where
  fCount : Int
  cache : Cache
  released : List Cache
  deriving DecidableEq

/-- `files_struct_s` (`fdtable.h:48-69`). -/
structure FilesStruct where
  refcount : Int
  fdCount : Nat
  fdArray : List (Option FileId)
  deriving DecidableEq

def nrOpenDefault : Nat := 256

def ebadf : Int := 9
def enomem : Int := 12
def einval : Int := 22
def maxErrno : Int := 4095

abbrev FileMap := FileId → Option OpenFile

/-- The tasks, their tables and the files. `tables` are those not freed, `held` the references taken
by `fget` and not yet put, `nofile` is the limit `RLIMIT_NOFILE`. -/
structure State where
  file : FileMap
  table : TableId → FilesStruct
  tables : List TableId
  tasks : List TaskId
  files : TaskId → Option TableId
  held : List FileId
  nofile : Nat

section

variable (file : FileMap) (f : FileId)

def FileMap.deref : Option OpenFile :=
  (file f).filter fun fl => fl.released.isEmpty

/-- `__alloc_file` (`file_table.c:39-64`) and `alloc_empty_file` (`file_table.c:76-106`). -/
def FileMap.allocFile : FileMap :=
  update file f (some { fCount := 1, cache := .filp, released := [] })

def FileMap.getFile : Option FileMap := do
  let fl ← file.deref f
  some (update file f (some { fl with fCount := fl.fCount + 1 }))

/-- `fput` (`file_table.c:108-129`): `kmem_cache_free` takes the cache it is told to. -/
def FileMap.fput : Option FileMap := do
  let fl ← file.deref f
  if fl.fCount - 1 = 0 then
    some (update file f
      (some { fl with fCount := fl.fCount - 1, released := fl.released ++ [.filp] }))
  else
    some (update file f (some { fl with fCount := fl.fCount - 1 }))

end

/-- `kfree` (`slub.h:182-196`) of a slot's pointer: the cache is that of the slab the object is in,
and a null pointer is left alone. -/
def FileMap.kfree (file : FileMap) : Option FileId → Option FileMap
  | none => some file
  | some f => do
    let fl ← file f
    some (update file f (some { fl with released := fl.released ++ [fl.cache] }))

/-- The loop of `put_files_struct` (`file.c:72-96`) over the array. -/
def FileMap.closeFiles (file : FileMap) : List (Option FileId) → Option FileMap
  | [] => some file
  | none :: slots => file.closeFiles slots
  | some f :: slots => do
    let file ← file.fput f
    file.closeFiles slots

/-- The loop of `dup_fd` (`file.c:29-70`). `ids` are the objects that `kzalloc` gives, `stale` what
the memory of the new table held; the copy of a file keeps its count. -/
def FileMap.dupSlots (file : FileMap) :
    List (Option FileId) → List FileId → List (Option FileId) →
    Option (FileMap × List (Option FileId))
  | [], _, _ => some (file, [])
  | none :: old, _ :: ids, junk :: stale => do
    let (file, new) ← file.dupSlots old ids stale
    some (file, junk :: new)
  | some f :: old, id :: ids, _ :: stale => do
    let fl ← file.deref f
    let file : FileMap :=
      update file id (some { fl with cache := .kmalloc, released := [] })
    let (file, new) ← file.dupSlots old ids stale
    some (file, some id :: new)
  | _, _, _ => none

/-- `alloc_fd` (`file.c:129-145`): the first empty slot from `start` on. With none below `stop` the
descriptor is not assigned or lies past the array. -/
def allocFd (fdArray : List (Option FileId)) (start stop : Nat) : Option Nat :=
  (List.range' start (stop - start)).find? fun i => fdArray[i]? = some none

namespace State

section

variable (s : State)

/-- `current->files`, in a task that has not been through `exit_files`. -/
def filesOf (x : TaskId) : Option (TableId × FilesStruct) := do
  let t ← s.files x
  if t ∈ s.tables then some (t, s.table t) else none

/-- `fd_install` (`file.c:184-193`). -/
def fdInstall (t : TableId) (fd : Nat) (f : FileId) : State :=
  let files := { s.table t with fdArray := (s.table t).fdArray.set fd (some f) }
  { s with table := update s.table t files }

/-- `do_sys_openat2` with `path_openat` (`namei.c:713-738`): `f` is the object `__alloc_file` gets,
`error` what the walk comes to. An `error` outside the range of `IS_ERR` would be installed as a
pointer. -/
def sysOpen (x : TaskId) (f : Option FileId) (error : Int) : Option (Int × State) := do
  let (t, files) ← s.filesOf x
  let fd ← allocFd files.fdArray 0 files.fdCount
  match f with
  | none => some (-enomem, s)
  | some f =>
    let file := s.file.allocFile f
    if error = 0 then some (fd, { s with file := file }.fdInstall t fd f)
    else
      let file ← file.fput f
      if -maxErrno ≤ error ∧ error < 0 then some (error, { s with file := file }) else none

/-- `f_dupfd` (`file.c:229-241`). -/
def fDupfd (x : TaskId) (fd start : Nat) : Option (Int × State) := do
  let (t, files) ← s.filesOf x
  let slot ← files.fdArray[fd]?
  let f ← slot
  if s.nofile ≤ start then some (-einval, s)
  else
    let new ← allocFd files.fdArray start s.nofile
    let file ← s.file.getFile f
    some (new, { s with file := file }.fdInstall t new f)

/-- `__simple_fget` (`file.c:207-217`) and `fget` (`file.c:219-221`). -/
def fget (x : TaskId) (fd : Nat) : Option (Int × State) := do
  let (_, files) ← s.filesOf x
  if fd < files.fdCount then
    let slot ← files.fdArray[fd]?
    let f ← slot
    let file ← s.file.getFile f
    some (0, { s with file := file, held := f :: s.held })
  else some (0, s)

/-- `fput` (`file_table.c:108-129`) by a task that holds the file. -/
def putHeld (f : FileId) : Option (Int × State) := do
  let file ← s.file.fput f
  some (0, { s with file := file, held := s.held.erase f })

def sysClose (x : TaskId) (fd : Nat) : Option (Int × State) := do
  let (t, files) ← s.filesOf x
  if files.fdCount ≤ fd then some (-ebadf, s)
  else
    let fp ← files.fdArray[fd]?
    let file ← s.file.kfree fp
    let files := { files with fdArray := files.fdArray.set fd none }
    some (0, { s with file := file, table := update s.table t files })

/-- The new task `y`, whose `task_s` is a copy of that of `x` but for the table. -/
def addTask (y : TaskId) (t : Option TableId) : State :=
  { s with tasks := y :: s.tasks, files := update s.files y t }

/-- `copy_files` (`fork.c:721-746`) with `CLONE_FILES`. -/
def forkShared (x y : TaskId) : Option (Int × State) :=
  match s.files x with
  | none => some (0, s.addTask y none)
  | some t =>
    if t ∈ s.tables then
      let files := { s.table t with refcount := (s.table t).refcount + 1 }
      some (0, { s with table := update s.table t files }.addTask y (some t))
    else none

/-- `copy_files` (`fork.c:721-746`) without `CLONE_FILES`, and `dup_fd`: `t` is the memory
`kmem_cache_alloc` gives for the new table. -/
def forkCopied (x y : TaskId) (t : Option TableId) (ids : List FileId)
    (stale : List (Option FileId)) : Option (Int × State) :=
  match s.files x with
  | none => some (0, s.addTask y none)
  | some told =>
    if told ∈ s.tables then
      match t with
      | none => some (-enomem, s)
      | some t => do
        let (file, fdArray) ← s.file.dupSlots (s.table told).fdArray ids stale
        let new := { refcount := 1, fdCount := nrOpenDefault, fdArray := fdArray }
        some (0, { s with
          file := file
          table := update s.table t new
          tables := t :: s.tables }.addTask y (some t))
    else none

/-- `put_files_struct` (`file.c:72-96`). -/
def putFilesStruct (t : TableId) : Option (Int × State) :=
  if t ∈ s.tables then
    let files := s.table t
    let put := { files with refcount := files.refcount - 1 }
    if put.refcount = 0 then do
      let file ← s.file.closeFiles (files.fdArray.take files.fdCount)
      some (0, { s with
        file := file
        table := update s.table t put
        tables := s.tables.erase t })
    else some (0, { s with table := update s.table t put })
  else none

/-- `exit_files` (`file.c:98-108`). -/
def exitFiles (x : TaskId) : Option (Int × State) :=
  match s.files x with
  | none => some (0, s)
  | some t => { s with files := update s.files x none }.putFilesStruct t

end

end State

/-- The calls of tasks on their tables. -/
inductive Op
  | open (x : TaskId) (f : Option FileId) (error : Int)
  | dupfd (x : TaskId) (fd start : Nat)
  | fget (x : TaskId) (fd : Nat)
  | fput (f : FileId)
  | close (x : TaskId) (fd : Nat)
  | forkShared (x y : TaskId)
  | forkCopied (x y : TaskId) (t : Option TableId) (ids : List FileId)
      (stale : List (Option FileId))
  | exit (x : TaskId)

def step (s : State) : Op → Option (Int × State)
  | .open x f error => s.sysOpen x f error
  | .dupfd x fd start => s.fDupfd x fd start
  | .fget x fd => s.fget x fd
  | .fput f => s.putHeld f
  | .close x fd => s.sysClose x fd
  | .forkShared x y => s.forkShared x y
  | .forkCopied x y t ids stale => s.forkCopied x y t ids stale
  | .exit x => s.exitFiles x

/-- What the allocators and the callers promise: memory that is handed out is free, a new task is
new, and only what `fget` gave is put. -/
def Ok (s : State) : Op → Prop
  | .open _ f _ => ∀ g ∈ f, s.file g = none
  | .fput f => f ∈ s.held
  | .forkShared _ y => y ∉ s.tasks
  | .forkCopied _ y t ids stale =>
    y ∉ s.tasks ∧ (∀ u ∈ t, u ∉ s.tables) ∧ ids.Nodup ∧ (∀ id ∈ ids, s.file id = none) ∧
      ids.length = nrOpenDefault ∧ stale.length = nrOpenDefault
  | .dupfd .. | .fget .. | .close .. | .exit .. => True

instance (s : State) (op : Op) : Decidable (Ok s op) := by
  cases op <;> unfold Ok <;> infer_instance

def initFiles : FilesStruct :=
  { refcount := 1, fdCount := 0, fdArray := List.replicate nrOpenDefault none }

/-- The first task with `init_files`, and no file yet. -/
def Start (s : State) : Prop :=
  (∀ f, s.file f = none) ∧ s.held = [] ∧
    ∃ x t, s.tasks = [x] ∧ s.tables = [t] ∧ s.table t = initFiles ∧
      s.files = update (fun _ => none) x (some t)

def slotRefs (table : TableId → FilesStruct) (tables : List TableId) (f : FileId) : Nat :=
  (tables.map fun t => (table t).fdArray.count (some f)).sum

/-- The slots and the temporary references that refer to `f`. -/
def State.refs (s : State) (f : FileId) : Nat :=
  slotRefs s.table s.tables f + s.held.count f

/-- A file whose last reference is gone has been released once, to the cache it came from, and no
other file has; no table refers to memory that is not a file. -/
def Lifetime (s : State) : Prop :=
  ∀ f, match s.file f with
    | none => s.refs f = 0
    | some fl => fl.released = if s.refs f = 0 then [fl.cache] else []

/-- The calls after which counts and caches are still right. `close` frees a file whatever its count
is, `dup_fd` gives a copy the count of the original and leaves the other slots as the memory was,
and `fput` gives every file back to `filp_cachep`. -/
def Sound (s : State) : Op → Prop
  | .close x fd =>
    ∀ t ∈ s.files x, fd < (s.table t).fdCount →
      ∀ slot ∈ (s.table t).fdArray[fd]?, ∀ f ∈ slot, ∀ fl ∈ s.file f, fl.fCount = 1
  | .forkCopied x _ (some _) _ stale =>
    ∀ t ∈ s.files x,
      (∀ slot ∈ (s.table t).fdArray, ∀ f ∈ slot, ∀ fl ∈ s.file f, fl.fCount = 1) ∧
      ∀ i < nrOpenDefault, (s.table t).fdArray[i]? = some none → stale[i]? = some none
  | .fput f => ∀ fl ∈ s.file f, fl.fCount = 1 → fl.cache = .filp
  | .exit x =>
    ∀ t ∈ s.files x, (s.table t).refcount = 1 →
      ∀ slot ∈ (s.table t).fdArray, ∀ f ∈ slot, ∀ fl ∈ s.file f,
        fl.fCount = (s.table t).fdArray.count (some f) → fl.cache = .filp
  | .forkCopied _ _ none .. | .open .. | .dupfd .. | .fget .. | .forkShared .. => True

instance (s : State) (op : Op) : Decidable (Sound s op) := by
  unfold Sound
  split <;> infer_instance

def StepOk (s : State) (op : Op) : Prop := Ok s op ∧ Sound s op

instance (s : State) (op : Op) : Decidable (StepOk s op) := inferInstanceAs (Decidable (_ ∧ _))

end MyOS2.Files
