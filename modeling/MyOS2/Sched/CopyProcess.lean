import MyOS2.Sched.ProcessTree
import Mathlib.Tactic.Simps.Basic

/-!
# What a clone copies and what it shares (`sched/forkexec/fork.c`)

`copy_process` starts with a byte copy of the caller's task, so that every
pointer of the child is the caller's. The copiers then either raise the use
count of the object or put an object of the child's own in its place; when one
of them fails the objects taken so far are given back in reverse order.

An object is named by its address. What the allocators answer is an input.
-/

namespace MyOS2.Fork

open Function

def nrOpenDefault : Nat := 256

def nsig : Nat := 64

def enomem : Int := 12
def eagain : Int := 11

/-- What path lookups read of a `taskfs_s`. -/
structure Dirs where
  umask : Int
  root : Nat
  pwd : Nat
  deriving DecidableEq

structure Fs where
  users : Int
  inExec : Bool
  dirs : Dirs
  deriving DecidableEq

/-- `file_s`: its `f_count` and the other fields. -/
structure File where
  count : Int
  rest : Nat
  deriving DecidableEq

structure Files where
  refcount : Int
  fdCount : Nat
  fd : Fin nrOpenDefault → Option Addr

structure Sighand where
  count : Int
  action : Fin nsig → Nat

/-- `mm_s`: its `mm_users`, and what a load at each address gives. -/
structure Mm where
  users : Int
  mem : Nat → Nat

/-- The objects that tasks share, with their counts. -/
structure Objects where
  fs : Addr → Option Fs
  files : Addr → Option Files
  file : Addr → Option File
  sighand : Addr → Option Sighand
  mm : Addr → Option Mm

/-- The pointers of a task to its objects. -/
structure Task where
  fs : Option Addr
  files : Option Addr
  sighand : Addr
  mm : Option Addr
  deriving DecidableEq

/-- What the allocators answer. -/
structure Answers where
  /-- `dup_task_struct`, and `set_kthread_struct` for a kernel thread. -/
  task : Bool
  /-- The new `files_struct_s`, with what its `fd_array` held before. -/
  files : Option (Addr × (Fin nrOpenDefault → Option Addr))
  /-- The new `file_s` for each descriptor. -/
  file : Fin nrOpenDefault → Option Addr
  fs : Option Addr
  sighand : Option Addr
  signal : Bool
  /-- `allocate_mm` and `pgd_alloc`; then the memory that `dup_mmap` makes. -/
  mm : Option (Addr × Option (Nat → Nat))
  /-- The first error of `copy_namespaces`, `copy_thread` and `alloc_pid`. -/
  rest : Except Int Unit

/-- The answer of a copier and the objects after it; `none` is an access to an object that does not
exist. -/
abbrev Copied (α : Type) := Option (Except Int α × Objects)

namespace Objects

section

variable (o : Objects) (a : Addr)

@[simps -fullyApplied]
def putFs (v : Option Fs) : Objects :=
  { o with fs := update o.fs a v }

@[simps -fullyApplied]
def putFiles (v : Option Files) : Objects :=
  { o with files := update o.files a v }

@[simps -fullyApplied]
def putFile (v : Option File) : Objects :=
  { o with file := update o.file a v }

@[simps -fullyApplied]
def putSighand (v : Option Sighand) : Objects :=
  { o with sighand := update o.sighand a v }

@[simps -fullyApplied]
def putMm (v : Option Mm) : Objects :=
  { o with mm := update o.mm a v }

/-! ## Giving objects back -/

/-- `fput` (`file_table.c:108-129`), which is all of `filp_close`. -/
def fput : Option Objects :=
  (o.file a).map fun f =>
    o.putFile a (if f.count - 1 = 0 then none else some { f with count := f.count - 1 })

end

/-- The loop of `put_files_struct` over the descriptors that are left. -/
def closeFrom (o : Objects) (files : Files) : List (Fin nrOpenDefault) → Option Objects
  | [] => some o
  | i :: is =>
    if i.val < files.fdCount then
      match files.fd i with
      | none => o.closeFrom files is
      | some a => (o.fput a).bind fun o => o.closeFrom files is
    else some o

section

variable (o : Objects)

/-- `put_files_struct` (`file.c:72-96`). -/
def putFilesStruct (a : Addr) : Option Objects := do
  let files ← o.files a
  if files.refcount - 1 = 0 then
    let o ← o.closeFrom files (List.finRange nrOpenDefault)
    some (o.putFiles a none)
  else
    some (o.putFiles a (some { files with refcount := files.refcount - 1 }))

/-- `exit_files` (`file.c:98-108`). -/
def exitFiles (p : Task) : Option Objects :=
  match p.files with
  | none => some o
  | some a => o.putFilesStruct a

/-- `exit_fs` (`fs_struct.c:92-109`) and `free_fs_struct` (`fs_struct.c:85-90`). -/
def exitFs (p : Task) : Option Objects :=
  match p.fs with
  | none => some o
  | some a => (o.fs a).map fun fs =>
    o.putFs a (if fs.users - 1 = 0 then none else some { fs with users := fs.users - 1 })

/-- `__cleanup_sighand` (`fork.c:774-784`). -/
def cleanupSighand (a : Addr) : Option Objects :=
  (o.sighand a).map fun s =>
    o.putSighand a (if s.count - 1 = 0 then none else some { s with count := s.count - 1 })

/-- `mmput` (`fork.c:455-461`); nothing happens at zero, `__mmput` is empty. -/
def mmput (a : Addr) : Option Objects :=
  (o.mm a).map fun m => o.putMm a (some { m with users := m.users - 1 })

end

/-! ## The copiers -/

/-- One turn of the loop of `dup_fd`: a descriptor that is not open leaves what the new table has
there. The answer of `kzalloc` is not checked. -/
def dupFdStep (old : Files) (a : Answers) (st : Objects × (Fin nrOpenDefault → Option Addr))
    (i : Fin nrOpenDefault) : Option (Objects × (Fin nrOpenDefault → Option Addr)) :=
  match old.fd i with
  | none => some st
  | some oldFp => do
    let file ← st.1.file oldFp
    let newFp ← a.file i
    some (st.1.putFile newFp (some file), update st.2 i (some newFp))

/-- `dup_fd (oldf, NR_OPEN_MAX, &error)`. -/
def dupFd (o : Objects) (old : Files) (a : Answers) : Copied Addr :=
  match a.files with
  | none => some (.error (-enomem), o)
  | some (new, left) =>
    ((List.finRange nrOpenDefault).foldlM (dupFdStep old a) (o, left)).map fun st =>
      (.ok new, st.1.putFiles new (some ⟨1, nrOpenDefault, st.2⟩))

section

variable (o : Objects) (current : Task) (flags : CloneFlags) (a : Answers)

/-- `copy_files` (`fork.c:721-746`). -/
def copyFiles : Copied (Option Addr) :=
  match current.files with
  | none => some (.ok none, o)
  | some oldf => (o.files oldf).bind fun old =>
    if flags.has cloneFiles then
      some (.ok (some oldf), o.putFiles oldf (some { old with refcount := old.refcount + 1 }))
    else
      (o.dupFd old a).map fun r => (r.1.map some, r.2)

/-- `copy_fs` (`fork.c:701-719`) and `copy_fs_struct` (`fs_struct.c:111-131`). -/
def copyFs : Copied (Option Addr) :=
  current.fs.bind fun cur => (o.fs cur).bind fun fs =>
  if flags.has cloneFs then
    if fs.inExec then some (.error (-eagain), o)
    else some (.ok (some cur), o.putFs cur (some { fs with users := fs.users + 1 }))
  else
    match a.fs with
    | none => some (.error (-enomem), o)
    | some new => some (.ok (some new), o.putFs new (some ⟨1, false, fs.dirs⟩))

/-- `copy_sighand` (`fork.c:749-772`): the field `sighand` of the child. The new object is filled
in, and not assigned to the field. -/
def copySighand : Copied Addr :=
  (o.sighand current.sighand).bind fun sig =>
  if flags.has cloneSighand then
    some (.ok current.sighand,
      o.putSighand current.sighand (some { sig with count := sig.count + 1 }))
  else
    match a.sighand with
    | none => some (.error (-enomem), o)
    | some new => some (.ok current.sighand, o.putSighand new (some ⟨1, sig.action⟩))

end

/-- `copy_signal` (`fork.c:787-837`), as far as it can fail. -/
def copySignal (o : Objects) (flags : CloneFlags) (a : Answers) : Copied Unit :=
  if !flags.has cloneThread && !a.signal then some (.error (-enomem), o)
  else some (.ok (), o)

/-- `dup_mm` (`fork.c:644-674`). When `dup_mmap` fails the new object stays, with no user. -/
def dupMm (o : Objects) (a : Answers) : Option Addr × Objects :=
  match a.mm with
  | none => (none, o)
  | some (new, none) => (none, o.putMm new (some ⟨0, fun _ => 0⟩))
  | some (new, some mem) => (some new, o.putMm new (some ⟨1, mem⟩))

/-- `copy_mm` (`fork.c:676-699`). -/
def copyMm (o : Objects) (current : Task) (flags : CloneFlags) (a : Answers) :
    Copied (Option Addr) :=
  match current.mm with
  | none => some (.ok none, o)
  | some oldmm => (o.mm oldmm).bind fun mm =>
    if flags.has cloneVm then
      some (.ok (some oldmm), o.putMm oldmm (some { mm with users := mm.users + 1 }))
    else
      match o.dupMm a with
      | (none, o) => some (.error (-enomem), o)
      | (some new, o) => some (.ok (some new), o)

/-! ## copy_process -/

/-- A copier, with the labels from which on the function unwinds when it fails and what follows when
it does not. -/
def attempt {α : Type} (copier : Copied α) (unwind : Objects → Option Objects)
    (next : α → Objects → Copied Task) : Copied Task :=
  match copier with
  | none => none
  | some (.error e, o) => (unwind o).map fun o => (.error e, o)
  | some (.ok v, o) => next v o

section

variable (p : Task) (o : Objects)

def cleanupFs : Option Objects :=
  (o.exitFs p).bind fun o => o.exitFiles p

def cleanupFromSighand : Option Objects :=
  (o.cleanupSighand p.sighand).bind (cleanupFs p)

def cleanupMm : Option Objects :=
  match p.mm with
  | none => cleanupFromSighand p o
  | some mm => (o.mmput mm).bind (cleanupFromSighand p)

end

/-- `copy_process` (`fork.c:866-1432`). -/
def copyProcess (o : Objects) (current : Task) (flags : CloneFlags)
    (unkillable otherPidNs : Bool) (a : Answers) : Copied Task :=
  if flagsRefused flags unkillable otherPidNs then some (.error (-einval), o)
  else if !a.task then some (.error (-enomem), o)
  else
    -- the child starts as a copy of the caller's task
    attempt (o.copyFiles current flags a) some fun files o =>
    let p := { current with files := files }
    attempt (o.copyFs current flags a) (exitFiles · p) fun fs o =>
    let p := { p with fs := fs }
    attempt (o.copySighand current flags a) (cleanupFs p) fun sighand o =>
    let p := { p with sighand := sighand }
    attempt (o.copySignal flags a) (cleanupFromSighand p) fun _ o =>
    attempt (o.copyMm current flags a) (cleanupFromSighand p) fun mm o =>
    let p := { p with mm := mm }
    match a.rest with
    | .error e => (cleanupMm p o).map fun o => (.error e, o)
    | .ok () => some (.ok p, o)

/-! ## What a task sees of its objects, and how it changes them -/

section

variable (o : Objects) (t : Task)

def dirsOf : Option Dirs := (t.fs.bind o.fs).map Fs.dirs

def descriptorsOf : Option (Nat × (Fin nrOpenDefault → Option File)) :=
  (t.files.bind o.files).map fun files => (files.fdCount, fun i => (files.fd i).bind o.file)

def actionsOf : Option (Fin nsig → Nat) :=
  (o.sighand t.sighand).map Sighand.action

def memOf : Option (Nat → Nat) := (t.mm.bind o.mm).map Mm.mem

/-- `chdir`, `chroot` and `umask` of a task. -/
def setDirs (d : Dirs) : Objects :=
  match t.fs with
  | none => o
  | some a => o.putFs a ((o.fs a).map fun fs => { fs with dirs := d })

def setFd (i : Fin nrOpenDefault) (f : Option Addr) : Objects :=
  match t.files with
  | none => o
  | some a => o.putFiles a ((o.files a).map fun files =>
    { files with fd := update files.fd i f })

/-- The file behind a descriptor of a task, when it has one. -/
def fileAt (i : Fin nrOpenDefault) : Option Addr :=
  (t.files.bind o.files).bind fun files => files.fd i

/-- A task moves the position of an open file, or changes its flags. -/
def setFile (i : Fin nrOpenDefault) (rest : Nat) : Objects :=
  match o.fileAt t i with
  | none => o
  | some a => o.putFile a ((o.file a).map fun file => { file with rest := rest })

def setAction (sig : Fin nsig) (act : Nat) : Objects :=
  o.putSighand t.sighand ((o.sighand t.sighand).map fun s =>
    { s with action := update s.action sig act })

def store (addr v : Nat) : Objects :=
  match t.mm with
  | none => o
  | some a => o.putMm a ((o.mm a).map fun m =>
    { m with mem := update m.mem addr v })

end

end Objects

end MyOS2.Fork
