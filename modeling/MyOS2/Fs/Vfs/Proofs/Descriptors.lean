import MyOS2.Fs.Vfs.Proofs.FileTable

/-!
# The discipline of descriptor tables

What `open`, `f_dupfd`, `close` and the copy of a table by `dup_fd` do to the
slots. A descriptor that is handed out is the lowest unused index of the array
from the requested minimum on, the other slots keep their files, and a call that
fails leaves all of them alone.
-/

namespace MyOS2.Files

open Function Option List

/-- Index `i` lies in the array and no file is installed there. -/
def Unused (files : FilesStruct) (i : Nat) : Prop := files.fdArray[i]? = some none

def Used (files : FilesStruct) (i : Nat) : Prop := ∃ f, files.fdArray[i]? = some (some f)

instance (files : FilesStruct) (i : Nat) : Decidable (Unused files i) :=
  inferInstanceAs (Decidable (_ = _))

instance (files : FilesStruct) (i : Nat) : Decidable (Used files i) :=
  decidable_of_iff (files.fdArray[i]?.join.isSome = true) <| by
    simp [Used, isSome_iff_exists, join_eq_some_iff]

/-- The first unused descriptor from `start` on. -/
structure Lowest (files : FilesStruct) (start fd : Nat) : Prop where
  le : start ≤ fd
  unused : Unused files fd
  least : ∀ i, start ≤ i → i < fd → ¬ Unused files i

/-- All slots but `fd` of table `t` are what they were. -/
def OthersKept (s s' : State) (t : TableId) (fd : Nat) : Prop :=
  ∀ u ∈ s.tables, ∀ i, (u, i) ≠ (t, fd) → (s'.table u).fdArray[i]? = (s.table u).fdArray[i]?

def SlotsKept (s s' : State) : Prop :=
  ∀ u ∈ s.tables, (s'.table u).fdArray = (s.table u).fdArray

/-- What a call has to do that returns a new descriptor. -/
structure Installs (s s' : State) (t : TableId) (start : Nat) (f : FileId) (r : Int) : Prop where
  installed : 0 ≤ r → ∃ fd : Nat, r = fd ∧ Lowest (s.table t) start fd ∧
    (s'.table t).fdArray[fd]? = some (some f) ∧ OthersKept s s' t fd
  refused : r < 0 → SlotsKept s s'
  exhausted : (∀ i, start ≤ i → ¬ Unused (s.table t) i) → r < 0

/-- What a call may do to the tables. -/
def Disciplined (s : State) (op : Op) (r : Int) (s' : State) : Prop :=
  match op with
  | .open x f _ =>
    ∀ t ∈ s.files x, match f with
      | none => r < 0 ∧ SlotsKept s s'
      | some f => Installs s s' t 0 f r
  | .dupfd x fd start =>
    ∀ t ∈ s.files x, ∀ f, (s.table t).fdArray[fd]? = some (some f) → Installs s s' t start f r
  | .close x fd =>
    ∀ t ∈ s.files x, (r = 0 → Unused (s'.table t) fd ∧ OthersKept s s' t fd) ∧
      (r ≠ 0 → SlotsKept s s')
  | .forkCopied x y .. =>
    SlotsKept s s' ∧ (0 ≤ r → ∀ t ∈ s.files x, ∃ u ∈ s'.files y,
      ∀ i, Used (s'.table u) i ↔ Used (s.table t) i)
  | .fget .. | .fput .. | .forkShared .. | .exit .. => True

/-- A running task makes the call: `open` with the outcome 0 or an error number of the walk,
`f_dupfd` for an open descriptor; and `kzalloc` gives objects that no slot of the table refers to.
-/
def CallOk (s : State) : Op → Prop
  | .open x _ error => x ∈ s.tasks ∧ (error = 0 ∨ -maxErrno ≤ error ∧ error < 0)
  | .dupfd x fd _ => x ∈ s.tasks ∧ ∀ t ∈ s.files x, Used (s.table t) fd
  | .close x _ => x ∈ s.tasks
  | .forkCopied x _ _ ids _ =>
    x ∈ s.tasks ∧ ∀ t ∈ s.files x, ∀ id ∈ ids, some id ∉ (s.table t).fdArray
  | .fget .. | .fput .. | .forkShared .. | .exit .. => False

def TableOk (s : State) (op : Op) : Prop := Ok s op ∧ CallOk s op

instance (s : State) : (op : Op) → Decidable (CallOk s op)
  | .open .. => inferInstanceAs (Decidable (_ ∧ (_ ∨ _ ∧ _)))
  | .dupfd x fd _ => inferInstanceAs (Decidable (_ ∧ ∀ t ∈ s.files x, Used (s.table t) fd))
  | .close x _ => inferInstanceAs (Decidable (x ∈ s.tasks))
  | .forkCopied x _ _ ids _ => inferInstanceAs (Decidable
      (_ ∧ ∀ t ∈ s.files x, ∀ id ∈ ids, some id ∉ (s.table t).fdArray))
  | .fget .. | .fput .. | .forkShared .. | .exit .. => .isFalse not_false

instance (s : State) (op : Op) : Decidable (TableOk s op) :=
  inferInstanceAs (Decidable (Ok s op ∧ CallOk s op))

/-- The file's memory has not been given back. -/
def State.Live (s : State) (f : FileId) : Prop := (s.file.deref f).isSome

/-- Where `alloc_fd` finds an unused slot below its bound, the files that the call reads are there,
and the memory of a copied table is null where the original is. -/
def FdOk (s : State) : Op → Prop
  | .open x _ _ => ∀ t ∈ s.files x, ∃ i < (s.table t).fdCount, Unused (s.table t) i
  | .dupfd x fd start =>
    s.nofile ≤ start ∨ ∀ t ∈ s.files x,
      (∃ i, start ≤ i ∧ i < s.nofile ∧ Unused (s.table t) i) ∧
      ∀ f, (s.table t).fdArray[fd]? = some (some f) → s.Live f
  | .close x fd =>
    ∀ t ∈ s.files x, fd < (s.table t).fdCount →
      ∀ f, (s.table t).fdArray[fd]? = some (some f) → (s.file f).isSome
  | .forkCopied x _ (some _) _ stale =>
    ∀ t ∈ s.files x, (∀ f, some f ∈ (s.table t).fdArray → s.Live f) ∧
      ∀ i, Unused (s.table t) i → stale[i]? = some none
  | .forkCopied _ _ none .. | .fget .. | .fput .. | .forkShared .. | .exit .. => True

/-! ## The search for a slot -/

theorem allocFd_eq_some {files : FilesStruct} {start stop fd : Nat} :
    allocFd files.fdArray start stop = some fd ↔ Lowest files start fd ∧ fd < stop := by
  rw [allocFd, find?_range'_eq_some]
  simp only [mem_range'_1, decide_eq_true_eq, Bool.not_eq_true', decide_eq_false_iff_not]
  constructor
  · rintro ⟨hunused, ⟨hle, hlt⟩, hleast⟩
    exact ⟨⟨hle, hunused, hleast⟩, by omega⟩
  · rintro ⟨⟨hle, hunused, hleast⟩, hlt⟩
    exact ⟨hunused, ⟨hle, by omega⟩, hleast⟩

theorem exists_allocFd_iff {files : FilesStruct} {start stop : Nat} :
    (∃ fd, allocFd files.fdArray start stop = some fd) ↔
      ∃ i, start ≤ i ∧ i < stop ∧ Unused files i := by
  rw [← isSome_iff_exists, allocFd, find?_isSome]
  simp only [mem_range'_1, decide_eq_true_eq]
  constructor
  · rintro ⟨i, ⟨hle, hlt⟩, hunused⟩
    exact ⟨i, hle, by omega, hunused⟩
  · rintro ⟨i, hle, hlt, hunused⟩
    exact ⟨i, ⟨hle, by omega⟩, hunused⟩

/-! ## Tables in a run -/

/-- Every task has a table, and the arrays have their length. -/
structure TablesOk (s : State) : Prop where
  arrays : ∀ t ∈ s.tables, ArrayOk (s.table t)
  files : ∀ x ∈ s.tasks, ∃ t ∈ s.tables, s.files x = some t

theorem TablesOk.start {s : State} (h : Start s) : TablesOk s := by
  refine ⟨arrays_of_start h, ?_⟩
  obtain ⟨-, -, x, t, htasks, htables, -, hfiles⟩ := h
  intro y hy
  obtain rfl : y = x := by simpa [htasks] using hy
  exact ⟨t, by simp [htables], by rw [hfiles, update_self]⟩

section Calls

variable {s s' : State} {x y : TaskId} {t : TableId} {f : FileId} {fd start : Nat} {error r : Int}

theorem othersKept_set {file : FileMap} (fd : Nat) (slot : Option FileId) :
    OthersKept s { s with
      file := file
      table := update s.table t
        { s.table t with fdArray := (s.table t).fdArray.set fd slot } } t fd := by
  intro u _ i hne
  by_cases hu : u = t
  · subst hu
    have hi : fd ≠ i := fun heq => hne (by rw [heq])
    simp [getElem?_set_ne hi]
  · simp [update_of_ne hu]

theorem TablesOk.set {file : FileMap} (h : TablesOk s) (ht : t ∈ s.tables) (fd : Nat)
    {slot : Option FileId} (hslot : slot = none ∨ (s.table t).fdCount = nrOpenDefault) :
    TablesOk { s with
      file := file
      table := update s.table t
        { s.table t with fdArray := (s.table t).fdArray.set fd slot } } :=
  ⟨forall_update h.arrays ((h.arrays t ht).setSlot hslot), h.files⟩

theorem installs_fdInstall {file : FileMap} {stop : Nat}
    (hfd : allocFd (s.table t).fdArray start stop = some fd) :
    Installs s ({ s with file := file }.fdInstall t fd f) t start f fd := by
  obtain ⟨hlowest, -⟩ := allocFd_eq_some.mp hfd
  refine ⟨fun _ => ⟨fd, rfl, hlowest, ?_, othersKept_set fd (some f)⟩, ?_, ?_⟩
  · have hlt : fd < (s.table t).fdArray.length := (List.getElem?_eq_some_iff.mp hlowest.unused).1
    simp [State.fdInstall, hlt]
  · intro hneg
    omega
  · intro hnone
    exact absurd hlowest.unused (hnone fd hlowest.le)

theorem installs_of_neg (hneg : r < 0) (hkept : SlotsKept s s') : Installs s s' t start f r :=
  ⟨fun hr => absurd hr (by omega), fun _ => hkept, fun _ => hneg⟩

theorem slotsKept_file (file : FileMap) : SlotsKept s { s with file := file } := fun _ _ => rfl

/-! ## `open` -/

theorem open_spec {f : Option FileId} (h : TablesOk s)
    (hstep : s.sysOpen x f error = some (r, s')) :
    Disciplined s (.open x f error) r s' ∧ TablesOk s' := by
  cases f with
  | none =>
    obtain ⟨t, -, -, fd, -, rfl, rfl⟩ := sysOpen_none.mp hstep
    exact ⟨fun _ _ => ⟨by decide, slotsKept_file _⟩, h⟩
  | some f =>
    obtain ⟨t, hx, ht, fd, hfd, ⟨-, rfl, rfl⟩ | ⟨-, file, -, ⟨-, hneg⟩, rfl, rfl⟩⟩ :=
      sysOpen_some.mp hstep
    · have hlt := (allocFd_eq hfd).2
      refine ⟨fun u hu => ?_, h.set ht fd (.inr ((h.arrays t ht).full (.inl (by omega))))⟩
      obtain rfl : t = u := some.inj (hx.symm.trans hu)
      exact installs_fdInstall hfd
    · exact ⟨fun _ _ => installs_of_neg hneg (slotsKept_file file), h.arrays, h.files⟩

theorem exists_fput_allocFile (file : FileMap) (f : FileId) :
    ∃ file', (file.allocFile f).fput f = some file' := by
  simp [FileMap.allocFile, FileMap.fput, FileMap.deref, Option.filter]

theorem exists_sysOpen_iff {f : Option FileId} (h : TablesOk s)
    (hcall : CallOk s (.open x f error)) :
    (∃ r s', s.sysOpen x f error = some (r, s')) ↔ FdOk s (.open x f error) := by
  obtain ⟨hx, herror⟩ := hcall
  obtain ⟨t, ht, hfiles⟩ := h.files x hx
  have hsearch := @exists_allocFd_iff (s.table t) 0 (s.table t).fdCount
  simp only [Nat.zero_le, true_and] at hsearch
  simp only [FdOk, hfiles, mem_some_iff, forall_eq', ← hsearch]
  cases f with
  | none => simp [sysOpen_none, hfiles, ht]
  | some f =>
    simp only [sysOpen_some, hfiles, some.injEq, exists_eq_left', ht, true_and]
    constructor
    · rintro ⟨r, s', fd, hfd, -⟩
      exact ⟨fd, hfd⟩
    · rintro ⟨fd, hfd⟩
      by_cases hzero : error = 0
      · exact ⟨_, _, fd, hfd, .inl ⟨hzero, rfl, rfl⟩⟩
      · obtain ⟨file, hput⟩ := exists_fput_allocFile s.file f
        exact ⟨_, _, fd, hfd, .inr ⟨hzero, file, hput, herror.resolve_left hzero, rfl, rfl⟩⟩

/-! ## `f_dupfd` -/

theorem dupfd_spec (h : TablesOk s) (hstep : s.fDupfd x fd start = some (r, s')) :
    Disciplined s (.dupfd x fd start) r s' ∧ TablesOk s' := by
  obtain ⟨t, hx, ht, f, hslot, ⟨-, rfl, rfl⟩ | ⟨-, new, hnew, file, -, rfl, rfl⟩⟩ :=
    fDupfd_eq_some.mp hstep
  · exact ⟨fun _ _ _ _ => installs_of_neg (by decide) (slotsKept_file _), h⟩
  · have hfull := (h.arrays t ht).full (.inr ⟨f, mem_of_getElem? hslot⟩)
    refine ⟨fun u hu g hg => ?_, h.set ht new (.inr hfull)⟩
    obtain rfl : t = u := some.inj (hx.symm.trans hu)
    obtain rfl : f = g := by simpa [hslot] using hg
    exact installs_fdInstall hnew

theorem getFile_isSome {file : FileMap} :
    (∃ file', file.getFile f = some file') ↔ (file.deref f).isSome := by
  rw [FileMap.getFile]
  cases file.deref f <;> simp

theorem exists_fDupfd_iff (h : TablesOk s) (hcall : CallOk s (.dupfd x fd start)) :
    (∃ r s', s.fDupfd x fd start = some (r, s')) ↔ FdOk s (.dupfd x fd start) := by
  obtain ⟨t, ht, hx⟩ := h.files x hcall.1
  obtain ⟨f, hslot⟩ := hcall.2 t hx
  simp only [fDupfd_eq_some, FdOk, hx, mem_some_iff, forall_eq', hslot, exists_eq_left', ht,
    true_and, some.injEq, ← exists_allocFd_iff, State.Live, ← getFile_isSome]
  constructor
  · rintro ⟨r, s', ⟨hlimit, -⟩ | ⟨-, new, hnew, file, hfile, -⟩⟩
    · exact .inl hlimit
    · exact .inr ⟨⟨new, hnew⟩, file, hfile⟩
  · rintro (hlimit | ⟨⟨new, hnew⟩, file, hfile⟩)
    · exact ⟨_, _, .inl ⟨hlimit, rfl, rfl⟩⟩
    · obtain ⟨hlowest, hlt⟩ := allocFd_eq_some.mp hnew
      exact ⟨_, _, .inr ⟨Nat.not_le.mpr (Nat.lt_of_le_of_lt hlowest.le hlt), new, hnew, file, hfile,
        rfl, rfl⟩⟩

/-! ## `close` -/

theorem close_spec (h : TablesOk s) (hstep : s.sysClose x fd = some (r, s')) :
    Disciplined s (.close x fd) r s' ∧ TablesOk s' := by
  obtain ⟨t, hx, ht, ⟨-, rfl, rfl⟩ | ⟨-, slot, hslot, file, -, rfl, rfl⟩⟩ :=
    sysClose_eq_some.mp hstep
  · exact ⟨fun _ _ => ⟨fun hr => absurd hr (by decide), fun _ _ _ => rfl⟩, h⟩
  · refine ⟨fun u hu => ?_, h.set ht fd (.inl rfl)⟩
    obtain rfl : t = u := some.inj (hx.symm.trans hu)
    refine ⟨fun _ => ⟨?_, othersKept_set fd none⟩, fun hr => absurd rfl hr⟩
    have hlt : fd < (s.table t).fdArray.length := (List.getElem?_eq_some_iff.mp hslot).1
    simp [Unused, hlt]

theorem exists_kfree_iff {file : FileMap} {slot : Option FileId} :
    (∃ file', file.kfree slot = some file') ↔ ∀ f, slot = some f → (file f).isSome := by
  cases slot with
  | none => simp [FileMap.kfree]
  | some f =>
    simp only [FileMap.kfree, some.injEq, forall_eq']
    cases file f <;> simp

theorem exists_sysClose_iff (h : TablesOk s) (hx : x ∈ s.tasks) :
    (∃ r s', s.sysClose x fd = some (r, s')) ↔ FdOk s (.close x fd) := by
  obtain ⟨t, ht, hfiles⟩ := h.files x hx
  simp only [sysClose_eq_some, FdOk, hfiles, mem_some_iff, forall_eq', some.injEq,
    exists_eq_left', ht, true_and]
  constructor
  · rintro ⟨r, s', ⟨hbad, -⟩ | ⟨-, slot, hslot, file, hfile, -⟩⟩ hlt f hf
    · omega
    · exact exists_kfree_iff.mp ⟨file, hfile⟩ f (some.inj (hslot.symm.trans hf))
  · intro hfree
    by_cases hbad : (s.table t).fdCount ≤ fd
    · exact ⟨_, _, .inl ⟨hbad, rfl, rfl⟩⟩
    · have hbound : fd < (s.table t).fdArray.length := by
        have hfull := (h.arrays t ht).full (.inl (by omega))
        rw [(h.arrays t ht).length]
        omega
      have hslot := getElem?_eq_getElem hbound
      obtain ⟨file, hfile⟩ := exists_kfree_iff.mpr fun f hf => hfree (by omega) f (hf ▸ hslot)
      exact ⟨_, _, .inr ⟨hbad, _, hslot, file, hfile, rfl, rfl⟩⟩

/-! ## `dup_fd` -/

theorem deref_copyFile {file : FileMap} {id g : FileId} (fl : OpenFile) (hne : g ≠ id) :
    (file.copyFile id fl).deref g = file.deref g := by
  rw [FileMap.deref, FileMap.copyFile, update_of_ne hne, FileMap.deref]

/-- The loop of `dup_fd` comes to its end when it finds every file alive. -/
theorem exists_dupSlots {file : FileMap} {old : List (Option FileId)} {ids : List FileId}
    {stale : List (Option FileId)} (hids : ids.length = old.length)
    (hstale : stale.length = old.length) (hfresh : ∀ id ∈ ids, some id ∉ old)
    (hlive : ∀ f, some f ∈ old → (file.deref f).isSome) :
    ∃ out, file.dupSlots old ids stale = some out := by
  induction old generalizing file ids stale with
  | nil => exact ⟨_, rfl⟩
  | cons slot old ih =>
    obtain ⟨id, ids, rfl⟩ := exists_cons_of_length_eq_add_one hids
    obtain ⟨junk, stale, rfl⟩ := exists_cons_of_length_eq_add_one hstale
    have ih : ∀ file : FileMap, (∀ f, some f ∈ old → (file.deref f).isSome) →
        ∃ out, file.dupSlots old ids stale = some out := fun _ =>
      ih (Nat.succ.inj hids) (Nat.succ.inj hstale) fun id hid hmem =>
        hfresh id (mem_cons_of_mem _ hid) (mem_cons_of_mem _ hmem)
    cases slot with
    | none =>
      obtain ⟨⟨file', new⟩, hrest⟩ := ih file fun f hf => hlive f (mem_cons_of_mem _ hf)
      exact ⟨_, bind_eq_some_iff.mpr ⟨_, hrest, rfl⟩⟩
    | some f =>
      obtain ⟨fl, hfl⟩ := isSome_iff_exists.mp (hlive f mem_cons_self)
      -- the copy is an object of its own, so what is left to read is as it was
      have hlive' : ∀ g, some g ∈ old → ((file.copyFile id fl).deref g).isSome := by
        intro g hg
        have hne : g ≠ id := by
          rintro rfl
          exact hfresh g mem_cons_self (mem_cons_of_mem _ hg)
        rw [deref_copyFile _ hne]
        exact hlive g (mem_cons_of_mem _ hg)
      obtain ⟨⟨file', new⟩, hrest⟩ := ih _ hlive'
      exact ⟨_, bind_eq_some_iff.mpr ⟨fl, hfl, bind_eq_some_iff.mpr ⟨_, hrest, rfl⟩⟩⟩

/-- What the loop has read, and which slots of the copy hold something. -/
theorem dupSlots_cases {file file' : FileMap} {old : List (Option FileId)} {ids : List FileId}
    {stale new : List (Option FileId)} (hfresh : ∀ id ∈ ids, some id ∉ old)
    (hdup : file.dupSlots old ids stale = some (file', new)) :
    (∀ f, some f ∈ old → (file.deref f).isSome) ∧ new.length = old.length ∧
      ∀ i : Nat, (∃ f, new[i]? = some (some f)) ↔
        (∃ f, old[i]? = some (some f)) ∨ old[i]? = some none ∧ ∃ f, stale[i]? = some (some f) := by
  induction old generalizing file ids stale new with
  | nil =>
    cases hdup
    simp
  | cons slot old ih =>
    obtain ⟨id, ids, junk, stale, new, rfl, rfl, hcase⟩ := dupSlots_cons hdup
    have hfresh' : ∀ id ∈ ids, some id ∉ old := fun id hid hmem =>
      hfresh id (mem_cons_of_mem _ hid) (mem_cons_of_mem _ hmem)
    obtain ⟨rfl, hrest, rfl⟩ | ⟨f, fl, rfl, hderef, hrest, rfl⟩ := hcase
    · obtain ⟨hlive, hlen, hslots⟩ := ih hfresh' hrest
      refine ⟨fun f hf => hlive f (by simpa using hf), by simp [hlen], ?_⟩
      rintro (_ | i)
      · simp
      · simpa using hslots i
    · obtain ⟨hlive, hlen, hslots⟩ := ih hfresh' hrest
      refine ⟨?_, by simp [hlen], ?_⟩
      · intro g hg
        rcases mem_cons.mp hg with heq | hmem
        · cases heq
          exact isSome_of_eq_some hderef
        · have hne : g ≠ id := by
            rintro rfl
            exact hfresh g mem_cons_self hg
          rw [← deref_copyFile fl hne]
          exact hlive g hmem
      · rintro (_ | i)
        · simp
        · simpa using hslots i

section Fork

variable {u : TableId} {ids : List FileId} {stale : List (Option FileId)}

section

variable {file : FileMap} {fdArray : List (Option FileId)}

theorem slotsKept_dupState (hu : u ∉ s.tables) : SlotsKept s (dupState s y u file fdArray) := by
  intro v hv
  have hne : v ≠ u := fun heq => hu (heq ▸ hv)
  simp [dupState, State.addTask, update_of_ne hne]

theorem TablesOk.dupState (h : TablesOk s)
    (hlength : fdArray.length = nrOpenDefault) : TablesOk (dupState s y u file fdArray) := by
  refine ⟨arrays_dupState h.arrays hlength, ?_⟩
  refine (forall_update_iff s.files fun z v => z ∈ y :: s.tasks →
    ∃ t ∈ u :: s.tables, v = some t).mpr ⟨fun _ => ⟨u, mem_cons_self, rfl⟩, fun z hne hz => ?_⟩
  obtain ⟨t, ht, hfiles⟩ := h.files z ((mem_cons.mp hz).resolve_left hne)
  exact ⟨t, mem_cons_of_mem _ ht, hfiles⟩

/-- The copy has the slots of the original open exactly when its memory adds none. -/
theorem used_dupState_iff (hstale : stale.length = (s.table t).fdArray.length)
    (hfresh : ∀ id ∈ ids, some id ∉ (s.table t).fdArray)
    (hdup : s.file.dupSlots (s.table t).fdArray ids stale = some (file, fdArray)) :
    (∀ i, Used ((dupState s y u file fdArray).table u) i ↔ Used (s.table t) i) ↔
      ∀ i, Unused (s.table t) i → stale[i]? = some none := by
  obtain ⟨-, -, hslots⟩ := dupSlots_cases hfresh hdup
  refine forall_congr' fun i => ?_
  have hcopy : Used ((dupState s y u file fdArray).table u) i ↔
      Used (s.table t) i ∨ Unused (s.table t) i ∧ ∃ f, stale[i]? = some (some f) := by
    simpa [Used, Unused, dupState, State.addTask] using hslots i
  rw [hcopy]
  constructor
  · intro hsame hunused
    have hlt : i < stale.length := hstale ▸ (List.getElem?_eq_some_iff.mp hunused).1
    have hjunk := List.getElem?_eq_getElem hlt
    cases hslot : stale[i] with
    | none => rw [hjunk, hslot]
    | some f =>
      obtain ⟨g, hg⟩ := hsame.mp (.inr ⟨hunused, f, hslot ▸ hjunk⟩)
      simp [Unused, hg] at hunused
  · intro hnull
    refine or_iff_left ?_
    rintro ⟨hunused, f, hf⟩
    simp [hnull hunused] at hf

end

theorem fork_iff (h : TablesOk s) {v : Option TableId}
    (hok : TableOk s (.forkCopied x y v ids stale)) :
    (∃ r s', s.forkCopied x y v ids stale = some (r, s') ∧
      Disciplined s (.forkCopied x y v ids stale) r s') ↔ FdOk s (.forkCopied x y v ids stale) := by
  obtain ⟨⟨-, hv, -, -, hids, hstale⟩, hx, hfresh⟩ := hok
  obtain ⟨t, ht, hfiles⟩ := h.files x hx
  have hlength := (h.arrays t ht).length
  cases v with
  | none =>
    exact iff_of_true ⟨-enomem, s, forkCopied_none hfiles ht, fun _ _ => rfl,
      fun hr => absurd hr (by decide)⟩ trivial
  | some u =>
    have hu : u ∉ s.tables := hv u rfl
    have hfresh' := hfresh t hfiles
    simp only [forkCopied_eq_some hfiles ht, FdOk, hfiles, mem_some_iff, forall_eq']
    constructor
    · rintro ⟨r, s', ⟨file, fdArray, hdup, rfl, rfl⟩, -, hcopy⟩
      obtain ⟨w, hw, hsame⟩ := hcopy (Int.le_refl _) t hfiles
      obtain rfl : u = w := by simpa [dupState, State.addTask] using hw
      exact ⟨(dupSlots_cases hfresh' hdup).1,
        (used_dupState_iff (hstale.trans hlength.symm) hfresh' hdup).mp hsame⟩
    · rintro ⟨hlive, hnull⟩
      obtain ⟨⟨file, fdArray⟩, hdup⟩ :=
        exists_dupSlots (hids.trans hlength.symm) (hstale.trans hlength.symm) hfresh' hlive
      refine ⟨_, _, ⟨file, fdArray, hdup, rfl, rfl⟩, slotsKept_dupState hu, fun _ w hw => ?_⟩
      obtain rfl : t = w := some.inj (hfiles.symm.trans hw)
      exact ⟨u, update_self ..,
        (used_dupState_iff (hstale.trans hlength.symm) hfresh' hdup).mpr hnull⟩

end Fork

/-! ## Runs -/

theorem TablesOk.step (h : TablesOk s) {op : Op} (hok : TableOk s op)
    (hstep : step s op = some (r, s')) : TablesOk s' := by
  obtain ⟨hops, hcall⟩ := hok
  cases op with
  | «open» x f error => exact (open_spec h hstep).2
  | dupfd x fd start => exact (dupfd_spec h hstep).2
  | close x fd => exact (close_spec h hstep).2
  | forkCopied x y v ids stale =>
    obtain ⟨t, ht, hx⟩ := h.files x hcall.1
    cases v with
    | none =>
      obtain ⟨-, rfl⟩ : _ ∧ s = s' := by simpa [Files.step, forkCopied_none hx ht] using hstep
      exact h
    | some u =>
      obtain ⟨file, fdArray, hdup, -, rfl⟩ := (forkCopied_eq_some hx ht).mp hstep
      obtain ⟨-, hlength, -⟩ := dupSlots_cases (hcall.2 t hx) hdup
      exact h.dupState (hlength.trans (h.arrays t ht).length)
  | fget | fput | forkShared | exit => exact hcall.elim

theorem disciplined_iff_defined {op : Op}
    (h : ∀ r s', step s op = some (r, s') → Disciplined s op r s') :
    (∃ r s', step s op = some (r, s') ∧ Disciplined s op r s') ↔ ∃ r s', step s op = some (r, s') :=
  exists_congr fun r => exists_congr fun s' => and_iff_left_of_imp (h r s')

end Calls

theorem tablesOk_of_reachable {s : State} (h : Reachable step TableOk Start s) : TablesOk s :=
  h.invariant (fun _ => TablesOk.start) fun _ _ _ _ hs hop hstep => hs.step hop hstep

/-- In every run of such calls, the next one keeps the discipline of the tables exactly when it
meets `FdOk`. -/
theorem disciplined_iff_fdOk {s : State} {op : Op} (h : Reachable step TableOk Start s)
    (hok : TableOk s op) :
    (∃ r s', step s op = some (r, s') ∧ Disciplined s op r s') ↔ FdOk s op := by
  have htables := tablesOk_of_reachable h
  cases op with
  | «open» x f error =>
    rw [← exists_sysOpen_iff htables hok.2]
    exact disciplined_iff_defined fun _ _ hstep => (open_spec htables hstep).1
  | dupfd x fd start =>
    rw [← exists_fDupfd_iff htables hok.2]
    exact disciplined_iff_defined fun _ _ hstep => (dupfd_spec htables hstep).1
  | close x fd =>
    rw [← exists_sysClose_iff htables hok.2]
    exact disciplined_iff_defined fun _ _ hstep => (close_spec htables hstep).1
  | forkCopied x y v ids stale => exact fork_iff htables hok
  | fget | fput | forkShared | exit => exact hok.2.elim

theorem tableOk_forkChild : TableOk booted forkChild := by
  refine ⟨stepOk_forkChild.1, by decide, ?_⟩
  simp [booted, initFiles]

theorem reachable_forked : Reachable step TableOk Start forked :=
  .call (.start start_booted) tableOk_forkChild step_forkChild

/-- The child opens its first file. -/
theorem disciplined_iff_fdOk_open :
    Reachable step TableOk Start forked ∧ TableOk forked (.open 1 (some 1) 0) ∧
      ∃ r s', step forked (.open 1 (some 1) 0) = some (r, s') ∧
        Disciplined forked (.open 1 (some 1) 0) r s' := by
  have hok : TableOk forked (.open 1 (some 1) 0) := by
    decide
  refine ⟨reachable_forked, hok, (disciplined_iff_fdOk reachable_forked hok).mpr ?_⟩
  rintro t ⟨⟩
  exact ⟨0, by decide, rfl⟩

/-- The child duplicates its file to the last descriptor and asks for another one from there on: the
search runs off the array. -/
theorem last_descriptor_taken :
    ∃ s, Reachable step TableOk Start s ∧ TableOk s (.dupfd 1 0 255) ∧
      s.files 1 = some 1 ∧ (∀ i, 255 ≤ i → ¬ Unused (s.table 1) i) ∧
      step s (.dupfd 1 0 255) = none ∧
      ¬ ∃ r s', step s (.dupfd 1 0 255) = some (r, s') ∧ Disciplined s (.dupfd 1 0 255) r s' := by
  have hrun : (Reachable.run step TableOk forked [.open 1 (some 1) 0, .dupfd 1 0 255]).any
      (fun s => decide (TableOk s (.dupfd 1 0 255) ∧ s.files 1 = some 1 ∧ s.nofile = 1024 ∧
        (s.table 1).fdArray.length = 256 ∧ Used (s.table 1) 255)) = true := by
    decide +kernel
  obtain ⟨s, hreach, hs⟩ := Reachable.exists_of_run_from reachable_forked _ hrun
  obtain ⟨hok, hfiles, hnofile, hlength, f, hlast⟩ := of_decide_eq_true hs
  have hfull : ∀ i, 255 ≤ i → ¬ Unused (s.table 1) i := by
    intro i hi hunused
    have hlt : i < 256 := hlength ▸ (List.getElem?_eq_some_iff.mp hunused).1
    obtain rfl : i = 255 := by omega
    simp [Unused, hlast] at hunused
  have hundefined : ¬ ∃ r s', step s (.dupfd 1 0 255) = some (r, s') := by
    intro hstep
    rcases (exists_fDupfd_iff (tablesOk_of_reachable hreach) hok.2).mp hstep with hlimit | hfree
    · omega
    · obtain ⟨⟨i, hi, -, hunused⟩, -⟩ := hfree 1 hfiles
      exact hfull i hi hunused
  refine ⟨s, hreach, hok, hfiles, hfull, ?_, ?_⟩
  · cases hstep : step s (.dupfd 1 0 255) with
    | none => rfl
    | some out => exact absurd ⟨out.1, out.2, hstep⟩ hundefined
  · rintro ⟨r, s', hstep, -⟩
    exact hundefined ⟨r, s', hstep⟩

end MyOS2.Files
