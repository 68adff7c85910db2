import MyOS2.Fs.Vfs.FileTable
import MyOS2.Misc.Sums
import Mathlib.Tactic.Common

/-!
# The lifetime of an open file

`Counted file refs` ties the files to a number of references for each of them: a file that has
references counts them in `f_count` and has not been released, and one that has none has been
released to the cache it came from. Every operation moves both sides together where `Sound`
holds; the numbers are those of `State.refs`.
-/

namespace MyOS2.Files

open Function Option List

/-- What a file must look like when `n` references to it exist. -/
def FileOk : Option OpenFile → Nat → Prop
  | none, n => n = 0
  | some fl, 0 => fl.released = [fl.cache]
  | some fl, n + 1 => fl.released = [] ∧ fl.fCount = n + 1

def Counted (file : FileMap) (refs : FileId → Nat) : Prop :=
  ∀ f, FileOk (file f) (refs f)

section Files

variable {file file' : FileMap} {refs refs' : FileId → Nat} {f : FileId} {fl : OpenFile}

theorem deref_eq_some : file.deref f = some fl ↔ file f = some fl ∧ fl.released = [] := by
  simp [FileMap.deref, filter_eq_some_iff]

theorem FileOk.referred {n : Nat} (h : FileOk (some fl) n) (hlive : fl.released = []) :
    0 < n ∧ fl.fCount = n := by
  cases n with
  | zero => simp [FileOk, hlive] at h
  | succ n => exact ⟨n.succ_pos, h.2⟩

section

variable (h : Counted file refs) (hne : ∀ g, g ≠ f → refs' g = refs g)
include h hne

theorem Counted.set {v : Option OpenFile} (hf : FileOk v (refs' f)) :
    Counted (update file f v) refs' :=
  (forall_update_iff file fun g v => FileOk v (refs' g)).mpr ⟨hf, fun g hg => hne g hg ▸ h g⟩

theorem Counted.allocFile (hf : refs' f = 1) : Counted (file.allocFile f) refs' :=
  h.set hne (by rw [hf]; exact ⟨rfl, rfl⟩)

theorem Counted.getFile (hget : file.getFile f = some file') (hf : refs' f = refs f + 1) :
    Counted file' refs' := by
  obtain ⟨fl, hderef, hnew⟩ := bind_eq_some_iff.mp hget
  obtain ⟨hfile, hlive⟩ := deref_eq_some.mp hderef
  obtain ⟨-, hcount⟩ := FileOk.referred (hfile ▸ h f) hlive
  cases hnew
  refine h.set hne ?_
  rw [hf]
  exact ⟨hlive, by rw [hcount]⟩

end

theorem fput_eq (hput : file.fput f = some file') :
    ∃ fl, file f = some fl ∧ fl.released = [] ∧
      file' = update file f (some { fl with
        fCount := fl.fCount - 1
        released := if fl.fCount = 1 then [.filp] else [] }) := by
  obtain ⟨fl, hderef, hnew⟩ := bind_eq_some_iff.mp hput
  obtain ⟨hfile, hlive⟩ := deref_eq_some.mp hderef
  refine ⟨fl, hfile, hlive, ?_⟩
  simp only [sub_eq_zero, hlive, nil_append] at hnew
  split at hnew <;> rename_i hone
  · rw [if_pos hone]
    exact (some.inj hnew).symm
  · rw [if_neg hone, ← some.inj hnew, ← hlive]

theorem Counted.fput (h : Counted file refs) (hput : file.fput f = some file')
    (hcache : refs f = 1 → ∀ fl ∈ file f, fl.cache = .filp)
    (hf : refs' f + 1 = refs f) (hne : ∀ g, g ≠ f → refs' g = refs g) : Counted file' refs' := by
  obtain ⟨fl, hfile, hlive, rfl⟩ := fput_eq hput
  obtain ⟨-, hcount⟩ := FileOk.referred (hfile ▸ h f) hlive
  refine h.set hne ?_
  cases hlast : refs' f with
  | zero =>
    have hone : refs f = 1 := by omega
    simp [FileOk, hcount, hone, hcache hone fl hfile]
  | succ n =>
    have hmore : fl.fCount ≠ 1 := by omega
    exact ⟨if_neg hmore, by simp only; omega⟩

theorem Counted.kfree (h : Counted file refs) (hfree : file.kfree (some f) = some file')
    (hone : refs f = 1) (hf : refs' f = 0) (hne : ∀ g, g ≠ f → refs' g = refs g) :
    Counted file' refs' := by
  obtain ⟨fl, hfile, hnew⟩ := bind_eq_some_iff.mp hfree
  cases hnew
  refine h.set hne ?_
  have hok := h f
  rw [hfile, hone] at hok
  rw [hf]
  simp [FileOk, hok.1]

theorem fput_cache (hput : file.fput f = some file') {g : FileId} {fl : OpenFile}
    (hfl : file' g = some fl) : ∃ fl₀, file g = some fl₀ ∧ fl₀.cache = fl.cache := by
  obtain ⟨fl₁, hfile, -, rfl⟩ := fput_eq hput
  by_cases hg : g = f
  · subst hg
    rw [update_self] at hfl
    exact ⟨fl₁, hfile, some.inj hfl ▸ rfl⟩
  · rw [update_of_ne hg] at hfl
    exact ⟨fl, hfl, rfl⟩

theorem Counted.closeFiles {base : FileId → Nat} {slots : List (Option FileId)}
    (h : Counted file fun f => base f + slots.count (some f))
    (hcache : ∀ f, some f ∈ slots → base f = 0 → ∀ fl ∈ file f, fl.cache = .filp)
    (hclose : file.closeFiles slots = some file') : Counted file' base := by
  induction slots generalizing file with
  | nil =>
    cases hclose
    simpa using h
  | cons slot slots ih =>
    cases slot with
    | none =>
      refine ih ?_ (fun f hf => hcache f (mem_cons_of_mem _ hf)) hclose
      simpa using h
    | some f =>
      obtain ⟨file₁, hput, hrest⟩ := bind_eq_some_iff.mp hclose
      refine ih (h.fput hput ?_ ?_ ?_) ?_ hrest
      · intro hlast
        simp only [count_cons_self] at hlast
        exact hcache f mem_cons_self (by omega)
      · simp only [count_cons_self]
        omega
      · intro g hg
        rw [count_cons_of_ne (by simpa using Ne.symm hg)]
      · intro g hg hbase fl hfl
        obtain ⟨fl₀, hfl₀, hsame⟩ := fput_cache hput hfl
        rw [← hsame]
        exact hcache g (mem_cons_of_mem _ hg) hbase fl₀ hfl₀

def FileMap.copyFile (file : FileMap) (id : FileId) (fl : OpenFile) : FileMap :=
  update file id (some { fl with cache := .kmalloc, released := [] })

section Dup

variable {old stale new : List (Option FileId)} {ids : List FileId}

theorem dupSlots_cons {slot : Option FileId}
    (hdup : file.dupSlots (slot :: old) ids stale = some (file', new)) :
    ∃ id ids₁ junk stale₁ new₁, ids = id :: ids₁ ∧ stale = junk :: stale₁ ∧
      (slot = none ∧ file.dupSlots old ids₁ stale₁ = some (file', new₁) ∧ new = junk :: new₁ ∨
        ∃ f fl, slot = some f ∧ file.deref f = some fl ∧
          (file.copyFile id fl).dupSlots old ids₁ stale₁ = some (file', new₁) ∧
          new = some id :: new₁) := by
  cases ids with
  | nil => cases slot <;> contradiction
  | cons id ids =>
    cases stale with
    | nil => cases slot <;> contradiction
    | cons junk stale =>
      cases slot with
      | none =>
        obtain ⟨⟨file₁, new₁⟩, hrest, hres⟩ := bind_eq_some_iff.mp hdup
        cases hres
        exact ⟨id, ids, junk, stale, new₁, rfl, rfl, .inl ⟨rfl, hrest, rfl⟩⟩
      | some f =>
        obtain ⟨fl, hderef, hcopy⟩ := bind_eq_some_iff.mp hdup
        obtain ⟨⟨file₁, new₁⟩, hrest, hres⟩ := bind_eq_some_iff.mp hcopy
        cases hres
        exact ⟨id, ids, junk, stale, new₁, rfl, rfl, .inr ⟨f, fl, rfl, hderef, hrest, rfl⟩⟩

/-- The copies of a table's files have one reference each, which is also what their count says when
it is what that of the original says. -/
theorem Counted.dupSlots (h : Counted file refs) (hids : ids.Nodup)
    (hfresh : ∀ id ∈ ids, file id = none)
    (hone : ∀ slot ∈ old, ∀ f ∈ slot, ∀ fl ∈ file f, fl.fCount = 1)
    (hstale : ∀ i < old.length, old[i]? = some none → stale[i]? = some none)
    (hdup : file.dupSlots old ids stale = some (file', new)) :
    Counted file' (fun f => refs f + new.count (some f)) ∧ new.length = old.length := by
  induction old generalizing file refs ids stale new with
  | nil =>
    cases hdup
    exact ⟨by simpa using h, rfl⟩
  | cons slot old ih =>
    obtain ⟨id, ids, junk, stale, new, rfl, rfl, hcase⟩ := dupSlots_cons hdup
    obtain ⟨hid, hids⟩ := nodup_cons.mp hids
    obtain ⟨hfree, hfresh⟩ := forall_mem_cons.mp hfresh
    obtain ⟨hfirst, hothers⟩ := forall_mem_cons.mp hone
    have hstale' : ∀ i < old.length, old[i]? = some none → stale[i]? = some none := by
      intro i hi hnull
      simpa using hstale (i + 1) (by simpa using hi) (by simpa using hnull)
    obtain ⟨rfl, hrest, rfl⟩ | ⟨f, fl, rfl, hderef, hrest, rfl⟩ := hcase
    · obtain rfl : junk = none := by simpa using hstale 0 (by simp) (by simp)
      obtain ⟨hcounted, hlen⟩ := ih h hids hfresh hothers hstale' hrest
      exact ⟨by simpa using hcounted, by simp [hlen]⟩
    · have hcount : fl.fCount = 1 := hfirst f rfl fl (deref_eq_some.mp hderef).1
      have hunref : refs id = 0 := by simpa [hfree, FileOk] using h id
      have hnew : Counted (file.copyFile id fl) (fun g => refs g + if id = g then 1 else 0) :=
        h.set (fun g hg => by simp [Ne.symm hg]) (by simp [hunref, FileOk, hcount])
      have hfresh' : ∀ id' ∈ ids, file.copyFile id fl id' = none := fun id' hid' =>
        (update_of_ne (fun heq : id' = id => hid (heq ▸ hid')) _ _).trans (hfresh id' hid')
      have hone' : ∀ slot ∈ old, ∀ g ∈ slot, ∀ fl' ∈ file.copyFile id fl g, fl'.fCount = 1 := by
        intro slot hslot g hg
        refine (forall_update_iff file fun g v => some g = slot → ∀ fl' ∈ v, fl'.fCount = 1
          ).mpr ⟨?_, fun g _ hg => hothers slot hslot g hg.symm⟩ g hg.symm
        rintro - _ ⟨⟩
        exact hcount
      obtain ⟨hcounted, hlen⟩ := ih hnew hids hfresh' hone' hstale' hrest
      refine ⟨?_, by simp [hlen]⟩
      intro g
      have hg := hcounted g
      simp only [count_cons, beq_iff_eq, some.injEq] at hg ⊢
      rwa [Nat.add_comm (count _ _), ← Nat.add_assoc]

end Dup

end Files

/-! ## Tables -/

/-- A table whose slots are all below `fd_count`: `init_files` has none, one that `dup_fd` made has
all. -/
structure ArrayOk (files : FilesStruct) : Prop where
  length : files.fdArray.length = nrOpenDefault
  filled : files.fdCount = nrOpenDefault ∨ files.fdCount = 0 ∧ ∀ f, some f ∉ files.fdArray

/-- A table is counted once for each task that has it. -/
structure UsersOk (table : TableId → FilesStruct) (tables : List TableId) (tasks : List TaskId)
    (files : TaskId → Option TableId) : Prop where
  nodup : tables.Nodup
  nodup_tasks : tasks.Nodup
  used : ∀ x t, files x = some t → x ∈ tasks ∧ t ∈ tables
  refcount : ∀ t ∈ tables, (table t).refcount = (tasks.map files).count (some t)

variable {v : FilesStruct}

section Tables

variable {table table' : TableId → FilesStruct} {tables : List TableId} {tasks : List TaskId}
  {files : TaskId → Option TableId} {t : TableId} {x y : TaskId} {fd : Nat}

section

variable {files : FilesStruct} (h : ArrayOk files)
include h

theorem ArrayOk.setSlot {slot : Option FileId}
    (hslot : slot = none ∨ files.fdCount = nrOpenDefault) :
    ArrayOk { files with fdArray := files.fdArray.set fd slot } := by
  refine ⟨length_set.trans h.length, ?_⟩
  rcases h.filled with hcount | ⟨hcount, hnull⟩
  · exact Or.inl hcount
  · rcases hslot with rfl | hfull
    · refine Or.inr ⟨hcount, fun f hf => ?_⟩
      rcases mem_or_eq_of_mem_set hf with hmem | hnone
      · exact hnull f hmem
      · contradiction
    · exact Or.inl hfull

/-- The slots that `put_files_struct` goes through are all that hold a file. -/
theorem ArrayOk.count_take (f : FileId) :
    (files.fdArray.take files.fdCount).count (some f) = files.fdArray.count (some f) := by
  rcases h.filled with hcount | ⟨-, hnull⟩
  · rw [hcount, take_of_length_le (Nat.le_of_eq h.length)]
  · rw [count_eq_zero_of_not_mem (hnull f),
      count_eq_zero_of_not_mem fun hf => hnull f (mem_of_mem_take hf)]

theorem ArrayOk.full
    (hused : files.fdCount ≠ 0 ∨ ∃ f, some f ∈ files.fdArray) : files.fdCount = nrOpenDefault := by
  rcases h.filled with hcount | ⟨hcount, hnull⟩
  · exact hcount
  · rcases hused with hne | ⟨f, hf⟩
    · exact absurd hcount hne
    · exact absurd hf (hnull f)

theorem ArrayOk.setRefcount (n : Int) : ArrayOk { files with refcount := n } := ⟨h.length, h.filled⟩

end

theorem forall_update {p : FilesStruct → Prop}
    (h : ∀ u ∈ tables, p (table u)) (hv : p v) : ∀ u ∈ tables, p (update table t v u) :=
  (forall_update_iff table fun u v => u ∈ tables → p v).mpr ⟨fun _ => hv, fun u _ => h u⟩

theorem slotRefs_setSlot (hnodup : tables.Nodup) (ht : t ∈ tables) {old : Option FileId}
    (hold : (table t).fdArray[fd]? = some old) (new : Option FileId) (g : FileId) :
    slotRefs (update table t
        { table t with fdArray := (table t).fdArray.set fd new }) tables g +
        (if old = some g then 1 else 0) =
      slotRefs table tables g + if new = some g then 1 else 0 := by
  have hsum := sum_map_update hnodup ht (fun files => files.fdArray.count (some g)) table
    { table t with fdArray := (table t).fdArray.set fd new }
  have hcount := count_set_add hold new (some g)
  simp only [slotRefs, beq_iff_eq] at hsum hcount ⊢
  omega

theorem slotRefs_update (ht : t ∉ tables) (files : FilesStruct) (f : FileId) :
    slotRefs (update table t files) tables f = slotRefs table tables f :=
  congrArg sum (map_update_of_notMem ht (fun files => files.fdArray.count (some f)) table files)

theorem slotRefs_erase (hnodup : tables.Nodup) (ht : t ∈ tables) (files : FilesStruct)
    (f : FileId) :
    slotRefs (update table t files) (tables.erase t) f +
        (table t).fdArray.count (some f) = slotRefs table tables f := by
  have hrest : t ∉ tables.erase t := hnodup.not_mem_erase
  rw [slotRefs_update hrest, Nat.add_comm]
  exact sum_map_erase (fun u => (table u).fdArray.count (some f)) ht

theorem slotRefs_cons (ht : t ∉ tables) (files : FilesStruct) (f : FileId) :
    slotRefs (update table t files) (t :: tables) f =
      slotRefs table tables f + files.fdArray.count (some f) := by
  have hrest : slotRefs (update table t files) tables f = slotRefs table tables f :=
    slotRefs_update ht files f
  simp only [slotRefs, map_cons, sum_cons, update_self] at hrest ⊢
  rw [hrest, Nat.add_comm]

theorem slotRefs_refcount (table : TableId → FilesStruct) (hnodup : tables.Nodup)
    (ht : t ∈ tables) (n : Int) (f : FileId) :
    slotRefs (update table t { table t with refcount := n }) tables f =
      slotRefs table tables f := by
  have hsum := sum_map_update hnodup ht (fun files => files.fdArray.count (some f)) table
    { table t with refcount := n }
  exact Nat.add_right_cancel hsum

section

variable (h : UsersOk table tables tasks files)
include h

theorem UsersOk.set (hv : v.refcount = (table t).refcount) :
    UsersOk (update table t v) tables tasks files :=
  ⟨h.nodup, h.nodup_tasks, h.used,
    (forall_update_iff table fun u v => u ∈ tables → v.refcount = _).mpr
      ⟨fun ht => hv.trans (h.refcount t ht), fun u _ => h.refcount u⟩⟩

theorem UsersOk.addTask (hy : y ∉ tasks) {v : Option TableId} (hv : ∀ t ∈ v, t ∈ tables)
    (hcount : ∀ u ∈ tables,
      (table' u).refcount = (table u).refcount + if v == some u then 1 else 0) :
    UsersOk table' tables (y :: tasks) (update files y v) := by
  have hmap : tasks.map (update files y v) = tasks.map files := map_update_of_notMem hy id files v
  refine ⟨h.nodup, nodup_cons.mpr ⟨hy, h.nodup_tasks⟩, ?_, ?_⟩
  · exact (forall_update_iff files fun x v => ∀ u, v = some u → x ∈ y :: tasks ∧ u ∈ tables
      ).mpr ⟨fun u hu => ⟨mem_cons_self, hv u hu⟩, fun x _ u hx =>
        (h.used x u hx).imp_left (mem_cons_of_mem y)⟩
  · intro u hu
    rw [map_cons, hmap, update_self, count_cons, hcount u hu, h.refcount u hu]
    split <;> rfl

theorem UsersOk.addUser (hy : y ∉ tasks) (ht : t ∈ tables)
    (hv : v.refcount = (table t).refcount + 1) :
    UsersOk (update table t v) tables (y :: tasks) (update files y (some t)) := by
  refine h.addTask hy (by rintro u ⟨⟩; exact ht) ?_
  refine (forall_update_iff table fun u v => u ∈ tables → v.refcount = _).mpr
    ⟨fun _ => by simp [hv], fun u hu _ => by simp [Ne.symm hu]⟩

theorem UsersOk.leave (hx : files x = some t) (hv : v.refcount = (table t).refcount - 1) :
    UsersOk (update table t v) tables tasks (update files x none) := by
  obtain ⟨hmem, -⟩ := h.used x t hx
  have hslot : (tasks.map files)[tasks.idxOf x]? = some (some t) := by simp [hmem, hx]
  have hset (u : TableId) := count_set_add hslot none (some u)
  have hmap : tasks.map (update files x none) = (tasks.map files).set (tasks.idxOf x) none := by
    rw [h.nodup_tasks.map_update, if_pos hmem]
  refine ⟨h.nodup, h.nodup_tasks, ?_, ?_⟩
  · exact (forall_update_iff files fun x v => ∀ u, v = some u → x ∈ tasks ∧ u ∈ tables
      ).mpr ⟨by simp, fun z _ => h.used z⟩
  · rw [hmap]
    refine (forall_update_iff table fun u v => u ∈ tables → v.refcount = _).mpr
      ⟨fun ht => ?_, fun u hu hmem => ?_⟩
    · have hold := h.refcount t ht
      have htset := hset t
      simp only [reduceCtorEq, beq_iff_eq, if_false, if_true] at htset
      omega
    · have huset := hset u
      simp only [beq_iff_eq, some.injEq, Ne.symm hu, reduceCtorEq, if_false] at huset
      rw [h.refcount u hmem]
      omega

theorem UsersOk.erase (hzero : (table t).refcount = 0)
    (ht : t ∈ tables) : UsersOk table (tables.erase t) tasks files := by
  refine ⟨h.nodup.erase t, h.nodup_tasks, ?_, fun u hu => h.refcount u (mem_of_mem_erase hu)⟩
  intro x u hx
  obtain ⟨hxs, hus⟩ := h.used x u hx
  refine ⟨hxs, (mem_erase_of_ne ?_).mpr hus⟩
  rintro rfl
  have hcount := h.refcount u ht
  have hpos : 0 < (tasks.map files).count (some u) := count_pos_iff.mpr (mem_map.mpr ⟨x, hxs, hx⟩)
  omega

theorem UsersOk.insert (ht : t ∉ tables)
    (hzero : (table' t).refcount = 0) (hsame : ∀ u ∈ tables, (table' u).refcount = (table u).refcount) :
    UsersOk table' (t :: tables) tasks files := by
  refine ⟨nodup_cons.mpr ⟨ht, h.nodup⟩, h.nodup_tasks, ?_, ?_⟩
  · intro x u hx
    exact ⟨(h.used x u hx).1, mem_cons_of_mem _ (h.used x u hx).2⟩
  · intro u hu
    rcases mem_cons.mp hu with rfl | hu
    · have hnone : some u ∉ tasks.map files := by
        intro hmem
        obtain ⟨x, -, hx⟩ := mem_map.mp hmem
        exact ht (h.used x u hx).2
      rw [hzero, count_eq_zero_of_not_mem hnone]
      rfl
    · rw [hsame u hu]
      exact h.refcount u hu

end

end Tables

/-! ## The calls -/

/-- Tables and files are counted right. -/
structure Inv (s : State) : Prop where
  users : UsersOk s.table s.tables s.tasks s.files
  arrays : ∀ t ∈ s.tables, ArrayOk (s.table t)
  counted : Counted s.file s.refs

theorem arrays_of_start {s : State} (h : Start s) : ∀ t ∈ s.tables, ArrayOk (s.table t) := by
  obtain ⟨-, -, x, t, -, htables, htable, -⟩ := h
  intro u hu
  obtain rfl : u = t := by simpa [htables] using hu
  rw [htable]
  exact ⟨length_replicate, Or.inr ⟨rfl, by simp [initFiles]⟩⟩

theorem Inv.start {s : State} (h : Start s) : Inv s := by
  have harrays := arrays_of_start h
  obtain ⟨hfile, hheld, x, t, htasks, htables, htable, hfiles⟩ := h
  refine ⟨⟨by simp [htables], by simp [htasks], ?_, ?_⟩, harrays, ?_⟩
  · rw [hfiles]
    refine (forall_update_iff _ fun y v => ∀ u, v = some u → y ∈ s.tasks ∧ u ∈ s.tables
      ).mpr ⟨fun u hu => ⟨by simp [htasks], by simp [htables, some.inj hu]⟩, by simp⟩
  · intro u hu
    obtain rfl : u = t := by simpa [htables] using hu
    simp [htable, htasks, hfiles, initFiles]
  · intro f
    rw [hfile]
    simp [FileOk, State.refs, slotRefs, htables, htable, hheld, initFiles, count_replicate]

section Calls

variable {s s' : State} {x y : TaskId} {t u : TableId} {files : FilesStruct} {f : FileId}
  {fd start : Nat} {error r : Int} {ids : List FileId} {stale : List (Option FileId)}

theorem filesOf_eq_some : s.filesOf x = some (t, files) ↔
    s.files x = some t ∧ t ∈ s.tables ∧ s.table t = files := by
  simp only [State.filesOf, bind_eq_bind, bind_eq_some_iff,
    ite_none_right_eq_some, some.injEq, Prod.mk.injEq]
  constructor
  · rintro ⟨u, hu, hmem, rfl, rfl⟩
    exact ⟨hu, hmem, rfl⟩
  · rintro ⟨hx, hmem, rfl⟩
    exact ⟨t, hx, hmem, rfl, rfl⟩

theorem sysOpen_none : s.sysOpen x none error = some (r, s') ↔
    ∃ t, s.files x = some t ∧ t ∈ s.tables ∧
      ∃ fd, allocFd (s.table t).fdArray 0 (s.table t).fdCount = some fd ∧ -enomem = r ∧ s = s' := by
  simp only [State.sysOpen, bind_eq_bind, bind_eq_some_iff, Prod.exists,
    filesOf_eq_some, and_assoc, exists_and_left, exists_eq_left', some.injEq, Prod.mk.injEq]

theorem sysOpen_some : s.sysOpen x (some f) error = some (r, s') ↔
    ∃ t, s.files x = some t ∧ t ∈ s.tables ∧
      ∃ fd, allocFd (s.table t).fdArray 0 (s.table t).fdCount = some fd ∧
      (error = 0 ∧ (fd : Int) = r ∧ { s with file := s.file.allocFile f }.fdInstall t fd f = s' ∨
      ¬ error = 0 ∧ ∃ file, (s.file.allocFile f).fput f = some file ∧
        (-maxErrno ≤ error ∧ error < 0) ∧ error = r ∧ { s with file := file } = s') := by
  simp only [State.sysOpen, bind_eq_bind, bind_eq_some_iff, Prod.exists,
    filesOf_eq_some, and_assoc, exists_and_left, exists_eq_left', ite_eq_iff, some.injEq,
    Prod.mk.injEq, reduceCtorEq, and_false, or_false]

theorem fDupfd_eq_some : s.fDupfd x fd start = some (r, s') ↔
    ∃ t, s.files x = some t ∧ t ∈ s.tables ∧ ∃ f, (s.table t).fdArray[fd]? = some (some f) ∧
      (s.nofile ≤ start ∧ -einval = r ∧ s = s' ∨
      ¬ s.nofile ≤ start ∧ ∃ new, allocFd (s.table t).fdArray start s.nofile = some new ∧
        ∃ file, s.file.getFile f = some file ∧ (new : Int) = r ∧
          { s with file := file }.fdInstall t new f = s') := by
  simp only [State.fDupfd, bind_eq_bind, bind_eq_some_iff, Prod.exists,
    filesOf_eq_some, and_assoc, exists_and_left, exists_eq_left', ite_eq_iff, some.injEq,
    Prod.mk.injEq, existsAndEq, true_and]

theorem sysClose_eq_some : s.sysClose x fd = some (r, s') ↔
    ∃ t, s.files x = some t ∧ t ∈ s.tables ∧
      ((s.table t).fdCount ≤ fd ∧ -ebadf = r ∧ s = s' ∨
      ¬ (s.table t).fdCount ≤ fd ∧ ∃ slot, (s.table t).fdArray[fd]? = some slot ∧
        ∃ file, s.file.kfree slot = some file ∧ 0 = r ∧ { s with
          file := file
          table := update s.table t
            { s.table t with fdArray := (s.table t).fdArray.set fd none } } = s') := by
  simp only [State.sysClose, bind_eq_bind, bind_eq_some_iff, Prod.exists,
    filesOf_eq_some, and_assoc, exists_and_left, exists_eq_left', ite_eq_iff, some.injEq,
    Prod.mk.injEq]

def dupState (s : State) (y : TaskId) (u : TableId) (file : FileMap)
    (fdArray : List (Option FileId)) : State :=
  { s with
    file := file
    table := update s.table u
      { refcount := 1, fdCount := nrOpenDefault, fdArray := fdArray }
    tables := u :: s.tables }.addTask y (some u)

theorem forkCopied_eq_some (hx : s.files x = some t) (ht : t ∈ s.tables) :
    s.forkCopied x y (some u) ids stale = some (r, s') ↔
      ∃ file fdArray, s.file.dupSlots (s.table t).fdArray ids stale = some (file, fdArray) ∧
        0 = r ∧ dupState s y u file fdArray = s' := by
  simp only [State.forkCopied, hx, if_pos ht, bind_eq_bind, bind_eq_some_iff,
    Prod.exists, some.injEq, Prod.mk.injEq, dupState]

theorem forkCopied_none (hx : s.files x = some t) (ht : t ∈ s.tables) :
    s.forkCopied x y none ids stale = some (-enomem, s) := by
  simp [State.forkCopied, hx, ht]

theorem arrays_dupState {file : FileMap} {fdArray : List (Option FileId)}
    (h : ∀ t ∈ s.tables, ArrayOk (s.table t)) (hlength : fdArray.length = nrOpenDefault) :
    ∀ t ∈ (dupState s y u file fdArray).tables, ArrayOk ((dupState s y u file fdArray).table t) :=
  (forall_update_iff s.table fun t v => t ∈ u :: s.tables → ArrayOk v).mpr
    ⟨fun _ => ⟨hlength, .inl rfl⟩, fun t hne ht => h t ((mem_cons.mp ht).resolve_left hne)⟩

theorem allocFd_eq {fdArray : List (Option FileId)} {start stop fd : Nat}
    (h : allocFd fdArray start stop = some fd) : fdArray[fd]? = some none ∧ fd < stop := by
  have hnull := find?_some h
  have hmem := mem_of_find?_eq_some h
  simp only [mem_range'_1] at hmem
  exact ⟨by simpa using hnull, by omega⟩

section

variable (h : Inv s)
include h

/-- `fd_install` in an empty slot, when the files are right but for the new reference. -/
theorem Inv.fdInstall {fd : Nat} {file : FileMap} (ht : t ∈ s.tables)
    (hfd : (s.table t).fdArray[fd]? = some none) (hfull : (s.table t).fdCount = nrOpenDefault)
    (hfile : Counted file fun g => s.refs g + if f = g then 1 else 0) :
    Inv ({ s with file := file }.fdInstall t fd f) := by
  refine ⟨h.users.set rfl, forall_update h.arrays ((h.arrays t ht).setSlot (Or.inr hfull)), ?_⟩
  intro g
  have hslot := slotRefs_setSlot h.users.nodup ht hfd (some f) g
  simp only [reduceCtorEq, if_false, some.injEq] at hslot
  have hrefs : ({ s with file := file }.fdInstall t fd f).refs g =
      s.refs g + if f = g then 1 else 0 := by
    simp only [State.fdInstall, State.refs]
    omega
  rw [hrefs]
  exact hfile g

theorem Inv.unreferred (hf : s.file f = none) : s.refs f = 0 := by
  have hok := h.counted f
  rwa [hf] at hok

theorem Inv.sysOpen {f : Option FileId} (hok : ∀ g ∈ f, s.file g = none)
    (hstep : s.sysOpen x f error = some (r, s')) : Inv s' := by
  cases f with
  | none =>
    obtain ⟨t, -, -, fd, -, -, rfl⟩ := sysOpen_none.mp hstep
    exact h
  | some f =>
    have hunref := h.unreferred (hok f rfl)
    have halloc : Counted (s.file.allocFile f) fun g => s.refs g + if f = g then 1 else 0 :=
      h.counted.allocFile (fun g hg => by simp [Ne.symm hg]) (by simp [hunref])
    obtain ⟨t, -, ht, fd, hfd, ⟨-, -, rfl⟩ | ⟨-, file, hput, -, -, rfl⟩⟩ := sysOpen_some.mp hstep
    · obtain ⟨hnull, hlt⟩ := allocFd_eq hfd
      exact h.fdInstall ht hnull ((h.arrays t ht).full (Or.inl (by omega))) halloc
    · refine ⟨h.users, h.arrays, halloc.fput hput ?_ (by simp [State.refs]) ?_⟩
      · intro _ fl hfl
        rw [FileMap.allocFile, update_self] at hfl
        cases hfl
        rfl
      · intro g hg
        simp [Ne.symm hg, State.refs]

theorem Inv.fDupfd (hstep : s.fDupfd x fd start = some (r, s')) : Inv s' := by
  obtain ⟨t, -, ht, f, hslot, ⟨-, -, rfl⟩ | ⟨-, new, hnew, file, hget, -, rfl⟩⟩ :=
    fDupfd_eq_some.mp hstep
  · exact h
  · refine h.fdInstall ht (allocFd_eq hnew).1
      ((h.arrays t ht).full (Or.inr ⟨f, mem_of_getElem? hslot⟩)) ?_
    exact h.counted.getFile (fun g hg => by simp [Ne.symm hg]) hget (by simp)

theorem Inv.fget (hstep : s.fget x fd = some (r, s')) : Inv s' := by
  simp only [State.fget, bind_eq_bind, bind_eq_some_iff, ite_eq_iff,
    some.injEq, Prod.mk.injEq] at hstep
  obtain ⟨_, -, ⟨-, slot, -, f, -, file, hget, -, rfl⟩ | ⟨-, -, rfl⟩⟩ := hstep
  · refine ⟨h.users, h.arrays, h.counted.getFile ?_ hget ?_⟩
    · intro g hg
      simp [State.refs, count_cons_of_ne (Ne.symm hg)]
    · simp [State.refs, Nat.add_assoc]
  · exact h

theorem Inv.putHeld (hok : StepOk s (.fput f)) (hstep : s.putHeld f = some (r, s')) : Inv s' := by
  obtain ⟨hheld, hcache⟩ := hok
  obtain ⟨file, hput, hstep⟩ := bind_eq_some_iff.mp hstep
  cases hstep
  refine ⟨h.users, h.arrays, h.counted.fput hput ?_ ?_ ?_⟩
  · intro hone fl hfl
    have hok := h.counted f
    rw [hone, hfl] at hok
    exact hcache fl hfl hok.2
  · have hpos : 0 < s.held.count f := count_pos_iff.mpr hheld
    simp only [State.refs, count_erase_self]
    omega
  · intro g hg
    simp [State.refs, count_erase_of_ne hg]

theorem Inv.fCount_eq {fl : OpenFile} (hfl : s.file f = some fl)
    (hpos : 0 < s.refs f) : fl.fCount = s.refs f := by
  have hok := h.counted f
  obtain ⟨n, hn⟩ := Nat.exists_eq_succ_of_ne_zero (Nat.ne_of_gt hpos)
  rw [hfl, hn] at hok
  rw [hn]
  exact hok.2

theorem Inv.sysClose (hok : Sound s (.close x fd))
    (hstep : s.sysClose x fd = some (r, s')) : Inv s' := by
  obtain ⟨t, hx, ht, ⟨-, -, rfl⟩ | ⟨hlt, slot, hslot, file, hkfree, -, rfl⟩⟩ :=
    sysClose_eq_some.mp hstep
  · exact h
  · have hrefs := slotRefs_setSlot h.users.nodup ht hslot none
    refine ⟨h.users.set rfl, forall_update h.arrays ((h.arrays t ht).setSlot (Or.inl rfl)), ?_⟩
    cases slot with
    | none =>
      cases hkfree
      intro g
      have hg := hrefs g
      simp only [reduceCtorEq, if_false, Nat.add_zero] at hg
      simp only [State.refs, hg]
      exact h.counted g
    | some f =>
      have hf := hrefs f
      simp only [reduceCtorEq, if_false, if_true, Nat.add_zero] at hf
      have hone : s.refs f = 1 := by
        obtain ⟨fl, hfl, -⟩ := bind_eq_some_iff.mp hkfree
        have hcount := hok t hx (by omega) _ hslot f rfl fl hfl
        have hrefer := h.fCount_eq hfl (by simp only [State.refs]; omega)
        omega
      refine h.counted.kfree hkfree hone ?_ ?_
      · simp only [State.refs] at hone ⊢
        omega
      · intro g hg
        have hother := hrefs g
        simp only [reduceCtorEq, if_false, Nat.add_zero, some.injEq, Ne.symm hg] at hother
        simp only [State.refs, hother]

theorem Inv.addTask (hy : y ∉ s.tasks) : Inv (s.addTask y none) :=
  ⟨h.users.addTask hy (by simp) (by simp [State.addTask]), h.arrays, h.counted⟩

theorem Inv.counted_refcount (ht : t ∈ s.tables) (n : Int) : Counted s.file (State.refs { s with
      table := update s.table t { s.table t with refcount := n } }) := by
  intro g
  simp only [State.refs, slotRefs_refcount s.table h.users.nodup ht n g]
  exact h.counted g

theorem Inv.forkShared (hy : y ∉ s.tasks) (hstep : s.forkShared x y = some (r, s')) : Inv s' := by
  cases hx : s.files x with
  | none =>
    obtain ⟨-, rfl⟩ : _ ∧ s.addTask y none = s' := by simpa [State.forkShared, hx] using hstep
    exact h.addTask hy
  | some t =>
    have ht := (h.users.used x t hx).2
    simp only [State.forkShared, hx, if_pos ht] at hstep
    cases hstep
    exact ⟨h.users.addUser hy ht rfl, forall_update h.arrays ((h.arrays t ht).setRefcount _),
      h.counted_refcount ht _⟩

theorem Inv.forkCopied {v : Option TableId} (hok : StepOk s (.forkCopied x y v ids stale))
    (hstep : s.forkCopied x y v ids stale = some (r, s')) : Inv s' := by
  obtain ⟨⟨hy, hnew, hnodup, hfresh, -, -⟩, hsound⟩ := hok
  cases hx : s.files x with
  | none =>
    obtain ⟨-, rfl⟩ : _ ∧ s.addTask y none = s' := by simpa [State.forkCopied, hx] using hstep
    exact h.addTask hy
  | some t =>
    have ht := (h.users.used x t hx).2
    cases v with
    | none =>
      cases hstep.symm.trans (forkCopied_none hx ht)
      exact h
    | some u =>
      obtain ⟨file, fdArray, hdup, -, rfl⟩ := (forkCopied_eq_some hx ht).mp hstep
      have hu : u ∉ s.tables := hnew u rfl
      obtain ⟨hone, hstale⟩ := hsound t hx
      have hlen := (h.arrays t ht).length
      obtain ⟨hcounted, hlength⟩ := h.counted.dupSlots hnodup hfresh hone (by rwa [hlen]) hdup
      have hinsert : UsersOk (update s.table u
          { refcount := 0, fdCount := nrOpenDefault, fdArray := fdArray })
          (u :: s.tables) s.tasks s.files := by
        refine h.users.insert hu (by simp) fun w hw => ?_
        rw [update_of_ne (by rintro rfl; exact hu hw)]
      have husers := hinsert.addUser (v := { refcount := 1, fdCount := nrOpenDefault, fdArray })
        hy mem_cons_self (by simp)
      rw [update_idem] at husers
      refine ⟨husers, arrays_dupState h.arrays (hlength.trans hlen), ?_⟩
      intro g
      simp only [dupState, State.addTask, State.refs, slotRefs_cons hu, Nat.add_right_comm]
      exact hcounted g

theorem Inv.exit_cache (hsound : Sound s (.exit x)) (hx : s.files x = some t)
    (hlast : (s.table t).refcount = 1) (hf : some f ∈ (s.table t).fdArray)
    (hrefs : s.refs f = (s.table t).fdArray.count (some f)) :
    ∀ fl ∈ s.file f, fl.cache = .filp := by
  intro fl hfl
  have hpos : 0 < (s.table t).fdArray.count (some f) := count_pos_iff.mpr hf
  exact hsound t hx hlast _ hf f rfl fl hfl (hrefs ▸ h.fCount_eq hfl (by omega))

theorem Inv.putFilesStruct (hsound : Sound s (.exit x)) (hx : s.files x = some t)
    (hstep : { s with files := update s.files x none }.putFilesStruct t = some (r, s')) :
    Inv s' := by
  have ht := (h.users.used x t hx).2
  have hleave : UsersOk (update s.table t
      { s.table t with refcount := (s.table t).refcount - 1 }) s.tables s.tasks
      (update s.files x none) := h.users.leave hx rfl
  unfold State.putFilesStruct at hstep
  rw [if_pos ht] at hstep
  dsimp only at hstep
  split at hstep <;> rename_i hzero
  · obtain ⟨file, hclose, hres⟩ := bind_eq_some_iff.mp hstep
    obtain ⟨-, rfl⟩ := Prod.mk.inj (some.inj hres)
    have harray := h.arrays t ht
    have hshare : ∀ g, slotRefs (update s.table t
        { s.table t with refcount := (s.table t).refcount - 1 }) (s.tables.erase t) g +
        (s.table t).fdArray.count (some g) = slotRefs s.table s.tables g :=
      slotRefs_erase h.users.nodup ht _
    refine ⟨hleave.erase (by simpa using hzero) ht, ?_, ?_⟩
    · exact fun u hu =>
        forall_update h.arrays (harray.setRefcount _) u (mem_of_mem_erase hu)
    · refine Counted.closeFiles ?_ ?_ hclose
      · intro g
        have hg := hshare g
        have htake := harray.count_take g
        convert h.counted g using 1
        simp only [State.refs] at hg ⊢
        omega
      · intro g hmem hbase
        have hg := hshare g
        refine h.exit_cache hsound hx (by omega) (mem_of_mem_take hmem) ?_
        simp only [State.refs] at hbase hg ⊢
        omega
  · obtain ⟨-, rfl⟩ := Prod.mk.inj (some.inj hstep)
    exact ⟨hleave, forall_update h.arrays ((h.arrays t ht).setRefcount _), h.counted_refcount ht _⟩

theorem Inv.exitFiles (hsound : Sound s (.exit x))
    (hstep : s.exitFiles x = some (r, s')) : Inv s' := by
  unfold State.exitFiles at hstep
  split at hstep
  · obtain ⟨-, rfl⟩ := Prod.mk.inj (some.inj hstep)
    exact h
  · rename_i t hx
    exact h.putFilesStruct hsound hx hstep

theorem Inv.step {op : Op} (hok : StepOk s op) (hstep : step s op = some (r, s')) : Inv s' := by
  cases op with
  | «open» x f error => exact h.sysOpen hok.1 hstep
  | dupfd x fd start => exact h.fDupfd hstep
  | fget x fd => exact h.fget hstep
  | fput f => exact h.putHeld hok hstep
  | close x fd => exact h.sysClose hok.2 hstep
  | forkShared x y => exact h.forkShared hok.1 hstep
  | forkCopied x y t ids stale => exact h.forkCopied hok hstep
  | exit x => exact h.exitFiles hok.2 hstep

theorem Inv.lifetime : Lifetime s := by
  intro f
  have hok := h.counted f
  cases hfile : s.file f with
  | none => rwa [hfile] at hok
  | some fl =>
    cases hrefs : s.refs f with
    | zero =>
      rw [hfile, hrefs] at hok
      exact hok
    | succ n =>
      rw [hfile, hrefs] at hok
      exact hok.1

end

end Calls

/-- A file is released once, to its own cache and with its last reference, in every run whose calls
meet `Sound`. -/
theorem lifetime_of_reachable {s : State} (h : Reachable step StepOk Start s) : Lifetime s := by
  have hinv : Inv s :=
    h.invariant (fun _ => Inv.start) fun _ _ _ _ hs hok hstep => hs.step hok hstep
  exact hinv.lifetime

def booted : State :=
  { file := fun _ => none
    table := fun _ => initFiles
    tables := [0]
    tasks := [0]
    files := update (fun _ => none) 0 (some 0)
    held := []
    nofile := 1024 }

theorem start_booted : Start booted := ⟨fun _ => rfl, rfl, 0, 0, rfl, rfl, rfl, rfl⟩

/-- Its child gets a table of its own, in memory that was zero. -/
def forkChild : Op :=
  .forkCopied 0 1 (some 1) (range' 10 nrOpenDefault) (replicate nrOpenDefault none)

def forked : State :=
  { booted with
    table := update booted.table 1
      { refcount := 1, fdCount := nrOpenDefault, fdArray := replicate nrOpenDefault none }
    tables := [1, 0] }.addTask 1 (some 1)

theorem dupSlots_replicate (file : FileMap) {n : Nat} {ids : List FileId}
    {stale : List (Option FileId)} (hids : ids.length = n) (hstale : stale.length = n) :
    file.dupSlots (replicate n none) ids stale = some (file, stale) := by
  induction n generalizing ids stale with
  | zero =>
    obtain rfl := length_eq_zero_iff.mp hstale
    rfl
  | succ n ih =>
    obtain ⟨id, ids, rfl⟩ := exists_cons_of_length_eq_add_one hids
    obtain ⟨junk, stale, rfl⟩ := exists_cons_of_length_eq_add_one hstale
    rw [replicate_succ, FileMap.dupSlots, ih (Nat.succ.inj hids) (Nat.succ.inj hstale)]
    rfl

theorem step_forkChild : step booted forkChild = some (0, forked) := by
  have hdup : booted.file.dupSlots (replicate nrOpenDefault none)
      (range' 10 nrOpenDefault) (replicate nrOpenDefault none) =
      some (booted.file, replicate nrOpenDefault none) :=
    dupSlots_replicate _ length_range' length_replicate
  have hfiles : booted.files 0 = some 0 := rfl
  have hmem : 0 ∈ booted.tables := mem_singleton_self 0
  simp only [step, forkChild, State.forkCopied, hfiles, if_pos hmem]
  erw [hdup]
  rfl

theorem stepOk_forkChild : StepOk booted forkChild := by
  refine ⟨⟨by decide, by decide, nodup_range', fun _ _ => rfl, length_range', length_replicate⟩, ?_⟩
  rintro t ⟨⟩
  refine ⟨?_, ?_⟩
  · rintro slot hslot f ⟨⟩
    exact absurd (eq_of_mem_replicate hslot) (by simp)
  · intro i hi _
    exact getElem?_replicate_of_lt hi

/-- The child opens a file and duplicates it, and the file goes with the table. -/
theorem lifetime_of_reachable_exit :
    ∃ s, Reachable step StepOk Start s ∧ (s.file 1).map (·.released) = some [.filp] ∧
      Lifetime s := by
  have hrun : (Reachable.run step StepOk forked [.open 1 (some 1) 0, .dupfd 1 0 0, .exit 1]).any
      (fun s => decide ((s.file 1).map (·.released) = some [.filp])) = true := by
    decide +kernel
  obtain ⟨s, hreach, hs⟩ := Reachable.exists_of_run_from
    (.call (.start start_booted) stepOk_forkChild step_forkChild) _ hrun
  exact ⟨s, hreach, of_decide_eq_true hs, lifetime_of_reachable hreach⟩

/-- The second descriptor of a file still refers to it when `close` of the first has released it. -/
theorem closed_file_referred :
    ∃ s, Reachable step Ok Start s ∧ s.refs 1 = 1 ∧
      (s.file 1).map (·.released) = some [.filp] ∧ ¬ Lifetime s := by
  have hrun : (Reachable.run step Ok forked [.open 1 (some 1) 0, .dupfd 1 0 0, .close 1 0]).any
      (fun s => decide (s.refs 1 = 1 ∧ (s.file 1).map (·.released) = some [.filp])) = true := by
    decide +kernel
  obtain ⟨s, hreach, hs⟩ := Reachable.exists_of_run_from
    (.call (.start start_booted) stepOk_forkChild.1 step_forkChild) _ hrun
  obtain ⟨hrefs, hreleased⟩ := of_decide_eq_true hs
  refine ⟨s, hreach, hrefs, hreleased, fun hlife => ?_⟩
  obtain ⟨fl, hfl, hfilp⟩ := map_eq_some_iff.mp hreleased
  have hbad := hlife 1
  rw [hfl, hrefs] at hbad
  simp [hfilp] at hbad

end MyOS2.Files
