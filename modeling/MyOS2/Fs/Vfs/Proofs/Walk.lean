import MyOS2.Misc.Fields
import MyOS2.Fs.Vfs.Dcache
import MyOS2.Fs.Vfs.Proofs.Namei
import Mathlib.Data.List.Find

/-!
# Walks over the cache

A lookup is a walk over the pieces of the path, one after the other. It leaves
the mounts alone and adds dentries behind those that were there, so that the same
walk finds the same dentries again.
-/

namespace MyOS2.Namei.Dcache

open Function Option List Vfs Nat

variable {c c' : Dcache} {fuel : Nat} {nd nd' : Nameidata} {d : DentryId}

/-! ## The walk over the pieces of a path -/

def walkPieces (fuel : Nat) : Dcache → List Name → Nameidata → Option (Int × Dcache × Nameidata)
  | c, [], nd => some (0, c, nd)
  | c, last :: rest, nd => do
    let (err, c, nd) ← c.walkComponent fuel { nd with last, lastType := lastTypeOf last }
    if err ≠ 0 then some (err, c, nd) else walkPieces fuel c rest nd

def lookupResult : Int × Dcache × Nameidata → Except Int Path × Dcache
  | (err, c, nd) => if err ≠ 0 then (.error err, c) else (.ok nd.path, c)

theorem walkPieces_singleton {last : Name} :
    walkPieces fuel c [last] nd =
      c.walkComponent fuel { nd with last, lastType := lastTypeOf last } := by
  rw [walkPieces]
  cases c.walkComponent fuel { nd with last, lastType := lastTypeOf last } with
  | none => rfl
  | some r =>
    obtain ⟨err, c', nd'⟩ := r
    by_cases herr : err = 0
    · simp [herr, walkPieces]
    · simp [herr]

theorem walkPieces_append {l l' : List Name} :
    walkPieces fuel c (l ++ l') nd = (walkPieces fuel c l nd).bind fun r =>
      if r.1 ≠ 0 then some r else walkPieces fuel r.2.1 l' r.2.2 := by
  induction l generalizing c nd with
  | nil => simp [walkPieces]
  | cons last rest ih =>
    rw [cons_append, walkPieces, walkPieces]
    cases c.walkComponent fuel { nd with last, lastType := lastTypeOf last } with
    | none => rfl
    | some r =>
      obtain ⟨err, c', nd'⟩ := r
      by_cases herr : err = 0
      · simpa [herr] using ih
      · simp [herr]

variable {name : List Char}

/-- The last component is walked outside of the loop, and is a component like the others. -/
theorem linkPathLoop_eq {n : Nat} (hname : name ≠ [])
    (hhead : name.head? ≠ some '/') (hn : name.length ≤ n) :
    ((linkPathLoop fuel n c name nd).bind fun r =>
        if r.1 ≠ 0 then some (.error r.1, r.2.1)
        else (r.2.1.walkComponent fuel r.2.2).map lookupResult) =
      (walkPieces fuel c (fields '/' name) nd).map lookupResult := by
  induction n generalizing c name nd with
  | zero => exact absurd (length_eq_zero_iff.mp (le_zero.mp hn)) hname
  | succ n ih =>
    rw [fields_eq_cons hname hhead, linkPathLoop]
    have hlt := length_rest_lt hname hhead
    have hhead' := head?_dropWhile_sep '/' (name.dropWhile (· != '/'))
    generalize (name.dropWhile (· != '/')).dropWhile (· == '/') = rest at hlt hhead' ⊢
    by_cases hnil : rest = []
    · rw [if_pos hnil, hnil, fields_nil, walkPieces_singleton]
      simp
    · rw [if_neg hnil, walkPieces]
      cases c.walkComponent fuel _ with
      | none => rfl
      | some r =>
        obtain ⟨err, c', nd'⟩ := r
        by_cases herr : err = 0
        · simpa [herr] using ih hnil hhead' (by omega)
        · simp [herr, lookupResult]

theorem pathLookupat_eq_walkPieces {fs : TaskFs} : c.pathLookupat fuel fs name =
      (walkPieces fuel c (fields '/' name) (pathInit fs name)).map lookupResult := by
  have hinit : { pathInit fs name with lastType := .root } = pathInit fs name := rfl
  rw [← fields_dropWhile, pathLookupat, linkPathWalk, hinit]
  have hhead := head?_dropWhile_sep '/' name
  generalize name.dropWhile (· == '/') = rest at hhead ⊢
  by_cases hnil : rest = []
  · -- nothing to walk: the component of the last type `root` stays
    simp [hnil, walkPieces, walkComponent, handleDots, pathInit, lookupResult]
  · rw [if_neg hnil, ← linkPathLoop_eq hnil hhead (le_refl _)]
    cases linkPathLoop fuel rest.length c rest (pathInit fs name) with
    | none => rfl
    | some r =>
      obtain ⟨err, c', nd'⟩ := r
      by_cases herr : err = 0
      · cases hlast : c'.walkComponent fuel nd' with
        | none => simp [herr, hlast]
        | some r => simp [herr, hlast, lookupResult, apply_ite some]
      · simp [herr]

variable {pieces : List Name}

theorem walkPieces_last (last : Name) (lastType : LastType) :
    (walkPieces fuel c pieces { nd with last, lastType }).map lookupResult =
      (walkPieces fuel c pieces nd).map lookupResult := by
  cases pieces with
  | nil => rfl
  | cons last rest => rfl

theorem walkPieces_filter (pieces : List Name) :
    (walkPieces fuel c (pieces.filter (· != ['.'])) nd).map lookupResult =
      (walkPieces fuel c pieces nd).map lookupResult := by
  induction pieces generalizing c nd with
  | nil => rfl
  | cons last rest ih =>
    by_cases hdot : last = ['.']
    · have hwalk : c.walkComponent fuel { nd with last, lastType := lastTypeOf last } =
          some (0, c, { nd with last, lastType := lastTypeOf last }) := by
        simp [hdot, walkComponent, lastTypeOf, handleDots]
      rw [filter_cons_of_neg (by simp [hdot]), ih, walkPieces, hwalk]
      exact (walkPieces_last _ _).symm
    · rw [filter_cons_of_pos (by simpa using hdot), walkPieces, walkPieces]
      cases c.walkComponent fuel { nd with last, lastType := lastTypeOf last } with
      | none => rfl
      | some r =>
        obtain ⟨err, c', nd'⟩ := r
        by_cases herr : err = 0
        · simpa [herr] using ih
        · simp [herr]

theorem exists_path (h : ∀ p ∈ pieces, p ≠ [] ∧ '/' ∉ p) (absolute : Prop) :
    ∃ s : Name, (s.head? = some '/' ↔ absolute) ∧ fields '/' s = pieces := by
  by_cases habs : absolute
  · refine ⟨'/' :: pieces.flatMap (· ++ ['/']), by simp [habs], ?_⟩
    rw [fields_cons_sep, fields_flatMap h]
  · refine ⟨pieces.flatMap (· ++ ['/']), iff_of_false (fun hhead => ?_) habs, fields_flatMap h⟩
    rcases pieces with _ | ⟨piece, pieces⟩
    · simp at hhead
    · obtain ⟨hne, hno⟩ := h piece mem_cons_self
      obtain ⟨a, piece, rfl⟩ := exists_cons_of_ne_nil hne
      exact hno (some.inj hhead ▸ mem_cons_self)

theorem linkPathLoop_ok {n : Nat} (hname : name ≠ [])
    (hhead : name.head? ≠ some '/') (hn : name.length ≤ n)
    (h : linkPathLoop fuel n c name nd = some (0, c', nd')) :
    ∃ l last nd₀, fields '/' name = l ++ [last] ∧ walkPieces fuel c l nd = some (0, c', nd₀) ∧
      nd' = { nd₀ with last, lastType := lastTypeOf last } := by
  induction n generalizing c name nd with
  | zero => exact absurd (length_eq_zero_iff.mp (le_zero.mp hn)) hname
  | succ n ih =>
    rw [fields_eq_cons hname hhead]
    rw [linkPathLoop] at h
    have hlt := length_rest_lt hname hhead
    have hhead' := head?_dropWhile_sep '/' (name.dropWhile (· != '/'))
    generalize (name.dropWhile (· != '/')).dropWhile (· == '/') = rest at hlt hhead' h ⊢
    generalize name.takeWhile (· != '/') = last at h ⊢
    by_cases hnil : rest = []
    · rw [if_pos hnil] at h
      obtain ⟨-, rfl, rfl⟩ := some.inj h
      exact ⟨[], last, nd, by simp [hnil], rfl, rfl⟩
    · rw [if_neg hnil] at h
      obtain ⟨⟨err, c₁, nd₁⟩, hwalk, h⟩ := bind_eq_some_iff.mp h
      by_cases herr : err = 0
      · subst herr
        obtain ⟨l, last', nd₀, hfields, hl, rfl⟩ := ih hnil hhead' (by omega) h
        refine ⟨last :: l, last', nd₀, by rw [hfields]; rfl, ?_, rfl⟩
        simpa [walkPieces, hwalk] using hl
      · have h := (if_pos herr).symm.trans h
        exact absurd (congrArg Prod.fst (some.inj h)) herr

theorem linkPathWalk_ok {fs : TaskFs}
    (h : c.linkPathWalk fuel name (pathInit fs name) = some (0, c', nd')) :
    (c' = c ∧ nd' = pathInit fs name) ∨
      ∃ l last nd₀, fields '/' name = l ++ [last] ∧
        walkPieces fuel c l (pathInit fs name) = some (0, c', nd₀) ∧
        nd' = { nd₀ with last, lastType := lastTypeOf last } := by
  have hinit : { pathInit fs name with lastType := .root } = pathInit fs name := rfl
  rw [← fields_dropWhile]
  rw [linkPathWalk, hinit] at h
  have hhead := head?_dropWhile_sep '/' name
  generalize name.dropWhile (· == '/') = rest at hhead h ⊢
  by_cases hnil : rest = []
  · rw [if_pos hnil] at h
    obtain ⟨-, rfl, rfl⟩ := some.inj h
    exact .inl ⟨rfl, rfl⟩
  · rw [if_neg hnil] at h
    exact .inr (linkPathLoop_ok hnil hhead (le_refl _) h)

variable {k : DentryId} {n : Name}

/-! ## One component -/

theorem dLookup_mem (hk : c.dLookup d n = some k) : k ∈ c.dSubdirs d ∧ n <+: c.dName k := by
  refine ⟨mem_of_find?_eq_some hk, ?_⟩
  simpa using find?_some hk

theorem fresh_of_dLookup (hnone : c.dLookup d n = none) : ∀ k ∈ c.dSubdirs d, c.dName k ≠ n := by
  intro k hk hname
  have hno := find?_eq_none.mp hnone k hk
  rw [hname] at hno
  simp at hno

/-- The ways that `walk_component` (`namei.c:429-466`) comes back. -/
inductive Moves (c : Dcache) (fuel : Nat) (nd : Nameidata) : Int → Dcache → Nameidata → Prop
  | dots {nd' : Nameidata} : nd.lastType ≠ .norm → c.handleDots fuel nd = some nd' →
      Moves c fuel nd 0 c nd'
  | cached {nd' : Nameidata} {k : DentryId} : nd.lastType = .norm →
      c.dLookup nd.path.dentry nd.last = some k → c.stepInto fuel nd k = some nd' →
      Moves c fuel nd 0 c nd'
  | missing {i : Ino} : nd.lastType = .norm → c.dLookup nd.path.dentry nd.last = none →
      c.dInode nd.path.dentry = some i → c.find i nd.last = none →
      Moves c fuel nd (-enoent) c nd
  | found {nd' : Nameidata} {i x : Ino} : nd.lastType = .norm →
      c.dLookup nd.path.dentry nd.last = none → c.dInode nd.path.dentry = some i →
      c.find i nd.last = some x →
      (c.addChild nd.path.dentry nd.last (some x)).stepInto fuel nd c.nextDentry = some nd' →
      Moves c fuel nd 0 (c.addChild nd.path.dentry nd.last (some x)) nd'

section

variable {err : Int} (h : c.walkComponent fuel nd = some (err, c', nd'))
include h

theorem moves_of_walkComponent : Moves c fuel nd err c' nd' := by
  rw [Dcache.walkComponent] at h
  split at h
  · rename_i htype
    obtain ⟨nd₁, hdots, heq⟩ := bind_eq_some_iff.mp h
    cases heq
    exact .dots htype hdots
  · rename_i htype
    have htype := not_not.mp htype
    split at h
    · rename_i k hk
      obtain ⟨nd₁, hstep, heq⟩ := bind_eq_some_iff.mp h
      cases heq
      exact .cached htype hk hstep
    · rename_i hnone
      obtain ⟨found, hslow, h⟩ := bind_eq_some_iff.mp h
      obtain ⟨i, hi, hslow⟩ := bind_eq_some_iff.mp hslow
      cases hfind : c.find i nd.last with
      | none =>
        rw [hfind] at hslow
        cases hslow
        cases h
        exact .missing htype hnone hi hfind
      | some x =>
        rw [hfind] at hslow
        cases hslow
        obtain ⟨nd₁, hstep, heq⟩ := bind_eq_some_iff.mp h
        cases heq
        exact .found htype hnone hi hfind hstep

theorem walkComponent_err : err = 0 ∨ err = -enoent := by
  cases moves_of_walkComponent h with
  | missing => exact .inr rfl
  | _ => exact .inl rfl

end

variable {err : Int}

theorem linkPathLoop_err {n : Nat}
    (h : linkPathLoop fuel n c name nd = some (err, c', nd')) : err = 0 ∨ err = -enoent := by
  induction n generalizing c name nd with
  | zero => simp [linkPathLoop] at h
  | succ n ih =>
    rw [linkPathLoop] at h
    simp only at h
    split at h
    · exact .inl (congrArg Prod.fst (some.inj h)).symm
    obtain ⟨⟨err₁, c₁, nd₁⟩, hcomp, h⟩ := bind_eq_some_iff.mp h
    split at h
    · obtain rfl : err₁ = err := congrArg Prod.fst (some.inj h)
      exact walkComponent_err hcomp
    · exact ih h

theorem linkPathWalk_err
    (h : c.linkPathWalk fuel name nd = some (err, c', nd')) : err = 0 ∨ err = -enoent := by
  rw [linkPathWalk] at h
  split at h
  · exact .inl (congrArg Prod.fst (some.inj h)).symm
  · exact linkPathLoop_err h

/-! ## The cache grows -/

/-- The dentries are the ones that were there, and others behind them. -/
structure Cached (c c' : Dcache) : Prop where
  nextDentry : c.nextDentry ≤ c'.nextDentry
  dParent : ∀ d < c.nextDentry, c'.dParent d = c.dParent d
  dName : ∀ d < c.nextDentry, c'.dName d = c.dName d
  dInode : ∀ d < c.nextDentry, c'.dInode d = c.dInode d
  dSubdirs : ∀ d < c.nextDentry, c.dSubdirs d <+: c'.dSubdirs d

/-- The cache has grown, and nothing was mounted. -/
structure Extends (c c' : Dcache) : Prop extends Cached c c' where
  mntRoot : c'.mntRoot = c.mntRoot
  mntMountpoint : c'.mntMountpoint = c.mntMountpoint
  mntParent : c'.mntParent = c.mntParent
  mntMounts : c'.mntMounts = c.mntMounts

section Growth

variable {c₁ c₂ c₃ : Dcache}

theorem Cached.refl (c : Dcache) : c.Cached c :=
  ⟨le_refl _, fun _ _ => rfl, fun _ _ => rfl, fun _ _ => rfl, fun _ _ => prefix_refl _⟩

theorem Cached.trans (h : c₁.Cached c₂) (h' : c₂.Cached c₃) : c₁.Cached c₃ := by
  have hlt : ∀ d < c₁.nextDentry, d < c₂.nextDentry := fun d hd => lt_of_lt_of_le hd h.nextDentry
  exact ⟨le_trans h.nextDentry h'.nextDentry,
    fun d hd => (h'.dParent d (hlt d hd)).trans (h.dParent d hd),
    fun d hd => (h'.dName d (hlt d hd)).trans (h.dName d hd),
    fun d hd => (h'.dInode d (hlt d hd)).trans (h.dInode d hd),
    fun d hd => (h.dSubdirs d hd).trans (h'.dSubdirs d (hlt d hd))⟩

theorem Extends.refl (c : Dcache) : c.Extends c := ⟨.refl c, rfl, rfl, rfl, rfl⟩

theorem Extends.trans (h : c₁.Extends c₂) (h' : c₂.Extends c₃) : c₁.Extends c₃ :=
  ⟨h.toCached.trans h'.toCached, h'.mntRoot.trans h.mntRoot,
    h'.mntMountpoint.trans h.mntMountpoint, h'.mntParent.trans h.mntParent,
    h'.mntMounts.trans h.mntMounts⟩

theorem extends_addChild (c : Dcache) (dir : DentryId) (name : Name) (inode : Option Ino) :
    c.Extends (c.addChild dir name inode) := by
  refine ⟨⟨le_succ _, fun d hd => ?_, fun d hd => ?_, fun d hd => ?_, fun d hd => ?_⟩,
    rfl, rfl, rfl, rfl⟩
  · exact update_of_ne (Nat.ne_of_lt hd) ..
  · exact update_of_ne (Nat.ne_of_lt hd) ..
  · exact update_of_ne (Nat.ne_of_lt hd) ..
  · by_cases hdir : d = dir
    · subst hdir
      simp [addChild]
    · simp [addChild, hdir, Nat.ne_of_lt hd]

theorem Extends.valid {p : Path} (h : c₁.Extends c₂) (hp : c₁.Valid p) : c₂.Valid p :=
  Vfs.Shown.mono (v := c₁.toVfs) (congrFun h.mntRoot _) h.dParent h.nextDentry hp

theorem Cached.dLookup (h : c.Cached c') (hwf : c.toVfs.WellFormed)
    (hd : d < c.nextDentry) (hk : c.dLookup d n = some k) : c'.dLookup d n = some k := by
  obtain ⟨rest, hrest⟩ := h.dSubdirs d hd
  have hfind : (c.dSubdirs d).find? (fun x => n.isPrefixOf (c'.dName x)) = some k := by
    rw [← hk]
    refine find?_congr fun x hx => ?_
    rw [h.dName x (hwf.subdirs d x hx).1]
  rw [Vfs.dLookup, ← hrest, find?_append, hfind]
  rfl

theorem dLookup_addChild {dir : DentryId} {name : Name} {inode : Option Ino}
    (hwf : c.toVfs.WellFormed) (hnone : c.dLookup dir name = none) :
    (c.addChild dir name inode).dLookup dir name = some c.nextDentry := by
  have hold : (c.dSubdirs dir).find?
      (fun x => name.isPrefixOf ((c.addChild dir name inode).dName x)) = none := by
    rw [← hnone]
    refine find?_congr fun x hx => ?_
    rw [(extends_addChild c dir name inode).dName x (hwf.subdirs dir x hx).1]
  have hsub : (c.addChild dir name inode).dSubdirs dir = c.dSubdirs dir ++ [c.nextDentry] := by
    simp [addChild]
  have hname : (c.addChild dir name inode).dName c.nextDentry = name := by simp [addChild]
  rw [dLookup, hsub, find?_append, hold]
  simp [hname]

theorem mem_subdirs_addChild (hwf : c.toVfs.WellFormed) {dir : DentryId} {name : Name}
    {inode : Option Ino} (hdir : dir < c.nextDentry) :
    k ∈ (c.addChild dir name inode).dSubdirs d ↔ k ∈ c.dSubdirs d ∨ d = dir ∧ k = c.nextDentry := by
  have hnew : c.dSubdirs c.nextDentry = [] := by
    refine eq_nil_iff_forall_not_mem.mpr fun k hk => ?_
    obtain ⟨hlt, hparent, -⟩ := hwf.subdirs _ k hk
    exact absurd (hwf.dParent k hlt) (hparent ▸ lt_irrefl _)
  by_cases hd : d = dir
  · subst hd
    simp [addChild]
  · simp only [addChild, update_of_ne hd, hd, false_and, or_false]
    by_cases hd' : d = c.nextDentry
    · rw [hd', update_self, hnew]
    · rw [update_of_ne hd']

end Growth

/-! ## What a walk keeps -/

theorem extends_of_walkComponent
    (h : c.walkComponent fuel nd = some (err, c', nd')) : c.Extends c' := by
  cases moves_of_walkComponent h with
  | dots | cached | missing => exact .refl c
  | found => exact extends_addChild ..

theorem walked_of_walkComponent (hwf : c.toVfs.WellFormed)
    (hpath : c.Valid nd.path) (h : c.walkComponent fuel nd = some (err, c', nd')) :
    Vfs.Walked c.toVfs nd c'.toVfs nd' := by
  cases moves_of_walkComponent h with
  | dots _ hdots => exact walked_of_handleDots hwf hpath hdots
  | cached _ hk hstep =>
    obtain ⟨hlt, hparent, hne⟩ := hwf.subdirs _ _ (dLookup_mem hk).1
    exact walked_of_child hwf hpath hlt hparent hne hstep
  | missing => exact .refl hwf hpath
  | found _ _ _ _ hstep =>
    have hlt := hwf.lt_of_shown hpath
    have hwf' := hwf.addDentry nd.last hlt
    have hgrown := grown_addDentry c.toVfs nd.last nd.path.dentry
    have hsame : Vfs.Walked c.toVfs nd (c.addDentry nd.last nd.path.dentry) nd :=
      ⟨hwf', hgrown, hgrown.shown hpath, rfl, fun _ hbelow => hgrown.isBelow hwf hpath hbelow⟩
    exact hsame.trans (walked_of_child hwf' hsame.valid (lt_succ_self _)
      (update_self ..) (Nat.ne_of_lt hlt).symm hstep)

theorem walkPieces_cons {last : Name} {rest : List Name}
    (h : walkPieces fuel c (last :: rest) nd = some (err, c', nd')) :
    ∃ err₁ c₁ nd₁, c.walkComponent fuel { nd with last, lastType := lastTypeOf last } =
        some (err₁, c₁, nd₁) ∧
      ((err₁ ≠ 0 ∧ err = err₁ ∧ c' = c₁ ∧ nd' = nd₁) ∨
        err₁ = 0 ∧ walkPieces fuel c₁ rest nd₁ = some (err, c', nd')) := by
  obtain ⟨⟨err₁, c₁, nd₁⟩, hwalk, h⟩ := bind_eq_some_iff.mp h
  refine ⟨err₁, c₁, nd₁, hwalk, ?_⟩
  by_cases herr : err₁ = 0
  · exact .inr ⟨herr, by simpa [herr] using h⟩
  · have h := (if_pos herr).symm.trans h
    cases h
    exact .inl ⟨herr, rfl, rfl, rfl⟩

theorem extends_of_walkPieces
    (h : walkPieces fuel c pieces nd = some (err, c', nd')) : c.Extends c' := by
  induction pieces generalizing c nd with
  | nil =>
    obtain ⟨-, rfl, -⟩ := some.inj h
    exact .refl _
  | cons last rest ih =>
    obtain ⟨err₁, c₁, nd₁, hwalk, ⟨-, -, rfl, -⟩ | ⟨-, hrest⟩⟩ := walkPieces_cons h
    · exact extends_of_walkComponent hwalk
    · exact (extends_of_walkComponent hwalk).trans (ih hrest)

theorem walked_of_walkPieces (hwf : c.toVfs.WellFormed)
    (hpath : c.Valid nd.path) (h : walkPieces fuel c pieces nd = some (err, c', nd')) :
    Vfs.Walked c.toVfs nd c'.toVfs nd' := by
  induction pieces generalizing c nd with
  | nil =>
    obtain ⟨-, rfl, rfl⟩ := some.inj h
    exact .refl hwf hpath
  | cons last rest ih =>
    have hlast : Vfs.Walked c.toVfs nd c.toVfs { nd with last, lastType := lastTypeOf last } :=
      ⟨hwf, .refl _, hpath, rfl, fun _ hbelow => hbelow⟩
    obtain ⟨err₁, c₁, nd₁, hwalk, ⟨-, -, rfl, rfl⟩ | ⟨-, hrest⟩⟩ := walkPieces_cons h
    · exact hlast.trans (walked_of_walkComponent hwf hpath hwalk)
    · have hwalked := hlast.trans (walked_of_walkComponent hwf hpath hwalk)
      exact hwalked.trans (ih hwalked.wellFormed hwalked.valid hrest)

/-- A dentry with children is of a directory that exists. -/
def Positive (c : Dcache) : Prop := ∀ d, ∀ k ∈ c.dSubdirs d, (c.dInode d).isSome

theorem positive_of_walkComponent (hwf : c.toVfs.WellFormed) (hpos : c.Positive)
    (hpath : c.Valid nd.path) (h : c.walkComponent fuel nd = some (err, c', nd')) :
    c'.Positive := by
  cases moves_of_walkComponent h with
  | dots | cached | missing => exact hpos
  | found _ _ hi _ _ =>
    have hlt := hwf.lt_of_shown hpath
    intro d k hk
    have hd : d < c.nextDentry ∧ (c.dInode d).isSome := by
      rcases (mem_subdirs_addChild hwf hlt).mp hk with hk | ⟨rfl, -⟩
      · obtain ⟨hlt, hparent, -⟩ := hwf.subdirs d k hk
        exact ⟨hparent ▸ hwf.dParent k hlt, hpos d k hk⟩
      · exact ⟨hlt, by simp [hi]⟩
    rw [(extends_addChild c _ _ _).dInode d hd.1]
    exact hd.2

theorem positive_of_walkPieces (hwf : c.toVfs.WellFormed)
    (hpos : c.Positive) (hpath : c.Valid nd.path)
    (h : walkPieces fuel c pieces nd = some (err, c', nd')) : c'.Positive := by
  induction pieces generalizing c nd with
  | nil =>
    obtain ⟨-, rfl, -⟩ := some.inj h
    exact hpos
  | cons last rest ih =>
    obtain ⟨err₁, c₁, nd₁, hwalk, hrest⟩ := walkPieces_cons h
    have hpos₁ := positive_of_walkComponent hwf hpos (by exact hpath) hwalk
    rcases hrest with ⟨-, -, rfl, -⟩ | ⟨-, hrest⟩
    · exact hpos₁
    · have hwalked := walked_of_walkComponent hwf (by exact hpath) hwalk
      exact ih hwalked.wellFormed hpos₁ hwalked.valid hrest

/-! ## The same walk again -/

section Again

variable {c₁ c₂ : Dcache}

section

variable (h : c.Extends c')
include h

theorem Extends.lookupMnt : c'.lookupMnt = c.lookupMnt := by
  funext p
  rw [Vfs.lookupMnt, Vfs.lookupMnt, h.mntMounts, h.mntParent, h.mntMountpoint]

theorem Extends.traverseMounts (p : Path) : c'.traverseMounts fuel p = c.traverseMounts fuel p := by
  induction fuel generalizing p with
  | zero => rfl
  | succ fuel ih =>
    rw [Vfs.traverseMounts, Vfs.traverseMounts, h.lookupMnt]
    cases c.lookupMnt p with
    | none => rfl
    | some k => simp only [h.mntRoot, ih]

theorem Extends.stepInto (d : DentryId) : c'.stepInto fuel nd d = c.stepInto fuel nd d := by
  rw [Vfs.stepInto, Vfs.stepInto, h.traverseMounts]

theorem Extends.chooseMountpoint (root : Path) (m : MntId) :
    c'.chooseMountpoint root fuel m = c.chooseMountpoint root fuel m := by
  induction fuel generalizing m with
  | zero => rfl
  | succ fuel ih =>
    rw [Vfs.chooseMountpoint, Vfs.chooseMountpoint, Vfs.mntHasParent, Vfs.mntHasParent,
      h.mntParent, h.mntMountpoint, h.mntRoot]
    dsimp only
    rw [ih]

theorem Extends.handleDots (hwf : c.toVfs.WellFormed)
    (hvalid : c.Valid nd.path) : c'.handleDots fuel nd = c.handleDots fuel nd := by
  rw [Vfs.handleDots, Vfs.handleDots]
  split
  · have hfollow : c'.followDotdot fuel nd = c.followDotdot fuel nd := by
      rw [followDotdot, followDotdot, h.mntRoot, h.chooseMountpoint]
      split
      · cases hchoose : c.chooseMountpoint nd.root fuel nd.path.mnt with
        | none => rfl
        | some chosen =>
          cases chosen with
          | none => rfl
          | some path =>
            have hlt := hwf.lt_of_shown ((climb_of_chooseMountpoint hchoose).1.valid hwf)
            simp [h.dParent _ hlt]
      · rw [h.dParent _ (hwf.lt_of_shown hvalid)]
    simp only [hfollow, h.stepInto]
  · rfl

end

theorem Extends.walkComponent (h : c₁.Extends c₂) (hwf : c.toVfs.WellFormed)
    (hvalid : c.Valid nd.path) (hwalk : c.walkComponent fuel nd = some (0, c₁, nd')) :
    c₂.walkComponent fuel nd = some (0, c₂, nd') := by
  have hlt := hwf.lt_of_shown hvalid
  have hext := extends_of_walkComponent hwalk
  have hwf₁ := (walked_of_walkComponent hwf hvalid hwalk).wellFormed
  have hname : ∀ x, nd.lastType = .norm → c₁.dLookup nd.path.dentry nd.last = some x →
      c₁.stepInto fuel nd x = some nd' → c₂.walkComponent fuel nd = some (0, c₂, nd') := by
    intro x htype hx hstep
    have hx' := h.toCached.dLookup hwf₁ (lt_of_lt_of_le hlt hext.nextDentry) hx
    simp [Dcache.walkComponent, htype, hx', h.stepInto, hstep]
  generalize herr : (0 : Int) = err at hwalk
  cases moves_of_walkComponent hwalk with
  | dots hnot hdots =>
    rw [Dcache.walkComponent, if_pos hnot, h.handleDots hwf hvalid, hdots]
    rfl
  | cached hnorm hx hstep => exact hname _ hnorm hx hstep
  | missing => exact absurd herr (by decide)
  | found hnorm hnone _ _ hstep => exact hname _ hnorm (dLookup_addChild hwf hnone) hstep

theorem Extends.walkPieces (h : c₁.Extends c₂) (hwf : c.toVfs.WellFormed)
    (hvalid : c.Valid nd.path) (hwalk : walkPieces fuel c pieces nd = some (0, c₁, nd')) :
    Dcache.walkPieces fuel c₂ pieces nd = some (0, c₂, nd') := by
  induction pieces generalizing c nd with
  | nil =>
    obtain ⟨-, -, rfl⟩ := some.inj hwalk
    rfl
  | cons last rest ih =>
    obtain ⟨err, c₃, nd₃, hfirst, ⟨herr, hzero, -, -⟩ | ⟨rfl, hrest⟩⟩ := walkPieces_cons hwalk
    · exact absurd hzero.symm herr
    have hagain := ((extends_of_walkPieces hrest).trans h).walkComponent hwf (by exact hvalid) hfirst
    have hwalked := walked_of_walkComponent hwf (by exact hvalid) hfirst
    have hrest := ih hwalked.wellFormed hwalked.valid hrest
    simpa [Dcache.walkPieces, hagain] using hrest

end Again

/-! ## Loops over mounts come to an end -/

/-- Loops over mounts may go round often enough. -/
def Enough (c : Dcache) (fuel : Nat) : Prop :=
  ∃ (rank : MntId → Nat) (bound : Nat), bound < fuel ∧
    ∀ m, rank m < bound ∧ (c.mntParent m ≠ m → rank (c.mntParent m) < rank m)

theorem exists_traverse (hwf : c.toVfs.WellFormed) (hfuel : c.Enough fuel) (p : Path) :
    ∃ q, c.traverseMounts fuel p = some q := by
  obtain ⟨rank, bound, hlt, hrank⟩ := hfuel
  exact traverse_isSome hwf hrank (lt_of_lt_of_le hlt (Nat.le_add_left ..))

theorem exists_choose (hfuel : c.Enough fuel) (root : Path) (m : MntId) :
    ∃ out, c.chooseMountpoint root fuel m = some out := by
  obtain ⟨rank, bound, hlt, hrank⟩ := hfuel
  have hm : rank m < fuel := lt_trans (hrank m).1 hlt
  clear hlt
  induction fuel generalizing m with
  | zero => contradiction
  | succ fuel ih =>
    rw [chooseMountpoint]
    split
    · rename_i hhas
      have hdown := (hrank m).2 (mntHasParent_iff.mp hhas)
      dsimp only
      split
      · exact ⟨_, rfl⟩
      · split
        · exact ⟨_, rfl⟩
        · exact ih _ (by omega)
    · exact ⟨_, rfl⟩

/-! ## The mounts that a walk passes -/

section Mounts

variable {v : Vfs} {P : MntId → Prop} {p q root : Path} {m : MntId}

theorem mnt_of_traverseMounts (hchild : ∀ m, P m → ∀ k ∈ v.mntMounts m, P k) (hp : P p.mnt)
    (h : v.traverseMounts fuel p = some q) : P q.mnt := by
  induction fuel generalizing p with
  | zero => contradiction
  | succ fuel ih =>
    rw [traverseMounts] at h
    split at h
    · rename_i k hk
      exact ih (hchild _ hp k (mem_of_find?_eq_some hk)) h
    · cases h
      exact hp

theorem mnt_of_chooseMountpoint (hparent : ∀ m, P m → P (v.mntParent m)) (hm : P m)
    (h : v.chooseMountpoint root fuel m = some (some q)) : P q.mnt := by
  induction fuel generalizing m with
  | zero => contradiction
  | succ fuel ih =>
    rw [chooseMountpoint] at h
    split at h
    · dsimp only at h
      split at h
      · exact absurd (some.inj h) (by simp)
      · split at h
        · cases h
          exact hparent m hm
        · exact ih (hparent m hm) h
    · exact absurd (some.inj h) (by simp)

theorem mnt_of_stepInto (hchild : ∀ m, P m → ∀ k ∈ v.mntMounts m, P k) (hp : P nd.path.mnt)
    (h : v.stepInto fuel nd d = some nd') : P nd'.path.mnt := by
  obtain ⟨path, htraverse, heq⟩ := bind_eq_some_iff.mp h
  cases heq
  exact mnt_of_traverseMounts (p := ⟨nd.path.mnt, d⟩) hchild hp htraverse

theorem mnt_of_handleDots (hparent : ∀ m, P m → P (v.mntParent m))
    (hchild : ∀ m, P m → ∀ k ∈ v.mntMounts m, P k) (hp : P nd.path.mnt)
    (h : v.handleDots fuel nd = some nd') : P nd'.path.mnt := by
  rw [handleDots] at h
  split at h
  · obtain ⟨⟨up, nd₁⟩, hfollow, hstep⟩ := bind_eq_some_iff.mp h
    rw [followDotdot] at hfollow
    split at hfollow
    · obtain ⟨chosen, hchoose, hfollow⟩ := bind_eq_some_iff.mp hfollow
      cases chosen with
      | none =>
        cases hfollow
        exact mnt_of_stepInto hchild hp hstep
      | some path =>
        cases hfollow
        have hpath := mnt_of_chooseMountpoint hparent hp hchoose
        exact mnt_of_stepInto hchild (by exact hpath) hstep
    · cases hfollow
      exact mnt_of_stepInto hchild hp hstep
  · cases h
    exact hp

variable (hparent : ∀ m, P m → P (c.mntParent m)) (hchild : ∀ m, P m → ∀ k ∈ c.mntMounts m, P k)
  (hp : P nd.path.mnt)
include hparent hchild hp

theorem mnt_of_walkComponent
    (h : c.walkComponent fuel nd = some (err, c', nd')) : P nd'.path.mnt := by
  cases moves_of_walkComponent h with
  | dots _ hdots => exact mnt_of_handleDots hparent hchild hp hdots
  | cached _ _ hstep => exact mnt_of_stepInto hchild hp hstep
  | missing => exact hp
  | found _ _ _ _ hstep => exact mnt_of_stepInto (v := c.addDentry ..) hchild hp hstep

theorem mnt_of_walkPieces
    (h : walkPieces fuel c pieces nd = some (err, c', nd')) : P nd'.path.mnt := by
  induction pieces generalizing c nd with
  | nil =>
    obtain ⟨-, -, rfl⟩ := some.inj h
    exact hp
  | cons last rest ih =>
    obtain ⟨err₁, c₁, nd₁, hwalk, hrest⟩ := walkPieces_cons h
    have hp₁ := mnt_of_walkComponent hparent hchild (by exact hp) hwalk
    have hext := extends_of_walkComponent hwalk
    rcases hrest with ⟨-, -, -, rfl⟩ | ⟨-, hrest⟩
    · exact hp₁
    · exact ih (hext.mntParent ▸ hparent) (hext.mntMounts ▸ hchild) hp₁ hrest

end Mounts

end MyOS2.Namei.Dcache
