import MyOS2.Misc.Runs
import MyOS2.Fs.Vfs.Proofs.Modify

/-!
# Removing a name

The directory entry goes, but the dentry stays in the cache with its inode: the
path is found as before. Where there is nothing, `do_unlinkat` reads the inode of a
negative dentry, and `do_rmdir` leaves one behind. So the calls do what they should
only where they refuse.
-/

namespace MyOS2.Namei.Icache

open Dcache

variable {s s' : Icache} {c : Dcache} {nd : Nameidata} {fuel : Nat} {fs : TaskFs} {name : Name}
  {call : Remove}

/-- Lookups, creations and removals. -/
inductive Op
  | lookup (fuel : Nat) (fs : TaskFs) (name : Name)
  | create (call : Create) (room : Room) (fuel : Nat) (fs : TaskFs) (name : Name)
  | remove (call : Remove) (fuel : Nat) (fs : TaskFs) (name : Name)

def step (s : Icache) : Op → Option (Int × Icache)
  | .lookup fuel fs name =>
    (s.pathLookupat fuel fs name).map fun r => (0, { s with toDcache := r.2 })
  | .create call room fuel fs name => s.doCreate call room fuel fs name
  | .remove call fuel fs name => s.doRemove call fuel fs name

/-- The call does not create the last component of `nd` in the directory of `nd`. -/
def NotCreated (c : Dcache) (nd : Nameidata) (s : Icache) (op : Op) : Prop :=
  ∀ r s' i, s.step op = some (r, s') → c.dInode nd.path.dentry = some i → s'.find i nd.last = none

/-- The walk of a path does not step onto the dentry. -/
def Avoids (c : Dcache) (fuel : Nat) (fs : TaskFs) (name : Name) (d : DentryId) : Prop :=
  ∀ l, l <+: fields '/' name → ∀ c' nd,
    walkPieces fuel c l (Vfs.pathInit fs name) = some (0, c', nd) → nd.path.dentry ≠ d

/-- What a removal should do, where the walk to the directory has left the cache `c` and the last
component in `nd`. -/
structure RemovesRight (s : Icache) (call : Remove) (fuel : Nat) (fs : TaskFs) (name : Name)
    (c : Dcache) (nd : Nameidata) : Prop where
  returns : (s.doRemove call fuel fs name).isSome
  missing : nd.lastType = .norm → ¬ Exists c nd →
    s.doRemove call fuel fs name = some (-enoent, { s with toDcache := c })
  gone : ∀ s', s.doRemove call fuel fs name = some (0, s') →
    ∀ s₁, Reachable step (NotCreated c nd) (· = s') s₁ → ∀ fuel out c',
      s₁.pathLookupat fuel fs name = some (out, c') → out = .error (-enoent)
  others : ∀ s' k, s.doRemove call fuel fs name = some (0, s') →
    s'.dLookup nd.path.dentry nd.last = some k → ∀ fuel name, Avoids c fuel fs name k →
      (s'.pathLookupat fuel fs name).map Prod.fst = (c.pathLookupat fuel fs name).map Prod.fst

/-- The method of the directory will not be called for the inode, or will not agree. -/
def Refuses (s : Icache) (c : Dcache) (dir i : Ino) : Remove → Prop
  | .unlink => s.sIsDir i = true ∨ (s.iOp dir).unlink = false
  | .rmdir => s.sIsDir i = false ∨ (s.iOp dir).rmdir = false ∨ c.entries i ≠ []

/-- The last component is special, or the call refuses what it finds: the directory is dead, the
name exists and the directory has no such method or the inode is of the wrong kind, or, for `rmdir`,
the cache knows that there is nothing. -/
def Harmless (s : Icache) (call : Remove) (c : Dcache) (nd : Nameidata) : Prop :=
  nd.lastType = .norm → ∃ i, c.dInode nd.path.dentry = some i ∧
    match c.dLookup nd.path.dentry nd.last with
    | none => s.sDead i = true ∨ ∃ x, c.find i nd.last = some x ∧ s.Refuses c i x call
    | some k =>
      match c.dInode k with
      | none => call = .rmdir
      | some x => (∃ y, c.find i nd.last = some y) ∧ s.Refuses c i x call

/-! ## What the calls do behind the walk -/

theorem doRemove_special (hwalk : s.filenameParentat fuel fs name = some (0, c, nd))
    (htype : nd.lastType ≠ .norm) (call : Remove) :
    ∃ err, err ≠ 0 ∧ s.doRemove call fuel fs name = some (err, { s with toDcache := c }) := by
  cases call with
  | unlink => exact ⟨-eisdir, by decide, by simp [doRemove, doUnlinkat, hwalk, htype]⟩
  | rmdir =>
    cases hlast : nd.lastType with
    | norm => exact absurd hlast htype
    | dotdot => exact ⟨-enotempty, by decide, by simp [doRemove, doRmdir, hwalk, hlast]⟩
    | dot => exact ⟨-einval, by decide, by simp [doRemove, doRmdir, hwalk, hlast]⟩
    | root => exact ⟨-ebusy, by decide, by simp [doRemove, doRmdir, hwalk, hlast]⟩

def removeDentry (s : Icache) (dir dentry : DentryId) : Remove → Option (Int × Icache)
  | .unlink => do
    let inode ← s.dInode dentry
    if s.sIsDir inode then some (-eisdir, s)
    else do
      let dir ← s.dInode dir
      some (s.vfsUnlink dir inode)
  | .rmdir =>
    match s.dInode dentry with
    | none => some (-enoent, s)
    | some inode =>
      if !s.sIsDir inode then some (-enotdir, s)
      else do
        let dir ← s.dInode dir
        some (s.vfsRmdir dir inode)

variable {err : Int}

section Norm

variable (hwalk : s.filenameParentat fuel fs name = some (0, c, nd)) (htype : nd.lastType = .norm)
include hwalk htype

theorem doRemove_ok {d : DentryId}
    (h : { s with toDcache := c : Icache }.lookupHash nd.last nd.path.dentry = some (.ok d, s')) :
    s.doRemove call fuel fs name = s'.removeDentry nd.path.dentry d call := by
  cases call with
  | unlink => simp [doRemove, doUnlinkat, hwalk, htype, h, removeDentry]
  | rmdir =>
    cases hd : s'.dInode d with
    | none => simp [doRemove, doRmdir, hwalk, htype, h, removeDentry, hd]
    | some i => simp [doRemove, doRmdir, hwalk, htype, h, removeDentry, hd]

theorem doRemove_error (h : { s with toDcache := c : Icache }.lookupHash nd.last nd.path.dentry =
      some (.error err, s')) : s.doRemove call fuel fs name = some (err, s') := by
  cases call with
  | unlink => simp [doRemove, doUnlinkat, hwalk, htype, h]
  | rmdir => simp [doRemove, doRmdir, hwalk, htype, h]

theorem doRemove_none
    (h : { s with toDcache := c : Icache }.lookupHash nd.last nd.path.dentry = none) :
    s.doRemove call fuel fs name = none := by
  cases call with
  | unlink => simp [doRemove, doUnlinkat, hwalk, htype, h]
  | rmdir => simp [doRemove, doRmdir, hwalk, htype, h]

end Norm

variable {i : Ino}

section

variable {dir d : DentryId}

theorem removeDentry_unlink_negative (h : s.dInode d = none) :
    s.removeDentry dir d .unlink = none := by
  simp [removeDentry, h]

theorem removeDentry_rmdir_negative (h : s.dInode d = none) :
    s.removeDentry dir d .rmdir = some (-enoent, s) := by
  simp [removeDentry, h]

theorem removeDentry_refused {j : Ino} (h : s.dInode d = some i) (hj : s.dInode dir = some j)
    (hrefuses : s.Refuses s.toDcache j i call) :
    ∃ err, err ≠ 0 ∧ err ≠ -enoent ∧ s.removeDentry dir d call = some (err, s) := by
  cases call with
  | unlink =>
    by_cases hisdir : s.sIsDir i = true
    · exact ⟨-eisdir, by decide, by decide, by simp [removeDentry, h, hisdir]⟩
    · have hmethod := hrefuses.resolve_left hisdir
      exact ⟨-eperm, by decide, by decide, by simp [removeDentry, h, hisdir, hj, vfsUnlink, hmethod]⟩
  | rmdir =>
    by_cases hisdir : s.sIsDir i = true
    · by_cases hmethod : (s.iOp j).rmdir = true
      · have hentries := (hrefuses.resolve_left (by simp [hisdir])).resolve_left (by simp [hmethod])
        exact ⟨-enotempty, by decide, by decide,
          by simp [removeDentry, h, hisdir, hj, vfsRmdir, hmethod, hentries]⟩
      · exact ⟨-eperm, by decide, by decide, by simp [removeDentry, h, hisdir, hj, vfsRmdir, hmethod]⟩
    · exact ⟨-enotdir, by decide, by decide, by simp [removeDentry, h, hisdir]⟩

theorem removeDentry_done {j : Ino} (h : s.dInode d = some i) (hj : s.dInode dir = some j)
    (hagrees : ¬ s.Refuses s.toDcache j i call) :
    ∃ s', s.removeDentry dir d call = some (0, s') ∧ s'.toVfs = s.toVfs ∧ s'.dInode = s.dInode := by
  cases call with
  | unlink =>
    have hagrees : s.sIsDir i = false ∧ (s.iOp j).unlink = true := by simpa [Refuses] using hagrees
    exact ⟨s.fat32MarkEntryRemoved j i,
      by simp [removeDentry, h, hagrees.1, hj, vfsUnlink, hagrees.2], rfl, rfl⟩
  | rmdir =>
    have hagrees : s.sIsDir i = true ∧ (s.iOp j).rmdir = true ∧ s.entries i = [] := by
      simpa [Refuses] using hagrees
    refine ⟨(s.vfsRmdir j i).2, ?_, ?_, ?_⟩
    · simp [removeDentry, h, hagrees.1, hj, vfsRmdir, hagrees.2]
    · simp [vfsRmdir, hagrees.2, fat32MarkEntryRemoved]
    · simp [vfsRmdir, hagrees.2, fat32MarkEntryRemoved]

end

/-! ## The path is found as before -/

/-- The cache is well formed, and so are the places that a path starts at. -/
structure Ready (s : Icache) (fuel : Nat) (fs : TaskFs) : Prop where
  wellFormed : s.toVfs.WellFormed
  positive : s.toDcache.Positive
  enough : s.toDcache.Enough fuel
  root : s.Valid fs.root
  pwd : s.Valid fs.pwd

theorem Ready.start (h : s.Ready fuel fs) (name : Name) : s.Valid (Vfs.pathInit fs name).path := by
  rw [Vfs.pathInit]
  by_cases hhead : name.head? = some '/'
  · simpa only [hhead, if_true] using h.root
  · simpa only [hhead, if_false] using h.pwd

section

variable (h : s.Ready fuel fs) (hwalk : s.filenameParentat fuel fs name = some (0, c, nd))
include h hwalk

theorem Ready.walked : c.toVfs.WellFormed ∧ c.Positive ∧ c.Valid nd.path := by
  rcases linkPathWalk_ok hwalk with ⟨rfl, rfl⟩ | ⟨l, last, nd₀, -, hl, rfl⟩
  · exact ⟨h.wellFormed, h.positive, h.start name⟩
  · have hwalked := walked_of_walkPieces h.wellFormed (h.start name) hl
    exact ⟨hwalked.wellFormed,
      positive_of_walkPieces h.wellFormed h.positive (h.start name) hl, hwalked.valid⟩

theorem Ready.found (htype : nd.lastType = .norm)
    (hext : c.Extends s'.toDcache) (hwf : s'.toVfs.WellFormed) {k : DentryId}
    (hk : s'.dLookup nd.path.dentry nd.last = some k) :
    ∃ p, s'.pathLookupat fuel fs name = some (.ok p, s'.toDcache) := by
  rcases linkPathWalk_ok hwalk with ⟨-, rfl⟩ | ⟨l, last, nd₀, hfields, hl, rfl⟩
  · simp [Vfs.pathInit] at htype
  have hagain := hext.walkPieces h.wellFormed (h.start name) hl
  have hext' := (extends_of_walkPieces hl).trans hext
  have henough : s'.toDcache.Enough fuel := by
    obtain ⟨rank, bound, hlt, hrank⟩ := h.enough
    exact ⟨rank, bound, hlt, fun m => by rw [hext'.mntParent]; exact hrank m⟩
  obtain ⟨q, hq⟩ := exists_traverse hwf henough ⟨nd₀.path.mnt, k⟩
  have hlast : s'.walkComponent fuel { nd₀ with last, lastType := Vfs.lastTypeOf last } =
      some (0, s'.toDcache, { nd₀ with path := q, last, lastType := Vfs.lastTypeOf last }) := by
    have htype : Vfs.lastTypeOf last = .norm := htype
    simp [walkComponent, htype, hk, Vfs.stepInto, hq]
  rw [pathLookupat_eq_walkPieces, hfields, walkPieces_append, hagain]
  simp [walkPieces, hlast, lookupResult]

end

/-- A call that fails does what it should if it fails with `-ENOENT` where there is nothing. -/
theorem removesRight_of_fails (h : s.doRemove call fuel fs name = some (err, s'))
    (herr : err ≠ 0) (hmissing : nd.lastType = .norm → ¬ Exists c nd →
      err = -enoent ∧ s' = { s with toDcache := c }) :
    s.RemovesRight call fuel fs name c nd := by
  have hno : ∀ s₁, s.doRemove call fuel fs name ≠ some (0, s₁) := by
    intro s₁ hs₁
    exact herr (congrArg Prod.fst (Option.some.inj (h.symm.trans hs₁)))
  refine ⟨by simp [h], fun htype hnot => ?_, fun s₁ hs₁ => absurd hs₁ (hno s₁),
    fun s₁ k hs₁ => absurd hs₁ (hno s₁)⟩
  obtain ⟨rfl, rfl⟩ := hmissing htype hnot
  exact h

/-- A removal that goes through is not seen. -/
theorem Ready.not_done (h : s.Ready fuel fs)
    (hwalk : s.filenameParentat fuel fs name = some (0, c, nd)) (htype : nd.lastType = .norm)
    {s₁ : Icache} (hext : c.Extends s₁.toDcache) (hwf : s₁.toVfs.WellFormed) {k : DentryId} {x : Ino}
    (hlookup : { s with toDcache := c : Icache }.lookupHash nd.last nd.path.dentry =
      some (.ok k, s₁)) (hk : s₁.dLookup nd.path.dentry nd.last = some k)
    (hx : s₁.dInode k = some x) (hi : s₁.dInode nd.path.dentry = some i)
    (hright : s.RemovesRight call fuel fs name c nd) : s₁.Refuses s₁.toDcache i x call := by
  by_contra hagrees
  obtain ⟨s', hdone, hvfs, hinode⟩ := removeDentry_done hx hi hagrees
  rw [← doRemove_ok hwalk htype hlookup] at hdone
  have hext' : c.Extends s'.toDcache := by
    refine ⟨⟨?_, ?_, ?_, hinode ▸ hext.dInode, ?_⟩, ?_, ?_, ?_, ?_⟩ <;> rw [hvfs]
    · exact hext.nextDentry
    · exact hext.dParent
    · exact hext.dName
    · exact hext.dSubdirs
    · exact hext.mntRoot
    · exact hext.mntMountpoint
    · exact hext.mntParent
    · exact hext.mntMounts
  obtain ⟨p, hp⟩ := h.found hwalk htype hext' (hvfs ▸ hwf) (k := k) (hvfs ▸ hk)
  exact absurd (hright.gone s' hdone s' (.start rfl) fuel _ _ hp) (by simp)

theorem lookupHash_new {base : DentryId} (hnone : s.dLookup base name = none)
    (hi : s.dInode base = some i) (hdead : s.sDead i = false) :
    s.lookupHash name base =
      some (.ok s.nextDentry, { s with toDcache := s.addChild base name (s.find i name) }) := by
  simp [lookupHash, hnone, hi, hdead]

theorem find_of_exists (hi : c.dInode nd.path.dentry = some i) (h : Exists c nd) :
    ∃ x, c.find i nd.last = some x := by
  obtain ⟨-, j, x, hj, hfind⟩ := h
  obtain rfl := Option.some.inj (hi.symm.trans hj)
  exact ⟨x, hfind⟩

theorem refuses_congr {s₁ : Icache} {c₁ : Dcache} {j : Ino} (hisdir : s₁.sIsDir = s.sIsDir)
    (hiOp : s₁.iOp = s.iOp) (hentries : c₁.entries = c.entries) :
    s₁.Refuses c₁ j i call ↔ s.Refuses c j i call := by
  cases call <;> simp [Refuses, hisdir, hiOp, hentries]

section

variable (h : s.Ready fuel fs) (hwalk : s.filenameParentat fuel fs name = some (0, c, nd))
include h hwalk

theorem harmless_of_removesRight
    (hright : s.RemovesRight call fuel fs name c nd) : s.Harmless call c nd := by
  obtain ⟨hwf, hpos, hvalid⟩ := h.walked hwalk
  have hlt := hwf.lt_of_shown hvalid
  intro htype
  have hreturns : ∀ {o}, s.doRemove call fuel fs name = o → o.isSome := by
    rintro o rfl
    exact hright.returns
  cases hk : c.dLookup nd.path.dentry nd.last with
  | none =>
    cases hi : c.dInode nd.path.dentry with
    | none =>
      have hnone : { s with toDcache := c : Icache }.lookupHash nd.last nd.path.dentry = none := by
        simp [lookupHash, hk, hi]
      exact absurd (hreturns (doRemove_none hwalk htype hnone)) (by simp)
    | some i =>
      refine ⟨i, rfl, ?_⟩
      by_cases hdead : s.sDead i = true
      · exact .inl hdead
      refine .inr ?_
      have hlookup := lookupHash_new (s := { s with toDcache := c }) hk hi (by simpa using hdead)
      have hext := extends_addChild c nd.path.dentry nd.last (c.find i nd.last)
      have hinode : (c.addChild nd.path.dentry nd.last (c.find i nd.last)).dInode c.nextDentry =
          c.find i nd.last := by simp [addChild]
      cases hx : c.find i nd.last with
      | none =>
        -- there is nothing: the call should have answered, and left no dentry
        have hnot : ¬ Exists c nd := fun hexists => by
          obtain ⟨x, hfind⟩ := find_of_exists hi hexists
          simp [hx] at hfind
        have hmissing := hright.missing htype hnot
        rw [doRemove_ok hwalk htype hlookup] at hmissing
        cases call with
        | unlink =>
          rw [removeDentry_unlink_negative (by exact hinode.trans hx)] at hmissing
          simp at hmissing
        | rmdir =>
          rw [removeDentry_rmdir_negative (by exact hinode.trans hx)] at hmissing
          have hnext := congrArg (fun r => r.2.nextDentry) (Option.some.inj hmissing)
          simp [addChild] at hnext
      | some x =>
        have hrefuses := h.not_done hwalk htype hext (hwf.addDentry nd.last hlt) hlookup
          (dLookup_addChild hwf hk) (hinode.trans hx)
          ((hext.dInode _ hlt).trans hi) hright
        exact ⟨x, rfl, (refuses_congr rfl rfl rfl).mp hrefuses⟩
  | some k =>
    have hkmem := (dLookup_mem hk).1
    obtain ⟨i, hi⟩ := Option.isSome_iff_exists.mp (hpos _ k hkmem)
    refine ⟨i, hi, ?_⟩
    have hlookup : { s with toDcache := c : Icache }.lookupHash nd.last nd.path.dentry =
        some (.ok k, { s with toDcache := c }) := by simp [lookupHash, hk]
    cases hx : c.dInode k with
    | none =>
      cases call with
      | unlink =>
        have hremove := (doRemove_ok hwalk htype hlookup).trans (removeDentry_unlink_negative hx)
        exact absurd (hreturns hremove) (by simp)
      | rmdir => simp [hx]
    | some x =>
      have hrefuses := h.not_done hwalk htype (.refl c) hwf hlookup hk hx hi hright
      simp only [hx]
      refine ⟨?_, (refuses_congr rfl rfl rfl).mp hrefuses⟩
      -- otherwise the call should have answered with `-ENOENT`
      by_contra hno
      have hmissing := hright.missing htype fun hexists => hno (find_of_exists hi hexists)
      obtain ⟨err, -, herr, hremove⟩ := removeDentry_refused hx hi hrefuses
      rw [← doRemove_ok hwalk htype hlookup, hmissing] at hremove
      exact herr (congrArg Prod.fst (Option.some.inj hremove)).symm

theorem removesRight_of_harmless
    (hharmless : s.Harmless call c nd) : s.RemovesRight call fuel fs name c nd := by
  obtain ⟨hwf, hpos, hvalid⟩ := h.walked hwalk
  have hlt := hwf.lt_of_shown hvalid
  by_cases htype : nd.lastType = .norm
  · obtain ⟨i, hi, hcases⟩ := hharmless htype
    cases hk : c.dLookup nd.path.dentry nd.last with
    | none =>
      rw [hk] at hcases
      by_cases hdead : s.sDead i = true
      · have hlookup : { s with toDcache := c : Icache }.lookupHash nd.last nd.path.dentry =
            some (.error (-enoent), { s with toDcache := c }) := by
          simp [lookupHash, hk, hi, hdead]
        exact removesRight_of_fails (doRemove_error hwalk htype hlookup) (by decide)
          fun _ _ => ⟨rfl, rfl⟩
      · obtain ⟨x, hx, hrefuses⟩ := hcases.resolve_left hdead
        have hlookup := lookupHash_new (s := { s with toDcache := c }) hk hi (by simpa using hdead)
        have hext := extends_addChild c nd.path.dentry nd.last (c.find i nd.last)
        have hinode : (c.addChild nd.path.dentry nd.last (c.find i nd.last)).dInode c.nextDentry =
            some x := by simp [addChild, hx]
        obtain ⟨err, herr, -, hremove⟩ := removeDentry_refused
          (s := { s with toDcache := c.addChild nd.path.dentry nd.last (c.find i nd.last) }) hinode
          ((hext.dInode _ hlt).trans hi) ((refuses_congr rfl rfl rfl).mpr hrefuses)
        rw [← doRemove_ok hwalk htype hlookup] at hremove
        exact removesRight_of_fails hremove herr fun hnorm hnot => absurd ⟨hnorm, i, x, hi, hx⟩ hnot
    | some k =>
      rw [hk] at hcases
      have hlookup : { s with toDcache := c : Icache }.lookupHash nd.last nd.path.dentry =
          some (.ok k, { s with toDcache := c }) := by simp [lookupHash, hk]
      cases hx : c.dInode k with
      | none =>
        simp only [hx] at hcases
        obtain rfl : call = .rmdir := hcases
        have hremove := (doRemove_ok hwalk htype hlookup).trans (removeDentry_rmdir_negative hx)
        exact removesRight_of_fails hremove (by decide) fun _ _ => ⟨rfl, rfl⟩
      | some x =>
        simp only [hx] at hcases
        obtain ⟨⟨y, hy⟩, hrefuses⟩ := hcases
        obtain ⟨err, herr, -, hremove⟩ := removeDentry_refused (s := { s with toDcache := c }) hx hi
          ((refuses_congr rfl rfl rfl).mpr hrefuses)
        rw [← doRemove_ok hwalk htype hlookup] at hremove
        exact removesRight_of_fails hremove herr fun hnorm hnot => absurd ⟨hnorm, i, y, hi, hy⟩ hnot
  · obtain ⟨err, herr, hremove⟩ := doRemove_special hwalk htype call
    exact removesRight_of_fails hremove herr fun hnorm => absurd hnorm htype

end

theorem doRemove_of_err (hwalk : s.filenameParentat fuel fs name = some (err, c, nd))
    (herr : err ≠ 0) (call : Remove) :
    s.doRemove call fuel fs name = some (err, { s with toDcache := c }) := by
  cases call with
  | unlink => simp [doRemove, doUnlinkat, hwalk, herr]
  | rmdir => simp [doRemove, doRmdir, hwalk, herr]

/-- A removal does what it should exactly when the directory is not found or the call is refused. -/
theorem removesRight_iff {err : Int} (h : s.Ready fuel fs)
    (hwalk : s.filenameParentat fuel fs name = some (err, c, nd)) :
    s.RemovesRight call fuel fs name c nd ↔ (err = 0 → s.Harmless call c nd) := by
  by_cases herr : err = 0
  · subst herr
    exact ⟨fun hright _ => harmless_of_removesRight h hwalk hright,
      fun hharmless => removesRight_of_harmless h hwalk (hharmless rfl)⟩
  · refine ⟨fun _ hzero => absurd hzero herr, fun _ => ?_⟩
    have henoent := (linkPathWalk_err hwalk).resolve_left herr
    exact removesRight_of_fails (doRemove_of_err hwalk herr call) herr fun _ _ => ⟨henoent, rfl⟩

/-! ## A volume with one file -/

theorem ready_oneFile : oneFile.Ready 2 ⟨⟨0, 0⟩, ⟨0, 0⟩⟩ where
  wellFormed := by
    refine ⟨⟨fun _ => 0, 1, fun m => ⟨Nat.one_pos, fun hm => absurd rfl hm⟩⟩, ⟨id, ?_⟩, ?_,
      Vfs.wellFormed_single.mounted, fun m hm => absurd rfl hm, fun _ => Nat.one_pos, ?_⟩
    · intro d hd hne
      obtain rfl := Nat.lt_one_iff.mp hd
      exact absurd rfl hne
    · intro d hd
      obtain rfl := Nat.lt_one_iff.mp hd
      exact hd
    · intro d k hk
      simp [oneFile] at hk
  positive := by
    intro d k hk
    simp [oneFile] at hk
  enough := ⟨fun _ => 0, 1, by decide, fun m => ⟨Nat.one_pos, fun hm => absurd rfl hm⟩⟩
  root := .root
  pwd := .root

/-- `rmdir ("/a")` is refused for the file. -/
theorem removesRight_iff_file :
    oneFile.RemovesRight .rmdir 2 ⟨⟨0, 0⟩, ⟨0, 0⟩⟩ ['/', 'a'] oneFile.toDcache
      ⟨⟨0, 0⟩, ⟨0, 0⟩, ['a'], .norm⟩ :=
  (removesRight_iff ready_oneFile rfl).mpr fun _ _ => ⟨0, rfl, .inr ⟨1, rfl, .inl rfl⟩⟩

/-- `unlink ("/a")` succeeds and `/a` is found; `unlink ("/b")` reads the inode of a negative
dentry. -/
theorem unlinked_found : ∃ s' p c,
    oneFile.doUnlinkat 2 ⟨⟨0, 0⟩, ⟨0, 0⟩⟩ ['/', 'a'] = some (0, s') ∧ s'.entries 0 = [] ∧
    s'.pathLookupat 2 ⟨⟨0, 0⟩, ⟨0, 0⟩⟩ ['/', 'a'] = some (.ok p, c) ∧ c.dInode p.dentry = some 1 ∧
    oneFile.doUnlinkat 2 ⟨⟨0, 0⟩, ⟨0, 0⟩⟩ ['/', 'b'] = none :=
  ⟨_, _, _, rfl, rfl, rfl, rfl, rfl⟩

end MyOS2.Namei.Icache
