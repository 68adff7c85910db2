import MyOS2.Misc.Runs
import MyOS2.Fs.Vfs.Namespace
import MyOS2.Fs.Vfs.Proofs.Walk

/-!
# The tree of mounts

A mount is attached after the mount that it is put on, to a place that nothing is
mounted on. So the mounts are a tree over the first one, at most one of them is on
a place, and the loops over mounts come to an end.
-/

namespace MyOS2.Namei.Namespace

open Function Option Nat

variable {n n' : Namespace} {fuel : Nat} {m k : MntId} {path : Path}

/-- The mount is the first one, or it is on a mount that is attached. -/
inductive Attached (n : Namespace) : MntId → Prop
  | root : Attached n 0
  | child {k : MntId} : k < n.nextMnt → n.mntParent k ≠ k → Attached n (n.mntParent k) →
      Attached n k

/-- The mounts are a tree over the first one. A mount that is its own parent is the first one or was
refused, and nothing is on it. -/
structure TreeOk (n : Namespace) : Prop where
  wellFormed : n.toVfs.WellFormed
  pos : 0 < n.nextMnt
  root : n.mntParent 0 = 0
  unused : ∀ m, n.nextMnt ≤ m → n.mntParent m = m
  parent_lt : ∀ m, n.mntParent m ≠ m → n.mntParent m < m
  attached : ∀ m, n.mntParent m ≠ m → n.Attached m
  mem_mounts : ∀ m k, k ∈ n.mntMounts m ↔ k ≠ m ∧ n.mntParent k = m
  unique : ∀ k k', n.mntParent k ≠ k → n.mntParent k' ≠ k' → n.mntParent k = n.mntParent k' →
    n.mntMountpoint k = n.mntMountpoint k' → k = k'

theorem TreeOk.lt_nextMnt (h : n.TreeOk) (hm : n.mntParent m ≠ m) : m < n.nextMnt := by
  by_contra hge
  exact hm (h.unused m (not_lt.mp hge))

theorem Attached.lt_nextMnt (hm : n.Attached m) (h : n.TreeOk) : m < n.nextMnt := by
  cases hm with
  | root => exact h.pos
  | child hlt _ _ => exact hlt

theorem Attached.parent (hm : n.Attached m) (h : n.TreeOk) : n.Attached (n.mntParent m) := by
  cases hm with
  | root => exact h.root.symm ▸ .root
  | child _ _ hparent => exact hparent

theorem Attached.mounted (h : n.TreeOk) (hk : k ∈ n.mntMounts m) : n.Attached k := by
  obtain ⟨hne, hparent⟩ := (h.mem_mounts m k).mp hk
  exact h.attached k (hparent ▸ hne.symm)

/-! ## The loops come to an end -/

theorem rank_of_parent_lt {parent : MntId → MntId} {next : MntId} (hpos : 0 < next)
    (hunused : ∀ m, next ≤ m → parent m = m) (hlt : ∀ m, parent m ≠ m → parent m < m) (m : MntId) :
    (if m < next then m else 0) < next ∧
      (parent m ≠ m → (if parent m < next then parent m else 0) < if m < next then m else 0) := by
  refine ⟨by split <;> assumption, fun hm => ?_⟩
  have hm' : m < next := by
    by_contra hge
    exact hm (hunused m (not_lt.mp hge))
  rw [if_pos hm', if_pos (lt_trans (hlt m hm) hm')]
  exact hlt m hm

theorem TreeOk.enough (h : n.TreeOk) (hfuel : n.nextMnt < fuel) : n.toDcache.Enough fuel :=
  ⟨_, n.nextMnt, hfuel, rank_of_parent_lt h.pos h.unused h.parent_lt⟩

theorem lockMount_eq (v : Vfs) (fuel : Nat) (path : Path) :
    v.lockMount fuel path = v.traverseMounts fuel path := by
  induction fuel generalizing path with
  | zero => rfl
  | succ fuel ih =>
    rw [Vfs.lockMount, Vfs.traverseMounts]
    cases v.lookupMnt path with
    | none => rfl
    | some k => exact ih _

/-! ## Lookups leave the tree alone -/

theorem Attached.of_extends {c : Dcache} (hext : n.toDcache.Extends c) (hm : n.Attached m) :
    { n with toDcache := c : Namespace }.Attached m := by
  induction hm with
  | root => exact .root
  | @child k hlt hne _ ih =>
    have hparent : c.mntParent k = n.mntParent k := congrFun hext.mntParent k
    exact .child hlt (by simpa [hparent] using hne) (by simpa [hparent] using ih)

theorem TreeOk.of_extends (h : n.TreeOk) {c : Dcache} (hext : n.toDcache.Extends c)
    (hwf : c.toVfs.WellFormed) : { n with toDcache := c : Namespace }.TreeOk := by
  refine ⟨hwf, h.pos, ?_, ?_, ?_, ?_, ?_, ?_⟩ <;>
    simp only [hext.mntParent, hext.mntMounts, hext.mntMountpoint]
  · exact h.root
  · exact h.unused
  · exact h.parent_lt
  · exact fun m hm => (h.attached m hm).of_extends hext
  · exact h.mem_mounts
  · exact h.unique

/-! ## New roots and new mounts -/

theorem TreeOk.mounts_eq_nil (h : n.TreeOk) (hm : ∀ k, n.mntParent k = m → k = m) :
    n.mntMounts m = [] := by
  refine List.eq_nil_iff_forall_not_mem.mpr fun k hk => ?_
  obtain ⟨hne, hparent⟩ := (h.mem_mounts m k).mp hk
  exact hne (hm k hparent)

theorem TreeOk.parent_ne_nextMnt (h : n.TreeOk) (hk : n.mntParent k = n.nextMnt) :
    k = n.nextMnt := by
  by_contra hne
  have hself : n.mntParent k ≠ k := by
    rw [hk]
    exact Ne.symm hne
  have hlt := h.parent_lt k hself
  rw [hk] at hlt
  exact absurd (h.lt_nextMnt hself) (not_lt.mpr (le_of_lt hlt))

theorem createMount_links (h : n.TreeOk) (root : DentryId) (sb : SbId) :
    (n.createMount root sb).2.mntParent = n.mntParent ∧
      (n.createMount root sb).2.mntMounts = n.mntMounts :=
  ⟨update_eq_self_iff.mpr (h.unused _ (le_refl _)).symm,
    update_eq_self_iff.mpr (h.mounts_eq_nil fun _ => h.parent_ne_nextMnt).symm⟩

variable {sb : SbId} {root : DentryId}

theorem createMount_mntRoot_of_ne (hm : m ≠ n.nextMnt) :
    (n.createMount root sb).2.mntRoot m = n.mntRoot m :=
  update_of_ne hm ..

theorem createMount_mountpoint_of_ne (hm : m ≠ n.nextMnt) :
    (n.createMount root sb).2.mntMountpoint m = n.mntMountpoint m :=
  update_of_ne hm ..

theorem TreeOk.ne_nextMnt (h : n.TreeOk) (hm : n.mntParent m ≠ m) :
    m ≠ n.nextMnt ∧ n.mntParent m ≠ n.nextMnt := by
  have hlt := h.lt_nextMnt hm
  exact ⟨Nat.ne_of_lt hlt, Nat.ne_of_lt (Nat.lt_trans (h.parent_lt m hm) hlt)⟩

theorem Attached.createMount (hm : n.Attached m) (h : n.TreeOk) (root : DentryId) (sb : SbId) :
    (n.createMount root sb).2.Attached m := by
  induction hm with
  | root => exact .root
  | @child k hlt hne _ ih =>
    rw [← (createMount_links h root sb).1] at hne ih
    exact .child (lt_succ_of_lt hlt) hne ih

theorem TreeOk.createMount (h : n.TreeOk) (hroot : root < n.nextDentry)
    (sb : SbId) : (n.createMount root sb).2.TreeOk := by
  obtain ⟨hparent, hmounts⟩ := createMount_links h root sb
  have hwf : (n.createMount root sb).2.toVfs.WellFormed := by
    refine ⟨hparent ▸ h.wellFormed.mounts, h.wellFormed.dentries, h.wellFormed.dParent,
      hmounts ▸ h.wellFormed.mounted, ?_, ?_, h.wellFormed.subdirs⟩
    · rw [hparent]
      intro m hm
      obtain ⟨hne, hparent_ne⟩ := h.ne_nextMnt hm
      rw [createMount_mountpoint_of_ne hne]
      exact (h.wellFormed.mountpoint m hm).mono (createMount_mntRoot_of_ne hparent_ne)
        (fun _ _ => rfl) (le_refl _)
    · intro m
      by_cases hm : m = n.nextMnt
      · subst hm
        simpa [Namespace.createMount] using hroot
      · rw [createMount_mntRoot_of_ne hm]
        exact h.wellFormed.mntRoot m
  refine ⟨hwf, succ_pos _, ?_, ?_, ?_, ?_, ?_, ?_⟩ <;> rw [hparent]
  · exact h.root
  · exact fun m hm => h.unused m (le_of_succ_le hm)
  · exact h.parent_lt
  · exact fun m hm => (h.attached m hm).createMount h root sb
  · rw [hmounts]
    exact h.mem_mounts
  · intro k k' hk hk' hsame hpoint
    rw [createMount_mountpoint_of_ne (h.ne_nextMnt hk).1,
      createMount_mountpoint_of_ne (h.ne_nextMnt hk').1] at hpoint
    exact h.unique k k' hk hk' hsame hpoint

theorem extends_addRoot (n : Namespace) (inode : Ino) :
    n.toDcache.Extends (n.addRoot inode).2.toDcache := by
  refine ⟨⟨le_succ _, fun d hd => ?_, fun d hd => ?_, fun d hd => ?_, fun d hd => ?_⟩,
    rfl, rfl, rfl, rfl⟩
  · exact update_of_ne (Nat.ne_of_lt hd) ..
  · exact update_of_ne (Nat.ne_of_lt hd) ..
  · exact update_of_ne (Nat.ne_of_lt hd) ..
  · simp [addRoot, Nat.ne_of_lt hd]

theorem wellFormed_addRoot (hwf : n.toVfs.WellFormed) (inode : Ino) :
    (n.addRoot inode).2.toVfs.WellFormed := by
  have hext := extends_addRoot n inode
  have hold : ∀ d, d < n.nextDentry + 1 → d ≠ n.nextDentry → d < n.nextDentry :=
    fun d hd hne => lt_of_le_of_ne (le_of_lt_succ hd) hne
  have hself : (n.addRoot inode).2.dParent n.nextDentry = n.nextDentry := update_self ..
  refine ⟨hwf.mounts, ?_, ?_, hwf.mounted, fun m hm => ?_,
    fun m => lt_succ_of_lt (hwf.mntRoot m), ?_⟩
  · obtain ⟨depth, hdepth⟩ := hwf.dentries
    refine ⟨depth, fun d hd hne => ?_⟩
    have hlt := hold d hd fun heq => hne (heq ▸ hself)
    rw [hext.dParent d hlt] at hne ⊢
    exact hdepth d hlt hne
  · intro d hd
    by_cases hd' : d = n.nextDentry
    · rw [hd', hself]
      exact lt_succ_self _
    · have hlt := hold d hd hd'
      rw [hext.dParent d hlt]
      exact lt_succ_of_lt (hwf.dParent d hlt)
  · exact Vfs.Shown.mono (v := n.toVfs) rfl hext.dParent (le_succ _) (hwf.mountpoint m hm)
  · intro d c hc
    by_cases hd : d = n.nextDentry
    · simp [addRoot, hd] at hc
    · have hsub : (n.addRoot inode).2.dSubdirs d = n.dSubdirs d := update_of_ne hd ..
      rw [hsub] at hc
      obtain ⟨hlt, hparent, hne⟩ := hwf.subdirs d c hc
      rw [hext.dParent c hlt]
      exact ⟨lt_succ_of_lt hlt, hparent, hne⟩

theorem TreeOk.addRoot (h : n.TreeOk) (inode : Ino) : (n.addRoot inode).2.TreeOk :=
  h.of_extends (extends_addRoot n inode) (wellFormed_addRoot h.wellFormed inode)

/-! ## The mount is attached -/

/-- The newest mount, which is attached to nothing. -/
structure Newest (n : Namespace) (k : MntId) : Prop where
  next : n.nextMnt = k + 1
  ne_root : k ≠ 0
  self : n.mntParent k = k

theorem newest_createMount (h : n.TreeOk) (root : DentryId) (sb : SbId) :
    (n.createMount root sb).2.Newest n.nextMnt := by
  refine ⟨rfl, ne_of_gt h.pos, ?_⟩
  rw [(createMount_links h root sb).1]
  exact h.unused _ (le_refl _)

theorem Newest.not_attached (hk : n.Newest k) : ¬ n.Attached k := by
  intro hattached
  cases hattached with
  | root => exact hk.ne_root rfl
  | child _ hne _ => exact hne hk.self

section Attach

variable {n : Namespace} {k : MntId} {path : Path}

theorem parent_of_ne (path : Path) (hm : m ≠ k) :
    (n.mntSetMountpoint path k).mntParent m = n.mntParent m :=
  update_of_ne hm ..

theorem parent_self : (n.mntSetMountpoint path k).mntParent k = path.mnt := update_self ..

theorem mountpoint_of_ne (hm : m ≠ k) :
    (n.mntSetMountpoint path k).mntMountpoint m = n.mntMountpoint m :=
  update_of_ne hm ..

theorem mountpoint_self : (n.mntSetMountpoint path k).mntMountpoint k = path.dentry :=
  update_self ..

theorem Attached.mntSetMountpoint (hk : n.Newest k) (hm : n.Attached m) :
    (n.mntSetMountpoint path k).Attached m := by
  induction hm with
  | root => exact .root
  | @child j hlt hne _ ih =>
    have hjk : j ≠ k := by
      rintro rfl
      exact hne hk.self
    rw [← parent_of_ne path hjk] at hne ih
    exact .child hlt hne ih

theorem TreeOk.mntSetMountpoint (h : n.TreeOk) (hk : n.Newest k) (hmnt : n.Attached path.mnt)
    (hvalid : n.Valid path) (hfree : n.lookupMnt path = none) :
    (n.mntSetMountpoint path k).TreeOk := by
  have hpk : path.mnt ≠ k := fun heq => hk.not_attached (heq ▸ hmnt)
  have hlt : path.mnt < k :=
    lt_of_le_of_ne (le_of_lt_succ (lt_of_lt_of_eq (hmnt.lt_nextMnt h) hk.next)) hpk
  -- nothing that was attached is at the place
  have hnone : ∀ m, n.mntParent m ≠ m → n.mntParent m = path.mnt →
      n.mntMountpoint m ≠ path.dentry := by
    intro m hm hparent hpoint
    have hno := List.find?_eq_none.mp hfree m
      ((h.mem_mounts path.mnt m).mpr ⟨hparent ▸ hm.symm, hparent⟩)
    simp [hparent, hpoint] at hno
  have hparent_lt : ∀ m, (n.mntSetMountpoint path k).mntParent m ≠ m →
      (n.mntSetMountpoint path k).mntParent m < m := by
    intro m hm
    by_cases hmk : m = k
    · rw [hmk, parent_self]
      exact hlt
    · rw [parent_of_ne path hmk] at hm ⊢
      exact h.parent_lt m hm
  have hunused : ∀ m, n.nextMnt ≤ m → (n.mntSetMountpoint path k).mntParent m = m := by
    intro m hm
    have hmk : m ≠ k := by
      rintro rfl
      exact absurd (hk.next.symm.trans_le hm) (not_succ_le_self m)
    rw [parent_of_ne path hmk]
    exact h.unused m hm
  have hshown : ∀ m d, n.Shown m d → (n.mntSetMountpoint path k).Shown m d :=
    fun m d hd => Vfs.Shown.mono (v := n.toVfs) rfl (fun _ _ => rfl) (le_refl _) hd
  have hmem : ∀ m j, j ∈ (n.mntSetMountpoint path k).mntMounts m ↔
      j ≠ m ∧ (n.mntSetMountpoint path k).mntParent j = m := by
    intro m j
    have hlist : j ∈ (n.mntSetMountpoint path k).mntMounts m ↔
        j ∈ n.mntMounts m ∨ m = path.mnt ∧ j = k := by
      by_cases hm : m = path.mnt
      · simp [Namespace.mntSetMountpoint, hm]
      · simp [Namespace.mntSetMountpoint, hm]
    rw [hlist, h.mem_mounts]
    by_cases hjk : j = k
    · subst hjk
      rw [parent_self, hk.self]
      constructor
      · rintro (⟨hne, heq⟩ | ⟨rfl, -⟩)
        · exact absurd heq hne
        · exact ⟨hpk.symm, rfl⟩
      · rintro ⟨-, rfl⟩
        exact .inr ⟨rfl, rfl⟩
    · simp [parent_of_ne path hjk, hjk]
  refine ⟨⟨?_, h.wellFormed.dentries, h.wellFormed.dParent, fun m j hj => ((hmem m j).mp hj).1, ?_,
    h.wellFormed.mntRoot, h.wellFormed.subdirs⟩, h.pos, ?_, hunused, hparent_lt, ?_, hmem, ?_⟩
  · exact ⟨_, n.nextMnt, rank_of_parent_lt h.pos hunused hparent_lt⟩
  · intro m hm
    by_cases hmk : m = k
    · rw [hmk, parent_self, mountpoint_self]
      exact hshown _ _ hvalid
    · rw [parent_of_ne path hmk] at hm ⊢
      rw [mountpoint_of_ne hmk]
      exact hshown _ _ (h.wellFormed.mountpoint m hm)
  · rw [parent_of_ne path hk.ne_root.symm]
    exact h.root
  · intro m hm
    by_cases hmk : m = k
    · subst hmk
      refine .child (hk.next ▸ lt_succ_self m) hm ?_
      rw [parent_self]
      exact hmnt.mntSetMountpoint hk
    · rw [parent_of_ne path hmk] at hm
      exact (h.attached m hm).mntSetMountpoint hk
  · intro j j' hj hj' hsame hpoint
    by_cases hjk : j = k
    · by_cases hjk' : j' = k
      · rw [hjk, hjk']
      · subst hjk
        rw [parent_of_ne path hjk'] at hj'
        rw [parent_self, parent_of_ne path hjk'] at hsame
        rw [mountpoint_self, mountpoint_of_ne hjk'] at hpoint
        exact absurd hpoint.symm (hnone j' hj' hsame.symm)
    · by_cases hjk' : j' = k
      · subst hjk'
        rw [parent_of_ne path hjk] at hj
        rw [parent_self, parent_of_ne path hjk] at hsame
        rw [mountpoint_self, mountpoint_of_ne hjk] at hpoint
        exact absurd hpoint (hnone j hj hsame)
      · rw [parent_of_ne path hjk] at hj
        rw [parent_of_ne path hjk'] at hj'
        rw [parent_of_ne path hjk, parent_of_ne path hjk'] at hsame
        rw [mountpoint_of_ne hjk, mountpoint_of_ne hjk'] at hpoint
        exact h.unique j j' hj hj' hsame hpoint

end Attach

/-! ## A call -/

/-- The process has its root and its working directory on attached mounts, and a file system answers
with an error or with a root that is there. -/
structure CallOk (n : Namespace) (call : MountCall) : Prop where
  root : n.Valid call.fs.root
  root_mnt : n.Attached call.fs.root.mnt
  pwd : n.Valid call.fs.pwd
  pwd_mnt : n.Attached call.fs.pwd.mnt
  known : ∀ root sb, call.source = .new (.known root sb) → root < n.nextDentry
  error : ∀ err, call.source = .new (.error err) → err ≠ 0

variable {err : Int}

section Call

variable {call : MountCall} {c : Dcache} {out : Except Int Path} {name : Name}

theorem CallOk.start (hcall : n.CallOk call) (name : Name) :
    n.Valid (Vfs.pathInit call.fs name).path ∧ n.Attached (Vfs.pathInit call.fs name).path.mnt := by
  rw [Vfs.pathInit]
  by_cases hhead : name.head? = some '/'
  · simpa only [hhead, if_true] using ⟨hcall.root, hcall.root_mnt⟩
  · simpa only [hhead, if_false] using ⟨hcall.pwd, hcall.pwd_mnt⟩

theorem CallOk.of_extends (hcall : n.CallOk call) (hext : n.toDcache.Extends c) :
    { n with toDcache := c : Namespace }.CallOk call := by
  exact ⟨hext.valid hcall.root, hcall.root_mnt.of_extends hext, hext.valid hcall.pwd,
    hcall.pwd_mnt.of_extends hext,
    fun root sb hsource => lt_of_lt_of_le (hcall.known root sb hsource) hext.nextDentry,
    hcall.error⟩

theorem CallOk.lookup (hcall : n.CallOk call) (h : n.TreeOk)
    (hlookup : n.pathLookupat fuel call.fs name = some (out, c)) :
    n.toDcache.Extends c ∧ c.toVfs.WellFormed ∧
      (∀ err, out = .error err → err ≠ 0) ∧
      ∀ path, out = .ok path → c.Valid path ∧ n.Attached path.mnt := by
  rw [Dcache.pathLookupat_eq_walkPieces] at hlookup
  obtain ⟨⟨err, c₁, nd⟩, hwalk, hres⟩ := map_eq_some_iff.mp hlookup
  obtain ⟨hvalid, hmnt⟩ := hcall.start name
  have hwalked := Dcache.walked_of_walkPieces h.wellFormed hvalid hwalk
  have hend := Dcache.mnt_of_walkPieces (P := n.Attached) (fun m hm => hm.parent h)
    (fun m _ k hk => .mounted h hk) hmnt hwalk
  by_cases herr : err = 0
  · have hres : (Except.ok nd.path, c₁) = (out, c) := by simpa [Dcache.lookupResult, herr] using hres
    cases hres
    refine ⟨Dcache.extends_of_walkPieces hwalk, hwalked.wellFormed, by simp, ?_⟩
    rintro path ⟨⟩
    exact ⟨hwalked.valid, hend⟩
  · have hres : (Except.error err, c₁) = (out, c) := by simpa [Dcache.lookupResult, herr] using hres
    cases hres
    refine ⟨Dcache.extends_of_walkPieces hwalk, hwalked.wellFormed, ?_, by simp⟩
    rintro err' ⟨⟩
    exact herr

section

variable (h : n.TreeOk) (root : DentryId) (sb : SbId) (path : Path)
include h

theorem lookupMnt_createMount : (n.createMount root sb).2.lookupMnt path = n.lookupMnt path := by
  obtain ⟨hparent, hmounts⟩ := createMount_links h root sb
  rw [Vfs.lookupMnt, Vfs.lookupMnt, hmounts]
  refine List.find?_congr fun k hk => ?_
  obtain ⟨hne, hkparent⟩ := (h.mem_mounts _ k).mp hk
  rw [hparent, createMount_mountpoint_of_ne (h.ne_nextMnt (hkparent ▸ hne.symm)).1]

theorem lockMount_createMount :
    (n.createMount root sb).2.lockMount fuel path = n.lockMount fuel path := by
  induction fuel generalizing path with
  | zero => rfl
  | succ fuel ih =>
    rw [Vfs.lockMount, Vfs.lockMount, lookupMnt_createMount h]
    cases hk : n.lookupMnt path with
    | none => rfl
    | some k =>
      obtain ⟨hne, hkparent⟩ := (h.mem_mounts _ k).mp (List.mem_of_find?_eq_some hk)
      simp only [createMount_mntRoot_of_ne (h.ne_nextMnt (hkparent ▸ hne.symm)).1, ih]

end

/-- The mount with the given root is made, and attached on top of the path. -/
def graft (n : Namespace) (root : DentryId) (sb : SbId) (place : Path) : Namespace :=
  (n.createMount root sb).2.mntSetMountpoint place n.nextMnt

theorem lookupMnt_of_lockMount {v : Vfs} {p q : Path} (h : v.lockMount fuel p = some q) :
    v.lookupMnt q = none := by
  induction fuel generalizing p with
  | zero => contradiction
  | succ fuel ih =>
    rw [Vfs.lockMount] at h
    split at h
    · rename_i hnone
      exact some.inj h ▸ hnone
    · exact ih h

theorem TreeOk.place (h : n.TreeOk) (hmnt : n.Attached path.mnt) (hvalid : n.Valid path)
    {place : Path} (hlock : n.lockMount fuel path = some place) :
    n.Attached place.mnt ∧ n.Valid place ∧ n.lookupMnt place = none := by
  have hfree := lookupMnt_of_lockMount hlock
  rw [lockMount_eq] at hlock
  exact ⟨Dcache.mnt_of_traverseMounts (fun m _ k hk => .mounted h hk) hmnt hlock,
    (Vfs.stack_traverse h.wellFormed .base hlock).valid hvalid, hfree⟩

theorem TreeOk.graft (h : n.TreeOk) (hroot : root < n.nextDentry) (sb : SbId)
    {place : Path} (hmnt : n.Attached place.mnt) (hvalid : n.Valid place)
    (hfree : n.lookupMnt place = none) : (n.graft root sb place).TreeOk := by
  refine (h.createMount hroot sb).mntSetMountpoint (newest_createMount h root sb)
    (hmnt.createMount h root sb) ?_ ?_
  · exact Vfs.Shown.mono (v := n.toVfs)
      (createMount_mntRoot_of_ne (Nat.ne_of_lt (hmnt.lt_nextMnt h))) (fun _ _ => rfl)
      (Nat.le_refl _) hvalid
  · rw [lookupMnt_createMount h]
    exact hfree

/-- The new mount is on top of the path, and only the cache has changed besides. -/
def Grafted (n : Namespace) (fuel : Nat) (path : Path) (n' : Namespace) : Prop :=
  ∃ (before : Namespace) (root : DentryId) (sb : SbId) (place : Path),
    n.toDcache.Extends before.toDcache ∧ before.TreeOk ∧ before.nextMnt = n.nextMnt ∧
    before.lockMount fuel path = some place ∧ root < before.nextDentry ∧
    before.Attached place.mnt ∧ before.Valid place ∧ n' = before.graft root sb place

theorem Grafted.treeOk (hgraft : n.Grafted fuel path n') : n'.TreeOk := by
  obtain ⟨before, root, sb, place, -, h, -, hlock, hroot, hmnt, hvalid, rfl⟩ := hgraft
  exact h.graft hroot sb hmnt hvalid (lookupMnt_of_lockMount hlock)

theorem Grafted.of_extends {n₁ : Namespace} (hext : n.toDcache.Extends n₁.toDcache)
    (hnext : n₁.nextMnt = n.nextMnt) (hgraft : n₁.Grafted fuel path n') :
    n.Grafted fuel path n' := by
  obtain ⟨before, root, sb, place, hext', h, hnext', hrest⟩ := hgraft
  exact ⟨before, root, sb, place, hext.trans hext', h, hnext'.trans hnext, hrest⟩

section

variable (h : n.TreeOk) (hmnt : n.Attached path.mnt) (hvalid : n.Valid path)
include h hmnt hvalid

theorem doNewMountFc_spec (hroot : root < n.nextDentry)
    (hmount : n.doNewMountFc fuel path root sb = some (err, n')) :
    n'.TreeOk ∧ (err = 0 → n.Grafted fuel path n') := by
  obtain ⟨place, hlock, hadd⟩ := bind_eq_some_iff.mp hmount
  have hlock : n.lockMount fuel path = some place := by
    rw [← lockMount_createMount h root sb]
    exact hlock
  have hadd : (n.createMount root sb).2.doAddMount n.nextMnt place = (err, n') := some.inj hadd
  rw [doAddMount] at hadd
  split at hadd
  · cases hadd
    exact ⟨h.createMount hroot sb, fun herr => absurd herr (by decide)⟩
  · obtain ⟨-, rfl⟩ := Prod.mk.inj hadd
    obtain ⟨hmnt', hvalid', -⟩ := h.place hmnt hvalid hlock
    have hgraft : n.Grafted fuel path (n.graft root sb place) :=
      ⟨n, root, sb, place, .refl _, h, rfl, hlock, hroot, hmnt', hvalid', rfl⟩
    exact ⟨hgraft.treeOk, fun _ => hgraft⟩

theorem doNewMount_spec {tree : Tree}
    (hknown : ∀ root sb, tree = .known root sb → root < n.nextDentry)
    (herror : ∀ err, tree = .error err → err ≠ 0)
    (hmount : n.doNewMount fuel path tree = some (err, n')) :
    n'.TreeOk ∧ (err = 0 → n.Grafted fuel path n') := by
  cases tree with
  | error e =>
    cases hmount
    exact ⟨h, fun herr => absurd herr (herror _ rfl)⟩
  | known root sb => exact doNewMountFc_spec h hmnt hvalid (hknown root sb rfl) hmount
  | fresh inode sb =>
    have hext := extends_addRoot n inode
    obtain ⟨htree, hgraft⟩ := doNewMountFc_spec (h.addRoot inode) (hmnt.of_extends hext)
      (hext.valid hvalid) (lt_succ_self _) hmount
    exact ⟨htree, fun herr => (hgraft herr).of_extends hext rfl⟩

theorem doLoopback_spec (hcall : n.CallOk call) {oldName : Option Name}
    (hmount : n.doLoopback fuel call.fs path oldName = some (err, n')) :
    n'.TreeOk ∧ (err = 0 → n.Grafted fuel path n') := by
  rcases oldName with _ | _ | ⟨a, name⟩
  · cases hmount
    exact ⟨h, fun herr => absurd herr (by decide)⟩
  · cases hmount
    exact ⟨h, fun herr => absurd herr (by decide)⟩
  · obtain ⟨⟨out, c⟩, hlookup, hmount⟩ := bind_eq_some_iff.mp hmount
    obtain ⟨hext, hwf, herr, hok⟩ := hcall.lookup h hlookup
    have htree := h.of_extends hext hwf
    cases out with
    | error e =>
      cases hmount
      exact ⟨htree, fun hzero => absurd hzero (herr _ rfl)⟩
    | ok oldPath =>
      obtain ⟨place, hlock, hmount⟩ := bind_eq_some_iff.mp hmount
      obtain ⟨-, rfl⟩ := Prod.mk.inj (some.inj hmount)
      obtain ⟨hmnt', hvalid', -⟩ := htree.place (hmnt.of_extends hext) (hext.valid hvalid) hlock
      have hroot : oldPath.dentry < c.nextDentry := hwf.lt_of_shown (hok _ rfl).1
      have hgraft : n.Grafted fuel path _ :=
        ⟨_, oldPath.dentry, n.mntSb oldPath.mnt, place, hext, htree, rfl, hlock, hroot, hmnt',
          hvalid', rfl⟩
      exact ⟨hgraft.treeOk, fun _ => hgraft⟩

end

/-- What a call does: the tree stays one, and a call that succeeds has put a mount on top of its
path. -/
theorem doMount_spec (h : n.TreeOk) (hcall : n.CallOk call)
    (hmount : n.doMount fuel call = some (err, n')) :
    n'.TreeOk ∧ (err = 0 → ∃ path c, n.pathLookupat fuel call.fs call.dirName = some (.ok path, c) ∧
      n.toDcache.Extends c ∧ { n with toDcache := c : Namespace }.Grafted fuel path n') := by
  obtain ⟨⟨out, c⟩, hlookup, hmount⟩ := bind_eq_some_iff.mp hmount
  obtain ⟨hext, hwf, herr, hok⟩ := hcall.lookup h hlookup
  have htree := h.of_extends hext hwf
  cases out with
  | error e =>
    cases hmount
    exact ⟨htree, fun hzero => absurd hzero (herr _ rfl)⟩
  | ok path =>
    obtain ⟨hvalid, hmnt⟩ := hok path rfl
    have hmnt' := hmnt.of_extends hext
    have hspec : n'.TreeOk ∧ (err = 0 → { n with toDcache := c : Namespace }.Grafted fuel path n') := by
      cases hsource : call.source with
      | bind oldName =>
        simp only [hsource] at hmount
        exact doLoopback_spec htree hmnt' hvalid (hcall.of_extends hext) hmount
      | new tree =>
        simp only [hsource] at hmount
        refine doNewMount_spec htree hmnt' hvalid ?_ ?_ hmount
        · rintro root sb rfl
          exact lt_of_lt_of_le (hcall.known root sb hsource) hext.nextDentry
        · rintro e rfl
          exact hcall.error e hsource
    exact ⟨hspec.1, fun hzero => ⟨path, c, hlookup, hext, hspec.2 hzero⟩⟩

end Call

end MyOS2.Namei.Namespace
