import MyOS2.Fs.Vfs.Resolve
import MyOS2.Fs.Vfs.Proofs.Walk

/-!
# The world that the cache and the mounts stand for

The inodes and the mounts give a world in which paths have a meaning, and a cache
that holds only true facts keeps doing so when a name is added to it. The walks
over mounts of the code are the ones of that world.
-/

namespace MyOS2.Namei.Dcache

variable {c c' : Dcache} {D : Ino → Prop} {parent : Ino → Ino} {fuel : Nat}

/-- What the file systems and the mounts are, without the cache. -/
def world (c : Dcache) (D : Ino → Prop) (parent : Ino → Ino) : World MntId Ino Name where
  child := c.find
  parent := parent
  isDir := D
  root m := (c.dInode (c.mntRoot m)).getD 0
  on p := (c.mntMounts p.1).find? fun k => c.dInode (c.mntMountpoint k) == some p.2
  place m :=
    if c.mntHasParent m then
      (c.dInode (c.mntMountpoint m)).map fun i => (c.mntParent m, i)
    else none

/-- The cache says what is true: every dentry but the root of its file system is cached below its
directory with the inode its name has there, none if there is no such name. The file systems are
trees, no inode has two dentries, and mounts are on directories that exist. -/
structure Truthful (c : Dcache) (parent : Ino → Ino) : Prop where
  wellFormed : c.toVfs.WellFormed
  mounted : ∀ m, ∀ k ∈ c.mntMounts m, c.mntParent k = m
  mntRoot : ∀ m, (c.dInode (c.mntRoot m)).isSome
  mntMountpoint : ∀ m, c.mntParent m ≠ m → (c.dInode (c.mntMountpoint m)).isSome
  cached : ∀ d < c.nextDentry, c.dParent d ≠ d → d ∈ c.dSubdirs (c.dParent d)
  facts : ∀ d, ∀ k ∈ c.dSubdirs d, ∃ i, c.dInode d = some i ∧ c.dInode k = c.find i (c.dName k)
  inj : ∀ d < c.nextDentry, ∀ d' < c.nextDentry, ∀ i,
    c.dInode d = some i → c.dInode d' = some i → d = d'
  roots : ∀ d < c.nextDentry, c.dParent d = d → ∀ i, c.dInode d = some i →
    ∀ i' n, c.find i' n ≠ some i
  parent : ∀ i n j, c.find i n = some j → parent j = i
  find_inj : ∀ i n n' j, c.find i n = some j → c.find i n' = some j → n = n'

/-- The inode that a path of the code stands for. -/
def Shows (c : Dcache) (p : Path) (q : MntId × Ino) : Prop :=
  q.1 = p.mnt ∧ c.dInode p.dentry = some q.2

/-! ## The mounts -/

section Mounts

variable {m : MntId} {d : DentryId} {i : Ino} {p q : Path} {r : MntId × Ino}

section

variable (h : c.Truthful parent)
include h

theorem Truthful.mountpoint_lt (hm : c.mntParent m ≠ m) : c.mntMountpoint m < c.nextDentry :=
  h.wellFormed.lt_of_shown (h.wellFormed.mountpoint m hm)

theorem Truthful.child_mount {k : MntId} (hk : k ∈ c.mntMounts m) :
    c.mntParent k = m ∧ c.mntParent k ≠ k := by
  have hparent := h.mounted m k hk
  refine ⟨hparent, ?_⟩
  rw [hparent]
  exact (h.wellFormed.mounted m k hk).symm

theorem Truthful.mountpoint_eq_iff (hm : c.mntParent m ≠ m)
    (hd : d < c.nextDentry) (hi : c.dInode d = some i) :
    c.mntMountpoint m = d ↔ c.dInode (c.mntMountpoint m) = some i := by
  constructor
  · rintro rfl
    exact hi
  · intro hinode
    exact h.inj _ (h.mountpoint_lt hm) _ hd i hinode hi

theorem Truthful.on_eq (hd : d < c.nextDentry)
    (hi : c.dInode d = some i) : (c.world D parent).on (m, i) = c.lookupMnt ⟨m, d⟩ := by
  refine List.find?_congr fun k hk => ?_
  obtain ⟨hparent, hself⟩ := h.child_mount hk
  rw [Bool.eq_iff_iff]
  simp only [beq_iff_eq, Bool.and_eq_true, hparent, true_and]
  exact (h.mountpoint_eq_iff hself hd hi).symm

theorem Truthful.root_eq (m : MntId) :
    c.dInode (c.mntRoot m) = some ((c.world D parent).root m) := by
  obtain ⟨i, hi⟩ := Option.isSome_iff_exists.mp (h.mntRoot m)
  simp [world, hi]

theorem Truthful.top (hd : d < c.nextDentry) (hi : c.dInode d = some i)
    (htraverse : c.traverseMounts fuel ⟨m, d⟩ = some q) :
    ∃ t, c.Shows q t ∧ (c.world D parent).Top (m, i) t := by
  induction fuel generalizing m d i with
  | zero => contradiction
  | succ fuel ih =>
    rw [Vfs.traverseMounts] at htraverse
    have hon := h.on_eq (D := D) (m := m) hd hi
    split at htraverse
    · rename_i k hk
      rw [hk] at hon
      obtain ⟨t, hshows, htop⟩ := ih (h.wellFormed.mntRoot k) (h.root_eq k) htraverse
      exact ⟨t, hshows, .covered hon htop⟩
    · rename_i hnone
      rw [hnone] at hon
      cases htraverse
      exact ⟨(m, i), ⟨rfl, hi⟩, .free hon⟩

theorem Truthful.traverse_negative (hnone : c.dInode d = none) :
    c.traverseMounts (fuel + 1) ⟨m, d⟩ = some ⟨m, d⟩ := by
  have hfree : c.lookupMnt ⟨m, d⟩ = none := by
    refine List.find?_eq_none.mpr fun k hk => ?_
    obtain ⟨-, hself⟩ := h.child_mount hk
    simp only [Bool.and_eq_true, beq_iff_eq, not_and]
    rintro - rfl
    simpa [hnone] using h.mntMountpoint k hself
  rw [Vfs.traverseMounts, hfree]

end

theorem place_of_parent {i : Ino} (hm : c.mntParent m ≠ m)
    (hi : c.dInode (c.mntMountpoint m) = some i) :
    (c.world D parent).place m = some (c.mntParent m, i) := by
  simp [world, Vfs.mntHasParent_iff.mpr hm, hi]

theorem place_of_self (hm : c.mntParent m = m) : (c.world D parent).place m = none := by
  have hno : c.mntHasParent m = false := by simp [Vfs.mntHasParent, hm]
  simp [world, hno]

theorem Truthful.across (h : c.Truthful parent) {root : Path} (hroot : c.Shows root r)
    (hlt : root.dentry < c.nextDentry) {out : Option Path}
    (hchoose : c.chooseMountpoint root fuel m = some out) :
    (out = none ∧ (c.world D parent).Across r m none) ∨
      ∃ q t, out = some q ∧ c.Shows q t ∧ (c.world D parent).Across r m (some t) := by
  induction fuel generalizing m with
  | zero => contradiction
  | succ fuel ih =>
    rw [Vfs.chooseMountpoint] at hchoose
    split at hchoose
    · rename_i hhas
      have hm := Vfs.mntHasParent_iff.mp hhas
      obtain ⟨i, hi⟩ := Option.isSome_iff_exists.mp (h.mntMountpoint m hm)
      have hplace : (c.world D parent).place m = _ := place_of_parent hm hi
      have hstop : (root.dentry = c.mntMountpoint m ∧ root.mnt = c.mntParent m) ↔
          (c.mntParent m, i) = r := by
        rw [Prod.ext_iff, hroot.1, eq_comm (a := root.dentry),
          h.mountpoint_eq_iff hm hlt hroot.2, hi, and_comm, eq_comm (a := root.mnt),
          Option.some.injEq]
      dsimp only at hchoose
      split at hchoose
      · rename_i heq
        exact .inl ⟨(Option.some.inj hchoose).symm, .stop (hstop.mp heq ▸ hplace)⟩
      · rename_i hne
        have hne' : (c.mntParent m, i) ≠ r := fun heq => hne (hstop.mpr heq)
        have hin : c.mntMountpoint m = c.mntRoot (c.mntParent m) ↔
            i = (c.world D parent).root (c.mntParent m) := by
          rw [h.mountpoint_eq_iff hm (h.wellFormed.mntRoot _) (h.root_eq (D := D) _), hi,
            Option.some.injEq]
        split at hchoose
        · rename_i hinside
          exact .inr ⟨_, _, (Option.some.inj hchoose).symm, ⟨rfl, hi⟩,
            .inside hplace hne' fun heq => hinside (hin.mpr heq)⟩
        · rename_i hcovers
          have hcovers := hin.mp (not_not.mp hcovers)
          rcases ih hchoose with ⟨rfl, hacross⟩ | ⟨q, t, rfl, hshows, hacross⟩
          · exact .inl ⟨rfl, .through hplace hne' hcovers hacross⟩
          · exact .inr ⟨q, t, rfl, hshows, .through hplace hne' hcovers hacross⟩
    · rename_i hno
      have hm : c.mntParent m = m := by
        by_contra hne
        exact hno (Vfs.mntHasParent_iff.mpr hne)
      exact .inl ⟨(Option.some.inj hchoose).symm, .top (place_of_self hm)⟩

theorem Truthful.grounded (h : c.Truthful parent) : (c.world D parent).Grounded := by
  refine ⟨fun p k hk => ?_, ?_⟩
  · obtain ⟨hparent, hself⟩ := h.child_mount (List.mem_of_find?_eq_some hk)
    have hinode := List.find?_some hk
    rw [beq_iff_eq] at hinode
    rw [place_of_parent hself hinode, hparent]
  · obtain ⟨rank, bound, hrank⟩ := h.wellFormed.mounts
    refine ⟨rank, fun k p hp => ?_⟩
    by_cases hself : c.mntParent k = k
    · rw [place_of_self hself] at hp
      contradiction
    · obtain ⟨i, hi⟩ := Option.isSome_iff_exists.mp (h.mntMountpoint k hself)
      rw [place_of_parent hself hi] at hp
      cases hp
      exact (hrank k).2 hself

end Mounts

/-! ## A new dentry -/

section AddChild

variable {dir : DentryId} {name : Name} {i j : Ino} {inode : Option Ino}

@[simp] theorem addChild_toVfs : (c.addChild dir name inode).toVfs = c.toVfs.addDentry name dir :=
  rfl

section

variable {d : DentryId} (hd : d < c.nextDentry)
include hd

theorem addChild_inode_of_lt : (c.addChild dir name inode).dInode d = c.dInode d :=
  Function.update_of_ne (Nat.ne_of_lt hd) ..

theorem addChild_name_of_lt : (c.addChild dir name inode).dName d = c.dName d :=
  Function.update_of_ne (Nat.ne_of_lt hd) ..

theorem addChild_parent_of_lt : (c.addChild dir name inode).dParent d = c.dParent d :=
  Function.update_of_ne (Nat.ne_of_lt hd) ..

end

theorem world_addChild (h : c.Truthful parent) (dir : DentryId) (name : Name)
    (inode : Option Ino) :
    (c.addChild dir name inode).world D parent = c.world D parent := by
  have hroot : ∀ m, (c.addChild dir name inode).dInode (c.mntRoot m) = c.dInode (c.mntRoot m) :=
    fun m => addChild_inode_of_lt (h.wellFormed.mntRoot m)
  have hmountpoint : ∀ m, c.mntParent m ≠ m →
      (c.addChild dir name inode).dInode (c.mntMountpoint m) = c.dInode (c.mntMountpoint m) :=
    fun m hm => addChild_inode_of_lt (h.mountpoint_lt hm)
  have hon : ∀ p : MntId × Ino, ((c.mntMounts p.1).find? fun k =>
        (c.addChild dir name inode).dInode (c.mntMountpoint k) == some p.2) =
      (c.mntMounts p.1).find? fun k => c.dInode (c.mntMountpoint k) == some p.2 := by
    intro p
    refine List.find?_congr fun k hk => ?_
    rw [hmountpoint k (h.child_mount hk).2]
  have hplace : ∀ m, (if c.mntHasParent m then
        ((c.addChild dir name inode).dInode (c.mntMountpoint m)).map fun i => (c.mntParent m, i)
      else none) = if c.mntHasParent m then
        (c.dInode (c.mntMountpoint m)).map fun i => (c.mntParent m, i) else none := by
    intro m
    split
    · rename_i hhas
      rw [hmountpoint m (Vfs.mntHasParent_iff.mp hhas)]
    · rfl
  have hroots : (fun m => ((c.addChild dir name inode).dInode (c.mntRoot m)).getD 0) =
      fun m => (c.dInode (c.mntRoot m)).getD 0 := funext fun m => by rw [hroot m]
  simp only [world]
  exact congr (congrArg₂ (World.mk _ _ _) hroots (funext hon)) (funext hplace)

section

variable (h : c.Truthful parent) (hdir : dir < c.nextDentry) (hi : c.dInode dir = some i)
  (hj : c.find i name = some j) (hfresh : ∀ k ∈ c.dSubdirs dir, c.dName k ≠ name)
include h hdir hi hj hfresh

/-- An inode whose name is not cached in its directory has no dentry: that would be a child of the
same name. -/
theorem Truthful.ne_inode {d : DentryId} (hd : d < c.nextDentry) : c.dInode d ≠ some j := by
  intro hdj
  by_cases hself : c.dParent d = d
  · exact h.roots d hd hself j hdj i name hj
  · have hmem := h.cached d hd hself
    obtain ⟨i', hi', hfind⟩ := h.facts _ d hmem
    rw [hdj] at hfind
    obtain rfl : i' = i := (h.parent i' _ j hfind.symm).symm.trans (h.parent i name j hj)
    have hparent := h.inj _ (h.wellFormed.dParent d hd) dir hdir i' hi' hi
    exact hfresh d (hparent ▸ hmem) (h.find_inj i' _ name j hfind.symm hj)

theorem Truthful.addChild : (c.addChild dir name (some j)).Truthful parent := by
  have hnone : ∀ d < c.nextDentry, c.dInode d ≠ some j :=
    fun d hd => h.ne_inode hdir hi hj hfresh hd
  have hold : ∀ d, d < c.nextDentry + 1 → d ≠ c.nextDentry → d < c.nextDentry :=
    fun d hd hne => Nat.lt_of_le_of_ne (Nat.le_of_lt_succ hd) hne
  refine ⟨h.wellFormed.addDentry name hdir, h.mounted, ?_, ?_, ?_, ?_, ?_, ?_, h.parent, h.find_inj⟩
  · intro m
    rw [addChild_toVfs, Vfs.addDentry, addChild_inode_of_lt (h.wellFormed.mntRoot m)]
    exact h.mntRoot m
  · intro m hm
    rw [addChild_toVfs, Vfs.addDentry, addChild_inode_of_lt (h.mountpoint_lt hm)]
    exact h.mntMountpoint m hm
  · intro d hd hself
    rw [mem_subdirs_addChild h.wellFormed hdir]
    by_cases hd' : d = c.nextDentry
    · subst hd'
      exact .inr ⟨Function.update_self .., rfl⟩
    · have hlt := hold d hd hd'
      rw [addChild_parent_of_lt hlt] at hself ⊢
      exact .inl (h.cached d hlt hself)
  · intro d k hk
    rcases (mem_subdirs_addChild h.wellFormed hdir).mp hk with hk | ⟨rfl, rfl⟩
    · obtain ⟨hlt, hparent, -⟩ := h.wellFormed.subdirs d k hk
      have hd : d < c.nextDentry := hparent ▸ h.wellFormed.dParent k hlt
      rw [addChild_inode_of_lt hd, addChild_inode_of_lt hlt, addChild_name_of_lt hlt]
      exact h.facts d k hk
    · refine ⟨i, (addChild_inode_of_lt hdir).trans hi, ?_⟩
      simp only [Dcache.addChild, Function.update_self]
      exact hj.symm
  · intro d hd d' hd' a ha ha'
    by_cases hdn : d = c.nextDentry
    · by_cases hdn' : d' = c.nextDentry
      · rw [hdn, hdn']
      · have hlt := hold d' hd' hdn'
        subst hdn
        rw [addChild_inode_of_lt hlt] at ha'
        obtain rfl : j = a := by simpa [Dcache.addChild] using ha
        exact absurd ha' (hnone d' hlt)
    · have hlt := hold d hd hdn
      rw [addChild_inode_of_lt hlt] at ha
      by_cases hdn' : d' = c.nextDentry
      · subst hdn'
        obtain rfl : j = a := by simpa [Dcache.addChild] using ha'
        exact absurd ha (hnone d hlt)
      · have hlt' := hold d' hd' hdn'
        rw [addChild_inode_of_lt hlt'] at ha'
        exact h.inj d hlt d' hlt' a ha ha'
  · intro d hd hself a ha
    by_cases hdn : d = c.nextDentry
    · subst hdn
      have hnext : dir = c.nextDentry := by simpa [Dcache.addChild] using hself
      exact absurd hnext (Nat.ne_of_lt hdir)
    · have hlt := hold d hd hdn
      rw [addChild_parent_of_lt hlt] at hself
      rw [addChild_inode_of_lt hlt] at ha
      exact h.roots d hlt hself a ha

end

end AddChild

end MyOS2.Namei.Dcache
