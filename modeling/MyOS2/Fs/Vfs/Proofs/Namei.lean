import MyOS2.Fs.Vfs.Namei
import Mathlib.Tactic.Common

/-!
# Which roots a lookup cannot leave

`follow_dotdot` compares with the root only where it crosses to another mount. So
`..` in the root itself goes up unless the root is that of a mount with nothing
above it, and a lookup is confined for these roots and for no others.
-/

namespace MyOS2.Namei.Vfs

open Function Option Nat

variable {v v' : Vfs} {root p q : Path} {m : MntId} {d : DentryId}

/-! ## Going up -/

def Valid (v : Vfs) (p : Path) : Prop := v.Shown p.mnt p.dentry

theorem valid_mntRoot (v : Vfs) (m : MntId) : v.Valid ⟨m, v.mntRoot m⟩ := .root

theorem mntHasParent_iff : v.mntHasParent m = true ↔ v.mntParent m ≠ m := by
  rw [mntHasParent, bne_iff_ne]
  exact ne_comm

theorem up_of_ne (h : p.dentry ≠ v.mntRoot p.mnt) : v.up p = some ⟨p.mnt, v.dParent p.dentry⟩ :=
  if_neg h

theorem up_mntRoot (h : v.mntParent m ≠ m) :
    v.up ⟨m, v.mntRoot m⟩ = some ⟨v.mntParent m, v.mntMountpoint m⟩ := by
  rw [up, if_pos rfl, if_pos (mntHasParent_iff.mpr h)]

theorem up_cases (h : v.up p = some q) :
    (p.dentry = v.mntRoot p.mnt ∧ v.mntParent p.mnt ≠ p.mnt ∧
      q = ⟨v.mntParent p.mnt, v.mntMountpoint p.mnt⟩) ∨
    p.dentry ≠ v.mntRoot p.mnt ∧ q = ⟨p.mnt, v.dParent p.dentry⟩ := by
  rw [up] at h
  split at h
  · rename_i hroot
    split at h
    · rename_i hparent
      exact .inl ⟨hroot, mntHasParent_iff.mp hparent, (some.inj h).symm⟩
    · contradiction
  · rename_i hroot
    exact .inr ⟨hroot, (some.inj h).symm⟩

theorem Shown.parent (h : v.Shown m d) (hd : d ≠ v.mntRoot m) :
    d < v.nextDentry ∧ v.dParent d ≠ d ∧ v.Shown m (v.dParent d) := by
  cases h with
  | root => exact absurd rfl hd
  | child hlt hne hparent => exact ⟨hlt, hne, hparent⟩

theorem WellFormed.lt_of_shown (hwf : v.WellFormed) (h : v.Shown m d) : d < v.nextDentry := by
  cases h with
  | root => exact hwf.mntRoot m
  | child hlt _ _ => exact hlt

theorem WellFormed.valid_up (hwf : v.WellFormed) (hp : v.Valid p) (h : v.up p = some q) :
    v.Valid q := by
  rcases up_cases h with ⟨-, hparent, rfl⟩ | ⟨hne, rfl⟩
  · exact hwf.mountpoint _ hparent
  · exact (hp.parent hne).2.2

theorem Below.trans {a b c : Path} (hbc : v.Below b c) (hab : v.Below a b) : v.Below a c := by
  induction hbc with
  | root => exact hab
  | under hup _ ih => exact .under hup ih

theorem Below.up_of_ne (h : v.Below root p) (hne : p ≠ root) (hup : v.up p = some q) :
    v.Below root q := by
  cases h with
  | root => exact absurd rfl hne
  | under hup' hbelow =>
    rw [hup] at hup'
    exact some.inj hup' ▸ hbelow

theorem WellFormed.not_below_up (hwf : v.WellFormed) (hp : v.Valid p) (hup : v.up p = some q) :
    ¬ v.Below p q := by
  obtain ⟨rank, bound, hrank⟩ := hwf.mounts
  obtain ⟨depth, hdepth⟩ := hwf.dentries
  have hstep : ∀ a b : Path, v.Valid a → v.up a = some b →
      rank b.mnt < rank a.mnt ∨ b.mnt = a.mnt ∧ depth b.dentry < depth a.dentry := by
    intro a b ha hab
    rcases up_cases hab with ⟨-, hparent, rfl⟩ | ⟨hne, rfl⟩
    · exact .inl ((hrank _).2 hparent)
    · obtain ⟨hlt, hself, -⟩ := ha.parent hne
      exact .inr ⟨rfl, hdepth _ hlt hself⟩
  have hle : ∀ a b : Path, v.Below a b → v.Valid b →
      rank a.mnt < rank b.mnt ∨ a.mnt = b.mnt ∧ depth a.dentry ≤ depth b.dentry := by
    intro a b hab hb
    induction hab with
    | root => exact .inr ⟨rfl, Nat.le_refl _⟩
    | under hup _ ih =>
      have hs := hstep _ _ hb hup
      rcases ih (hwf.valid_up hb hup) with hlt | ⟨heq, hle⟩
      · rcases hs with hs | ⟨hs, -⟩
        · exact .inl (Nat.lt_trans hlt hs)
        · exact .inl (hs ▸ hlt)
      · rcases hs with hs | ⟨hs, hlt⟩
        · exact .inl (heq ▸ hs)
        · exact .inr ⟨heq.trans hs, Nat.le_trans hle (Nat.le_of_lt hlt)⟩
  intro hbelow
  rcases hle p q hbelow (hwf.valid_up hp hup) with hlt | ⟨heq, hle⟩
  · rcases hstep p q hp hup with hs | ⟨hs, -⟩
    · exact absurd (Nat.lt_trans hlt hs) (Nat.lt_irrefl _)
    · rw [hs] at hlt
      exact absurd hlt (Nat.lt_irrefl _)
  · rcases hstep p q hp hup with hs | ⟨-, hs⟩
    · rw [heq] at hs
      exact absurd hs (Nat.lt_irrefl _)
    · exact absurd (Nat.lt_of_le_of_lt hle hs) (Nat.lt_irrefl _)

/-! ## Down through mounts -/

/-- `q` is reached from `p` by entering mounts, one on the root of the other. -/
inductive Stack (v : Vfs) (p : Path) : Path → Prop
  | base : Stack v p p
  | enter {x : Path} {k : MntId} : Stack v p x → v.mntParent k = x.mnt →
      v.mntMountpoint k = x.dentry → k ≠ x.mnt → Stack v p ⟨k, v.mntRoot k⟩

theorem lookupMnt_eq (hwf : v.WellFormed) {k : MntId} (h : v.lookupMnt p = some k) :
    v.mntParent k = p.mnt ∧ v.mntMountpoint k = p.dentry ∧ k ≠ p.mnt := by
  have hk := List.find?_some h
  rw [Bool.and_eq_true, beq_iff_eq, beq_iff_eq] at hk
  exact ⟨hk.1, hk.2, hwf.mounted _ _ (List.mem_of_find?_eq_some h)⟩

variable {fuel : Nat}

theorem stack_traverse (hwf : v.WellFormed) {x : Path} (hx : v.Stack p x)
    (h : v.traverseMounts fuel x = some q) : v.Stack p q := by
  induction fuel generalizing x with
  | zero => contradiction
  | succ fuel ih =>
    rw [traverseMounts] at h
    split at h
    · rename_i k hk
      obtain ⟨hparent, hmountpoint, hne⟩ := lookupMnt_eq hwf hk
      exact ih (.enter hx hparent hmountpoint hne) h
    · exact some.inj h ▸ hx

theorem traverse_isSome (hwf : v.WellFormed) {rank : MntId → Nat} {bound : Nat}
    (hrank : ∀ m, rank m < bound ∧ (v.mntParent m ≠ m → rank (v.mntParent m) < rank m))
    (hfuel : bound < rank p.mnt + fuel) : ∃ q, v.traverseMounts fuel p = some q := by
  induction fuel generalizing p with
  | zero => exact absurd (hrank p.mnt).1 (by omega)
  | succ fuel ih =>
    rw [traverseMounts]
    split
    · rename_i k hk
      obtain ⟨hparent, -, hne⟩ := lookupMnt_eq hwf hk
      have hlt := (hrank k).2 (hparent ▸ hne.symm)
      rw [hparent] at hlt
      exact ih (by simp only; omega)
    · exact ⟨p, rfl⟩

section

variable {x : Path} (h : v.Stack p x)
include h

theorem Stack.isBelow : v.Below p x := by
  induction h with
  | base => exact .root
  | enter _ hparent hmountpoint hne ih =>
    refine .under (up_mntRoot ?_) ?_
    · rw [hparent]
      exact hne.symm
    · rw [hparent, hmountpoint]
      exact ih

theorem Stack.valid (hp : v.Valid p) : v.Valid x := by
  cases h with
  | base => exact hp
  | enter _ _ _ _ => exact .root

theorem Stack.eq_mntRoot (hx : x ≠ p) : x.dentry = v.mntRoot x.mnt := by
  cases h with
  | base => exact absurd rfl hx
  | enter _ _ _ _ => rfl

theorem Stack.below_or (hx : v.Below root x) : v.Below root p ∨ v.Stack p root ∧ root ≠ p := by
  induction h with
  | base => exact .inl hx
  | @enter y k hstack hparent hmountpoint hne ih =>
    by_cases hroot : (⟨k, v.mntRoot k⟩ : Path) = root
    · by_cases hp : root = p
      · exact .inl (hp ▸ .root)
      · exact .inr ⟨hroot ▸ .enter hstack hparent hmountpoint hne, hp⟩
    · have hup : v.up ⟨k, v.mntRoot k⟩ = some y := by
        rw [up_mntRoot (by rw [hparent]; exact hne.symm), hparent, hmountpoint]
      exact ih (hx.up_of_ne hroot hup)

end

/-! ## Up across mounts -/

/-- From the root of `m` the first place above that is not the root of a mount. -/
inductive Climb (v : Vfs) : MntId → Path → Prop
  | here {m : MntId} : v.mntParent m ≠ m → v.mntMountpoint m ≠ v.mntRoot (v.mntParent m) →
      Climb v m ⟨v.mntParent m, v.mntMountpoint m⟩
  | across {m : MntId} {q : Path} : v.mntParent m ≠ m →
      v.mntMountpoint m = v.mntRoot (v.mntParent m) → Climb v (v.mntParent m) q → Climb v m q

theorem Climb.isBelow (h : v.Climb m q) : v.Below q ⟨m, v.mntRoot m⟩ := by
  induction h with
  | here hparent _ => exact .under (up_mntRoot hparent) .root
  | across hparent hmountpoint _ ih =>
    refine .under (up_mntRoot hparent) ?_
    rw [hmountpoint]
    exact ih

theorem Climb.ne_mntRoot (h : v.Climb m q) : q.dentry ≠ v.mntRoot q.mnt := by
  induction h with
  | here _ hne => exact hne
  | across _ _ _ ih => exact ih

theorem Climb.valid (hwf : v.WellFormed) (h : v.Climb m q) : v.Valid q := by
  induction h with
  | here hparent _ => exact hwf.mountpoint _ hparent
  | across _ _ _ ih => exact ih

theorem Climb.not_onTop (h : v.Climb m q) : ¬ v.OnTop m := by
  induction h with
  | here hparent hne =>
    rintro (htop | ⟨hcovers, -⟩)
    · exact hparent htop
    · exact hne hcovers
  | across hparent _ _ ih =>
    rintro (htop | ⟨-, habove⟩)
    · exact hparent htop
    · exact ih habove

/-- `choose_mountpoint` climbs like this, and stops at the root on its way. -/
theorem climb_of_chooseMountpoint (h : v.chooseMountpoint root fuel m = some (some q)) :
    v.Climb m q ∧
    (v.Below root ⟨m, v.mntRoot m⟩ → root ≠ ⟨m, v.mntRoot m⟩ → v.Below root q) := by
  induction fuel generalizing m with
  | zero => contradiction
  | succ fuel ih =>
    rw [chooseMountpoint] at h
    split at h
    · rename_i hparent
      rw [mntHasParent_iff] at hparent
      simp only at h
      split at h
      · exact absurd (some.inj h) nofun
      · rename_i hroot
        have habove : v.Below root ⟨m, v.mntRoot m⟩ → root ≠ ⟨m, v.mntRoot m⟩ →
            v.Below root ⟨v.mntParent m, v.mntMountpoint m⟩ :=
          fun hbelow hne => hbelow.up_of_ne hne.symm (up_mntRoot hparent)
        split at h
        · rename_i hne
          cases h
          exact ⟨.here hparent hne, habove⟩
        · rename_i heq
          rw [not_not] at heq
          obtain ⟨hclimb, hbelow⟩ := ih h
          refine ⟨.across hparent heq hclimb, fun hm hne => hbelow (heq ▸ habove hm hne) ?_⟩
          rintro rfl
          exact hroot ⟨heq.symm, rfl⟩
    · exact absurd (some.inj h) nofun

/-- Where a climb is possible `choose_mountpoint` finds its end: it cannot meet the root, from which
it started. -/
theorem exists_chooseMountpoint (hwf : v.WellFormed) {rank : MntId → Nat}
    (hrank : ∀ m, v.mntParent m ≠ m → rank (v.mntParent m) < rank m)
    (habove : v.Below ⟨m, v.mntRoot m⟩ root) (htop : ¬ v.OnTop m)
    (hfuel : rank m < fuel) : ∃ q, v.chooseMountpoint root fuel m = some (some q) := by
  induction fuel generalizing m with
  | zero => contradiction
  | succ fuel ih =>
    have hparent : v.mntParent m ≠ m := fun heq => htop (.top heq)
    have hup : v.up ⟨m, v.mntRoot m⟩ = some ⟨v.mntParent m, v.mntMountpoint m⟩ := up_mntRoot hparent
    have hroot : ¬ (root.dentry = v.mntMountpoint m ∧ root.mnt = v.mntParent m) := by
      rintro ⟨hdentry, hmnt⟩
      obtain rfl : root = ⟨v.mntParent m, v.mntMountpoint m⟩ := by rw [← hdentry, ← hmnt]
      exact hwf.not_below_up (v.valid_mntRoot m) hup habove
    rw [chooseMountpoint, if_pos (mntHasParent_iff.mpr hparent)]
    simp only [if_neg hroot]
    by_cases hne : v.mntMountpoint m = v.mntRoot (v.mntParent m)
    · rw [if_neg (not_not.mpr hne)]
      have hlt := hrank m hparent
      refine ih ?_ (fun hup => htop (.covers hne hup)) (by omega)
      exact habove.trans (.under hup (hne ▸ .root))
    · rw [if_pos hne]
      exact ⟨_, rfl⟩

/-- A stack of mounts on `p` that holds the root of `m` cannot be left upwards elsewhere than
through `p`. -/
theorem Stack.climb {x : Path} (h : v.Stack p x) (hx : x ≠ p) (hclimb : v.Climb x.mnt q) :
    v.Below q p := by
  induction h with
  | base => exact absurd rfl hx
  | @enter y k hstack hparent hmountpoint hne ih =>
    cases hclimb with
    | here hself hnot =>
      -- `y` is not the root of a mount, so that the stack begins there
      have hy : (⟨v.mntParent k, v.mntMountpoint k⟩ : Path) = y := by rw [hparent, hmountpoint]
      rw [hy]
      cases hstack with
      | base => exact .root
      | enter _ _ _ _ =>
        rw [hparent, hmountpoint] at hnot
        exact absurd rfl hnot
    | across hself heq hclimb =>
      rw [hparent] at hclimb heq
      by_cases hyp : y = p
      · have hbelow := hclimb.isBelow
        rwa [← heq, hmountpoint, hyp] at hbelow
      · exact ih hyp hclimb

/-! ## The dentry cache grows -/

/-- The mounts are the same, and so are the ways up from what was there. -/
structure Grown (v v' : Vfs) : Prop where
  mntRoot : v'.mntRoot = v.mntRoot
  mntParent : v'.mntParent = v.mntParent
  mntMountpoint : v'.mntMountpoint = v.mntMountpoint
  dParent : ∀ d < v.nextDentry, v'.dParent d = v.dParent d
  nextDentry : v.nextDentry ≤ v'.nextDentry

theorem Shown.mono (hroot : v'.mntRoot m = v.mntRoot m)
    (hparent : ∀ d < v.nextDentry, v'.dParent d = v.dParent d)
    (hnext : v.nextDentry ≤ v'.nextDentry) (h : v.Shown m d) : v'.Shown m d := by
  induction h with
  | root => exact hroot ▸ .root
  | @child d hlt hne _ ih =>
    rw [← hparent d hlt] at hne ih
    exact .child (Nat.lt_of_lt_of_le hlt hnext) hne ih

namespace Grown

theorem refl (v : Vfs) : Grown v v := ⟨rfl, rfl, rfl, fun _ _ => rfl, Nat.le_refl _⟩

theorem trans {v₁ v₂ v₃ : Vfs} (h₁ : Grown v₁ v₂) (h₂ : Grown v₂ v₃) : Grown v₁ v₃ :=
  ⟨h₂.mntRoot.trans h₁.mntRoot, h₂.mntParent.trans h₁.mntParent,
    h₂.mntMountpoint.trans h₁.mntMountpoint,
    fun d hd => (h₂.dParent d (Nat.lt_of_lt_of_le hd h₁.nextDentry)).trans (h₁.dParent d hd),
    Nat.le_trans h₁.nextDentry h₂.nextDentry⟩

theorem shown (hg : Grown v v') (h : v.Shown m d) : v'.Shown m d :=
  h.mono (congrFun hg.mntRoot m) hg.dParent hg.nextDentry

theorem up (hg : Grown v v') (hp : p.dentry < v.nextDentry) : v'.up p = v.up p := by
  rw [Vfs.up, Vfs.up, mntHasParent, mntHasParent, hg.mntRoot, hg.mntParent, hg.mntMountpoint,
    hg.dParent _ hp]

theorem isBelow (hg : Grown v v') (hwf : v.WellFormed) (hp : v.Valid p) (h : v.Below root p) :
    v'.Below root p := by
  induction h with
  | root => exact .root
  | under hup _ ih =>
    refine .under ?_ (ih (hwf.valid_up hp hup))
    rw [hg.up (hwf.lt_of_shown hp), hup]

theorem onTop (hg : Grown v v') (h : v.OnTop m) : v'.OnTop m := by
  induction h with
  | top htop => exact .top (by rw [hg.mntParent, htop])
  | covers hcovers _ ih =>
    refine .covers ?_ ?_
    · rw [hg.mntMountpoint, hg.mntParent, hg.mntRoot, hcovers]
    · rwa [hg.mntParent]

end Grown

def addDentry (v : Vfs) (name : List Char) (dir : DentryId) : Vfs :=
  { v with
    dParent := update v.dParent v.nextDentry dir
    dName := update v.dName v.nextDentry name
    dSubdirs := update (update v.dSubdirs v.nextDentry []) dir (v.dSubdirs dir ++ [v.nextDentry])
    nextDentry := v.nextDentry + 1 }

theorem grown_addDentry (v : Vfs) (name : List Char) (dir : DentryId) :
    Grown v (v.addDentry name dir) :=
  ⟨rfl, rfl, rfl, fun _ hd => update_of_ne (Nat.ne_of_lt hd) _ _, le_succ _⟩

theorem WellFormed.addDentry (hwf : v.WellFormed) (name : List Char) {dir : DentryId}
    (hdir : dir < v.nextDentry) : (v.addDentry name dir).WellFormed := by
  have hne : v.nextDentry ≠ dir := (Nat.ne_of_lt hdir).symm
  have hold : ∀ d, d < v.nextDentry + 1 → d ≠ v.nextDentry → d < v.nextDentry :=
    fun d hd hne => Nat.lt_of_le_of_ne (le_of_lt_succ hd) hne
  refine ⟨hwf.mounts, ?_, ?_, hwf.mounted,
    fun m hm => (grown_addDentry v name dir).shown (hwf.mountpoint m hm),
    fun m => lt_succ_of_lt (hwf.mntRoot m), ?_⟩
  · obtain ⟨depth, hdepth⟩ := hwf.dentries
    refine ⟨update depth v.nextDentry (depth dir + 1), fun d hd hself => ?_⟩
    by_cases hd' : d = v.nextDentry
    · subst hd'
      simp only [Vfs.addDentry, update_self, update_of_ne hne.symm]
      exact lt_succ_self _
    · have hlt := hold d hd hd'
      have hparent : v.dParent d ≠ v.nextDentry := Nat.ne_of_lt (hwf.dParent d hlt)
      simp only [Vfs.addDentry, update_of_ne hd'] at hself ⊢
      rw [update_of_ne hparent]
      exact hdepth d hlt hself
  · intro d hd
    by_cases hd' : d = v.nextDentry
    · subst hd'
      simp only [Vfs.addDentry, update_self]
      exact lt_succ_of_lt hdir
    · simp only [Vfs.addDentry, update_of_ne hd']
      exact lt_succ_of_lt (hwf.dParent d (hold d hd hd'))
  · intro d c hc
    have hsub : c ∈ v.dSubdirs d → c < v.nextDentry + 1 ∧
        update v.dParent v.nextDentry dir c = d ∧ c ≠ d := by
      intro hc
      obtain ⟨hlt, hparent, hcd⟩ := hwf.subdirs d c hc
      rw [update_of_ne (Nat.ne_of_lt hlt)]
      exact ⟨lt_succ_of_lt hlt, hparent, hcd⟩
    by_cases hd : d = dir
    · subst hd
      simp only [Vfs.addDentry, update_self, List.mem_append, List.mem_singleton] at hc
      rcases hc with hc | rfl
      · exact hsub hc
      · exact ⟨lt_succ_self _, update_self .., hne⟩
    · simp only [Vfs.addDentry, update_of_ne hd] at hc
      by_cases hd' : d = v.nextDentry
      · subst hd'
        simp at hc
      · rw [update_of_ne hd'] at hc
        exact hsub hc

variable {c : DentryId} {name : List Char}

theorem lookupSlow_eq (hwf : v.WellFormed) {dir : DentryId}
    (hdir : dir < v.nextDentry) (h : v.lookupSlow name dir = .ok (c, v')) :
    v'.WellFormed ∧ Grown v v' ∧ c < v'.nextDentry ∧ v'.dParent c = dir ∧ c ≠ dir := by
  rw [lookupSlow] at h
  split at h
  · cases h
    exact ⟨hwf.addDentry name hdir, grown_addDentry v name dir, lt_succ_self _,
      update_self .., (Nat.ne_of_lt hdir).symm⟩
  · contradiction

/-! ## The walk -/

def AtTop (v : Vfs) (root : Path) : Prop := root.dentry = v.mntRoot root.mnt ∧ v.OnTop root.mnt

/-- What a piece of the walk does with the cache and with the path. -/
structure Walked (v : Vfs) (nd : Nameidata) (v' : Vfs) (nd' : Nameidata) : Prop where
  wellFormed : v'.WellFormed
  grown : Grown v v'
  valid : v'.Valid nd'.path
  root : nd'.root = nd.root
  confined : v.AtTop nd.root → v.Below nd.root nd.path → v'.Below nd.root nd'.path

theorem Grown.atTop (hg : Grown v v') (h : v.AtTop root) : v'.AtTop root :=
  ⟨hg.mntRoot ▸ h.1, hg.onTop h.2⟩

variable {err : Int}

section Walk
variable {nd nd' : Nameidata} {fuel : Nat}

theorem Walked.refl (hwf : v.WellFormed) (hpath : v.Valid nd.path) : Walked v nd v nd :=
  ⟨hwf, .refl v, hpath, rfl, fun _ hbelow => hbelow⟩

theorem Walked.trans {v₁ v₂ v₃ : Vfs} {nd₁ nd₂ nd₃ : Nameidata} (h₁ : Walked v₁ nd₁ v₂ nd₂)
    (h₂ : Walked v₂ nd₂ v₃ nd₃) : Walked v₁ nd₁ v₃ nd₃ := by
  refine ⟨h₂.wellFormed, h₁.grown.trans h₂.grown, h₂.valid, h₂.root.trans h₁.root, ?_⟩
  intro htop hbelow
  have hconfined := h₂.confined
  rw [h₁.root] at hconfined
  exact hconfined (h₁.grown.atTop htop) (h₁.confined htop hbelow)

theorem stepInto_eq (hwf : v.WellFormed) (h : v.stepInto fuel nd d = some nd') :
    v.Stack ⟨nd.path.mnt, d⟩ nd'.path ∧ nd'.root = nd.root := by
  obtain ⟨path, htraverse, heq⟩ := bind_eq_some_iff.mp h
  cases heq
  exact ⟨stack_traverse hwf .base htraverse, rfl⟩

theorem walked_of_stepInto (hwf : v.WellFormed) (hd : v.Shown nd.path.mnt d)
    (hbelow : v.AtTop nd.root → v.Below nd.root nd.path → v.Below nd.root ⟨nd.path.mnt, d⟩)
    (h : v.stepInto fuel nd d = some nd') : Walked v nd v nd' := by
  obtain ⟨hstack, hroot⟩ := stepInto_eq hwf h
  exact ⟨hwf, .refl v, hstack.valid hd, hroot,
    fun htop hpath => hstack.isBelow.trans (hbelow htop hpath)⟩

theorem below_dParent (htop : v.AtTop root) (hne : p.dentry ≠ v.mntRoot p.mnt)
    (h : v.Below root p) : v.Below root ⟨p.mnt, v.dParent p.dentry⟩ := by
  refine h.up_of_ne ?_ (up_of_ne hne)
  rintro rfl
  exact hne htop.1

section

variable (hwf : v.WellFormed)
include hwf

theorem walked_of_handleDots (hpath : v.Valid nd.path)
    (h : v.handleDots fuel nd = some nd') : Walked v nd v nd' := by
  rw [handleDots] at h
  split at h
  · obtain ⟨⟨parent, nd₁⟩, hfollow, hstep⟩ := bind_eq_some_iff.mp h
    rw [followDotdot] at hfollow
    split at hfollow
    · rename_i hroot
      obtain ⟨chosen, hchoose, hfollow⟩ := bind_eq_some_iff.mp hfollow
      cases chosen with
      | none =>
        cases hfollow
        exact walked_of_stepInto hwf hpath (fun _ hbelow => hbelow) hstep
      | some path =>
        cases hfollow
        obtain ⟨hclimb, hbelow⟩ := climb_of_chooseMountpoint hchoose
        have heq : nd.path = ⟨nd.path.mnt, v.mntRoot nd.path.mnt⟩ := by rw [← hroot]
        have hshown := ((hclimb.valid hwf).parent hclimb.ne_mntRoot).2.2
        obtain ⟨hstack, hsame⟩ := stepInto_eq hwf hstep
        refine ⟨hwf, .refl v, hstack.valid hshown, hsame, fun htop hpath => ?_⟩
        refine hstack.isBelow.trans (below_dParent htop hclimb.ne_mntRoot (hbelow (heq ▸ hpath) ?_))
        -- the walk is not in the root: there is nothing to climb to from there
        intro hr
        have hontop := htop.2
        rw [hr] at hontop
        exact hclimb.not_onTop hontop
    · rename_i hne
      cases hfollow
      exact walked_of_stepInto hwf (hpath.parent hne).2.2
        (fun htop hbelow => below_dParent htop hne hbelow) hstep
  · cases h
    exact .refl hwf hpath

theorem ne_mntRoot_of_child (hd : v.Shown m d)
    (hc : c < v.nextDentry) (hparent : v.dParent c = d) (hcd : c ≠ d) : c ≠ v.mntRoot m := by
  obtain ⟨depth, hdepth⟩ := hwf.dentries
  have hle : depth (v.mntRoot m) ≤ depth d := by
    clear hparent hcd
    induction hd with
    | root => exact Nat.le_refl _
    | child hlt hself _ ih => exact Nat.le_trans ih (Nat.le_of_lt (hdepth _ hlt hself))
  rintro rfl
  have hlt := hdepth _ hc (by rw [hparent]; exact hcd.symm)
  rw [hparent] at hlt
  exact absurd hlt (Nat.not_lt.mpr hle)

section

variable (hpath : v.Valid nd.path)
include hpath

theorem walked_of_child
    (hc : c < v.nextDentry) (hparent : v.dParent c = nd.path.dentry) (hne : c ≠ nd.path.dentry)
    (h : v.stepInto fuel nd c = some nd') : Walked v nd v nd' := by
  have hroot : c ≠ v.mntRoot nd.path.mnt := ne_mntRoot_of_child hwf hpath hc hparent hne
  refine walked_of_stepInto hwf ?_ (fun _ hbelow => ?_) h
  · refine .child hc ?_ ?_
    · rw [hparent]
      exact hne.symm
    · rw [hparent]
      exact hpath
  · have hup : v.up ⟨nd.path.mnt, c⟩ = some nd.path := by
      rw [up_of_ne hroot, hparent]
    exact .under hup hbelow

theorem walked_of_walkComponent
    (h : v.walkComponent fuel nd = some (err, v', nd')) : Walked v nd v' nd' := by
  rw [walkComponent] at h
  split at h
  · obtain ⟨nd₁, hdots, heq⟩ := bind_eq_some_iff.mp h
    obtain ⟨-, rfl, rfl⟩ := some.inj heq
    exact walked_of_handleDots hwf hpath hdots
  · split at h
    · rename_i c hc
      obtain ⟨nd₁, hstep, heq⟩ := bind_eq_some_iff.mp h
      obtain ⟨-, rfl, rfl⟩ := some.inj heq
      obtain ⟨hlt, hparent, hne⟩ := hwf.subdirs _ _ (List.mem_of_find?_eq_some hc)
      exact walked_of_child hwf hpath hlt hparent hne hstep
    · split at h
      · obtain ⟨-, rfl, rfl⟩ := some.inj h
        exact .refl hwf hpath
      · rename_i c v₁ hslow
        obtain ⟨nd₁, hstep, heq⟩ := bind_eq_some_iff.mp h
        obtain ⟨-, rfl, rfl⟩ := some.inj heq
        obtain ⟨hwf₁, hgrown, hlt, hparent, hne⟩ := lookupSlow_eq hwf (hwf.lt_of_shown hpath) hslow
        have hsame : Walked v nd v' nd :=
          ⟨hwf₁, hgrown, hgrown.shown hpath, rfl, fun _ hbelow => hgrown.isBelow hwf hpath hbelow⟩
        exact hsame.trans (walked_of_child hwf₁ hsame.valid hlt hparent hne hstep)

theorem walked_of_linkPathLoop {n : Nat} (h : linkPathLoop fuel n v name nd = some (err, v', nd')) :
    Walked v nd v' nd' := by
  induction n generalizing v nd name with
  | zero => contradiction
  | succ n ih =>
    rw [linkPathLoop] at h
    simp only at h
    have hlast : ∀ last lastType, Walked v nd v { nd with last, lastType } :=
      fun _ _ => ⟨hwf, .refl v, hpath, rfl, fun _ hbelow => hbelow⟩
    split at h
    · obtain ⟨-, rfl, rfl⟩ := some.inj h
      exact hlast _ _
    · obtain ⟨⟨err₁, v₁, nd₁⟩, hwalk, h⟩ := bind_eq_some_iff.mp h
      have hwalked := (hlast _ _).trans (walked_of_walkComponent hwf (by exact hpath) hwalk)
      split at h
      · obtain ⟨-, rfl, rfl⟩ := some.inj h
        exact hwalked
      · exact hwalked.trans (ih hwalked.wellFormed hwalked.valid h)

theorem walked_of_linkPathWalk (h : v.linkPathWalk fuel name nd = some (err, v', nd')) :
    Walked v nd v' nd' := by
  have hlast : Walked v nd v { nd with lastType := .root } :=
    ⟨hwf, .refl v, hpath, rfl, fun _ hbelow => hbelow⟩
  rw [linkPathWalk] at h
  split at h
  · obtain ⟨-, rfl, rfl⟩ := some.inj h
    exact hlast
  · exact hlast.trans (walked_of_linkPathLoop hwf (by exact hpath) h)

end

end

end Walk

/-- A lookup that succeeds ends in a path that is there, below a root at the top. -/
theorem pathLookupat_eq {fs : TaskFs} {r : Except Int Path}
    (hwf : v.WellFormed) (hroot : v.Valid fs.root) (hpwd : v.Valid fs.pwd)
    (h : v.pathLookupat fuel fs name = some (r, v')) :
    v'.WellFormed ∧ Grown v v' ∧ ∀ p, r = .ok p → v'.Valid p ∧
      (v.AtTop fs.root → v.Below fs.root fs.pwd → v'.Below fs.root p) := by
  have hstart : v.Valid (pathInit fs name).path := by
    rw [pathInit]
    split
    · exact hroot
    · exact hpwd
  have hbelow : v.Below fs.root fs.pwd → v.Below fs.root (pathInit fs name).path := by
    intro hpwd
    rw [pathInit]
    split
    · exact .root
    · exact hpwd
  obtain ⟨⟨err, v₁, nd₁⟩, hlink, h⟩ := bind_eq_some_iff.mp h
  have hwalked := walked_of_linkPathWalk hwf hstart hlink
  simp only at h
  split at h
  · cases h
    exact ⟨hwalked.wellFormed, hwalked.grown, nofun⟩
  · obtain ⟨⟨err₂, v₂, nd₂⟩, hwalk, h⟩ := bind_eq_some_iff.mp h
    have hwalked₂ := hwalked.trans (walked_of_walkComponent hwalked.wellFormed hwalked.valid hwalk)
    split at h
    · cases h
      exact ⟨hwalked₂.wellFormed, hwalked₂.grown, nofun⟩
    · cases h
      refine ⟨hwalked₂.wellFormed, hwalked₂.grown, ?_⟩
      rintro p ⟨⟩
      exact ⟨hwalked₂.valid, fun htop hpwd => hwalked₂.confined htop (hbelow hpwd)⟩

/-! ## Roots -/

/-- No lookup with this root, from a working directory below it, leads out of it. -/
def Confines (v : Vfs) (root : Path) : Prop :=
  ∀ fuel pwd name v' p, v.Valid pwd → v.Below root pwd →
    v.pathLookupat fuel ⟨root, pwd⟩ name = some (.ok p, v') → v'.Below root p

theorem pathLookupat_dotdot (fuel : Nat) :
    v.pathLookupat fuel ⟨root, root⟩ ['/', '.', '.'] =
      (v.handleDots fuel ⟨root, root, ['.', '.'], .dotdot⟩).map fun nd => (.ok nd.path, v) := by
  have hlink : v.linkPathWalk fuel ['/', '.', '.'] (pathInit ⟨root, root⟩ ['/', '.', '.']) =
      some (0, v, ⟨root, root, ['.', '.'], .dotdot⟩) := rfl
  rw [pathLookupat, hlink]
  simp only [bind_eq_bind, bind_some, ne_eq, not_true_eq_false, if_false,
    walkComponent, reduceCtorEq, not_false_eq_true, if_true]
  cases v.handleDots fuel ⟨root, root, ['.', '.'], .dotdot⟩ <;> rfl

/-- The place above: the root, or the end of the climb from it, has a parent, and the lookup ends on
top of what is mounted there. -/
theorem exists_dotdot (hwf : v.WellFormed) (htop : ¬ v.AtTop root) :
    ∃ fuel above q, (above = root ∨ v.Climb root.mnt above ∧ root.dentry = v.mntRoot root.mnt) ∧
      above.dentry ≠ v.mntRoot above.mnt ∧ v.Stack ⟨above.mnt, v.dParent above.dentry⟩ q ∧
      v.pathLookupat fuel ⟨root, root⟩ ['/', '.', '.'] = some (.ok q, v) := by
  obtain ⟨rank, bound, hrank⟩ := hwf.mounts
  have hfuel := hrank root.mnt
  obtain ⟨above, habove, hne, hfollow⟩ : ∃ above,
      (above = root ∨ v.Climb root.mnt above ∧ root.dentry = v.mntRoot root.mnt) ∧
      above.dentry ≠ v.mntRoot above.mnt ∧
      v.followDotdot (bound + 1) ⟨root, root, ['.', '.'], .dotdot⟩ =
        some (some (v.dParent above.dentry), ⟨above, root, ['.', '.'], .dotdot⟩) := by
    by_cases hdentry : root.dentry = v.mntRoot root.mnt
    · have heq : root = ⟨root.mnt, v.mntRoot root.mnt⟩ := by rw [← hdentry]
      have hself : v.Below ⟨root.mnt, v.mntRoot root.mnt⟩ root := heq ▸ .root
      obtain ⟨q, hchoose⟩ : ∃ q, v.chooseMountpoint root (bound + 1) root.mnt = some (some q) :=
        exists_chooseMountpoint hwf (fun m => (hrank m).2) hself (fun hon => htop ⟨hdentry, hon⟩)
          (by omega)
      have hclimb := (climb_of_chooseMountpoint hchoose).1
      refine ⟨q, .inr ⟨hclimb, hdentry⟩, hclimb.ne_mntRoot, ?_⟩
      rw [followDotdot, if_pos hdentry, hchoose]
      rfl
    · exact ⟨root, .inl rfl, hdentry, if_neg hdentry⟩
  obtain ⟨q, htraverse⟩ : ∃ q, v.traverseMounts (bound + 1)
      ⟨above.mnt, v.dParent above.dentry⟩ = some q :=
    traverse_isSome hwf hrank (by simp only; omega)
  refine ⟨bound + 1, above, q, habove, hne, stack_traverse hwf .base htraverse, ?_⟩
  rw [pathLookupat_dotdot, handleDots, if_pos rfl, hfollow]
  simp [stepInto, htraverse]

theorem confines_iff (hwf : v.WellFormed) (hroot : v.Valid root) :
    v.Confines root ↔ v.AtTop root := by
  constructor
  · intro hconfines
    by_contra htop
    obtain ⟨fuel, above, q, habove, hne, hstack, hlookup⟩ := exists_dotdot hwf htop
    have hup : v.up above = some ⟨above.mnt, v.dParent above.dentry⟩ := up_of_ne hne
    have hvalid : v.Valid above := by
      rcases habove with rfl | ⟨hclimb, -⟩
      · exact hroot
      · exact hclimb.valid hwf
    have hover : v.Below above root := by
      rcases habove with rfl | ⟨hclimb, hdentry⟩
      · exact .root
      · have hbelow := hclimb.isBelow
        rwa [← hdentry] at hbelow
    have hbelow := hconfines fuel root _ v q hroot .root hlookup
    rcases hstack.below_or hbelow with hp | ⟨hinside, hroot_ne⟩
    · exact hwf.not_below_up hvalid hup (hp.trans hover)
    · rcases habove with rfl | ⟨hclimb, -⟩
      · -- what is inside the stack is the root of a mount
        exact hne (hinside.eq_mntRoot hroot_ne)
      · exact hwf.not_below_up hvalid hup (hinside.climb hroot_ne hclimb)
  · intro htop fuel pwd name v' p hpwd hbelow hlookup
    obtain ⟨-, -, hok⟩ := pathLookupat_eq hwf hroot hpwd hlookup
    exact (hok p rfl).2 htop hbelow

/-- A root set by `init_chroot` confines the lookups exactly when it is the root of a mount without
a parent, or that covers the root of such a mount. -/
theorem initChroot_confines_iff {fuel : Nat} {fs fs' : TaskFs} {filename : List Char}
    (hwf : v.WellFormed) (hroot : v.Valid fs.root) (hpwd : v.Valid fs.pwd)
    (h : v.initChroot fuel fs filename = some (0, fs', v')) :
    v'.Confines fs'.root ↔ v'.AtTop fs'.root := by
  obtain ⟨⟨r, v₁⟩, hlookup, h⟩ := bind_eq_some_iff.mp h
  obtain ⟨hwf₁, hgrown, hok⟩ := pathLookupat_eq hwf hroot hpwd hlookup
  cases r with
  | error err =>
    obtain ⟨-, rfl, rfl⟩ := some.inj h
    exact confines_iff hwf₁ (hgrown.shown hroot)
  | ok path =>
    obtain ⟨-, rfl, rfl⟩ := some.inj h
    exact confines_iff hwf₁ (hok path rfl).1

/-- One mount, with the directory `a` in its root. -/
def single : Vfs where
  mntRoot := fun _ => 0
  mntMountpoint := fun _ => 0
  mntParent := id
  mntMounts := fun _ => []
  dParent := fun _ => 0
  dName := fun d => if d = 1 then ['a'] else []
  dSubdirs := fun d => if d = 0 then [1] else []
  nextDentry := 2
  iLookup := fun _ _ => false

theorem wellFormed_single : single.WellFormed := by
  refine ⟨⟨fun _ => 0, 1, fun m => ⟨Nat.one_pos, fun h => absurd rfl h⟩⟩, ⟨id, fun d _ hd => ?_⟩,
    fun _ _ => Nat.two_pos, nofun, fun m hm => absurd rfl hm, fun _ => Nat.two_pos, ?_⟩
  · exact Nat.pos_of_ne_zero fun h => hd h.symm
  · intro d c hc
    by_cases hd : d = 0
    · subst hd
      obtain rfl : c = 1 := by simpa [single] using hc
      exact ⟨by decide, rfl, by decide⟩
    · simp [single, hd] at hc

/-- After `init_chroot ("/a")` the path `/..` leads to the directory that holds `a`. -/
theorem chroot_left : ∃ fs' v', single.initChroot 3 ⟨⟨0, 0⟩, ⟨0, 0⟩⟩ ['/', 'a'] = some (0, fs', v') ∧
    v'.pathLookupat 3 ⟨fs'.root, fs'.root⟩ ['/', '.', '.'] = some (.ok ⟨0, 0⟩, v') ∧
    ¬ v'.Below fs'.root ⟨0, 0⟩ := by
  refine ⟨⟨⟨0, 1⟩, ⟨0, 0⟩⟩, single, rfl, rfl, ?_⟩
  intro hbelow
  cases hbelow with
  | under hup _ => exact absurd hup nofun

/-- A root inside the only mount. -/
theorem initChroot_confines_iff_single :
    single.initChroot 3 ⟨⟨0, 0⟩, ⟨0, 0⟩⟩ ['/', 'a'] = some (0, ⟨⟨0, 1⟩, ⟨0, 0⟩⟩, single) ∧
    (single.Confines ⟨0, 1⟩ ↔ single.AtTop ⟨0, 1⟩) := by
  have hvalid : single.Valid ⟨0, 0⟩ := single.valid_mntRoot 0
  have hchroot : single.initChroot 3 ⟨⟨0, 0⟩, ⟨0, 0⟩⟩ ['/', 'a'] =
      some (0, ⟨⟨0, 1⟩, ⟨0, 0⟩⟩, single) := rfl
  exact ⟨hchroot, initChroot_confines_iff wellFormed_single hvalid hvalid hchroot⟩

end MyOS2.Namei.Vfs
