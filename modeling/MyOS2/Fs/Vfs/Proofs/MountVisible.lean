import MyOS2.Fs.Vfs.Proofs.Namespace

/-!
# What a mount hides and shows

After a mount the walk that has found its place finds the same dentries again, and
goes on into the new mount where it stepped onto the place.
-/

namespace MyOS2.Namei

open Option Dcache

namespace Dcache

variable {c c' c₁ : Dcache} {fuel fuel' : Nat} {nd nd' : Nameidata} {place p q root : Path}
  {k m : MntId}

theorem path_eq (hmnt : p.mnt = q.mnt) (hdentry : p.dentry = q.dentry) : p = q := by
  cases p
  cases q
  exact congr (congrArg Path.mk hmnt) hdentry

theorem traverseMounts_of_free {v : Vfs} (hfree : v.lookupMnt p = none)
    (hq : v.traverseMounts fuel p = some q) : q = p := by
  cases fuel with
  | zero => contradiction
  | succ fuel =>
    rw [Vfs.traverseMounts, hfree] at hq
    exact (some.inj hq).symm

/-- Mount `k` has been put on `place`, and nothing else has changed. -/
structure Mounted (c c' : Dcache) (place : Path) (k : MntId) : Prop where
  cached : c.Cached c'
  mntRoot : ∀ m, m ≠ k → c'.mntRoot m = c.mntRoot m
  mntParent : ∀ m, m ≠ k → c'.mntParent m = c.mntParent m
  mntMountpoint : ∀ m, m ≠ k → c'.mntMountpoint m = c.mntMountpoint m
  mntMounts : ∀ m, m ≠ place.mnt → c'.mntMounts m = c.mntMounts m
  mounts_place : c'.mntMounts place.mnt = c.mntMounts place.mnt ++ [k]
  parent : c'.mntParent k = place.mnt
  mountpoint : c'.mntMountpoint k = place.dentry
  ne : place.mnt ≠ k
  free : c.lookupMnt place = none
  empty : c.mntMounts k = []
  not_mounted : ∀ m, k ∉ c.mntMounts m
  not_parent : ∀ m, m ≠ k → c.mntParent m ≠ k

namespace Mounted

theorem of_extends (hext : c.Extends c₁) (h : c₁.Mounted c' place k) : c.Mounted c' place k := by
  have hlookup : c₁.lookupMnt place = c.lookupMnt place := by
    rw [Vfs.lookupMnt, Vfs.lookupMnt, hext.mntMounts, hext.mntParent, hext.mntMountpoint]
  refine ⟨hext.toCached.trans h.cached, ?_, ?_, ?_, ?_, ?_, h.parent, h.mountpoint, h.ne,
    hlookup ▸ h.free, ?_, ?_, ?_⟩
  · exact hext.mntRoot ▸ h.mntRoot
  · exact hext.mntParent ▸ h.mntParent
  · exact hext.mntMountpoint ▸ h.mntMountpoint
  · exact hext.mntMounts ▸ h.mntMounts
  · exact hext.mntMounts ▸ h.mounts_place
  · exact hext.mntMounts ▸ h.empty
  · exact hext.mntMounts ▸ h.not_mounted
  · exact hext.mntParent ▸ h.not_parent

def redirect (c' : Dcache) (place : Path) (k : MntId) (q : Path) : Path :=
  if q = place then ⟨k, c'.mntRoot k⟩ else q

section

variable (h : c.Mounted c' place k)
include h

theorem lookupMnt : c'.lookupMnt p = if p = place then some k else c.lookupMnt p := by
  have hold : (c.mntMounts p.mnt).find?
      (fun x => c'.mntParent x == p.mnt && c'.mntMountpoint x == p.dentry) = c.lookupMnt p := by
    refine List.find?_congr fun x hx => ?_
    have hne : x ≠ k := fun heq => h.not_mounted _ (heq ▸ hx)
    rw [h.mntParent x hne, h.mntMountpoint x hne]
  rw [Vfs.lookupMnt]
  by_cases hmnt : p.mnt = place.mnt
  · have hnew : ([k].find? fun x => c'.mntParent x == p.mnt && c'.mntMountpoint x == p.dentry) =
        if p = place then some k else none := by
      by_cases hp : p = place
      · simp [hp, h.parent, h.mountpoint]
      · have hd : place.dentry ≠ p.dentry := fun heq => hp (path_eq hmnt heq.symm)
        simp [hp, h.mountpoint, hd]
    rw [hmnt, h.mounts_place, ← hmnt, List.find?_append, hold, hnew]
    by_cases hp : p = place
    · simp [hp, h.free]
    · simp [hp]
  · have hp : p ≠ place := fun heq => hmnt (heq ▸ rfl)
    rw [h.mntMounts _ hmnt, hold, if_neg hp]

theorem lookupMnt_new (d : DentryId) : c'.lookupMnt ⟨k, d⟩ = none := by
  rw [Vfs.lookupMnt, h.mntMounts k h.ne.symm, h.empty]
  rfl

theorem traverseMounts {q' : Path}
    (hq : c.traverseMounts fuel p = some q) (hq' : c'.traverseMounts fuel' p = some q') :
    q' = redirect c' place k q := by
  induction fuel generalizing p fuel' with
  | zero => contradiction
  | succ fuel ih =>
    cases fuel' with
    | zero => contradiction
    | succ fuel' =>
      rw [Vfs.traverseMounts] at hq hq'
      rw [h.lookupMnt] at hq'
      cases hp : c.lookupMnt p with
      | some j =>
        have hne : p ≠ place := by
          rintro rfl
          simp [h.free] at hp
        have hjk : j ≠ k := by
          rintro rfl
          exact h.not_mounted _ (List.mem_of_find?_eq_some hp)
        rw [hp] at hq hq'
        rw [if_neg hne] at hq'
        dsimp only at hq hq'
        rw [h.mntRoot j hjk] at hq'
        exact ih hq hq'
      | none =>
        rw [hp] at hq hq'
        obtain rfl := some.inj hq
        by_cases hplace : p = place
        · rw [if_pos hplace] at hq'
          cases fuel' with
          | zero => contradiction
          | succ fuel' =>
            simp only [Vfs.traverseMounts, h.lookupMnt_new] at hq'
            rw [redirect, if_pos hplace]
            exact (some.inj hq').symm
        · rw [if_neg hplace] at hq'
          rw [redirect, if_neg hplace]
          exact (some.inj hq').symm

theorem chooseMountpoint (hm : m ≠ k) {out out' : Option Path}
    (hout : c.chooseMountpoint root fuel m = some out)
    (hout' : c'.chooseMountpoint root fuel' m = some out') : out' = out := by
  induction fuel generalizing m fuel' with
  | zero => contradiction
  | succ fuel ih =>
    cases fuel' with
    | zero => contradiction
    | succ fuel' =>
      have hparent := h.not_parent m hm
      have hhas : c'.mntHasParent m = c.mntHasParent m := by
        rw [Vfs.mntHasParent, Vfs.mntHasParent, h.mntParent m hm]
      rw [Vfs.chooseMountpoint] at hout hout'
      rw [hhas] at hout'
      simp only [h.mntParent m hm, h.mntMountpoint m hm, h.mntRoot _ hparent] at hout'
      split at hout
      · rename_i hyes
        rw [if_pos hyes] at hout'
        dsimp only at hout
        split at hout
        · rename_i hstop
          rw [if_pos hstop] at hout'
          exact some.inj (hout'.symm.trans hout)
        · rename_i hgo
          rw [if_neg hgo] at hout'
          split at hout
          · rename_i hinside
            rw [if_pos hinside] at hout'
            exact some.inj (hout'.symm.trans hout)
          · rename_i hcovers
            rw [if_neg hcovers] at hout'
            exact ih hparent hout hout'
      · rename_i hno
        rw [if_neg hno] at hout'
        exact some.inj (hout'.symm.trans hout)

/-- The search from the new mount comes to its place first. -/
theorem chooseMountpoint_new (hroot : root ≠ place) {out : Option Path}
    (hout : c'.chooseMountpoint root fuel' k = some out) :
    (place.dentry ≠ c.mntRoot place.mnt ∧ out = some place) ∨
      (place.dentry = c.mntRoot place.mnt ∧
        ∃ fuel'', c'.chooseMountpoint root fuel'' place.mnt = some out) := by
  cases fuel' with
  | zero => contradiction
  | succ fuel' =>
    have hhas : c'.mntHasParent k = true := by simp [Vfs.mntHasParent, h.parent, h.ne.symm]
    have hstop : ¬ (root.dentry = place.dentry ∧ root.mnt = place.mnt) :=
      fun heq => hroot (path_eq heq.2 heq.1)
    simp only [Vfs.chooseMountpoint, hhas, if_true, h.parent, h.mountpoint, if_neg hstop,
      h.mntRoot _ h.ne] at hout
    split at hout
    · rename_i hinside
      exact .inl ⟨hinside, (some.inj hout).symm⟩
    · rename_i hcovers
      exact .inr ⟨not_not.mp hcovers, _, hout⟩

end

variable {d : DentryId}

theorem stepInto (h : c.Mounted c' place k) (hwf : c'.toVfs.WellFormed) (hfuel : c'.Enough fuel')
    (hstep : c.stepInto fuel nd d = some nd') :
    c'.stepInto fuel' nd d = some { nd' with path := redirect c' place k nd'.path } := by
  obtain ⟨q, hq, heq⟩ := bind_eq_some_iff.mp hstep
  cases heq
  obtain ⟨q', hq'⟩ := exists_traverse hwf hfuel ⟨nd.path.mnt, d⟩
  rw [Vfs.stepInto, hq', h.traverseMounts hq hq']
  rfl

theorem stepInto_parent (h : c.Mounted c' place k) (hwf : c'.toVfs.WellFormed)
    (hfuel : c'.Enough fuel') (hlt : d < c.nextDentry)
    (hstep : c.stepInto fuel nd (c.dParent d) = some nd') :
    c'.stepInto fuel' nd (c'.dParent d) =
      some { nd' with path := redirect c' place k nd'.path } := by
  rw [h.cached.dParent d hlt]
  exact h.stepInto hwf hfuel hstep

section

variable (hwf : c.toVfs.WellFormed) (hwf' : c'.toVfs.WellFormed) (hfuel : c'.Enough fuel')
  (hvalid : c.Valid nd.path) (hmnt : nd.path.mnt ≠ k)
include hwf hwf' hfuel hvalid hmnt

theorem handleDots (h : c.Mounted c' place k) (htype : nd.lastType = .dotdot)
    (hdots : c.handleDots fuel nd = some nd') :
    c'.handleDots fuel' nd = some { nd' with path := redirect c' place k nd'.path } := by
  rw [Vfs.handleDots, if_pos htype] at hdots ⊢
  obtain ⟨⟨up, nd₁⟩, hfollow, hstep⟩ := bind_eq_some_iff.mp hdots
  rw [Vfs.followDotdot] at hfollow ⊢
  rw [h.mntRoot _ hmnt]
  split at hfollow
  · rename_i hroot
    obtain ⟨chosen, hchoose, hfollow⟩ := bind_eq_some_iff.mp hfollow
    obtain ⟨chosen', hchoose'⟩ := exists_choose hfuel nd.root nd.path.mnt
    obtain rfl := h.chooseMountpoint hmnt hchoose hchoose'
    rw [if_pos hroot]
    cases chosen' with
    | none =>
      cases hfollow
      simpa [hchoose'] using h.stepInto hwf' hfuel hstep
    | some path =>
      cases hfollow
      have hlt := hwf.lt_of_shown ((Vfs.climb_of_chooseMountpoint hchoose).1.valid hwf)
      simpa [hchoose'] using h.stepInto_parent hwf' hfuel hlt hstep
  · rename_i hroot
    cases hfollow
    rw [if_neg hroot]
    exact h.stepInto_parent hwf' hfuel (hwf.lt_of_shown hvalid) hstep

omit hmnt in
/-- `..` leads from the root of the new mount to where it led from the place. -/
theorem handleDots_new (h : c.Mounted c' nd.path k) (hroot : nd.root ≠ nd.path)
    (htype : nd.lastType = .dotdot) (hdots : c.handleDots fuel nd = some nd') :
    c'.handleDots fuel' { nd with path := ⟨k, c'.mntRoot k⟩ } =
      some { nd' with path := redirect c' nd.path k nd'.path } := by
  obtain ⟨out, hout⟩ := exists_choose hfuel nd.root k
  rw [Vfs.handleDots, if_pos htype] at hdots ⊢
  obtain ⟨⟨up, nd₁⟩, hfollow, hstep⟩ := bind_eq_some_iff.mp hdots
  rw [Vfs.followDotdot] at hfollow ⊢
  rw [if_pos rfl, hout]
  rcases h.chooseMountpoint_new hroot hout with ⟨hinside, rfl⟩ | ⟨hcovers, fuel'', hchoose'⟩
  · rw [if_neg hinside] at hfollow
    cases hfollow
    exact h.stepInto_parent hwf' hfuel (hwf.lt_of_shown hvalid) hstep
  · rw [if_pos hcovers] at hfollow
    obtain ⟨chosen, hchoose, hfollow⟩ := bind_eq_some_iff.mp hfollow
    obtain rfl := h.chooseMountpoint h.ne hchoose hchoose'
    cases out with
    | none =>
      cases hfollow
      -- nothing is mounted on the place before, nor on the root of the new mount
      obtain ⟨q, hq, heq⟩ := bind_eq_some_iff.mp hstep
      cases heq
      obtain rfl := traverseMounts_of_free h.free hq
      obtain ⟨q', hq'⟩ := exists_traverse hwf' hfuel ⟨k, c'.mntRoot k⟩
      obtain rfl := traverseMounts_of_free (h.lookupMnt_new _) hq'
      simp [Vfs.stepInto, hq', redirect]
    | some path =>
      cases hfollow
      have hlt := hwf.lt_of_shown ((Vfs.climb_of_chooseMountpoint hchoose).1.valid hwf)
      exact h.stepInto_parent hwf' hfuel hlt hstep

/-- A component that is not `.` leads to where it led before, and on into the new mount. -/
theorem walkComponent (h : c₁.Mounted c' place k)
    (htype : nd.lastType = .norm ∨ nd.lastType = .dotdot)
    (hwalk : c.walkComponent fuel nd = some (0, c₁, nd')) :
    c'.walkComponent fuel' nd =
      some (0, c', { nd' with path := redirect c' place k nd'.path }) := by
  have hlt := hwf.lt_of_shown hvalid
  have hext := extends_of_walkComponent hwalk
  have hwf₁ := (walked_of_walkComponent hwf hvalid hwalk).wellFormed
  -- the name is in the cache by now
  have hname : ∀ x, nd.lastType = .norm → c₁.dLookup nd.path.dentry nd.last = some x →
      c₁.stepInto fuel nd x = some nd' → c'.walkComponent fuel' nd =
        some (0, c', { nd' with path := redirect c' place k nd'.path }) := by
    intro x htype hx hstep
    have hx' := h.cached.dLookup hwf₁ (Nat.lt_of_lt_of_le hlt hext.nextDentry) hx
    simp [Dcache.walkComponent, htype, hx', h.stepInto hwf' hfuel hstep]
  generalize herr : (0 : Int) = err at hwalk
  cases moves_of_walkComponent hwalk with
  | dots hnot hdots =>
    have hdotdot := htype.resolve_left hnot
    rw [walkComponent, if_pos hnot, h.handleDots hwf hwf' hfuel hvalid hmnt hdotdot hdots]
    rfl
  | cached hnorm hx hstep => exact hname _ hnorm hx hstep
  | missing => exact absurd herr (by decide)
  | found hnorm hnone _ _ hstep => exact hname _ hnorm (dLookup_addChild hwf hnone) hstep

end

theorem lastTypeOf_cases {last : Name} (hdot : last ≠ ['.']) :
    Vfs.lastTypeOf last = .norm ∨ Vfs.lastTypeOf last = .dotdot := by
  by_cases hdotdot : last = ['.', '.']
  · exact .inr (by simp [Vfs.lastTypeOf, hdotdot])
  · exact .inl (by simp [Vfs.lastTypeOf, hdotdot, hdot])

/-- Where the walk is after the mount: where it was before, or, if it has come to the place and goes
on with `..`, at the root of the new mount. -/
def Follows (c' : Dcache) (place : Path) (k : MntId) (pieces : List Name) (nd : Nameidata) (p : Path) :
    Prop :=
  p = nd.path ∨ nd.path = place ∧ nd.root ≠ place ∧ p = ⟨k, c'.mntRoot k⟩ ∧ [['.', '.']] <+: pieces

theorem walkComponent_follows {last : Name} {rest : List Name} (h : c₁.Mounted c' place k)
    (hwf : c.toVfs.WellFormed) (hwf' : c'.toVfs.WellFormed) (hfuel : c'.Enough fuel')
    (hvalid : c.Valid nd.path) (hmnt : nd.path.mnt ≠ k) (hdot : last ≠ ['.'])
    (hfollows : Follows c' place k (last :: rest) nd p)
    (hwalk : c.walkComponent fuel { nd with last, lastType := Vfs.lastTypeOf last } =
      some (0, c₁, nd')) :
    c'.walkComponent fuel' { nd with path := p, last, lastType := Vfs.lastTypeOf last } =
      some (0, c', { nd' with path := redirect c' place k nd'.path }) := by
  rcases hfollows with rfl | ⟨rfl, hroot, rfl, hnext⟩
  · exact h.walkComponent hwf hwf' hfuel (by exact hvalid) (by exact hmnt) (lastTypeOf_cases hdot) hwalk
  · obtain rfl : ['.', '.'] = last := (List.cons_prefix_cons.mp hnext).1
    have htype : Vfs.lastTypeOf ['.', '.'] = .dotdot := by decide
    rw [htype] at hwalk ⊢
    cases moves_of_walkComponent hwalk with
    | dots hnot hdots =>
      have hreplay := handleDots_new hwf hwf' hfuel (by exact hvalid) (by exact h) (by exact hroot)
        rfl hdots
      rw [Dcache.walkComponent, if_pos (by exact hnot), hreplay]
      rfl
    | cached hnorm => contradiction
    | found hnorm => contradiction

/-- A walk without `.` that leaves the place again with `..` whenever it comes to it before its end
ends in the new mount. -/
theorem walkPieces {pieces : List Name} (h : c₁.Mounted c' nd'.path k)
    (hwf : c.toVfs.WellFormed) (hwf' : c'.toVfs.WellFormed) (hfuel : c'.Enough fuel')
    (hvalid : c.Valid nd.path) (hmnt : nd.path.mnt ≠ k) (hdots : ∀ a ∈ pieces, a ≠ ['.'])
    (hne : pieces ≠ []) (hfollows : Follows c' nd'.path k pieces nd p)
    (hwalk : walkPieces fuel c pieces nd = some (0, c₁, nd'))
    (hthrough : ∀ l, l <+: pieces → l ≠ [] → l ≠ pieces → ∀ c₂ nd₂,
      walkPieces fuel c l nd = some (0, c₂, nd₂) → nd₂.path = nd'.path →
        nd.root ≠ nd'.path ∧ l ++ [['.', '.']] <+: pieces) :
    ∃ nd₃, walkPieces fuel' c' pieces { nd with path := p } = some (0, c', nd₃) ∧
      nd₃.path = ⟨k, c'.mntRoot k⟩ := by
  induction pieces generalizing c nd p with
  | nil => exact absurd rfl hne
  | cons last rest ih =>
    obtain ⟨err₁, c₂, nd₂, hfirst, ⟨herr, hzero, -, -⟩ | ⟨rfl, hrest⟩⟩ := walkPieces_cons hwalk
    · exact absurd hzero.symm herr
    have hm := h.of_extends (extends_of_walkPieces hrest)
    have hreplay := hm.walkComponent_follows hwf hwf' hfuel hvalid hmnt
      (hdots last List.mem_cons_self) hfollows hfirst
    have hwalked := walked_of_walkComponent hwf (by exact hvalid) hfirst
    have hstep : ∀ l, walkPieces fuel c (last :: l) nd = walkPieces fuel c₂ l nd₂ := by
      intro l
      simp [walkPieces, hfirst]
    by_cases hnil : rest = []
    · subst hnil
      obtain ⟨-, -, rfl⟩ := some.inj hrest
      exact ⟨_, walkPieces_singleton.trans hreplay, if_pos rfl⟩
    · have hmnt₂ : nd₂.path.mnt ≠ k := by
        have hnot := (hm.of_extends (extends_of_walkComponent hfirst))
        refine mnt_of_walkComponent (P := (· ≠ k)) hnot.not_parent (fun m _ j hj heq => ?_)
          (by exact hmnt) hfirst
        exact hnot.not_mounted m (heq ▸ hj)
      have hroot₂ : nd₂.root = nd.root := hwalked.root
      have hfollows₂ : Follows c' nd'.path k rest nd₂ (redirect c' nd'.path k nd₂.path) := by
        by_cases hplace : nd₂.path = nd'.path
        · obtain ⟨hroot, hnext⟩ := hthrough [last] (by simp) (by simp) (by simpa using Ne.symm hnil)
            c₂ nd₂ (by rw [hstep]; rfl) hplace
          exact .inr ⟨hplace, hroot₂ ▸ hroot, if_pos hplace, (List.cons_prefix_cons.mp hnext).2⟩
        · exact .inl (if_neg hplace)
      obtain ⟨nd₃, hwalk₃, hpath₃⟩ := ih hwalked.wellFormed hwalked.valid hmnt₂
        (fun a ha => hdots a (List.mem_cons_of_mem _ ha)) hnil hfollows₂ hrest
        fun l hl hlne hlrest c₃ nd₃ hl₃ hplace => by
          obtain ⟨hroot, hnext⟩ := hthrough (last :: l) (by simpa using hl) (by simp)
            (by simpa using hlrest) c₃ nd₃ (by rw [hstep]; exact hl₃) hplace
          exact ⟨hroot₂ ▸ hroot, (List.cons_prefix_cons.mp hnext).2⟩
      exact ⟨nd₃, by simpa [walkPieces, hreplay] using hwalk₃, hpath₃⟩

end Mounted

/-! ## A step ends on top of the mounts -/

theorem free_of_traverseMounts {v : Vfs} (h : v.traverseMounts fuel p = some q) :
    v.lookupMnt q = none := by
  rw [← Namespace.lockMount_eq] at h
  exact Namespace.lookupMnt_of_lockMount h

theorem free_of_stepInto {v : Vfs} {d : DentryId} (h : v.stepInto fuel nd d = some nd') :
    v.lookupMnt nd'.path = none := by
  obtain ⟨q, hq, heq⟩ := bind_eq_some_iff.mp h
  cases heq
  exact free_of_traverseMounts hq

theorem free_of_handleDots {v : Vfs} (htype : nd.lastType = .dotdot)
    (h : v.handleDots fuel nd = some nd') : v.lookupMnt nd'.path = none := by
  rw [Vfs.handleDots, if_pos htype] at h
  obtain ⟨⟨up, nd₁⟩, -, hstep⟩ := bind_eq_some_iff.mp h
  cases up with
  | none => exact free_of_stepInto hstep
  | some d => exact free_of_stepInto hstep

theorem free_of_walkComponent (htype : nd.lastType = .norm ∨ nd.lastType = .dotdot)
    (h : c.walkComponent fuel nd = some (0, c', nd')) : c'.lookupMnt nd'.path = none := by
  generalize herr : (0 : Int) = err at h
  cases moves_of_walkComponent h with
  | dots hnot hdots => exact free_of_handleDots (htype.resolve_left hnot) hdots
  | cached _ _ hstep => exact free_of_stepInto hstep
  | missing => exact absurd herr (by decide)
  | found _ _ _ _ hstep => exact free_of_stepInto hstep

theorem free_of_walkPieces {pieces : List Name} (hdots : ∀ a ∈ pieces, a ≠ ['.'])
    (hne : pieces ≠ []) (h : walkPieces fuel c pieces nd = some (0, c', nd')) :
    c'.lookupMnt nd'.path = none := by
  induction pieces generalizing c nd with
  | nil => exact absurd rfl hne
  | cons last rest ih =>
    obtain ⟨err₁, c₂, nd₂, hfirst, ⟨herr, hzero, -, -⟩ | ⟨rfl, hrest⟩⟩ := walkPieces_cons h
    · exact absurd hzero.symm herr
    by_cases hnil : rest = []
    · subst hnil
      obtain ⟨-, rfl, rfl⟩ := some.inj hrest
      exact free_of_walkComponent (Mounted.lastTypeOf_cases (hdots last List.mem_cons_self)) hfirst
    · exact ih (fun a ha => hdots a (List.mem_cons_of_mem _ ha)) hnil hrest

end Dcache

namespace Namespace

variable {n n' : Namespace} {fuel fuel' : Nat} {call : MountCall} {path place : Path}

theorem mounted_graft {before : Namespace} (h : before.TreeOk) (root : DentryId) (sb : SbId)
    (hmnt : before.Attached place.mnt) (hfree : before.lookupMnt place = none) :
    before.toDcache.Mounted (before.graft root sb place).toDcache place before.nextMnt := by
  obtain ⟨hparent, hmounts⟩ := createMount_links h root sb
  have hne := Nat.ne_of_lt (hmnt.lt_nextMnt h)
  have hcached : before.toDcache.Cached (before.graft root sb place).toDcache :=
    ⟨Nat.le_refl _, fun _ _ => rfl, fun _ _ => rfl, fun _ _ => rfl, fun _ _ => List.prefix_refl _⟩
  refine ⟨hcached, fun m hm => Function.update_of_ne hm .., fun m hm => ?_, fun m hm => ?_,
    fun m hm => ?_, ?_, parent_self, mountpoint_self, hne, hfree, ?_, ?_, ?_⟩
  · rw [graft, parent_of_ne place hm, hparent]
  · rw [graft, mountpoint_of_ne hm, createMount_mountpoint_of_ne hm]
  · rw [← hmounts]
    exact Function.update_of_ne hm ..
  · rw [← hmounts]
    exact Function.update_self ..
  · exact h.mounts_eq_nil fun k hk => h.parent_ne_nextMnt hk
  · intro m hm
    obtain ⟨hself, hparent⟩ := (h.mem_mounts m _).mp hm
    exact hself ((h.unused _ (Nat.le_refl _)).symm.trans hparent)
  · exact fun m hm hparent => hm (h.parent_ne_nextMnt hparent)

/-- The components of a path that lead somewhere. -/
def moving (name : Name) : List Name := (fields '/' name).filter (· != ['.'])

/-- The path has a component other than `.`; and if a shorter path of its components, leaving out
`.`, leads to where it leads, the next component is `..` and leaves it again. -/
def ArrivesLast (n : Namespace) (fuel : Nat) (fs : TaskFs) (name : Name) : Prop :=
  moving name ≠ [] ∧ ∀ s : Name, (s.head? = some '/' ↔ name.head? = some '/') →
    moving s <+: moving name → moving s ≠ [] → moving s ≠ moving name →
    ∀ p c c', n.pathLookupat fuel fs s = some (.ok p, c) →
      n.pathLookupat fuel fs name = some (.ok p, c') →
      fs.root ≠ p ∧ moving s ++ [['.', '.']] <+: moving name

theorem pathLookupat_moving {c : Dcache} {fs : TaskFs} {name : Name} :
    c.pathLookupat fuel fs name =
      (walkPieces fuel c (moving name) (Vfs.pathInit fs name)).map lookupResult := by
  rw [pathLookupat_eq_walkPieces, moving, walkPieces_filter]

/-- The condition for the components of the path themselves: each shorter run is that of a path. -/
theorem ArrivesLast.through {fs : TaskFs} {name : Name} {c₁ : Dcache}
    (h : n.ArrivesLast fuel fs name) (hlookup : n.pathLookupat fuel fs name = some (.ok place, c₁))
    (l : List Name) (hl : l <+: moving name) (hne : l ≠ []) (hname : l ≠ moving name) (c₂ : Dcache)
    (nd₂ : Nameidata)
    (hwalk : walkPieces fuel n.toDcache l (Vfs.pathInit fs name) = some (0, c₂, nd₂))
    (hplace : nd₂.path = place) : fs.root ≠ place ∧ l ++ [['.', '.']] <+: moving name := by
  obtain ⟨s, hhead, hfields⟩ := exists_path
    (fun piece hpiece => of_mem_fields (List.mem_filter.mp (hl.subset hpiece)).1)
    (name.head? = some '/')
  have hmoving : moving s = l := by
    rw [moving, hfields]
    exact List.filter_eq_self.mpr fun piece hpiece => (List.mem_filter.mp (hl.subset hpiece)).2
  have hinit : Vfs.pathInit fs s = Vfs.pathInit fs name := by
    simp [Vfs.pathInit, hhead]
  rw [← hmoving] at hl hne hname hwalk ⊢
  refine h.2 s hhead hl hne hname _ c₂ c₁ ?_ hlookup
  rw [pathLookupat_moving, hinit, hwalk]
  simp [lookupResult, hplace]

/-- After a mount its path leads to the root of the new mount, if the path does not go on from the
place of the mount to anything below it. -/
theorem lookup_after_mount (h : n.TreeOk) (hcall : n.CallOk call)
    (hmount : n.doMount fuel call = some (0, n'))
    (harrives : n.ArrivesLast fuel call.fs call.dirName) (hfuel : n'.nextMnt < fuel') :
    ∃ c, n'.pathLookupat fuel' call.fs call.dirName =
      some (.ok ⟨n.nextMnt, n'.mntRoot n.nextMnt⟩, c) := by
  obtain ⟨htree, hgraft⟩ := doMount_spec h hcall hmount
  obtain ⟨path, c, hlookup, -, before, root, sb, place, hext, hbefore, hnext, hlock, -, hmnt, -, rfl⟩ :=
    hgraft rfl
  have hdots : ∀ a ∈ moving call.dirName, a ≠ ['.'] := by
    intro a ha
    simpa using (List.mem_filter.mp ha).2
  obtain ⟨⟨err, c₁, nd₁⟩, hwalk, hres⟩ :=
    map_eq_some_iff.mp (pathLookupat_moving.symm.trans hlookup)
  obtain ⟨rfl, rfl, rfl⟩ : err = 0 ∧ nd₁.path = path ∧ c₁ = c := by
    by_cases herr : err = 0
    · simp [lookupResult, herr] at hres
      exact ⟨herr, hres⟩
    · simp [lookupResult, herr] at hres
  -- the walk has ended on top of the mounts: the new one comes right there
  have hfree : before.lookupMnt nd₁.path = none := by
    have hfree := free_of_walkPieces hdots harrives.1 hwalk
    rwa [Vfs.lookupMnt, ← hext.mntMounts, ← hext.mntParent, ← hext.mntMountpoint] at hfree
  obtain rfl : nd₁.path = place := by
    cases fuel with
    | zero => contradiction
    | succ fuel =>
      rw [Vfs.lockMount, hfree] at hlock
      exact some.inj hlock
  have hmounted : c₁.Mounted (before.graft root sb nd₁.path).toDcache nd₁.path n.nextMnt := by
    have hgraft := mounted_graft hbefore root sb hmnt hfree
    rw [hnext] at hgraft
    exact hgraft.of_extends hext
  obtain ⟨hvalid, hattached⟩ := hcall.start call.dirName
  obtain ⟨nd₃, hwalk₃, hpath₃⟩ := hmounted.walkPieces h.wellFormed htree.wellFormed
    (htree.enough hfuel) hvalid (Nat.ne_of_lt (hattached.lt_nextMnt h)) hdots harrives.1 (.inl rfl)
    hwalk (harrives.through hlookup)
  rw [pathLookupat_moving, hwalk₃]
  simp [lookupResult, hpath₃]

/-! ## Runs -/

/-- After `mnt_init` (`namespace.c:669-674`) no mount is attached to another: there are the first one
and those that `kern_mount` has made. -/
structure Booted (n : Namespace) : Prop where
  wellFormed : n.toVfs.WellFormed
  nextMnt : 0 < n.nextMnt
  mntParent : ∀ m, n.mntParent m = m
  mntMounts : ∀ m, n.mntMounts m = []

theorem Booted.treeOk (h : n.Booted) : n.TreeOk := by
  refine ⟨h.wellFormed, h.nextMnt, h.mntParent 0, fun m _ => h.mntParent m,
    fun m hm => absurd (h.mntParent m) hm, fun m hm => absurd (h.mntParent m) hm, fun m k => ?_,
    fun k _ hk => absurd (h.mntParent k) hk⟩
  rw [h.mntMounts m, h.mntParent k]
  simp

/-- A call of `do_mount`, with how often its loops may go round. -/
def mountStep (n : Namespace) (op : Nat × MountCall) : Option (Int × Namespace) :=
  n.doMount op.1 op.2

/-- In every run the mounts are a tree over the first one, with at most one mount on a place, the
loops over them end, and a mount is where its path leads if the path does not go on from that place
to anything below it. -/
theorem mount_tree {n : Namespace}
    (h : Reachable mountStep (fun n op => n.CallOk op.2) Booted n) :
    n.TreeOk ∧
    (∀ fuel, n.nextMnt < fuel → ∀ path root m, (n.traverseMounts fuel path).isSome ∧
      (n.lockMount fuel path).isSome ∧ (n.chooseMountpoint root fuel m).isSome) ∧
    ∀ fuel call n', n.CallOk call → n.doMount fuel call = some (0, n') →
      n'.Attached n.nextMnt ∧
      (n.ArrivesLast fuel call.fs call.dirName → ∀ fuel', n'.nextMnt < fuel' →
        ∃ c, n'.pathLookupat fuel' call.fs call.dirName =
          some (.ok ⟨n.nextMnt, n'.mntRoot n.nextMnt⟩, c)) := by
  have htree : n.TreeOk := by
    refine h.invariant (fun _ => Booted.treeOk) ?_
    intro n op err n' hn hcall hmount
    exact (doMount_spec hn hcall hmount).1
  refine ⟨htree, fun fuel hfuel path root m => ?_, fun fuel call n' hcall hmount => ⟨?_, ?_⟩⟩
  · have henough := htree.enough hfuel
    obtain ⟨q, hq⟩ := exists_traverse htree.wellFormed henough path
    obtain ⟨out, hout⟩ := exists_choose henough root m
    rw [lockMount_eq, hq, hout]
    exact ⟨rfl, rfl, rfl⟩
  · obtain ⟨htree', hgraft⟩ := doMount_spec htree hcall hmount
    obtain ⟨path, c, -, -, before, root, sb, place, -, hbefore, hnext, -, -, hmnt, -, rfl⟩ :=
      hgraft rfl
    refine htree'.attached _ ?_
    rw [← hnext, graft, parent_self]
    exact Nat.ne_of_lt (hmnt.lt_nextMnt hbefore)
  · exact fun harrives fuel' hfuel' => lookup_after_mount htree hcall hmount harrives hfuel'

def booted : Namespace where
  toVfs := Vfs.single
  dInode d := if d = 0 then some 0 else if d = 1 then some 1 else none
  entries i := if i = 0 then [(['a'], 1)] else []
  mntSb _ := 0
  nextMnt := 1

theorem booted_booted : booted.Booted := ⟨Vfs.wellFormed_single, Nat.one_pos, fun _ => rfl, fun _ => rfl⟩

theorem callOk_booted (dirName oldName : Name) :
    booted.CallOk ⟨⟨⟨0, 0⟩, ⟨0, 0⟩⟩, dirName, .bind (some oldName)⟩ :=
  ⟨.root, .root, .root, .root, by simp, by simp⟩

/-- `/a` is bound to `/`; but `/` is where it was, and not the root of the mount. -/
theorem root_not_covered : booted.Booted ∧
    booted.CallOk ⟨⟨⟨0, 0⟩, ⟨0, 0⟩⟩, ['/'], .bind (some ['/', 'a'])⟩ ∧
    ∃ n', booted.doMount 3 ⟨⟨⟨0, 0⟩, ⟨0, 0⟩⟩, ['/'], .bind (some ['/', 'a'])⟩ = some (0, n') ∧
      n'.mntRoot 1 = 1 ∧ n'.mntParent 1 = 0 ∧
      ∃ c, n'.pathLookupat 3 ⟨⟨0, 0⟩, ⟨0, 0⟩⟩ ['/'] = some (.ok ⟨0, 0⟩, c) :=
  ⟨booted_booted, callOk_booted _ _, _, rfl, rfl, rfl, _, rfl⟩

theorem arrivesLast_booted : booted.ArrivesLast 3 ⟨⟨0, 0⟩, ⟨0, 0⟩⟩ "/a/../a".toList := by
  have hmoving : moving "/a/../a".toList = [['a'], ['.', '.'], ['a']] := by decide
  refine ⟨by decide, fun s _ hpre hne hname p c c' hs hp => ?_⟩
  have hplace : (booted.pathLookupat 3 ⟨⟨0, 0⟩, ⟨0, 0⟩⟩ "/a/../a".toList).map Prod.fst =
      some (.ok ⟨0, 1⟩) := rfl
  rw [hp] at hplace
  obtain rfl : p = ⟨0, 1⟩ := Except.ok.inj (some.inj hplace)
  rw [hmoving] at hpre hname ⊢
  obtain ⟨l, hl, hpre₁⟩ := (List.prefix_cons_iff.mp hpre).resolve_left hne
  rcases List.prefix_cons_iff.mp hpre₁ with rfl | ⟨l, rfl, hpre₂⟩
  · exact ⟨by decide, by simp [hl]⟩
  rcases List.prefix_cons_iff.mp hpre₂ with rfl | ⟨l, rfl, hpre₃⟩
  · have hroot : (walkPieces 3 booted.toDcache [['a'], ['.', '.']]
        (Vfs.pathInit ⟨⟨0, 0⟩, ⟨0, 0⟩⟩ s)).map (fun r => (lookupResult r).1) =
          some (.ok ⟨0, 0⟩) := by
      simp only [Vfs.pathInit, ite_self]
      rfl
    rw [pathLookupat_moving, hl] at hs
    have hsame := congrArg (Option.map Prod.fst) hs
    rw [map_map] at hsame
    exact absurd (hroot.symm.trans hsame) (by simp)
  · rw [hl, List.prefix_nil.mp hpre₃] at hname
    exact absurd rfl hname

/-- `/` is bound to `/a`, by way of `/a` and back, and seen there. -/
theorem mount_tree_booted :
    ∃ n', booted.doMount 3 ⟨⟨⟨0, 0⟩, ⟨0, 0⟩⟩, "/a/../a".toList, .bind (some ['/'])⟩ = some (0, n') ∧
      ∃ c, n'.pathLookupat 3 ⟨⟨0, 0⟩, ⟨0, 0⟩⟩ "/a/../a".toList = some (.ok ⟨1, 0⟩, c) := by
  have hmount : booted.doMount 3 ⟨⟨⟨0, 0⟩, ⟨0, 0⟩⟩, "/a/../a".toList, .bind (some ['/'])⟩ =
      some (0, booted.graft 0 0 ⟨0, 1⟩) := rfl
  obtain ⟨-, -, hcalls⟩ := mount_tree (.start booted_booted)
  exact ⟨_, hmount, (hcalls 3 _ _ (callOk_booted _ _) hmount).2 arrivesLast_booted 3 (by decide)⟩

end Namespace

end MyOS2.Namei
