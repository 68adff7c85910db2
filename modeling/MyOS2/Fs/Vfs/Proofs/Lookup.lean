import MyOS2.Fs.Vfs.Proofs.Resolve

/-!
# Path lookup against the meaning of paths

As long as the first cached name that begins with a component is that component,
and exists, the walk follows the meaning of the path. A longer cached name, a
negative dentry, or a file in the place of a directory leads it astray.
-/

namespace MyOS2.Namei.Dcache

open Option List Vfs

variable {c c' : Dcache} {D : Ino → Prop} {parent : Ino → Ino} {fuel : Nat}

/-! ## The names in the cache -/

def cachedNames (c : Dcache) (i : Ino) : List (Name × Bool) :=
  match (range c.nextDentry).find? fun d => c.dInode d == some i with
  | some d => (c.dSubdirs d).map fun k => (c.dName k, (c.dInode k).isSome)
  | none => []

def firstWith (n : Name) (l : List (Name × Bool)) : Option (Name × Bool) :=
  l.find? fun e => n.isPrefixOf e.1

def resolvedNames (seen : List (Ino × Name)) (i : Ino) : List (Name × Bool) :=
  (seen.filter fun e => e.1 == i).map fun e => (e.2, true)

def resolvedAt (i : Ino) : Component Name → List (Ino × Name)
  | .name n => [(i, n)]
  | .dot | .dotdot => []

def Tracks (c c' : Dcache) (seen : List (Ino × Name)) : Prop :=
  ∀ i n, firstWith n (c'.cachedNames i) = firstWith n (c.cachedNames i ++ resolvedNames seen i)

section Names

variable {n n' : Name} {l l' : List (Name × Bool)} {d dir : DentryId} {i j : Ino} {name : Name}
  {seen seen' : List (Ino × Name)}

theorem firstWith_append : firstWith n (l ++ l') = (firstWith n l).or (firstWith n l') :=
  find?_append

theorem firstWith_append_self (h : firstWith n l = some (n, true)) :
    firstWith n' (l ++ [(n, true)]) = firstWith n' l := by
  rw [firstWith_append]
  cases hfirst : firstWith n' l with
  | some e => rfl
  | none =>
    have hno := find?_eq_none.mp hfirst _ (mem_of_find?_eq_some h)
    simp [firstWith, hno]

theorem Truthful.cachedNames_eq (h : c.Truthful parent) (hd : d < c.nextDentry)
    (hi : c.dInode d = some i) :
    c.cachedNames i = (c.dSubdirs d).map fun k => (c.dName k, (c.dInode k).isSome) := by
  have hfind : ((range c.nextDentry).find? fun d => c.dInode d == some i) = some d := by
    have hsome : ((range c.nextDentry).find? fun d => c.dInode d == some i).isSome :=
      find?_isSome.mpr ⟨d, mem_range.mpr hd, by simp [hi]⟩
    obtain ⟨d', hd'⟩ := isSome_iff_exists.mp hsome
    have hlt := mem_range.mp (mem_of_find?_eq_some hd')
    have hi' : c.dInode d' = some i := by simpa using find?_some hd'
    rw [hd', h.inj d' hlt d hd i hi' hi]
  rw [cachedNames, hfind]

theorem cachedNames_eq_nil (hi : ∀ d < c.nextDentry, c.dInode d ≠ some i) :
    c.cachedNames i = [] := by
  have hfind : ((range c.nextDentry).find? fun d => c.dInode d == some i) = none := by
    refine find?_eq_none.mpr fun d hd => ?_
    simpa using hi d (mem_range.mp hd)
  rw [cachedNames, hfind]

theorem Truthful.firstWith_cachedNames (h : c.Truthful parent) (hd : d < c.nextDentry)
    (hi : c.dInode d = some i) :
    firstWith n (c.cachedNames i) =
      (c.dLookup d n).map fun k => (c.dName k, (c.dInode k).isSome) := by
  rw [h.cachedNames_eq hd hi, firstWith, find?_map]
  rfl

theorem Truthful.cachedNames_addChild (h : c.Truthful parent) (hdir : dir < c.nextDentry)
    (hi : c.dInode dir = some i) (hj : c.find i name = some j)
    (hfresh : ∀ k ∈ c.dSubdirs dir, c.dName k ≠ name) (x : Ino) :
    (c.addChild dir name (some j)).cachedNames x =
      c.cachedNames x ++ resolvedNames [(i, name)] x := by
  have h' := h.addChild hdir hi hj hfresh
  have hold : ∀ d, (c.dSubdirs d).map (fun k => ((c.addChild dir name (some j)).dName k,
      ((c.addChild dir name (some j)).dInode k).isSome)) =
      (c.dSubdirs d).map fun k => (c.dName k, (c.dInode k).isSome) := by
    refine fun d => map_congr_left fun k hk => ?_
    have hlt := (h.wellFormed.subdirs d k hk).1
    rw [addChild_name_of_lt hlt, addChild_inode_of_lt hlt]
  by_cases hx : ∃ d < c.nextDentry, c.dInode d = some x
  · obtain ⟨d, hd, hdx⟩ := hx
    have hdx' : (c.addChild dir name (some j)).dInode d = some x := by
      rw [addChild_inode_of_lt hd]
      exact hdx
    rw [h'.cachedNames_eq (Nat.lt_succ_of_lt hd) hdx', h.cachedNames_eq hd hdx, ← hold]
    by_cases hdd : d = dir
    · subst hdd
      obtain rfl := some.inj (hi.symm.trans hdx)
      simp [Dcache.addChild, resolvedNames]
    · have hne : i ≠ x := fun heq => hdd (h.inj d hd dir hdir x hdx (heq ▸ hi))
      have hsub : (c.addChild dir name (some j)).dSubdirs d = c.dSubdirs d := by
        simp [Dcache.addChild, hdd, Nat.ne_of_lt hd]
      have hseen : resolvedNames [(i, name)] x = [] := by simp [resolvedNames, hne]
      rw [hsub, hseen, append_nil]
  · have hnone : ∀ d < c.nextDentry, c.dInode d ≠ some x := fun d hd hdx => hx ⟨d, hd, hdx⟩
    have hne : i ≠ x := fun heq => hnone dir hdir (heq ▸ hi)
    have hseen : resolvedNames [(i, name)] x = [] := by simp [resolvedNames, hne]
    rw [cachedNames_eq_nil hnone, hseen]
    by_cases hxj : x = j
    · subst hxj
      have hnew : (c.addChild dir name (some x)).dInode c.nextDentry = some x := by
        simp [Dcache.addChild]
      rw [h'.cachedNames_eq (Nat.lt_succ_self _) hnew]
      simp [Dcache.addChild, (Nat.ne_of_lt hdir).symm]
    · refine cachedNames_eq_nil fun d hd => ?_
      by_cases hdn : d = c.nextDentry
      · subst hdn
        simpa [Dcache.addChild] using Ne.symm hxj
      · have hlt := Nat.lt_of_le_of_ne (Nat.le_of_lt_succ hd) hdn
        rw [addChild_inode_of_lt hlt]
        exact hnone d hlt

theorem resolvedNames_append (i : Ino) :
    resolvedNames (seen ++ seen') i = resolvedNames seen i ++ resolvedNames seen' i := by
  simp [resolvedNames]

theorem Tracks.refl (c : Dcache) : c.Tracks c [] := by
  intro i n
  simp [resolvedNames]

theorem Tracks.trans {c₁ c₂ c₃ : Dcache} (h : c₁.Tracks c₂ seen) (h' : c₂.Tracks c₃ seen') :
    c₁.Tracks c₃ (seen ++ seen') := by
  intro i n
  rw [h' i n, firstWith_append, h i n, resolvedNames_append, ← append_assoc, ← firstWith_append]

theorem tracks_of_hit (h : firstWith n (c.cachedNames i) = some (n, true)) :
    c.Tracks c [(i, n)] := by
  intro x m
  by_cases hx : i = x
  · subst hx
    have hseen : resolvedNames [(i, n)] i = [(n, true)] := by simp [resolvedNames]
    rw [hseen, firstWith_append_self h]
  · have hseen : resolvedNames [(i, n)] x = [] := by simp [resolvedNames, hx]
    rw [hseen, append_nil]

end Names

/-! ## One component -/

/-- The walk is at the place `p`, in a process whose root is `r`. -/
structure At (c : Dcache) (nd : Nameidata) (r p : MntId × Ino) : Prop where
  valid : c.Valid nd.path
  path : c.Shows nd.path p
  root : c.Shows nd.root r
  root_lt : nd.root.dentry < c.nextDentry

def CacheOk (c : Dcache) (d : DentryId) : Component Name → Prop
  | .name n => ∀ k, c.dLookup d n = some k → c.dName k = n ∧ (c.dInode k).isSome
  | .dot | .dotdot => True

section Walk

variable {nd nd' : Nameidata} {r p : MntId × Ino} {d : DentryId} {i : Ino}

theorem At.stepInto (hat : c.At nd r p) (h : c.Truthful parent) (hfuel : c.Enough fuel)
    (hd : c.Shown nd.path.mnt d) (hi : c.dInode d = some i) :
    ∃ nd' t, c.stepInto fuel nd d = some nd' ∧ c.At nd' r t ∧
      (c.world D parent).Top (nd.path.mnt, i) t := by
  obtain ⟨q, htraverse⟩ := exists_traverse h.wellFormed hfuel ⟨nd.path.mnt, d⟩
  obtain ⟨t, hshows, htop⟩ := h.top (h.wellFormed.lt_of_shown hd) hi htraverse
  have hstack := stack_traverse h.wellFormed .base htraverse
  exact ⟨{ nd with path := q }, t, by rw [Vfs.stepInto, htraverse]; rfl,
    ⟨hstack.valid hd, hshows, hat.root, hat.root_lt⟩, htop⟩

theorem Truthful.inode_parent (h : c.Truthful parent) {m : MntId} (hd : c.Shown m d)
    (hne : d ≠ c.mntRoot m) (hi : c.dInode d = some i) :
    c.Shown m (c.dParent d) ∧ c.dInode (c.dParent d) = some (parent i) := by
  obtain ⟨hlt, hself, hshown⟩ := hd.parent hne
  obtain ⟨i', hi', hfind⟩ := h.facts _ d (h.cached d hlt hself)
  rw [hi] at hfind
  rw [h.parent i' _ i hfind.symm]
  exact ⟨hshown, hi'⟩

section

variable (hat : c.At nd r p) (h : c.Truthful parent)
include hat h

theorem At.eq_mntRoot_iff :
    nd.path.dentry = c.mntRoot nd.path.mnt ↔ p.2 = (c.world D parent).root p.1 := by
  have hroot := h.root_eq (D := D) nd.path.mnt
  rw [hat.path.1]
  constructor
  · intro heq
    have hinode := hat.path.2
    rw [heq, hroot] at hinode
    exact (some.inj hinode).symm
  · intro heq
    exact h.inj _ (h.wellFormed.lt_of_shown hat.valid) _ (h.wellFormed.mntRoot _) _ hat.path.2
      (heq ▸ hroot)

theorem At.dotdot (hfuel : c.Enough fuel) (htype : nd.lastType = .dotdot) :
    ∃ nd' t, c.handleDots fuel nd = some nd' ∧ c.At nd' r t ∧
      (c.world D parent).Step r p .dotdot (.ok t) := by
  have hp : p = (nd.path.mnt, p.2) := Prod.ext hat.path.1 rfl
  rw [handleDots, if_pos htype, followDotdot]
  by_cases hroot : nd.path.dentry = c.mntRoot nd.path.mnt
  · have hroot' := (hat.eq_mntRoot_iff (D := D) h).mp hroot
    rw [if_pos hroot]
    obtain ⟨out, hchoose⟩ := exists_choose hfuel nd.root nd.path.mnt
    rcases h.across (D := D) hat.root hat.root_lt hchoose with
      ⟨rfl, hacross⟩ | ⟨q, t, rfl, hshows, hacross⟩
    · obtain ⟨nd', t, hstep, hat', htop⟩ := hat.stepInto (D := D) h hfuel hat.valid hat.path.2
      refine ⟨nd', t, ?_, hat', .dotdot (.stays hroot' (hat.path.1 ▸ hacross)) (hp ▸ htop)⟩
      simpa [hchoose] using hstep
    · have hclimb := (climb_of_chooseMountpoint hchoose).1
      have hvalid := hclimb.valid h.wellFormed
      obtain ⟨hshown, hinode⟩ := h.inode_parent hvalid hclimb.ne_mntRoot hshows.2
      have hat₁ : c.At { nd with path := q } r t := ⟨hvalid, hshows, hat.root, hat.root_lt⟩
      obtain ⟨nd', t', hstep, hat', htop⟩ := hat₁.stepInto (D := D) h hfuel hshown hinode
      refine ⟨nd', t', by simpa [hchoose] using hstep, hat',
        .dotdot (.across hroot' (hat.path.1 ▸ hacross)) (hshows.1 ▸ htop)⟩
  · have hroot' := fun heq => hroot ((hat.eq_mntRoot_iff (D := D) h).mpr heq)
    rw [if_neg hroot]
    obtain ⟨hshown, hinode⟩ := h.inode_parent hat.valid hroot hat.path.2
    obtain ⟨nd', t, hstep, hat', htop⟩ := hat.stepInto (D := D) h hfuel hshown hinode
    exact ⟨nd', t, hstep, hat', .dotdot (.inside hroot') (hat.path.1 ▸ htop)⟩

theorem At.shown_child {k : DentryId}
    (hk : k ∈ c.dSubdirs nd.path.dentry) : c.Shown nd.path.mnt k := by
  obtain ⟨hlt, hparent, hne⟩ := h.wellFormed.subdirs _ k hk
  refine .child hlt (by rw [hparent]; exact hne.symm) ?_
  rw [hparent]
  exact hat.valid

theorem At.addChild (dir : DentryId) (name : Name)
    (inode : Option Ino) : (c.addChild dir name inode).At nd r p := by
  refine ⟨(grown_addDentry c.toVfs name dir).shown hat.valid, ⟨hat.path.1, ?_⟩,
    ⟨hat.root.1, ?_⟩, Nat.lt_succ_of_lt hat.root_lt⟩
  · rw [addChild_inode_of_lt (h.wellFormed.lt_of_shown hat.valid)]
    exact hat.path.2
  · rw [addChild_inode_of_lt hat.root_lt]
    exact hat.root.2

end

/-- What a step of the walk leaves behind, against the meaning of the component. -/
structure Walked (c : Dcache) (D : Ino → Prop) (parent : Ino → Ino) (fuel : Nat)
    (r p : MntId × Ino) (a : Component Name) (err : Int) (c' : Dcache) (nd' : Nameidata) :
    Prop where
  truthful : c'.Truthful parent
  enough : c'.Enough fuel
  world : c'.world D parent = c.world D parent
  step : (err = 0 ∧ c.Tracks c' (resolvedAt p.2 a) ∧
      ∃ t, c'.At nd' r t ∧ (c.world D parent).Step r p a (.ok t)) ∨
    (err = -enoent ∧ (c.world D parent).Step r p a (.error .noEntry))

theorem At.name (hat : c.At nd r p) (h : c.Truthful parent) (hfuel : c.Enough fuel)
    (htype : nd.lastType = .norm) (hcache : c.CacheOk nd.path.dentry (.name nd.last)) :
    ∃ err c' nd', c.walkComponent fuel nd = some (err, c', nd') ∧
      Walked c D parent fuel r p (.name nd.last) err c' nd' := by
  rw [Dcache.walkComponent, if_neg (by simp [htype])]
  have hdir := h.wellFormed.lt_of_shown hat.valid
  cases hlookup : c.dLookup nd.path.dentry nd.last with
  | some k =>
    obtain ⟨hname, hsome⟩ := hcache k hlookup
    obtain ⟨x, hx⟩ := isSome_iff_exists.mp hsome
    have hk := (dLookup_mem hlookup).1
    obtain ⟨i, hi, hfind⟩ := h.facts _ k hk
    obtain rfl : i = p.2 := some.inj (hi.symm.trans hat.path.2)
    rw [hname, hx] at hfind
    obtain ⟨nd', t, hstep, hat', htop⟩ := hat.stepInto (D := D) h hfuel (hat.shown_child h hk) hx
    have htracks : c.Tracks c [(p.2, nd.last)] := by
      refine tracks_of_hit ?_
      rw [h.firstWith_cachedNames hdir hat.path.2, hlookup, map_some, hname, hsome]
    refine ⟨0, c, nd', by simp [hstep], h, hfuel, rfl, .inl ⟨rfl, htracks, t, hat', ?_⟩⟩
    exact .name hfind.symm (hat.path.1 ▸ htop)
  | none =>
    cases hfind : c.find p.2 nd.last with
    | none =>
      have hslow : c.lookupSlow nd.last nd.path.dentry = some (.error (-enoent)) := by
        simp [Dcache.lookupSlow, hat.path.2, hfind]
      exact ⟨-enoent, c, nd, by simp [hslow], h, hfuel, rfl, .inr ⟨rfl, .missing hfind⟩⟩
    | some x =>
      have hslow : c.lookupSlow nd.last nd.path.dentry =
          some (.ok (c.nextDentry, c.addChild nd.path.dentry nd.last (some x))) := by
        simp [Dcache.lookupSlow, hat.path.2, hfind]
      have hfresh := fresh_of_dLookup hlookup
      have h' := h.addChild hdir hat.path.2 hfind hfresh
      have htracks : c.Tracks (c.addChild nd.path.dentry nd.last (some x)) [(p.2, nd.last)] :=
        fun i n => by rw [h.cachedNames_addChild hdir hat.path.2 hfind hfresh]
      have hmem : c.nextDentry ∈
          (c.addChild nd.path.dentry nd.last (some x)).dSubdirs nd.path.dentry :=
        (mem_subdirs_addChild h.wellFormed hdir).mpr (.inr ⟨rfl, rfl⟩)
      have hat₁ := hat.addChild h nd.path.dentry nd.last (some x)
      have hx : (c.addChild nd.path.dentry nd.last (some x)).dInode c.nextDentry = some x := by
        simp [Dcache.addChild]
      obtain ⟨nd', t, hstep, hat', htop⟩ :=
        hat₁.stepInto (D := D) h' hfuel (hat₁.shown_child h' hmem) hx
      have hworld := world_addChild (D := D) h nd.path.dentry nd.last (some x)
      rw [hworld] at htop
      refine ⟨0, _, nd', ?_, h', hfuel, hworld, .inl ⟨rfl, htracks, t, hat', ?_⟩⟩
      · simp only [hslow, bind_eq_bind, bind_some, hstep]
      · exact .name hfind (hat.path.1 ▸ htop)

/-- A component whose cached names mislead nobody is walked as it should be. -/
theorem At.walkComponent (hat : c.At nd r p) (h : c.Truthful parent) (hfuel : c.Enough fuel)
    (htype : nd.lastType = lastTypeOf nd.last)
    (hcache : c.CacheOk nd.path.dentry (componentOf nd.last)) :
    ∃ err c' nd', c.walkComponent fuel nd = some (err, c', nd') ∧
      Walked c D parent fuel r p (componentOf nd.last) err c' nd' := by
  by_cases hdotdot : nd.last = ['.', '.']
  · have htype' : nd.lastType = .dotdot := by rw [htype, lastTypeOf, if_pos hdotdot]
    obtain ⟨nd', t, hdots, hat', hstep⟩ := hat.dotdot (D := D) h hfuel htype'
    rw [componentOf, if_pos hdotdot]
    refine ⟨0, c, nd', ?_, h, hfuel, rfl, .inl ⟨rfl, .refl c, t, hat', hstep⟩⟩
    rw [Dcache.walkComponent, if_pos (by simp [htype']), hdots]
    rfl
  · by_cases hdot : nd.last = ['.']
    · have htype' : nd.lastType = .dot := by
        rw [htype, lastTypeOf, if_neg hdotdot, if_pos hdot]
      rw [componentOf, if_neg hdotdot, if_pos hdot]
      refine ⟨0, c, nd, ?_, h, hfuel, rfl, .inl ⟨rfl, .refl c, p, hat, .dot⟩⟩
      rw [Dcache.walkComponent, if_pos (by simp [htype']), handleDots, if_neg (by simp [htype'])]
      rfl
    · have htype' : nd.lastType = .norm := by
        rw [htype, lastTypeOf, if_neg hdotdot, if_neg hdot]
      have hname : componentOf nd.last = .name nd.last := by
        rw [componentOf, if_neg hdotdot, if_neg hdot]
      rw [hname] at hcache ⊢
      exact hat.name h hfuel htype' hcache

end Walk

/-! ## Lookup follows the meaning of a path as long as the cache misleads nobody -/

/-- A result of the code stands for one of the world. -/
def Agrees (c : Dcache) : Except Int Path → Except Failure (MntId × Ino) → Prop
  | .ok q, .ok t => c.Shows q t
  | .error err, .error .noEntry => err = -enoent
  | .error err, .error .notDirectory => err = -enotdir
  | _, _ => False

/-- Of the names cached in a directory and those the path has resolved there, the first that begins
with the component is the component, and it exists. -/
def Clear (c : Dcache) (seen : List (Ino × Name)) (i : Ino) : Component Name → Prop
  | .name n => ∀ e, firstWith n (c.cachedNames i ++ resolvedNames seen i) = some e → e = (n, true)
  | .dot | .dotdot => True

/-- Every component of a path is clear where the meaning of the path arrives, and all but the last
lead to directories. -/
def Clean (c : Dcache) (D : Ino → Prop) (parent : Ino → Ino) (r : MntId × Ino) :
    List (Ino × Name) → MntId × Ino → List (Component Name) → Prop
  | _, _, [] => True
  | seen, p, a :: rest => c.Clear seen p.2 a ∧
      ∀ q, (c.world D parent).Step r p a (.ok q) →
        (rest = [] ∨ D q.2) ∧ Clean c D parent r (seen ++ resolvedAt p.2 a) q rest

def WalksRight (c : Dcache) (w : World MntId Ino Name) (fuel : Nat) (nd : Nameidata)
    (r p : MntId × Ino) (pieces : List Name) : Prop :=
  ∃ res out, (walkPieces fuel c pieces nd).map lookupResult = some res ∧
    w.Resolves r p (pieces.map componentOf) out ∧ res.2.Agrees res.1 out

section Path

variable {w : World MntId Ino Name} {nd : Nameidata} {r p q : MntId × Ino} {d : DentryId} {i : Ino}
  {seen : List (Ino × Name)} {n : Name} {pieces : List Name}

theorem Tracks.cacheOk_iff (htracks : c.Tracks c' seen) (h : c'.Truthful parent)
    (hd : d < c'.nextDentry) (hi : c'.dInode d = some i) (a : Component Name) :
    c'.CacheOk d a ↔ c.Clear seen i a := by
  cases a with
  | dot | dotdot => exact Iff.rfl
  | name n =>
    rw [CacheOk, Clear, ← htracks i n, h.firstWith_cachedNames hd hi]
    constructor
    · intro hok e he
      obtain ⟨k, hk, rfl⟩ := map_eq_some_iff.mp he
      obtain ⟨hname, hsome⟩ := hok k hk
      rw [hname, hsome]
    · intro hclear k hk
      have heq := hclear _ (by rw [hk]; rfl)
      exact ⟨congrArg Prod.fst heq, congrArg Prod.snd heq⟩

theorem At.withLast (hat : c.At nd r p) (last : Name) :
    c.At { nd with last, lastType := lastTypeOf last } r p :=
  ⟨hat.valid, hat.path, hat.root, hat.root_lt⟩

section

variable (hat : c'.At nd r p) (h : c'.Truthful parent) (hfuel : c'.Enough fuel)
include hat h hfuel

theorem At.walkPiece (htracks : c.Tracks c' seen) (hclear : c.Clear seen p.2 (componentOf n)) :
    ∃ err c'' nd', c'.walkComponent fuel { nd with last := n, lastType := lastTypeOf n } =
        some (err, c'', nd') ∧ Walked c' D parent fuel r p (componentOf n) err c'' nd' := by
  refine (hat.withLast n).walkComponent h hfuel rfl ?_
  exact (htracks.cacheOk_iff h (h.wellFormed.lt_of_shown hat.valid) hat.path.2 _).mpr hclear

theorem walksRight_of_clean (hw : c'.world D parent = c.world D parent) (htracks : c.Tracks c' seen)
    (hclean : c.Clean D parent r seen p (pieces.map componentOf)) :
    c'.WalksRight (c.world D parent) fuel nd r p pieces := by
  induction pieces generalizing c' nd p seen with
  | nil => exact ⟨(.ok nd.path, c'), .ok p, by simp [walkPieces, lookupResult], .here, hat.path⟩
  | cons n rest ih =>
    obtain ⟨hclear, hclean⟩ := hclean
    obtain ⟨err, c'', nd', hwalk, hwalked⟩ := hat.walkPiece (D := D) h hfuel htracks hclear
    have hstep := hwalked.step
    rw [hw] at hstep
    rcases hstep with ⟨rfl, htracks', t, hat', hstep⟩ | ⟨rfl, hstep⟩
    · obtain ⟨hdir, hclean⟩ := hclean t hstep
      obtain ⟨res, out, hrest, hout, hagrees⟩ := ih hat' hwalked.truthful hwalked.enough
        (hwalked.world.trans hw) (htracks.trans htracks') hclean
      refine ⟨res, out, by simpa [walkPieces, hwalk] using hrest, ?_, hagrees⟩
      cases rest with
      | nil =>
        cases hout with
        | here => exact .last hstep
      | cons b rest => exact .next hstep (hdir.resolve_left (by simp)) hout
    · refine ⟨(.error (-enoent), c''), .error .noEntry, ?_, ?_, rfl⟩
      · simp [walkPieces, hwalk, lookupResult, enoent]
      · cases rest with
        | nil => exact .last hstep
        | cons b rest => exact .fails hstep

end

theorem At.cacheOk_of_walksRight (hat : c.At nd r p) (h : c.Truthful parent)
    (hfuel : c.Enough fuel) (hright : c.WalksRight (c.world D parent) fuel nd r p [n]) :
    c.CacheOk nd.path.dentry (componentOf n) := by
  by_cases hdotdot : n = ['.', '.']
  · simp [componentOf, hdotdot, CacheOk]
  by_cases hdot : n = ['.']
  · simp [componentOf, hdot, CacheOk]
  have hname : componentOf n = .name n := by simp [componentOf, hdotdot, hdot]
  have htype : lastTypeOf n = .norm := by simp [lastTypeOf, hdotdot, hdot]
  obtain ⟨res, out, hres, hout, hagrees⟩ := hright
  rw [map_singleton, hname] at hout
  rw [hname]
  intro k hk
  obtain ⟨q, hq⟩ := exists_traverse h.wellFormed hfuel ⟨nd.path.mnt, k⟩
  have hwalk : (walkPieces fuel c [n] nd).map lookupResult = some (.ok q, c) := by
    simp [walkPieces_singleton, Dcache.walkComponent, htype, hk, Vfs.stepInto, hq, lookupResult]
  obtain rfl := some.inj (hres.symm.trans hwalk)
  cases out with
  | error e => exact hagrees.elim
  | ok t =>
    obtain ⟨x, hx, htop⟩ : ∃ x, c.find p.2 n = some x ∧ (c.world D parent).Top (p.1, x) t := by
      cases hout with
      | last hstep =>
        cases hstep with
        | name hx htop => exact ⟨_, hx, htop⟩
    have hk' := (dLookup_mem hk).1
    cases hy : c.dInode k with
    | none =>
      -- a negative dentry stays where it is, and shows nothing
      obtain ⟨rank, bound, hlt, -⟩ := hfuel
      obtain ⟨fuel, rfl⟩ := Nat.exists_eq_succ_of_ne_zero (Nat.ne_zero_of_lt hlt)
      rw [h.traverse_negative hy] at hq
      cases hq
      exact absurd (hy.symm.trans hagrees.2) (by simp)
    | some y =>
      have hlt := (h.wellFormed.subdirs _ k hk').1
      obtain ⟨t', hshows, htop'⟩ := h.top (D := D) hlt hy hq
      obtain rfl : t' = t :=
        Prod.ext (hshows.1.trans hagrees.1.symm) (some.inj (hshows.2.symm.trans hagrees.2))
      rw [← hat.path.1] at htop'
      obtain rfl := htop.inj h.grounded htop'
      obtain ⟨i, hi, hfind⟩ := h.facts _ k hk'
      obtain rfl := some.inj (hi.symm.trans hat.path.2)
      exact ⟨h.find_inj _ _ _ x (hfind.symm.trans hy) hx, rfl⟩

theorem clean_of_walksRight (hat : c'.At nd r p) (h : c'.Truthful parent)
    (hfuel : c'.Enough fuel) (hw : c'.world D parent = c.world D parent)
    (htracks : c.Tracks c' seen)
    (hright : ∀ l, l <+: pieces → c'.WalksRight (c.world D parent) fuel nd r p l) :
    c.Clean D parent r seen p (pieces.map componentOf) := by
  induction pieces generalizing c' nd p seen with
  | nil => trivial
  | cons n rest ih =>
    have hclear : c.Clear seen p.2 (componentOf n) := by
      refine (htracks.cacheOk_iff h (h.wellFormed.lt_of_shown hat.valid) hat.path.2 _).mp ?_
      refine hat.cacheOk_of_walksRight (D := D) h hfuel ?_
      rw [hw]
      exact hright [n] (by simp)
    refine ⟨hclear, fun q hq => ?_⟩
    obtain ⟨err, c'', nd', hwalk, hwalked⟩ := hat.walkPiece (D := D) h hfuel htracks hclear
    have hstep := hwalked.step
    rw [hw] at hstep
    rcases hstep with ⟨rfl, htracks', t, hat', hstep⟩ | ⟨-, hstep⟩
    · obtain rfl := Except.ok.inj (hstep.unique hq)
      have hcons : ∀ l, walkPieces fuel c' (n :: l) nd = walkPieces fuel c'' l nd' := by
        intro l
        simp [walkPieces, hwalk]
      have hdir : rest = [] ∨ D t.2 := by
        rcases rest with _ | ⟨b, rest⟩
        · exact .inl rfl
        by_contra hno
        -- the walk would have to end with an error that it never gives
        obtain ⟨res, out, hres, hout, hagrees⟩ := hright [n, b] (by simp)
        have hfile := (World.Resolves.file hstep (fun hd => hno (.inr hd)) :
          (c.world D parent).Resolves r p ([n, b].map componentOf) _)
        obtain rfl := hout.unique hfile
        rw [hcons, walkPieces_singleton] at hres
        obtain ⟨⟨err, c₂, nd₂⟩, hlast, rfl⟩ := map_eq_some_iff.mp hres
        rcases walkComponent_err hlast with rfl | rfl
        · simp [lookupResult, Agrees] at hagrees
        · simp [lookupResult, Agrees, enoent, enotdir] at hagrees
      refine ⟨by simpa using hdir, ih hat' hwalked.truthful hwalked.enough
        (hwalked.world.trans hw) (htracks.trans htracks') fun l hl => ?_⟩
      obtain ⟨res, out, hres, hout, hagrees⟩ := hright (n :: l) (by simpa using hl)
      rw [hcons] at hres
      refine ⟨res, out, hres, ?_, hagrees⟩
      rcases l with _ | ⟨b, l⟩
      · obtain rfl := hout.unique (.last hstep)
        exact .here
      · have hdir := hdir.resolve_left (by rintro rfl; simp at hl)
        exact (World.Resolves.cons_iff hstep hdir).mp hout
    · exact absurd (hstep.unique hq) (by simp)

theorem Clean.of_prefix {l l' : List (Component Name)} (hclean : c.Clean D parent r seen p l)
    (hl : l' <+: l) : c.Clean D parent r seen p l' := by
  induction l' generalizing seen p l with
  | nil => trivial
  | cons a rest' ih =>
    rcases l with _ | ⟨b, rest⟩
    · simp at hl
    obtain ⟨rfl, hrest⟩ := cons_prefix_cons.mp hl
    refine ⟨hclean.1, fun q hq => ?_⟩
    obtain ⟨hdir, hnext⟩ := hclean.2 q hq
    refine ⟨hdir.imp_left fun hnil => ?_, ih hnext hrest⟩
    rw [hnil] at hrest
    exact prefix_nil.mp hrest

/-- The root and the working directory of a process, which are directories that the cache knows. -/
structure Placed (c : Dcache) (fs : TaskFs) (r p : MntId × Ino) : Prop where
  root : c.Valid fs.root
  pwd : c.Valid fs.pwd
  shows_root : c.Shows fs.root r
  shows_pwd : c.Shows fs.pwd p

def startOf (r p : MntId × Ino) (name : List Char) : MntId × Ino :=
  if name.head? = some '/' then r else p

/-- The lookup of a path ends as the meaning of the path has it. -/
def LooksUp (c : Dcache) (D : Ino → Prop) (parent : Ino → Ino) (fuel : Nat) (fs : TaskFs)
    (r p : MntId × Ino) (name : List Char) : Prop :=
  ∃ out c' meaning, c.pathLookupat fuel fs name = some (out, c') ∧
    (c.world D parent).Resolves r (startOf r p name) (components name) meaning ∧
    c'.Agrees out meaning

theorem Placed.start {fs : TaskFs} (hplaced : c.Placed fs r p) (h : c.Truthful parent)
    (name : List Char) : c.At (pathInit fs name) r (startOf r p name) := by
  have hroot := h.wellFormed.lt_of_shown hplaced.root
  by_cases hhead : name.head? = some '/'
  · simp only [pathInit, startOf, hhead, if_true]
    exact ⟨hplaced.root, hplaced.shows_root, hplaced.shows_root, hroot⟩
  · simp only [pathInit, startOf, hhead, if_false]
    exact ⟨hplaced.pwd, hplaced.shows_pwd, hplaced.shows_root, hroot⟩

theorem looksUp_iff_walksRight {fs : TaskFs} {name : List Char} :
    c.LooksUp D parent fuel fs r p name ↔
      c.WalksRight (c.world D parent) fuel (pathInit fs name) r (startOf r p name)
        (fields '/' name) := by
  rw [LooksUp, WalksRight, pathLookupat_eq_walkPieces]
  constructor
  · rintro ⟨out, c', meaning, hlookup, hmeaning, hagrees⟩
    exact ⟨(out, c'), meaning, hlookup, hmeaning, hagrees⟩
  · rintro ⟨⟨out, c'⟩, meaning, hlookup, hmeaning, hagrees⟩
    exact ⟨out, c', meaning, hlookup, hmeaning, hagrees⟩

/-- A path and all the paths on the way to it are looked up as they mean exactly when every
component is clear where it is looked up, and all on the way are directories. -/
theorem looksUp_iff_clean {fs : TaskFs} (h : c.Truthful parent) (hfuel : c.Enough fuel)
    (hplaced : c.Placed fs r p) (name : List Char) :
    (∀ s : List Char, (s.head? = some '/' ↔ name.head? = some '/') →
        fields '/' s <+: fields '/' name → c.LooksUp D parent fuel fs r p s) ↔
      c.Clean D parent r [] (startOf r p name) (components name) := by
  have hat := hplaced.start h name
  have hsame : ∀ s : List Char, (s.head? = some '/' ↔ name.head? = some '/') →
      startOf r p s = startOf r p name ∧ pathInit fs s = pathInit fs name := by
    intro s hs
    simp [startOf, pathInit, hs]
  constructor
  · intro hlooks
    refine clean_of_walksRight hat h hfuel rfl (.refl c) fun l hl => ?_
    -- a path with the pieces `l` that starts where `name` starts
    have hpieces : ∀ piece ∈ l, piece ≠ [] ∧ '/' ∉ piece :=
      fun piece hpiece => of_mem_fields (hl.subset hpiece)
    obtain ⟨s, hhead, hfields⟩ := exists_path hpieces (name.head? = some '/')
    have hlooks := looksUp_iff_walksRight.mp (hlooks s hhead (hfields ▸ hl))
    rwa [(hsame s hhead).1, (hsame s hhead).2, hfields] at hlooks
  · intro hclean s hhead hpre
    refine looksUp_iff_walksRight.mpr ?_
    rw [(hsame s hhead).1, (hsame s hhead).2]
    exact walksRight_of_clean hat h hfuel rfl (.refl c) (hclean.of_prefix (hpre.map componentOf))

end Path

/-- A directory with the files `a` and `ab`, of which the cache knows `ab`. -/
def neighbours : Dcache where
  toVfs := { single with dName := fun d => if d = 1 then ['a', 'b'] else [] }
  dInode d := if d = 0 then some 0 else if d = 1 then some 2 else none
  entries i := if i = 0 then [(['a'], 1), (['a', 'b'], 2)] else []

theorem find_neighbours {i j : Ino} {n : Name} (h : neighbours.find i n = some j) :
    i = 0 ∧ (n = ['a'] ∧ j = 1 ∨ n = ['a', 'b'] ∧ j = 2) := by
  by_cases hi : i = 0
  · subst hi
    refine ⟨rfl, ?_⟩
    by_cases ha : ['a'] = n
    · simp [find, neighbours, ha] at h
      exact .inl ⟨ha.symm, h.symm⟩
    · by_cases hab : ['a', 'b'] = n
      · simp [find, neighbours, ha, hab] at h
        exact .inr ⟨hab.symm, h.symm⟩
      · simp [find, neighbours, ha, hab] at h
  · simp [find, neighbours, hi] at h

theorem truthful_neighbours : neighbours.Truthful fun _ => 0 := by
  have hdentry : ∀ d : Nat, d < 2 → d = 0 ∨ d = 1 := by
    omega
  refine ⟨⟨wellFormed_single.mounts, wellFormed_single.dentries,
    wellFormed_single.dParent, wellFormed_single.mounted, fun m hm => absurd rfl hm,
    wellFormed_single.mntRoot, wellFormed_single.subdirs⟩, ?_, fun _ => rfl,
    fun m hm => absurd rfl hm, ?_, ?_, ?_, ?_, ?_, ?_⟩
  · intro m k hk
    simp [neighbours, single] at hk
  · intro d hd hself
    rcases hdentry d hd with rfl | rfl
    · exact absurd rfl hself
    · simp [neighbours, single]
  · intro d k hk
    by_cases hd : d = 0
    · subst hd
      obtain rfl : k = 1 := by simpa [neighbours, single] using hk
      exact ⟨0, rfl, by decide⟩
    · simp [neighbours, single, hd] at hk
  · intro d hd d' hd' i hi hi'
    have hsame := hi.trans hi'.symm
    rcases hdentry d hd with rfl | rfl <;> rcases hdentry d' hd' with rfl | rfl <;>
      simp [neighbours] at hsame ⊢
  · intro d hd hself i hi i' n hfind
    obtain rfl : d = 0 := by simpa [neighbours, single] using hself.symm
    obtain rfl : 0 = i := by simpa [neighbours] using hi
    rcases (find_neighbours hfind).2 with ⟨-, hj⟩ | ⟨-, hj⟩ <;> simp at hj
  · intro i n j hfind
    exact (find_neighbours hfind).1.symm
  · intro i n n' j hfind hfind'
    rcases (find_neighbours hfind).2 with ⟨hn, hj⟩ | ⟨hn, hj⟩ <;>
      rcases (find_neighbours hfind').2 with ⟨hn', hj'⟩ | ⟨hn', hj'⟩ <;> simp_all

theorem enough_neighbours : neighbours.Enough 2 :=
  ⟨fun _ => 0, 1, by decide, fun _ => ⟨Nat.one_pos, fun hm => absurd rfl hm⟩⟩

theorem placed_neighbours : neighbours.Placed ⟨⟨0, 0⟩, ⟨0, 0⟩⟩ (0, 0) (0, 0) :=
  ⟨.root, .root, ⟨rfl, rfl⟩, ⟨rfl, rfl⟩⟩

/-- The cached name `ab` begins with `a`: looking for `/a` finds it. -/
theorem lookup_of_longer_name :
    neighbours.Truthful (fun _ => 0) ∧ neighbours.Enough 2 ∧
    neighbours.Placed ⟨⟨0, 0⟩, ⟨0, 0⟩⟩ (0, 0) (0, 0) ∧
    (∃ c', neighbours.pathLookupat 2 ⟨⟨0, 0⟩, ⟨0, 0⟩⟩ ['/', 'a'] = some (.ok ⟨0, 1⟩, c')) ∧
    neighbours.dInode 1 = some 2 ∧
    (neighbours.world (· = 0) fun _ => 0).Resolves (0, 0) (0, 0) (components ['/', 'a'])
      (.ok (0, 1)) ∧
    ¬ neighbours.LooksUp (· = 0) (fun _ => 0) 2 ⟨⟨0, 0⟩, ⟨0, 0⟩⟩ (0, 0) (0, 0) ['/', 'a'] := by
  have hmeaning : (neighbours.world (· = 0) fun _ => 0).Resolves (0, 0) (0, 0)
      (components ['/', 'a']) (.ok (0, 1)) :=
    .last (.name rfl (.free rfl))
  have hlookup : neighbours.pathLookupat 2 ⟨⟨0, 0⟩, ⟨0, 0⟩⟩ ['/', 'a'] =
      some (.ok ⟨0, 1⟩, neighbours) := rfl
  refine ⟨truthful_neighbours, enough_neighbours, placed_neighbours, ⟨_, hlookup⟩, rfl, hmeaning, ?_⟩
  rintro ⟨out, c', meaning, hlookup', hmeaning', hagrees⟩
  obtain ⟨rfl, rfl⟩ := Prod.mk.inj (some.inj (hlookup'.symm.trans hlookup))
  obtain rfl := hmeaning'.unique hmeaning
  exact absurd hagrees.2 (by decide)

/-- The name that is looked up is the one in the cache. -/
theorem looksUp_iff_clean_neighbours :
    neighbours.LooksUp (· = 0) (fun _ => 0) 2 ⟨⟨0, 0⟩, ⟨0, 0⟩⟩ (0, 0) (0, 0) ['/', 'a', 'b'] := by
  refine (looksUp_iff_clean truthful_neighbours enough_neighbours placed_neighbours
    ['/', 'a', 'b']).mpr ?_ _ Iff.rfl (prefix_refl _)
  refine ⟨fun e he => ?_, fun q _ => ⟨.inl rfl, trivial⟩⟩
  have hfirst : firstWith ['a', 'b'] (neighbours.cachedNames 0 ++ resolvedNames [] 0) =
      some (['a', 'b'], true) := by decide
  exact some.inj (he.symm.trans hfirst)

end MyOS2.Namei.Dcache
