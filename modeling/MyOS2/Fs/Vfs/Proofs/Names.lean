import MyOS2.Fs.Vfs.Proofs.Remove

/-!
# Names in the cache

`__d_lookup` takes the first child whose name begins with the one it looks for. A name
is only added after a search without success, so no directory gets one twice.
-/

namespace MyOS2.Namei

open Function Option

variable {v : Vfs} {c c' : Dcache} {s s' : Icache} {nd nd' : Nameidata} {fuel : Nat} {fs : TaskFs}
  {name : Name} {err : Int}

/-! ## One search -/

namespace Vfs

/-- The child with the name, or the news that there is none. -/
def Answers (v : Vfs) (parent : DentryId) (name : Name) : Option DentryId → Prop
  | some k => k ∈ v.dSubdirs parent ∧ v.dName k = name
  | none => ∀ k ∈ v.dSubdirs parent, v.dName k ≠ name

def LongerBehind (v : Vfs) (parent : DentryId) (name : Name) : Prop :=
  ∀ l k r, v.dSubdirs parent = l ++ k :: r → name <+: v.dName k → v.dName k ≠ name →
    ∃ j ∈ l, v.dName j = name

theorem answers_iff_longerBehind {parent : DentryId} :
    v.Answers parent name (v.dLookup parent name) ↔ v.LongerBehind parent name := by
  cases hfind : v.dLookup parent name with
  | none =>
    have hno : ∀ k ∈ v.dSubdirs parent, ¬ name <+: v.dName k := by
      simpa [dLookup] using hfind
    refine iff_of_true (fun k hk hname => hno k hk (hname ▸ List.prefix_rfl)) ?_
    intro l k r hsub hpre
    exact absurd hpre (hno k (by simp [hsub]))
  | some k =>
    constructor
    · rintro ⟨-, hname⟩ l k' r hsub hpre hne
      -- the search ended in `l`, or with `k'`
      rw [dLookup, hsub, List.find?_append, List.find?_cons_of_pos (by simpa using hpre)] at hfind
      rcases or_eq_some_iff.mp hfind with hl | ⟨-, hk⟩
      · exact ⟨k, List.mem_of_find?_eq_some hl, hname⟩
      · exact absurd (some.inj hk ▸ hname) hne
    · intro h
      obtain ⟨hpre, l, r, hsub, hbefore⟩ := List.find?_eq_some_iff_append.mp hfind
      refine ⟨by simp [hsub], by_contra fun hne => ?_⟩
      obtain ⟨j, hj, hname⟩ := h l k r hsub (by simpa using hpre) hne
      exact absurd (hbefore j hj) (by simp [hname])

/-! ## Any number of calls -/

/-- The children have been allocated, and no directory has two of one name. -/
def Distinct (v : Vfs) : Prop :=
  ∀ d, (∀ k ∈ v.dSubdirs d, k < v.nextDentry) ∧ ((v.dSubdirs d).map v.dName).Nodup

end Vfs

theorem Vfs.Distinct.addChild {dir : DentryId} (h : c.Distinct) (hnone : c.dLookup dir name = none)
    (inode : Option Ino) : (c.addChild dir name inode).Distinct := by
  have hold : ∀ d, (∀ k ∈ c.dSubdirs d, k < c.nextDentry + 1) ∧
      (c.dSubdirs d).map (update c.dName c.nextDentry name) = (c.dSubdirs d).map c.dName := by
    intro d
    refine ⟨fun k hk => Nat.lt_succ_of_lt ((h d).1 k hk), List.map_congr_left fun k hk => ?_⟩
    exact update_of_ne (Nat.ne_of_lt ((h d).1 k hk)) ..
  refine (forall_update_iff (update c.dSubdirs c.nextDentry []) fun _ l =>
    (∀ k ∈ l, k < c.nextDentry + 1) ∧ (l.map (update c.dName c.nextDentry name)).Nodup).mpr
      ⟨⟨?_, ?_⟩, fun d _ => ?_⟩
  · simpa [or_imp, forall_and] using (hold dir).1
  · rw [List.map_append, (hold dir).2, List.map_singleton, update_self]
    refine List.nodup_append.mpr ⟨(h dir).2, by simp, fun old hold new hnew => ?_⟩
    obtain ⟨k, hk, rfl⟩ := List.mem_map.mp hold
    rw [List.mem_singleton.mp hnew]
    exact Dcache.fresh_of_dLookup hnone k hk
  · by_cases hd : d = c.nextDentry
    · simp [hd]
    · rw [update_of_ne hd, (hold d).2]
      exact ⟨(hold d).1, (h d).2⟩

namespace Dcache

theorem distinct_of_walkComponent (h : c.Distinct)
    (hwalk : c.walkComponent fuel nd = some (err, c', nd')) : c'.Distinct := by
  cases moves_of_walkComponent hwalk with
  | dots | cached | missing => exact h
  | found _ hnone => exact h.addChild hnone _

theorem distinct_of_linkPathLoop {n : Nat} (h : c.Distinct)
    (hwalk : linkPathLoop fuel n c name nd = some (err, c', nd')) : c'.Distinct := by
  induction n generalizing c name nd with
  | zero => simp [linkPathLoop] at hwalk
  | succ n ih =>
    rw [linkPathLoop] at hwalk
    simp only at hwalk
    split at hwalk
    · cases hwalk
      exact h
    obtain ⟨⟨err₁, c₁, nd₁⟩, hcomp, hwalk⟩ := bind_eq_some_iff.mp hwalk
    have h₁ := distinct_of_walkComponent h hcomp
    split at hwalk
    · cases hwalk
      exact h₁
    · exact ih h₁ hwalk

theorem distinct_of_linkPathWalk (h : c.Distinct)
    (hwalk : c.linkPathWalk fuel name nd = some (err, c', nd')) : c'.Distinct := by
  rw [linkPathWalk] at hwalk
  split at hwalk
  · cases hwalk
    exact h
  · exact distinct_of_linkPathLoop h hwalk

theorem distinct_of_pathLookupat {r : Except Int Path} (h : c.Distinct)
    (hlookup : c.pathLookupat fuel fs name = some (r, c')) : c'.Distinct := by
  obtain ⟨⟨err₁, c₁, nd₁⟩, hwalk, hlookup⟩ := bind_eq_some_iff.mp hlookup
  have h₁ := distinct_of_linkPathWalk h hwalk
  simp only at hlookup
  split at hlookup
  · cases hlookup
    exact h₁
  obtain ⟨⟨err₂, c₂, nd₂⟩, hcomp, hlookup⟩ := bind_eq_some_iff.mp hlookup
  have h₂ := distinct_of_walkComponent h₁ hcomp
  simp only at hlookup
  split at hlookup
  all_goals
    cases hlookup
    exact h₂

end Dcache

namespace Icache

theorem distinct_of_lookupHash {base : DentryId} {r : Except Int DentryId} (h : s.Distinct)
    (hlookup : s.lookupHash name base = some (r, s')) : s'.Distinct := by
  rw [lookupHash] at hlookup
  split at hlookup
  · cases hlookup
    exact h
  · rename_i hnone
    obtain ⟨dir, -, hlookup⟩ := bind_eq_some_iff.mp hlookup
    split at hlookup
    · cases hlookup
      exact h
    · cases hlookup
      exact h.addChild hnone _

theorem distinct_of_filenameCreate {r : Except Int (Path × DentryId)} (h : s.Distinct)
    (hcreate : s.filenameCreate fuel fs name = some (r, s')) : s'.Distinct := by
  obtain ⟨⟨err, c, nd⟩, hwalk, hcreate⟩ := bind_eq_some_iff.mp hcreate
  have hc : c.Distinct := Dcache.distinct_of_linkPathWalk h hwalk
  simp only at hcreate
  split at hcreate
  · cases hcreate
    exact hc
  split at hcreate
  · cases hcreate
    exact hc
  obtain ⟨⟨found, s₁⟩, hlookup, hcreate⟩ := bind_eq_some_iff.mp hcreate
  have h₁ : s₁.Distinct := distinct_of_lookupHash (s := { s with toDcache := c }) hc hlookup
  cases found
  all_goals
    cases hcreate
    exact h₁

theorem toVfs_fat32Create (s : Icache) (dir : Ino) (name : Name) (room : Room) (call : Create) :
    (s.fat32Create dir name room call).2.toVfs = s.toVfs := by
  have hadd : (s.vfatAddEntry dir name room).2.toVfs = s.toVfs := by
    simp only [vfatAddEntry]
    split <;> rfl
  cases call with
  | creat => exact hadd
  | mkdir newDir =>
    cases newDir with
    | none => exact hadd
    | some => rfl

def NamesOnly (_ : Icache) : Op → Prop
  | .lookup .. | .create .. => True
  | .remove .. => False

theorem distinct_of_step {op : Op} {r : Int} (h : s.Distinct) (hop : s.NamesOnly op)
    (hstep : s.step op = some (r, s')) : s'.Distinct := by
  cases op with
  | lookup fuel fs name =>
    obtain ⟨⟨r, c⟩, hlookup, heq⟩ := map_eq_some_iff.mp hstep
    cases heq
    exact Dcache.distinct_of_pathLookupat h hlookup
  | create call room fuel fs name =>
    obtain ⟨⟨found, s₁⟩, hcreate, hstep⟩ := bind_eq_some_iff.mp hstep
    have h₁ := distinct_of_filenameCreate h hcreate
    cases found with
    | error =>
      cases hstep
      exact h₁
    | ok found =>
      obtain ⟨dir, -, hstep⟩ := bind_eq_some_iff.mp hstep
      have hs' : s'.toVfs = s₁.toVfs := by
        split at hstep
        · cases hstep
          rfl
        · rw [← toVfs_fat32Create s₁ dir _ room call, some.inj hstep]
      exact hs' ▸ h₁
  | remove => exact hop.elim

/-- A search is right exactly when longer names stand behind, and calls never add a name that is
there. -/
theorem dLookup_answers_iff (v : Vfs) (parent : DentryId) (name : Name) :
    (v.Answers parent name (v.dLookup parent name) ↔ v.LongerBehind parent name) ∧
    ∀ s : Icache, Reachable step NamesOnly (fun s => s.Distinct) s →
      ∀ d, ((s.dSubdirs d).map s.dName).Nodup := by
  refine ⟨Vfs.answers_iff_longerBehind, fun s hs => ?_⟩
  have hdistinct : s.Distinct :=
    hs.invariant (fun _ h => h) fun _ _ _ _ h hop hstep => distinct_of_step h hop hstep
  exact fun d => (hdistinct d).2

/-- With `ab` in the cache, a search for `a` finds it. -/
theorem finds_longer_name :
    let v := { Vfs.single with dName := fun d => if d = 1 then ['a', 'b'] else [] }
    v.dLookup 0 ['a'] = some 1 ∧ ¬ v.Answers 0 ['a'] (v.dLookup 0 ['a']) := by
  refine ⟨rfl, fun h => ?_⟩
  exact absurd h.2 (by decide)

end Icache

end MyOS2.Namei
