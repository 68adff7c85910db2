import MyOS2.Fs.Vfs.Modify
import MyOS2.Fs.Vfs.Proofs.Walk

/-!
# Creating a name that exists

No check stands between the lookup of the last component and the method of the file
system, and the methods do not look at the entries that are there: a name that
exists is created once more.
-/

namespace MyOS2.Namei.Icache

open Option

variable {s s' : Icache} {c : Dcache} {nd : Nameidata} {fuel : Nat} {fs : TaskFs} {name : Name}
  {err : Int}

/-- The directory that the walk has reached holds the last component. -/
def Exists (c : Dcache) (nd : Nameidata) : Prop :=
  nd.lastType = .norm ∧ ∃ i x, c.dInode nd.path.dentry = some i ∧ c.find i nd.last = some x

/-- The directories and the inodes are as they were after the walk, and so is what the cache knows
of the last component. -/
structure Unchanged (c : Dcache) (nd : Nameidata) (s : Icache) : Prop where
  entries : s.entries = c.entries
  dInode : ∀ d < c.nextDentry, s.dInode d = c.dInode d
  dLookup : ∀ k, c.dLookup nd.path.dentry nd.last = some k →
    s.dLookup nd.path.dentry nd.last = some k

/-- A call whose last component is special, or exists, fails and changes nothing. -/
def NoClobber (s : Icache) (call : Create) (room : Room) (fuel : Nat) (fs : TaskFs) (name : Name)
    (c : Dcache) (nd : Nameidata) : Prop :=
  nd.lastType ≠ .norm ∨ Exists c nd →
    ∃ s', s.doCreate call room fuel fs name = some (-eexist, s') ∧ Unchanged c nd s'

theorem fat32Create_ne (call : Create) (dir : Ino) (room : Room) :
    (s.fat32Create dir name room call).1 ≠ -eexist := by
  have hadd : (s.vfatAddEntry dir name room).1 ≠ -eexist := by
    rw [vfatAddEntry]
    split <;> simp [enoent, eexist]
  cases call with
  | creat => exact hadd
  | mkdir newDir =>
    rcases newDir with _ | _ | _
    · exact hadd
    · simp [fat32Create, DirError.errno, eexist]
    · simp [fat32Create, DirError.errno, eexist]

theorem lookupHash_err {base : DentryId} (h : s.lookupHash name base = some (.error err, s')) :
    err = -enoent := by
  rw [lookupHash] at h
  split at h
  · simp at h
  · obtain ⟨dir, -, h⟩ := bind_eq_some_iff.mp h
    split at h
    · exact (Except.error.inj (congrArg Prod.fst (some.inj h))).symm
    · simp at h

/-- The only calls that fail with `-EEXIST` are those whose last component is special. -/
theorem doCreate_ne (hwalk : s.filenameParentat fuel fs name = some (0, c, nd))
    (htype : nd.lastType = .norm) {call : Create} {room : Room} :
    s.doCreate call room fuel fs name ≠ some (-eexist, s') := by
  intro h
  obtain ⟨⟨out, s₁⟩, hcreate, h⟩ := bind_eq_some_iff.mp h
  rw [filenameCreate, hwalk] at hcreate
  simp only [bind_eq_bind, bind_some, ne_eq, not_true_eq_false, if_false, htype] at hcreate
  obtain ⟨⟨found, s₂⟩, hlookup, hcreate⟩ := bind_eq_some_iff.mp hcreate
  cases found with
  | error e =>
    cases hcreate
    have he := congrArg Prod.fst (some.inj h)
    simp [lookupHash_err hlookup, enoent, eexist] at he
  | ok dentry =>
    cases hcreate
    obtain ⟨dir, -, h⟩ := bind_eq_some_iff.mp h
    split at h
    · simp [eperm, eexist] at h
    · exact fat32Create_ne call dir room (congrArg Prod.fst (some.inj h))

theorem doCreate_special (hwalk : s.filenameParentat fuel fs name = some (0, c, nd))
    (htype : nd.lastType ≠ .norm) (call : Create) (room : Room) :
    s.doCreate call room fuel fs name = some (-eexist, { s with toDcache := c }) := by
  simp [doCreate, filenameCreate, hwalk, htype]

/-- Where the directory is found, the calls refuse to create what is there exactly when the last
component is not a name that exists. -/
theorem noClobber_iff (hwalk : s.filenameParentat fuel fs name = some (0, c, nd))
    (call : Create) (room : Room) :
    s.NoClobber call room fuel fs name c nd ↔ ¬ Exists c nd := by
  constructor
  · intro h hexists
    obtain ⟨s', hcreate, -⟩ := h (.inr hexists)
    exact doCreate_ne hwalk hexists.1 hcreate
  · rintro hno (htype | hexists)
    · exact ⟨_, doCreate_special hwalk htype call room, rfl, fun _ _ => rfl, fun _ hk => hk⟩
    · exact absurd hexists hno

def oneFile : Icache where
  toVfs := { Vfs.single with dSubdirs := fun _ => [], nextDentry := 1 }
  dInode d := if d = 0 then some 0 else none
  entries i := if i = 0 then [(['a'], 1)] else []
  sIsDir i := i == 0
  sDead _ := false
  iOp _ := ⟨true, true, true, true⟩

/-- `creat ("/a")` succeeds, and there are two files `a`. -/
theorem creat_twice : ∃ c nd s',
    oneFile.filenameParentat 1 ⟨⟨0, 0⟩, ⟨0, 0⟩⟩ ['/', 'a'] = some (0, c, nd) ∧ Exists c nd ∧
    oneFile.doCreatat ⟨1, 2⟩ 1 ⟨⟨0, 0⟩, ⟨0, 0⟩⟩ ['/', 'a'] = some (0, s') ∧
    s'.entries 0 = [(['a'], 1), (['a'], 2)] :=
  ⟨_, _, _, rfl, ⟨rfl, 0, 1, rfl, rfl⟩, rfl, rfl⟩

/-- There is no `b` to be clobbered by `mkdir ("/b")`. -/
theorem noClobber_iff_free :
    oneFile.NoClobber (.mkdir none) ⟨1, 2⟩ 1 ⟨⟨0, 0⟩, ⟨0, 0⟩⟩ ['/', 'b'] oneFile.toDcache
      ⟨⟨0, 0⟩, ⟨0, 0⟩, ['b'], .norm⟩ := by
  refine (noClobber_iff (s := oneFile) rfl (.mkdir none) ⟨1, 2⟩).mpr ?_
  rintro ⟨-, i, x, hi, hx⟩
  cases hi
  simp [oneFile, Dcache.find] at hx

end MyOS2.Namei.Icache
