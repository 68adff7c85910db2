import Mathlib.Algebra.Group.Nat.Defs
import Mathlib.Tactic.Ring
import MyOS2.Misc.Bytes

/-!
# Little-endian fields in memory

A number in so many bytes, lowest first, and a record whose fields are stored one after the
other at their offsets. If no two fields overlap, each is read back as it was stored, and
nothing changes outside the record.
-/

namespace MyOS2

def leBytes : Nat → Nat → List UInt8
  | 0, _ => []
  | w + 1, v => UInt8.ofNat v :: leBytes w (v / 256)

def leValue : List UInt8 → Nat
  | [] => 0
  | b :: bs => b.toNat + 256 * leValue bs

@[simp] theorem length_leBytes (w v : Nat) : (leBytes w v).length = w := by
  induction w generalizing v with
  | zero => rfl
  | succ w ih => simp [leBytes, ih]

theorem leValue_leBytes (w v : Nat) : leValue (leBytes w v) = v % 256 ^ w := by
  induction w generalizing v with
  | zero => simp [leBytes, leValue, Nat.mod_one]
  | succ w ih =>
    rw [leBytes, leValue, ih, UInt8.toNat_ofNat', Nat.pow_succ' (m := 256), Nat.mod_mul]

def readLe (mem : Nat → UInt8) (a w : Nat) : Nat := leValue ((List.range w).map fun i => mem (a + i))

theorem readLe_congr {mem mem' : Nat → UInt8} {a w : Nat} (h : ∀ i < w, mem' (a + i) = mem (a + i)) :
    readLe mem' a w = readLe mem a w := by
  exact congrArg leValue (List.map_congr_left fun i hi => h i (List.mem_range.1 hi))

theorem readLe_of_holds {mem : Nat → UInt8} {a : Nat} {bs : List UInt8} (h : Holds mem a bs) :
    readLe mem a bs.length = leValue bs := by
  refine congrArg leValue (List.ext_getElem (by simp) fun i hi hi' => ?_)
  rw [List.getElem_map, List.getElem_range]
  exact h i _ (List.getElem?_eq_getElem hi')

/-- A field of a record: where it lies, how wide it is, and what it holds. -/
structure Field where
  offset : Nat
  width : Nat
  value : Nat

namespace Field

variable {mem : Nat → UInt8} {a x : Nat} {f : Field} {fs : List Field}

def put (mem : Nat → UInt8) (a : Nat) (f : Field) : Nat → UInt8 :=
  putBytes mem (a + f.offset) (leBytes f.width f.value)

def putAll (mem : Nat → UInt8) (a : Nat) (fs : List Field) : Nat → UInt8 :=
  fs.foldl (fun mem f => f.put mem a) mem

/-- Two fields, given by offset and width, do not overlap. -/
def Apart (f g : Nat × Nat) : Prop := f.1 + f.2 ≤ g.1 ∨ g.1 + g.2 ≤ f.1

instance (f g : Nat × Nat) : Decidable (Apart f g) := inferInstanceAs (Decidable (_ ∨ _))

def place (f : Field) : Nat × Nat := (f.offset, f.width)

theorem put_of_outside (h : x < a + f.offset ∨ a + f.offset + f.width ≤ x) :
    f.put mem a x = mem x := by
  rcases h with h | h
  · exact putBytes_of_lt h
  · exact putBytes_of_le (by simpa using h)

theorem readLe_put : readLe (f.put mem a) (a + f.offset) f.width = f.value % 256 ^ f.width := by
  have hput : Holds (f.put mem a) (a + f.offset) (leBytes f.width f.value) := holds_putBytes
  have h := readLe_of_holds hput
  rwa [length_leBytes, leValue_leBytes] at h

theorem readLe_put_of_apart {p : Nat × Nat} (h : Apart f.place p) :
    readLe (f.put mem a) (a + p.1) p.2 = readLe mem (a + p.1) p.2 := by
  refine readLe_congr fun i hi => put_of_outside ?_
  simp only [Apart, place] at h
  omega

theorem readLe_putAll_of_apart {p : Nat × Nat} (h : ∀ f ∈ fs, Apart f.place p) :
    readLe (putAll mem a fs) (a + p.1) p.2 = readLe mem (a + p.1) p.2 := by
  induction fs generalizing mem with
  | nil => rfl
  | cons f fs ih =>
    exact (ih fun g hg => h g (List.mem_cons_of_mem _ hg)).trans
      (readLe_put_of_apart (h f List.mem_cons_self))

theorem readLe_putAll (hapart : (fs.map place).Pairwise Apart) (hf : f ∈ fs) :
    readLe (putAll mem a fs) (a + f.offset) f.width = f.value % 256 ^ f.width := by
  induction fs generalizing mem with
  | nil => contradiction
  | cons g fs ih =>
    rw [List.map_cons, List.pairwise_cons] at hapart
    obtain ⟨hg, hfs⟩ := hapart
    rw [putAll, List.foldl_cons]
    rcases List.mem_cons.1 hf with rfl | hf
    · refine (readLe_putAll_of_apart (p := f.place) fun k hk => ?_).trans readLe_put
      exact (hg k.place (List.mem_map_of_mem hk)).symm
    · exact ih hfs hf

theorem putAll_of_outside {size : Nat} (hsize : ∀ f ∈ fs, f.offset + f.width ≤ size)
    (hx : x < a ∨ a + size ≤ x) : putAll mem a fs x = mem x := by
  induction fs generalizing mem with
  | nil => rfl
  | cons f fs ih =>
    have hf := hsize f List.mem_cons_self
    exact (ih fun g hg => hsize g (List.mem_cons_of_mem _ hg)).trans (put_of_outside (by omega))

end Field

end MyOS2
