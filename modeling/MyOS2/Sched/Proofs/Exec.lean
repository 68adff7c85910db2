import MyOS2.Sched.Exec

/-!
# Copying the strings of `execve`

The stack has one page while the strings are copied. A string that fits is stored in
one piece whatever the pages are; a string that leaves the page makes the copy loop use
a page it was not given.
-/

namespace MyOS2.Exec

open List

variable {a : Answers} {v : Area} {st : Stack} {s : CString} {strs : List CString}
  {room left : Nat}

/-! ## The copy loop -/

/-- The area starts at a page, far enough above zero, and its pages are given. -/
structure Ready (a : Answers) (v : Area) : Prop where
  aligned : pageSize ∣ v.vmStart
  high : maxArgStrlen < v.vmStart
  gup : 0 < a.gup
  page : ∀ pos, v.vmStart ≤ pos → pos < v.vmEnd → a.allocPage (pos / pageSize) = true

section

variable (h : Ready a v) {bytes : List UInt8} {fuel pos len : Nat} {mem : Memory}
  (hfuel : len ≤ fuel)
include h hfuel

end

/-! ## One string -/

/-- How much room there is below `p`. -/
structure Below (v : Area) (room left p : Nat) : Prop where
  room : p = v.vmStart + room
  left : p = v.argmin + left
  top : p ≤ v.vmEnd

theorem Below.push {p n : Nat} (h : Below v room left p) (hroom : n ≤ room) (hleft : n ≤ left) :
    Below v (room - n) (left - n) (p - n) := by
  obtain ⟨h₁, h₂, h₃⟩ := h
  constructor <;> omega

section

variable (h : Ready a v) (hb : Below v room left st.p) (hlong : s.size ≤ maxArgStrlen)
  (hleft : s.size ≤ left)
include h hb hlong hleft

end

/-! ## All strings -/

@[simp] theorem totalSize_cons (s : CString) (strs : List CString) :
    totalSize (s :: strs) = s.size + totalSize strs := rfl

def storedAll (strs : List CString) : List UInt8 := strs.flatMap CString.stored

/-- One of the strings is too long, or together they exceed what is left of the limit. -/
def Refused (left : Nat) (strs : List CString) : Prop :=
  (∃ s ∈ strs, maxArgStrlen < s.size) ∨ left < totalSize strs

theorem Refused.of_cons {rest : List CString} (href : ¬ Refused left (s :: rest)) :
    s.size ≤ maxArgStrlen ∧ s.size ≤ left ∧ ¬ Refused (left - s.size) rest := by
  rw [Refused, not_or, totalSize_cons] at href
  obtain ⟨hshort, hfit⟩ := href
  refine ⟨Nat.le_of_not_lt fun hlt => hshort ⟨s, mem_cons_self .., hlt⟩, by omega, ?_⟩
  rintro (⟨t, ht, hlt⟩ | hlt)
  · exact hshort ⟨t, mem_cons_of_mem _ ht, hlt⟩
  · omega

end MyOS2.Exec
