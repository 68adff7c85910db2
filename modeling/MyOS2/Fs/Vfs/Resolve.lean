import MyOS2.Misc.Fields
import Mathlib.Logic.Relation

/-!
# What a path means

A world of directories and mounts, without a cache: `child` and `parent` make
the trees of the file systems, and a mount `m` shows the tree below `root m` at
the place `place m`. A place is a mount and a node that it shows. A path is
resolved component by component; what a component leads to is the top of the
mounts on the place that it names.
-/

namespace MyOS2.Namei

open Option

variable {M N A : Type*}

/-- Directories and mounts, without a cache. -/
structure World (M N A : Type*) where
  child : N → A → Option N
  parent : N → N
  isDir : N → Prop
  root : M → N
  on : M × N → Option M
  place : M → Option (M × N)

/-- A component of a path. -/
inductive Component (A : Type*)
  | dot
  | dotdot
  | name (n : A)
  deriving DecidableEq

/-- Why a path leads nowhere. -/
inductive Failure
  | noEntry
  | notDirectory
  deriving DecidableEq

variable {out : Except Failure (M × N)} {t : M × N}

namespace World

variable {w : World M N A} {r p q : M × N} {m : M}

/-- Going through the mounts on a place, up to the last. -/
inductive Top (w : World M N A) : M × N → M × N → Prop
  | free {p : M × N} : w.on p = none → Top w p p
  | covered {p q : M × N} {k : M} : w.on p = some k → Top w (k, w.root k) q → Top w p q

/-- The way up from the root of a mount, across mounts that cover the roots of others: to a place
inside a mount, or nowhere when it meets the place `r` or the mount that all others are on. -/
inductive Across (w : World M N A) (r : M × N) : M → Option (M × N) → Prop
  | top {m : M} : w.place m = none → Across w r m none
  | stop {m : M} : w.place m = some r → Across w r m none
  | inside {m : M} {q : M × N} : w.place m = some q → q ≠ r → q.2 ≠ w.root q.1 →
      Across w r m (some q)
  | through {m : M} {q : M × N} {out : Option (M × N)} : w.place m = some q → q ≠ r →
      q.2 = w.root q.1 → Across w r q.1 out → Across w r m out

/-- Where `..` leads to, before the mounts on it; `r` is the root directory of the process. -/
inductive Parent (w : World M N A) (r : M × N) : M × N → M × N → Prop
  | inside {p : M × N} : p.2 ≠ w.root p.1 → Parent w r p (p.1, w.parent p.2)
  | across {p q : M × N} : p.2 = w.root p.1 → Across w r p.1 (some q) →
      Parent w r p (q.1, w.parent q.2)
  | stays {p : M × N} : p.2 = w.root p.1 → Across w r p.1 none → Parent w r p p

/-- Where one component leads. -/
inductive Step (w : World M N A) (r : M × N) :
    M × N → Component A → Except Failure (M × N) → Prop
  | dot {p : M × N} : Step w r p .dot (.ok p)
  | dotdot {p q t : M × N} : Parent w r p q → Top w q t → Step w r p .dotdot (.ok t)
  | name {p t : M × N} {n : A} {x : N} : w.child p.2 n = some x → Top w (p.1, x) t →
      Step w r p (.name n) (.ok t)
  | missing {p : M × N} {n : A} : w.child p.2 n = none → Step w r p (.name n) (.error .noEntry)

/-- Where the components lead, one after the other. -/
inductive Resolves (w : World M N A) (r : M × N) :
    M × N → List (Component A) → Except Failure (M × N) → Prop
  | here {p : M × N} : Resolves w r p [] (.ok p)
  | last {p : M × N} {a : Component A} {out : Except Failure (M × N)} : Step w r p a out →
      Resolves w r p [a] out
  | fails {p : M × N} {a b : Component A} {l : List (Component A)} {e : Failure} :
      Step w r p a (.error e) → Resolves w r p (a :: b :: l) (.error e)
  | file {p q : M × N} {a b : Component A} {l : List (Component A)} : Step w r p a (.ok q) →
      ¬ w.isDir q.2 → Resolves w r p (a :: b :: l) (.error .notDirectory)
  | next {p q : M × N} {a b : Component A} {l : List (Component A)}
      {out : Except Failure (M × N)} : Step w r p a (.ok q) → w.isDir q.2 →
      Resolves w r q (b :: l) out → Resolves w r p (a :: b :: l) out

/-! ## A path means one thing -/

theorem Top.unique {t' : M × N} (h : w.Top p t) (h' : w.Top p t') : t = t' := by
  induction h with
  | free hfree =>
    cases h' with
    | free => rfl
    | covered hk => simp [hfree] at hk
  | covered hk _ ih =>
    cases h' with
    | free hfree => simp [hfree] at hk
    | covered hk' htop =>
      obtain rfl := some.inj (hk.symm.trans hk')
      exact ih htop

theorem Across.unique {out out' : Option (M × N)} (h : w.Across r m out)
    (h' : w.Across r m out') : out = out' := by
  induction h with
  | top hat =>
    cases h' with
    | top | stop => rfl
    | inside hat' | through hat' => simp [hat] at hat'
  | stop hat =>
    cases h' with
    | top | stop => rfl
    | inside hat' hne | through hat' hne => exact absurd (some.inj (hat'.symm.trans hat)) hne
  | inside hat hne hin =>
    cases h' with
    | top hat' => simp [hat] at hat'
    | stop hat' => exact absurd (some.inj (hat.symm.trans hat')) hne
    | inside hat' => rw [some.inj (hat.symm.trans hat')]
    | through hat' _ hroot =>
      obtain rfl := some.inj (hat.symm.trans hat')
      exact absurd hroot hin
  | through hat hne hroot _ ih =>
    cases h' with
    | top hat' => simp [hat] at hat'
    | stop hat' => exact absurd (some.inj (hat.symm.trans hat')) hne
    | inside hat' _ hin =>
      obtain rfl := some.inj (hat.symm.trans hat')
      exact absurd hroot hin
    | through hat' _ _ hacross =>
      obtain rfl := some.inj (hat.symm.trans hat')
      exact ih hacross

theorem Parent.unique {q' : M × N} (h : w.Parent r p q) (h' : w.Parent r p q') : q = q' := by
  cases h with
  | inside hin =>
    cases h' with
    | inside => rfl
    | across hroot | stays hroot => exact absurd hroot hin
  | across hroot hacross =>
    cases h' with
    | inside hin => exact absurd hroot hin
    | across _ hacross' =>
      obtain rfl := some.inj (hacross.unique hacross')
      rfl
    | stays _ hacross' => exact absurd (hacross.unique hacross') (by simp)
  | stays hroot hacross =>
    cases h' with
    | inside hin => exact absurd hroot hin
    | across _ hacross' => exact absurd (hacross.unique hacross') (by simp)
    | stays => rfl

theorem Step.unique {a : Component A} {out' : Except Failure (M × N)} (h : w.Step r p a out)
    (h' : w.Step r p a out') : out = out' := by
  cases h with
  | dot =>
    cases h'
    rfl
  | dotdot hparent htop =>
    cases h' with
    | dotdot hparent' htop' =>
      obtain rfl := hparent.unique hparent'
      rw [htop.unique htop']
  | name hchild htop =>
    cases h' with
    | name hchild' htop' =>
      obtain rfl := some.inj (hchild.symm.trans hchild')
      rw [htop.unique htop']
    | missing hnone => simp [hchild] at hnone
  | missing hnone =>
    cases h' with
    | name hchild => simp [hnone] at hchild
    | missing => rfl

theorem Resolves.unique {l : List (Component A)} {out' : Except Failure (M × N)}
    (h : w.Resolves r p l out) (h' : w.Resolves r p l out') : out = out' := by
  induction h with
  | here =>
    cases h'
    rfl
  | last hstep =>
    cases h' with
    | last hstep' => exact hstep.unique hstep'
  | fails hstep =>
    cases h' with
    | fails hstep' => exact Except.error.inj (hstep.unique hstep') ▸ rfl
    | file hstep' | next hstep' => exact absurd (hstep.unique hstep') (by simp)
  | file hstep hfile =>
    cases h' with
    | fails hstep' => exact absurd (hstep.unique hstep') (by simp)
    | file => rfl
    | next hstep' hdir =>
      obtain rfl := Except.ok.inj (hstep.unique hstep')
      exact absurd hdir hfile
  | next hstep hdir _ ih =>
    cases h' with
    | fails hstep' => exact absurd (hstep.unique hstep') (by simp)
    | file hstep' hfile =>
      obtain rfl := Except.ok.inj (hstep.unique hstep')
      exact absurd hdir hfile
    | next hstep' _ hrest =>
      obtain rfl := Except.ok.inj (hstep.unique hstep')
      exact ih hrest

theorem Resolves.cons_iff {a b : Component A} {l : List (Component A)}
    (hstep : w.Step r p a (.ok q)) (hdir : w.isDir q.2) :
    w.Resolves r p (a :: b :: l) out ↔ w.Resolves r q (b :: l) out := by
  constructor
  · intro h
    cases h with
    | fails hstep' => exact absurd (hstep.unique hstep') (by simp)
    | file hstep' hfile =>
      obtain rfl := Except.ok.inj (hstep.unique hstep')
      exact absurd hdir hfile
    | next hstep' _ hrest =>
      obtain rfl := Except.ok.inj (hstep.unique hstep')
      exact hrest
  · exact .next hstep hdir

/-! ## Different places have different tops -/

/-- Every mount knows where it is, and lies above the mount that it is on. -/
structure Grounded (w : World M N A) : Prop where
  place : ∀ p k, w.on p = some k → w.place k = some p
  rank : ∃ rank : M → Nat, ∀ k p, w.place k = some p → rank p.1 < rank k

def Enters (w : World M N A) (p q : M × N) : Prop := ∃ k, w.on p = some k ∧ q = (k, w.root k)

theorem Top.enters (h : w.Top p t) : Relation.ReflTransGen w.Enters p t := by
  induction h with
  | free => exact .refl
  | covered hk _ ih => exact .head ⟨_, hk, rfl⟩ ih

theorem Grounded.enters_inj (hw : w.Grounded) {p' : M × N} (h : w.Enters p q)
    (h' : w.Enters p' q) : p = p' := by
  obtain ⟨k, hk, rfl⟩ := h
  obtain ⟨k', hk', heq⟩ := h'
  obtain rfl : k = k' := congrArg Prod.fst heq
  exact some.inj ((hw.place p k hk).symm.trans (hw.place p' k hk'))

theorem Top.total (hw : w.Grounded) (h : w.Top p t) (h' : w.Top q t) :
    Relation.ReflTransGen w.Enters p q ∨ Relation.ReflTransGen w.Enters q p := by
  induction h with
  | free => exact .inr h'.enters
  | covered hk _ ih =>
    rcases ih h' with hreach | hreach
    · exact .inl (.head ⟨_, hk, rfl⟩ hreach)
    · rcases hreach.cases_tail with heq | ⟨x, hreach, hlast⟩
      · exact .inl (heq ▸ .single ⟨_, hk, rfl⟩)
      · exact .inr (hw.enters_inj hlast ⟨_, hk, rfl⟩ ▸ hreach)

theorem Top.inj (hw : w.Grounded) {x y : N} (h : w.Top (m, x) t) (h' : w.Top (m, y) t) : x = y := by
  obtain ⟨rank, hrank⟩ := hw.rank
  have hup : ∀ p q, Relation.ReflTransGen w.Enters p q → p = q ∨ rank p.1 < rank q.1 := by
    intro p q hreach
    induction hreach with
    | refl => exact .inl rfl
    | tail _ hlast ih =>
      obtain ⟨k, hk, rfl⟩ := hlast
      have hlt := hrank k _ (hw.place _ k hk)
      rcases ih with rfl | ih
      · exact .inr hlt
      · exact .inr (Nat.lt_trans ih hlt)
  rcases h.total hw h' with hreach | hreach
  · rcases hup _ _ hreach with heq | hlt
    · exact congrArg Prod.snd heq
    · exact absurd hlt (Nat.lt_irrefl _)
  · rcases hup _ _ hreach with heq | hlt
    · exact (congrArg Prod.snd heq).symm
    · exact absurd hlt (Nat.lt_irrefl _)

end World

def componentOf (piece : List Char) : Component (List Char) :=
  if piece = ['.', '.'] then .dotdot else if piece = ['.'] then .dot else .name piece

def components (path : List Char) : List (Component (List Char)) :=
  (fields '/' path).map componentOf

end MyOS2.Namei
