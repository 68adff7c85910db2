import MyOS2.Sched.ProcessTree
import Mathlib.Logic.Relation
import Mathlib.Tactic.Common

/-!
# When the process tree stays a tree

A clone always does. `exit_notify` moves the children of the task that ends to
another list but leaves their `real_parent` alone, so an exit keeps the tree
exactly when no live child is left behind.
-/

namespace MyOS2.Fork.Tasks

open Function

variable {s : Tasks} {t : Addr}

def ParentOf (s : Tasks) (a b : Addr) : Prop := s.Live a ∧ s.Live b ∧ s.realParent a = b

/-- The two forms of the tree agree, and it is one tree with `init_task` at its root: every other
live thread-group leader is once on the list of its parent and on no other, its parent is live, and
the parents of a live task lead to the root. -/
structure Tree (s : Tasks) : Prop where
  linked : ∀ t, s.Live t → t ≠ initTask → s.threadGroupLeader t = true →
    (∀ p, (s.children p).count t = if p = s.realParent t then 1 else 0) ∧ s.Live (s.realParent t)
  rooted : ∀ t, s.Live t → Relation.ReflTransGen s.ParentOf t initTask

/-- The tasks are a tree over `init_task`. -/
structure Inv (s : Tasks) : Prop where
  tree : s.Tree
  root : s.isTask initTask = true ∧ s.realParent initTask = initTask
  rootOff : ∀ p, initTask ∉ s.children p
  leader : ∀ t, s.isTask t = true → 0 ≤ s.exitSignal t
  listed : ∀ p, ∀ c ∈ s.children p, s.isTask c = true

/-- The task that ends leaves no live child behind: it has none, or all are dead and the search for
pid 1 finds another task for them. -/
def LeavesNoOrphan (s : Tasks) : Op → Prop
  | .clone .. => True
  | .exit t initd =>
    s.children t = [] ∨
      ∃ i, initd = some i ∧ i ≠ t ∧ s.isTask i = true ∧ ∀ c ∈ s.children t, s.dead c = true

instance (s : Tasks) (t : Addr) : Decidable (s.Live t) := inferInstanceAs (Decidable (_ ∧ _))

instance (s : Tasks) : (op : Op) → Decidable (s.Ok op)
  | .clone current _ _ (.ok g) =>
    decidable_of_iff (s.Live current ∧ s.isTask g.task = false ∧ g.nr ≠ 0) (by simp [Ok])
  | .clone current _ _ (.error _) => decidable_of_iff (s.Live current) (by simp [Ok])
  | .exit current _ => inferInstanceAs (Decidable (s.Live current))

instance (s : Tasks) : (op : Op) → Decidable (s.LeavesNoOrphan op)
  | .clone .. => .isTrue trivial
  | .exit t initd => decidable_of_iff (s.children t = [] ∨ ∃ i ∈ initd, i ≠ t ∧ s.isTask i = true ∧
      ∀ c ∈ s.children t, s.dead c = true) (by simp [LeavesNoOrphan])

theorem boot_inv : boot.Inv where
  tree :=
    { linked := by
        intro t ht hne
        exact absurd (by simpa [boot] using ht.1) hne
      rooted := by
        intro t ht
        have hroot : t = initTask := by simpa [boot] using ht.1
        rw [hroot] }
  root := by decide
  rootOff := by simp [boot]
  leader := by simp [boot]
  listed := by simp [boot]

variable {c : Addr}

namespace Inv

theorem threadGroupLeader (h : s.Inv) (ht : s.isTask t = true) :
    s.threadGroupLeader t = true := decide_eq_true (h.leader t ht)

theorem live_realParent (h : s.Inv) (ht : s.Live t) : s.Live (s.realParent t) := by
  by_cases hroot : t = initTask
  · rw [hroot, h.root.2, ← hroot]
    exact ht
  · exact (h.tree.linked t ht hroot (h.threadGroupLeader ht.1)).2

theorem realParent_of_mem (h : s.Inv) {p : Addr} (hc : s.Live c) (hmem : c ∈ s.children p) :
    c ≠ initTask ∧ s.realParent c = p := by
  have hroot : c ≠ initTask := by
    intro he
    exact h.rootOff p (he ▸ hmem)
  have hcount := (h.tree.linked c hc hroot (h.threadGroupLeader hc.1)).1 p
  by_cases hp : p = s.realParent c
  · exact ⟨hroot, hp.symm⟩
  · rw [if_neg hp] at hcount
    exact absurd hmem (List.count_eq_zero.1 hcount)

theorem realParent_ne (h : s.Inv) (ht : s.Live t) (hroot : t ≠ initTask) : s.realParent t ≠ t := by
  intro hself
  have key : ∀ x, Relation.ReflTransGen s.ParentOf t x → x = t := by
    intro x hx
    induction hx with
    | refl => rfl
    | tail _ hstep ih =>
      rw [← hstep.2.2, ih, hself]
  exact hroot (key initTask (h.tree.rooted t ht)).symm

end Inv

/-! ## A clone -/

/-- A task has been linked under its parent. -/
structure Added (s s' : Tasks) (p par : Addr) : Prop where
  isTask : s'.isTask = update s.isTask p true
  dead : s'.dead = update s.dead p false
  realParent : s'.realParent = update s.realParent p par
  children : s'.children =
    update (update s.children p []) par (s.children par ++ [p])
  leader : 0 ≤ s'.exitSignal p
  exitSignal : ∀ x, x ≠ p → s'.exitSignal x = s.exitSignal x

variable {x : Addr}

namespace Added

variable {s' : Tasks} {p par : Addr}

theorem live_iff (h : Added s s' p par) (hx : x ≠ p) : s'.Live x ↔ s.Live x := by
  simp [Live, h.isTask, h.dead, hx]

theorem live_self (h : Added s s' p par) : s'.Live p := by
  simp [Live, h.isTask, h.dead]

theorem count (h : Added s s' p par) {q : Addr} (hx : x ≠ p) (hq : q ≠ p) :
    (s'.children q).count x = (s.children q).count x := by
  rw [h.children]
  by_cases hpar : q = par
  · simp [hpar, List.count_append, Ne.symm hx]
  · simp [hpar, hq]

end Added

variable {s' : Tasks}

theorem Inv.added (h : s.Inv) {p par : Addr} (hnew : s.isTask p = false)
    (hpar : s.Live par) (ha : Added s s' p par) : s'.Inv := by
  have hne : ∀ x, s.isTask x = true → x ≠ p := by
    intro x hx he
    simp [he, hnew] at hx
  have hparp : par ≠ p := hne par hpar.1
  have hoff : ∀ q, p ∉ s.children q := by
    intro q hq
    simp [h.listed q p hq] at hnew
  have hedge : ∀ a b, s.ParentOf a b → s'.ParentOf a b := by
    intro a b hab
    have hap := hne a hab.1.1
    refine ⟨(ha.live_iff hap).2 hab.1, (ha.live_iff (hne b hab.2.1.1)).2 hab.2.1, ?_⟩
    rw [ha.realParent, update_of_ne hap]
    exact hab.2.2
  have hold : ∀ x, s.Live x → Relation.ReflTransGen s'.ParentOf x initTask := by
    intro x hx
    exact Relation.ReflTransGen.mono hedge x initTask (h.tree.rooted x hx)
  have hparent : s'.ParentOf p par := by
    refine ⟨ha.live_self, (ha.live_iff hparp).2 hpar, ?_⟩
    simp [ha.realParent]
  refine ⟨⟨?_, ?_⟩, ?_, ?_, ?_, ?_⟩
  · intro x hx hroot _
    by_cases hxp : x = p
    · subst hxp
      rw [hparent.2.2]
      refine ⟨?_, hparent.2.1⟩
      intro q
      rw [ha.children]
      by_cases hq : q = par
      · simp [hq, List.count_append, List.count_eq_zero.2 (hoff par)]
      · by_cases hqx : q = x
        · simp [hqx, Ne.symm hparp]
        · simp [hq, hqx, List.count_eq_zero.2 (hoff q)]
    · have hxs := (ha.live_iff hxp).1 hx
      have hlink := h.tree.linked x hxs hroot (h.threadGroupLeader hxs.1)
      have hlive := h.live_realParent hxs
      rw [ha.realParent, update_of_ne hxp]
      refine ⟨?_, (ha.live_iff (hne _ hlive.1)).2 hlive⟩
      intro q
      by_cases hq : q = p
      · have hqx : p ≠ s.realParent x := Ne.symm (hne _ hlive.1)
        subst hq
        simp [ha.children, Ne.symm hparp, hqx]
      · rw [ha.count hxp hq]
        exact hlink.1 q
  · intro x hx
    by_cases hxp : x = p
    · subst hxp
      exact .head hparent (hold par hpar)
    · exact hold x ((ha.live_iff hxp).1 hx)
  · have hroot := hne initTask h.root.1
    simp [ha.isTask, ha.realParent, hroot, h.root.1, h.root.2]
  · intro q hq
    rw [ha.children] at hq
    have hroot := hne initTask h.root.1
    by_cases hqpar : q = par
    · subst hqpar
      simp [hroot, h.rootOff q] at hq
    · by_cases hqp : q = p
      · subst hqp
        simp [hqpar] at hq
      · simp [hqpar, hqp, h.rootOff q] at hq
  · intro x hx
    by_cases hxp : x = p
    · subst hxp
      exact ha.leader
    · rw [ha.exitSignal x hxp]
      apply h.leader
      simpa [ha.isTask, hxp] using hx
  · intro q c hc
    rw [ha.isTask]
    by_cases hcp : c = p
    · simp [hcp]
    · rw [update_of_ne hcp]
      have hmem : ∃ q', c ∈ s.children q' := by
        rw [ha.children] at hc
        by_cases hqpar : q = par
        · subst hqpar
          exact ⟨q, by simpa [hcp] using hc⟩
        · by_cases hqp : q = p
          · subst hqp
            simp [hqpar] at hc
          · exact ⟨q, by simpa [hqpar, hqp] using hc⟩
      obtain ⟨q', hq'⟩ := hmem
      exact h.listed q' c hq'

theorem Inv.linkTask (h : s.Inv) {current : Addr} (hcur : s.Live current) (flags : CloneFlags)
    {g : Grant} (hnew : s.isTask g.task = false) (hnr : g.nr ≠ 0) :
    ∃ s', (s.dupTask current flags g).linkTask g = some s' ∧ s'.Inv := by
  let par := if flags.has (cloneParent ||| cloneThread) then s.realParent current else current
  have hpar : s.Live par := by
    show s.Live (if _ then _ else _)
    split
    · exact h.live_realParent hcur
    · exact hcur
  have hparg : par ≠ g.task := by
    intro he
    have hpt := hpar.1
    rw [he, hnew] at hpt
    cases hpt
  let s₁ := (s.dupTask current flags g).markReaper g
  have hchildren : s₁.children = update s.children g.task [] := by
    show (markReaper _ g).children = _
    unfold markReaper
    split <;> rfl
  have hrest : s₁.isTask = update s.isTask g.task true ∧
      s₁.dead = update s.dead g.task false ∧
      s₁.realParent = update s.realParent g.task par ∧
      s₁.exitSignal = update s.exitSignal g.task (s.exitSignal current) := by
    show (markReaper _ g).isTask = _ ∧ (markReaper _ g).dead = _ ∧
      (markReaper _ g).realParent = _ ∧ (markReaper _ g).exitSignal = _
    unfold markReaper
    split <;> exact ⟨rfl, rfl, rfl, rfl⟩
  have hlead : 0 ≤ s.exitSignal current := h.leader current hcur.1
  refine ⟨{ s₁ with children := update s₁.children par (s₁.children par ++ [g.task]) },
    ?_, h.added hnew hpar ?_⟩
  · have hcond : (s.dupTask current flags g).pid g.task ≠ 0 ∧
        (s.dupTask current flags g).threadGroupLeader g.task = true := by
      simp [dupTask, Tasks.threadGroupLeader, hnr, hlead]
    have hto : (s.dupTask current flags g).realParent g.task = par := by
      simp [dupTask, par]
    rw [Tasks.linkTask, if_pos hcond, hto]
    show s₁.addToTail par g.task = _
    rw [addToTail, if_pos]
    simp [hrest.1, hparg, hpar.1]
  · refine ⟨hrest.1, hrest.2.1, hrest.2.2.1, ?_, ?_, ?_⟩
    · simp [hchildren, hparg]
    · simp [hrest.2.2.2, hlead]
    · intro x hx
      simp [hrest.2.2.2, hx]

theorem Inv.kernelClone (h : s.Inv) {current : Addr} (hcur : s.Live current) (args : CloneArgs)
    (otherPidNs : Bool) {granted : Except Int Grant}
    (hg : ∀ g, granted = .ok g → s.isTask g.task = false ∧ g.nr ≠ 0) :
    ∃ r s', s.kernelClone current args otherPidNs granted = some (r, s') ∧ s'.Inv := by
  unfold Tasks.kernelClone copyProcess
  split
  · exact ⟨_, s, rfl, h⟩
  split
  · exact ⟨_, s, rfl, h⟩
  cases granted with
  | error e => exact ⟨e, s, rfl, h⟩
  | ok g =>
    obtain ⟨s', hlink, hinv⟩ := h.linkTask hcur args.flags (hg g rfl).1 (hg g rfl).2
    refine ⟨g.vnr, s', ?_, hinv⟩
    simp [hlink]

/-! ## An exit -/

def handOver (s : Tasks) (t i : Addr) : Tasks :=
  { s with children := update (update s.children t []) i (s.children i ++ s.children t) }

def moveChild (s : Tasks) (t i c : Addr) (cs : List Addr) : Tasks :=
  let children := update s.children t cs
  { s with children := update children i (children i ++ [c]) }

theorem exitNotifyLoop_nil (initd : Option Addr) (fuel : Nat) (hnil : s.children t = []) :
    exitNotifyLoop t initd fuel s = some s := by
  rw [exitNotifyLoop]
  simp [removeHead, hnil]

variable {i : Addr}

theorem exitNotifyLoop_cons {cs : List Addr} (fuel : Nat)
    (hcons : s.children t = c :: cs) (hi : s.isTask i = true) :
    exitNotifyLoop t (some i) (fuel + 1) s =
      exitNotifyLoop t (some i) fuel (s.moveChild t i c cs) := by
  rw [exitNotifyLoop]
  simp [removeHead, hcons, addToTail, hi, moveChild]

theorem exitNotifyLoop_handOver (hit : i ≠ t) {cs : List Addr} :
    ∀ {s : Tasks}, s.children t = cs → s.isTask i = true →
      exitNotifyLoop t (some i) cs.length s = some (s.handOver t i) := by
  induction cs with
  | nil =>
    intro s hcs _
    rw [List.length_nil, exitNotifyLoop_nil (some i) 0 hcs]
    have hsame : update s.children t [] = s.children := by
      rw [← hcs, update_eq_self]
    simp [handOver, hcs, hsame]
  | cons c cs ih =>
    intro s hcs hi
    have hnext : (s.moveChild t i c cs).children t = cs := by
      simp [moveChild, Ne.symm hit]
    rw [List.length_cons, exitNotifyLoop_cons cs.length hcs hi, ih hnext hi]
    simp only [handOver, moveChild, hcs, update_of_ne hit, update_self,
      update_of_ne (Ne.symm hit), List.append_assoc, List.singleton_append]
    congr 2
    funext x
    by_cases hx : x = i
    · simp [hx]
    · by_cases hxt : x = t
      · simp [hxt, Ne.symm hit]
      · simp [hx, hxt]

/-- No task is found, or the one that ends: the loop does not come to an end. -/
theorem exitNotifyLoop_eq_none {initd : Option Addr} :
    ∀ (fuel : Nat) {s : Tasks}, s.children t ≠ [] →
      (∀ i, initd = some i → i = t ∨ s.isTask i = false) →
      exitNotifyLoop t initd fuel s = none := by
  intro fuel
  induction fuel with
  | zero =>
    intro s hne _
    obtain ⟨c, cs, hcs⟩ := List.exists_cons_of_ne_nil hne
    rw [exitNotifyLoop]
    simp [removeHead, hcs]
  | succ fuel ih =>
    intro s hne hi
    obtain ⟨c, cs, hcs⟩ := List.exists_cons_of_ne_nil hne
    cases initd with
    | none =>
      rw [exitNotifyLoop]
      simp [removeHead, hcs]
    | some i =>
      cases htask : s.isTask i with
      | false =>
        rw [exitNotifyLoop]
        simp [removeHead, hcs, addToTail, htask]
      | true =>
        have hit : i = t := (hi i rfl).resolve_right (by simp [htask])
        subst hit
        rw [exitNotifyLoop_cons fuel hcs htask]
        apply ih
        · simp [moveChild]
        · intro j hj
          exact .inl (Option.some.inj hj).symm

/-- Both ways an exit can succeed change only lists of children: no task goes off the tree but the
one that ends. -/
structure Ended (s s' : Tasks) (t : Addr) : Prop where
  isTask : s'.isTask = s.isTask
  dead : s'.dead = update s.dead t true
  realParent : s'.realParent = s.realParent
  exitSignal : s'.exitSignal = s.exitSignal

theorem Ended.live_iff (h : Ended s s' t) : s'.Live x ↔ s.Live x ∧ x ≠ t := by
  by_cases hx : x = t
  · simp [Live, h.isTask, h.dead, hx]
  · simp [Live, h.isTask, h.dead, hx]

section

variable (h : s.Inv) {s' : Tasks} (he : Ended s s' t) (hdead : ∀ c ∈ s.children t, s.dead c = true)
include h he hdead

theorem Inv.live_realParent_of_ended (hx : s'.Live x) : s'.Live (s.realParent x) := by
  have hxs := he.live_iff.1 hx
  rw [he.live_iff]
  refine ⟨h.live_realParent hxs.1, ?_⟩
  intro hxt
  have hroot : x ≠ initTask := by
    intro hr
    apply hxs.2
    rw [← hxt, hr, h.root.2]
  have hcount := (h.tree.linked x hxs.1 hroot (h.threadGroupLeader hxs.1.1)).1 t
  rw [if_pos hxt.symm] at hcount
  have hmem : x ∈ s.children t := List.count_pos_iff.1 (by rw [hcount]; exact Nat.one_pos)
  have halive := hxs.1.2
  rw [hdead x hmem] at halive
  cases halive

theorem Inv.ended
    (hcount : ∀ c, s.dead c = false → ∀ p, (s'.children p).count c = (s.children p).count c)
    (hmem : ∀ p, ∀ c ∈ s'.children p, ∃ q, c ∈ s.children q) : s'.Inv := by
  refine ⟨⟨?_, ?_⟩, ?_, ?_, ?_, ?_⟩
  · intro x hx hroot _
    have hxs := he.live_iff.1 hx
    rw [he.realParent]
    refine ⟨?_, h.live_realParent_of_ended he hdead hx⟩
    intro p
    rw [hcount x hxs.1.2 p]
    exact (h.tree.linked x hxs.1 hroot (h.threadGroupLeader hxs.1.1)).1 p
  · intro x hx
    have hchain := h.tree.rooted x (he.live_iff.1 hx).1
    -- the way to the root meets live children only, so it never meets the dead task
    induction hchain using Relation.ReflTransGen.head_induction_on with
    | refl => exact .refl
    | head hstep _ ih =>
      have hb := h.live_realParent_of_ended he hdead hx
      rw [hstep.2.2] at hb
      refine .head ⟨hx, hb, ?_⟩ (ih hb)
      rw [he.realParent]
      exact hstep.2.2
  · rw [he.isTask, he.realParent]
    exact h.root
  · intro p hp
    obtain ⟨q, hq⟩ := hmem p initTask hp
    exact h.rootOff q hq
  · intro x hx
    rw [he.exitSignal]
    exact h.leader x (he.isTask ▸ hx)
  · intro p c hc
    obtain ⟨q, hq⟩ := hmem p c hc
    rw [he.isTask]
    exact h.listed q c hq

end

theorem doExit_of_nil (initd : Option Addr) (hnil : s.children t = []) :
    s.doExit t initd = some { s with dead := update s.dead t true } := by
  rw [doExit, exitNotify, exitNotifyLoop_nil initd _ hnil]
  rfl

theorem doExit_of_found (hit : i ≠ t) (hi : s.isTask i = true) : s.doExit t (some i) =
      some { s.handOver t i with dead := update s.dead t true } := by
  rw [doExit, exitNotify, exitNotifyLoop_handOver hit rfl hi]
  rfl

/-- An exit that leaves no live child behind returns and keeps the invariant. -/
theorem Inv.doExit (h : s.Inv) {initd : Option Addr}
    (hok : s.LeavesNoOrphan (.exit t initd)) : ∃ s', s.doExit t initd = some s' ∧ s'.Inv := by
  cases hok with
  | inl hnil =>
    refine ⟨_, doExit_of_nil initd hnil, h.ended ⟨rfl, rfl, rfl, rfl⟩ ?_ ?_ ?_⟩
    · simp [hnil]
    · intro c _ p
      rfl
    · intro p c hc
      exact ⟨p, hc⟩
  | inr hfound =>
    obtain ⟨i, rfl, hit, hi, hdead⟩ := hfound
    refine ⟨_, doExit_of_found hit hi, h.ended ⟨rfl, rfl, rfl, rfl⟩ hdead ?_ ?_⟩
    · intro c hc p
      have hoff : (s.children t).count c = 0 := by
        apply List.count_eq_zero.2
        intro hmem
        simp [hdead c hmem] at hc
      by_cases hp : p = i
      · simp [handOver, hp, List.count_append, hoff]
      · by_cases hpt : p = t
        · simp [handOver, hpt, Ne.symm hit, hoff]
        · simp [handOver, hp, hpt]
    · intro p c hc
      by_cases hp : p = i
      · have hc' : c ∈ s.children i ∨ c ∈ s.children t := by simpa [handOver, hp] using hc
        cases hc' with
        | inl hci => exact ⟨i, hci⟩
        | inr hct => exact ⟨t, hct⟩
      · by_cases hpt : p = t
        · simp [handOver, hpt, Ne.symm hit] at hc
        · exact ⟨p, by simpa [handOver, hp, hpt] using hc⟩

theorem Inv.not_tree_of_orphan (h : s.Inv) (he : Ended s s' t)
    (hc : c ∈ s.children t) (hlive : s.dead c = false) : ¬ s'.Tree := by
  intro htree
  have hcs : s.Live c := ⟨h.listed t c hc, hlive⟩
  have hpar := h.realParent_of_mem hcs hc
  have hct : c ≠ t := by
    intro hself
    exact h.realParent_ne hcs hpar.1 (hpar.2.trans hself.symm)
  have hcs' : s'.Live c := he.live_iff.2 ⟨hcs, hct⟩
  have hleader : s'.threadGroupLeader c = true := by
    rw [Tasks.threadGroupLeader, he.exitSignal]
    exact h.threadGroupLeader hcs.1
  have hpar' := (htree.linked c hcs' hpar.1 hleader).2
  rw [he.realParent, hpar.2, he.live_iff] at hpar'
  exact hpar'.2 rfl

theorem Inv.doExit_iff (h : s.Inv) (initd : Option Addr) :
    (∃ s', s.doExit t initd = some s' ∧ s'.Tree) ↔ s.LeavesNoOrphan (.exit t initd) := by
  constructor
  · intro ⟨s', hexit, htree⟩
    by_cases hnil : s.children t = []
    · exact .inl hnil
    by_cases hfound : ∃ i, initd = some i ∧ i ≠ t ∧ s.isTask i = true
    · obtain ⟨i, rfl, hit, hi⟩ := hfound
      refine .inr ⟨i, rfl, hit, hi, ?_⟩
      intro c hc
      cases hdead : s.dead c with
      | true => rfl
      | false =>
        rw [doExit_of_found hit hi] at hexit
        cases hexit
        exact absurd htree (h.not_tree_of_orphan ⟨rfl, rfl, rfl, rfl⟩ hc hdead)
    · have hnone : s.exitNotify t initd = none := by
        apply exitNotifyLoop_eq_none _ hnil
        intro i hi
        by_cases hit : i = t
        · exact .inl hit
        · refine .inr (Bool.eq_false_iff.2 ?_)
          intro htask
          exact hfound ⟨i, hi, hit, htask⟩
      rw [Tasks.doExit, hnone] at hexit
      cases hexit
  · intro hok
    obtain ⟨s', hexit, hinv⟩ := h.doExit hok
    exact ⟨s', hexit, hinv.tree⟩

/-! ## Runs -/

theorem Inv.step (h : s.Inv) {op : Op} (hok : s.Ok op) (horphan : s.LeavesNoOrphan op) :
    ∃ r s', s.step op = some (r, s') ∧ s'.Inv := by
  cases op with
  | clone current args otherPidNs granted =>
    exact h.kernelClone hok.1 args otherPidNs hok.2
  | exit t initd =>
    obtain ⟨s', hexit, hinv⟩ := h.doExit horphan
    refine ⟨0, s', ?_, hinv⟩
    simp [Tasks.step, hexit]

theorem Inv.tree_step_iff (h : s.Inv) {op : Op} (hok : s.Ok op) :
    (∃ r s', s.step op = some (r, s') ∧ s'.Tree) ↔ s.LeavesNoOrphan op := by
  cases op with
  | clone current args otherPidNs granted =>
    obtain ⟨r, s', hstep, hinv⟩ := h.kernelClone hok.1 args otherPidNs hok.2
    exact iff_of_true ⟨r, s', hstep, hinv.tree⟩ trivial
  | exit t initd =>
    rw [← h.doExit_iff initd]
    constructor
    · intro ⟨r, s', hstep, htree⟩
      obtain ⟨s₁, hexit, heq⟩ := Option.map_eq_some_iff.1 hstep
      cases heq
      exact ⟨s', hexit, htree⟩
    · intro ⟨s', hexit, htree⟩
      refine ⟨0, s', ?_, htree⟩
      simp [Tasks.step, hexit]

/-- The runs in which no task ends with a live child. -/
abbrev OrphanFree : Tasks → Prop :=
  Reachable Tasks.step (fun s op => s.Ok op ∧ s.LeavesNoOrphan op) (· = boot)

theorem orphanFree_inv (h : OrphanFree s) : s.Inv := by
  refine h.invariant_of_returns ?_ ?_
  · intro s hs
    exact hs ▸ boot_inv
  · exact fun s op hinv hok => hinv.step hok.1 hok.2

/-- As long as every task that ends leaves no live child behind, the tasks form a tree; and the next
call keeps it exactly when it does not either. -/
theorem tree_iff_leavesNoOrphan (h : OrphanFree s) :
    s.Tree ∧ ∀ op, s.Ok op → ((∃ r s', s.step op = some (r, s') ∧ s'.Tree) ↔ s.LeavesNoOrphan op) :=
  ⟨(orphanFree_inv h).tree, fun _ hok => (orphanFree_inv h).tree_step_iff hok⟩

/-- A task as `kernel_clone` makes it without any flag. -/
def forkBy (current task : Addr) : Op :=
  .clone current ⟨0, false⟩ false (.ok ⟨task, task, task, task, task⟩)

/-- `init_task` makes init, init makes the task 2 and that the task 3, which ends. -/
theorem tree_iff_leavesNoOrphan_leaf : ∃ s, OrphanFree s ∧ s.children 1 = [2] ∧
    s.children 2 = [3] ∧ s.Tree ∧ ∃ r s', s.step (.exit 3 none) = some (r, s') ∧ s'.Tree := by
  have hrun : ∃ s, OrphanFree s ∧
      decide (s.Ok (.exit 3 none) ∧ (s.children 1, s.children 2, s.children 3) = ([2], [3], [])) = true :=
    Reachable.exists_of_run rfl [forkBy initTask 1, forkBy 1 2, forkBy 2 3] (by decide +kernel)
  obtain ⟨s, hs, hlast⟩ := hrun
  obtain ⟨hok, hlists⟩ := of_decide_eq_true hlast
  simp only [Prod.mk.injEq] at hlists
  obtain ⟨htree, hnext⟩ := tree_iff_leavesNoOrphan hs
  exact ⟨s, hs, hlists.1, hlists.2.1, htree, (hnext _ hok).mpr (.inl hlists.2.2)⟩

/-- `init_task` makes init, init makes the task 2 and that the task 3; the task 2 ends and init is
found for its child. -/
def orphanRun : Option Tasks := do
  let (_, s) ← boot.step (forkBy initTask 1)
  let (_, s) ← s.step (forkBy 1 2)
  let (_, s) ← s.step (forkBy 2 3)
  let (_, s) ← s.step (.exit 2 (some 1))
  some s

/-- The task 3 is then live and on the list of init, but its parent is the dead task 2. -/
theorem orphan_keeps_dead_parent :
    ∃ s, orphanRun = some s ∧ s.Live 3 ∧ s.children 1 = [2, 3] ∧ s.realParent 3 = 2 ∧
      s.dead 2 = true ∧ ¬ s.Tree := by
  have hrun : orphanRun.map (fun s => (s.isTask 3, s.dead 3, s.threadGroupLeader 3,
      s.children 1, s.realParent 3, s.dead 2)) = some (true, false, true, [2, 3], 2, true) := by
    decide +kernel
  obtain ⟨s, hs, hview⟩ := Option.map_eq_some_iff.1 hrun
  simp only [Prod.mk.injEq] at hview
  obtain ⟨htask, halive, hleader, hlist, hpar, hdead⟩ := hview
  refine ⟨s, hs, ⟨htask, halive⟩, hlist, hpar, hdead, ?_⟩
  intro htree
  have hlive := (htree.linked 3 ⟨htask, halive⟩ (by decide) hleader).2
  rw [hpar] at hlive
  simp [Live, hdead] at hlive

end MyOS2.Fork.Tasks
