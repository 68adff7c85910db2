import MyOS2.Sched.ContextSwitch
import Mathlib.Data.List.FinRange
import Mathlib.Data.List.Nodup
import Mathlib.Tactic.Tauto

/-!
# References to borrowed address spaces

Only the current task can be a kernel thread that borrows, so an address space has
at most one borrower. The reference that is taken for the first kernel thread is
handed on from one to the next; nothing gives it back when a user task follows.
-/

namespace MyOS2.ContextSwitch.State

variable {n : Nat} {s s' : State n} {own : Mm → Nat} {next : Fin n}

/-- Who has which address space, whatever the references are. -/
structure Owners (own : Mm → Nat) (s : State n) : Prop where
  user : ∀ t m, s.mm t = some m → s.activeMm t = some m ∧ 0 < own m
  kernel : ∀ t, t ≠ s.curr → s.mm t = none → s.activeMm t = none
  curr : s.activeMm s.curr ≠ none

theorem Owners.borrowers_eq (h : Owners own s) (m : Mm) :
    s.borrowers m = if s.mm s.curr = none ∧ s.activeMm s.curr = some m then 1 else 0 := by
  have honly : ∀ t, s.mm t = none ∧ s.activeMm t = some m → t = s.curr := by
    rintro t ⟨hmm, hactive⟩
    by_contra hne
    rw [h.kernel t hne hmm] at hactive
    contradiction
  rw [borrowers]
  split
  · rename_i hcurr
    have hpred : (fun t => decide (s.mm t = none ∧ s.activeMm t = some m)) = (· == s.curr) := by
      funext t
      rw [Bool.eq_iff_iff, decide_eq_true_iff, beq_iff_eq]
      exact ⟨honly t, fun heq => heq ▸ hcurr⟩
    rw [hpred]
    exact List.count_eq_one_of_mem (List.nodup_finRange n) (List.mem_finRange _)
  · rename_i hcurr
    rw [List.countP_eq_zero]
    intro t _ ht
    have hboth := of_decide_eq_true ht
    exact hcurr (honly t hboth ▸ hboth)

/-- What a switch does to the address spaces. -/
structure Switched (s s' : State n) (next : Fin n) (m : Mm) : Prop where
  mm : s'.mm = s.mm
  mmUsers : s'.mmUsers = if s.mm next = none ∧ s.mm s.curr ≠ none then
    Function.update s.mmUsers m (s.mmUsers m + 1) else s.mmUsers
  activeMm : ∀ t, s'.activeMm t = if t = next ∧ s.mm next = none then some m
    else if t = s.curr ∧ s.mm s.curr = none then none else s.activeMm t

theorem Owners.prepareSwitch (h : Owners own s) (hne : next ≠ s.curr) :
    ∃ s' m, s.activeMm s.curr = some m ∧ s.prepareSwitch next = some s' ∧ Switched s s' next m := by
  obtain ⟨m, hm⟩ := Option.ne_none_iff_exists'.mp h.curr
  rw [State.prepareSwitch]
  cases hnext : s.mm next with
  | none =>
    cases hcurr : s.mm s.curr with
    | none =>
      refine ⟨_, m, hm, rfl, rfl, by simp [setActiveMm, hcurr], fun t => ?_⟩
      by_cases htn : t = next
      · subst htn
        simp [setActiveMm, hne, hm, hnext]
      · by_cases htc : t = s.curr
        · subst htc
          simp [setActiveMm, htn, hcurr]
        · simp [setActiveMm, htn, htc]
    | some mc =>
      have hactive : (s.setActiveMm next (s.activeMm s.curr)).activeMm s.curr = some m := by
        simp [setActiveMm, hne.symm, hm]
      refine ⟨{ s.setActiveMm next (s.activeMm s.curr) with
        mmUsers := Function.update s.mmUsers m (s.mmUsers m + 1) }, m, hm, ?_, rfl,
        by simp [hnext, hcurr], fun t => ?_⟩
      · simp only [hactive]
        rfl
      · by_cases htn : t = next
        · subst htn
          simp [setActiveMm, hm, hnext]
        · simp [setActiveMm, htn, hcurr]
  | some mn =>
    cases hcurr : s.mm s.curr with
    | none =>
      refine ⟨_, m, hm, rfl, rfl, by simp [setActiveMm, hnext], fun t => ?_⟩
      by_cases htc : t = s.curr
      · subst htc
        simp [setActiveMm, hnext, hcurr]
      · simp [setActiveMm, hnext, htc]
    | some mc =>
      exact ⟨_, m, hm, rfl, rfl, by simp [hnext], fun t => by simp [hnext, hcurr]⟩

/-- The second half of a switch changes nothing but the current task, as far as address spaces go.
-/
theorem contextSwitch_of_prepareSwitch (h : s.prepareSwitch next = some s') :
    ∃ s'', s.contextSwitch next = some s'' ∧ s''.curr = next ∧ s''.mm = s'.mm ∧
      s''.activeMm = s'.activeMm ∧ s''.mmUsers = s'.mmUsers := by
  rw [contextSwitch, h]
  simp only [Option.bind_eq_bind, Option.bind_some]
  split
  · exact ⟨_, rfl, rfl, rfl, rfl, rfl⟩
  · exact ⟨_, rfl, rfl, rfl, rfl, rfl⟩

theorem Owners.contextSwitch_eq (h : Owners own s) (hne : next ≠ s.curr) :
    ∃ s' m, s.activeMm s.curr = some m ∧ s.contextSwitch next = some s' ∧ s'.curr = next ∧
      Owners own s' ∧ Switched s s' next m := by
  obtain ⟨s₁, m, hm, hprep, hmm, husers, hactive⟩ := h.prepareSwitch hne
  obtain ⟨s', hswitch, hcurr, hmm', hactive', husers'⟩ := contextSwitch_of_prepareSwitch hprep
  rw [hmm] at hmm'
  rw [husers] at husers'
  replace hactive' : ∀ t, s'.activeMm t = _ := fun t => (congrFun hactive' t).trans (hactive t)
  refine ⟨s', m, hm, hswitch, hcurr, ⟨?_, ?_, ?_⟩, hmm', husers', hactive'⟩
  · intro t k ht
    rw [hmm'] at ht
    have hfst : ¬ (t = next ∧ s.mm next = none) := by
      rintro ⟨rfl, hnone⟩
      exact absurd (ht.symm.trans hnone) nofun
    have hsnd : ¬ (t = s.curr ∧ s.mm s.curr = none) := by
      rintro ⟨rfl, hnone⟩
      exact absurd (ht.symm.trans hnone) nofun
    rw [hactive' t, if_neg hfst, if_neg hsnd]
    exact h.user t k ht
  · intro t htn ht
    rw [hcurr] at htn
    rw [hmm'] at ht
    rw [hactive' t, if_neg fun hboth => htn hboth.1]
    split
    · rfl
    · rename_i hnot
      exact h.kernel t (fun htc => hnot ⟨htc, htc ▸ ht⟩) ht
  · rw [hcurr, hactive' next]
    split
    · nofun
    · rename_i hnot
      obtain ⟨k, hk⟩ := Option.ne_none_iff_exists'.mp fun hnone => hnot ⟨rfl, hnone⟩
      rw [if_neg fun hboth => hne hboth.1, (h.user next k hk).1]
      nofun

/-- A switch keeps the balance exactly if it does not lead from a kernel thread to a user task, and
the next task has an address space with a reference. -/
theorem Owners.contextSwitch (h : Owners own s) (hbal : s.Balanced own) (hne : next ≠ s.curr) :
    ∃ s', s.contextSwitch next = some s' ∧ s'.curr = next ∧ Owners own s' ∧
      (s'.Balanced own ↔ ¬ s.LeavesLazy next) ∧
      ∃ m, s'.activeMm next = some m ∧ 0 < s'.mmUsers m := by
  obtain ⟨s', m, hm, hswitch, hcurr, howners, hmm', husers', hactive'⟩ := h.contextSwitch_eq hne
  refine ⟨s', hswitch, hcurr, howners, ?_⟩
  have hbefore : ∀ k, s.mmUsers k = own k + if s.mm s.curr = none ∧ m = k then 1 else 0 := by
    intro k
    rw [hbal k, h.borrowers_eq k, hm]
    simp
  cases hnext : s.mm next with
  | none =>
    have hactiveNext : s'.activeMm next = some m := by
      rw [hactive' next, if_pos ⟨rfl, hnext⟩]
    -- the new task borrows `m`, with the reference of the old one or a new one
    have hbal' : s'.Balanced own := by
      intro k
      rw [howners.borrowers_eq k, hcurr, hmm', hactiveNext, husers']
      by_cases hkernel : s.mm s.curr = none
      · simp [hnext, hkernel, hbefore k]
      · by_cases hk : m = k
        · subst hk
          simp [hnext, hkernel, hbefore m]
        · simp [hnext, hkernel, hbefore k, hk, Ne.symm hk]
    refine ⟨iff_of_true hbal' fun hlazy => hlazy.2 hnext, m, hactiveNext, ?_⟩
    rw [hbal' m, howners.borrowers_eq m, hcurr, hmm', hactiveNext, if_pos ⟨hnext, rfl⟩]
    exact Nat.succ_pos _
  | some k =>
    obtain ⟨hactiveNext, hown⟩ := howners.user next k (by rw [hmm', hnext])
    have hafter : ∀ j, s'.Balanced own → s'.mmUsers j = own j := by
      intro j hbal'
      rw [hbal' j, howners.borrowers_eq j, hcurr, hmm', hnext]
      simp
    have hsame : s'.mmUsers = s.mmUsers := by
      rw [husers', if_neg]
      rintro ⟨hnone, -⟩
      exact absurd (hnext.symm.trans hnone) nofun
    refine ⟨?_, k, hactiveNext, ?_⟩
    · constructor
      · rintro hbal' ⟨hkernel, -⟩
        have hm' := hafter m hbal'
        rw [hsame, hbefore m, if_pos ⟨hkernel, rfl⟩] at hm'
        exact absurd hm' (Nat.succ_ne_self _)
      · intro hlazy j
        have hkernel : s.mm s.curr ≠ none := fun hnone =>
          hlazy ⟨hnone, by rw [hnext]; nofun⟩
        rw [howners.borrowers_eq j, hcurr, hmm', hnext, hsame, hbefore j]
        simp [hkernel]
    · rw [hsame, hbefore k]
      exact Nat.add_pos_left hown _

/-! ## Runs -/

theorem reachable_owners
    (h : Reachable step (fun (s : State n) next => s.Ok next ∧ ¬ s.LeavesLazy next) (Start own) s) :
    Owners own s ∧ s.Balanced own := by
  induction h with
  | start hs => exact ⟨⟨hs.user, hs.kernel, hs.curr⟩, hs.balanced⟩
  | call _ hop hstep ih =>
    obtain ⟨s₁, hswitch, -, howners, hiff, -⟩ := ih.1.contextSwitch ih.2 hop.1
    rw [step, hswitch] at hstep
    obtain ⟨-, rfl⟩ := Prod.mk.inj (Option.some.inj hstep)
    exact ⟨howners, hiff.mpr hop.2⟩

/-- As long as no kernel thread was followed by a user task, the references are in balance, and the
next switch keeps them so if and only if it does not lead from a kernel thread to a user task. The
next task always has an address space with a reference. -/
theorem balanced_iff_not_leavesLazy
    (h : Reachable step (fun (s : State n) next => s.Ok next ∧ ¬ s.LeavesLazy next) (Start own) s) :
    s.Balanced own ∧ ∀ next, s.Ok next →
      ∃ s', s.contextSwitch next = some s' ∧ s'.curr = next ∧
        (s'.Balanced own ↔ ¬ s.LeavesLazy next) ∧
        ∃ m, s'.activeMm next = some m ∧ 0 < s'.mmUsers m := by
  obtain ⟨howners, hbal⟩ := reachable_owners h
  refine ⟨hbal, fun next hok => ?_⟩
  obtain ⟨s', hswitch, hcurr, -, hiff, href⟩ := howners.contextSwitch hbal hok
  exact ⟨s', hswitch, hcurr, hiff, href⟩

/-! A user task and a kernel thread. -/

def pair : State 2 where
  curr := 0
  mm t := if t = 0 then some 7 else none
  activeMm t := if t = 0 then some 7 else none
  mmUsers _ := 1
  prevMm := none
  started _ := true

theorem start_pair : Start (fun _ => 1) pair := by
  refine ⟨?_, ?_, ?_, nofun⟩
  · intro m
    rfl
  · intro t m ht
    exact ⟨ht, Nat.one_pos⟩
  · intro t _ ht
    exact ht

/-- A user task and a kernel thread. -/
theorem balanced_iff_not_leavesLazy_pair :
    pair.Balanced (fun _ => 1) ∧ ∀ next, pair.Ok next →
      ∃ s', pair.contextSwitch next = some s' ∧ s'.curr = next ∧
        (s'.Balanced (fun _ => 1) ↔ ¬ pair.LeavesLazy next) ∧
        ∃ m, s'.activeMm next = some m ∧ 0 < s'.mmUsers m :=
  balanced_iff_not_leavesLazy (.start start_pair)

/-- From the user task to the kernel thread and back: a reference is left. -/
theorem reference_left_behind : ∃ s, Reachable step Ok (Start fun _ => 1) s ∧
    ¬ State.Balanced (n := 2) (fun _ => 1) s := by
  have hrun : (Reachable.run step Ok pair [1, 0]).any
      (fun s => decide (s.mmUsers 7 ≠ 1 + s.borrowers 7)) = true := by
    decide +kernel
  obtain ⟨s, hs, hbad⟩ := Reachable.exists_of_run start_pair _ hrun
  exact ⟨s, hs, fun hbal => of_decide_eq_true hbad (hbal 7)⟩

end MyOS2.ContextSwitch.State
