import MyOS2.Sched.Proofs.Runqueue

/-!
# The order of the run queue

The run queue is meant to be ordered by virtual run time, with the idle task last.
`pick_next_task_myos` looks for the place of the current task with a pointer that it
does not move along: the current task goes to the front or to the end, whatever is in
between, and the time it has used is charged to it afterwards.
-/

namespace MyOS2.Scheduler

open DoubleList List

def InTimeOrder (v : Tid → BitVec 64) (idle : Tid) (q : List Tid) : Prop :=
  q.Pairwise fun t u => t ≠ idle ∧ (u = idle ∨ v t ≤ v u)

instance (v : Tid → BitVec 64) (idle : Tid) (q : List Tid) : Decidable (InTimeOrder v idle q) :=
  inferInstanceAs (Decidable (q.Pairwise _))

theorem InTimeOrder.congr {v w : Tid → BitVec 64} {idle : Tid} {q : List Tid}
    (h : InTimeOrder v idle q) (hvw : ∀ t ∈ q, w t = v t) : InTimeOrder w idle q := by
  refine List.Pairwise.imp_of_mem ?_ h
  intro t u ht hu htu
  rwa [hvw t ht, hvw u hu]

namespace Rq

def charged (s : Rq) : BitVec 64 := (s.tasks s.current).vruntime + (s.jiffies - s.lastJiffies)

/-- After the next task was taken off, `tmp_rt` belongs to a task. -/
def ReadsTask (s : Rq) : Prop :=
  ∃ n lists t, listHeaderRemoveHead s.lists .anchor = some (n, lists) ∧
    lists.next .anchor = .node (.task t)

/-- The queue is in order after a switch, and no time was read through the anchor. -/
def KeepsOrder (s : Rq) : Prop :=
  s.ReadsTask ∧ ∃ next s' q, s.pickNextTask = some (next, s') ∧ Headed s'.lists anchors (queued q) ∧
    InTimeOrder (fun t => (s'.tasks t).vruntime) s'.idle q

/-- The front or the end of the queue is the place for the current task, whichever the comparison
with the first of the others leads to. -/
def FindsPlace (s : Rq) (rest : List Tid) : Prop :=
  ∃ first ∈ rest.head?,
    if (s.tasks first).vruntime < (s.tasks s.current).vruntime then
      ∀ t ∈ rest, t ≠ s.idle ∧ (s.tasks t).vruntime ≤ s.charged
    else ∀ t ∈ rest, t = s.idle ∨ s.charged ≤ (s.tasks t).vruntime

end Rq

section Order
variable {s : Rq} {next : Tid} {rest : List Tid}

theorem account_vruntime (hcur : s.current ≠ s.idle) (t : Tid) :
    (s.account.tasks t).vruntime = if t = s.current then s.charged else (s.tasks t).vruntime := by
  rw [Rq.account, if_neg hcur]
  by_cases ht : t = s.current
  · subst ht
    simp [Rq.setTask, Rq.charged]
  · simp [Rq.setTask, ht]

theorem queue_unique {lists : DoubleList.Lists Node} {q q' : List Tid}
    (h : Headed lists anchors (queued q)) (h' : Headed lists anchors (queued q')) : q = q' := by
  have hmap := (h.rings.linked ()).unique (h'.rings.linked ())
    (nodup_cons.mp (h.rings.nodup ())).1 (nodup_cons.mp (h'.rings.nodup ())).1
  exact map_injective_iff.mpr (fun _ _ heq => Node.task.inj heq) hmap

theorem readsTask_iff (h : Headed s.lists anchors (queued (next :: rest))) :
    s.ReadsTask ↔ rest ≠ [] := by
  obtain ⟨lists, hremove, hheaded⟩ := removeHead_eq h
  have hlinked := hheaded.rings.linked ()
  cases rest with
  | nil =>
    refine iff_of_false ?_ (by simp)
    rintro ⟨n, lists', t, hremove', hnext⟩
    obtain ⟨-, rfl⟩ := Prod.mk.inj (Option.some.inj (hremove.symm.trans hremove'))
    exact absurd (hlinked.1.symm.trans hnext) (by simp)
  | cons t q => exact iff_of_true ⟨_, lists, t, hremove, hlinked.1.1⟩ (by simp)

/-- A current task that can run and has used up its time slice goes to the right place of an ordered
queue exactly if that is the place of the first comparison. -/
theorem keepsOrder_iff_findsPlace (h : Queue s (next :: rest))
    (horder : InTimeOrder (fun t => (s.tasks t).vruntime) s.idle (next :: rest))
    (hcur : s.current ≠ s.idle) (hrun : (s.tasks s.current).state = taskRunning)
    (hslice : (s.tasks s.current).timeSlice.toNat ≤ (s.jiffies - s.lastJiffies).toNat) :
    s.KeepsOrder ↔ s.FindsPlace rest := by
  have hapart : s.current ∉ rest := fun hmem => h.apart (mem_cons_of_mem _ hmem)
  obtain ⟨-, hwhy⟩ | ⟨_, _, lists, heq, hpick, hheaded⟩ := h.pickNextTask
  · exact absurd hslice (Nat.not_le.mpr (hwhy.resolve_left (by simp)).1)
  cases heq
  rw [Rq.remaining, if_pos hrun] at hheaded
  set v' := fun t => (({ s with lists }.account).tasks t).vruntime
  have hat : ∀ t, v' t = if t = s.current then s.charged else (s.tasks t).vruntime :=
    account_vruntime (s := { s with lists }) hcur
  have hself : v' s.current = s.charged := by rw [hat, if_pos rfl]
  have hrest : ∀ t ∈ rest, v' t = (s.tasks t).vruntime := by
    intro t ht
    have hne : t ≠ s.current := fun heq => hapart (heq ▸ ht)
    rw [hat, if_neg hne]
  have hsorted : InTimeOrder v' s.idle rest := InTimeOrder.congr (pairwise_cons.mp horder).2 hrest
  have hqueue : s.KeepsOrder ↔ rest ≠ [] ∧ InTimeOrder v' s.idle (s.requeued rest) := by
    rw [Rq.KeepsOrder, readsTask_iff h.headed]
    refine and_congr_right fun _ => ⟨?_, fun ho => ⟨_, _, s.requeued rest, hpick, ?_, ?_⟩⟩
    · rintro ⟨_, _, q, hpick', hheaded', ho⟩
      obtain ⟨rfl, rfl⟩ := Prod.mk.inj (Option.some.inj (hpick.symm.trans hpick'))
      rw [account_lists] at hheaded'
      rwa [queue_unique hheaded hheaded', ← account_idle (s := { s with lists })]
    · rwa [account_lists]
    · rwa [account_idle]
  rw [hqueue, Rq.requeued, Rq.FindsPlace]
  cases rest with
  | nil => simp
  | cons first rest =>
    simp only [head?_cons, Option.elim_some, hcur, false_or, ne_eq, cons_ne_nil,
      not_false_eq_true, true_and, Option.mem_def, Option.some.injEq, exists_eq_left']
    split
    · rw [InTimeOrder, pairwise_append]
      constructor
      · intro hpair t ht
        have := hpair.2.2 t ht s.current (mem_singleton_self _)
        rw [hself, hrest t ht] at this
        exact ⟨this.1, this.2.resolve_left hcur⟩
      · intro hall
        refine ⟨hsorted, pairwise_singleton .., fun t ht u hu => ?_⟩
        rw [mem_singleton.mp hu, hself, hrest t ht]
        exact ⟨(hall t ht).1, .inr (hall t ht).2⟩
    · rw [InTimeOrder, pairwise_cons]
      constructor
      · intro hpair t ht
        have := (hpair.1 t ht).2
        rwa [hself, hrest t ht] at this
      · intro hall
        refine ⟨fun t ht => ⟨hcur, ?_⟩, hsorted⟩
        rw [hself, hrest t ht]
        exact hall t ht

def duo (v : BitVec 64) : Rq where
  lists :=
    { next := fun n => .node (if n = .anchor then .task 1 else if n = .task 1 then .task 0 else .anchor)
      prev := fun n => .node (if n = .anchor then .task 0 else if n = .task 0 then .task 1 else .anchor)
      count := fun _ => 2 }
  tasks t := ⟨if t ∈ [0, 1, 2] then taskRunning else taskNew, if t = 2 then v else 0, 1, false⟩
  current := 2
  idle := 0
  jiffies := 1
  lastJiffies := 0
  stray := 0
  live t := decide (t ∈ [0, 1, 2])

theorem queue_duo (v : BitVec 64) : Queue (duo v) [1, 0] := by
  refine ⟨⟨⟨fun _ => ?_, fun _ => by simp, fun i j hij => absurd rfl hij⟩, fun _ => rfl⟩, ?_, ?_,
    by simp [duo]⟩
  · exact ⟨⟨rfl, rfl⟩, ⟨rfl, rfl⟩, rfl, rfl⟩
  · intro t ht
    have hmem : t ∈ [0, 1, 2] := by
      simp only [mem_cons, not_mem_nil, or_false] at ht ⊢
      tauto
    simp only [duo, if_pos hmem]
  · intro t ht
    have hmem : t ∈ [0, 1, 2] := by
      by_contra hnot
      simp only [duo, if_neg hnot] at ht
      exact absurd ht (by decide)
    simp only [duo, mem_cons, not_mem_nil, or_false] at hmem ⊢
    tauto

/-- Two tasks of the same virtual time are queued. -/
theorem keepsOrder_iff_findsPlace_duo : (duo 0).KeepsOrder ↔ (duo 0).FindsPlace [0] :=
  keepsOrder_iff_findsPlace (queue_duo 0) (by decide) (by decide) (by decide) (by decide)

/-- With one jiffy more on its account task 2 is put behind the idle task. -/
theorem queued_behind_idle :
    (Queue (duo 1) [1, 0] ∧ InTimeOrder (fun t => ((duo 1).tasks t).vruntime) 0 [1, 0]) ∧
      ¬ (duo 1).KeepsOrder := by
  refine ⟨⟨queue_duo 1, by decide⟩, ?_⟩
  rintro ⟨-, next, s', q, hpick, hheaded, horder⟩
  have hnext : (duo 1).pickNextTask.any (fun x => decide (x.2.idle = 0 ∧
      x.2.lists.next .anchor = .node (.task 0) ∧
      x.2.lists.next (.task 0) = .node (.task 2))) = true := by
    decide +kernel
  rw [hpick] at hnext
  obtain ⟨hidle, hfirst, hsecond⟩ := of_decide_eq_true hnext
  have hlinked := hheaded.rings.linked ()
  cases q with
  | nil => exact absurd (hlinked.1.symm.trans hfirst) (by decide)
  | cons t q =>
    obtain rfl : t = 0 := Node.task.inj (Ptr.node.inj (hlinked.1.1.symm.trans hfirst))
    cases q with
    | nil => exact absurd (hlinked.2.1.symm.trans hsecond) (by decide)
    | cons u q => exact ((pairwise_cons.mp horder).1 u (mem_cons_self ..)).1 hidle.symm

end Order

end MyOS2.Scheduler
