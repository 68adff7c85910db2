import MyOS2.Lib.Proofs.DoubleList
import MyOS2.Sched.Scheduler

/-!
# The run queue holds the tasks that can run

`Queue s q` says that the tasks on the run queue are `q`, in this order, and that
they are the ones that can run, without the current one. Every function of the
scheduler keeps that, from every such state.
-/

namespace MyOS2.Scheduler

open Function DoubleList Option List Rq

/-- The list behind the anchor, as a family with one member. -/
abbrev anchors : Unit → Node := fun _ => .anchor

abbrev queued (q : List Tid) : Unit → List Node := fun _ => q.map .task

/-- The tasks on the run queue are `q`: those in the state `TASK_RUNNING`, without the current task.
-/
structure Queue (s : Rq) (q : List Tid) : Prop where
  headed : Headed s.lists anchors (queued q)
  running : ∀ t ∈ q, (s.tasks t).state = taskRunning
  complete : ∀ t, (s.tasks t).state = taskRunning → t = s.current ∨ t ∈ q
  apart : s.current ∉ q

/-- Tasks that can run, and the current one, have been woken before. -/
structure LiveOk (s : Rq) : Prop where
  current : s.live s.current = true
  running : ∀ t, (s.tasks t).state = taskRunning → s.live t = true

section Lists
variable {lists : DoubleList.Lists Node} {q : List Tid} {t : Tid}

theorem off_of_notMem (ht : t ∉ q) : Off anchors (queued q) (.task t) := by
  intro _
  simpa using ht

theorem update_queued (l : List Tid) : update (queued q) () (l.map .task) = queued l := by
  funext _
  exact update_self ..

theorem Queue.nodup {s : Rq} (h : Queue s q) : q.Nodup :=
  .of_map _ (nodup_cons.mp (h.headed.rings.nodup ())).2

section

variable (h : Headed lists anchors (queued q))
include h

theorem contains_eq : listHeaderContains (lists.count .anchor + 1) lists .anchor (.task t) =
      some (decide (t ∈ q)) := by
  have hfuel : (queued q ()).length < lists.count .anchor + 1 := by
    rw [h.count ()]
    exact Nat.lt_succ_self _
  rw [h.contains () hfuel]
  simp

theorem addToHead_eq (ht : t ∉ q) :
    ∃ lists', listHeaderAddToHead lists .anchor (.task t) = some lists' ∧
      Headed lists' anchors (queued (t :: q)) := by
  obtain ⟨lists', hadd, hheaded⟩ := h.addToHead () (off_of_notMem ht)
  refine ⟨lists', hadd, ?_⟩
  rwa [← update_queued (q := q)]

theorem addToTail_eq (ht : t ∉ q) :
    ∃ lists', listHeaderAddToTail lists .anchor (.task t) = some lists' ∧
      Headed lists' anchors (queued (q ++ [t])) := by
  obtain ⟨lists', hadd, hheaded⟩ := h.addToTail () (off_of_notMem ht)
  refine ⟨lists', hadd, ?_⟩
  rw [← update_queued (q := q), map_append]
  exact hheaded

end

theorem removeHead_eq (h : Headed lists anchors (queued (t :: q))) :
    ∃ lists', listHeaderRemoveHead lists .anchor = some (some (.task t), lists') ∧
      Headed lists' anchors (queued q) := by
  obtain ⟨lists', hremove, hheaded, -⟩ := h.removeHead_cons (i := ()) rfl
  refine ⟨lists', hremove, ?_⟩
  rwa [← update_queued (q := t :: q)]

theorem findPlace_eq (h : Headed lists anchors (queued q)) (later : Bool) {fuel : Nat}
    (hfuel : q.length < fuel) :
    findPlace lists later fuel (lists.next .anchor) =
      some (if later then .anchor else (q.map Node.task).headD .anchor) := by
  have key : ∀ (x : Node) (l : List Tid), lists.Linked x (l.map .task) .anchor →
      ∀ fuel, l.length < fuel → findPlace lists later fuel (lists.next x) =
        some (if later then .anchor else (l.map Node.task).headD .anchor) := by
    intro x l
    induction l generalizing x with
    | nil =>
      intro hl fuel hf
      obtain ⟨fuel, rfl⟩ := Nat.exists_eq_succ_of_ne_zero (Nat.ne_of_gt hf)
      rw [hl.1]
      simp [findPlace]
    | cons t l ih =>
      intro hl fuel hf
      obtain ⟨fuel, rfl⟩ := Nat.exists_eq_succ_of_ne_zero (Nat.ne_of_gt (Nat.zero_lt_of_lt hf))
      rw [hl.1.1, findPlace]
      cases later with
      | false => simp
      | true =>
        have hrest := ih (.task t) hl.2 fuel (Nat.lt_of_succ_lt_succ hf)
        simpa using hrest
  exact key .anchor q (h.rings.linked ()) fuel hfuel

theorem listAddToPrev_head (h : Headed lists anchors (queued q)) (n : Node) :
    listAddToPrev lists n ((q.map Node.task).headD .anchor) = listAddToNext lists n .anchor := by
  have hlinked := h.rings.linked ()
  cases q with
  | nil =>
    have hlink : lists.Link .anchor .anchor := hlinked
    simp [listAddToPrev, listAddToNext, hlink.1, hlink.2]
  | cons t q =>
    have hlink : lists.Link .anchor (.task t) := hlinked.1
    simp [listAddToPrev, listAddToNext, hlink.1, hlink.2]

end Lists

variable {lists : DoubleList.Lists Node}

section Functions
variable {s : Rq} {q : List Tid} {p : Tid}

@[simp] theorem setState_lists (t : Tid) (v : BitVec 32) : (s.setState t v).lists = s.lists := rfl

theorem setState_state (t u : Tid) (v : BitVec 32) :
    ((s.setState t v).tasks u).state = if u = t then v else (s.tasks u).state := by
  rw [setState, setTask]
  by_cases hu : u = t
  · subst hu
    simp
  · simp [hu]

theorem Queue.setCurrentState (h : Queue s q) (v : BitVec 32) :
    Queue (s.setState s.current v) q := by
  have hne : ∀ t ∈ q, t ≠ s.current := by
    rintro t ht rfl
    exact h.apart ht
  refine ⟨h.headed, ?_, ?_, h.apart⟩
  · intro t ht
    rw [setState_state, if_neg (hne t ht)]
    exact h.running t ht
  · intro t ht
    rw [setState_state] at ht
    split at ht
    · rename_i heq
      exact .inl heq
    · exact h.complete t ht

theorem Queue.insert (h : Queue s q) (hp : p ≠ s.current)
    (live : Tid → Bool) {q' : List Tid} (hmem : ∀ t, t ∈ q' ↔ t = p ∨ t ∈ q)
    (hheaded : Headed lists anchors (queued q')) :
    Queue { s.setState p taskRunning with lists, live } q' := by
  refine ⟨hheaded, ?_, ?_, ?_⟩
  · intro t ht
    rw [setState_state]
    split
    · rfl
    · rename_i hne
      exact h.running t (((hmem t).mp ht).resolve_left hne)
  · intro t ht
    have hstate : ((s.setState p taskRunning).tasks t).state = taskRunning := ht
    rw [setState_state] at hstate
    split at hstate
    · rename_i heq
      exact .inr ((hmem t).mpr (.inl heq))
    · exact (h.complete t hstate).imp id fun hq => (hmem t).mpr (.inr hq)
  · intro hcur
    exact ((hmem _).mp hcur).elim (fun heq => hp heq.symm) h.apart

/-- What the scheduler does to a task it is not asked to put to sleep. -/
structure Keeps (s s' : Rq) : Prop where
  idle : s'.idle = s.idle
  running : ∀ t, (s.tasks t).state = taskRunning → (s'.tasks t).state = taskRunning

theorem Queue.setTaskCpu (h : Queue s q) (hp : p ≠ s.current) :
    ∃ s' q', s.setTaskCpu p = some s' ∧ Queue s' q' ∧ Keeps s s' ∧ s'.current = s.current ∧
      s'.live = s.live ∧
      ∀ t, (s'.tasks t).state = if t = p then taskRunning else (s.tasks t).state := by
  have hcontains := contains_eq (t := p) h.headed
  have hstate := fun t => setState_state (s := s) p t taskRunning
  have hkeeps : Keeps s (s.setState p taskRunning) := by
    refine ⟨rfl, fun t ht => ?_⟩
    rw [hstate t, ht, ite_self]
  by_cases hmem : p ∈ q
  · refine ⟨s.setState p taskRunning, q, ?_, h.insert hp s.live ?_ h.headed, hkeeps, rfl, rfl,
      hstate⟩
    · rw [Rq.setTaskCpu]
      simp [setState_lists, hcontains, hmem]
    · intro t
      constructor
      · exact .inr
      · rintro (rfl | ht)
        · exact hmem
        · exact ht
  · obtain ⟨lists, hadd, hheaded⟩ := addToHead_eq h.headed hmem
    refine ⟨_, p :: q, ?_, h.insert hp s.live (fun t => mem_cons) hheaded,
      ⟨hkeeps.idle, hkeeps.running⟩, rfl, rfl, hstate⟩
    rw [Rq.setTaskCpu]
    simp only [setState_lists, hcontains, hmem, decide_false, bind_eq_bind,
      bind_some, Bool.false_eq_true, if_false, hadd]
    rfl

theorem setState_setState (v w : BitVec 32) : (s.setState p v).setState p w = s.setState p w := by
  simp [setState, setTask]

theorem tryToWakeUp_eq (hp : p ≠ s.current) : s.tryToWakeUp p = s.setTaskCpu p := by
  rw [tryToWakeUp, if_neg hp, setTaskCpu, setTaskCpu, setState_setState]

theorem Queue.wakeUpProcess (h : Queue s q) (p : Tid) :
    ∃ s' q', s.wakeUpProcess p = some s' ∧ Queue s' q' ∧ Keeps s s' ∧ s'.current = s.current ∧
      s'.live = s.live ∧
      ∀ t, (s'.tasks t).state = if t = p then taskRunning else (s.tasks t).state := by
  rw [Rq.wakeUpProcess]
  by_cases hp : p = s.current
  · subst hp
    have hstate := fun t => setState_state (s := s) s.current t taskRunning
    refine ⟨_, q, if_pos rfl, h.setCurrentState taskRunning, ⟨rfl, fun t ht => ?_⟩, rfl, rfl, hstate⟩
    rw [hstate t, ht, ite_self]
  · rw [tryToWakeUp_eq hp]
    exact h.setTaskCpu hp

theorem Queue.wakeUpNewTask (h : Queue s q) (hcur : p ≠ s.current) (hnew : p ∉ q) :
    ∃ s' q', s.wakeUpNewTask p = some s' ∧ Queue s' q' ∧ Keeps s s' ∧ s'.current = s.current ∧
      s'.live = update s.live p true ∧
      ∀ t, (s'.tasks t).state = if t = p then taskRunning else (s.tasks t).state := by
  obtain ⟨lists, hadd, hheaded⟩ := addToHead_eq h.headed hnew
  have hstate := fun t => setState_state (s := s) p t taskRunning
  refine ⟨_, p :: q, ?_, h.insert hcur (update s.live p true) (fun t => mem_cons)
    hheaded, ⟨rfl, fun t ht => ?_⟩, rfl, rfl, hstate⟩
  · rw [Rq.wakeUpNewTask]
    simp only [setState_lists, hadd, bind_eq_bind, bind_some]
    rfl
  · rw [hstate t, ht, ite_self]

/-! ## Choosing the next task -/

/-- The run queue after the current task was put back: at the tail if it is idle or has used more
time than the first task there, and at the head otherwise. -/
def Rq.requeued (s : Rq) (q : List Tid) : List Tid :=
  if s.current = s.idle ∨
      (q.head?.elim s.stray fun t => (s.tasks t).vruntime) < (s.tasks s.current).vruntime then
    q ++ [s.current]
  else s.current :: q

theorem mem_requeued {t : Tid} : t ∈ s.requeued q ↔ t = s.current ∨ t ∈ q := by
  rw [requeued]
  split
  · rw [mem_append, mem_singleton, or_comm]
  · exact mem_cons

theorem requeue_eq (h : Headed lists anchors (queued q)) (hcur : s.current ∉ q) :
    ∃ lists', { s with lists }.requeue = some { s with lists := lists' } ∧
      Headed lists' anchors (queued (s.requeued q)) := by
  obtain ⟨head, hhead, hheadq⟩ := addToHead_eq h hcur
  obtain ⟨tail, htail, htailq⟩ := addToTail_eq h hcur
  have hfirst : { s with lists }.firstVruntime =
      q.head?.elim s.stray fun t => (s.tasks t).vruntime := by
    have hlinked := h.rings.linked ()
    rw [firstVruntime]
    cases q with
    | nil => rw [show lists.next .anchor = .node .anchor from hlinked.1]; rfl
    | cons t q => rw [show lists.next .anchor = .node (.task t) from hlinked.1.1]; rfl
  rw [requeue, requeued]
  by_cases hidle : s.current = s.idle
  · refine ⟨tail, ?_, by rwa [if_pos (.inl hidle)]⟩
    simp [if_pos hidle, htail]
  · have hplace : ∀ later, findPlace lists later (lists.count .anchor + 1) (lists.next .anchor) =
        some (if later then .anchor else (q.map Node.task).headD .anchor) := by
      intro later
      apply findPlace_eq h
      rw [h.count (), length_map]
      exact Nat.lt_succ_self _
    simp only [hplace, hfirst, bind_eq_bind, bind_some, hidle, false_or, decide_eq_true_eq]
    -- the place is the anchor, or what comes right behind it
    by_cases hlater : (q.head?.elim s.stray fun t => (s.tasks t).vruntime) <
        (s.tasks s.current).vruntime
    · obtain ⟨linked, hlinked, hcount⟩ := bind_eq_some_iff.mp htail
      rw [if_pos hlater, if_pos hlater]
      refine ⟨tail, ?_, htailq⟩
      rw [hlinked, ← some.inj hcount]
      rfl
    · obtain ⟨linked, hlinked, hcount⟩ := bind_eq_some_iff.mp hhead
      rw [if_neg hlater, if_neg hlater]
      refine ⟨head, ?_, hheadq⟩
      rw [listAddToPrev_head h, hlinked, ← some.inj hcount]
      rfl

def Rq.remaining (s : Rq) (q : List Tid) : List Tid :=
  if (s.tasks s.current).state = taskRunning then s.requeued q else q

theorem mem_remaining {t : Tid} : t ∈ s.remaining q ↔
    (t = s.current ∧ (s.tasks s.current).state = taskRunning) ∨ t ∈ q := by
  rw [remaining]
  split
  · rename_i hstate
    rw [mem_requeued, and_iff_left hstate]
  · rename_i hstate
    simp [hstate]

theorem putBack_eq (h : Headed lists anchors (queued q)) (hcur : s.current ∉ q) :
    ∃ lists', { s with lists }.putBack = some { s with lists := lists' } ∧
      Headed lists' anchors (queued (s.remaining q)) := by
  rw [putBack, remaining]
  split
  · exact requeue_eq h hcur
  · exact ⟨lists, rfl, h⟩

@[simp] theorem account_lists : s.account.lists = s.lists := by
  rw [account]
  split <;> rfl

@[simp] theorem account_idle : s.account.idle = s.idle := by
  rw [account]
  split <;> rfl

@[simp] theorem account_live : s.account.live = s.live := by
  rw [account]
  split <;> rfl

theorem account_state (t : Tid) : (s.account.tasks t).state = (s.tasks t).state := by
  rw [account]
  split
  · rfl
  · by_cases ht : t = s.current
    · subst ht
      simp [setTask]
    · simp [setTask, ht]

/-- `pick_next_task_myos` keeps the current task, or takes the first one from the run queue and puts
the current task back if it can run. -/
theorem Queue.pickNextTask (h : Queue s q) :
    (s.pickNextTask = some (s.current, s) ∧
      (q = [] ∨ (s.jiffies - s.lastJiffies).toNat < (s.tasks s.current).timeSlice.toNat ∧
        (s.tasks s.current).state = taskRunning)) ∨
    ∃ next rest lists, q = next :: rest ∧
      s.pickNextTask = some (next, { s with lists }.account) ∧
      Headed lists anchors (queued (s.remaining rest)) := by
  have hcount : s.lists.count .anchor = q.length := by
    rw [h.headed.count (), length_map]
  by_cases hpick : (s.current = s.idle ∨
      (s.tasks s.current).timeSlice.toNat ≤ (s.jiffies - s.lastJiffies).toNat ∨
      (s.tasks s.current).state ≠ taskRunning) ∧ 0 < s.lists.count .anchor
  · right
    cases q with
    | nil =>
      rw [hcount] at hpick
      exact absurd hpick.2 (Nat.lt_irrefl 0)
    | cons next rest =>
      obtain ⟨lists, hremove, hheaded⟩ := removeHead_eq h.headed
      have hcur : s.current ∉ rest := fun hmem => h.apart (mem_cons_of_mem _ hmem)
      obtain ⟨lists', hput, hheaded'⟩ := putBack_eq (s := s) hheaded hcur
      refine ⟨next, rest, lists', rfl, ?_, hheaded'⟩
      rw [pickNextTask, if_pos hpick, hremove]
      simp [hput]
  · left
    refine ⟨if_neg hpick, ?_⟩
    rw [hcount, length_pos_iff, ← Nat.not_le] at *
    tauto

theorem clearTskNeedResched_state (t u : Tid) :
    ((s.clearTskNeedResched t).tasks u).state = (s.tasks u).state := by
  rw [clearTskNeedResched, setTask]
  by_cases hu : u = t
  · subst hu
    simp
  · simp [hu]

theorem clearTskNeedResched_needResched (t : Tid) :
    ((s.clearTskNeedResched t).tasks t).needResched = false := by
  simp [clearTskNeedResched, setTask]

/-- `__schedule` keeps the run queue right; the task that had the processor stays current, or is on
the run queue exactly if it can run. -/
theorem Queue.schedule (h : Queue s q) (mode : Rq.SchedMode) :
    ∃ s' q', s.schedule mode = some s' ∧ Queue s' q' ∧ s'.idle = s.idle ∧ s'.live = s.live ∧
      (∀ t, (s'.tasks t).state = (s.tasks t).state) ∧
      (s'.current = s.current ∨ s'.current ∈ q) ∧
      (s'.tasks s.current).needResched = false ∧
      ((s'.current = s.current ∨ s.current ∈ q') ↔
        (q = [] ∨ (s.tasks s.current).state = taskRunning)) := by
  obtain ⟨hpick, hwhy⟩ | ⟨next, rest, lists, rfl, hpick, hheaded⟩ := h.pickNextTask
  · have hstate := clearTskNeedResched_state (s := s) s.current
    refine ⟨s.clearTskNeedResched s.current, q, ?_, ⟨h.headed, ?_, ?_, h.apart⟩, rfl, rfl, hstate,
      .inl rfl, clearTskNeedResched_needResched _, iff_of_true (.inl rfl) (hwhy.imp_right And.right)⟩
    · rw [Rq.schedule, hpick]
      rfl
    · intro t ht
      exact (hstate t).trans (h.running t ht)
    · intro t ht
      exact h.complete t ((hstate t).symm.trans ht)
  · have hstate' : ∀ t, (({ s with lists }.account.clearTskNeedResched s.current).tasks t).state =
        (s.tasks t).state :=
      fun t => (clearTskNeedResched_state s.current t).trans (account_state t)
    have hnext : next ≠ s.current := by
      rintro rfl
      exact h.apart (mem_cons_self ..)
    obtain ⟨hnotRest, -⟩ := nodup_cons.mp h.nodup
    refine ⟨{ { s with lists }.account.clearTskNeedResched s.current with current := next },
      s.remaining rest, ?_, ⟨?_, ?_, ?_, ?_⟩, account_idle, account_live, hstate',
      .inr (mem_cons_self ..), clearTskNeedResched_needResched _, ?_⟩
    · rw [schedule, hpick]
      rfl
    · change Headed { s with lists }.account.lists anchors _
      rwa [account_lists]
    · intro t ht
      refine (hstate' t).trans ?_
      obtain ⟨rfl, hrun⟩ | hrest := mem_remaining.mp ht
      · exact hrun
      · exact h.running t (mem_cons_of_mem _ hrest)
    · intro t ht
      have hrun : (s.tasks t).state = taskRunning := (hstate' t).symm.trans ht
      obtain rfl | hq := h.complete t hrun
      · exact .inr (mem_remaining.mpr (.inl ⟨rfl, hrun⟩))
      · exact (mem_cons.mp hq).imp id fun hrest => mem_remaining.mpr (.inr hrest)
    · intro hq'
      exact (mem_remaining.mp hq').elim (fun hold => hnext hold.1) hnotRest
    · have hcurRest : s.current ∉ rest := fun hrest => h.apart (mem_cons_of_mem _ hrest)
      simp [hnext, mem_remaining, hcurRest]

end Functions

/-! ## Runs -/

def Rq.OnQueue (s : Rq) (t : Tid) : Prop :=
  listHeaderContains (s.lists.count .anchor + 1) s.lists .anchor (.task t) = some true

instance (s : Rq) (t : Tid) : Decidable (s.OnQueue t) :=
  inferInstanceAs (Decidable (_ = _))

/-- The idle task does not put itself to sleep. -/
def Rq.IdleAwake (s : Rq) : Rq.Op → Prop
  | .setCurrentState v => s.current = s.idle → v = taskRunning
  | _ => True

instance (s : Rq) : (op : Rq.Op) → Decidable (s.IdleAwake op)
  | .setCurrentState _ => inferInstanceAs (Decidable (_ → _))
  | .wakeUpNewTask _ | .wakeUpProcess _ | .tick | .schedule _ => inferInstanceAs (Decidable True)

variable {op : Rq.Op}

section Runs
variable {s s' : Rq} {q : List Tid} {t : Tid}

theorem Queue.onQueue_iff (h : Queue s q) : s.OnQueue t ↔ t ∈ q := by
  rw [Rq.OnQueue, contains_eq h.headed]
  simp

theorem LiveOk.switch (hlive : LiveOk s) (hq : Queue s q) (hlive' : s'.live = s.live)
    (hstate : ∀ t, (s'.tasks t).state = (s.tasks t).state)
    (hcurrent : s'.current = s.current ∨ s'.current ∈ q) : LiveOk s' := by
  refine ⟨?_, fun t ht => ?_⟩
  · rw [hlive']
    obtain heq | hmem := hcurrent
    · rw [heq]
      exact hlive.current
    · exact hlive.running _ (hq.running _ hmem)
  · rw [hlive']
    exact hlive.running t ((hstate t).symm.trans ht)

/-- Every step comes back and keeps the run queue right. A task that can run stays so unless it is
current and writes another state. -/
theorem Queue.step (h : Queue s q) (hlive : LiveOk s) (hok : s.Ok op) :
    ∃ s' q', s.step op = some ((), s') ∧ Queue s' q' ∧ LiveOk s' ∧ s'.idle = s.idle ∧
      ∀ t, (s.tasks t).state = taskRunning →
        (s'.tasks t).state = taskRunning ∨
        t = s.current ∧ ∃ v, op = .setCurrentState v ∧ v ≠ taskRunning := by
  cases op with
  | wakeUpNewTask p =>
    have hcur : p ≠ s.current := by
      rintro rfl
      exact absurd (hok.1.symm.trans hlive.current) nofun
    have hnew : p ∉ q := by
      intro hp
      exact absurd (hok.2.symm.trans (h.running p hp)) (by decide)
    obtain ⟨s', q', hstep, hq, hkeeps, hcurrent, hlive', hstate⟩ := h.wakeUpNewTask hcur hnew
    refine ⟨s', q', by rw [step, hstep]; rfl, hq, ⟨?_, ?_⟩, hkeeps.idle,
      fun t ht => .inl (hkeeps.running t ht)⟩
    · rw [hcurrent, hlive', update_of_ne hcur.symm]
      exact hlive.current
    · intro t ht
      rw [hlive']
      rw [hstate t] at ht
      by_cases htp : t = p
      · subst htp
        exact update_self ..
      · rw [update_of_ne htp]
        rw [if_neg htp] at ht
        exact hlive.running t ht
  | wakeUpProcess p =>
    obtain ⟨s', q', hstep, hq, hkeeps, hcurrent, hlive', hstate⟩ := h.wakeUpProcess p
    refine ⟨s', q', by rw [step, hstep]; rfl, hq, ⟨?_, ?_⟩, hkeeps.idle,
      fun t ht => .inl (hkeeps.running t ht)⟩
    · rw [hcurrent, hlive']
      exact hlive.current
    · intro t ht
      rw [hlive']
      rw [hstate t] at ht
      by_cases htp : t = p
      · subst htp
        exact hok
      · rw [if_neg htp] at ht
        exact hlive.running t ht
  | setCurrentState v =>
    refine ⟨_, q, rfl, h.setCurrentState v, ⟨hlive.current, ?_⟩, rfl, ?_⟩
    · intro t ht
      rw [setState_state] at ht
      split at ht
      · rename_i heq
        subst heq
        exact hlive.current
      · exact hlive.running t ht
    · intro t ht
      rw [setState_state]
      split
      · rename_i htc
        exact (eq_or_ne v taskRunning).imp id fun hv => ⟨htc, v, rfl, hv⟩
      · exact .inl ht
  | tick =>
    exact ⟨_, q, rfl, ⟨h.headed, h.running, h.complete, h.apart⟩, ⟨hlive.current, hlive.running⟩, rfl,
      fun t ht => .inl ht⟩
  | schedule mode =>
    obtain ⟨s', q', hstep, hq, hidle, hlive', hstate, hcurrent, -⟩ := h.schedule mode
    exact ⟨s', q', by rw [step, hstep]; rfl, hq, hlive.switch h hlive' hstate hcurrent, hidle,
      fun t ht => .inl ((hstate t).trans ht)⟩

theorem queue_start (h : Rq.Start s) : Queue s [] ∧ LiveOk s := by
  refine ⟨⟨⟨⟨?_, ?_, ?_⟩, fun _ => h.count⟩, nofun, ?_, not_mem_nil⟩, ?_, ?_⟩
  · exact fun _ => ⟨h.next, h.prev⟩
  · exact fun _ => nodup_singleton _
  · exact fun i j hij => absurd rfl hij
  · intro t ht
    left
    rw [h.current]
    by_contra hne
    exact h.others t hne ht
  · rw [h.current]
    exact h.live
  · intro t ht
    by_cases hidle : t = s.idle
    · rw [hidle]
      exact h.live
    · exact absurd ht (h.others t hidle)

def Sound (s : Rq) : Prop := LiveOk s ∧ ∃ q, Queue s q

theorem sound_start (h : Rq.Start s) : Sound s := ⟨(queue_start h).2, [], (queue_start h).1⟩

theorem Sound.step (h : Sound s) {r : Unit} (hok : s.Ok op)
    (hstep : s.step op = some (r, s')) : Sound s' := by
  obtain ⟨hlive, q, hq⟩ := h
  obtain ⟨s₁, q', hstep₁, hq', hlive', -⟩ := hq.step hlive hok
  obtain ⟨-, rfl⟩ := Prod.mk.inj (some.inj (hstep₁.symm.trans hstep))
  exact ⟨hlive', q', hq'⟩

theorem reachable_sound (h : Reachable step Rq.Ok Rq.Start s) : Sound s :=
  h.invariant (fun _ => sound_start) fun _ _ _ _ hs hok => hs.step hok

theorem Sound.running_step (h : Sound s) {r : Unit} (hok : s.Ok op)
    (hstep : s.step op = some (r, s')) (hrun : (s.tasks t).state = taskRunning)
    (hnot : ∀ v, t = s.current → op = .setCurrentState v → v = taskRunning) :
    (s'.tasks t).state = taskRunning := by
  obtain ⟨hlive, q, hq⟩ := h
  obtain ⟨s₁, q', hstep₁, -, -, -, hkeep⟩ := hq.step hlive hok
  obtain ⟨-, rfl⟩ := Prod.mk.inj (some.inj (hstep₁.symm.trans hstep))
  refine (hkeep t hrun).resolve_right ?_
  rintro ⟨hcur, v, hop, hv⟩
  exact hv (hnot v hcur hop)

theorem Sound.kept (h : Sound s) (hrun : (s.tasks t).state = taskRunning) :
    s.current = t ∨ s.OnQueue t := by
  obtain ⟨-, q, hq⟩ := h
  exact (hq.complete t hrun).imp Eq.symm hq.onQueue_iff.mpr

theorem reachable_idle_running
    (h : Reachable step (fun s op => s.Ok op ∧ s.IdleAwake op) Rq.Start s) :
    Sound s ∧ (s.tasks s.idle).state = taskRunning := by
  induction h with
  | start hs => exact ⟨sound_start hs, hs.idle⟩
  | @call s s' op r _ hop hstep ih =>
    obtain ⟨hsound, hrun⟩ := ih
    have hidle : s'.idle = s.idle := by
      obtain ⟨hlive, q, hq⟩ := hsound
      obtain ⟨s₁, q', hstep₁, -, -, hidle, -⟩ := hq.step hlive hop.1
      obtain ⟨-, rfl⟩ := Prod.mk.inj (some.inj (hstep₁.symm.trans hstep))
      exact hidle
    refine ⟨hsound.step hop.1 hstep, ?_⟩
    rw [hidle]
    apply hsound.running_step hop.1 hstep hrun
    rintro v hcur rfl
    exact hop.2 hcur.symm

/-- Every step comes back; the run queue holds the tasks that can run and are not current, each
once, and counts them. The idle task is one of them, or current, as long as it does not put itself
to sleep. -/
theorem queue_of_reachable (s : Rq) :
    (Reachable step Rq.Ok Rq.Start s →
      (∃ q, q.Nodup ∧ Queue s q) ∧ ∀ op, s.Ok op → ∃ s', s.step op = some ((), s')) ∧
    (Reachable step (fun s op => s.Ok op ∧ s.IdleAwake op) Rq.Start s →
      s.current = s.idle ∨ s.OnQueue s.idle) := by
  constructor
  · intro h
    obtain ⟨hlive, q, hq⟩ := reachable_sound h
    refine ⟨⟨q, hq.nodup, hq⟩, fun op hok => ?_⟩
    obtain ⟨s', q', hstep, -⟩ := hq.step hlive hok
    exact ⟨s', hstep⟩
  · intro h
    obtain ⟨hsound, hrun⟩ := reachable_idle_running h
    exact hsound.kept hrun

/-! A processor with the idle task 0 and new tasks. -/

def boot : Rq where
  lists := { next := fun _ => .node .anchor, prev := fun _ => .node .anchor, count := fun _ => 0 }
  tasks t := ⟨if t = 0 then taskRunning else taskNew, 0, 1, false⟩
  current := 0
  idle := 0
  jiffies := 0
  lastJiffies := 0
  stray := 0
  live t := decide (t = 0)

theorem start_boot : Rq.Start boot := by
  refine ⟨rfl, rfl, rfl, rfl, rfl, rfl, ?_⟩
  intro t ht
  have hne : t ≠ 0 := ht
  simp [boot, hne, taskNew, taskRunning]

/-- The idle task has given way to task 2, whose time is up; task 1 is first on the queue. -/
theorem reachable_busy : ∃ s,
    Reachable step (fun s op => s.Ok op ∧ s.IdleAwake op) Rq.Start s ∧
    decide (s.current = 2 ∧ s.lists.count .anchor = 2 ∧ (s.tasks 2).state = taskRunning ∧
      (s.tasks 1).state = taskRunning ∧ s.OnQueue 1 ∧
      s.preemptScheduleCommon.any (fun s' => decide (s'.current = 1))) = true :=
  Reachable.exists_of_run start_boot
    [.wakeUpNewTask 1, .wakeUpNewTask 2, .schedule .none, .tick] (by decide +kernel)

/-- One task runs and two are queued. -/
theorem queue_of_reachable_busy : ∃ s : Rq, s.current = 2 ∧ s.lists.count .anchor = 2 ∧
    (∃ q, q.Nodup ∧ Queue s q) ∧ (s.current = s.idle ∨ s.OnQueue s.idle) := by
  obtain ⟨s, hs, hlast⟩ := reachable_busy
  obtain ⟨hcurrent, hcount, -⟩ := of_decide_eq_true hlast
  obtain ⟨hqueue, hidle⟩ := queue_of_reachable s
  exact ⟨s, hcurrent, hcount, (hqueue (hs.imp fun _ _ h => h.1)).1, hidle hs⟩

/-- The idle task writes a sleeping state while another task is queued, and is lost at the next
switch. -/
theorem sleeping_idle_lost : ∃ s, Reachable step Rq.Ok Rq.Start s ∧
    ¬ (s.current = s.idle ∨ s.OnQueue s.idle) := by
  have hrun : (Reachable.run step Rq.Ok boot
      [.wakeUpNewTask 1, .setCurrentState taskInterruptible, .schedule .none]).any
      (fun s => decide (¬ (s.current = s.idle ∨ s.OnQueue s.idle))) = true := by
    decide +kernel
  obtain ⟨s, hs, hlost⟩ := Reachable.exists_of_run start_boot _ hrun
  exact ⟨s, hs, of_decide_eq_true hlost⟩

/-! ## Preemption -/

theorem Queue.preemptScheduleCommon (h : Queue s q) :
    ∃ s' q', s.preemptScheduleCommon = some s' ∧ Queue s' q' ∧ s'.live = s.live ∧
      (∀ t, (s'.tasks t).state = (s.tasks t).state) ∧ (s'.current = s.current ∨ s'.current ∈ q) ∧
      ((s'.current = s.current ∨ s.current ∈ q') ↔
        (q = [] ∨ (s.tasks s.current).state = taskRunning)) := by
  obtain ⟨s', q', hstep, hq, -, hlive, hstate, hcurrent, hflag, hiff⟩ := h.schedule .preempt
  refine ⟨s', q', ?_, hq, hlive, hstate, hcurrent, hiff⟩
  rw [Rq.preemptScheduleCommon, Rq.preemptLoop, hstep]
  simp [hflag]

/-- The current task is current or on the run queue after a preemption if and only if its state was
`TASK_RUNNING` or no other task could run; then it stays there until it runs again. -/
theorem preempted_kept_iff (h : Reachable step Rq.Ok Rq.Start s) :
    ∃ s', s.preemptScheduleCommon = some s' ∧
      ((s'.current = s.current ∨ s'.OnQueue s.current) ↔
        ((s.tasks s.current).state = taskRunning ∨ s.lists.count .anchor = 0)) ∧
      ((s.tasks s.current).state = taskRunning →
        ∀ s'', Reachable step (fun r op => r.Ok op ∧ r.current ≠ s.current) (· = s') s'' →
          s''.current = s.current ∨ s''.OnQueue s.current) := by
  obtain ⟨hlive, q, hq⟩ := reachable_sound h
  obtain ⟨s', q', hstep, hq', hlive', hstate, hcurrent, hiff⟩ := hq.preemptScheduleCommon
  have hcount : s.lists.count .anchor = 0 ↔ q = [] := by
    rw [hq.headed.count (), length_map, length_eq_zero_iff]
  refine ⟨s', hstep, ?_, ?_⟩
  · rw [hq'.onQueue_iff, hiff, hcount, or_comm]
  · intro hrun s'' hs''
    have hsound : Sound s' := ⟨hlive.switch hq hlive' hstate hcurrent, q', hq'⟩
    have hlater : Sound s'' ∧ (s''.tasks s.current).state = taskRunning := by
      induction hs'' with
      | start heq =>
        rw [heq]
        exact ⟨hsound, (hstate _).trans hrun⟩
      | call _ hop hstep ih =>
        refine ⟨ih.1.step hop.1 hstep, ih.1.running_step hop.1 hstep ih.2 ?_⟩
        intro v hcur _
        exact absurd hcur.symm hop.2
    exact hlater.1.kept hlater.2

/-- Task 2 is preempted by task 1, and stays on the queue until it runs again. -/
theorem preempted_kept_iff_busy : ∃ s s' : Rq, s.current = 2 ∧ s.preemptScheduleCommon = some s' ∧
    s'.current = 1 ∧ s'.OnQueue 2 ∧
    ∀ s'', Reachable step (fun r op => r.Ok op ∧ r.current ≠ 2) (· = s') s'' →
      s''.current = 2 ∨ s''.OnQueue 2 := by
  obtain ⟨s, hs, hlast⟩ := reachable_busy
  obtain ⟨hcurrent, -, hrun, -, -, hnext⟩ := of_decide_eq_true hlast
  obtain ⟨s', hstep, hkept, hlater⟩ := preempted_kept_iff (hs.imp fun _ _ h => h.1)
  rw [hcurrent] at hkept hlater
  rw [hstep] at hnext
  have hfirst : s'.current = 1 := of_decide_eq_true hnext
  refine ⟨s, s', hcurrent, hstep, hfirst, ?_, hlater hrun⟩
  exact (hkept.2 (.inl hrun)).resolve_left (by simp [hfirst])

/-- A task that is about to sleep is preempted, and nothing holds it any more. -/
theorem preempted_sleeper_lost : ∃ s s', Reachable step Rq.Ok Rq.Start s ∧
    s.preemptScheduleCommon = some s' ∧ ¬ (s'.current = s.current ∨ s'.OnQueue s.current) := by
  have hrun : (Reachable.run step Rq.Ok boot
      [.wakeUpNewTask 1, .schedule .none, .setCurrentState taskInterruptible]).any
      (fun s => s.preemptScheduleCommon.any fun s' =>
        decide (¬ (s'.current = s.current ∨ s'.OnQueue s.current))) = true := by
    decide +kernel
  obtain ⟨s, hs, hlast⟩ := Reachable.exists_of_run start_boot _ hrun
  obtain ⟨s', hstep, hlost⟩ := (any_eq_true _ _).mp hlast
  exact ⟨s, s', hs, hstep, of_decide_eq_true hlost⟩

/-! ## Waking with a mask -/

/-- The task is woken if its state is in the mask, and left alone otherwise. -/
def Rq.Respects (s s' : Rq) (p : Tid) (mask : BitVec 32) (r : Int) : Prop :=
  if (s.tasks p).state &&& mask ≠ 0 then
    r = 1 ∧ s'.OnQueue p ∧
      s'.tasks = update s.tasks p { s.tasks p with state := taskRunning } ∧
      ∀ t, t ≠ p → (s'.OnQueue t ↔ s.OnQueue t)
  else r = 0 ∧ s' = s

/-- Only a task that can run already, and is on the run queue, is treated as the mask asks: every
other one is woken, and every call returns 0. -/
theorem respects_iff_running (h : Headed s.lists anchors (queued q)) {p : Tid}
    (hp : p ≠ s.current) (mask : BitVec 32) :
    (∃ r s', s.wakeUpState p mask = some (r, s') ∧ s.Respects s' p mask r) ↔
      (s.tasks p).state = taskRunning ∧ s.OnQueue p := by
  have hcontains := contains_eq (t := p) h
  rw [wakeUpState, tryToWakeUp_eq hp, setTaskCpu, setState_lists, Rq.OnQueue, hcontains]
  have hmasked : ∀ {s'}, s.Respects s' p mask 0 → s' = s := by
    intro s' hs'
    rw [Rq.Respects] at hs'
    split at hs'
    · exact absurd hs'.1 (by decide)
    · exact hs'.2
  by_cases hmem : p ∈ q
  · simp only [hmem, decide_true, bind_eq_bind, bind_some, if_true, map_some,
      some.injEq, Prod.mk.injEq, and_true]
    constructor
    · rintro ⟨_, _, ⟨rfl, rfl⟩, hs'⟩
      rw [← hmasked hs', setState_state, if_pos rfl]
    · intro hrun
      refine ⟨0, _, ⟨rfl, rfl⟩, ?_⟩
      have hsame : s.setState p taskRunning = s := by
        rw [setState, setTask, ← hrun, update_eq_self]
      rw [Rq.Respects, hrun, if_neg (by simp [taskRunning])]
      exact ⟨rfl, hsame⟩
  · obtain ⟨lists, hadd, hheaded⟩ := addToHead_eq h hmem
    simp only [hmem, decide_false, bind_eq_bind, bind_some, Bool.false_eq_true,
      if_false, hadd, map_some, some.injEq, Prod.mk.injEq, and_false, iff_false]
    rintro ⟨_, _, ⟨rfl, rfl⟩, hs'⟩
    -- the queue has become longer
    have hlists : lists = s.lists := congrArg Rq.lists (hmasked hs')
    have hlength := (hheaded.count ()).symm.trans ((congrArg (·.count .anchor) hlists).trans (h.count ()))
    simp at hlength

/-- A task is woken that is queued already. -/
theorem respects_iff_running_busy : ∃ (s : Rq) (r : Int) (s' : Rq), s.current = 2 ∧ s.OnQueue 1 ∧
    s.wakeUpState 1 taskInterruptible = some (r, s') ∧ s.Respects s' 1 taskInterruptible r := by
  obtain ⟨s, hs, hlast⟩ := reachable_busy
  obtain ⟨hcurrent, -, -, hrun, hon, -⟩ := of_decide_eq_true hlast
  obtain ⟨-, q, hq⟩ := reachable_sound (hs.imp fun _ _ h => h.1)
  have hne : (1 : Tid) ≠ s.current := by simp [hcurrent]
  obtain ⟨r, s', hstep, hs'⟩ := (respects_iff_running hq.headed hne taskInterruptible).2 ⟨hrun, hon⟩
  exact ⟨s, r, s', hcurrent, hon, hstep, hs'⟩

/-- A new task is put on the run queue by a call that asks for sleeping tasks. -/
theorem new_task_woken :
    ¬ ∃ r s', boot.wakeUpState 1 taskInterruptible = some (r, s') ∧
      boot.Respects s' 1 taskInterruptible r := by
  rintro ⟨r, s', hstep, hs'⟩
  have hwoken : (boot.wakeUpState 1 taskInterruptible).any (fun x =>
      decide ((x.2.tasks 1).state = taskRunning)) = true := by
    decide +kernel
  rw [hstep] at hwoken
  have hnew : (boot.tasks 1).state = taskRunning := by simpa [hs'.2] using hwoken
  exact absurd hnew (by decide)

end Runs

end MyOS2.Scheduler
