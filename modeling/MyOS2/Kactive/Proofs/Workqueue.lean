import MyOS2.Kactive.Proofs.WorkerPool
import MyOS2.Kactive.Workqueue

/-!
# No work is ever run

Works are queued in the order of the calls, but nothing stores the `pwq` of a
work in its `data`, and a worker that takes a work up reads through `NULL` before
it calls the function.
-/

namespace MyOS2.Workqueue.State

open Function DoubleList Option

variable {s s' : State} {w : WorkerId} {k : WorkId} {ks : List WorkId} {idle ws : List WorkerId}

/-- No function of a work is running or has run, and none can be. -/
structure Halted (s : State) : Prop where
  pwq : ∀ k, s.pwq k = none
  executed : s.executed = []
  pc : ∀ w k, s.pc w ≠ .executing k

/-- The works `ks` wait in the pool, in the order in which they were queued. -/
structure Waiting (s : State) (ks : List WorkId) (idle ws : List WorkerId) : Prop where
  pool : PoolOk s.loop ks idle ws
  flags : has s.pool.flags poolBh = false
  halted : Halted s

/-! ## Taking up a work -/

theorem processOneWork_eq_none (h : s.pwq k = none) : s.processOneWork w k = none := by
  rw [processOneWork, h]
  rfl

theorem processScheduledWorks_eq_none (h : ∀ k, s.pwq k = none) :
    s.processScheduledWorks w = none := by
  rw [processScheduledWorks]
  split
  · exact processOneWork_eq_none (h _)
  · rfl

theorem workLoop_eq (h : ∀ k, s.pwq k = none) (hstep : s.workLoop w = some s') :
    { s with pool := s.pool.workerSetFlags w workerPrep }.sleep w = some s' := by
  rw [workLoop] at hstep
  split at hstep
  · split at hstep
    · obtain ⟨pool, -, hproc⟩ := bind_eq_some_iff.mp hstep
      exact absurd (hproc.symm.trans (processScheduledWorks_eq_none h)) nofun
    · contradiction
  · exact hstep

theorem Halted.setPc (h : Halted s) {pool : Pool} {awake : WorkerId → Bool} {pc : Pc}
    (hpc : ∀ k, pc ≠ .executing k) :
    Halted { { s with pool }.setPc w pc with awake } := by
  refine ⟨h.pwq, h.executed, fun x k => ?_⟩
  by_cases hx : x = w
  · subst hx
    simpa [State.setPc] using hpc k
  · simpa [State.setPc, hx] using h.pc x k

/-! ## Turns of the threads -/

section Helpers
variable {p p' : Pool}

theorem workerEnterIdle_flags (h : p.workerEnterIdle w = some p') : p'.flags = p.flags := by
  obtain ⟨lists, -, hlists⟩ := bind_eq_some_iff.mp h
  rw [← some.inj hlists]
  rfl

theorem workerLeaveIdle_flags (h : p.workerLeaveIdle w = some p') : p'.flags = p.flags := by
  rw [Pool.workerLeaveIdle] at h
  split at h
  · rw [some.inj h]
  · obtain ⟨lists, -, hlists⟩ := bind_eq_some_iff.mp h
    rw [← some.inj hlists]
    exact workerClrFlags_flags

theorem createWorker_flags {created : Bool} (h : p.createWorker w created = some p') :
    p'.flags = p.flags := by
  rw [Pool.createWorker] at h
  split at h
  · obtain ⟨p₁, hattach, henter⟩ := bind_eq_some_iff.mp h
    obtain ⟨lists, -, hlists⟩ := bind_eq_some_iff.mp hattach
    rw [workerEnterIdle_flags henter, ← some.inj hlists]
    split <;> rfl
  · rw [some.inj h]

end Helpers

theorem loop_phase (s : State) (w : WorkerId) : s.loop.phase w = (s.pc w).phase := rfl

theorem loop_setPc (s : State) (w : WorkerId) (pc : Pc) :
    (s.setPc w pc).loop = ⟨s.pool, update s.loop.phase w pc.phase⟩ := by
  rw [loop, State.setPc, Loop.mk.injEq]
  refine ⟨rfl, funext fun x => ?_⟩
  by_cases hx : x = w <;> simp [loop, hx]

section Turns
variable {phase : Phase}

theorem Halted.sleep (hhalted : Halted s) (hflags : has s.pool.flags poolBh = false)
    (hpool : PoolOk ⟨s.pool, update s.loop.phase w phase⟩ ks idle ws)
    (hphase : phase ≠ .absent ∧ phase ≠ .idle) :
    ∃ s', s.sleep w = some s' ∧ Waiting s' ks (idle ++ [w]) ws := by
  obtain ⟨pool, henter, hpool'⟩ := hpool.enterIdle (w := w) (by simpa using hphase)
  refine ⟨{ { s with pool }.setPc w .asleep with awake := update s.awake w false },
    ?_, ?_, ?_, hhalted.setPc (by simp)⟩
  · rw [State.sleep, henter]
    rfl
  · change PoolOk ({ s with pool }.setPc w .asleep).loop ks (idle ++ [w]) ws
    simp only [Loop.moveTo, update_idem] at hpool'
    rw [loop_setPc]
    exact hpool'
  · change has pool.flags poolBh = false
    rw [workerEnterIdle_flags henter]
    exact hflags

theorem Halted.recheck (hhalted : Halted s) (hflags : has s.pool.flags poolBh = false)
    (hpool : PoolOk ⟨s.pool, update s.loop.phase w .awake⟩ ks idle ws)
    (hstep : s.recheck w = some s') : ∃ idle', Waiting s' ks idle' ws := by
  rw [State.recheck] at hstep
  split at hstep
  · obtain ⟨s₁, hsleep, hwaiting⟩ := hhalted.sleep hflags hpool (by simp)
    rw [hsleep] at hstep
    exact ⟨_, some.inj hstep ▸ hwaiting⟩
  · split at hstep
    · rw [← some.inj hstep]
      refine ⟨idle, ?_, ?_, hhalted.setPc (by simp)⟩
      · rw [loop_setPc]
        exact hpool.setPoolFlags _
      · simp [State.setPc, has_or, hflags, show has poolManagerActive poolBh = false by decide]
    · have hleft : Phase.leaving ≠ .absent ∧ Phase.leaving ≠ .idle := by simp
      have hsleep := workLoop_eq (by exact hhalted.pwq) hstep
      have hbh : has ((s.pool.workerClrFlags w (workerPrep ||| workerRebound)).workerSetFlags w
          workerPrep).flags poolBh = false := by
        rw [workerSetFlags_flags, workerClrFlags_flags, hflags]
      have hworking : PoolOk (Loop.moveTo ⟨s.pool, update s.loop.phase w .awake⟩ w .working
          (s.pool.workerClrFlags w (workerPrep ||| workerRebound))).2 ks idle ws :=
        hpool.clrFlags (by simp) (by simp) (by decide)
      have hleaving := hworking.setFlags (w := w) (by simp [Loop.moveTo])
        hleft (show has workerPrep workerIdle = false by decide)
      simp only [Loop.moveTo, update_idem] at hleaving
      obtain ⟨s₁, hsleep₁, hwaiting⟩ := Halted.sleep
        (s := { s with pool := (s.pool.workerClrFlags w _).workerSetFlags w workerPrep })
        ⟨hhalted.pwq, hhalted.executed, hhalted.pc⟩ hbh hleaving hleft
      rw [hsleep₁] at hsleep
      exact ⟨_, some.inj hsleep ▸ hwaiting⟩

end Turns

/-! ## Whole runs -/

namespace Waiting

section

variable (h : Waiting s ks idle ws)
include h

theorem wokeUp (hw : s.pc w = .asleep) (hstep : s.wokeUp w = some s') :
    ∃ idle', Waiting s' ks idle' ws := by
  have hphase : s.loop.phase w = .idle := by rw [loop_phase, hw, Pc.phase]
  obtain ⟨pool, idle', hleave, hpool⟩ := h.pool.leaveIdle hphase
  rw [State.wokeUp, show s.pool.workerLeaveIdle w = some pool from hleave] at hstep
  have hflags : has pool.flags poolBh = false := by
    rw [workerLeaveIdle_flags hleave]
    exact h.flags
  exact Halted.recheck (s := { s with pool }) ⟨h.halted.pwq, h.halted.executed, h.halted.pc⟩ hflags
    hpool hstep

theorem createWorker (hw : s.pc w = .absent) (created : Bool) :
    ∃ s' idle' ws', s.createWorker w created = some s' ∧ Waiting s' ks idle' ws' ∧
      ∀ x, x ≠ w → s'.pc x = s.pc x := by
  cases created with
  | false => exact ⟨s, idle, ws, rfl, h, fun _ _ => rfl⟩
  | true =>
    have hphase : s.loop.phase w = .absent := by rw [loop_phase, hw, Pc.phase]
    obtain ⟨pool, hcreate, hpool⟩ := h.pool.createWorker hphase
    have hflags : has pool.flags poolBh = false := by
      rw [createWorker_flags hcreate]
      exact h.flags
    refine ⟨{ { s with pool }.setPc w .asleep with awake := update s.awake w true },
      idle ++ [w], ws ++ [w], ?_, ⟨?_, hflags, h.halted.setPc (by simp)⟩, ?_⟩
    · rw [State.createWorker, show s.pool.createWorker w true = some pool from hcreate]
      rfl
    · change PoolOk ({ s with pool }.setPc w .asleep).loop ks _ _
      rw [loop_setPc]
      exact hpool
    · intro x hx
      simp [State.setPc, hx]

theorem moveManager (hw : (s.pc w).phase = .awake) {pc : Pc}
    (hpc : pc.phase = .awake) : Waiting (s.setPc w pc) ks idle ws := by
  refine ⟨?_, h.flags, ?_⟩
  · rw [loop_setPc, hpc, ← show s.loop.phase w = .awake from hw, update_eq_self]
    exact h.pool
  · have hnot : ∀ k, pc ≠ .executing k := by
      rintro k rfl
      contradiction
    exact h.halted.setPc hnot

theorem manageCreate {w' : WorkerId} (hw : s.pc w = .creating)
    (hw' : s.pc w' = .absent) (created : Bool) :
    ∃ s' idle' ws', s.manageCreate w w' created = some s' ∧ Waiting s' ks idle' ws' := by
  obtain ⟨s₁, idle', ws', hcreate, hwaiting, hothers⟩ := h.createWorker hw' created
  have hne : w ≠ w' := by
    rintro rfl
    exact absurd (hw.symm.trans hw') nofun
  have hpc : (s₁.pc w).phase = .awake := by rw [hothers w hne, hw, Pc.phase]
  rw [State.manageCreate, hcreate]
  by_cases hdone : (created || !s₁.pool.needToCreateWorker) = true
  · exact ⟨s₁.setPc w .created, idle', ws', if_pos hdone, hwaiting.moveManager hpc rfl⟩
  · exact ⟨s₁, idle', ws', if_neg hdone, hwaiting⟩

theorem manageDone (hw : s.pc w = .created)
    (hstep : s.manageDone w = some s') : ∃ idle', Waiting s' ks idle' ws := by
  have hphase : s.loop.phase w = .awake := by rw [loop_phase, hw, Pc.phase]
  rw [State.manageDone] at hstep
  split at hstep
  · rw [← some.inj hstep]
    exact ⟨idle, h.moveManager (by rw [hw, Pc.phase]) rfl⟩
  · have hflags : has (s.pool.flags &&& ~~~poolManagerActive) poolBh = false := by
      rw [← Bool.not_eq_true]
      intro hset
      exact absurd (h.flags.symm.trans (has_of_has_and_not hset)) nofun
    have hpool : PoolOk ⟨{ s.pool with flags := s.pool.flags &&& ~~~poolManagerActive },
        update s.loop.phase w .awake⟩ ks idle ws := by
      rw [← hphase, update_eq_self]
      exact h.pool.setPoolFlags _
    exact Halted.recheck
      (s := { s with pool := { s.pool with flags := s.pool.flags &&& ~~~poolManagerActive } })
      ⟨h.halted.pwq, h.halted.executed, h.halted.pc⟩ hflags hpool hstep

end

theorem firstIdleWorker_isSome (h : PoolOk s.loop ks idle ws) :
    ∃ first, s.pool.firstIdleWorker = some first := by
  rw [Pool.firstIdleWorker]
  split
  · exact ⟨_, rfl⟩
  · rename_i hcount
    obtain ⟨w, rest, rfl⟩ : ∃ w rest, idle = w :: rest := by
      cases idle with
      | nil => exact absurd (h.headed.count .idle) hcount
      | cons w rest => exact ⟨w, rest, rfl⟩
    have hnext : s.pool.lists.next .idleList = .node (.entry w) := (h.headed.rings.linked .idle).1.1
    rw [hnext]
    exact ⟨_, rfl⟩

theorem kickPool (h : Waiting s ks idle ws) :
    ∃ s', s.kickPool = some s' ∧ Waiting s' ks idle ws ∧ s'.pool = s.pool := by
  obtain ⟨first, hfirst⟩ := firstIdleWorker_isSome h.pool
  rw [State.kickPool, hfirst]
  cases first with
  | none => exact ⟨s, rfl, h, rfl⟩
  | some w =>
    by_cases hneed : s.pool.needMoreWorker = true
    · refine ⟨{ s with awake := update s.awake w true }, ?_,
        ⟨h.pool, h.flags, h.halted.pwq, h.halted.executed, h.halted.pc⟩, rfl⟩
      simp [hneed, h.flags]
    · exact ⟨s, by simp [hneed], h, rfl⟩

/-- `queue_work_on` puts a work behind the others, and gives `true` even for one that is queued
already. -/
theorem queueWorkOn (h : Waiting s ks idle ws) (k : WorkId) :
    ∃ s' ks', s.queueWorkOn k = some (true, s') ∧ Waiting s' ks' idle ws ∧
      (listIsEmptyEntry s.pool.lists (.work k) = false → s' = s) := by
  cases hentry : listIsEmptyEntry s.pool.lists (.work k) with
  | false =>
    refine ⟨s, ks, ?_, h, fun _ => rfl⟩
    rw [State.queueWorkOn, simpleQueueWork, hentry]
    rfl
  | true =>
    have hk : k ∉ ks := by
      intro hk
      have hmem : .work k ∈ nodes ks idle ws .worklist := List.mem_map_of_mem hk
      exact absurd (hentry.symm.trans (h.pool.headed.isEmptyEntry_of_mem hmem)) nofun
    obtain ⟨lists, hadd, hpool⟩ := h.pool.queue hk
    obtain ⟨s', hkick, hwaiting, -⟩ :=
      kickPool (s := { s with pool := { s.pool with lists } }) ⟨hpool, h.flags, h.halted.pwq,
        h.halted.executed, h.halted.pc⟩
    refine ⟨s', ks ++ [k], ?_, hwaiting, nofun⟩
    rw [State.queueWorkOn, simpleQueueWork, hentry, show listHeaderAddToTail s.pool.lists .worklist
      (.work k) = some lists from hadd]
    simp [hkick]

end Waiting

def Sound (s : State) : Prop := ∃ ks idle ws, Waiting s ks idle ws

theorem Start.sound (h : s.Start) : Sound s := by
  obtain ⟨idle, ws, hpool⟩ := h.pool.accounted
  refine ⟨[], idle, ws, hpool, h.flags, h.pwq, h.executed, fun w k hw => ?_⟩
  have habsent := h.pool.absent w
  rw [loop_phase, hw, Pc.phase] at habsent
  contradiction

theorem Sound.step (h : Sound s) {op : Op} {r : Option Bool} (hok : s.Ok op)
    (hstep : s.step op = some (r, s')) : Sound s' := by
  obtain ⟨ks, idle, ws, h⟩ := h
  cases op with
  | queueWorkOn k =>
    obtain ⟨s₁, ks', hqueue, hwaiting, -⟩ := h.queueWorkOn k
    rw [State.step, hqueue] at hstep
    obtain ⟨-, rfl⟩ := Prod.mk.inj (some.inj hstep)
    exact ⟨ks', idle, ws, hwaiting⟩
  | createWorker w created =>
    obtain ⟨s₁, idle', ws', hcreate, hwaiting, -⟩ := h.createWorker hok created
    rw [State.step, hcreate] at hstep
    obtain ⟨-, rfl⟩ := Prod.mk.inj (some.inj hstep)
    exact ⟨ks, idle', ws', hwaiting⟩
  | wokeUp w =>
    obtain ⟨s₁, hwoke, heq⟩ := map_eq_some_iff.mp hstep
    obtain ⟨-, rfl⟩ := Prod.mk.inj heq
    obtain ⟨idle', hwaiting⟩ := h.wokeUp hok.1 hwoke
    exact ⟨ks, idle', ws, hwaiting⟩
  | functionReturned w =>
    obtain ⟨k, hpc⟩ := hok
    exact absurd hpc (h.halted.pc w k)
  | manageCreate w w' created =>
    obtain ⟨s₁, idle', ws', hcreate, hwaiting⟩ := h.manageCreate hok.1 hok.2 created
    rw [State.step, hcreate] at hstep
    obtain ⟨-, rfl⟩ := Prod.mk.inj (some.inj hstep)
    exact ⟨ks, idle', ws', hwaiting⟩
  | manageDone w =>
    obtain ⟨s₁, hdone, heq⟩ := map_eq_some_iff.mp hstep
    obtain ⟨-, rfl⟩ := Prod.mk.inj heq
    obtain ⟨idle', hwaiting⟩ := h.manageDone hok hdone
    exact ⟨ks, idle', ws, hwaiting⟩

theorem sound_of_reachable (h : Reachable step Ok Start s) : Sound s :=
  h.invariant (fun _ => Start.sound) fun _ _ _ _ hs hok hstep => hs.step hok hstep

theorem Sound.later (h : Sound s) (hlater : s.Later s') : Sound s' :=
  hlater.invariant (fun _ heq => heq ▸ h) fun _ _ _ _ hs hok hstep => hs.step hok hstep

/-- Every call of `queue_work_on` gives `true`, also for a work that is pending, and no function of
a work is called afterwards: no call is served. -/
theorem never_served (h : Reachable step Ok Start s) (k : WorkId) :
    (∃ s', s.queueWorkOn k = some (true, s') ∧ ∀ s'', s'.Later s'' → s''.executed = []) ∧
    ¬ s.Served k := by
  obtain ⟨ks, idle, ws, hwaiting⟩ := sound_of_reachable h
  obtain ⟨s', ks', hqueue, hwaiting', -⟩ := hwaiting.queueWorkOn k
  have hnone : ∀ s'', s'.Later s'' → s''.executed = [] := by
    intro s'' hlater
    obtain ⟨_, _, _, hwaiting''⟩ := Sound.later ⟨ks', idle, ws, hwaiting'⟩ hlater
    exact hwaiting''.halted.executed
  refine ⟨⟨s', hqueue, hnone⟩, ?_⟩
  rintro ⟨ret, s₁, hqueue₁, -, hruns⟩
  rw [hqueue] at hqueue₁
  cases hqueue₁
  obtain ⟨s'', hlater, hcount⟩ := hruns rfl
  rw [hnone s'' hlater, hwaiting.halted.executed] at hcount
  contradiction

/-! ## A worker that takes up a work -/

instance (s : State) (op : Op) : Decidable (s.Ok op) :=
  match op with
  | .queueWorkOn _ => .isTrue trivial
  | .createWorker w _ => inferInstanceAs (Decidable (s.pc w = .absent))
  | .wokeUp w => inferInstanceAs (Decidable (s.pc w = .asleep ∧ s.awake w = true))
  | .functionReturned w =>
    match hpc : s.pc w with
    | .executing k => .isTrue ⟨k, hpc⟩
    | .absent | .asleep | .creating | .created =>
      .isFalse fun ⟨_, hk⟩ => absurd (hpc.symm.trans hk) nofun
  | .manageCreate w w' _ => inferInstanceAs (Decidable (s.pc w = .creating ∧ s.pc w' = .absent))
  | .manageDone w => inferInstanceAs (Decidable (s.pc w = .created))

def fresh : State where
  pool := Workqueue.created.pool
  pwq := fun _ => none
  pc := fun _ => .absent
  awake := fun _ => false
  executed := []

theorem start_fresh : fresh.Start := ⟨start_created, by decide, fun _ => rfl, rfl⟩

/-- A pool with a worker and a work on its list. -/
theorem never_served_queued : ∃ s, Reachable step Ok Start s ∧
    (s.pool.lists.count .worklist, s.pc 0, s.awake 0) = (1, .asleep, true) ∧
    (∃ s', s.queueWorkOn 6 = some (true, s') ∧ ∀ s'', s'.Later s'' → s''.executed = []) ∧
    ¬ s.Served 6 := by
  have hrun : ∃ s, Reachable step Ok Start s ∧
      decide ((s.pool.lists.count .worklist, s.pc 0, s.awake 0) = (1, .asleep, true)) = true :=
    Reachable.exists_of_run start_fresh [.createWorker 0 true, .queueWorkOn 5] (by decide +kernel)
  obtain ⟨s, hs, hlast⟩ := hrun
  exact ⟨s, hs, of_decide_eq_true hlast, never_served hs 6⟩

/-! ## The end of the list -/

theorem container_ne_zero (l : Layout) (n : Node) : l.container n ≠ 0 := by
  intro hzero
  have hmsb := l.upper n
  have height : l.addr n = 8 := by
    rw [Layout.container] at hzero
    bv_omega
  rw [height] at hmsb
  exact absurd hmsb (by decide)

/-- The works `ks` on the list of the worker are executed in their order, and the call returns. -/
def Drains (l : Layout) (w : WorkerId) (fn : State → State)
    (around : BitVec 64 → State → Option State) (s : State) (ks : List WorkId) : Prop :=
  ∃ fuel s', drain w l fn around fuel 0 s = some s' ∧ s'.executed = s.executed ++ ks

theorem drain_eq_none {l : Layout} {fn : State → State} {around : BitVec 64 → State → Option State}
    {fuel : Nat} : drain w l fn around fuel 0 s = none := by
  induction fuel generalizing s with
  | zero => rfl
  | succ fuel ih =>
    rw [drain]
    split
    · -- the test finds no `NULL`; then there is a work, or `get_work_pwq` gives `NULL`
      rw [if_neg (container_ne_zero l _)]
      split
      · exact bind_eq_none_iff.mpr fun s' _ => ih
      · exact if_pos (by decide)
    · rfl

/-- The loop ends with an access through `NULL`, whatever was on the list: the address that
`list_headr_first_container` gives for an empty list is not `NULL`. -/
theorem not_drains (l : Layout) (w : WorkerId) (fn : State → State)
    (around : BitVec 64 → State → Option State) (s : State) (ks : List WorkId) :
    ¬ Drains l w fn around s ks := by
  rintro ⟨fuel, s', hreturns, -⟩
  rw [drain_eq_none] at hreturns
  contradiction

/-- With nothing on the list the first turn already takes the anchor for a work. -/
theorem anchor_taken_for_work :
    fresh.pool.lists.next (.scheduled 0) = .node (.scheduled 0) ∧
      ¬ Drains ⟨fun _ => 0xffff888000001028, fun _ => by decide⟩ 0 id (fun _ => some) fresh [] := by
  refine ⟨rfl, ?_⟩
  rintro ⟨fuel, s', hreturns, -⟩
  exact absurd (hreturns.symm.trans drain_eq_none) (by simp)

/-- A pool with a worker: a work is queued, and the worker makes another one before it starts.
Queueing the work again gives `true` while it is pending, and the next turn of the worker does not
end. -/
theorem queued_work_faults : ∃ s, Reachable step Ok Start s ∧
    listIsEmptyEntry s.pool.lists (.work 5) = false ∧
    ((s.queueWorkOn 5).any fun (ret, s') => ret && s'.executed.isEmpty) = true ∧
    s.Ok (.manageDone 0) ∧ (s.step (.manageDone 0)).isNone = true := by
  have hrun : (Reachable.run step Ok fresh [.createWorker 0 true, .queueWorkOn 5, .wokeUp 0,
      .manageCreate 0 1 true]).any (fun s =>
        listIsEmptyEntry s.pool.lists (.work 5) == false &&
        ((s.queueWorkOn 5).any fun (ret, s') => ret && s'.executed.isEmpty) &&
        decide (s.Ok (.manageDone 0)) && (s.step (.manageDone 0)).isNone) = true := by
    decide +kernel
  obtain ⟨s, hs, hprop⟩ := Reachable.exists_of_run start_fresh _ hrun
  simp only [Bool.and_eq_true, beq_iff_eq, decide_eq_true_eq] at hprop
  exact ⟨s, hs, hprop.1.1.1, hprop.1.1.2, hprop.1.2, hprop.2⟩

end MyOS2.Workqueue.State
