import MyOS2.Lib.Proofs.DoubleList
import MyOS2.Kactive.WorkerPool
import MyOS2.Misc.Sums
import Mathlib.Algebra.Ring.Int.Defs

/-!
# The counters of a worker pool

Whatever flags are set or cleared, `nr_running` changes exactly when the worker
begins or ceases to be one without a flag of `WORKER_NOT_RUNNING`.
-/

namespace MyOS2.Workqueue

open Function DoubleList List BitVec

/-! ## Flags -/

section Flags
variable {a b m : BitVec 32}

theorem has_iff : has a m = true ↔ ∃ i, a.getLsbD i = true ∧ m.getLsbD i = true := by
  rw [has, bne_iff_ne]
  constructor
  · intro hne
    by_contra hnone
    apply hne
    apply eq_of_getLsbD_eq
    intro i _
    rw [getLsbD_and, ofNat_eq_ofNat, getLsbD_zero, Bool.and_eq_false_iff,
      ← Bool.not_eq_true, ← Bool.not_eq_true, ← not_and_or]
    exact fun hboth => hnone ⟨i, hboth⟩
  · rintro ⟨i, ha, hm⟩ hzero
    have hbit : (a &&& m).getLsbD i = true := by
      rw [getLsbD_and, ha, hm]
      rfl
    rw [hzero, ofNat_eq_ofNat, getLsbD_zero] at hbit
    contradiction

theorem has_or : has (a ||| b) m = (has a m || has b m) := by
  rw [Bool.eq_iff_iff, Bool.or_eq_true, has_iff, has_iff, has_iff, ← exists_or]
  simp only [getLsbD_or, Bool.or_eq_true, or_and_right]

theorem has_of_has_and_not (h : has (a &&& ~~~b) m = true) : has a m = true := by
  obtain ⟨i, hbit, hm⟩ := has_iff.mp h
  rw [getLsbD_and, Bool.and_eq_true] at hbit
  exact has_iff.mpr ⟨i, hbit.1, hm⟩

theorem has_and_not (h : has b m = false) : has (a &&& ~~~b) m = has a m := by
  rw [Bool.eq_iff_iff]
  refine ⟨has_of_has_and_not, fun ha => ?_⟩
  obtain ⟨i, hbit, hm⟩ := has_iff.mp ha
  have hb : b.getLsbD i = false := by
    by_contra hne
    rw [Bool.not_eq_false] at hne
    exact absurd (h.symm.trans (has_iff.mpr ⟨i, hne, hm⟩)) nofun
  have hi : i < 32 := lt_of_getLsbD hbit
  refine has_iff.mpr ⟨i, ?_, hm⟩
  rw [getLsbD_and, hbit, getLsbD_not, hb]
  simp [hi]

end Flags

def counts (flags : BitVec 32) : Int := if has flags workerNotRunning then 0 else 1

section Helpers
variable {p : Pool} {w : WorkerId} {flags : BitVec 32}

theorem workerSetFlags_eq (p : Pool) (w : WorkerId) (flags : BitVec 32) : ∃ n, p.workerSetFlags w flags =
      { p with
        nrRunning := n
        workerFlags := update p.workerFlags w (p.workerFlags w ||| flags) } ∧
    n + counts (p.workerFlags w) = p.nrRunning + counts (p.workerFlags w ||| flags) := by
  cases hold : has (p.workerFlags w) workerNotRunning <;>
    cases hnew : has flags workerNotRunning <;>
    simp [Pool.workerSetFlags, Pool.setWorkerFlags, counts, has_or, hold, hnew]

theorem workerClrFlags_eq (p : Pool) (w : WorkerId) (flags : BitVec 32) : ∃ n, p.workerClrFlags w flags =
      { p with
        nrRunning := n
        workerFlags := update p.workerFlags w (p.workerFlags w &&& ~~~flags) } ∧
    n + counts (p.workerFlags w) = p.nrRunning + counts (p.workerFlags w &&& ~~~flags) := by
  cases hflags : has flags workerNotRunning with
  | false =>
    simp [Pool.workerClrFlags, Pool.setWorkerFlags, counts, has_and_not hflags, hflags]
  | true =>
    cases hold : has (p.workerFlags w) workerNotRunning with
    | false =>
      have hnew : has (p.workerFlags w &&& ~~~flags) workerNotRunning = false := by
        by_contra htrue
        rw [Bool.not_eq_false] at htrue
        exact absurd (hold.symm.trans (has_of_has_and_not htrue)) nofun
      simp [Pool.workerClrFlags, Pool.setWorkerFlags, counts, hold, hnew]
    | true =>
      cases hnew : has (p.workerFlags w &&& ~~~flags) workerNotRunning <;>
        simp [Pool.workerClrFlags, Pool.setWorkerFlags, counts, hflags, hold, hnew]

theorem workerSetFlags_flags : (p.workerSetFlags w flags).flags = p.flags := by
  obtain ⟨n, heq, -⟩ := workerSetFlags_eq p w flags
  rw [heq]

theorem workerClrFlags_flags : (p.workerClrFlags w flags).flags = p.flags := by
  obtain ⟨n, heq, -⟩ := workerClrFlags_eq p w flags
  rw [heq]

end Helpers

/-! ## The lists of a pool -/

/-- The lists of a pool. -/
inductive Hdr
  | worklist
  | idle
  | workers
  deriving DecidableEq

def Hdr.anchor : Hdr → Node
  | .worklist => .worklist
  | .idle => .idleList
  | .workers => .workers

def nodes (ks : List WorkId) (idle ws : List WorkerId) : Hdr → List Node
  | .worklist => ks.map .work
  | .idle => idle.map .entry
  | .workers => ws.map .node

section Lists
variable {lists : DoubleList.Lists Node} {ks : List WorkId} {idle ws : List WorkerId} {w : WorkerId}

theorem update_nodes_worklist (ks : List WorkId) (idle ws : List WorkerId) (l : List WorkId) :
    update (nodes ks idle ws) .worklist (l.map .work) = nodes l idle ws := by
  funext k
  cases k <;> rfl

theorem update_nodes_idle (ks : List WorkId) (idle ws l : List WorkerId) :
    update (nodes ks idle ws) .idle (l.map .entry) = nodes ks l ws := by
  funext k
  cases k <;> rfl

theorem update_nodes_workers (ks : List WorkId) (idle ws l : List WorkerId) :
    update (nodes ks idle ws) .workers (l.map .node) = nodes ks idle l := by
  funext k
  cases k <;> rfl

theorem off_entry (hw : w ∉ idle) : Off Hdr.anchor (nodes ks idle ws) (.entry w) := by
  rintro (_ | _ | _) <;> simp [Hdr.anchor, nodes, hw]

theorem off_node (hw : w ∉ ws) : Off Hdr.anchor (nodes ks idle ws) (.node w) := by
  rintro (_ | _ | _) <;> simp [Hdr.anchor, nodes, hw]

theorem off_scheduled : Off Hdr.anchor (nodes ks idle ws) (.scheduled w) := by
  rintro (_ | _ | _) <;> simp [Hdr.anchor, nodes]

theorem off_work {k : WorkId} (hk : k ∉ ks) : Off Hdr.anchor (nodes ks idle ws) (.work k) := by
  rintro (_ | _ | _) <;> simp [Hdr.anchor, nodes, hk]

section

variable (h : Headed lists Hdr.anchor (nodes ks idle ws))
include h

theorem nodup_workers : ws.Nodup := .of_map _ (nodup_cons.mp (h.rings.nodup .workers)).2

theorem nodup_idle : idle.Nodup := .of_map _ (nodup_cons.mp (h.rings.nodup .idle)).2

theorem addIdle_eq (hw : w ∉ idle) :
    ∃ lists', listHeaderAddToTail lists .idleList (.entry w) = some lists' ∧
      Headed lists' Hdr.anchor (nodes ks (idle ++ [w]) ws) := by
  obtain ⟨lists', hadd, hheaded⟩ := h.addToTail .idle (off_entry hw)
  refine ⟨lists', hadd, ?_⟩
  rw [← update_nodes_idle ks idle, map_append]
  exact hheaded

theorem attach_eq (hw : w ∉ ws) :
    ∃ lists', listHeaderAddToTail lists .workers (.node w) = some lists' ∧
      Headed lists' Hdr.anchor (nodes ks idle (ws ++ [w])) := by
  obtain ⟨lists', hadd, hheaded⟩ := h.addToTail .workers (off_node hw)
  refine ⟨lists', hadd, ?_⟩
  rw [← update_nodes_workers ks idle ws, map_append]
  exact hheaded

theorem deleteIdle_eq (hw : w ∈ idle) :
    ∃ lists', listHeaderDeleteNode (lists.count .idleList + 1) lists .idleList (.entry w) =
        some lists' ∧ Headed lists' Hdr.anchor (nodes ks (idle.erase w) ws) := by
  have hfuel : (nodes ks idle ws .idle).length < lists.count .idleList + 1 := by
    rw [show lists.count .idleList = _ from h.count .idle]
    exact Nat.lt_succ_self _
  obtain ⟨lists', hdel, hheaded⟩ := h.deleteNode_mem hfuel (mem_map_of_mem hw)
  refine ⟨lists', hdel, ?_⟩
  rw [← update_nodes_idle ks idle, map_erase fun _ _ => Node.entry.inj]
  exact hheaded

end

end Lists

/-! ## The invariant -/

/-- The workers of the pool are `ws`, and those on `idle_list` are `idle`. -/
structure PoolOk (s : Loop) (ks : List WorkId) (idle ws : List WorkerId) : Prop where
  headed : Headed s.pool.lists Hdr.anchor (nodes ks idle ws)
  attached : ∀ w, w ∈ ws ↔ s.phase w ≠ .absent
  onIdle : ∀ w, w ∈ idle ↔ s.phase w = .idle
  flag : ∀ w ∈ ws, (has (s.pool.workerFlags w) workerIdle = true ↔ s.phase w = .idle)
  nrWorkers : s.pool.nrWorkers = ws.length
  nrRunning : s.pool.nrRunning = (ws.map fun w => counts (s.pool.workerFlags w)).sum

section Steps
variable {s : Loop} {ks : List WorkId} {idle ws : List WorkerId} {w : WorkerId}

section

variable (h : PoolOk s ks idle ws)
include h

theorem PoolOk.setPoolFlags (flags : BitVec 32) :
    PoolOk ⟨{ s.pool with flags }, s.phase⟩ ks idle ws :=
  ⟨h.headed, h.attached, h.onIdle, h.flag, h.nrWorkers, h.nrRunning⟩

theorem PoolOk.queue {k : WorkId} (hk : k ∉ ks) :
    ∃ lists, listHeaderAddToTail s.pool.lists .worklist (.work k) = some lists ∧
      PoolOk ⟨{ s.pool with lists }, s.phase⟩ (ks ++ [k]) idle ws := by
  obtain ⟨lists, hadd, hheaded⟩ := h.headed.addToTail .worklist (off_work hk)
  refine ⟨lists, hadd, ?_, h.attached, h.onIdle, h.flag, h.nrWorkers, h.nrRunning⟩
  rw [← update_nodes_worklist ks, map_append]
  exact hheaded

theorem PoolOk.move {pool : Pool} {phase : Phase} {v : BitVec 32}
    {idle' : List WorkerId} (hw : s.phase w ≠ .absent) (hphase : phase ≠ .absent)
    (hheaded : Headed pool.lists Hdr.anchor (nodes ks idle' ws))
    (hself : w ∈ idle' ↔ phase = .idle) (hother : ∀ x, x ≠ w → (x ∈ idle' ↔ x ∈ idle))
    (hnrWorkers : pool.nrWorkers = s.pool.nrWorkers)
    (hflags : pool.workerFlags = update s.pool.workerFlags w v)
    (hidle : has v workerIdle = true ↔ phase = .idle)
    (hnr : pool.nrRunning + counts (s.pool.workerFlags w) = s.pool.nrRunning + counts v) :
    PoolOk (s.moveTo w phase pool).2 ks idle' ws := by
  have hmem : w ∈ ws := (h.attached w).mpr hw
  refine ⟨hheaded, ?_, ?_, ?_, hnrWorkers.trans h.nrWorkers, ?_⟩
  · exact (forall_update_iff s.phase fun x ph => x ∈ ws ↔ ph ≠ .absent).mpr
      ⟨iff_of_true hmem hphase, fun x _ => h.attached x⟩
  · exact (forall_update_iff s.phase fun x ph => x ∈ idle' ↔ ph = .idle).mpr
      ⟨hself, fun x hx => (hother x hx).trans (h.onIdle x)⟩
  · intro x hxs
    by_cases hx : x = w
    · subst hx
      simpa [Loop.moveTo, hflags] using hidle
    · simpa [Loop.moveTo, hflags, hx] using h.flag x hxs
  · have hsum := sum_map_update (nodup_workers h.headed) hmem counts s.pool.workerFlags v
    have hold := h.nrRunning
    simp only [Loop.moveTo, hflags]
    omega

theorem PoolOk.busy {phase : Phase} {v : BitVec 32} {n : Int}
    (hbefore : s.phase w ≠ .absent ∧ s.phase w ≠ .idle)
    (hafter : phase ≠ .absent ∧ phase ≠ .idle) (hidle : has v workerIdle = false)
    (hnr : n + counts (s.pool.workerFlags w) = s.pool.nrRunning + counts v) :
    PoolOk (s.moveTo w phase
      { s.pool with nrRunning := n, workerFlags := update s.pool.workerFlags w v }).2 ks idle ws := by
  refine h.move hbefore.1 hafter.1 h.headed ?_ (fun _ _ => Iff.rfl) rfl rfl ?_ hnr
  · exact iff_of_false (fun hmem => hbefore.2 ((h.onIdle w).mp hmem)) hafter.2
  · exact iff_of_false (by simp [hidle]) hafter.2

theorem PoolOk.notIdle (hw : s.phase w ≠ .absent ∧ s.phase w ≠ .idle) :
    has (s.pool.workerFlags w) workerIdle = false := by
  rw [← Bool.not_eq_true, h.flag w ((h.attached w).mpr hw.1)]
  exact hw.2

section

variable {flags : BitVec 32} {phase : Phase} (hbefore : s.phase w ≠ .absent ∧ s.phase w ≠ .idle)
  (hafter : phase ≠ .absent ∧ phase ≠ .idle) (hflags : has flags workerIdle = false)
include hbefore hafter hflags

theorem PoolOk.setFlags :
    PoolOk (s.moveTo w phase (s.pool.workerSetFlags w flags)).2 ks idle ws := by
  obtain ⟨n, heq, hnr⟩ := workerSetFlags_eq s.pool w flags
  rw [heq]
  refine h.busy hbefore hafter ?_ hnr
  rw [has_or, h.notIdle hbefore, hflags, Bool.or_false]

theorem PoolOk.clrFlags :
    PoolOk (s.moveTo w phase (s.pool.workerClrFlags w flags)).2 ks idle ws := by
  obtain ⟨n, heq, hnr⟩ := workerClrFlags_eq s.pool w flags
  rw [heq]
  refine h.busy hbefore hafter ?_ hnr
  rw [has_and_not hflags]
  exact h.notIdle hbefore

end

theorem PoolOk.leaveIdle (hw : s.phase w = .idle) :
    ∃ pool idle', s.pool.workerLeaveIdle w = some pool ∧
      PoolOk (s.moveTo w .awake pool).2 ks idle' ws := by
  have hpresent : s.phase w ≠ .absent := by simp [hw]
  have hflag : has (s.pool.workerFlags w) workerIdle = true :=
    (h.flag w ((h.attached w).mpr hpresent)).mpr hw
  obtain ⟨lists', hdel, hheaded⟩ := deleteIdle_eq h.headed ((h.onIdle w).mpr hw)
  obtain ⟨n, heq, hnr⟩ := workerClrFlags_eq s.pool w workerIdle
  refine ⟨{ s.pool.workerClrFlags w workerIdle with lists := lists' }, idle.erase w, ?_, ?_⟩
  · simp [Pool.workerLeaveIdle, hflag, heq, hdel]
  rw [heq]
  refine h.move hpresent nofun hheaded (iff_of_false (nodup_idle h.headed).not_mem_erase nofun) ?_
    rfl rfl ?_ hnr
  · intro x hx
    exact mem_erase_of_ne hx
  · simp [has, BitVec.and_assoc]

end

/-- `WORKER_IDLE` is not a flag that `nr_running` looks at. -/
theorem counts_or_idle (flags : BitVec 32) : counts (flags ||| workerIdle) = counts flags := by
  simp [counts, has_or, show has workerIdle workerNotRunning = false by decide]

section

variable (h : PoolOk s ks idle ws)
include h

theorem PoolOk.enterIdle (hw : s.phase w ≠ .absent ∧ s.phase w ≠ .idle) :
    ∃ pool, s.pool.workerEnterIdle w = some pool ∧
      PoolOk (s.moveTo w .idle pool).2 ks (idle ++ [w]) ws := by
  have hnot : w ∉ idle := fun hin => hw.2 ((h.onIdle w).mp hin)
  obtain ⟨lists', hadd, hheaded⟩ := addIdle_eq h.headed hnot
  refine ⟨{ s.pool.setWorkerFlags w (s.pool.workerFlags w ||| workerIdle) with lists := lists' },
    by simp [Pool.workerEnterIdle, Pool.setWorkerFlags, hadd], ?_⟩
  refine h.move hw.1 nofun hheaded (by simp) ?_ rfl rfl ?_ ?_
  · intro x hx
    simp [hx]
  · simp [has_or, show has workerIdle workerIdle = true by decide]
  · rw [counts_or_idle]
    rfl

theorem allocWorker_headed (hw : s.phase w = .absent) :
    Headed (s.pool.allocWorker w).lists Hdr.anchor (nodes ks idle ws) := by
  have hidle : w ∉ idle := fun hin => absurd (hw.symm.trans ((h.onIdle w).mp hin)) nofun
  have hws : w ∉ ws := fun hin => (h.attached w).mp hin hw
  exact (((h.headed.initList (off_entry hidle)).initList off_scheduled).setCount_off off_scheduled
    0).initList (off_node hws)

/-- `worker_attach_to_pool` of an allocated worker, with the increment of `nr_workers` by
`create_worker`. Neither flag lets it run. -/
theorem PoolOk.attach (hw : s.phase w = .absent) :
    ∃ pool, (s.pool.allocWorker w).workerAttachToPool w = some pool ∧
      PoolOk (s.moveTo w .leaving { pool with nrWorkers := pool.nrWorkers + 1 }).2 ks idle
        (ws ++ [w]) := by
  have hidle : w ∉ idle := fun hin => absurd (hw.symm.trans ((h.onIdle w).mp hin)) nofun
  have hws : w ∉ ws := fun hin => (h.attached w).mp hin hw
  obtain ⟨lists', hadd, hheaded⟩ := attach_eq (allocWorker_headed h hw) hws
  obtain ⟨v, hv, hnot, hattach⟩ : ∃ v, has v workerIdle = false ∧ counts v = 0 ∧
      (s.pool.allocWorker w).workerAttachToPool w =
        some { s.pool.setWorkerFlags w v with lists := lists' } := by
    have hflags : (s.pool.allocWorker w).flags = s.pool.flags := rfl
    have hlists : ∀ v, ((s.pool.allocWorker w).setWorkerFlags w v).lists =
        (s.pool.allocWorker w).lists := fun _ => rfl
    cases hflag : has s.pool.flags poolDisassociated with
    | false =>
      refine ⟨workerPrep, by decide, by decide, ?_⟩
      simp only [Pool.workerAttachToPool, hflags, hflag, Bool.false_eq_true, if_false, hadd,
        Option.bind_eq_bind, Option.bind_some]
      rfl
    | true =>
      refine ⟨workerPrep ||| workerUnbound, by decide, by decide, ?_⟩
      simp only [Pool.workerAttachToPool, hflags, hflag, if_true, hlists, hadd,
        Option.bind_eq_bind, Option.bind_some]
      simp [Pool.allocWorker, Pool.setWorkerFlags]
  refine ⟨_, hattach, hheaded, ?_, ?_, ?_, ?_, ?_⟩
  · exact (forall_update_iff s.phase fun x ph => x ∈ ws ++ [w] ↔ ph ≠ .absent).mpr
      ⟨by simp, fun x hx => by simpa [hx] using h.attached x⟩
  · exact (forall_update_iff s.phase fun x ph => x ∈ idle ↔ ph = .idle).mpr
      ⟨by simp [hidle], fun x _ => h.onIdle x⟩
  · intro x hxs
    by_cases hx : x = w
    · subst hx
      simp [Loop.moveTo, Pool.setWorkerFlags, hv]
    · have hold := h.flag x (by simpa [hx] using hxs)
      simpa [Loop.moveTo, Pool.setWorkerFlags, hx] using hold
  · have hold := h.nrWorkers
    simp only [Loop.moveTo, Pool.setWorkerFlags, length_append, length_singleton]
    omega
  · have hold := h.nrRunning
    have hrest : (ws.map fun x => counts (update s.pool.workerFlags w v x)) =
        ws.map fun x => counts (s.pool.workerFlags x) := by
      apply map_congr_left
      intro x hx
      rw [update_of_ne (ne_of_mem_of_not_mem hx hws)]
    simpa [Loop.moveTo, Pool.setWorkerFlags, hrest, hnot] using hold

theorem PoolOk.createWorker (hw : s.phase w = .absent) :
    ∃ pool, s.pool.createWorker w true = some pool ∧
      PoolOk (s.moveTo w .idle pool).2 ks (idle ++ [w]) (ws ++ [w]) := by
  obtain ⟨pool, hattach, hok⟩ := h.attach hw
  obtain ⟨pool', henter, hok'⟩ := hok.enterIdle (w := w) (by simp [Loop.moveTo])
  refine ⟨pool', ?_, ?_⟩
  · rw [Pool.createWorker, if_pos rfl, hattach]
    exact henter
  · simpa [Loop.moveTo] using hok'

end

end Steps

/-! ## Whole runs -/

/-- The helpers leave the worklist alone, so that it stays empty here. -/
def Accounted (s : Loop) : Prop := ∃ idle ws, PoolOk s [] idle ws

theorem Loop.Start.accounted {s : Loop} (h : s.Start) : Accounted s := by
  have habsent : ∀ w, s.phase w ≠ .idle := by
    intro w hw
    exact absurd (hw.symm.trans (h.absent w)) nofun
  refine ⟨[], [], ⟨⟨?_, ?_, ?_⟩, ?_⟩, ?_, ?_, nofun, h.nrWorkers, h.nrRunning⟩
  · rintro (_ | _ | _)
    · exact h.worklist
    · exact h.idleList
    · exact h.workers
  · rintro (_ | _ | _) <;> exact nodup_singleton _
  · rintro (_ | _ | _) (_ | _ | _) hij <;> simp_all [Hdr.anchor, nodes]
  · rintro (_ | _ | _)
    · exact h.nrQueued
    · exact h.nrIdle
    · exact h.nrAttached
  · exact fun w => iff_of_false not_mem_nil fun hne => hne (h.absent w)
  · exact fun w => iff_of_false not_mem_nil (habsent w)

theorem Accounted.step {s : Loop} (h : Accounted s) {op : Loop.Op} (hok : s.Ok op) :
    ∃ s', s.step op = some ((), s') ∧ Accounted s' := by
  obtain ⟨idle, ws, h⟩ := h
  cases op with
  | createWorker w created =>
    cases created with
    | false =>
      have hsame : update s.phase w .absent = s.phase := by
        rw [← show s.phase w = .absent from hok, update_eq_self]
      refine ⟨s, ?_, idle, ws, h⟩
      simp [Loop.step, Pool.createWorker, Loop.moveTo, hsame]
    | true =>
      obtain ⟨pool, hcreate, hpool⟩ := h.createWorker (w := w) hok
      exact ⟨_, by simp [Loop.step, hcreate, Loop.moveTo], _, _, hpool⟩
  | leaveIdle w =>
    obtain ⟨pool, idle', hleave, hpool⟩ := h.leaveIdle (w := w) hok
    exact ⟨_, by simp [Loop.step, hleave, Loop.moveTo], _, _, hpool⟩
  | enterIdle w =>
    have hphase : s.phase w ≠ .absent ∧ s.phase w ≠ .idle := by
      rcases hok with hw | hw <;> simp [hw]
    obtain ⟨pool, henter, hpool⟩ := h.enterIdle hphase
    exact ⟨_, by simp [Loop.step, henter, Loop.moveTo], _, _, hpool⟩
  | clrPrep w =>
    have hw : s.phase w = _ := hok
    exact ⟨_, rfl, idle, ws, h.clrFlags (by simp [hw]) (by simp) (by decide)⟩
  | setIntensive w =>
    have hw : s.phase w = _ := hok
    exact ⟨_, rfl, idle, ws, h.setFlags (by simp [hw]) (by simp) (by decide)⟩
  | clrIntensive w =>
    have hphase : s.phase w ≠ .absent ∧ s.phase w ≠ .idle := by
      rcases hok with hw | hw <;> simp [hw]
    exact ⟨_, rfl, idle, ws, h.clrFlags hphase (by simp) (by decide)⟩
  | setPrep w =>
    have hw : s.phase w = _ := hok
    exact ⟨_, rfl, idle, ws, h.setFlags (by simp [hw]) (by simp) (by decide)⟩

theorem accounted_of_reachable {s : Loop} (h : Reachable Loop.step Loop.Ok Loop.Start s) :
    Accounted s :=
  h.invariant_of_returns (fun _ => Loop.Start.accounted) fun _ _ hs hok => ⟨(), hs.step hok⟩

theorem sum_counts (flags : WorkerId → BitVec 32) (ws : List WorkerId) :
    (ws.map fun w => counts (flags w)).sum =
      (ws.countP fun w => !has (flags w) workerNotRunning : Nat) := by
  induction ws with
  | nil => rfl
  | cons w ws ih =>
    rw [map_cons, sum_cons, ih, countP_cons, counts]
    cases has (flags w) workerNotRunning <;> simp [Int.add_comm]

/-- In every run of the workers all calls come back; `nr_running` is the number of attached workers
without a flag of `WORKER_NOT_RUNNING`, `nr_workers` that of all attached ones, and `idle_list`
holds those with `WORKER_IDLE` and counts them. -/
theorem counters_of_reachable {s : Loop} (h : Reachable Loop.step Loop.Ok Loop.Start s) :
    (∃ idle ws, Headed s.pool.lists Hdr.anchor (nodes [] idle ws) ∧
      (∀ w, w ∈ ws ↔ s.phase w ≠ .absent) ∧
      s.pool.nrRunning = (ws.countP fun w => !has (s.pool.workerFlags w) workerNotRunning : Nat) ∧
      s.pool.nrWorkers = ws.length ∧
      (∀ w ∈ ws, w ∈ idle ↔ has (s.pool.workerFlags w) workerIdle = true) ∧
      (∀ w ∈ idle, w ∈ ws) ∧
      s.pool.lists.count .idleList = idle.length) ∧
    0 ≤ s.pool.nrRunning ∧
    ∀ op, s.Ok op → ∃ s', s.step op = some ((), s') := by
  obtain ⟨idle, ws, hok⟩ := accounted_of_reachable h
  have hrunning := hok.nrRunning.trans (sum_counts _ _)
  refine ⟨⟨idle, ws, hok.headed, hok.attached, hrunning, hok.nrWorkers, ?_, ?_, ?_⟩, ?_, ?_⟩
  · exact fun w hw => (hok.onIdle w).trans (hok.flag w hw).symm
  · intro w hw
    exact (hok.attached w).mpr (by simp [(hok.onIdle w).mp hw])
  · have hcount := hok.headed.count .idle
    rwa [nodes, length_map] at hcount
  · rw [hrunning]
    exact Int.natCast_nonneg _
  · intro op hop
    obtain ⟨s', hstep, -⟩ := (accounted_of_reachable h).step hop
    exact ⟨s', hstep⟩

def created : Loop where
  pool :=
    { lists := { next := .node, prev := .node, count := fun _ => 0 }
      flags := 0
      nrRunning := 0
      nrWorkers := 0
      workerFlags := fun _ => 0 }
  phase := fun _ => .absent

theorem start_created : created.Start :=
  ⟨⟨rfl, rfl⟩, ⟨rfl, rfl⟩, ⟨rfl, rfl⟩, rfl, rfl, rfl, rfl, rfl, fun _ => rfl⟩

instance (s : Loop) : (op : Loop.Op) → Decidable (s.Ok op)
  | .createWorker .. | .leaveIdle _ | .clrPrep _ | .setIntensive _ | .setPrep _ =>
    inferInstanceAs (Decidable (_ = _))
  | .enterIdle _ | .clrIntensive _ => inferInstanceAs (Decidable (_ ∨ _))

/-- Of three workers the first is busy, the second works on something cpu-intensive, and the third is
idle. -/
theorem counters_of_reachable_busy : ∃ s, Reachable Loop.step Loop.Ok Loop.Start s ∧
    (s.pool.nrRunning, s.pool.nrWorkers, s.pool.lists.count .idleList) = (1, 3, 1) ∧
    ∃ idle ws : List WorkerId, (∀ w, w ∈ ws ↔ s.phase w ≠ .absent) ∧
      s.pool.nrRunning = (ws.countP fun w => !has (s.pool.workerFlags w) workerNotRunning : Nat) ∧
      s.pool.nrWorkers = ws.length ∧ s.pool.lists.count .idleList = idle.length := by
  have hrun : ∃ s, Reachable Loop.step Loop.Ok Loop.Start s ∧ decide ((s.pool.nrRunning,
      s.pool.nrWorkers, s.pool.lists.count .idleList) = (1, 3, 1)) = true :=
    Reachable.exists_of_run start_created [.createWorker 0 true, .createWorker 1 true,
      .createWorker 2 true, .leaveIdle 0, .clrPrep 0, .leaveIdle 1, .clrPrep 1, .setIntensive 1]
      (by decide +kernel)
  obtain ⟨s, hs, hlast⟩ := hrun
  obtain ⟨⟨idle, ws, -, hattached, hrunning, hworkers, -, -, hidle⟩, -⟩ := counters_of_reachable hs
  exact ⟨s, hs, of_decide_eq_true hlast, idle, ws, hattached, hrunning, hworkers, hidle⟩

end MyOS2.Workqueue
