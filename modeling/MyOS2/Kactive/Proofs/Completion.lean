import MyOS2.Lib.Proofs.DoubleList
import MyOS2.Kactive.Completion

/-!
# Completions count, and no waiter is forgotten

The waiters are those on the list and those that `complete` has taken off and that
have not looked at the count since. As long as somebody is on the list, there are
at least as many of the second kind as calls of `complete` left to use up.
-/

namespace MyOS2.Completion

open Function DoubleList List State

abbrev anchors : Unit → Node := fun _ => .anchor

abbrev waiters (q : List Tid) : Unit → List Node := fun _ => q.map .wait

section Lists
variable {s : State} {lists : DoubleList.Lists Node} {q : List Tid} {t u : Tid}

theorem off_of_notMem (ht : t ∉ q) : Off anchors (waiters q) (.wait t) := by
  intro _
  simpa using ht

theorem update_waiters (l : List Tid) : update (waiters q) () (l.map .wait) = waiters l := by
  funext _
  exact update_self ..

theorem nodup_of_headed (h : Headed lists anchors (waiters q)) : q.Nodup :=
  .of_map _ (nodup_cons.mp (h.rings.nodup ())).2

theorem count_lt (h : Headed lists anchors (waiters q)) :
    (waiters q ()).length < lists.count .anchor + 1 := by
  rw [h.count ()]
  exact Nat.lt_succ_self _

theorem prepareToSwait_of_mem (h : Headed s.lists anchors (waiters q)) (ht : t ∈ q) :
    s.prepareToSwait t = some s := by
  have hmem : Node.wait t ∈ waiters q () := mem_map_of_mem ht
  rw [prepareToSwait, h.isEmptyEntry_of_mem hmem]
  rfl

theorem prepareToSwait_of_notMem (h : Headed s.lists anchors (waiters q)) (ht : t ∉ q)
    (hloose : s.lists.next (.wait t) = .node (.wait t)) :
    ∃ lists, s.prepareToSwait t = some { s with lists, woken := update s.woken t false } ∧
      Headed lists anchors (waiters (q ++ [t])) ∧
      ∀ u, u ∉ q → u ≠ t → lists.next (.wait u) = s.lists.next (.wait u) := by
  obtain ⟨lists, hadd, hheaded⟩ := h.addToTail () (off_of_notMem ht)
  refine ⟨lists, ?_, ?_, fun u hu hut => ?_⟩
  · rw [prepareToSwait, listIsEmptyEntry, decide_eq_true hloose, if_pos rfl, hadd]
    rfl
  · rw [← update_waiters (q := q), map_append]
    exact hheaded
  · exact h.addToTail_next hadd (off_of_notMem hu) (fun heq => hut (Node.wait.inj heq))

theorem finishSwait_of_notMem (hloose : s.lists.next (.wait t) = .node (.wait t)) :
    s.finishSwait t = some { s with running := update s.running t true } := by
  have hempty : listIsEmptyEntry s.lists (.wait t) = true := decide_eq_true hloose
  simp [finishSwait, hempty]

theorem finishSwait_of_mem (h : Headed s.lists anchors (waiters q)) (ht : t ∈ q) :
    ∃ lists, s.finishSwait t = some { s with lists, running := update s.running t true } ∧
      Headed lists anchors (waiters (q.erase t)) ∧
      ∀ u, u ∉ q → lists.next (.wait u) = s.lists.next (.wait u) := by
  have hmem : Node.wait t ∈ waiters q () := mem_map_of_mem ht
  obtain ⟨lists, hdel, hheaded⟩ := h.deleteNode_mem (count_lt h) hmem
  refine ⟨lists, ?_, ?_, fun u hu => ?_⟩
  · have hempty := h.isEmptyEntry_of_mem hmem
    simp [finishSwait, hempty, hdel]
  · rw [← update_waiters (q := q), map_erase fun _ _ => Node.wait.inj]
    exact hheaded
  · exact (h.deleteNode_next (count_lt h) hmem hdel).2 _ (off_of_notMem hu)

theorem swakeUpLocked_nil (h : Headed s.lists anchors (waiters [])) : s.swakeUpLocked = some s :=
  if_pos (h.count ())

theorem swakeUpLocked_append (h : Headed s.lists anchors (waiters (q ++ [t]))) :
    ∃ lists, s.swakeUpLocked = some { s with
        lists
        running := update s.running t true
        woken := update s.woken t true } ∧
      Headed lists anchors (waiters q) ∧ lists.next (.wait t) = .node (.wait t) ∧
      ∀ u, u ∉ q ++ [t] → lists.next (.wait u) = s.lists.next (.wait u) := by
  have hsplit : waiters (q ++ [t]) () = q.map .wait ++ [.wait t] := by simp
  obtain ⟨lists, hremove, hheaded, hself, hothers⟩ := h.removeTail_append hsplit
  have hne : s.lists.count .anchor ≠ 0 := by
    rw [h.count ()]
    simp
  refine ⟨lists, ?_, ?_, hself, fun u hu => hothers _ (off_of_notMem hu)⟩
  · rw [swakeUpLocked, if_neg hne, hremove]
  · rwa [← update_waiters (q := q ++ [t])]

end Lists

/-! ## The invariant -/

/-- The waiters on the list are `q`; `w` are those that `complete` has taken off. -/
structure Inv (s : State) (q w : List Tid) : Prop where
  headed : Headed s.lists anchors (waiters q)
  queued : ∀ t, t ∈ q ↔ s.waiting t = true ∧ s.woken t = false
  taken : ∀ t, t ∈ w ↔ s.waiting t = true ∧ s.woken t = true
  nodup : w.Nodup
  loose : ∀ t ∈ w, s.lists.next (.wait t) = .node (.wait t)
  awake : ∀ t ∈ w, s.running t = true
  total : s.done + s.consumed = s.completes
  bound : s.completes < uintMax
  owed : q ≠ [] → s.done ≤ w.length

section Steps
variable {s s' : State} {q w : List Tid} {t : Tid}

section

variable (h : Inv s q w)
include h

theorem Inv.done_ne : s.done ≠ uintMax := by
  have htotal := h.total
  have hbound := h.bound
  omega

theorem Inv.not_taken (ht : t ∈ q) : t ∉ w := by
  intro hw
  exact absurd (((h.queued t).mp ht).2.symm.trans ((h.taken t).mp hw).2) nofun

theorem Inv.complete (hok : s.completes + 1 < uintMax) :
    ∃ s' q' w', s.complete = some s' ∧ Inv s' q' w' := by
  have htotal : s.done + 1 + s.consumed = s.completes + 1 := by
    rw [← h.total, Nat.add_right_comm]
  have hcomplete : s.complete =
      swakeUpLocked { s with done := s.done + 1, completes := s.completes + 1 } := by
    simp [State.complete, h.done_ne]
  rw [hcomplete]
  rcases eq_nil_or_concat' q with rfl | ⟨q', t, rfl⟩
  · refine ⟨_, [], w, swakeUpLocked_nil h.headed, ?_⟩
    exact { h with total := htotal, bound := hok, owed := fun hne => absurd rfl hne }
  · obtain ⟨lists, hwake, hheaded, hself, hothers⟩ := swakeUpLocked_append
      (s := { s with done := s.done + 1, completes := s.completes + 1 }) h.headed
    have htq : t ∈ q' ++ [t] := by simp
    obtain ⟨hwaiting, hwoken⟩ := (h.queued t).mp htq
    have hnotq' : t ∉ q' := by
      have hnodup := nodup_of_headed h.headed
      rw [nodup_append] at hnodup
      exact fun hmem => hnodup.2.2 t hmem t (mem_singleton_self t) rfl
    refine ⟨_, q', t :: w, hwake, hheaded, ?_, ?_, ?_, ?_, ?_, htotal, hok, ?_⟩
    · intro u
      by_cases hut : u = t
      · simp [hut, hnotq']
      · simpa [hut] using h.queued u
    · intro u
      by_cases hut : u = t
      · simp [hut, hwaiting]
      · simpa [hut] using h.taken u
    · exact nodup_cons.mpr ⟨h.not_taken htq, h.nodup⟩
    · intro u hu
      rcases mem_cons.mp hu with rfl | hu
      · exact hself
      · exact (hothers u fun hq => h.not_taken hq hu).trans (h.loose u hu)
    · intro u hu
      by_cases hut : u = t
      · subst hut
        exact update_self ..
      · exact (update_of_ne hut ..).trans
          (h.awake u ((mem_cons.mp hu).resolve_left hut))
    · intro _
      exact Nat.succ_le_succ (h.owed (by simp))

theorem Inv.goToSleep_of_notMem {lists : DoubleList.Lists Node}
    (hheaded : Headed lists anchors (waiters q)) (ht : t ∉ q)
    (hself : lists.next (.wait t) = .node (.wait t))
    (hothers : ∀ u ∈ w, u ≠ t → lists.next (.wait u) = s.lists.next (.wait u))
    (hdone : s.done = 0) :
    ∃ s' q' w', goToSleep { s with lists } t = some s' ∧ Inv s' q' w' := by
  obtain ⟨lists', hprepare, hheaded', hnext⟩ :=
    prepareToSwait_of_notMem (s := { s with lists }) hheaded ht hself
  have hsleep : goToSleep { s with lists } t = some { s with
      lists := lists'
      running := update s.running t false
      waiting := update s.waiting t true
      woken := update s.woken t false } := by
    rw [goToSleep, hprepare]
    rfl
  have hmem : ∀ u, u ∈ w.erase t ↔ u ≠ t ∧ u ∈ w := fun u => h.nodup.mem_erase_iff
  have hnotq : ∀ u ∈ w, u ∉ q := fun u hu hq => h.not_taken hq hu
  refine ⟨_, q ++ [t], w.erase t, hsleep, hheaded', ?_, ?_, h.nodup.erase t, ?_, ?_, h.total,
    h.bound, ?_⟩
  · intro u
    by_cases hut : u = t
    · simp [hut]
    · simpa [hut] using h.queued u
  · intro u
    rw [hmem u]
    by_cases hut : u = t
    · simp [hut]
    · simpa [hut] using h.taken u
  · intro u hu
    obtain ⟨hut, hw⟩ := (hmem u).mp hu
    exact (hnext u (hnotq u hw) hut).trans ((hothers u hw hut).trans (h.loose u hw))
  · intro u hu
    obtain ⟨hut, hw⟩ := (hmem u).mp hu
    exact (update_of_ne hut ..).trans (h.awake u hw)
  · intro _
    simp only [hdone, Nat.zero_le]

theorem Inv.waitForCompletion (hok : s.waiting t = false) :
    ∃ s' q' w', s.waitForCompletion t = some s' ∧ Inv s' q' w' := by
  have hq : t ∉ q := fun hmem => absurd (hok.symm.trans ((h.queued t).mp hmem).1) nofun
  rw [State.waitForCompletion]
  split
  · rename_i hdone
    refine h.goToSleep_of_notMem (h.headed.initList (off_of_notMem hq)) hq ?_ ?_ hdone
    · simp [initList, Links.join]
    · intro u _ hut
      simp [initList, Links.join, hut]
  · refine ⟨_, q, w, rfl, ?_⟩
    have htotal := h.total
    have hsame : update s.waiting t false = s.waiting := by
      rw [← hok, update_eq_self]
    have hconsume : s.consume t =
        { s with done := s.done - 1, consumed := s.consumed + 1 } := by
      simp [consume, h.done_ne, hsame]
    rw [hconsume]
    exact { h with
      total := by simp only; omega
      owed := fun hne => Nat.le_trans (Nat.sub_le ..) (h.owed hne) }

/-- A waiter that finds a call of `complete` uses it up; it has left the list. -/
theorem Inv.consume (hdone : s.done ≠ 0) {lists : DoubleList.Lists Node} {q' : List Tid}
    (hheaded : Headed lists anchors (waiters q')) (hq' : ∀ u, u ∈ q' ↔ u ≠ t ∧ u ∈ q)
    (hothers : ∀ u ∈ w, lists.next (.wait u) = s.lists.next (.wait u))
    (howed : q' ≠ [] → s.done - 1 ≤ (w.erase t).length) :
    Inv (consume { s with lists, running := update s.running t true } t) q'
      (w.erase t) := by
  have htotal := h.total
  have hmem : ∀ u, u ∈ w.erase t ↔ u ≠ t ∧ u ∈ w := fun u => h.nodup.mem_erase_iff
  have hconsume : State.consume { s with lists, running := update s.running t true } t =
      { s with
        lists
        done := s.done - 1
        running := update s.running t true
        waiting := update s.waiting t false
        consumed := s.consumed + 1 } := by
    simp [State.consume, h.done_ne]
  rw [hconsume]
  refine ⟨hheaded, ?_, ?_, h.nodup.erase t, ?_, ?_, ?_, h.bound, howed⟩
  · intro u
    rw [hq' u]
    by_cases hut : u = t
    · simp [hut]
    · simpa [hut] using h.queued u
  · intro u
    rw [hmem u]
    by_cases hut : u = t
    · simp [hut]
    · simpa [hut] using h.taken u
  · intro u hu
    have hw := ((hmem u).mp hu).2
    exact (hothers u hw).trans (h.loose u hw)
  · intro u hu
    obtain ⟨hut, hw⟩ := (hmem u).mp hu
    exact (update_of_ne hut ..).trans (h.awake u hw)
  · simp only
    omega

theorem Inv.wakeUp (hok : s.waiting t = true) :
    ∃ s' q' w', s.wakeUp t = some s' ∧ Inv s' q' w' := by
  have hcases : t ∈ q ∨ t ∈ w := by
    rw [h.queued t, h.taken t]
    cases hwoken : s.woken t <;> simp [hok]
  rw [State.wakeUp]
  split
  · rename_i hdone
    obtain hq | hw := hcases
    · -- it is still on the list, and sleeps again
      have hsleep : s.goToSleep t = some { s with running := update s.running t false } := by
        have hsame : update s.waiting t true = s.waiting := by
          rw [← hok, update_eq_self]
        rw [goToSleep, prepareToSwait_of_mem h.headed hq]
        simp [hsame]
      refine ⟨_, q, w, hsleep, { h with awake := fun u hu => ?_ }⟩
      have hut : u ≠ t := by
        rintro rfl
        exact h.not_taken hq hu
      exact (update_of_ne hut ..).trans (h.awake u hu)
    · exact h.goToSleep_of_notMem h.headed (fun hq => h.not_taken hq hw) (h.loose t hw)
        (fun _ _ _ => rfl) hdone
  · rename_i hdone
    obtain hq | hw := hcases
    · obtain ⟨lists, hfinish, hheaded, hothers⟩ := finishSwait_of_mem h.headed hq
      refine ⟨_, q.erase t, w.erase t, by rw [hfinish]; rfl, h.consume hdone hheaded ?_ ?_ ?_⟩
      · exact fun u => (nodup_of_headed h.headed).mem_erase_iff
      · intro u hu
        exact hothers u fun hmem => h.not_taken hmem hu
      · intro _
        rw [erase_of_not_mem (h.not_taken hq)]
        exact Nat.le_trans (Nat.sub_le ..) (h.owed (ne_nil_of_mem hq))
    · have hnotq : t ∉ q := fun hq => h.not_taken hq hw
      refine ⟨_, q, w.erase t, by rw [finishSwait_of_notMem (h.loose t hw)]; rfl,
        h.consume hdone h.headed ?_ (fun _ _ => rfl) ?_⟩
      · intro u
        refine ⟨fun hu => ⟨?_, hu⟩, And.right⟩
        rintro rfl
        exact hnotq hu
      · intro hne
        rw [length_erase_of_mem hw]
        exact Nat.sub_le_sub_right (h.owed hne) 1

end

end Steps

/-! ## Runs -/

section Runs
variable {s : State}

def Sound (s : State) : Prop := ∃ q w, Inv s q w

theorem headed_start (h : State.Start s) : Headed s.lists anchors (waiters []) :=
  ⟨⟨fun _ => ⟨h.next, h.prev⟩, fun _ => nodup_singleton _, fun _ _ hij => absurd rfl hij⟩,
    fun _ => h.count⟩

theorem sound_start (h : State.Start s) : Sound s := by
  have hnot : ∀ t, s.waiting t ≠ true := by
    intro t ht
    rw [h.waiting t] at ht
    contradiction
  refine ⟨[], [], headed_start h, ?_, ?_, nodup_nil, nofun, nofun, ?_, ?_, ?_⟩
  · exact fun t => iff_of_false not_mem_nil fun hboth => hnot t hboth.1
  · exact fun t => iff_of_false not_mem_nil fun hboth => hnot t hboth.1
  · rw [h.done, h.consumed, h.completes]
  · rw [h.completes]
    decide
  · exact fun hne => absurd rfl hne

theorem Sound.step (h : Sound s) {op : State.Op} (hok : s.Ok op) :
    ∃ s', s.step op = some ((), s') ∧ Sound s' := by
  obtain ⟨q, w, hinv⟩ := h
  cases op with
  | complete =>
    obtain ⟨s', q', w', hstep, hinv'⟩ := hinv.complete hok
    exact ⟨s', by rw [State.step, hstep]; rfl, q', w', hinv'⟩
  | waitForCompletion t =>
    obtain ⟨s', q', w', hstep, hinv'⟩ := hinv.waitForCompletion hok
    exact ⟨s', by rw [State.step, hstep]; rfl, q', w', hinv'⟩
  | wakeUp t =>
    obtain ⟨s', q', w', hstep, hinv'⟩ := hinv.wakeUp hok
    exact ⟨s', by rw [State.step, hstep]; rfl, q', w', hinv'⟩
  | wakeUpProcess t =>
    refine ⟨_, rfl, q, w, { hinv with awake := fun u hu => ?_ }⟩
    by_cases hut : u = t
    · subst hut
      exact update_self ..
    · exact (update_of_ne hut ..).trans (hinv.awake u hu)

theorem reachable_sound (h : Reachable step State.Ok State.Start s) : Sound s :=
  h.invariant_of_returns (fun _ => sound_start) fun _ _ hs hok => ⟨(), hs.step hok⟩

/-- In every interleaving all steps come back, `done` is the number of calls of `complete` that no
waiter has used up, the list holds the waiters that have not been woken, each once, and counts them;
and if every waiter sleeps, nothing is left to use up. -/
theorem counted_of_reachable (h : Reachable step State.Ok State.Start s) :
    s.done + s.consumed = s.completes ∧
    (∃ q, q.Nodup ∧ Headed s.lists anchors (waiters q) ∧
      ∀ t, t ∈ q ↔ s.waiting t = true ∧ s.woken t = false) ∧
    ((∀ t, s.waiting t = true → s.running t = false) → ∀ t, s.waiting t = true → s.done = 0) ∧
    ∀ op, s.Ok op → ∃ s', s.step op = some ((), s') := by
  obtain ⟨q, w, hinv⟩ := reachable_sound h
  refine ⟨hinv.total, ⟨q, nodup_of_headed hinv.headed, hinv.headed, hinv.queued⟩, ?_, ?_⟩
  · intro hasleep t ht
    -- whoever was woken would be awake
    have hw : w = [] := by
      rw [eq_nil_iff_forall_not_mem]
      intro u hu
      exact absurd ((hasleep u ((hinv.taken u).mp hu).1).symm.trans (hinv.awake u hu)) nofun
    have htq : t ∈ q := by
      rw [hinv.queued t]
      refine ⟨ht, ?_⟩
      by_contra hwoken
      have htw : t ∈ w := (hinv.taken t).mpr ⟨ht, Bool.not_eq_false _ ▸ hwoken⟩
      rw [hw] at htw
      exact absurd htw not_mem_nil
    have howed := hinv.owed (ne_nil_of_mem htq)
    rw [hw] at howed
    exact Nat.le_zero.mp howed
  · intro op hok
    obtain ⟨s', hstep, -⟩ := (reachable_sound h).step hok
    exact ⟨s', hstep⟩

def fresh : State where
  lists := { next := .node, prev := .node, count := fun _ => 0 }
  done := 0
  running _ := true
  waiting _ := false
  woken _ := false
  completes := 0
  consumed := 0

theorem start_fresh : State.Start fresh := ⟨rfl, rfl, rfl, rfl, fun _ => rfl, rfl, rfl⟩

instance (s : State) : (op : Op) → Decidable (s.Ok op)
  | .complete => inferInstanceAs (Decidable (_ < _))
  | .waitForCompletion _ | .wakeUp _ => inferInstanceAs (Decidable (_ = _))
  | .wakeUpProcess _ => inferInstanceAs (Decidable True)

/-- Two tasks wait, and a call of `complete` has woken one of them. -/
theorem counted_of_reachable_woken : ∃ s, Reachable step Ok State.Start s ∧
    (s.completes, s.done, s.waiting 0, s.waiting 1, s.woken 1) = (1, 1, true, true, true) ∧
    s.done + s.consumed = s.completes ∧
    ∃ q, q.Nodup ∧ Headed s.lists anchors (waiters q) ∧
      ∀ t, t ∈ q ↔ s.waiting t = true ∧ s.woken t = false := by
  have hrun : ∃ s, Reachable step Ok State.Start s ∧ decide ((s.completes, s.done, s.waiting 0,
      s.waiting 1, s.woken 1) = (1, 1, true, true, true)) = true :=
    Reachable.exists_of_run start_fresh [.waitForCompletion 0, .waitForCompletion 1, .complete]
      (by decide +kernel)
  obtain ⟨s, hs, hlast⟩ := hrun
  obtain ⟨htotal, hqueued, -⟩ := counted_of_reachable hs
  exact ⟨s, hs, of_decide_eq_true hlast, htotal, hqueued⟩

end Runs

/-! ## The order of waking -/

section Order

variable {s : State} {q w ts : List Tid} {t : Tid}

/-- `__prepare_to_swait` (`swait.c:44-48`) of a task whose node is new. -/
def State.queue (s : State) (t : Tid) : Option State :=
  prepareToSwait { s with lists := initList s.lists (.wait t) } t

/-- A task queues a node that is not on the list, or somebody calls `complete`. A task is one wait:
it queues itself once. -/
inductive Event
  | queue (t : Tid)
  | complete

def Event.tasks : Event → List Tid
  | .queue t => [t]
  | .complete => []

def State.event (s : State) : Event → Option State
  | .queue t => s.queue t
  | .complete => s.complete

/-- Whoever queued itself before a task that has been woken has been woken too. -/
def InOrder (s : State) (ts : List Tid) : Prop :=
  ts.Pairwise fun t u => s.woken u = true → s.woken t = true

/-- The tasks `ts` have queued themselves in this order; after each of the events that follow, those
woken by then came first. -/
def WakesInOrder : State → List Tid → List Event → Prop
  | s, ts, [] => InOrder s ts
  | s, ts, e :: es =>
    InOrder s ts ∧ ∃ s', s.event e = some s' ∧ WakesInOrder s' (ts ++ e.tasks) es

/-- With `n` tasks on the list, each call of `complete` among the events finds at most one. -/
def FindsOne : Nat → List Event → Prop
  | _, [] => True
  | n, .queue _ :: es => FindsOne (n + 1) es
  | n, .complete :: es => n ≤ 1 ∧ FindsOne (n - 1) es

theorem WakesInOrder.inOrder {es : List Event} (h : WakesInOrder s ts es) : InOrder s ts := by
  cases es with
  | nil => exact h
  | cons e es => exact h.1

theorem queue_headed (h : Headed s.lists anchors (waiters q)) (ht : t ∉ q) :
    ∃ s', s.queue t = some s' ∧ Headed s'.lists anchors (waiters (q ++ [t])) ∧
      s'.woken = update s.woken t false := by
  obtain ⟨lists, hqueue, hheaded, -⟩ := prepareToSwait_of_notMem
    (s := { s with lists := initList s.lists (.wait t) }) (h.initList (off_of_notMem ht)) ht
    (by simp [initList, Links.join])
  exact ⟨_, hqueue, hheaded, rfl⟩

theorem complete_headed (h : Headed s.lists anchors (waiters q)) :
    ∃ s', s.complete = some s' ∧ Headed s'.lists anchors (waiters q.dropLast) ∧
      s'.woken = q.getLast?.elim s.woken (update s.woken · true) := by
  obtain ⟨done, hcomplete⟩ : ∃ done, s.complete =
      State.swakeUpLocked { s with completes := s.completes + 1, done } := by
    rw [State.complete]
    split <;> exact ⟨_, rfl⟩
  rw [hcomplete]
  rcases eq_nil_or_concat' q with rfl | ⟨q, t, rfl⟩
  · exact ⟨_, swakeUpLocked_nil h, h, rfl⟩
  · obtain ⟨lists, hwake, hheaded, -⟩ := swakeUpLocked_append
      (s := { s with completes := s.completes + 1, done }) h
    exact ⟨_, hwake, by rwa [dropLast_concat], by simp⟩

theorem inOrder_append (hw : ∀ t ∈ w, s.woken t = true) (hq : ∀ t ∈ q, s.woken t = false) :
    InOrder s (w ++ q) := by
  refine pairwise_append.mpr ⟨?_, ?_, ?_⟩
  · exact pairwise_of_forall_mem_list fun t ht _ _ _ => hw t ht
  · exact pairwise_of_forall_mem_list fun _ _ u hu h => absurd (hq u hu) (by simp [h])
  · exact fun t ht _ _ _ => hw t ht

/-- The tasks `w` have been woken, and `q` are on the list. -/
theorem update_concat {f : Tid → Bool} {b : Bool} {ts : List Tid} (h : ∀ t ∈ ts, f t = b) (u : Tid) :
    ∀ t ∈ ts ++ [u], update f u b t = b := by
  intro t ht
  by_cases htu : t = u
  · rw [htu, update_self]
  · rw [update_of_ne htu, h t (by simpa [htu] using ht)]

/-- Of several waiters the last is awake, and the first is not. -/
theorem not_inOrder_of_last {u : Tid} (hnd : (w ++ (q ++ [u])).Nodup)
    (hq : ∀ t ∈ q ++ [u], s.woken t = false) (hne : q ≠ [])
    (hwoken : s'.woken = update s.woken u true) : ¬ InOrder s' (w ++ (q ++ [u])) := by
  intro horder
  obtain ⟨t, ht⟩ := exists_mem_of_ne_nil q hne
  have htu : t ≠ u := fun heq =>
    (nodup_append.mp (nodup_append.mp hnd).2.1).2.2 t ht u (by simp) heq
  have hpairs := (pairwise_append.mp (pairwise_append.mp horder).2.1).2.2
  have hawake := hpairs t ht u (by simp)
  rw [hwoken, update_self, update_of_ne htu, hq t (by simp [ht])] at hawake
  exact absurd (hawake rfl) (by simp)

theorem wakesInOrder_append (h : Headed s.lists anchors (waiters q))
    (hw : ∀ t ∈ w, s.woken t = true) (hq : ∀ t ∈ q, s.woken t = false) {es : List Event}
    (hts : (w ++ q ++ es.flatMap Event.tasks).Nodup) :
    WakesInOrder s (w ++ q) es ↔ FindsOne q.length es := by
  have hnow := inOrder_append hw hq
  induction es generalizing s w q with
  | nil => exact iff_of_true hnow trivial
  | cons e es ih =>
    rw [flatMap_cons, ← append_assoc] at hts
    cases e with
    | queue t =>
      have hnew : t ∉ w ++ q := fun hmem =>
        (nodup_append.mp (nodup_append.mp hts).1).2.2 t hmem t (by simp [Event.tasks]) rfl
      obtain ⟨hnw, hnq⟩ : t ∉ w ∧ t ∉ q := by simpa using hnew
      obtain ⟨s', hqueue, hheaded, hwoken⟩ := queue_headed h hnq
      have hw' : ∀ u ∈ w, s'.woken u = true := fun u hu => by
        rw [hwoken, update_of_ne (ne_of_mem_of_not_mem hu hnw), hw u hu]
      have hq' : ∀ u ∈ q ++ [t], s'.woken u = false := hwoken ▸ update_concat hq t
      have hiff := ih hheaded hw' hq' (by simpa [Event.tasks] using hts) (inOrder_append hw' hq')
      simpa [WakesInOrder, State.event, hnow, hqueue, Event.tasks, FindsOne] using hiff
    | complete =>
      obtain ⟨s', hcomplete, hheaded, hwoken⟩ := complete_headed h
      simp only [WakesInOrder, State.event, hnow, hcomplete, Event.tasks, append_nil, true_and,
        Option.some.injEq, exists_eq_left', FindsOne] at hts ⊢
      rcases eq_nil_or_concat' q with rfl | ⟨q, u, rfl⟩
      · have hsame : s'.woken = s.woken := hwoken
        have hw' : ∀ t ∈ w, s'.woken t = true := hsame ▸ hw
        simpa using ih hheaded hw' (by simp) hts (inOrder_append hw' (by simp))
      · replace hwoken : s'.woken = update s.woken u true := by simpa using hwoken
        rcases eq_or_ne q [] with rfl | hne
        · have hw' : ∀ t ∈ w ++ [u], s'.woken t = true := hwoken ▸ update_concat hw u
          have hiff := ih hheaded hw' (by simp) (by simpa using hts) (inOrder_append hw' (by simp))
          simpa using hiff
        · refine iff_of_false (fun hwakes => ?_) fun hone => ?_
          · exact not_inOrder_of_last (nodup_append.mp hts).1 hq hne hwoken hwakes.inOrder
          · have hlength := length_pos_of_ne_nil hne
            simp only [length_append, length_singleton] at hone
            omega

/-- Tasks are woken in the order in which they queued themselves exactly if no call of `complete`
finds more than one of them on the list. -/
theorem wakesInOrder_iff (hs : State.Start s) {es : List Event}
    (hes : (es.flatMap Event.tasks).Nodup) : WakesInOrder s [] es ↔ FindsOne 0 es :=
  wakesInOrder_append (w := []) (headed_start hs) (by simp) (by simp) hes

/-- Every call finds one task at most; two are still waiting at the end. -/
theorem wakesInOrder_turns : WakesInOrder fresh []
    [.queue 0, .complete, .queue 1, .complete, .complete, .queue 2, .queue 3] :=
  (wakesInOrder_iff start_fresh (by decide)).mpr (by simp [FindsOne])

/-- Of two tasks the one that queued itself second is woken by the first call. -/
theorem wakes_last_first : ¬ WakesInOrder fresh [] [.queue 0, .queue 1, .complete] := by
  intro hwakes
  have hone := (wakesInOrder_append (w := []) (q := []) (headed_start start_fresh) (by simp)
    (by simp) (by decide)).mp hwakes
  simp [FindsOne] at hone

/-! ## Waking all -/

/-- The call comes back with the queue empty, and has woken the tasks `ts` that were on it. -/
def WakesAll (q : Nat) (s : State) (ts : List Tid) : Prop :=
  ∃ fuel s', s.swakeUpAllLocked q fuel = some s' ∧ Headed s'.lists anchors (waiters []) ∧
    ∀ t, s'.woken t = (s.woken t || decide (t ∈ ts))

theorem swakeUpAllLocked_eq_none {q fuel : Nat} : s.swakeUpAllLocked q fuel = none := by
  induction fuel generalizing s with
  | zero => rfl
  | succ fuel ih =>
    rw [State.swakeUpAllLocked, if_pos (by omega)]
    exact Option.bind_eq_none_iff.mpr fun s' _ => ih

/-- The loop goes on when the queue is empty. -/
theorem not_wakesAll (q : Nat) (s : State) (ts : List Tid) : ¬ WakesAll q s ts := by
  rintro ⟨fuel, s', hreturns, -⟩
  rw [swakeUpAllLocked_eq_none] at hreturns
  contradiction

/-- With nobody waiting the anchor is already taken for a waiter. -/
theorem not_wakesAll_fresh : ¬ WakesAll 0x1000 fresh [] := by
  rintro ⟨fuel, s', hreturns, -⟩
  exact absurd (hreturns.symm.trans swakeUpAllLocked_eq_none) (by simp)

end Order

end MyOS2.Completion
