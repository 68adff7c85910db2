import MyOS2.Sched.Proofs.PidAlloc

/-!
# One call of `alloc_pid`

A reserved number is a `NULL` in place of a `NULL`, so a call that fails leaves every
table as it was; only the cursors may have moved. It comes back unless its namespace takes
no more pids: `put_pid_ns` ends for `init_pid_ns` only. For a requested number the search
has no upper bound: if the number is taken, the next free one is given out instead.
-/

namespace MyOS2.PidAlloc

open Function Idr

/-- What a call has come to: its error, if any, and its numbers. -/
def Status.outcome : Status → Option Int × List Upid
  | .failed a retval => (some retval, a.numbers)
  | st => (none, st.numbers)

namespace State

variable {s s' : State} {p : PidId} {a : Alloc} {spaces spaces' : NsId → PidNs}

/-- Namespaces nested in any way, with cursors as the tables leave them, and no other call of
`alloc_pid` under way, so that an empty slot is nobody's. -/
structure Ready (s : State) : Prop where
  nested : ∀ n, s.level n ≠ 0 → s.level (s.parent n) + 1 = s.level n
  pidMax : s.pidMax < 2 ^ 31
  cursor : ∀ n, (s.spaces n).idr.idrNext ≤ myosIdrBufSize
  quiet : ∀ q, (s.pid q).unpublished = []

/-! ## The state in the middle of the call -/

/-- The tables hold what they held, and the cursors are in range. -/
structure Alike (spaces spaces' : NsId → PidNs) : Prop where
  slots : ∀ n, (spaces' n).idr.idrRt = (spaces n).idr.idrRt
  pidAllocated : ∀ n, (spaces' n).pidAllocated = (spaces n).pidAllocated
  childReaper : ∀ n, (spaces' n).childReaper = (spaces n).childReaper
  cursor : ∀ n, (spaces' n).idr.idrNext ≤ myosIdrBufSize

/-- The slots of these numbers are inside the tables and empty. -/
def Empty (spaces : NsId → PidNs) (us : List Upid) : Prop :=
  ∀ u ∈ us, u.nr < myosIdrBufSize ∧ (spaces u.ns).idr.idrRt u.nr = 0

def during (s : State) (spaces : NsId → PidNs) (p : PidId) (status : Status) : State :=
  { s with spaces, pid := update s.pid p status }

@[simp] theorem during_pid (status : Status) : (s.during spaces p status).pid p = status :=
  update_self ..

@[simp] theorem during_setPid (status status' : Status) :
    (s.during spaces p status).setPid p status' = s.during spaces p status' := by
  simp [during, setPid]

theorem Alike.set (h : Alike spaces spaces') {n : NsId} {idr : IdrS}
    (hrt : idr.idrRt = (spaces' n).idr.idrRt) (hnext : idr.idrNext ≤ myosIdrBufSize) :
    Alike spaces (update spaces' n { spaces' n with idr }) where
  slots m := (field_update (fun ns => ns.idr.idrRt) hrt m).trans (h.slots m)
  pidAllocated m := (field_update PidNs.pidAllocated (by rfl) m).trans (h.pidAllocated m)
  childReaper m := (field_update PidNs.childReaper (by rfl) m).trans (h.childReaper m)
  cursor := (forall_update_iff spaces' fun _ x => x.idr.idrNext ≤ _).mpr ⟨hnext, fun m _ => h.cursor m⟩

theorem eachUpid_removeUpid {us : List Upid} (h : Empty spaces us) :
    eachUpid removeUpid us spaces = some spaces := by
  induction us with
  | nil => rfl
  | cons u us ih =>
    obtain ⟨⟨hlt, hnull⟩, hus⟩ := List.forall_mem_cons.mp h
    have hremove : removeUpid u.nr (spaces u.ns) = some (spaces u.ns) := by
      simp [removeUpid, idrRemove, hlt, update_null hnull]
    rw [eachUpid, hremove]
    simpa using ih hus

/-! ## Undoing -/

/-- Nothing has changed but the cursors and the status of the pid. -/
structure Undone (s s' : State) (p : PidId) : Prop where
  pid : ∀ q, q ≠ p → s'.pid q = s.pid q
  live : s'.live = s.live
  slots : ∀ n, (s'.spaces n).idr.idrRt = (s.spaces n).idr.idrRt
  pidAllocated : ∀ n, (s'.spaces n).pidAllocated = (s.spaces n).pidAllocated

/-- A section of a call of `alloc_pid` changes nothing for others unless the call succeeds with it;
a call that has failed returns its error, gives its numbers back and releases the struct pid; and
none waits forever. -/
structure Undoes (s : State) (p : PidId) (r : Option (Except Int PidId)) (s' : State) : Prop where
  undone : r ≠ some (.ok p) → s.Undone s' p
  released : ∀ a e, s.pid p = .failed a e → r = some (.error e) ∧ s'.pid p = .free ∧
    ∀ u ∈ a.numbers, (s'.spaces u.ns).idr.idrRt u.nr = 0 ∧ ∀ q, u ∉ (s'.pid q).numbers
  returns : ∀ a, s'.pid p ≠ .stuck a

/-- The namespace takes new pids, or is the one that `put_pid_ns` stops at. -/
def Accepts (s : State) : Op → Prop
  | .publish p => ∀ a, s.pid p = .reserving a →
      (s.spaces a.ns).pidAllocated &&& pidnsAdding ≠ 0 ∨ a.ns = initPidNs
  | _ => True

theorem undone_setPid (status : Status) : s.Undone (s.setPid p status) p :=
  ⟨fun _ hq => update_of_ne hq .., rfl, fun _ => rfl, fun _ => rfl⟩

theorem undoes_allocPid (hp : s.pid p = .free) (ns : NsId) (setTid : List Int) :
    s.Undoes p (s.allocPid p ns setTid).1 (s.allocPid p ns setTid).2 := by
  rw [allocPid]
  split
  · exact ⟨fun _ => ⟨fun _ _ => rfl, rfl, fun _ => rfl, fun _ => rfl⟩, by simp [hp], by simp [hp]⟩
  · exact ⟨fun _ => undone_setPid _, by simp [hp], by simp [setPid]⟩

section Sections
variable (h : s.Inv)
include h

theorem Inv.undoes_reserve (hp : s.pid p = .reserving a) :
    ∃ s', s.reserve p a = some s' ∧ s.Undoes p none s' := by
  rcases reserve_cases (p := p) (h.tables.cursor a.tmp) h.pidMax with
    ⟨setTid, retval, heq⟩ | ⟨setTid, x, idr, -, -, -, hrt, -, heq⟩
  · exact ⟨_, heq, fun _ => undone_setPid _, by simp [hp], by simp [setPid]⟩
  · rw [enter_nat] at heq
    refine ⟨_, heq, fun _ => ⟨fun _ hq => update_of_ne hq .., rfl, ?_, ?_⟩, by simp [hp],
      by simp [setPid]⟩
    · exact field_update (fun ns => ns.idr.idrRt) hrt
    · exact field_update PidNs.pidAllocated (by rfl)

theorem Inv.undoes_publish (hp : s.pid p = .reserving a) :
    ∃ r s', s.publish p a = some (r, s') ∧ (s.Undoes p r s' ↔
      (s.spaces a.ns).pidAllocated &&& pidnsAdding ≠ 0 ∨ a.ns = initPidNs) := by
  by_cases hadding : (s.spaces a.ns).pidAllocated &&& pidnsAdding = 0
  · refine ⟨none, _, by rw [State.publish, if_pos hadding], ?_⟩
    rw [or_iff_right (not_not.mpr hadding), Alloc.outUnlock]
    by_cases hns : a.ns = initPidNs
    · rw [if_pos hns]
      exact iff_of_true ⟨fun _ => undone_setPid _, by simp [hp], by simp [setPid]⟩ hns
    · rw [if_neg hns]
      exact iff_of_false (fun hundoes => hundoes.returns a (by simp [setPid])) hns
  · obtain ⟨r, s', heq, -⟩ := h.publish hp
    refine ⟨r, s', heq, iff_of_true ?_ (.inl hadding)⟩
    rw [State.publish, if_neg hadding, Option.bind_eq_bind, Option.bind_eq_some_iff] at heq
    obtain ⟨spaces, -, heq⟩ := heq
    cases heq
    exact ⟨fun hr => absurd rfl hr, by simp [hp], by simp [setPid]⟩

theorem Inv.undoes_outFree {retval : Int} (hp : s.pid p = .failed a retval) :
    ∃ r s', s.outFree p a retval = some (r, s') ∧ s.Undoes p r s' := by
  have hmem : ∀ u ∈ a.numbers, u ∈ (s.pid p).numbers := by simp [hp, Status.numbers]
  have hnull : ∀ u ∈ a.numbers, (s.spaces u.ns).idr.idrRt u.nr = 0 := by
    intro u hu
    rw [h.tables.stored p u (hmem u hu), hp, Status.entry]
  have heach : eachUpid removeUpid a.numbers s.spaces = some s.spaces :=
    eachUpid_removeUpid fun u hu => ⟨h.tables.inside p u (hmem u hu), hnull u hu⟩
  have hslots := fun n => (resetCursor_eq a.ns n s.spaces).1
  have hfree : s.outFree p a retval = some (some (.error retval),
      { s.setPid p .free with spaces := resetCursor a.ns s.spaces }) := by
    rw [State.outFree, heach]
    rfl
  refine ⟨_, _, hfree, fun _ => ⟨fun _ hq => update_of_ne hq .., rfl, hslots, ?_⟩, ?_, by simp [setPid]⟩
  · exact fun n => (resetCursor_eq a.ns n s.spaces).2.2
  · intro a' e ha'
    cases hp.symm.trans ha'
    refine ⟨rfl, by simp [setPid], fun u hu => ⟨?_, fun q hq => ?_⟩⟩
    · exact (congrFun (hslots u.ns) u.nr).trans (hnull u hu)
    · -- nobody else has had the number either
      by_cases hqp : q = p
      · simp [hqp, setPid, Status.numbers] at hq
      · simp only [setPid, update_of_ne hqp] at hq
        exact h.tables.unique p q (Ne.symm hqp) u (hmem u hu) hq

end Sections

/-- Whatever other calls are under way, a section of a call of `alloc_pid` undoes itself exactly if
it does not end at a nested namespace that takes no more pids. -/
theorem undoes_iff_accepts (hs : Reachable step StepOk Start s) {op : Op} (hok : s.StepOk op)
    (hpid : op.pid = some p) (hfree : op ≠ .freePid p) :
    (∃ r s', s.step op = some (r, s') ∧ (s.Undoes p r s' ↔ s.Accepts op)) ∧
      ∀ ns setTid, ∃ e, s.allocPidCall none ns setTid = some (.error e, s) := by
  have h := inv_of_reachable hs
  refine ⟨?_, fun ns setTid => ?_⟩
  · cases op with
    | allocPid q ns setTid =>
      cases hpid
      cases hp : s.pid p with
      | free => exact ⟨_, _, rfl, iff_of_true (undoes_allocPid hp ns setTid) trivial⟩
      | _ => simp [StepOk, Ok, hp] at hok
    | reserve q =>
      cases hpid
      cases hp : s.pid p with
      | reserving a =>
        obtain ⟨s', heq, hundoes⟩ := h.undoes_reserve hp
        exact ⟨none, s', by simp [step, hp, heq], iff_of_true hundoes trivial⟩
      | _ => simp [StepOk, Ok, hp] at hok
    | publish q =>
      cases hpid
      cases hp : s.pid p with
      | reserving a => simpa [step, Accepts, hp] using h.undoes_publish hp
      | _ => simp [StepOk, Ok, hp] at hok
    | outFree q =>
      cases hpid
      cases hp : s.pid p with
      | failed a retval =>
        obtain ⟨r, s', heq, hundoes⟩ := h.undoes_outFree hp
        exact ⟨r, s', by simp [step, hp, heq], iff_of_true hundoes trivial⟩
      | _ => simp [StepOk, Ok, hp] at hok
    | freePid q =>
      cases hpid
      exact absurd rfl hfree
    | childReaper n set => cases hpid
  · unfold allocPidCall
    split
    · exact ⟨_, rfl⟩
    · exact ⟨_, rfl⟩

/-- From the label `out_free` on. -/
theorem sections_failed (hempty : Empty spaces a.numbers) (retval : Int) (n : Nat) :
    ∃ s', sections p (n + 1) (s.during spaces p (.failed a retval)) = some (.error retval, s') := by
  have heach := eachUpid_removeUpid hempty
  refine ⟨{ s.during spaces p .free with spaces := resetCursor a.ns spaces }, ?_⟩
  simp only [sections, nextOp, during_pid, step, outFree, during_setPid]
  rw [show (s.during spaces p (.failed a retval)).spaces = spaces from rfl, heach]
  rfl

theorem reserve_during (hready : s.Ready) (halike : Alike s.spaces spaces)
    (hempty : Empty spaces a.numbers) :
    (∃ a' e, (s.during spaces p (.reserving a)).reserve p a = some (s.during spaces p (.failed a' e)) ∧
      a'.numbers = a.numbers) ∨
    ∃ spaces' a', (s.during spaces p (.reserving a)).reserve p a =
        some (s.during spaces' p (.reserving a')) ∧ Alike s.spaces spaces' ∧
      Empty spaces' a'.numbers ∧ a.numbers <:+ a'.numbers ∧ a'.todo = a.todo - 1 := by
  rcases reserve_cases (s := s.during spaces p (.reserving a)) (p := p) (halike.cursor a.tmp)
    hready.pidMax with ⟨setTid, retval, heq⟩ | ⟨setTid, x, idr, -, hx, hnull, hrt, hnext, heq⟩
  · rw [during_setPid] at heq
    exact .inl ⟨_, retval, heq, rfl⟩
  · have halike' := halike.set hrt hnext
    rw [enter_nat, during_setPid] at heq
    refine .inr ⟨_, _, heq, halike', ?_, List.suffix_cons .., rfl⟩
    have hslot := fun u : Upid =>
      congrFun ((halike'.slots u.ns).trans (halike.slots u.ns).symm) u.nr
    intro u hu
    rcases List.mem_cons.mp hu with rfl | hu
    · exact ⟨hx, (hslot _).trans hnull⟩
    · exact ⟨(hempty u hu).1, (hslot u).trans (hempty u hu).2⟩

theorem sections_succ {n : Nat} {t : State} (htodo : a.todo ≠ 0)
    (h : (s.during spaces p (.reserving a)).reserve p a = some t) :
    sections p (n + 1) (s.during spaces p (.reserving a)) = sections p n t := by
  simp [sections, nextOp, htodo, step, h]

theorem sections_stuck (n : Nat) : sections p n (s.during spaces p (.stuck a)) = none := by
  cases n with
  | zero => rfl
  | succ n => simp [sections, nextOp, step]

theorem sections_publish (hempty : Empty spaces a.numbers) (htodo : a.todo = 0) {n : Nat} {q : PidId}
    (hok : sections p (n + 2) (s.during spaces p (.reserving a)) = some (.ok q, s')) :
    s'.pid p = .published a.numbers := by
  by_cases hadding : (spaces a.ns).pidAllocated &&& pidnsAdding = 0
  · have hnext : sections p (n + 2) (s.during spaces p (.reserving a)) =
        sections p (n + 1) (s.during spaces p a.outUnlock) := by
      rw [sections]
      simp [nextOp, htodo, step, publish, during, hadding, setPid]
    rw [hnext, Alloc.outUnlock] at hok
    by_cases hns : a.ns = initPidNs
    · rw [if_pos hns] at hok
      obtain ⟨s₁, hs₁⟩ := sections_failed (s := s) (p := p) hempty (-enomem) n
      cases hs₁.symm.trans hok
    · rw [if_neg hns, sections_stuck] at hok
      cases hok
  · have hsome : ∀ u ∈ a.numbers.reverse, ∀ ns, (publishUpid p u.nr ns).isSome = true := by
      intro u hu ns
      simp [publishUpid, idrReplace, (hempty u (List.mem_reverse.mp hu)).1]
    obtain ⟨spaces', heach⟩ : ∃ spaces', eachUpid (publishUpid p) a.numbers.reverse spaces = some spaces' :=
      eachUpid_isSome hsome
    have hlast : sections p (n + 2) (s.during spaces p (.reserving a)) =
        some (.ok p, { s.during spaces' p (.published a.numbers) with live := p :: s.live }) := by
      simp [sections, nextOp, htodo, step, publish, during, hadding, heach, setPid]
    cases hlast.symm.trans hok
    exact update_self ..

theorem sections_reserving (hready : s.Ready) (halike : Alike s.spaces spaces)
    (hempty : Empty spaces a.numbers) {n : Nat} (hn : a.todo + 2 ≤ n) {q : PidId}
    (hok : sections p n (s.during spaces p (.reserving a)) = some (.ok q, s')) :
    ∃ us, s'.pid p = .published us ∧ a.numbers <:+ us := by
  induction htodo : a.todo generalizing a spaces n with
  | zero =>
    obtain ⟨n, rfl⟩ : ∃ m, n = m + 2 := ⟨n - 2, by omega⟩
    exact ⟨a.numbers, sections_publish hempty htodo hok, List.suffix_refl _⟩
  | succ k ih =>
    obtain ⟨n, rfl⟩ : ∃ m, n = m + 2 := ⟨n - 2, by omega⟩
    have htodo' : a.todo ≠ 0 := by omega
    rcases reserve_during (p := p) hready halike hempty with
      ⟨a', e, heq, hnumbers⟩ | ⟨spaces', a', heq, halike', hempty', hsuffix, hless⟩
    · obtain ⟨s₁, hs₁⟩ := sections_failed (s := s) (p := p) (a := a') (hnumbers ▸ hempty) e n
      cases ((sections_succ htodo' heq).trans hs₁).symm.trans hok
    · rw [sections_succ htodo' heq] at hok
      obtain ⟨us, hus, hsuffix'⟩ := ih halike' hempty' (n := n + 1) (by omega) hok (by omega)
      exact ⟨us, hus, hsuffix.trans hsuffix'⟩

/-- Pid 7 has number 7 in the inner namespace when its request for 0 in the outer one fails; pid 8
keeps its numbers. -/
theorem undoes_iff_accepts_nested : ∃ s, Reachable step StepOk Start s ∧
    (s.pid 8).numbers = [⟨1, 0⟩, ⟨1, 1⟩] ∧ (s.pid 7).numbers = [⟨7, 1⟩] ∧
    ∃ r s', s.step (.outFree 7) = some (r, s') ∧ s.Undoes 7 r s' := by
  have hrun : ∃ s, Reachable step (fun s op => InTurn [7, 8] s op = true) Start s ∧
      decide ((s.pid 8).numbers = [⟨1, 0⟩, ⟨1, 1⟩] ∧ (s.pid 7).numbers = [⟨7, 1⟩] ∧
        s.Ok (.outFree 7) = true) = true :=
    Reachable.exists_of_run start_boot [.allocPid 8 1 [], .reserve 8, .reserve 8, .publish 8,
      .allocPid 7 1 [7, 0], .reserve 7, .reserve 7] (by decide +kernel)
  obtain ⟨s, hs, hlast⟩ := hrun
  obtain ⟨h8, h7, hok⟩ := of_decide_eq_true hlast
  have hreachable := (reachable_of_inTurn hs).1
  obtain ⟨⟨r, s', heq, hiff⟩, -⟩ := undoes_iff_accepts hreachable ⟨hok, trivial⟩ rfl (by simp)
  exact ⟨s, hreachable, h8, h7, r, s', heq, hiff.mpr trivial⟩

/-- With the first task running, the only pid of a nested namespace is freed; the next call there does
not come back. -/
theorem last_pid_freed_next_stuck : ∃ s, Reachable step StepOk Start s ∧
    s.StepOk (.publish 8) ∧ ∃ r s', s.step (.publish 8) = some (r, s') ∧ ¬ s.Undoes 8 r s' := by
  have hrun : ∃ s, Reachable step (fun s op => InTurn [6, 7, 8] s op = true) Start s ∧
      (s.Ok (.publish 8) && (s.step (.publish 8)).any fun x =>
        match x.2.pid 8 with | .stuck _ => true | _ => false) = true :=
    Reachable.exists_of_run start_boot [.allocPid 6 0 [], .reserve 6, .publish 6, .allocPid 7 1 [],
      .reserve 7, .reserve 7, .publish 7, .freePid 7, .allocPid 8 1 [], .reserve 8, .reserve 8]
      (by decide +kernel)
  obtain ⟨s, hs, hlast⟩ := hrun
  obtain ⟨hok, hstuck⟩ := Bool.and_eq_true_iff.mp hlast
  obtain ⟨⟨r, s'⟩, heq, hstuck⟩ := (Option.any_eq_true ..).mp hstuck
  refine ⟨s, (reachable_of_inTurn hs).1, ⟨hok, trivial⟩, r, s', heq, fun h => ?_⟩
  cases hp : s'.pid 8 with
  | stuck a => exact h.returns a hp
  | _ => simp [hp] at hstuck

theorem allocPid_eq_during {ns : NsId} {setTid : List Int} (hsize : ¬ s.level ns + 1 < setTid.length) :
    (s.allocPid p ns setTid).2 = s.during s.spaces p
      (.reserving { ns, tmp := ns, todo := s.level ns + 1, setTid, numbers := [] }) := by
  rw [allocPid, if_neg hsize]
  rfl

theorem Ready.alike (h : s.Ready) : Alike s.spaces s.spaces :=
  ⟨fun _ => rfl, fun _ => rfl, fun _ => rfl, h.cursor⟩

/-! ## Requested numbers -/

/-- The table has the number, and nobody holds it. -/
def Available (s : State) (n : NsId) (tid : Int) : Prop :=
  tid.toNat < myosIdrBufSize ∧ (s.spaces n).idr.idrRt tid.toNat = 0

instance (s : State) (n : NsId) (tid : Int) : Decidable (s.Valid n tid) :=
  inferInstanceAs (Decidable (_ ∧ _))

instance (s : State) (n : NsId) (tid : Int) : Decidable (s.Available n tid) :=
  inferInstanceAs (Decidable (_ ∧ _))

/-- What a call should come to with the requested numbers: an error, if any, and the numbers that it
has reserved, from the namespace on outwards. -/
def want (s : State) : List Int → NsId → List Upid → Option Int × List Upid
  | [], _, us => (none, us)
  | tid :: setTid, n, us =>
    if s.Valid n tid then
      if s.Available n tid then s.want setTid (s.parent n) (⟨tid.toNat, n⟩ :: us)
      else (some (-eexist), us)
    else (some (-einval), us)

def rounds (p : PidId) : Nat → State → Option State
  | 0, s => some s
  | n + 1, s =>
    match s.pid p with
    | .reserving a => (s.reserve p a).bind (rounds p n)
    | _ => some s

/-- The requested numbers are reserved, or the call fails for the right reason; a call that succeeds
returns a pid with these numbers. -/
structure Honours (s : State) (p : PidId) (ns : NsId) (setTid : List Int) : Prop where
  rounds : setTid.length ≤ s.level ns + 1 →
    ∃ s', rounds p setTid.length (s.allocPid p ns setTid).2 = some s' ∧
      (s'.pid p).outcome = s.want setTid ns [] ∧
      ∀ n, (s'.spaces n).idr.idrRt = (s.spaces n).idr.idrRt
  numbers : ∀ q s', s.allocPidCall (some p) ns setTid = some (.ok q, s') →
    ∃ us, s'.pid p = .published us ∧ setTid <+: us.reverse.map fun u => (u.nr : Int)

/-- No slot above a requested number that is taken is empty. -/
def NoneAbove (s : State) : List Int → NsId → Prop
  | [], _ => True
  | tid :: setTid, n =>
    s.Valid n tid →
      if s.Available n tid then s.NoneAbove setTid (s.parent n)
      else ∀ x, ¬ LowestNull (s.spaces n).idr.idrRt tid.toNat x

section Requested
variable {tid : Int} {setTid : List Int}

theorem reserve_requested (hready : s.Ready) (halike : Alike s.spaces spaces)
    (htid : a.setTid = tid :: setTid) :
    (∃ a', (s.during spaces p (.reserving a)).reserve p a = some (s.during spaces p
        (.failed a' (if s.Valid a.tmp tid then -eexist else -einval))) ∧ a'.numbers = a.numbers ∧
      (s.Valid a.tmp tid → ∀ x, ¬ LowestNull (s.spaces a.tmp).idr.idrRt tid.toNat x)) ∨
    ∃ x, s.Valid a.tmp tid ∧ LowestNull (s.spaces a.tmp).idr.idrRt tid.toNat x ∧
      (s.during spaces p (.reserving a)).reserve p a = some (s.during spaces p (.reserving { a with
        setTid, numbers := ⟨x, a.tmp⟩ :: a.numbers, tmp := s.parent a.tmp, todo := a.todo - 1 })) := by
  set t := s.during spaces p (.reserving a) with ht
  have hslots : (t.spaces a.tmp).idr.idrRt = (s.spaces a.tmp).idr.idrRt := halike.slots a.tmp
  have hvalid : t.Valid a.tmp tid ↔ s.Valid a.tmp tid := by
    rw [Valid, Valid, show (t.spaces a.tmp).childReaper = _ from halike.childReaper a.tmp]
    rfl
  by_cases h : s.Valid a.tmp tid
  · rcases reserve_tid (s := t) (p := p) hready.pidMax htid (hvalid.mpr h) with ⟨x, hx, heq⟩ | ⟨hfull, heq⟩
    · refine .inr ⟨x, h, hslots ▸ hx, ?_⟩
      rw [heq, enter_nat, during_setPid]
      simp [ht, during]
    · rw [during_setPid] at heq
      exact .inl ⟨{ a with setTid }, by rw [if_pos h, heq], rfl, fun _ => hslots ▸ hfull⟩
  · refine .inl ⟨a, ?_, rfl, fun hv => absurd hv h⟩
    rw [reserve_invalid htid (mt hvalid.mp h), if_neg h, during_setPid]

theorem rounds_failed (n : Nat) (e : Int) :
    rounds p n (s.during spaces p (.failed a e)) = some (s.during spaces p (.failed a e)) := by
  cases n with
  | zero => rfl
  | succ n => simp [rounds]

theorem suffix_outcome (hready : s.Ready) (halike : Alike s.spaces spaces) {n : Nat}
    (h : rounds p n (s.during spaces p (.reserving a)) = some s') (hn : n = a.setTid.length) :
    a.numbers <:+ (s'.pid p).outcome.2 := by
  induction n generalizing a with
  | zero =>
    cases h
    simp [Status.outcome, Status.numbers]
  | succ n ih =>
    obtain ⟨tid, setTid, htid⟩ := List.exists_cons_of_length_eq_add_one hn.symm
    simp only [rounds, during_pid] at h
    rcases reserve_requested (p := p) hready halike htid with ⟨a', heq, hsame, -⟩ | ⟨x, -, -, heq⟩
    · rw [heq, Option.bind_some, rounds_failed] at h
      cases h
      simp [Status.outcome, hsame]
    · rw [heq, Option.bind_some] at h
      exact (List.suffix_cons ..).trans (ih h (by simpa [htid] using hn))

theorem Available.lowestNull_iff (h : s.Available a.tmp tid) {x : Nat} :
    LowestNull (s.spaces a.tmp).idr.idrRt tid.toNat x ↔ x = tid.toNat := by
  have hself : LowestNull (s.spaces a.tmp).idr.idrRt tid.toNat tid.toNat :=
    ⟨⟨Nat.le_refl _, h⟩, fun y hle hlt => absurd hle (Nat.not_le.mpr hlt)⟩
  exact ⟨fun hx => hx.unique hself, fun hx => hx ▸ hself⟩

theorem rounds_iff (hready : s.Ready) (halike : Alike s.spaces spaces) (htid : a.setTid = setTid) :
    (∃ s', rounds p setTid.length (s.during spaces p (.reserving a)) = some s' ∧
      (s'.pid p).outcome = s.want setTid a.tmp a.numbers ∧
      ∀ n, (s'.spaces n).idr.idrRt = (s.spaces n).idr.idrRt) ↔ s.NoneAbove setTid a.tmp := by
  induction setTid generalizing a with
  | nil =>
    refine iff_of_true ⟨_, rfl, ?_, halike.slots⟩ trivial
    simp [Status.outcome, Status.numbers, want]
  | cons tid setTid ih =>
    simp only [List.length_cons, rounds, during_pid, want, NoneAbove]
    rcases reserve_requested (p := p) hready halike htid with
      ⟨a', heq, hsame, hfull⟩ | ⟨x, hvalid, hx, heq⟩
    · simp only [heq, Option.bind_some, rounds_failed, Option.some.injEq, exists_eq_left', during_pid,
        Status.outcome, hsame]
      by_cases hv : s.Valid a.tmp tid
      · have hnot : ¬ s.Available a.tmp tid := fun ha => hfull hv _ (ha.lowestNull_iff.mpr rfl)
        simp only [if_pos hv, if_neg hnot]
        exact iff_of_true ⟨trivial, halike.slots⟩ hfull
      · simp only [if_neg hv]
        exact iff_of_true ⟨trivial, halike.slots⟩ fun h => absurd h hv
    · simp only [heq, Option.bind_some, hvalid, forall_const]
      by_cases ha : s.Available a.tmp tid
      · obtain rfl := ha.lowestNull_iff.mp hx
        simp only [if_pos ha]
        exact ih rfl
      · simp only [if_neg ha]
        refine iff_of_false ?_ fun hnone => hnone x hx
        rintro ⟨s', hs', hout, -⟩
        have hsuffix := suffix_outcome hready halike hs' rfl
        rw [hout] at hsuffix
        exact absurd hsuffix.length_le (Nat.not_succ_le_self _)

theorem published_of_noneAbove (hready : s.Ready) (halike : Alike s.spaces spaces)
    (hempty : Empty spaces a.numbers) (htid : a.setTid = setTid)
    (hsize : setTid.length ≤ a.todo) {n : Nat} (hn : a.todo + 2 ≤ n)
    (hnone : s.NoneAbove setTid a.tmp) {q : PidId}
    (hok : sections p n (s.during spaces p (.reserving a)) = some (.ok q, s')) :
    ∃ us, s'.pid p = .published us ∧
      (a.numbers.reverse.map fun u => (u.nr : Int)) ++ setTid <+: us.reverse.map fun u => (u.nr : Int) := by
  induction setTid generalizing a n with
  | nil =>
    obtain ⟨us, hus, hsuffix⟩ := sections_reserving hready halike hempty hn hok
    refine ⟨us, hus, ?_⟩
    rw [List.append_nil]
    exact (List.reverse_prefix.mpr hsuffix).map _
  | cons tid setTid ih =>
    obtain ⟨n, rfl⟩ : ∃ m, n = m + 2 := ⟨n - 2, by omega⟩
    rw [List.length_cons] at hsize
    have htodo : a.todo ≠ 0 := by omega
    rcases reserve_requested (p := p) hready halike htid with
      ⟨a', heq, hsame, -⟩ | ⟨x, hvalid, hx, heq⟩
    · obtain ⟨s₁, hs₁⟩ := sections_failed (s := s) (p := p) (a := a') (hsame ▸ hempty) _ n
      rw [sections_succ htodo heq, hs₁] at hok
      cases hok
    · have hrest := hnone hvalid
      have havailable : s.Available a.tmp tid := by
        by_contra hnot
        rw [if_neg hnot] at hrest
        exact hrest x hx
      obtain rfl := havailable.lowestNull_iff.mp hx
      rw [if_pos havailable] at hrest
      rw [sections_succ htodo heq] at hok
      have hempty' : Empty spaces (⟨tid.toNat, a.tmp⟩ :: a.numbers) := by
        refine List.forall_mem_cons.mpr ⟨⟨havailable.1, ?_⟩, hempty⟩
        rw [halike.slots]
        exact havailable.2
      obtain ⟨us, hus, hprefix⟩ := ih (n := n + 1) hempty' rfl (by simp only; omega)
        (by simp only; omega) hrest hok
      have hcast : (tid.toNat : Int) = tid := Int.toNat_of_nonneg (by have := hvalid.1.1; omega)
      refine ⟨us, hus, ?_⟩
      simpa [hcast] using hprefix

end Requested

/-- A call honours its request exactly if no requested number is passed over: the first taken one,
if any, has no empty slot above it. -/
theorem honours_iff_noneAbove (hready : s.Ready) (p : PidId) (ns : NsId) (setTid : List Int) :
    s.Honours p ns setTid ↔ (setTid.length ≤ s.level ns + 1 → s.NoneAbove setTid ns) := by
  by_cases hsize : setTid.length ≤ s.level ns + 1
  · have hnot : ¬ s.level ns + 1 < setTid.length := Nat.not_lt.mpr hsize
    have hrounds := rounds_iff (s := s) (p := p) hready hready.alike
      (a := { ns, tmp := ns, todo := s.level ns + 1, setTid, numbers := [] }) rfl
    rw [← allocPid_eq_during hnot] at hrounds
    refine ⟨fun h _ => hrounds.mp (h.rounds hsize), fun h => ⟨fun _ => hrounds.mpr (h hsize), ?_⟩⟩
    intro q s' hcall
    simp only [allocPidCall, if_neg hnot, allocPid_eq_during hnot] at hcall
    exact published_of_noneAbove hready hready.alike (by simp [Empty]) rfl hsize (Nat.le_refl _) (h hsize) hcall
  · refine iff_of_true ⟨fun h => absurd h hsize, fun q s' hcall => ?_⟩ fun h => absurd h hsize
    simp only [allocPidCall, if_pos (Nat.lt_of_not_le hsize)] at hcall
    cases hcall

/-- Pid 7 has the numbers 5 and 9; the next one can have 6 and 10. -/
theorem honours_of_noneAbove_nested : ∃ s, Reachable step StepOk Start s ∧
    (s.pid 7).numbers = [⟨9, 0⟩, ⟨5, 1⟩] ∧ s.Honours 8 1 [6, 10] := by
  have hrun : ∃ s, Reachable step (fun s op => InTurn [7] s op = true) Start s ∧
      decide (((s.pid 7).numbers = [⟨9, 0⟩, ⟨5, 1⟩] ∧ (s.pid 7).unpublished = []) ∧
        s.parent 1 = 0 ∧ s.Available 1 6 ∧ s.Available 0 10) = true :=
    Reachable.exists_of_run start_boot [.allocPid 7 1 [5, 9], .reserve 7, .reserve 7, .publish 7]
      (by decide +kernel)
  obtain ⟨s, hs, hlast⟩ := hrun
  obtain ⟨⟨hnumbers, hquiet⟩, hparent, hinner, houter⟩ := of_decide_eq_true hlast
  obtain ⟨hreachable, hothers⟩ := reachable_of_inTurn hs
  have h := inv_of_reachable hreachable
  have hready : s.Ready := by
    refine ⟨h.nested, h.pidMax, h.tables.cursor, fun q => ?_⟩
    by_cases hq : q = 7
    · rw [hq, hquiet]
    · rw [hothers q (by simpa using hq)]
      rfl
  refine ⟨s, hreachable, hnumbers, (honours_iff_noneAbove hready 8 1 [6, 10]).mpr fun _ => ?_⟩
  simp [NoneAbove, hparent, hinner, houter]

/-- Number 5 is asked for twice: the second pid gets number 6. -/
theorem taken_number_passed_over : ∃ s, Reachable step (fun s op => s.Ok op = true) Start s ∧
    s.Ok (.allocPid 8 0 [5]) = true ∧ ¬ s.Honours 8 0 [5] := by
  have hrun : (Reachable.run step (fun s op => s.Ok op = true) boot
      [.allocPid 7 0 [5], .reserve 7, .publish 7]).any (fun s => decide (
        (s.level 0 = 0 ∧ s.Ok (.allocPid 8 0 [5]) = true) ∧
        (rounds 8 1 (s.allocPid 8 0 [5]).2).all (fun s' =>
          decide ((s'.pid 8).outcome ≠ s.want [5] 0 [])) = true)) = true := by
    decide +kernel
  obtain ⟨s, hs, hprop⟩ := Reachable.exists_of_run start_boot _ hrun
  obtain ⟨⟨hlevel, hok⟩, hall⟩ := of_decide_eq_true hprop
  refine ⟨s, hs, hok, fun h => ?_⟩
  obtain ⟨s', hs', hout, -⟩ := h.rounds (by rw [hlevel]; decide)
  change rounds 8 1 _ = _ at hs'
  rw [hs'] at hall
  exact of_decide_eq_true hall hout

end State

end MyOS2.PidAlloc
