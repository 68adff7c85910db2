import MyOS2.Lib.Proofs.Idr
import MyOS2.Sched.PidAlloc
import Mathlib.Data.List.Nodup
import Mathlib.Data.List.Perm.Subperm
import Mathlib.Data.List.Range

/-!
# Numbers of live pids are their own

A reserved number is a `NULL` in the table, which the next search takes for free.
As long as no search comes to such a slot, the numbers of two pids in a namespace
differ, and `pid_allocated` counts the pids that are visible there.
-/

namespace MyOS2.PidAlloc

open Function Idr Option List

variable {n : NsId}

/-! ## Loops over the numbers of a pid -/

section Loops
variable {f : Nat → PidNs → Option PidNs} {us : List Upid} {spaces spaces' : NsId → PidNs}

theorem field_update {β : Type} (g : PidNs → β) {ns : PidNs} (h : g ns = g (spaces n))
    (m : NsId) : g (update spaces n ns m) = g (spaces m) := by
  rw [apply_update fun _ => g, h, update_eq_self]

/-- The namespaces of the numbers differ, so each round meets its own. -/
theorem eachUpid_inv (hnodup : (us.map Upid.ns).Nodup) (h : eachUpid f us spaces = some spaces')
    (n : NsId) :
    (∃ u ∈ us, u.ns = n ∧ f u.nr (spaces n) = some (spaces' n)) ∨
      (∀ u ∈ us, u.ns ≠ n) ∧ spaces' n = spaces n := by
  induction us generalizing spaces with
  | nil =>
    cases h
    exact .inr ⟨nofun, rfl⟩
  | cons u us ih =>
    obtain ⟨hu, hus⟩ := nodup_cons.mp hnodup
    obtain ⟨ns, hns, hrest⟩ := bind_eq_some_iff.mp h
    rcases ih hus hrest with ⟨v, hv, rfl, heq⟩ | ⟨hne, heq⟩
    · have hvu : v.ns ≠ u.ns := fun heq => hu (heq ▸ mem_map_of_mem hv)
      rw [update_of_ne hvu] at heq
      exact .inl ⟨v, mem_cons_of_mem _ hv, rfl, heq⟩
    · by_cases hun : u.ns = n
      · subst hun
        rw [update_self] at heq
        exact .inl ⟨u, mem_cons_self, rfl, heq ▸ hns⟩
      · rw [update_of_ne (Ne.symm hun)] at heq
        exact .inr ⟨forall_mem_cons.mpr ⟨hun, hne⟩, heq⟩

theorem eachUpid_isSome (hf : ∀ u ∈ us, ∀ ns, (f u.nr ns).isSome = true) :
    ∃ spaces', eachUpid f us spaces = some spaces' := by
  induction us generalizing spaces with
  | nil => exact ⟨spaces, rfl⟩
  | cons u us ih =>
    obtain ⟨hu, hus⟩ := forall_mem_cons.mp hf
    obtain ⟨ns, hns⟩ := isSome_iff_exists.mp (hu (spaces u.ns))
    obtain ⟨spaces', hrest⟩ :
        ∃ spaces', eachUpid f us (update spaces u.ns ns) = some spaces' := ih hus
    exact ⟨spaces', by rw [eachUpid, hns]; exact hrest⟩

/-- What a loop does that writes `v` to the slots and changes `pid_allocated` by `g`. -/
theorem eachUpid_write {v : Nat} {g : Nat → Nat}
    (hf : ∀ nr ns ns', f nr ns = some ns' → ns'.idr.idrRt = update ns.idr.idrRt nr v ∧
      ns'.idr.idrNext = ns.idr.idrNext ∧ ns'.pidAllocated = g ns.pidAllocated)
    (hnodup : (us.map Upid.ns).Nodup) (h : eachUpid f us spaces = some spaces') :
    (∀ u, (spaces' u.ns).idr.idrRt u.nr = if u ∈ us then v else (spaces u.ns).idr.idrRt u.nr) ∧
    ∀ n, (spaces' n).idr.idrNext = (spaces n).idr.idrNext ∧ (spaces' n).pidAllocated =
      if us.any (·.ns == n) then g (spaces n).pidAllocated else (spaces n).pidAllocated := by
  refine ⟨fun u => ?_, fun n => ?_⟩
  · rcases eachUpid_inv hnodup h u.ns with ⟨w, hw, hns, heq⟩ | ⟨hne, heq⟩
    · have hiff : u ∈ us ↔ u.nr = w.nr := by
        refine ⟨fun hu => ?_, fun hnr => ?_⟩
        · rw [inj_on_of_nodup_map hnodup hw hu hns]
        · rwa [show u = w from Upid.mk.injEq .. ▸ ⟨hnr, hns.symm⟩]
      rw [(hf _ _ _ heq).1, update_apply]
      simp only [hiff]
    · rw [if_neg fun hu => hne u hu rfl, heq]
  · rcases eachUpid_inv hnodup h n with ⟨w, hw, rfl, heq⟩ | ⟨hne, heq⟩
    · have hany : us.any (·.ns == w.ns) = true := any_eq_true.mpr ⟨w, hw, beq_self_eq_true _⟩
      rw [if_pos hany]
      exact (hf _ _ _ heq).2
    · rw [if_neg (by simpa using hne), heq]
      exact ⟨rfl, rfl⟩

end Loops

/-! The three loops. -/

section Rounds
variable {p : PidId} {nr : Nat} {ns ns' : PidNs}

theorem publishUpid_eq (h : publishUpid p nr ns = some ns') :
    ns'.idr.idrRt = update ns.idr.idrRt nr (ptr p) ∧ ns'.idr.idrNext = ns.idr.idrNext ∧
    ns'.pidAllocated = (ns.pidAllocated + 1) % 2 ^ 32 := by
  rw [publishUpid, idrReplace] at h
  split at h
  · cases h
    exact ⟨rfl, rfl, rfl⟩
  · contradiction

theorem removeUpid_eq (h : removeUpid nr ns = some ns') :
    ns'.idr.idrRt = update ns.idr.idrRt nr 0 ∧ ns'.idr.idrNext = ns.idr.idrNext ∧
    ns'.pidAllocated = ns.pidAllocated := by
  rw [removeUpid, idrRemove] at h
  split at h
  · cases h
    exact ⟨rfl, rfl, rfl⟩
  · contradiction

/-- `pid_allocated` after one pid less. -/
def dropped (n : Nat) : Nat :=
  if (n + 2 ^ 32 - 1) % 2 ^ 32 = pidnsAdding then 0 else (n + 2 ^ 32 - 1) % 2 ^ 32

theorem dropAllocated_eq (h : dropAllocated ns = some ns') :
    ns'.idr = ns.idr ∧ ns'.pidAllocated = dropped ns.pidAllocated := by
  simp only [dropAllocated] at h
  split at h
  · split at h
    · cases h
      have hne : (ns.pidAllocated + 2 ^ 32 - 1) % 2 ^ 32 ≠ pidnsAdding := by
        simp only [pidnsAdding]
        omega
      exact ⟨rfl, by rw [dropped, if_neg hne]⟩
    · contradiction
  · split at h
    · rename_i hlast
      cases h
      exact ⟨rfl, by rw [dropped, if_pos hlast]⟩
    · rename_i hlast
      cases h
      exact ⟨rfl, by rw [dropped, if_neg hlast]⟩

theorem freeUpid_eq (h : freeUpid nr ns = some ns') :
    ns'.idr.idrRt = update ns.idr.idrRt nr 0 ∧ ns'.idr.idrNext = ns.idr.idrNext ∧
    ns'.pidAllocated = dropped ns.pidAllocated := by
  rw [freeUpid, bind_eq_bind, bind_eq_some_iff] at h
  obtain ⟨ns₁, hdrop, hremove⟩ := h
  obtain ⟨hidr, hcount⟩ := dropAllocated_eq hdrop
  obtain ⟨hrt, hnext, hsame⟩ := removeUpid_eq hremove
  rw [hidr] at hrt hnext
  exact ⟨hrt, hnext, hsame.trans hcount⟩

end Rounds

/-! ## Tables and pids -/

def Status.entry (p : PidId) : Status → Nat
  | .published _ => ptr p
  | .free | .reserving _ | .failed _ _ | .stuck _ => 0

theorem Alloc.outUnlock_eq (a : Alloc) :
    a.outUnlock.numbers = a.numbers ∧ (∀ p, a.outUnlock.entry p = 0) ∧
      (∀ us, a.outUnlock ≠ .published us) ∧ ∀ a', a.outUnlock ≠ .reserving a' := by
  rw [Alloc.outUnlock]
  split <;> exact ⟨rfl, fun _ => rfl, by simp, by simp⟩

/-- Every number is entered in the table of its namespace and belongs to one pid. -/
structure Tables (spaces : NsId → PidNs) (pid : PidId → Status) : Prop where
  cursor : ∀ n, (spaces n).idr.idrNext ≤ myosIdrBufSize
  inside : ∀ p, ∀ u ∈ (pid p).numbers, u.nr < myosIdrBufSize
  stored : ∀ p, ∀ u ∈ (pid p).numbers, (spaces u.ns).idr.idrRt u.nr = (pid p).entry p
  unique : ∀ p q, p ≠ q → ∀ u ∈ (pid p).numbers, u ∉ (pid q).numbers
  distinct : ∀ p, ((pid p).numbers.map Upid.ns).Nodup

variable {x : Nat}

section Tables
variable {spaces spaces' : NsId → PidNs} {pid : PidId → Status} {p : PidId} {status : Status}

section

variable (h : Tables spaces pid)
include h

theorem Tables.set (hcursor : ∀ n, (spaces' n).idr.idrNext ≤ myosIdrBufSize)
    (hothers : ∀ q, q ≠ p → ∀ u ∈ (pid q).numbers,
      (spaces' u.ns).idr.idrRt u.nr = (spaces u.ns).idr.idrRt u.nr)
    (hnew : ∀ u ∈ status.numbers, u.nr < myosIdrBufSize ∧
      (spaces' u.ns).idr.idrRt u.nr = status.entry p ∧ ∀ q, q ≠ p → u ∉ (pid q).numbers)
    (hdistinct : (status.numbers.map Upid.ns).Nodup) :
    Tables spaces' (update pid p status) := by
  have hall := fun P => (forall_update_iff pid (a := p) (b := status) P).mpr
  refine ⟨hcursor, hall (fun _ st => ∀ u ∈ st.numbers, u.nr < _) ⟨?_, ?_⟩,
    hall (fun q st => ∀ u ∈ st.numbers, (spaces' u.ns).idr.idrRt u.nr = st.entry q) ⟨?_, ?_⟩,
    hall (fun q st => ∀ r, q ≠ r → ∀ u ∈ st.numbers, u ∉ (update pid p status r).numbers)
      ⟨fun r hr => ?_, fun q hq => ?_⟩, hall (fun _ st => (st.numbers.map _).Nodup) ⟨hdistinct, ?_⟩⟩
  · exact fun u hu => (hnew u hu).1
  · exact fun q _ => h.inside q
  · exact fun u hu => (hnew u hu).2.1
  · exact fun q hq u hu => (hothers q hq u hu).trans (h.stored q u hu)
  · rw [update_of_ne hr.symm]
    exact fun u hu => (hnew u hu).2.2 r hr.symm
  · exact hall (fun r st => q ≠ r → ∀ u ∈ (pid q).numbers, u ∉ st.numbers)
      ⟨fun _ u hu hmem => (hnew u hmem).2.2 q hq hu, fun r _ => h.unique q r⟩
  · exact fun q _ => h.distinct q

theorem Tables.congr (hrt : ∀ n, (spaces' n).idr.idrRt = (spaces n).idr.idrRt)
    (hnext : ∀ n, (spaces' n).idr.idrNext ≤ myosIdrBufSize) : Tables spaces' pid :=
  ⟨hnext, h.inside, fun p u hu => hrt u.ns ▸ h.stored p u hu, h.unique, h.distinct⟩

theorem Tables.rename (hnumbers : status.numbers = (pid p).numbers)
    (hentry : status.entry p = (pid p).entry p) :
    Tables spaces (update pid p status) := by
  refine h.set h.cursor (fun _ _ _ _ => rfl) ?_ (hnumbers ▸ h.distinct p)
  rw [hnumbers, hentry]
  exact fun u hu => ⟨h.inside p u hu, h.stored p u hu, fun q hq => h.unique p q hq.symm u hu⟩

theorem Tables.add {idr : IdrS}
    (hnumbers : status.numbers = ⟨x, n⟩ :: (pid p).numbers) (hentry : status.entry p = 0)
    (hold : (pid p).entry p = 0) (hx : x < myosIdrBufSize) (hnull : (spaces n).idr.idrRt x = 0)
    (hrt : idr.idrRt = (spaces n).idr.idrRt) (hnext : idr.idrNext ≤ myosIdrBufSize)
    (hfresh : ∀ q, (⟨x, n⟩ : Upid) ∉ (pid q).numbers) (hns : ∀ u ∈ (pid p).numbers, u.ns ≠ n) :
    Tables (update spaces n { spaces n with idr }) (update pid p status) := by
  have hslots : ∀ u : Upid, (update spaces n { spaces n with idr } u.ns).idr.idrRt u.nr =
      (spaces u.ns).idr.idrRt u.nr :=
    fun u => congrFun (field_update (fun ns => ns.idr.idrRt) hrt u.ns) u.nr
  refine h.set ?_ (fun q _ u _ => hslots u) ?_ ?_
  · exact (forall_update_iff spaces fun _ ns => ns.idr.idrNext ≤ _).mpr ⟨hnext, fun m _ => h.cursor m⟩
  · rw [hnumbers, hentry]
    refine forall_mem_cons.mpr ⟨⟨hx, (hslots _).trans hnull, fun q _ => hfresh q⟩, ?_⟩
    intro u hu
    refine ⟨h.inside p u hu, (hslots u).trans ?_, fun q hq => h.unique p q hq.symm u hu⟩
    rw [h.stored p u hu, hold]
  · rw [hnumbers, map_cons, nodup_cons]
    refine ⟨fun hmem => ?_, h.distinct p⟩
    obtain ⟨u, hu, hun⟩ := mem_map.mp hmem
    exact hns u hu hun

theorem Tables.write {f : Nat → PidNs → Option PidNs} {v : Nat} {g : Nat → Nat}
    (hf : ∀ nr ns ns', f nr ns = some ns' → ns'.idr.idrRt = update ns.idr.idrRt nr v ∧
      ns'.idr.idrNext = ns.idr.idrNext ∧ ns'.pidAllocated = g ns.pidAllocated)
    {us : List Upid} (hus : us.Perm (pid p).numbers) (heach : eachUpid f us spaces = some spaces')
    (hnumbers : status.numbers = [] ∨ status.numbers = (pid p).numbers ∧ status.entry p = v) :
    Tables spaces' (update pid p status) ∧ ∀ n, (spaces' n).pidAllocated =
      if (pid p).numbers.any (·.ns == n) then g (spaces n).pidAllocated
      else (spaces n).pidAllocated := by
  have hnodup : (us.map Upid.ns).Nodup := (hus.map Upid.ns).nodup_iff.mpr (h.distinct p)
  obtain ⟨hslots, hspaces⟩ := eachUpid_write hf hnodup heach
  refine ⟨h.set (fun n => (hspaces n).1 ▸ h.cursor n) (fun q hq u hu => ?_) ?_ ?_, fun n => ?_⟩
  · rw [hslots, if_neg fun hup => h.unique q p hq u hu (hus.mem_iff.mp hup)]
  · rcases hnumbers with hnil | ⟨hsame, hentry⟩
    · rw [hnil]
      exact nofun
    · rw [hsame, hentry]
      intro u hu
      refine ⟨h.inside p u hu, ?_, fun q hq => h.unique p q hq.symm u hu⟩
      rw [hslots, if_pos (hus.mem_iff.mpr hu)]
  · rcases hnumbers with hnil | ⟨hsame, -⟩
    · rw [hnil]
      exact nodup_nil
    · rw [hsame]
      exact h.distinct p
  · rw [(hspaces n).2, hus.any_eq]

end

end Tables

variable {setTid : List Int}

/-! ## The invariant -/

namespace State

/-- The tables hold what the calls have reserved and published. -/
structure Inv (s : State) : Prop where
  nested : ∀ n, s.level n ≠ 0 → s.level (s.parent n) + 1 = s.level n
  pidMax : s.pidMax < 2 ^ 31
  tables : Tables s.spaces s.pid
  levels : ∀ p a, s.pid p = .reserving a →
    (a.todo ≠ 0 → s.level a.tmp + 1 = a.todo) ∧ ∀ u ∈ a.numbers, a.todo ≤ s.level u.ns
  isLive : ∀ p, p ∈ s.live ↔ ∃ numbers, s.pid p = .published numbers
  nodup : s.live.Nodup
  counted : ∀ n, (s.spaces n).pidAllocated =
    (if s.emptied n then 0 else pidnsAdding) + s.visibleIn n

theorem Start.inv {s : State} (h : s.Start) : s.Inv where
  nested := h.nested
  pidMax := h.pidMax
  tables := by
    constructor <;> simp [h.pid, h.idr, Status.numbers, idrInit, idrInitBase]
  levels p a hp := by
    rw [h.pid p] at hp
    contradiction
  isLive p := by
    rw [h.live, h.pid p]
    exact iff_of_false not_mem_nil (by simp)
  nodup := h.live ▸ nodup_nil
  counted n := by
    simp [h.pidAllocated n, h.emptied n, visibleIn, h.live]

/-- The numbers so far are those of the levels from `todo` on, and `tmp` is the next one down. -/
def LevelsOk (s : State) (a : Alloc) : Prop :=
  (a.todo ≠ 0 → s.level a.tmp + 1 = a.todo) ∧ ∀ u ∈ a.numbers, a.todo ≤ s.level u.ns

namespace Inv
variable {s : State} {p : PidId}

theorem visibleIn_le (h : s.Inv) (n : NsId) : s.visibleIn n ≤ myosIdrBufSize := by
  have hnr : ∀ q ∈ s.live.filter (s.visible n), ∃ nr, (⟨nr, n⟩ : Upid) ∈ (s.pid q).numbers := by
    intro q hq
    obtain ⟨⟨nr, m⟩, hu, hm⟩ := any_eq_true.mp (mem_filter.mp hq).2
    obtain rfl : m = n := beq_iff_eq.mp hm
    exact ⟨nr, hu⟩
  choose! nr hmem using hnr
  have hnodup : ((s.live.filter (s.visible n)).map nr).Nodup := by
    refine List.Nodup.map_on ?_ (h.nodup.filter _)
    intro q hq r hr heq
    by_contra hne
    exact h.tables.unique q r hne _ (hmem q hq) (heq ▸ hmem r hr)
  have hsub : (s.live.filter (s.visible n)).map nr ⊆ range myosIdrBufSize := by
    intro x hx
    obtain ⟨q, hq, rfl⟩ := mem_map.mp hx
    exact mem_range.mpr (h.tables.inside q _ (hmem q hq))
  have hle := (subperm_of_subset hnodup hsub).length_le
  rwa [length_map, length_range, ← countP_eq_length_filter] at hle

/-- One pid changes: `mine` is it if it is published then, and nothing otherwise; `rest` are the
others that are live. -/
theorem change (h : s.Inv) {spaces : NsId → PidNs} {status : Status} (mine rest : List PidId)
    {emptied : NsId → Bool} (htables : Tables spaces (update s.pid p status))
    (hlevels : ∀ a, status = .reserving a → s.LevelsOk a)
    (hmine : ∀ q, q ∈ mine ↔ q = p ∧ ∃ numbers, status = .published numbers)
    (hrest : ∀ q, q ∈ rest ↔ q ≠ p ∧ q ∈ s.live) (hnodup : mine.Nodup ∧ rest.Nodup)
    (hcount : ∀ n, (spaces n).pidAllocated = (if emptied n then 0 else pidnsAdding) +
      (mine.countP (fun _ => status.numbers.any (·.ns == n)) + rest.countP (s.visible n))) :
    Inv { s.setPid p status with spaces, live := mine ++ rest, emptied } where
  nested := h.nested
  pidMax := h.pidMax
  tables := htables
  levels := (forall_update_iff s.pid fun _ st => ∀ a, st = .reserving a → s.LevelsOk a).mpr
    ⟨hlevels, fun q _ => h.levels q⟩
  isLive := (forall_update_iff s.pid fun q st => q ∈ mine ++ rest ↔ ∃ us, st = .published us).mpr
    ⟨by simp [hmine, hrest], fun q hq => by simp [hmine, hrest, hq, h.isLive]⟩
  nodup := nodup_append.mpr ⟨hnodup.1, hnodup.2, fun q hq r hr heq =>
    ((hrest r).mp hr).1 (heq ▸ ((hmine q).mp hq).1)⟩
  counted n := by
    rw [hcount n, visibleIn, countP_append]
    congr 2
    · refine countP_congr fun q hq => ?_
      simp [visible, setPid, ((hmine q).mp hq).1]
    · refine countP_congr fun q hq => ?_
      simp [visible, setPid, ((hrest q).mp hq).1]

theorem ne_of_live (h : s.Inv) (hold : ∀ numbers, s.pid p ≠ .published numbers) (q : PidId) :
    q ∈ s.live ↔ q ≠ p ∧ q ∈ s.live := by
  refine (and_iff_right_of_imp ?_).symm
  rintro hq rfl
  obtain ⟨numbers, hpub⟩ := (h.isLive q).mp hq
  exact hold numbers hpub

theorem quiet (h : s.Inv) {spaces : NsId → PidNs} {status : Status}
    (hold : ∀ numbers, s.pid p ≠ .published numbers)
    (hnew : ∀ numbers, status ≠ .published numbers)
    (htables : Tables spaces (update s.pid p status))
    (hcount : ∀ n, (spaces n).pidAllocated = (s.spaces n).pidAllocated)
    (hlevels : ∀ a, status = .reserving a → s.LevelsOk a) :
    Inv { s.setPid p status with spaces } := by
  refine h.change [] s.live htables hlevels (by simp [hnew]) (h.ne_of_live hold)
    ⟨nodup_nil, h.nodup⟩ fun n => ?_
  rw [hcount n, h.counted n, countP_nil, Nat.zero_add, visibleIn]
  rfl

end Inv

/-! ## Reserving a number -/

def Picks (s : State) (a : Alloc) (x : Nat) : Prop :=
  match a.setTid with
  | tid :: _ => LowestNull (s.spaces a.tmp).idr.idrRt tid.toNat x
  | [] => CyclicPick (s.spaces a.tmp).idr (pidMin (s.spaces a.tmp)) x

/-- A reservation does not come to a slot that another call of `alloc_pid` has reserved, and not yet
published or given back. -/
def SearchOk (s : State) : Op → Prop
  | .reserve p => ∀ a x, s.pid p = .reserving a → Picks s a x →
      ∀ q, ⟨x, a.tmp⟩ ∉ (s.pid q).unpublished
  | _ => True

variable {s : State} {p : PidId} {a : Alloc}

theorem enter_neg {nr : Int} (hnr : nr < 0) :
    s.enter p a nr (s.spaces a.tmp).idr =
      s.setPid p (.failed a (if nr = -enospc then -eagain else nr)) := by
  have hsame : update s.spaces a.tmp (s.spaces a.tmp) = s.spaces := update_eq_self ..
  simp only [enter, hnr, if_true, hsame]

theorem update_null {rt : Nat → Nat} (hnull : rt x = 0) : update rt x 0 = rt := by
  rw [← hnull, update_eq_self]

/-- A number that can be asked for in the namespace. -/
def Valid (s : State) (n : NsId) (tid : Int) : Prop :=
  (1 ≤ tid ∧ tid < s.pidMax) ∧ (tid = 1 ∨ (s.spaces n).childReaper = true)

theorem reserve_invalid {tid : Int} (htid : a.setTid = tid :: setTid)
    (hbad : ¬ s.Valid a.tmp tid) : s.reserve p a = some (s.setPid p (.failed a (-einval))) := by
  by_cases hrange : tid < 1 ∨ s.pidMax ≤ tid
  · simp only [reserve, htid, if_pos hrange]
  · have hreaper : tid ≠ 1 ∧ (s.spaces a.tmp).childReaper = false := by
      refine ⟨fun h1 => hbad ⟨by omega, .inl h1⟩, Bool.eq_false_iff.mpr fun hset => ?_⟩
      exact hbad ⟨by omega, .inr hset⟩
    simp only [reserve, htid, if_neg hrange, if_pos hreaper]

/-- A requested number: the search stops at the first slot from there on that holds `NULL`. -/
theorem reserve_tid (hpidMax : s.pidMax < 2 ^ 31) {tid : Int}
    (htid : a.setTid = tid :: setTid) (hvalid : s.Valid a.tmp tid) :
    (∃ x, LowestNull (s.spaces a.tmp).idr.idrRt tid.toNat x ∧
      s.reserve p a = some (s.enter p { a with setTid } x (s.spaces a.tmp).idr)) ∨
    (∀ x, ¬ LowestNull (s.spaces a.tmp).idr.idrRt tid.toNat x) ∧
      s.reserve p a = some (s.setPid p (.failed { a with setTid } (-eexist))) := by
  obtain ⟨hrange, hreaper⟩ := hvalid
  have hin : ¬ (tid < 1 ∨ s.pidMax ≤ tid) := by omega
  have hset : ¬ (tid ≠ 1 ∧ (s.spaces a.tmp).childReaper = false) := by
    rintro ⟨hne, hnone⟩
    simp [hne, hnone] at hreaper
  rcases idrAlloc_cases (s.spaces a.tmp).idr 0 (tid + 1) (show 0 ≤ tid by omega) (by omega) with
    ⟨x, hx, heq⟩ | ⟨hfull, heq⟩
  · have hnr : (x : Int) ≠ -enospc := by
      rw [enospc]
      omega
    refine .inl ⟨x, hx, ?_⟩
    rw [update_null hx.1.2.2] at heq
    simp only [reserve, htid, if_neg hin, if_neg hset, heq, bind_eq_bind, bind_some, if_neg hnr]
  · refine .inr ⟨hfull, ?_⟩
    simp only [reserve, htid, if_neg hin, if_neg hset, heq, bind_eq_bind, bind_some, if_true]
    rw [enter_neg (a := { a with setTid }) (by decide), if_neg (by decide)]

/-- Either the call fails and the tables stay, or it enters a number for which the table holds
`NULL`, before and afterwards. -/
theorem reserve_cases (hcursor : (s.spaces a.tmp).idr.idrNext ≤ myosIdrBufSize)
    (hpidMax : s.pidMax < 2 ^ 31) :
    (∃ setTid retval, s.reserve p a = some (s.setPid p (.failed { a with setTid } retval))) ∨
    ∃ setTid x idr, Picks s a x ∧ x < myosIdrBufSize ∧ (s.spaces a.tmp).idr.idrRt x = 0 ∧
      idr.idrRt = (s.spaces a.tmp).idr.idrRt ∧ idr.idrNext ≤ myosIdrBufSize ∧
      s.reserve p a = some (s.enter p { a with setTid } x idr) := by
  cases htid : a.setTid with
  | nil =>
    have ha : { a with setTid := [] } = a := by rw [← htid]
    have hmin : pidMin (s.spaces a.tmp) ≤ 300 := by
      rw [pidMin, reservedPids]
      split <;> omega
    rcases idrAllocCyclic_cases (s.spaces a.tmp).idr 0 s.pidMax hcursor
      (show -2 ^ 31 ≤ (pidMin (s.spaces a.tmp) : Int) by omega) (by omega) with
      ⟨x, hx, heq⟩ | ⟨-, heq⟩
    · rw [update_null hx.null] at heq
      refine .inr ⟨[], x, { (s.spaces a.tmp).idr with idrNext := x + 1 },
        by simpa only [Picks, htid] using hx, hx.lt, hx.null, rfl, hx.lt, ?_⟩
      simp only [reserve, htid, heq, ha]
      rfl
    · refine .inl ⟨[], -eagain, ?_⟩
      simp only [reserve, htid, heq, ha, bind_eq_bind, bind_some]
      rw [enter_neg (by decide), if_pos rfl]
  | cons tid setTid =>
    by_cases hvalid : s.Valid a.tmp tid
    · rcases reserve_tid (p := p) hpidMax htid hvalid with ⟨x, hx, heq⟩ | ⟨-, heq⟩
      · exact .inr ⟨setTid, x, _, by simpa only [Picks, htid] using hx, hx.1.2.1, hx.1.2.2, rfl,
          hcursor, heq⟩
      · exact .inl ⟨setTid, -eexist, heq⟩
    · exact .inl ⟨a.setTid, -einval, reserve_invalid htid hvalid⟩

theorem enter_nat {idr : IdrS} : s.enter p { a with setTid } x idr =
      { s.setPid p (.reserving { a with
          setTid, numbers := ⟨x, a.tmp⟩ :: a.numbers, tmp := s.parent a.tmp,
          todo := a.todo - 1 }) with
        spaces := update s.spaces a.tmp { s.spaces a.tmp with idr } } := by
  rfl

theorem Inv.fresh (h : s.Inv) (hfree : ∀ q, (⟨x, n⟩ : Upid) ∉ (s.pid q).unpublished)
    (hnull : (s.spaces n).idr.idrRt x = 0) (q : PidId) : (⟨x, n⟩ : Upid) ∉ (s.pid q).numbers := by
  intro hmem
  have hstored := (h.tables.stored q _ hmem).symm.trans hnull
  have hq := hfree q
  cases hstatus : s.pid q with
  | published numbers =>
    rw [hstatus] at hstored
    exact absurd hstored (Nat.succ_ne_zero q)
  | free =>
    rw [hstatus] at hmem
    exact absurd hmem not_mem_nil
  | reserving a | failed a retval | stuck a =>
    rw [hstatus] at hmem hq
    exact hq hmem

theorem Inv.reserve (h : s.Inv) (hp : s.pid p = .reserving a) (htodo : a.todo ≠ 0)
    (hsearch : s.SearchOk (.reserve p)) : ∃ s', s.reserve p a = some s' ∧ s'.Inv := by
  have hnumbers : (s.pid p).numbers = a.numbers := by rw [hp, Status.numbers]
  have hold : ∀ numbers, s.pid p ≠ .published numbers := by
    rw [hp]
    simp
  obtain ⟨htmp, hlevel⟩ := h.levels p a hp
  rcases reserve_cases (p := p) (h.tables.cursor a.tmp) h.pidMax with ⟨setTid, retval, heq⟩ | ⟨setTid, x, idr, hpick, hx, hnull, hrt,
    hnext, heq⟩
  · refine ⟨_, heq, h.quiet hold (by simp) ?_ (fun _ => rfl) (by simp)⟩
    exact h.tables.rename (by rw [hnumbers, Status.numbers]) (by rw [hp, Status.entry, Status.entry])
  · have hns : ∀ u ∈ (s.pid p).numbers, u.ns ≠ a.tmp := by
      -- the numbers so far are those of higher levels
      intro u hu hun
      have hle : a.todo ≤ s.level a.tmp := hun ▸ hlevel u (hnumbers ▸ hu)
      omega
    rw [heq, enter_nat]
    refine ⟨_, rfl, h.quiet hold (by simp) ?_ (fun n => ?_) ?_⟩
    · refine h.tables.add (by rw [hnumbers, Status.numbers]) rfl (by rw [hp, Status.entry]) hx hnull
        hrt hnext (h.fresh (hsearch a x hp hpick) hnull) hns
    · exact field_update PidNs.pidAllocated (by rfl) n
    · rintro a' ⟨⟩
      refine ⟨fun htodo' => ?_, forall_mem_cons.mpr ⟨?_, fun u hu => ?_⟩⟩
      · have hparent := h.nested a.tmp (by simp only at htodo'; omega)
        simp only
        omega
      · change a.todo - 1 ≤ s.level a.tmp
        omega
      · have hle := hlevel u hu
        simp only
        omega

/-! ## The other sections -/

theorem Inv.allocPid (h : s.Inv) (hp : s.pid p = .free) (ns : NsId) (setTid : List Int) :
    (s.allocPid p ns setTid).2.Inv := by
  rw [State.allocPid]
  split
  · exact h
  · refine h.quiet (by simp [hp]) (by simp) ?_ (fun _ => rfl) ?_
    · exact h.tables.set h.tables.cursor (fun _ _ _ _ => rfl) (fun _ hu => absurd hu
        not_mem_nil) nodup_nil
    · rintro a' ⟨⟩
      exact ⟨fun _ => rfl, fun _ hu => absurd hu not_mem_nil⟩

theorem resetCursor_eq (m n : NsId) (spaces : NsId → PidNs) :
    (resetCursor m spaces n).idr.idrRt = (spaces n).idr.idrRt ∧
    (resetCursor m spaces n).idr.idrNext ≤ (spaces n).idr.idrNext ∧
    (resetCursor m spaces n).pidAllocated = (spaces n).pidAllocated := by
  rw [resetCursor]
  split
  · refine ⟨field_update (fun ns => ns.idr.idrRt) (by rfl) n, ?_,
      field_update PidNs.pidAllocated (by rfl) n⟩
    exact (forall_update_iff spaces fun n ns => ns.idr.idrNext ≤ (spaces n).idr.idrNext).mpr
      ⟨Nat.zero_le _, fun _ _ => Nat.le_refl _⟩ n
  · exact ⟨rfl, Nat.le_refl _, rfl⟩

theorem Inv.outFree (h : s.Inv) {retval : Int} (hp : s.pid p = .failed a retval) :
    ∃ r s', s.outFree p a retval = some (r, s') ∧ s'.Inv := by
  have hnumbers : (s.pid p).numbers = a.numbers := by rw [hp, Status.numbers]
  have hsome : ∀ u ∈ a.numbers, ∀ ns, (removeUpid u.nr ns).isSome = true := by
    intro u hu ns
    have hlt := h.tables.inside p u (hnumbers ▸ hu)
    simp [removeUpid, idrRemove, hlt]
  obtain ⟨spaces, heach⟩ : ∃ spaces, eachUpid removeUpid a.numbers s.spaces = some spaces :=
    eachUpid_isSome hsome
  obtain ⟨htables, hcount⟩ : Tables spaces (update s.pid p .free) ∧ _ :=
    h.tables.write (g := id) (fun _ _ _ => removeUpid_eq) (hnumbers ▸ .refl _) heach (.inl rfl)
  have hold : ∀ numbers, s.pid p ≠ .published numbers := by
    rw [hp]
    simp
  refine ⟨_, _, by rw [State.outFree, heach]; rfl, ?_⟩
  refine h.quiet hold (by simp) ?_ (fun n => ?_) (by simp)
  · exact htables.congr (fun n => (resetCursor_eq a.ns n spaces).1)
      fun n => Nat.le_trans (resetCursor_eq a.ns n spaces).2.1 (htables.cursor n)
  · exact (resetCursor_eq a.ns n spaces).2.2.trans ((hcount n).trans (ite_self _))

theorem Inv.publish (h : s.Inv) (hp : s.pid p = .reserving a) :
    ∃ r s', s.publish p a = some (r, s') ∧ s'.Inv := by
  have hnumbers : (s.pid p).numbers = a.numbers := by rw [hp, Status.numbers]
  have hold : ∀ numbers, s.pid p ≠ .published numbers := by
    rw [hp]
    simp
  rw [State.publish]
  split
  · obtain ⟨hsame, hentry, hnot, hdone⟩ := a.outUnlock_eq
    refine ⟨_, _, rfl, h.quiet hold hnot ?_ (fun _ => rfl) fun a' ha' => absurd ha' (hdone a')⟩
    exact h.tables.rename (hsame.trans hnumbers.symm) (by rw [hentry, hp, Status.entry])
  · have hsome : ∀ u ∈ a.numbers.reverse, ∀ ns, (publishUpid p u.nr ns).isSome = true := by
      intro u hu ns
      have hlt := h.tables.inside p u (hnumbers ▸ mem_reverse.mp hu)
      simp [publishUpid, idrReplace, hlt]
    obtain ⟨spaces, heach⟩ :
        ∃ spaces, eachUpid (publishUpid p) a.numbers.reverse s.spaces = some spaces :=
      eachUpid_isSome hsome
    have hperm : a.numbers.reverse.Perm (s.pid p).numbers := hnumbers ▸ reverse_perm _
    obtain ⟨htables, hcount⟩ : Tables spaces (update s.pid p (.published a.numbers)) ∧ _ :=
      h.tables.write (g := fun c => (c + 1) % 2 ^ 32) (fun _ _ _ => publishUpid_eq) hperm heach
        (.inr ⟨hnumbers.symm, rfl⟩)
    rw [heach]
    refine ⟨_, _, rfl, h.change [p] s.live htables (by simp) (by simp) (h.ne_of_live hold)
      ⟨nodup_singleton p, h.nodup⟩ fun n => ?_⟩
    have hbound := h.visibleIn_le n
    have hbefore := h.counted n
    have hsize : myosIdrBufSize = 32768 := rfl
    have hadding : pidnsAdding = 2147483648 := by simp [pidnsAdding]
    rw [hcount n, hnumbers, hbefore, countP_singleton, ← visibleIn]
    change _ = (if s.emptied n then 0 else pidnsAdding) +
      ((if a.numbers.any (·.ns == n) then 1 else 0) + s.visibleIn n)
    cases a.numbers.any (·.ns == n) <;> cases s.emptied n <;> simp <;> omega

/-- The last pid of a namespace takes `PIDNS_ADDING` away with it. -/
theorem dropped_add (emptied : Bool) {c : Nat} (hc : c ≤ myosIdrBufSize) :
    dropped ((if emptied then 0 else pidnsAdding) + (c + 1)) =
      (if emptied || c == 0 then 0 else pidnsAdding) + c := by
  have hsize : myosIdrBufSize = 32768 := rfl
  have hadding : pidnsAdding = 2147483648 := by simp [pidnsAdding]
  cases emptied with
  | true =>
    have hless : (c + 1 + 2 ^ 32 - 1) % 2 ^ 32 = c := by omega
    have hne : c ≠ pidnsAdding := by omega
    simp only [dropped, if_true, Nat.zero_add, hless, if_neg hne, Bool.true_or]
  | false =>
    have hless : (pidnsAdding + (c + 1) + 2 ^ 32 - 1) % 2 ^ 32 = pidnsAdding + c := by omega
    cases c with
    | zero =>
      simp only [dropped, Bool.false_eq_true, if_false, hless, Nat.add_zero, if_true, BEq.rfl,
        Bool.or_true]
    | succ c =>
      have hne : pidnsAdding + (c + 1) ≠ pidnsAdding := by omega
      simp only [dropped, Bool.false_eq_true, if_false, hless, if_neg hne, Bool.false_or,
        beq_iff_eq, Nat.add_one_ne_zero]

theorem Inv.freePid (h : s.Inv) {numbers : List Upid} (hp : s.pid p = .published numbers)
    {s' : State} (hstep : s.freePid p numbers = some s') : s'.Inv := by
  have hnumbers : (s.pid p).numbers = numbers := by rw [hp, Status.numbers]
  obtain ⟨spaces, heach, heq⟩ := bind_eq_some_iff.mp hstep
  obtain ⟨htables, hcount⟩ : Tables spaces (update s.pid p .free) ∧ _ :=
    h.tables.write (fun _ _ _ => freeUpid_eq) (hnumbers ▸ .refl _) heach (.inl rfl)
  have hlive : p ∈ s.live := (h.isLive p).mpr ⟨numbers, hp⟩
  rw [← some.inj heq]
  refine h.change [] (s.live.erase p) htables (by simp) (by simp)
    (fun q => h.nodup.mem_erase_iff) ⟨nodup_nil, h.nodup.erase p⟩ fun n => ?_
  · have hself : (s.pid p).numbers.any (·.ns == n) = s.visible n p := rfl
    have hsplit : s.visibleIn n =
        (s.live.erase p).countP (s.visible n) + if s.visible n p then 1 else 0 := by
      rw [visibleIn, (perm_cons_erase hlive).countP_eq, countP_cons]
    have hnone : (!(s.live.erase p).any (s.visible n)) =
        ((s.live.erase p).countP (s.visible n) == 0) := by
      rw [Bool.eq_iff_iff]
      simp [countP_eq_zero]
    have hbound := h.visibleIn_le n
    have hcount := hcount n
    rw [hself, h.counted n, hsplit] at hcount
    rw [hcount, hnone, countP_nil, Nat.zero_add]
    cases hvis : s.visible n p with
    | false => simp
    | true =>
      simp only [if_true, Bool.true_and] at hsplit ⊢
      exact dropped_add _ (by omega)

theorem Inv.childReaper (h : s.Inv) (n : NsId) (set : Bool) : Inv { s with
    spaces := update s.spaces n { s.spaces n with childReaper := set } } := by
  have hidr : ∀ m, (update s.spaces n { s.spaces n with childReaper := set } m).idr = _ :=
    field_update PidNs.idr (by rfl)
  refine ⟨h.nested, h.pidMax, h.tables.congr (fun m => by rw [hidr m]) fun m => ?_, h.levels,
    h.isLive, h.nodup, fun m => ?_⟩
  · rw [hidr m]
    exact h.tables.cursor m
  · exact (field_update PidNs.pidAllocated (by rfl) m).trans (h.counted m)

/-! ## Whole runs -/

/-- The sections of the calls in any order, no search coming to a number that is only reserved. -/
def StepOk (s : State) (op : Op) : Prop := s.Ok op = true ∧ s.SearchOk op

/-- A section comes back and keeps the invariant; `free_pid` may use a reaper that is gone. -/
theorem Inv.step_spec (h : s.Inv) {op : Op} (hok : s.StepOk op) :
    (∃ r s', s.step op = some (r, s') ∧ s'.Inv) ∨
      ∃ p numbers, op = .freePid p ∧ s.pid p = .published numbers := by
  obtain ⟨hok, hsearch⟩ := hok
  cases op with
  | childReaper n set => exact .inl ⟨_, _, rfl, h.childReaper n set⟩
  | allocPid p ns setTid =>
    cases hp : s.pid p with
    | free => exact .inl ⟨_, _, rfl, h.allocPid hp ns setTid⟩
    | _ => simp [Ok, hp] at hok
  | reserve p =>
    cases hp : s.pid p with
    | reserving a =>
      obtain ⟨s', hreserve, hinv⟩ := h.reserve hp (by simpa [Ok, hp] using hok) hsearch
      exact .inl ⟨none, s', by simp [State.step, hp, hreserve], hinv⟩
    | _ => simp [Ok, hp] at hok
  | publish p =>
    cases hp : s.pid p with
    | reserving a => simpa only [State.step, hp] using .inl (h.publish hp)
    | _ => simp [Ok, hp] at hok
  | outFree p =>
    cases hp : s.pid p with
    | failed a retval => simpa only [State.step, hp] using .inl (h.outFree hp)
    | _ => simp [Ok, hp] at hok
  | freePid p =>
    cases hp : s.pid p with
    | published numbers => exact .inr ⟨p, numbers, rfl, hp⟩
    | _ => simp [Ok, hp] at hok

theorem Inv.step (h : s.Inv) {op : Op} {r : Option (Except Int PidId)} {s' : State}
    (hok : s.StepOk op) (hstep : s.step op = some (r, s')) : s'.Inv := by
  obtain ⟨r₁, s₁, heq, hinv⟩ | ⟨p, numbers, rfl, hp⟩ := h.step_spec hok
  · cases heq.symm.trans hstep
    exact hinv
  · simp only [State.step, hp] at hstep
    obtain ⟨s₁, hfree, heq⟩ := map_eq_some_iff.mp hstep
    exact (Prod.mk.inj heq).2 ▸ h.freePid hp hfree

theorem inv_of_reachable (h : Reachable step StepOk Start s) : s.Inv :=
  h.invariant (fun _ => Start.inv) fun _ _ _ _ hinv hok hstep => hinv.step hok hstep

/-- As long as no search comes to a number that is only reserved, no two pids have a number in
common, published or not, and `pid_allocated` counts the published ones on top of `PIDNS_ADDING`,
which goes when a namespace loses its last one. The sections of `alloc_pid` come back. -/
theorem numbered_of_reachable (h : Reachable step StepOk Start s) :
    (∀ p q, p ≠ q → ∀ u ∈ (s.pid p).numbers, ∀ v ∈ (s.pid q).numbers, u.ns = v.ns → u.nr ≠ v.nr) ∧
    (∀ n, (s.spaces n).pidAllocated = (if s.emptied n then 0 else pidnsAdding) + s.visibleIn n) ∧
    (s.live.Nodup ∧ ∀ p, p ∈ s.live ↔ ∃ numbers, s.pid p = .published numbers) ∧
    ∀ op, s.StepOk op → (∀ p, op ≠ .freePid p) → (s.step op).isSome = true := by
  have hinv := inv_of_reachable h
  refine ⟨?_, hinv.counted, ⟨hinv.nodup, hinv.isLive⟩, ?_⟩
  · rintro p q hpq ⟨nr, ns⟩ hu ⟨nr', ns'⟩ hv rfl rfl
    exact hinv.tables.unique p q hpq _ hu hv
  · intro op hok hfree
    obtain ⟨r, s', heq, -⟩ | ⟨p, -, hop, -⟩ := hinv.step_spec hok
    · simp [heq]
    · exact absurd hop (hfree p)

section Turns
variable {s' : State} {q : PidId} {op : Op} {r : Option (Except Int PidId)}

theorem enter_pid_of_ne {nr : Int} {idr : IdrS} (hne : q ≠ p) : (s.enter p a nr idr).pid q = s.pid q := by
  rw [enter]
  split <;> exact update_of_ne hne ..

theorem reserve_pid_of_ne (h : s.reserve p a = some s') (hne : q ≠ p) : s'.pid q = s.pid q := by
  simp only [reserve] at h
  split at h
  · split at h
    · exact some.inj h ▸ update_of_ne hne ..
    · split at h
      · exact some.inj h ▸ update_of_ne hne ..
      · obtain ⟨x, -, hx⟩ := bind_eq_some_iff.mp h
        exact some.inj hx ▸ enter_pid_of_ne hne
  · obtain ⟨x, -, hx⟩ := bind_eq_some_iff.mp h
    exact some.inj hx ▸ enter_pid_of_ne hne

/-- A section is about one pid. -/
theorem step_pid_of_ne (h : s.step op = some (r, s')) (hne : op.pid ≠ some q) :
    s'.pid q = s.pid q := by
  have hq : ∀ p, op.pid = some p → q ≠ p := fun p hp heq => hne (heq ▸ hp)
  cases op with
  | childReaper n set =>
    cases h
    rfl
  | allocPid p ns setTid =>
    have hs' : s' = (s.allocPid p ns setTid).2 := (congrArg Prod.snd (some.inj h)).symm
    rw [hs', allocPid]
    split
    · rfl
    · exact update_of_ne (hq p rfl) ..
  | reserve p =>
    simp only [step] at h
    split at h
    · obtain ⟨s₁, hres, heq⟩ := map_eq_some_iff.mp h
      cases heq
      exact reserve_pid_of_ne hres (hq p rfl)
    · contradiction
  | publish p =>
    simp only [step] at h
    split at h
    · rw [publish] at h
      split at h
      · cases h
        exact update_of_ne (hq p rfl) ..
      · obtain ⟨spaces, -, heq⟩ := bind_eq_some_iff.mp h
        cases heq
        exact update_of_ne (hq p rfl) ..
    · contradiction
  | outFree p =>
    simp only [step] at h
    split at h
    · obtain ⟨spaces, -, heq⟩ := bind_eq_some_iff.mp h
      cases heq
      exact update_of_ne (hq p rfl) ..
    · contradiction
  | freePid p =>
    simp only [step] at h
    split at h
    · obtain ⟨s₁, hfree, heq⟩ := map_eq_some_iff.mp h
      obtain ⟨spaces, -, heq'⟩ := bind_eq_some_iff.mp hfree
      cases heq
      cases heq'
      exact update_of_ne (hq p rfl) ..
    · contradiction

/-- The sections of the calls for the pids `ps` in turn, none reserving a number in a namespace where
another one has reserved one. -/
def InTurn (ps : List PidId) (s : State) (op : Op) : Bool :=
  s.Ok op && op.pid.any (· ∈ ps) &&
    match op with
    | .reserve p =>
      match s.pid p with
      | .reserving a => ps.all fun q => (s.pid q).unpublished.all (·.ns != a.tmp)
      | _ => true
    | _ => true

theorem reachable_of_inTurn {ps : List PidId}
    (h : Reachable step (fun s op => InTurn ps s op = true) Start s) :
    Reachable step StepOk Start s ∧ ∀ q, q ∉ ps → s.pid q = .free := by
  induction h with
  | start hs => exact ⟨.start hs, fun q _ => hs.pid q⟩
  | @call s s' op r _ hok hstep ih =>
    obtain ⟨⟨hokay, hcaller⟩, hsearch⟩ : (s.Ok op = true ∧ op.pid.any (· ∈ ps) = true) ∧ _ := by
      simpa only [InTurn, Bool.and_eq_true] using hok
    refine ⟨.call ih.1 ⟨hokay, ?_⟩ hstep, fun q hq => ?_⟩
    · cases op with
      | reserve p =>
        intro a x hp _ q hmem
        simp only [hp, List.all_eq_true, bne_iff_ne] at hsearch
        by_cases hq : q ∈ ps
        · exact hsearch q hq _ hmem rfl
        · rw [ih.2 q hq] at hmem
          exact absurd hmem not_mem_nil
      | _ => trivial
    · rw [step_pid_of_ne hstep, ih.2 q hq]
      intro heq
      simp [heq, hq] at hcaller

end Turns

/-- A chain of namespaces, each inside the one before it. -/
def boot : State where
  parent := Nat.pred
  level := id
  pidMax := 0x8000
  spaces := fun _ => { idr := idrInit, pidAllocated := pidnsAdding, childReaper := true }
  pid := fun _ => .free
  live := []
  emptied := fun _ => false

theorem start_boot : boot.Start :=
  ⟨fun _ h => Nat.succ_pred h, by decide, fun _ => rfl, fun _ => rfl, fun _ => rfl, rfl, fun _ => rfl⟩

/-- Pid 7 is published in the namespace 1 and the one around it; pid 8 has a number in the first so
far. -/
theorem reachable_nested : ∃ s, Reachable step StepOk Start s ∧
    (s.live, (s.pid 7).numbers, (s.pid 8).numbers) = ([7], [⟨1, 0⟩, ⟨1, 1⟩], [⟨2, 1⟩]) := by
  have hrun : ∃ s, Reachable step (fun s op => InTurn [7, 8] s op = true) Start s ∧
      decide ((s.live, (s.pid 7).numbers, (s.pid 8).numbers) =
        ([7], [⟨1, 0⟩, ⟨1, 1⟩], [⟨2, 1⟩])) = true :=
    Reachable.exists_of_run start_boot [.allocPid 7 1 [], .reserve 7, .reserve 7, .publish 7,
      .allocPid 8 1 [], .reserve 8] (by decide +kernel)
  obtain ⟨s, hs, hlast⟩ := hrun
  exact ⟨s, (reachable_of_inTurn hs).1, of_decide_eq_true hlast⟩

/-- One pid is published in both namespaces, the other has its first number. -/
theorem numbered_of_reachable_nested : ∃ s, Reachable step StepOk Start s ∧
    (s.live, (s.pid 7).numbers, (s.pid 8).numbers) = ([7], [⟨1, 0⟩, ⟨1, 1⟩], [⟨2, 1⟩]) ∧
    (∀ p q, p ≠ q → ∀ u ∈ (s.pid p).numbers, ∀ v ∈ (s.pid q).numbers, u.ns = v.ns → u.nr ≠ v.nr) ∧
    ∀ n, (s.spaces n).pidAllocated = (if s.emptied n then 0 else pidnsAdding) + s.visibleIn n := by
  obtain ⟨s, hs, hlast⟩ := reachable_nested
  obtain ⟨hunique, hcounted, -⟩ := numbered_of_reachable hs
  exact ⟨s, hs, hlast, hunique, hcounted⟩

/-- `find_pid_ns` finds a pid under each of its numbers as soon as it is published, and under none
before. -/
theorem findPidNs_of_reachable {u : Upid} (h : Reachable step StepOk Start s)
    (hu : u ∈ (s.pid p).numbers) :
    s.findPidNs u.nr u.ns = some (if p ∈ s.live then ptr p else 0) := by
  have hinv := inv_of_reachable h
  rw [findPidNs, idrFind, if_pos (hinv.tables.inside p u hu), hinv.tables.stored p u hu]
  have hlive := hinv.isLive p
  cases hp : s.pid p <;> simp [Status.entry, hlive, hp]

/-- A number that is published, and one that is only reserved. -/
theorem findPidNs_of_reserved : ∃ s, Reachable step StepOk Start s ∧
    s.findPidNs 1 0 = some (ptr 7) ∧ s.findPidNs 2 1 = some 0 := by
  obtain ⟨s, hs, hlast⟩ := reachable_nested
  simp only [Prod.mk.injEq] at hlast
  obtain ⟨hlive, h7, h8⟩ := hlast
  refine ⟨s, hs, ?_, ?_⟩
  · rw [findPidNs_of_reachable (u := ⟨1, 0⟩) (p := 7) hs (by simp [h7]), hlive]
    rfl
  · rw [findPidNs_of_reachable (u := ⟨2, 1⟩) (p := 8) hs (by simp [h8]), hlive]
    rfl

/-- One pid is allocated and freed: the counter is then not `PIDNS_ADDING` but 0. -/
theorem adding_lost : ∃ s, Reachable step (fun s op => s.Ok op = true) Start s ∧
    s.visibleIn 0 = 0 ∧ (s.spaces 0).pidAllocated ≠ pidnsAdding + s.visibleIn 0 := by
  have hrun : (Reachable.run step (fun s op => s.Ok op = true) boot
      [.allocPid 7 0 [], .reserve 7, .publish 7, .freePid 7]).any (fun s =>
        decide (s.visibleIn 0 = 0 ∧
          (s.spaces 0).pidAllocated ≠ pidnsAdding + s.visibleIn 0)) = true := by
    decide +kernel
  obtain ⟨s, hs, hprop⟩ := Reachable.exists_of_run start_boot _ hrun
  exact ⟨s, hs, of_decide_eq_true hprop⟩

end State

end MyOS2.PidAlloc
