import MyOS2.Misc.Runs
import MyOS2.LockIPC.Signal
import Mathlib.Tactic.Common

/-!
# Signals are neither lost nor invented

The set of pending signals says of a signal what the list and the sends without
an entry say, as long as no synchronous signal is taken that is the last entry of
its number: `dequeue_synchronous_signal` leaves the bit of such a signal set, and
a later dequeue delivers it once more.
-/

namespace MyOS2.Signal

open List

/-! ## Sets of signals -/

def Valid (sig : Nat) : Prop := 1 ≤ sig ∧ sig ≤ 64

variable {sig : Nat}

theorem getLsbD_sigmask (hsig : Valid sig) (i : Nat) :
    (sigmask sig).getLsbD i = decide (i = sig - 1) := by
  have hlt : sig - 1 < 64 := by have := hsig.2; have := hsig.1; omega
  have hpow : sigmask sig = BitVec.twoPow 64 (sig - 1) := rfl
  rw [hpow, BitVec.getLsbD_twoPow]
  by_cases h : i = sig - 1
  · simp [h, hlt]
  · simp [h, Ne.symm h]

section

variable {set : Sigset} {sig sig' : Nat} (h : Valid sig) (h' : Valid sig')
include h h'

theorem sigismember_sigaddset :
    sigismember (sigaddset set sig) sig' = (sigismember set sig' || decide (sig' = sig)) := by
  obtain ⟨h1, h2⟩ := h
  obtain ⟨h1', h2'⟩ := h'
  rw [sigismember, sigaddset, BitVec.getLsbD_or, getLsbD_sigmask ⟨h1, h2⟩, sigismember]
  congr 1
  simp only [decide_eq_decide]
  omega

theorem sigismember_sigdelset :
    sigismember (sigdelset set sig) sig' = (sigismember set sig' && !decide (sig' = sig)) := by
  obtain ⟨h1, h2⟩ := h
  obtain ⟨h1', h2'⟩ := h'
  have hlt : sig' - 1 < 64 := by omega
  rw [sigismember, sigdelset, BitVec.getLsbD_and, BitVec.getLsbD_not,
    getLsbD_sigmask ⟨h1, h2⟩, sigismember]
  simp only [hlt, decide_true, Bool.true_and]
  congr 2
  simp only [decide_eq_decide]
  omega

end

/-- `next_signal` returns a signal of the set, and 0 only if the mask covers all. -/
theorem nextSignal_mem {pending : Pending} {mask : Sigset} (h : nextSignal pending mask ≠ 0) :
    Valid (nextSignal pending mask) ∧
      sigismember pending.signal (nextSignal pending mask) = true := by
  simp only [nextSignal] at h ⊢
  split at h
  · next hx =>
    rw [if_pos hx]
    -- the word the bit is taken from is not zero, and lies in the set
    obtain ⟨y, hy, hy0, hsub⟩ : ∃ y, (if pending.signal &&& ~~~mask &&& synchronousMask ≠ 0
        then pending.signal &&& ~~~mask &&& synchronousMask else pending.signal &&& ~~~mask) = y ∧
        y ≠ 0 ∧ ∀ i, y.getLsbD i = true → pending.signal.getLsbD i = true := by
      refine ⟨_, rfl, ?_, ?_⟩
      · split
        · next hs => exact hs
        · exact hx
      · intro i
        split
        · simp only [BitVec.getLsbD_and, Bool.and_eq_true]
          exact fun hi => hi.1.1
        · simp only [BitVec.getLsbD_and, Bool.and_eq_true]
          exact fun hi => hi.1
    rw [hy]
    have hffz : ffz (~~~y) = y.ctz.toNat := by simp [ffz]
    have hbit := BitVec.getLsbD_true_ctz_of_ne_zero hy0
    have hlt : y.ctz.toNat < 64 := BitVec.lt_of_getLsbD hbit
    rw [hffz]
    refine ⟨⟨by omega, by omega⟩, ?_⟩
    exact hsub _ hbit
  · exact absurd rfl h

/-! ## Lists of entries -/

theorem any_eq_ofSignal (sig : Nat) (l : List Siginfo) :
    (l.any fun q => q.signo = sig) = !(ofSignal sig l).isEmpty := by
  rw [Bool.eq_iff_iff]
  simp [ofSignal, filter_eq_nil_iff]

theorem scanList_some (sig : Nat) (first : Siginfo) (l : List Siginfo) :
    scanList sig l (some first) = (some first, !(ofSignal sig l).isEmpty) := by
  rw [← any_eq_ofSignal]
  induction l with
  | nil => rfl
  | cons q rest ih =>
    rw [scanList, any_cons]
    split
    · next hq => simp [hq]
    · next hq => simp [hq, ih]

/-- What the loop of `collect_signal` finds: the first entry of the number, and whether there is
another one. -/
theorem scanList_none (sig : Nat) (l : List Siginfo) :
    scanList sig l none =
      match ofSignal sig l with
      | [] => (none, false)
      | first :: more => (some first, !more.isEmpty) := by
  induction l with
  | nil => rfl
  | cons q rest ih =>
    rw [scanList, ofSignal, filter_cons]
    split
    · next hq =>
      rw [scanList_some]
      simp [hq, ofSignal]
    · next hq => simpa [hq, ofSignal] using ih

variable {e : Siginfo}

theorem eraseP_split {P : Siginfo → Bool} {l : List Siginfo} (h : l.find? P = some e) :
    ∃ l₁ l₂, l = l₁ ++ e :: l₂ ∧ l.eraseP P = l₁ ++ l₂ ∧ P e = true ∧ ∀ q ∈ l₁, P q = false := by
  obtain ⟨hPe, l₁, l₂, rfl, hl₁⟩ := find?_eq_some_iff_append.1 h
  have hno : ∀ q ∈ l₁, P q = false := by
    intro q hq
    simpa using hl₁ q hq
  refine ⟨l₁, l₂, rfl, ?_, hPe, hno⟩
  rw [eraseP_append_right _ (fun q hq => by simp [hno q hq]), eraseP_cons_of_pos hPe]

theorem ofSignal_append (sig : Nat) (l₁ l₂ : List Siginfo) :
    ofSignal sig (l₁ ++ l₂) = ofSignal sig l₁ ++ ofSignal sig l₂ := filter_append ..

theorem ofSignal_cons_self (q : Siginfo) (l : List Siginfo) :
    ofSignal q.signo (q :: l) = q :: ofSignal q.signo l := by simp [ofSignal]

theorem ofSignal_cons_of_ne {q : Siginfo} (h : q.signo ≠ sig) (l : List Siginfo) :
    ofSignal sig (q :: l) = ofSignal sig l := by simp [ofSignal, h]

/-! ## One list and its history -/

/-- The set agrees with what was sent and not dequeued, and what was delivered of a signal is the
beginning of what was queued for it. -/
def Pending.Agrees (p : Pending) (h : History) : Prop :=
  (∀ sig, Valid sig → (sigismember p.signal sig = true ↔ h.owed sig ≠ [] ∨ h.bare sig = true)) ∧
  ∀ sig, ofSignal sig h.delivered <+: ofSignal sig h.sent

/-- A dequeue may return `sig` with `info`: the oldest information owed for it, or else a made-up
one for a signal sent without an entry. -/
def History.Deserves (h : History) (sig : Nat) (info : Siginfo) : Prop :=
  match h.owed sig with
  | [] => h.bare sig = true ∧ info = bareInfo sig
  | e :: _ => info = e

/-- The list holds what is owed, and the set says so. -/
structure Pending.Tracks (p : Pending) (h : History) : Prop where
  split : ∀ sig, ofSignal sig h.sent = ofSignal sig h.delivered ++ ofSignal sig p.list
  bits : ∀ sig, Valid sig →
    (sigismember p.signal sig = true ↔ ofSignal sig p.list ≠ [] ∨ h.bare sig = true)
  valid : ∀ q ∈ p.list, Valid q.signo

namespace Pending.Tracks

variable {p : Pending} {h : History}

section

variable (ht : p.Tracks h)
include ht

theorem owed_eq (sig : Nat) : h.owed sig = ofSignal sig p.list := by
  rw [History.owed, ht.split, drop_left]

theorem agrees : p.Agrees h := by
  constructor
  · intro sig hsig
    rw [ht.owed_eq]
    exact ht.bits sig hsig
  · intro sig
    rw [ht.split]
    exact prefix_append _ _

theorem send (hsig : Valid sig) {entry : Option Siginfo}
    (hentry : ∀ q ∈ entry, q.signo = sig) : (p.send sig entry).Tracks (h.send sig entry) := by
  cases entry with
  | none =>
    constructor
    · simpa [Pending.send, History.send] using ht.split
    · intro sig' hsig'
      rw [Pending.send, sigismember_sigaddset hsig hsig']
      by_cases heq : sig' = sig
      · subst heq
        simp [History.send]
      · simpa [History.send, heq, Function.update_of_ne heq] using ht.bits sig' hsig'
    · simpa [Pending.send] using ht.valid
  | some q =>
    obtain rfl : q.signo = sig := hentry q rfl
    constructor
    · intro sig'
      simp [Pending.send, History.send, ofSignal_append, ht.split sig']
    · intro sig' hsig'
      rw [Pending.send, sigismember_sigaddset hsig hsig']
      by_cases heq : sig' = q.signo
      · subst heq
        simp [ofSignal_append, ofSignal_cons_self]
      · have hne : ofSignal sig' [q] = [] := ofSignal_cons_of_ne (Ne.symm heq) []
        simpa [heq, History.send, ofSignal_append, hne] using ht.bits sig' hsig'
    · intro q' hq'
      rcases mem_append.1 hq' with hq' | hq'
      · exact ht.valid q' hq'
      · obtain rfl : q' = q := by simpa using hq'
        exact hsig

/-- Taking the oldest entry of its number off the list, with a set that loses the number exactly
when it was the last. -/
theorem take {l₁ l₂ : List Siginfo} {signal : Sigset}
    (hlist : p.list = l₁ ++ e :: l₂) (hfirst : ofSignal e.signo l₁ = [])
    (hother : ∀ sig, Valid sig → sig ≠ e.signo → sigismember signal sig = sigismember p.signal sig)
    (hself : sigismember signal e.signo = true ↔ ofSignal e.signo l₂ ≠ []) :
    h.Deserves e.signo e ∧ (Pending.mk signal (l₁ ++ l₂)).Tracks (h.took e.signo e) := by
  have howed : h.owed e.signo = e :: ofSignal e.signo l₂ := by
    rw [ht.owed_eq, hlist, ofSignal_append, hfirst, ofSignal_cons_self, nil_append]
  have hne : h.owed e.signo ≠ [] := by rw [howed]; exact cons_ne_nil _ _
  have hlist' : ∀ sig, sig ≠ e.signo → ofSignal sig (l₁ ++ l₂) = ofSignal sig p.list := by
    intro sig hsig
    rw [hlist, ofSignal_append, ofSignal_append, ofSignal_cons_of_ne (Ne.symm hsig)]
  constructor
  · rw [History.Deserves, howed]
  · constructor
    · intro sig
      simp only [History.took, if_neg hne]
      by_cases heq : sig = e.signo
      · subst heq
        rw [ht.split, ← ht.owed_eq, howed, ofSignal_append, ofSignal_append, hfirst,
          ofSignal_cons_self]
        simp [ofSignal]
      · rw [ofSignal_append, ofSignal_cons_of_ne (Ne.symm heq), hlist' sig heq, ht.split sig]
        simp [ofSignal]
    · intro sig hsig
      by_cases heq : sig = e.signo
      · subst heq
        simp [History.took, ofSignal_append, hfirst, hself]
      · simp only [hother sig hsig heq, hlist' sig heq, History.took, Function.update_of_ne heq]
        exact ht.bits sig hsig
    · intro q hq
      apply ht.valid
      rw [hlist]
      rcases mem_append.1 hq with hq | hq
      · exact mem_append_left _ hq
      · exact mem_append_right _ (mem_cons_of_mem _ hq)

theorem collect (hsig : Valid sig) (hmem : sigismember p.signal sig = true) :
    h.Deserves sig (collectSignal sig p).1 ∧
      (collectSignal sig p).2.Tracks (h.took sig (collectSignal sig p).1) := by
  cases hlist : ofSignal sig p.list with
  | nil =>
    -- sent without an entry
    have hcollect : collectSignal sig p =
        (bareInfo sig, { p with signal := sigdelset p.signal sig }) := by
      rw [collectSignal, scanList_none, hlist]
    have howed : h.owed sig = [] := by rw [ht.owed_eq, hlist]
    have hbare : h.bare sig = true := by simpa [hlist] using (ht.bits sig hsig).1 hmem
    rw [hcollect]
    constructor
    · rw [History.Deserves, howed]
      exact ⟨hbare, rfl⟩
    · constructor
      · simpa [History.took, howed] using ht.split
      · intro sig' hsig'
        rw [sigismember_sigdelset hsig hsig']
        by_cases heq : sig' = sig
        · subst heq
          simp [History.took, hlist]
        · simpa [heq, History.took, Function.update_of_ne heq] using ht.bits sig' hsig'
      · exact ht.valid
  | cons first more =>
    have hfind : p.list.find? (fun q => q.signo = sig) = some first := by
      rw [← head?_filter]
      show (ofSignal sig p.list).head? = some first
      rw [hlist, head?_cons]
    obtain ⟨l₁, l₂, hsplit, herase, hfirst, hno⟩ := eraseP_split hfind
    have hfirst : first.signo = sig := by simpa using hfirst
    subst hfirst
    have hnil : ofSignal first.signo l₁ = [] := by
      rw [ofSignal, filter_eq_nil_iff]
      intro q hq
      simpa using hno q hq
    have hmore : ofSignal first.signo l₂ = more := by
      rw [hsplit, ofSignal_append, hnil, ofSignal_cons_self] at hlist
      simpa using hlist
    cases more with
    | nil =>
      have hcollect : collectSignal first.signo p =
          (first, ⟨sigdelset p.signal first.signo, l₁ ++ l₂⟩) := by
        rw [collectSignal, scanList_none, hlist]
        simp [herase]
      rw [hcollect]
      apply ht.take hsplit hnil
      · intro sig' hsig' hne
        simp [sigismember_sigdelset hsig hsig', hne]
      · simp [sigismember_sigdelset hsig hsig, hmore]
    | cons second rest =>
      have hcollect : collectSignal first.signo p = (first, ⟨p.signal, l₁ ++ l₂⟩) := by
        rw [collectSignal, scanList_none, hlist]
        simp [herase]
      rw [hcollect]
      apply ht.take hsplit hnil
      · intro sig' _ _
        rfl
      · simp [hmem, hmore]

/-- `__dequeue_signal` takes a deserved signal off, or leaves everything alone. -/
theorem dequeueFrom (mask : Sigset) (info : Siginfo) :
    (Signal.dequeueFrom p mask info = (0, info, p)) ∨
      ∃ sig info' p', Signal.dequeueFrom p mask info = (sig, info', p') ∧ Valid sig ∧
        h.Deserves sig info' ∧ p'.Tracks (h.took sig info') := by
  by_cases hsig : nextSignal p mask = 0
  · left
    simp [Signal.dequeueFrom, hsig]
  · right
    obtain ⟨hvalid, hmem⟩ := nextSignal_mem hsig
    obtain ⟨hdes, htook⟩ := ht.collect hvalid hmem
    exact ⟨_, _, _, by simp only [Signal.dequeueFrom, ne_eq, hsig, not_false_eq_true, if_true],
      hvalid, hdes, htook⟩

end

end Pending.Tracks

/-! ## Synchronous signals -/

/-- The synchronous signal `dequeue_synchronous_signal` takes, if any, is the oldest entry of its
number and not the last one. -/
def Pending.SyncOk (p : Pending) (blocked : Sigset) : Prop :=
  (p.signal &&& ~~~blocked) &&& synchronousMask ≠ 0 →
    ∀ e, p.list.find? synchronous = some e →
      ∃ another rest, ofSignal e.signo p.list = e :: another :: rest

theorem dequeueSynchronousSignal_cases (p : Pending) (blocked : Sigset) (info : Siginfo) :
    (dequeueSynchronousSignal p blocked info = (0, info, p) ∧ p.SyncOk blocked) ∨
      ∃ e, (p.signal &&& ~~~blocked) &&& synchronousMask ≠ 0 ∧
        p.list.find? synchronous = some e ∧
        dequeueSynchronousSignal p blocked info =
          (e.signo, e, ⟨p.signal, p.list.eraseP synchronous⟩) := by
  by_cases hmask : (p.signal &&& ~~~blocked) &&& synchronousMask = 0
  · left
    exact ⟨by rw [dequeueSynchronousSignal, if_pos hmask], fun h => absurd hmask h⟩
  · cases hfind : p.list.find? synchronous with
    | none =>
      left
      refine ⟨by rw [dequeueSynchronousSignal, if_neg hmask, hfind], ?_⟩
      intro _ e he
      rw [hfind] at he
      cases he
    | some e =>
      right
      have hany : (p.list.any fun q => q.signo = e.signo) = true := by
        rw [any_eq_true]
        exact ⟨e, mem_of_find?_eq_some hfind, by simp⟩
      refine ⟨e, hmask, rfl, ?_⟩
      rw [dequeueSynchronousSignal, if_neg hmask, hfind]
      simp only [hany, if_true]

/-- A synchronous dequeue returns what is deserved and leaves the set right exactly when the signal
it takes is the oldest of several. -/
theorem Pending.Tracks.sync {p : Pending} {h : History} (ht : p.Tracks h) {blocked : Sigset}
    (hmask : (p.signal &&& ~~~blocked) &&& synchronousMask ≠ 0)
    (hfind : p.list.find? synchronous = some e) :
    (h.Deserves e.signo e ∧
      (Pending.mk p.signal (p.list.eraseP synchronous)).Agrees (h.took e.signo e) ↔
        p.SyncOk blocked) ∧
    (p.SyncOk blocked →
      (Pending.mk p.signal (p.list.eraseP synchronous)).Tracks (h.took e.signo e)) := by
  obtain ⟨l₁, l₂, hsplit, herase, hsync, hno⟩ := eraseP_split hfind
  have hlist : ofSignal e.signo p.list = ofSignal e.signo l₁ ++ e :: ofSignal e.signo l₂ := by
    rw [hsplit, ofSignal_append, ofSignal_cons_self]
  have hvalid : Valid e.signo := ht.valid e (mem_of_find?_eq_some hfind)
  have hset : sigismember p.signal e.signo = true := by
    rw [ht.bits e.signo hvalid]
    left
    simp [hlist]
  -- an entry before `e` is not synchronous, so it is not `e`
  have hhead : ∀ {e' more}, ofSignal e.signo p.list = e' :: more → e = e' →
      ofSignal e.signo l₁ = [] := by
    intro e' more hcons heq
    cases hl₁ : ofSignal e.signo l₁ with
    | nil => rfl
    | cons a as =>
      rw [hlist, hl₁, cons_append] at hcons
      have hae : a = e := by rw [heq]; exact (cons.inj hcons).1
      have hmem : a ∈ l₁ := by
        have : a ∈ ofSignal e.signo l₁ := by rw [hl₁]; exact mem_cons_self
        exact (mem_filter.1 this).1
      have hfalse := hno a hmem
      rw [hae, hsync] at hfalse
      cases hfalse
  have htake : p.SyncOk blocked → h.Deserves e.signo e ∧
      (Pending.mk p.signal (p.list.eraseP synchronous)).Tracks (h.took e.signo e) := by
    intro hok
    obtain ⟨another, rest, hcons⟩ := hok hmask e hfind
    have hnil := hhead hcons rfl
    rw [herase]
    apply ht.take hsplit hnil
    · intro sig _ _
      rfl
    · rw [hlist, hnil, nil_append] at hcons
      simp [hset, (cons.inj hcons).2]
  refine ⟨⟨?_, fun hok => ⟨(htake hok).1, (htake hok).2.agrees⟩⟩, fun hok => (htake hok).2⟩
  intro hboth _ e' hfind'
  obtain ⟨hdes, hagrees⟩ := hboth
  rw [hfind] at hfind'
  cases hfind'
  have howed := ht.owed_eq e.signo
  cases hcons : ofSignal e.signo p.list with
  | nil => simp [hlist] at hcons
  | cons e' more =>
    rw [hcons] at howed
    rw [History.Deserves, howed] at hdes
    subst hdes
    -- the bit stays set, so something must still be owed
    have hleft := (hagrees.1 e.signo hvalid).1 hset
    have howed' : (h.took e.signo e).owed e.signo = more := by
      have hne : h.owed e.signo ≠ [] := by rw [howed]; exact cons_ne_nil _ _
      rw [History.owed, History.took]
      simp only [if_neg hne]
      rw [ht.split, hcons, ofSignal_append, ofSignal_cons_self]
      simp [ofSignal, drop_append]
    rw [howed'] at hleft
    have hmore : more ≠ [] := by simpa [History.took] using hleft
    obtain ⟨another, rest, rfl⟩ := exists_cons_of_ne_nil hmore
    exact ⟨another, rest, rfl⟩

/-! ## Runs -/

namespace Signals

def Agree (s : Signals) : Prop :=
  s.task.pending.Agrees s.own ∧ s.task.sharedPending.Agrees s.shared

def history (s : Signals) : PidType → History
  | .pid => s.own
  | .tgid => s.shared

/-- What a call must do: leave both sets in agreement with what was sent, and return nothing but a
deserved signal. -/
def Kept (s : Signals) : Op → Nat × Siginfo × PidType → Signals → Prop
  | .send _ _ _ _ _, _, s' => s'.Agree
  | .dequeue _ _, (sig, info, type), s' =>
    s'.Agree ∧ (sig ≠ 0 → (s.history type).Deserves sig info)

/-- A dequeue takes no synchronous signal that is the last, or not the oldest, entry of its number.
-/
def SyncOk (s : Signals) : Op → Prop
  | .send _ _ _ _ _ => True
  | .dequeue blocked _ => s.task.pending.SyncOk blocked

/-- What every run keeps in which only such signals were dequeued. -/
structure Inv (s : Signals) : Prop where
  own : s.task.pending.Tracks s.own
  shared : s.task.sharedPending.Tracks s.shared

section

variable {s : Signals}

theorem Inv.agree (h : s.Inv) : s.Agree := ⟨h.own.agrees, h.shared.agrees⟩

theorem entry_signo {info : SendInfo} {type : PidType} {alloc : Bool}
    {tgid : Int} (hok : s.Ok (.send sig info type alloc tgid)) :
    ∀ q ∈ (if queuesEntry s.task sig alloc then some (info.entry sig tgid) else none),
      q.signo = sig := by
  intro q hq
  split at hq
  · obtain rfl : info.entry sig tgid = q := Option.mem_some.1 hq
    cases info with
    | noinfo => rfl
    | priv => rfl
    | given info => exact hok.2
  · cases hq

theorem Inv.send (h : s.Inv) {info : SendInfo} {type : PidType}
    {alloc : Bool} {tgid : Int} (hok : s.Ok (.send sig info type alloc tgid)) :
    ∃ r s', s.step (.send sig info type alloc tgid) = some (r, s') ∧ s'.Inv := by
  cases type with
  | pid => exact ⟨_, _, rfl, h.own.send hok.1 (entry_signo hok), h.shared⟩
  | tgid => exact ⟨_, _, rfl, h.own, h.shared.send hok.1 (entry_signo hok)⟩

/-- A turn of `get_signal` that finds no synchronous signal. -/
theorem Inv.dequeueSignal (h : s.Inv) {blocked : Sigset} {info : Siginfo}
    (hsync : dequeueSynchronousSignal s.task.pending blocked info = (0, info, s.task.pending)) :
    ∃ r s', s.step (.dequeue blocked info) = some (r, s') ∧ s'.Inv ∧
      s.Kept (.dequeue blocked info) r s' := by
  have hget : getSignal s.task blocked info = Signal.dequeueSignal s.task blocked info := by
    simp [getSignal, hsync]
  rcases h.own.dequeueFrom blocked info with hown | ⟨sig, info', p', hown, hvalid, hdes, htook⟩
  · rcases h.shared.dequeueFrom blocked info with
      hsh | ⟨sig, info', p', hsh, hvalid, hdes, htook⟩
    · refine ⟨(0, info, .tgid), s, ?_, h, h.agree, fun h0 => absurd rfl h0⟩
      simp [Signals.step, hget, Signal.dequeueSignal, hown, hsh]
    · have hne : sig ≠ 0 := by have := hvalid.1; omega
      have hinv : Inv { s with
          task := { s.task with sharedPending := p' }
          shared := s.shared.took sig info' } := ⟨h.own, htook⟩
      refine ⟨(sig, info', .tgid), _, ?_, hinv, hinv.agree, fun _ => hdes⟩
      simp [Signals.step, hget, Signal.dequeueSignal, hown, hsh, hne]
  · have hne : sig ≠ 0 := by have := hvalid.1; omega
    have hinv : Inv { s with
        task := { s.task with pending := p' }
        own := s.own.took sig info' } := ⟨htook, h.shared⟩
    refine ⟨(sig, info', .pid), _, ?_, hinv, hinv.agree, fun _ => hdes⟩
    simp [Signals.step, hget, Signal.dequeueSignal, hown, hne]

/-- Every call returns, and does what it must exactly when it takes no synchronous signal that is
the last of its number. -/
theorem Inv.step (h : s.Inv) {op : Op} (hok : s.Ok op) :
    ∃ r s', s.step op = some (r, s') ∧ (s.Kept op r s' ↔ s.SyncOk op) ∧ (s.SyncOk op → s'.Inv) := by
  cases op with
  | send sig info type alloc tgid =>
    obtain ⟨r, s', hstep, hinv⟩ := h.send hok
    exact ⟨r, s', hstep, ⟨fun _ => trivial, fun _ => hinv.agree⟩, fun _ => hinv⟩
  | dequeue blocked info =>
    rcases dequeueSynchronousSignal_cases s.task.pending blocked info with
      ⟨hsync, hsyncOk⟩ | ⟨e, hmask, hfind, hsync⟩
    · obtain ⟨r, s', hstep, hinv, hkept⟩ := h.dequeueSignal hsync
      exact ⟨r, s', hstep, ⟨fun _ => hsyncOk, fun _ => hkept⟩, fun _ => hinv⟩
    · obtain ⟨hiff, htracks⟩ := h.own.sync hmask hfind
      have hvalid := h.own.valid e (mem_of_find?_eq_some hfind)
      have hne : e.signo ≠ 0 := by have := hvalid.1; omega
      refine ⟨(e.signo, e, .pid), { s with
          task := { s.task with pending := ⟨s.task.pending.signal,
            s.task.pending.list.eraseP synchronous⟩ }
          own := s.own.took e.signo e }, ?_, ?_, fun hok => ⟨htracks hok, h.shared⟩⟩
      · simp [Signals.step, getSignal, hsync, hne]
      · rw [SyncOk, ← hiff]
        constructor
        · intro hkept
          exact ⟨hkept.2 hne, hkept.1.1⟩
        · intro hboth
          exact ⟨⟨hboth.2, h.shared.agrees⟩, fun _ => hboth.1⟩

theorem Start.inv (h : s.Start) : s.Inv := by
  obtain ⟨⟨hp, hsp⟩, hown, hshared⟩ := h
  have hempty : (Pending.mk 0 []).Tracks ⟨[], [], fun _ => false⟩ := by
    constructor
    · intro sig
      rfl
    · intro sig _
      simp [sigismember, ofSignal]
    · intro q hq
      cases hq
  constructor
  · rw [hp, hown]
    exact hempty
  · rw [hsp, hshared]
    exact hempty

end

/-- The calls of a run are permitted and take no such synchronous signal. -/
def OkAt (s : Signals) (op : Op) : Prop := s.Ok op ∧ s.SyncOk op

theorem reachable_inv {s : Signals}
    (h : Reachable Signals.step OkAt Start s) : s.Inv := by
  refine h.invariant_of_returns (fun s hs => hs.inv) fun s op hinv hok => ?_
  obtain ⟨r, s', hstep, -, hinv'⟩ := hinv.step hok.1
  exact ⟨r, s', hstep, hinv' hok.2⟩

/-- A user task with nothing pending. -/
def idle : Signals :=
  { task := { kthread := false, pending := ⟨0, []⟩, sharedPending := ⟨0, []⟩ }
    own := ⟨[], [], fun _ => false⟩
    shared := ⟨[], [], fun _ => false⟩ }

end Signals

end MyOS2.Signal
