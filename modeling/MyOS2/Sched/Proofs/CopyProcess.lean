import MyOS2.Sched.CopyProcess

/-!
# A child shares what the flags say

For each kind of object the child has the caller's, with one more use, or an equal one of its
own, so that what either does to it the other does not see. A child without `CLONE_SIGHAND` has
the signal handlers of its parent and is not counted; a child without `CLONE_FILES` has
descriptors open that its parent has not, where the memory of its table was not zero.
-/

namespace MyOS2.Fork

open Option

/-! ## Shared and own objects -/

section Store
variable {α : Type} (before after : Addr → Option α)

def Shared (get : α → α) (parent child : Option Addr) : Prop :=
  child = parent ∧ ∀ a, parent = some a → ∃ x, before a = some x ∧ after a = some (get x)

def Own (copied : α → α → Prop) (parent child : Option Addr) : Prop :=
  (parent = none ∧ child = none) ∨
  ∃ a b x y, parent = some a ∧ child = some b ∧ b ≠ a ∧
    before a = some x ∧ after a = some x ∧ after b = some y ∧ copied x y

/-- The child shares the parent's object if the flag is set, and else it has its own. -/
def SharedIff (flag : Bool) (get : α → α) (copied : α → α → Prop)
    (parent child : Option Addr) : Prop :=
  if flag then Shared before after get parent child else Own before after copied parent child

end Store

/-- What `change` does to the objects of one of two tasks the other does not see. -/
def Unseen {ι β : Type} (o : Objects) (change : Objects → Task → ι → Objects)
    (view : Objects → Task → β) (s t : Task) : Prop :=
  ∀ i, view (change o s i) t = view o t ∧ view (change o t i) s = view o s

def Fs.Copied (x y : Fs) : Prop := y.users = 1 ∧ y.dirs = x.dirs

def Sighand.Copied (x y : Sighand) : Prop := y.count = 1 ∧ y.action = x.action

def Mm.Copied (x y : Mm) : Prop := y.users = 1 ∧ y.mem = x.mem

/-- A copy of a `files_struct_s`: every open file has a copy of its own. -/
def Files.Copied (before after : Addr → Option File) (x y : Files) : Prop :=
  y.refcount = 1 ∧ y.fdCount = x.fdCount ∧
  ∀ i, match x.fd i with
    | none => y.fd i = none
    | some f => after f = before f ∧ ∃ g, y.fd i = some g ∧ g ≠ f ∧ after g = before f

open Objects in
/-- The child has what the flags say. -/
structure SharesByFlags (o o' : Objects) (current child : Task) (flags : CloneFlags) :
    Prop where
  mm : SharedIff o.mm o'.mm (flags.has cloneVm)
    (fun m => { m with users := m.users + 1 }) Mm.Copied current.mm child.mm
  files : SharedIff o.files o'.files (flags.has cloneFiles)
    (fun f => { f with refcount := f.refcount + 1 }) (Files.Copied o.file o'.file)
    current.files child.files
  fs : SharedIff o.fs o'.fs (flags.has cloneFs)
    (fun f => { f with users := f.users + 1 }) Fs.Copied current.fs child.fs
  sighand : SharedIff o.sighand o'.sighand (flags.has cloneSighand)
    (fun s => { s with count := s.count + 1 }) Sighand.Copied
    (some current.sighand) (some child.sighand)
  mm_unseen : flags.has cloneVm = false →
    Unseen o' (fun o t (w : Nat × Nat) => o.store t w.1 w.2) memOf current child
  fd_unseen : flags.has cloneFiles = false →
    Unseen o' (fun o t (w : Fin nrOpenDefault × Option Addr) => o.setFd t w.1 w.2)
      descriptorsOf current child
  file_unseen : flags.has cloneFiles = false →
    Unseen o' (fun o t (w : Fin nrOpenDefault × Nat) => o.setFile t w.1 w.2)
      descriptorsOf current child
  fs_unseen : flags.has cloneFs = false → Unseen o' setDirs dirsOf current child
  sighand_unseen : flags.has cloneSighand = false →
    Unseen o' (fun o t (w : Fin nsig × Nat) => o.setAction t w.1 w.2) actionsOf current child

theorem SharesByFlags.has_sighand {o o' : Objects} {current child : Task}
    {flags : CloneFlags} (h : SharesByFlags o o' current child flags) (hsig : child.sighand = current.sighand) :
    flags.has cloneSighand = true := by
  cases hflag : flags.has cloneSighand with
  | true => rfl
  | false =>
    have := h.sighand
    rw [SharedIff, hflag] at this
    obtain ⟨hp, -⟩ | ⟨x, y, _, _, hp, hc, hne, -⟩ := this
    · exact absurd hp nofun
    · rw [hsig] at hc
      exact absurd (some.inj (hc.symm.trans hp)) hne

/-- The allocators answer with objects that are not in use, and the files of the caller exist. -/
structure CloneOk (o : Objects) (current : Task) (a : Answers) : Prop where
  fs : ∀ x, a.fs = some x → o.fs x = none
  files : ∀ x left, a.files = some (x, left) → o.files x = none
  file : ∀ i x, a.file i = some x → o.file x = none
  file_inj : ∀ i j x, a.file i = some x → a.file j = some x → i = j
  sighand : ∀ x, a.sighand = some x → o.sighand x = none
  mm : ∀ x mem, a.mm = some (x, mem) → o.mm x = none
  isOpen : ∀ x files, current.files = some x → o.files x = some files →
    ∀ i f, files.fd i = some f → (o.file f).isSome

/-- The signal handlers are shared; and so are the descriptors, or the caller's table has its full
size and no descriptor it does not use was left in the memory of the new table. -/
def CopiesAll (o : Objects) (current : Task) (flags : CloneFlags) (a : Answers) : Prop :=
  flags.has cloneSighand = true ∧
  (flags.has cloneFiles = true ∨
    ∀ x files new left, current.files = some x → o.files x = some files →
      a.files = some (new, left) →
      files.fdCount = nrOpenDefault ∧ ∀ i, files.fd i = none → left i = none)

variable {v : Option Addr} {o₁ : Objects}

namespace Objects

/-! ## The loop of dup_fd -/

/-- After the turns for the descriptors `done`: only files were added, open descriptors have their
copy and the others what the table held. -/
structure Duplicated (o : Objects) (old : Files) (left : Fin nrOpenDefault → Option Addr)
    (a : Answers) (done : List (Fin nrOpenDefault))
    (st : Objects × (Fin nrOpenDefault → Option Addr)) : Prop where
  others : st.1 = { o with file := st.1.file }
  kept : ∀ x, (o.file x).isSome → st.1.file x = o.file x
  copied : ∀ i ∈ done, ∀ f, old.fd i = some f →
    ∃ x, a.file i = some x ∧ st.2 i = some x ∧ st.1.file x = o.file f
  untouched : ∀ i, i ∉ done ∨ old.fd i = none → st.2 i = left i

section DupFd
variable {o : Objects} {current : Task} {old : Files} {a : Answers} {x : Addr}
  {left : Fin nrOpenDefault → Option Addr} {done : List (Fin nrOpenDefault)}
  {st st' : Objects × (Fin nrOpenDefault → Option Addr)}

theorem Duplicated.step (hok : CloneOk o current a) (hx : current.files = some x)
    (hold : o.files x = some old) (h : Duplicated o old left a done st)
    {i : Fin nrOpenDefault} (hi : i ∉ done) (hst : dupFdStep old a st i = some st') :
    Duplicated o old left a (done ++ [i]) st' := by
  cases hf : old.fd i with
  | none =>
    have : st' = st := by simpa [dupFdStep, hf] using hst.symm
    subst this
    refine ⟨h.others, h.kept, ?_, fun j hj => h.untouched j (hj.imp_left ?_)⟩
    · intro j hj f hjf
      obtain hj | rfl := List.mem_append.mp hj |>.imp_right List.mem_singleton.mp
      · exact h.copied j hj f hjf
      · exact absurd (hf ▸ hjf) nofun
    · exact fun hj hj' => hj (List.mem_append_left _ hj')
  | some f =>
    have hfile := hok.isOpen x old hx hold i f hf
    simp only [dupFdStep, hf, h.kept f hfile] at hst
    obtain ⟨file, hfile'⟩ := isSome_iff_exists.mp hfile
    cases hnew : a.file i with
    | none => simp [hfile', hnew] at hst
    | some new =>
      have hst' : (st.1.putFile new (some file), Function.update st.2 i (some new)) = st' := by
        simpa [hfile', hnew] using hst
      subst hst'
      have hfresh := hok.file i new hnew
      refine ⟨?_, ?_, ?_, ?_⟩
      · show st.1.putFile new (some file) = _
        rw [putFile, h.others]
      · intro y hy
        have hne : y ≠ new := by
          rintro rfl
          simp [hfresh] at hy
        simpa [hne] using h.kept y hy
      · intro j hj g hg
        obtain hj | rfl := List.mem_append.mp hj |>.imp_right List.mem_singleton.mp
        · obtain ⟨y, hy, hyfd, hyfile⟩ := h.copied j hj g hg
          have hji : j ≠ i := fun e => hi (e ▸ hj)
          have hne : y ≠ new := by
            rintro rfl
            exact hji (hok.file_inj j i y hy hnew)
          exact ⟨y, hy, by simpa [hji] using hyfd, by simpa [hne] using hyfile⟩
        · obtain rfl : f = g := some.inj (hf.symm.trans hg)
          exact ⟨new, hnew, by simp, by simp [hfile']⟩
      · intro j hj
        have hji : j ≠ i := by
          rintro rfl
          obtain hj | hj := hj
          · exact hj (List.mem_append_right _ (List.mem_singleton_self j))
          · exact absurd (hf ▸ hj) nofun
        simpa [hji] using h.untouched j (hj.imp_left fun hj hj' => hj (List.mem_append_left _ hj'))

-- the turns that are left, from any point of the loop
theorem Duplicated.run (hok : CloneOk o current a) (hx : current.files = some x)
    (hold : o.files x = some old) :
    ∀ (todo done : List (Fin nrOpenDefault)) (st),
      (done ++ todo).Nodup → Duplicated o old left a done st →
      todo.foldlM (dupFdStep old a) st = some st' →
      Duplicated o old left a (done ++ todo) st'
  | [], done, st, _, h, hst => by
    obtain rfl : st = st' := by simpa using hst
    simpa using h
  | i :: todo, done, st, hnd, h, hst => by
    simp only [List.foldlM_cons, bind_eq_bind] at hst
    obtain ⟨st₁, hst₁, hst⟩ := bind_eq_some_iff.mp hst
    have hi : i ∉ done := fun hi =>
      (List.nodup_append.mp hnd).2.2 i hi i (List.mem_cons_self ..) rfl
    have := Duplicated.run hok hx hold todo (done ++ [i]) st₁ (by simpa using hnd)
      (h.step hok hx hold hi hst₁) hst
    simpa using this

theorem duplicated_dupFd (hok : CloneOk o current a) (hx : current.files = some x)
    (hold : o.files x = some old)
    (hst : (List.finRange nrOpenDefault).foldlM (dupFdStep old a) (o, left) = some st) :
    Duplicated o old left a (List.finRange nrOpenDefault) st := by
  have h0 : Duplicated o old left a [] (o, left) := ⟨rfl, fun _ _ => rfl, nofun, fun _ _ => rfl⟩
  simpa using Duplicated.run hok hx hold _ [] _ (by simpa using List.nodup_finRange _) h0 hst

end DupFd

/-! ## What each copier leaves -/

section Copiers
variable {o o' : Objects} {current : Task} {flags : CloneFlags} {a : Answers}

theorem copyFs_ok (hfresh : ∀ x, a.fs = some x → o.fs x = none)
    (h : o.copyFs current flags a = some (.ok v, o')) :
    o' = { o with fs := o'.fs } ∧
    SharedIff o.fs o'.fs (flags.has cloneFs) (fun f => { f with users := f.users + 1 })
      Fs.Copied current.fs v := by
  obtain ⟨cur, hcur, h⟩ := bind_eq_some_iff.mp h
  obtain ⟨fs, hfs, h⟩ := bind_eq_some_iff.mp h
  cases hflag : flags.has cloneFs with
  | true =>
    cases hexec : fs.inExec with
    | true => simp [hflag, hexec] at h
    | false =>
      obtain ⟨rfl, rfl⟩ : some cur = v ∧ _ = o' := by simpa [hflag, hexec] using h
      refine ⟨rfl, hcur.symm, ?_⟩
      intro b hb
      obtain rfl : cur = b := some.inj (hcur.symm.trans hb)
      exact ⟨fs, hfs, by simp [hexec]⟩
  | false =>
    cases hnew : a.fs with
    | none => simp [hflag, hnew] at h
    | some new =>
      obtain ⟨rfl, rfl⟩ : some new = v ∧ _ = o' := by simpa [hflag, hnew] using h
      have hne : cur ≠ new := by
        rintro rfl
        simp [hfresh cur hnew] at hfs
      exact ⟨rfl, .inr ⟨cur, new, fs, ⟨1, false, fs.dirs⟩, hcur, rfl, hne.symm, hfs,
        by simpa [hne] using hfs, by simp, rfl, rfl⟩⟩

theorem copySighand_ok {v : Addr}
    (h : o.copySighand current flags a = some (.ok v, o')) :
    o' = { o with sighand := o'.sighand } ∧ v = current.sighand ∧
    (flags.has cloneSighand = true →
      Shared o.sighand o'.sighand (fun s => { s with count := s.count + 1 })
        (some current.sighand) (some v)) := by
  obtain ⟨sig, hsig, h⟩ := bind_eq_some_iff.mp h
  cases hflag : flags.has cloneSighand with
  | true =>
    obtain ⟨rfl, rfl⟩ : current.sighand = v ∧ _ = o' := by simpa [hflag] using h
    refine ⟨rfl, rfl, fun _ => ⟨rfl, ?_⟩⟩
    intro b hb
    obtain rfl : current.sighand = b := some.inj hb
    exact ⟨sig, hsig, by simp⟩
  | false =>
    cases hnew : a.sighand with
    | none => simp [hflag, hnew] at h
    | some new =>
      obtain ⟨rfl, rfl⟩ : current.sighand = v ∧ _ = o' := by simpa [hflag, hnew] using h
      exact ⟨rfl, rfl, nofun⟩

theorem copySignal_ok {v : Unit} (h : o.copySignal flags a = some (.ok v, o')) : o' = o := by
  rw [copySignal] at h
  split at h
  · simp at h
  · simpa using h.symm

theorem copyMm_ok (h : o.copyMm current flags a = some (.ok v, o')) : o' = { o with mm := o'.mm } ∧
    (flags.has cloneVm = true →
      Shared o.mm o'.mm (fun m => { m with users := m.users + 1 }) current.mm v) := by
  cases hmm : current.mm with
  | none =>
    obtain ⟨rfl, rfl⟩ : none = v ∧ o = o' := by simpa [copyMm, hmm] using h
    exact ⟨rfl, fun _ => ⟨rfl, nofun⟩⟩
  | some old =>
    simp only [copyMm, hmm] at h
    obtain ⟨mm, hold, h⟩ := bind_eq_some_iff.mp h
    cases hflag : flags.has cloneVm with
    | true =>
      obtain ⟨rfl, rfl⟩ : some old = v ∧ _ = o' := by simpa [hflag] using h
      refine ⟨rfl, fun _ => ⟨rfl, ?_⟩⟩
      intro b hb
      obtain rfl : old = b := some.inj hb
      exact ⟨mm, hold, by simp⟩
    | false =>
      refine ⟨?_, nofun⟩
      simp only [hflag, Bool.false_eq_true, if_false, dupMm] at h
      match hnew : a.mm with
      | none => simp [hnew] at h
      | some (new, none) => simp [hnew] at h
      | some (new, some mem) =>
        obtain ⟨-, rfl⟩ : some new = v ∧ _ = o' := by simpa [hnew] using h
        rfl

theorem copyFiles_shared (hflag : flags.has cloneFiles = true)
    (h : o.copyFiles current flags a = some (.ok v, o')) :
    o' = { o with files := o'.files } ∧
    Shared o.files o'.files (fun f => { f with refcount := f.refcount + 1 })
      current.files v := by
  cases hcur : current.files with
  | none =>
    obtain ⟨rfl, rfl⟩ : none = v ∧ o = o' := by simpa [copyFiles, hcur] using h
    exact ⟨rfl, rfl, nofun⟩
  | some x =>
    simp only [copyFiles, hcur] at h
    obtain ⟨old, hold, h⟩ := bind_eq_some_iff.mp h
    obtain ⟨rfl, rfl⟩ : some x = v ∧ _ = o' := by simpa [hflag] using h
    refine ⟨rfl, rfl, ?_⟩
    intro b hb
    obtain rfl : x = b := some.inj hb
    exact ⟨old, hold, by simp⟩

/-- What `dup_fd` has done when it succeeds. -/
structure CopiedTable (o : Objects) (current : Task) (a : Answers) (v : Option Addr)
    (o' : Objects) (x new : Addr) (old : Files) (left : Fin nrOpenDefault → Option Addr)
    (st : Objects × (Fin nrOpenDefault → Option Addr)) : Prop where
  parent : current.files = some x
  before : o.files x = some old
  answer : a.files = some (new, left)
  child : v = some new
  ne : x ≠ new
  loop : Duplicated o old left a (List.finRange nrOpenDefault) st
  after : o' = st.1.putFiles new (some ⟨1, nrOpenDefault, st.2⟩)

theorem copyFiles_own (hok : CloneOk o current a) (hflag : flags.has cloneFiles = false)
    (h : o.copyFiles current flags a = some (.ok v, o')) :
    (current.files = none ∧ v = none ∧ o' = o) ∨
    ∃ x new old left st, CopiedTable o current a v o' x new old left st := by
  cases hcur : current.files with
  | none =>
    obtain ⟨rfl, rfl⟩ : none = v ∧ o = o' := by simpa [copyFiles, hcur] using h
    exact .inl ⟨rfl, rfl, rfl⟩
  | some x =>
    simp only [copyFiles, hcur] at h
    obtain ⟨old, hold, h⟩ := bind_eq_some_iff.mp h
    simp only [hflag, Bool.false_eq_true, if_false, dupFd] at h
    match hnew : a.files with
    | none => simp [hnew, Except.map] at h
    | some (new, left) =>
      simp only [hnew, map_map] at h
      obtain ⟨st, hst, h⟩ := map_eq_some_iff.mp h
      obtain ⟨rfl, rfl⟩ : some new = v ∧ _ = o' := by simpa [Except.map] using h
      have hne : x ≠ new := by
        rintro rfl
        simp [hok.files x left hnew] at hold
      exact .inr ⟨x, new, old, left, st, hcur, hold, hnew, rfl, hne,
        duplicated_dupFd hok hcur hold hst, rfl⟩

section Table
variable {v : Option Addr} {x new : Addr} {old : Files}
  {left : Fin nrOpenDefault → Option Addr} {st : Objects × (Fin nrOpenDefault → Option Addr)}

section

variable (h : CopiedTable o current a v o' x new old left st)
include h

theorem CopiedTable.others : o' = { o with files := o'.files, file := o'.file } := by
  rw [h.after, h.loop.others]
  rfl

theorem CopiedTable.files_old : o'.files x = some old := by
  rw [h.after, h.loop.others]
  simpa [h.ne] using h.before

theorem CopiedTable.files_new : o'.files new = some ⟨1, nrOpenDefault, st.2⟩ := by
  simp [h.after]

theorem CopiedTable.file : o'.file = st.1.file := by
  simp [h.after]

end

-- an open descriptor of the caller, and its copy
theorem CopiedTable.copied (hok : CloneOk o current a)
    (h : CopiedTable o current a v o' x new old left st) {i : Fin nrOpenDefault} {f : Addr}
    (hf : old.fd i = some f) :
    o'.file f = o.file f ∧ ∃ g, st.2 i = some g ∧ o.file g = none ∧ o'.file g = o.file f := by
  rw [h.file]
  obtain ⟨g, hg, hfd, hfile⟩ := h.loop.copied i (List.mem_finRange i) f hf
  exact ⟨h.loop.kept f (hok.isOpen x old h.parent h.before i f hf), g, hfd, hok.file i g hg, hfile⟩

theorem CopiedTable.own_iff (hok : CloneOk o current a)
    (h : CopiedTable o current a v o' x new old left st) :
    Own o.files o'.files (Files.Copied o.file o'.file) current.files v ↔
      old.fdCount = nrOpenDefault ∧ ∀ i, old.fd i = none → left i = none := by
  constructor
  · rintro (⟨hx, -⟩ | ⟨x', new', old', n, hx, hv, -, hold, -, hn, hcopy⟩)
    · exact absurd (h.parent ▸ hx) nofun
    · obtain rfl : x = x' := some.inj (h.parent.symm.trans hx)
      obtain rfl : new = new' := some.inj (h.child.symm.trans hv)
      obtain rfl : old = old' := some.inj (h.before.symm.trans hold)
      obtain rfl : _ = n := some.inj (h.files_new.symm.trans hn)
      obtain ⟨-, hcount, hfd⟩ := hcopy
      refine ⟨hcount.symm, ?_⟩
      intro i hi
      have := hfd i
      rw [hi] at this
      rw [← h.loop.untouched i (.inr hi)]
      exact this
  · rintro ⟨hcount, hleft⟩
    refine .inr ⟨x, new, old, _, h.parent, h.child, h.ne.symm, h.before, h.files_old,
      h.files_new, rfl, hcount.symm, ?_⟩
    intro i
    cases hf : old.fd i with
    | none => exact (h.loop.untouched i (.inr hf)).trans (hleft i hf)
    | some f =>
      obtain ⟨hkept, g, hg, hfresh, hcopy⟩ := h.copied hok hf
      refine ⟨hkept, g, hg, ?_, hcopy⟩
      rintro rfl
      have := hok.isOpen x old h.parent h.before i g hf
      simp [hfresh] at this

end Table

end Copiers

/-! ## A clone that succeeds -/

theorem attempt_ok {α : Type} {copier : Copied α} {unwind : Objects → Option Objects}
    {next : α → Objects → Copied Task} {t : Task} {o' : Objects}
    (h : attempt copier unwind next = some (.ok t, o')) :
    ∃ v o, copier = some (.ok v, o) ∧ next v o = some (.ok t, o') := by
  match copier, h with
  | none, h => exact absurd h nofun
  | some (.error e, o), h => simp [attempt] at h
  | some (.ok v, o), h => exact ⟨v, o, rfl, h⟩

section Clone
variable {o o' : Objects} {current child : Task} {flags : CloneFlags}
  {unkillable otherPidNs : Bool} {a : Answers}

/-- The steps of a `copy_process` that succeeds. -/
structure Cloned (o : Objects) (current : Task) (flags : CloneFlags) (a : Answers)
    (child : Task) (o' o₁ o₂ o₃ : Objects) : Prop where
  files : o.copyFiles current flags a = some (.ok child.files, o₁)
  fs : o₁.copyFs current flags a = some (.ok child.fs, o₂)
  sighand : o₂.copySighand current flags a = some (.ok child.sighand, o₃)
  mm : o₃.copyMm current flags a = some (.ok child.mm, o')

theorem copyProcess_ok
    (h : o.copyProcess current flags unkillable otherPidNs a = some (.ok child, o')) :
    flagsRefused flags unkillable otherPidNs = false ∧
    ∃ o₁ o₂ o₃, Cloned o current flags a child o' o₁ o₂ o₃ := by
  rw [copyProcess] at h
  cases hflags : flagsRefused flags unkillable otherPidNs with
  | true => simp [hflags] at h
  | false =>
    cases htask : a.task with
    | false => simp [hflags, htask] at h
    | true =>
      simp only [hflags, htask, Bool.false_eq_true, Bool.not_true, if_false] at h
      obtain ⟨files, o₁, hfiles, h⟩ := attempt_ok h
      obtain ⟨fs, o₂, hfs, h⟩ := attempt_ok h
      obtain ⟨sighand, o₃, hsighand, h⟩ := attempt_ok h
      obtain ⟨_, o₄, hsignal, h⟩ := attempt_ok h
      obtain ⟨mm, o₅, hmm, h⟩ := attempt_ok h
      rw [copySignal_ok hsignal] at hmm
      cases hrest : a.rest with
      | error e => simp [hrest] at h
      | ok _ =>
        obtain ⟨rfl, rfl⟩ : _ = child ∧ o₅ = o' := by simpa [hrest] using h
        exact ⟨rfl, o₁, o₂, _, hfiles, hfs, hsighand, hmm⟩

theorem has_vm_of_sighand (h : flagsRefused flags unkillable otherPidNs = false)
    (hs : flags.has cloneSighand = true) : flags.has cloneVm = true := by
  simp only [flagsRefused, Bool.or_eq_false_iff, hs] at h
  simpa using h.1.1.1.2

/-! ## What a task changes in its own objects -/

theorem unseen_dirs {before : Addr → Option Fs} {copied : Fs → Fs → Prop}
    (h : Own before o.fs copied current.fs child.fs) : Unseen o setDirs dirsOf current child := by
  obtain ⟨hp, hc⟩ | ⟨x, y, _, _, hp, hc, hne, -⟩ := h
  · intro d
    simp [setDirs, hp, hc]
  · intro d
    simp [setDirs, dirsOf, hp, hc, hne, hne.symm]

theorem unseen_fd {before : Addr → Option Files} {copied : Files → Files → Prop}
    (h : Own before o.files copied current.files child.files) :
    Unseen o (fun o t (w : Fin nrOpenDefault × Option Addr) => o.setFd t w.1 w.2)
      descriptorsOf current child := by
  obtain ⟨hp, hc⟩ | ⟨x, y, _, _, hp, hc, hne, -⟩ := h
  · intro w
    simp [setFd, hp, hc]
  · intro w
    simp [setFd, descriptorsOf, hp, hc, hne, hne.symm]

theorem unseen_file {x y : Addr} {n m : Files} (hp : current.files = some x)
    (hc : child.files = some y) (hn : o.files x = some n) (hm : o.files y = some m)
    (hne : ∀ i j f, n.fd i = some f → m.fd j ≠ some f) :
    Unseen o (fun o t (w : Fin nrOpenDefault × Nat) => o.setFile t w.1 w.2)
      descriptorsOf current child := by
  intro w
  constructor
  · cases hf : n.fd w.1 with
    | none => simp [setFile, fileAt, hp, hn, hf]
    | some f =>
      simp only [setFile, fileAt, hp, hn, hf, bind_some, descriptorsOf, hc, hm,
        putFile_files, putFile_file, map_some, some.injEq, Prod.mk.injEq, true_and]
      funext j
      cases hg : m.fd j with
      | none => rfl
      | some g =>
        have hgf : g ≠ f := fun e => hne w.1 j f hf (e ▸ hg)
        simp [hgf]
  · cases hg : m.fd w.1 with
    | none => simp [setFile, fileAt, hc, hm, hg]
    | some g =>
      simp only [setFile, fileAt, hp, hn, hg, bind_some, descriptorsOf, hc, hm,
        putFile_files, putFile_file, map_some, some.injEq, Prod.mk.injEq, true_and]
      funext j
      cases hf : n.fd j with
      | none => rfl
      | some f =>
        have hfg : f ≠ g := fun e => hne j w.1 f hf (e ▸ hg)
        simp [hfg]

section

variable (hok : CloneOk o current a)
include hok

/-! ## The whole clone -/

theorem copyFiles_others (h : o.copyFiles current flags a = some (.ok v, o')) :
    o' = { o with files := o'.files, file := o'.file } := by
  cases hflag : flags.has cloneFiles with
  | true =>
    rw [(copyFiles_shared hflag h).1]
  | false =>
    obtain ⟨-, -, rfl⟩ | ⟨x, new, old, left, st, ht⟩ := copyFiles_own hok hflag h
    · rfl
    · exact ht.others

theorem Cloned.frame {o₂ o₃ : Objects} (h : Cloned o current flags a child o' o₁ o₂ o₃) :
    o' = ⟨o₂.fs, o₁.files, o₁.file, o₃.sighand, o'.mm⟩ ∧
    o₁.fs = o.fs ∧ o₂.sighand = o.sighand ∧ o₃.mm = o.mm := by
  have h₁ := copyFiles_others hok h.files
  have h₁fs : o₁.fs = o.fs := by rw [h₁]
  have h₂ := (copyFs_ok (h₁fs ▸ hok.fs) h.fs).1
  have h₃ := (copySighand_ok h.sighand).1
  have h₄ := (copyMm_ok h.mm).1
  refine ⟨?_, h₁fs, ?_, ?_⟩
  · rw [h₄, h₃, h₂]
  · rw [h₂, h₁]
  · rw [h₃, h₂, h₁]

section

variable (hflag : flags.has cloneFiles = false)
  (h : o.copyFiles current flags a = some (.ok child.files, o₁))
include hflag h

theorem Cloned.files_iff : Own o.files o₁.files (Files.Copied o.file o₁.file) current.files child.files ↔
      ∀ x files new left, current.files = some x → o.files x = some files →
        a.files = some (new, left) →
        files.fdCount = nrOpenDefault ∧ ∀ i, files.fd i = none → left i = none := by
  obtain ⟨hp, hc, rfl⟩ | ⟨x, new, old, left, st, ht⟩ := copyFiles_own hok hflag h
  · constructor
    · intro _ x files new left hx
      exact absurd (hp ▸ hx) nofun
    · intro _
      exact .inl ⟨hp, hc⟩
  · rw [ht.own_iff hok]
    constructor
    · intro hclean y files n l hy hfiles hn
      obtain rfl : x = y := some.inj (ht.parent.symm.trans hy)
      obtain rfl : old = files := some.inj (ht.before.symm.trans hfiles)
      obtain ⟨rfl, rfl⟩ : new = n ∧ left = l := by simpa using ht.answer.symm.trans hn
      exact hclean
    · intro hclean
      exact hclean x old new left ht.parent ht.before ht.answer

theorem unseen_file_of_own {o₂ : Objects}
    (hown : Own o.files o₁.files (Files.Copied o.file o₁.file) current.files child.files)
    (hfiles : o₂.files = o₁.files) :
    Unseen o₂ (fun o t (w : Fin nrOpenDefault × Nat) => o.setFile t w.1 w.2)
      descriptorsOf current child := by
  obtain ⟨hp, hc, rfl⟩ | ⟨x, new, old, left, st, ht⟩ := copyFiles_own hok hflag h
  · intro w
    simp [setFile, fileAt, hp, hc]
  · have hclean := ((ht.own_iff hok).mp hown).2
    refine unseen_file ht.parent ht.child (hfiles ▸ ht.files_old) (hfiles ▸ ht.files_new) ?_
    intro i j f hf hj
    -- the child's descriptor is a new file, the parent's is not
    cases hfj : old.fd j with
    | none =>
      have := (ht.loop.untouched j (.inr hfj)).trans (hclean j hfj)
      exact absurd (hj.symm.trans this) nofun
    | some f' =>
      obtain ⟨-, g, hg, hfresh, -⟩ := ht.copied hok hfj
      obtain rfl : f = g := some.inj (hj.symm.trans hg)
      have := hok.isOpen x old ht.parent ht.before i f hf
      simp [hfresh] at this

end

end

/-- A child shares exactly what the flags say if and only if it is told to share the signal handlers
and its descriptor table is shared or has no remains of an earlier one. -/
theorem sharesByFlags_iff_copiesAll (hok : CloneOk o current a)
    (h : o.copyProcess current flags unkillable otherPidNs a = some (.ok child, o')) :
    SharesByFlags o o' current child flags ↔ CopiesAll o current flags a := by
  obtain ⟨haccepted, o₁, o₂, o₃, hcl⟩ := copyProcess_ok h
  obtain ⟨ho', h₁fs, h₂sighand, h₃mm⟩ := hcl.frame hok
  have hfs := (copyFs_ok (h₁fs ▸ hok.fs) hcl.fs).2
  obtain ⟨-, hsig, hsighand⟩ := copySighand_ok hcl.sighand
  have hmm := (copyMm_ok hcl.mm).2
  rw [h₁fs] at hfs
  rw [h₂sighand] at hsighand
  rw [h₃mm] at hmm
  rw [ho']
  constructor
  · intro hshares
    constructor
    · exact hshares.has_sighand hsig
    · cases hflag : flags.has cloneFiles with
      | true => exact .inl rfl
      | false =>
        have := hshares.files
        rw [SharedIff, hflag] at this
        exact .inr ((Cloned.files_iff hok hflag hcl.files).mp this)
  · rintro ⟨hflagsig, hfiles⟩
    have hvm := has_vm_of_sighand haccepted hflagsig
    have hown : flags.has cloneFiles = false →
        Own o.files o₁.files (Files.Copied o.file o₁.file) current.files child.files := by
      intro hflag
      obtain hset | hclean := hfiles
      · exact absurd (hset.symm.trans hflag) nofun
      · exact (Cloned.files_iff hok hflag hcl.files).mpr hclean
    refine ⟨?_, ?_, hfs, ?_, ?_, ?_, ?_, ?_, ?_⟩
    · rw [SharedIff, if_pos hvm]
      exact hmm hvm
    · cases hflag : flags.has cloneFiles with
      | true => exact (copyFiles_shared hflag hcl.files).2
      | false => exact hown hflag
    · rw [SharedIff, if_pos hflagsig]
      exact hsighand hflagsig
    · exact fun hflag => absurd (hvm.symm.trans hflag) nofun
    · exact fun hflag => unseen_fd (hown hflag)
    · exact fun hflag => unseen_file_of_own hok hflag hcl.files (hown hflag) rfl
    · intro hflag
      rw [SharedIff, hflag] at hfs
      exact unseen_dirs hfs
    · exact fun hflag => absurd (hflagsig.symm.trans hflag) nofun

end Clone

/-! ## A process that clones itself -/

/-- A process with its directories at 1, its signal handlers at 2, its memory at 3 and its
descriptors at 4, the first of which is open. -/
def single : Objects where
  fs a := if a = 1 then some ⟨1, false, ⟨18, 0, 0⟩⟩ else none
  files a := if a = 4 then
    some ⟨1, nrOpenDefault, fun i => if i.val = 0 then some 5 else none⟩ else none
  file a := if a = 5 then some ⟨1, 0⟩ else none
  sighand a := if a = 2 then some ⟨1, fun _ => 0⟩ else none
  mm a := if a = 3 then some ⟨1, fun _ => 0⟩ else none

@[inherit_doc single]
def singleTask : Task := ⟨some 1, some 4, 2, some 3⟩

/-- The allocators have all that is asked for; the new table is zero. -/
def plenty : Answers where
  task := true
  files := some (14, fun _ => none)
  file i := some (20 + i.val)
  fs := some 11
  sighand := some 12
  signal := true
  mm := some (13, some fun _ => 0)
  rest := .ok ()

theorem cloneOk_plenty : CloneOk single singleTask plenty where
  fs x hx := by
    obtain rfl : 11 = x := some.inj hx
    rfl
  files x left hx := by
    obtain ⟨rfl, -⟩ : 14 = x ∧ _ = left := by simpa [plenty] using hx
    rfl
  file i x hx := by
    obtain rfl : 20 + i.val = x := some.inj hx
    have hne : 20 + i.val ≠ 5 := by omega
    exact if_neg hne
  file_inj i j x hi hj := by
    have hi : 20 + i.val = x := some.inj hi
    have hj : 20 + j.val = x := some.inj hj
    omega
  sighand x hx := by
    obtain rfl : 12 = x := some.inj hx
    rfl
  mm x mem hx := by
    obtain ⟨rfl, -⟩ : 13 = x ∧ _ = mem := by simpa [plenty] using hx
    rfl
  isOpen x files hx hfiles i f hf := by
    obtain rfl : 4 = x := some.inj hx
    obtain rfl : _ = files := some.inj hfiles
    obtain ⟨-, rfl⟩ : i.val = 0 ∧ 5 = f := by simpa using hf
    rfl

def Succeeds (c : Copied Task) : Bool :=
  match c with
  | some (.ok _, _) => true
  | _ => false

theorem Succeeds.exists {c : Copied Task} (h : Succeeds c = true) :
    ∃ t o, c = some (.ok t, o) := by
  match c, h with
  | some (.ok t, o), _ => exact ⟨t, o, rfl⟩

/-- A child that shares memory and handlers and copies the rest. -/
theorem sharesByFlags_iff_copiesAll_single :
    ∃ child o',
      single.copyProcess singleTask (cloneVm ||| cloneSighand) false false plenty =
        some (.ok child, o') ∧
      SharesByFlags single o' singleTask child (cloneVm ||| cloneSighand) := by
  obtain ⟨child, o', h⟩ := Succeeds.exists (c := single.copyProcess singleTask
    (cloneVm ||| cloneSighand) false false plenty) (by decide +kernel)
  refine ⟨child, o', h, (sharesByFlags_iff_copiesAll cloneOk_plenty h).mpr ⟨by decide, .inr ?_⟩⟩
  intro x files new left hx hfiles hnew
  obtain rfl : 4 = x := some.inj hx
  obtain rfl : _ = files := some.inj hfiles
  obtain ⟨-, rfl⟩ : 14 = new ∧ _ = left := by simpa [plenty] using hnew
  exact ⟨rfl, fun _ _ => rfl⟩

/-- The child of a plain `fork` has the handlers of its parent: a `sigaction` of the child changes
what the parent does with a signal. -/
theorem fork_keeps_parents_sighand :
    ∃ child o', single.copyProcess singleTask 0#64 false false plenty = some (.ok child, o') ∧
      child.sighand = singleTask.sighand ∧ ¬ SharesByFlags single o' singleTask child 0#64 := by
  obtain ⟨child, o', h⟩ := Succeeds.exists (c := single.copyProcess singleTask
    0#64 false false plenty) (by decide +kernel)
  obtain ⟨-, o₁, o₂, o₃, hcl⟩ := copyProcess_ok h
  have hsig := (copySighand_ok hcl.sighand).2.1
  refine ⟨child, o', h, hsig, ?_⟩
  intro hshares
  exact absurd (hshares.has_sighand hsig) (by decide)

end Objects

end MyOS2.Fork
