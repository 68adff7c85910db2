import MyOS2.Sched.MmLifetime
import MyOS2.Sched.Proofs.ContextSwitch

/-!
# Address spaces are not released

`mmput` does nothing when the last user is gone, `do_exit` does not call it, and
`mmdrop` frees without looking at a counter. So the lifetime of address spaces is
right just as long as none of them comes to its end.
-/

namespace MyOS2.ContextSwitch.Life

open Function Option Nat

variable {n : Nat} {s s' : Life n} {next : Fin n} {m : Mm}

/-! ## Who has which address space -/

/-- Who has which address space, whether the tasks are alive or not. -/
structure Shape (s : Life n) : Prop where
  borrowed : ∃ m, s.activeMm s.curr = some m
  user : ∀ t m, s.mm t = some m → s.activeMm t = some m
  kernel : ∀ t, t ≠ s.curr → s.mm t = none → s.activeMm t = none
  named : ∀ t m, s.mm t = some m → s.Made m
  active : ∀ t m, s.activeMm t = some m → m = initMm ∨ s.Made m
  next : 0 < s.nextMm

/-- The address space was released, and nobody knows it. -/
structure Gone (s : Life n) (m : Mm) : Prop where
  released : s.released m = 1
  unmapped : s.mapped m = false
  unknown : ∀ t, s.mm t ≠ some m ∧ s.activeMm t ≠ some m

/-- The address space is in use and whole. -/
structure Lives (s : Life n) (m : Mm) : Prop where
  hasUser : s.HasUser m
  mapped : s.mapped m = true
  released : s.released m = 0

/-- No address space has come to its end, up to those that nobody ever had. -/
structure Kept (s : Life n) : Prop where
  shape : s.Shape
  owned : ∀ m, s.Made m → s.Lives m ∨ s.Gone m
  unmade : ∀ m, ¬ s.Made m → s.released m = 0

structure Inv (s : Life n) : Prop extends Kept s where
  curr : s.alive s.curr = true

theorem Start.inv (h : s.Start) : s.Inv where
  shape := ⟨h.borrowed, h.user, h.kernel, h.named, h.active, h.next⟩
  curr := h.curr
  owned m hm := .inl ⟨(h.owned m hm).1, (h.owned m hm).2, h.unreleased m⟩
  unmade m _ := h.unreleased m

theorem Inv.lifetime (h : s.Inv) : s.Lifetime := by
  refine ⟨?_, ?_, ?_, ?_⟩
  · intro m
    by_cases hm : s.Made m
    · rcases h.owned m hm with hlives | hgone
      · exact hlives.released.symm ▸ zero_le 1
      · exact hgone.released.le
    · exact (h.unmade m hm).symm ▸ zero_le 1
  · rintro m hpos ⟨t, -, ht⟩
    by_cases hm : s.Made m
    · rcases h.owned m hm with hlives | hgone
      · exact absurd hlives.released hpos.ne'
      · exact ht.elim (hgone.unknown t).1 (hgone.unknown t).2
    · exact absurd (h.unmade m hm) hpos.ne'
  · intro m hm hunused
    rcases h.owned m hm with ⟨⟨t, halive, ht⟩, -, -⟩ | hgone
    · exact absurd ⟨t, halive, .inl ht⟩ hunused
    · exact hgone.released
  · intro m hm hnone
    rcases h.owned m hm with hlives | hgone
    · exact absurd hlives.hasUser hnone
    · exact hgone.unmapped

theorem Inv.lives_of_mm (h : s.Inv) {t : Fin n} (ht : s.mm t = some m) : s.Lives m :=
  (h.owned m (h.shape.named t m ht)).resolve_right fun hgone => (hgone.unknown t).1 ht

theorem Shape.not_made_next (s : Life n) : ¬ s.Made s.nextMm := fun h => lt_irrefl _ h.2

theorem Shape.unknown_next (h : s.Shape) (t : Fin n) :
    s.mm t ≠ some s.nextMm ∧ s.activeMm t ≠ some s.nextMm := by
  refine ⟨fun ht => not_made_next s (h.named t _ ht), fun ht => ?_⟩
  rcases h.active t _ ht with hinit | hmade
  · exact absurd hinit h.next.ne'
  · exact not_made_next s hmade

/-! ## A switch -/

theorem Shape.switchTo (h : s.Shape) (hne : next ≠ s.curr) :
    ∃ s', s.switchTo next = some s' ∧ s'.Shape ∧ s'.curr = next ∧ s'.mm = s.mm ∧
      s'.alive = s.alive ∧ s'.mapped = s.mapped ∧ s'.released = s.released ∧
      s'.nextMm = s.nextMm ∧ ∀ t m, s'.activeMm t = some m → ∃ t', s.activeMm t' = some m := by
  have howners : State.Owners (fun _ => 1) s.toState :=
    ⟨fun t m ht => ⟨h.user t m ht, one_pos⟩, h.kernel, by
      obtain ⟨m, hm⟩ := h.borrowed
      rw [hm]
      nofun⟩
  obtain ⟨t, m, hm, hswitch, hcurr, howners', hmm, -, hactive⟩ := howners.contextSwitch_eq hne
  have hfrom : ∀ k j, t.activeMm k = some j → ∃ k', s.activeMm k' = some j := by
    intro k j hj
    rw [hactive k] at hj
    split at hj
    · exact ⟨s.curr, hm.trans hj⟩
    · split at hj
      · exact absurd hj nofun
      · exact ⟨k, hj⟩
  refine ⟨{ s with toState := t }, by rw [Life.switchTo, hswitch]; rfl, ?_, hcurr, hmm, rfl, rfl,
    rfl, rfl, hfrom⟩
  refine ⟨ne_none_iff_exists'.mp howners'.curr, fun k j hk => (howners'.user k j hk).1,
    howners'.kernel, ?_, ?_, h.next⟩
  · intro k j hk
    exact h.named k j (by rw [← hmm]; exact hk)
  · intro k j hk
    obtain ⟨k', hk'⟩ := hfrom k j hk
    exact h.active k' j hk'

theorem Kept.switchTo (h : s.Kept) (hne : next ≠ s.curr) (halive : s.alive next = true)
    (hswitch : s.switchTo next = some s') : s'.Inv := by
  obtain ⟨s₁, hs₁, hshape, hcurr, hmm, halive₁, hmapped, hreleased, hnext, hfrom⟩ :=
    h.shape.switchTo hne
  obtain rfl : s₁ = s' := some.inj (hs₁.symm.trans hswitch)
  refine ⟨⟨hshape, ?_, ?_⟩, by rw [hcurr, halive₁, halive]⟩
  · intro m hm
    have hm : s.Made m := ⟨hm.1, hnext ▸ hm.2⟩
    rcases h.owned m hm with ⟨⟨t, ht, htm⟩, hmap, hrel⟩ | hgone
    · exact .inl ⟨⟨t, by rw [halive₁, ht], by rw [hmm, htm]⟩, by rw [hmapped, hmap],
        by rw [hreleased, hrel]⟩
    · refine .inr ⟨by rw [hreleased, hgone.released], by rw [hmapped, hgone.unmapped], ?_⟩
      intro t
      refine ⟨by rw [hmm]; exact (hgone.unknown t).1, fun ht => ?_⟩
      obtain ⟨t', ht'⟩ := hfrom t m ht
      exact (hgone.unknown t').2 ht'
  · intro m hm
    rw [hreleased]
    exact h.unmade m fun hmade => hm ⟨hmade.1, hnext ▸ hmade.2⟩

/-! ## A task gets another address space -/

/-- A task gets the address space `o`, which is one that lives or the next one, and every address
space that it had before has another user. -/
structure Given (s : Life n) (t : Fin n) (o : Option Mm) (s' : Life n) : Prop where
  mm : s'.mm = update s.mm t o
  activeMm : s'.activeMm = update s.activeMm t o
  curr : s'.curr = s.curr
  alive : s'.alive = update s.alive t true
  released : s'.released = s.released
  nextMm : s.nextMm ≤ s'.nextMm
  mapped : ∀ m, s.Made m → s'.mapped m = s.mapped m
  made : ∀ m, s'.Made m → s.Made m ∨ (o = some m ∧ s'.mapped m = true)
  given : ∀ m, o = some m → s'.Made m ∧ (s.Made m → s.Lives m)
  kernel : o = none → t ≠ s.curr
  left : ∀ m, s.alive t = true → s.mm t = some m → ∃ k, k ≠ t ∧ s.alive k = true ∧ s.mm k = some m

section

variable {t : Fin n} {o : Option Mm}

theorem Given.made_of_made (g : s.Given t o s') (hm : s.Made m) :
    s'.Made m := ⟨hm.1, lt_of_lt_of_le hm.2 g.nextMm⟩

theorem Shape.give (h : s.Shape) (g : s.Given t o s') : s'.Shape := by
  refine ⟨?_, ?_, ?_, ?_, ?_, lt_of_lt_of_le h.next g.nextMm⟩
  · rw [g.curr, g.activeMm]
    by_cases htc : s.curr = t
    · rw [← htc, update_self]
      exact ne_none_iff_exists'.mp fun hnone => g.kernel hnone htc.symm
    · rw [update_of_ne htc]
      exact h.borrowed
  · intro k m hk
    rw [g.mm] at hk
    rw [g.activeMm]
    by_cases hkt : k = t
    · subst hkt
      rwa [update_self] at hk ⊢
    · rw [update_of_ne hkt] at hk ⊢
      exact h.user k m hk
  · intro k hkc hk
    rw [g.curr] at hkc
    rw [g.mm] at hk
    rw [g.activeMm]
    by_cases hkt : k = t
    · subst hkt
      rwa [update_self] at hk ⊢
    · rw [update_of_ne hkt] at hk ⊢
      exact h.kernel k hkc hk
  · intro k m hk
    rw [g.mm] at hk
    by_cases hkt : k = t
    · subst hkt
      rw [update_self] at hk
      exact (g.given m hk).1
    · rw [update_of_ne hkt] at hk
      exact g.made_of_made (h.named k m hk)
  · intro k m hk
    rw [g.activeMm] at hk
    by_cases hkt : k = t
    · subst hkt
      rw [update_self] at hk
      exact .inr (g.given m hk).1
    · rw [update_of_ne hkt] at hk
      exact (h.active k m hk).imp_right g.made_of_made

theorem Given.hasUser (g : s.Given t o s') (h : s.HasUser m) : s'.HasUser m := by
  obtain ⟨k, halive, hk⟩ := h
  -- the task itself may have been the user, but then there is another one
  obtain ⟨k, hkt, halive, hk⟩ : ∃ k, k ≠ t ∧ s.alive k = true ∧ s.mm k = some m := by
    by_cases hkt : k = t
    · subst hkt
      exact g.left m halive hk
    · exact ⟨k, hkt, halive, hk⟩
  exact ⟨k, by rw [g.alive, update_of_ne hkt, halive], by rw [g.mm, update_of_ne hkt, hk]⟩

theorem Inv.give (h : s.Inv) (g : s.Given t o s') : s'.Inv := by
  refine ⟨⟨h.shape.give g, ?_, ?_⟩, ?_⟩
  · intro m hm'
    by_cases hm : s.Made m
    · rcases h.owned m hm with hlives | hgone
      · exact .inl ⟨g.hasUser hlives.hasUser, by rw [g.mapped m hm, hlives.mapped],
          by rw [g.released, hlives.released]⟩
      · refine .inr ⟨by rw [g.released, hgone.released], by rw [g.mapped m hm, hgone.unmapped], ?_⟩
        have ho : o ≠ some m := by
          intro ho
          have hzero := ((g.given m ho).2 hm).released
          rw [hgone.released] at hzero
          contradiction
        intro k
        rw [g.mm, g.activeMm]
        by_cases hkt : k = t
        · subst hkt
          rw [update_self, update_self]
          exact ⟨ho, ho⟩
        · rw [update_of_ne hkt, update_of_ne hkt]
          exact hgone.unknown k
    · obtain ⟨ho, hmapped⟩ := (g.made m hm').resolve_left hm
      refine .inl ⟨⟨t, by rw [g.alive, update_self], ?_⟩, hmapped, ?_⟩
      · rw [g.mm, update_self, ho]
      · rw [g.released, h.unmade m hm]
  · intro m hm
    rw [g.released]
    exact h.unmade m fun hmade => hm (g.made_of_made hmade)
  · rw [g.curr, g.alive]
    by_cases htc : s.curr = t
    · rw [← htc, update_self]
    · rw [update_of_ne htc, h.curr]

end

/-! ## The calls -/

theorem Inv.setUsers (h : s.Inv) (m : Mm) (users : Nat) : (s.setUsers m users).Inv :=
  ⟨⟨⟨h.shape.borrowed, h.shape.user, h.shape.kernel, h.shape.named, h.shape.active, h.shape.next⟩,
    fun m hm => (h.owned m hm).imp (fun hl => ⟨hl.hasUser, hl.mapped, hl.released⟩)
      fun hg => ⟨hg.released, hg.unmapped, hg.unknown⟩, h.unmade⟩, h.curr⟩

theorem made_succ (hnext : s'.nextMm = s.nextMm + 1) (hm : s'.Made m) :
    s.Made m ∨ m = s.nextMm := by
  rcases Nat.lt_succ_iff_lt_or_eq.mp (hnext ▸ hm.2) with hlt | heq
  · exact .inl ⟨hm.1, hlt⟩
  · exact .inr heq

theorem Shape.given_new (h : s.Shape) {t : Fin n}
    (hmm : s'.mm = update s.mm t (some s.nextMm))
    (hactive : s'.activeMm = update s.activeMm t (some s.nextMm))
    (hcurr : s'.curr = s.curr) (halive : s'.alive = update s.alive t true)
    (hreleased : s'.released = s.released) (hnext : s'.nextMm = s.nextMm + 1)
    (hmapped : s'.mapped = update s.mapped s.nextMm true)
    (hleft : ∀ m, s.alive t = true → s.mm t = some m →
      ∃ k, k ≠ t ∧ s.alive k = true ∧ s.mm k = some m) :
    s.Given t (some s.nextMm) s' := by
  refine ⟨hmm, hactive, hcurr, halive, hreleased, hnext ▸ le_succ _, ?_, ?_, ?_, nofun, hleft⟩
  · intro m hm
    have hne : m ≠ s.nextMm := fun heq => not_made_next s (heq ▸ hm)
    rw [hmapped, update_of_ne hne]
  · intro m hm
    refine (made_succ hnext hm).imp_right ?_
    rintro rfl
    exact ⟨rfl, by rw [hmapped, update_self]⟩
  · intro m hm
    cases hm
    refine ⟨⟨h.next.ne', by rw [hnext]; exact lt_succ_self _⟩, fun hmade => ?_⟩
    exact absurd hmade (not_made_next s)

theorem Inv.clone (h : s.Inv) {vm : Bool} {r : CloneResult n} (hok : s.Ok (.clone vm r))
    (hkeeps : s.KeepsUsers (.clone vm r)) : (s.clone vm r).Inv := by
  cases hmm : s.mm s.curr with
  | none =>
    cases r with
    | done child =>
      have hchild : s.alive child = false := hok
      have hne : child ≠ s.curr := fun heq => by simp [heq, h.curr] at hchild
      have hgiven : s.Given child none (s.clone vm (.done child)) := by
        simp only [Life.clone, hmm]
        exact ⟨rfl, rfl, rfl, rfl, rfl, le_refl _, fun _ _ => rfl, fun m hm => .inl hm, nofun,
          fun _ => hne, fun m halive => by simp [hchild] at halive⟩
      exact h.give hgiven
    | _ => simpa only [Life.clone, hmm] using h
  | some old =>
    have hlives := h.lives_of_mm hmm
    cases vm with
    | true =>
      cases r with
      | done child =>
        have hchild : s.alive child = false := hok
        have hgiven : s.Given child (some old) (s.clone true (.done child)) := by
          simp only [Life.clone, hmm, if_true]
          refine ⟨rfl, rfl, rfl, rfl, rfl, le_refl _, fun _ _ => rfl, fun m hm => .inl hm, ?_,
            nofun, fun m halive => by simp [hchild] at halive⟩
          intro m hm
          cases hm
          exact ⟨h.shape.named _ _ hmm, fun _ => hlives⟩
        exact h.give hgiven
      | _ =>
        simp only [Life.clone, hmm, if_true]
        exact (h.setUsers old _).setUsers old _
    | false =>
      cases r with
      | noMm => simpa [Life.clone, hmm] using h
      | done child =>
        have hchild : s.alive child = false := hok
        have hgiven : s.Given child (some s.nextMm) (s.clone false (.done child)) := by
          refine h.shape.given_new ?_ ?_ ?_ ?_ ?_ ?_ ?_ fun m halive => by simp [hchild] at halive
          all_goals simp [Life.clone, hmm, mmAlloc, setMm, setMapped, Life.setUsers, hlives.mapped]
        exact h.give hgiven
      | _ => simp [KeepsUsers, hmm] at hkeeps

theorem Inv.not_lifetime (h : s.Inv) (hmm : s'.mm = s.mm) (hactive : s'.activeMm = s.activeMm)
    (hreleased : s'.released = s.released) (hnext : s'.nextMm = s.nextMm + 1) : ¬ s'.Lifetime := by
  intro hlife
  have hmade : s'.Made s.nextMm := ⟨h.shape.next.ne', by rw [hnext]; exact lt_succ_self _⟩
  have hone := hlife.freed s.nextMm hmade ?_
  · rw [hreleased, h.unmade _ (Shape.not_made_next s)] at hone
    contradiction
  · rintro ⟨t, -, ht⟩
    rw [hmm, hactive] at ht
    exact ht.elim (h.shape.unknown_next t).1 (h.shape.unknown_next t).2

theorem Inv.not_lifetime_clone (h : s.Inv) {vm : Bool} {r : CloneResult n}
    (hkeeps : ¬ s.KeepsUsers (.clone vm r)) : ¬ (s.clone vm r).Lifetime := by
  simp only [KeepsUsers, not_or] at hkeeps
  obtain ⟨hmm, hvm, hr, hdone⟩ := hkeeps
  obtain ⟨old, hmm⟩ := ne_none_iff_exists'.mp hmm
  obtain rfl : vm = false := by simpa using hvm
  cases r with
  | noMm => exact absurd rfl hr
  | done child => exact absurd ⟨child, rfl⟩ hdone
  | _ =>
    apply h.not_lifetime
    all_goals simp [Life.clone, hmm, mmput, mmAlloc, setMapped, Life.setUsers]

/-- The current task has a new address space in place of `old`. -/
def loaded (s : Life n) (old : Mm) : Life n :=
  ((s.mmAlloc.setMapped s.nextMm true).setMm s.curr (some s.nextMm)).mmput old

theorem execve_own {old : Mm} (hmm : s.mm s.curr = some old)
    (hactive : s.activeMm s.curr = some old) : s.execve false .done = some (s.loaded old) := by
  simp [Life.execve, execMmap, mmAlloc, setMapped, setUsers, hmm, hactive, loaded]

theorem execve_adopt (hactive : s.activeMm s.curr = some m) :
    s.execve true .done = some (s.loaded m) := by
  simp [Life.execve, execMmap, mmAlloc, setMm, setMapped, setUsers, hactive, loaded, mmput]

section

variable (h : s.Inv)
include h

theorem Inv.given_loaded (old : Mm)
    (hleft : ∀ m, s.mm s.curr = some m → ∃ k, k ≠ s.curr ∧ s.alive k = true ∧ s.mm k = some m) :
    s.Given s.curr (some s.nextMm) (s.loaded old) := by
  have halive : update s.alive s.curr true = s.alive := by
    rw [← h.curr, update_eq_self]
  refine h.shape.given_new ?_ ?_ ?_ ?_ ?_ ?_ ?_ fun m _ => hleft m
  all_goals simp [loaded, mmput, mmAlloc, setMm, setMapped, Life.setUsers, halive]

theorem Inv.noStack (hdrop : s.mmAlloc.mmdrop s.nextMm = some s') : s'.Inv := by
  have hne : s.nextMm ≠ initMm := h.shape.next.ne'
  rw [mmdrop, if_neg hne] at hdrop
  have hs' := some.inj hdrop
  have hmade : ∀ m, s'.Made m → s.Made m ∨ m = s.nextMm := fun m => made_succ (by rw [← hs']; rfl)
  have hmono : ∀ m, s.Made m → s'.Made m := by
    intro m hm
    rw [← hs']
    exact ⟨hm.1, lt_succ_of_lt hm.2⟩
  -- nothing else changes
  have hold : ∀ m, m ≠ s.nextMm → s'.released m = s.released m ∧ s'.mapped m = s.mapped m := by
    intro m hm
    rw [← hs']
    exact ⟨by simp [hm, mmAlloc, setMapped, Life.setUsers], by
      simp [hm, mmAlloc, setMapped, Life.setUsers]⟩
  have hmm : s'.mm = s.mm ∧ s'.activeMm = s.activeMm ∧ s'.curr = s.curr ∧ s'.alive = s.alive := by
    rw [← hs']
    exact ⟨rfl, rfl, rfl, rfl⟩
  obtain ⟨hmm, hactive, hcurr, halive⟩ := hmm
  refine ⟨⟨⟨?_, ?_, ?_, ?_, ?_, ?_⟩, ?_, ?_⟩, by rw [halive, hcurr, h.curr]⟩
  · rw [hactive, hcurr]
    exact h.shape.borrowed
  · rw [hmm, hactive]
    exact h.shape.user
  · rw [hmm, hactive, hcurr]
    exact h.shape.kernel
  · intro t m ht
    exact hmono m (h.shape.named t m (by rw [← hmm, ht]))
  · intro t m ht
    exact (h.shape.active t m (by rw [← hactive, ht])).imp_right (hmono m)
  · rw [← hs']
    exact succ_pos _
  · intro m hm
    by_cases hnew : m = s.nextMm
    · subst hnew
      refine .inr ⟨?_, ?_, ?_⟩
      · have hzero := h.unmade _ (Shape.not_made_next s)
        rw [← hs']
        simp [mmAlloc, setMapped, Life.setUsers, hzero]
      · rw [← hs']
        simp [mmAlloc, setMapped, Life.setUsers]
      · rw [hmm, hactive]
        exact h.shape.unknown_next
    · obtain ⟨hreleased, hmapped⟩ := hold m hnew
      rcases h.owned m ((hmade m hm).resolve_right hnew) with ⟨⟨t, ht, htm⟩, hmap, hrel⟩ | hgone
      · exact .inl ⟨⟨t, by rw [halive, ht], by rw [hmm, htm]⟩, by rw [hmapped, hmap],
          by rw [hreleased, hrel]⟩
      · refine .inr ⟨by rw [hreleased, hgone.released], by rw [hmapped, hgone.unmapped], ?_⟩
        rw [hmm, hactive]
        exact hgone.unknown
  · intro m hm
    have hnew : m ≠ s.nextMm := by
      rintro rfl
      refine hm ?_
      rw [← hs']
      exact ⟨h.shape.next.ne', lt_succ_self _⟩
    rw [(hold m hnew).1]
    exact h.unmade m fun hmade => hm (hmono m hmade)

theorem Inv.execve {adopt : Bool} {r : ExecResult} (hok : s.Ok (.exec adopt r))
    (hkeeps : s.KeepsUsers (.exec adopt r)) (hexec : s.execve adopt r = some s') : s'.Inv := by
  cases r with
  | noMm =>
    cases adopt with
    | true => simp [Life.execve] at hexec
    | false =>
      obtain rfl : s = s' := by simpa [Life.execve] using hexec
      exact h
  | noStack =>
    cases adopt with
    | true => simp [Life.execve] at hexec
    | false => exact h.noStack hexec
  | early => exact absurd hkeeps id
  | done =>
    cases hmm : s.mm s.curr with
    | none =>
      obtain rfl : adopt = true := by simpa [KeepsUsers, hmm] using hkeeps
      obtain ⟨m, hm⟩ := h.shape.borrowed
      obtain rfl := some.inj ((execve_adopt hm).symm.trans hexec)
      exact h.give (h.given_loaded m (by simp [hmm]))
    | some old =>
      obtain rfl : adopt = false := by
        cases adopt with
        | true => exact absurd ((hok rfl).symm.trans hmm) nofun
        | false => rfl
      have hshared : ∃ t, t ≠ s.curr ∧ s.alive t = true ∧ s.mm t = some old := by
        simpa only [KeepsUsers, hmm] using hkeeps
      have hexec' := execve_own hmm (h.shape.user _ _ hmm)
      obtain rfl := some.inj (hexec'.symm.trans hexec)
      refine h.give (h.given_loaded old fun m hm => ?_)
      obtain rfl := some.inj (hmm.symm.trans hm)
      exact hshared

theorem Inv.not_lifetime_execve {adopt : Bool} {r : ExecResult}
    (hok : s.Ok (.exec adopt r)) (hkeeps : ¬ s.KeepsUsers (.exec adopt r))
    (hexec : s.execve adopt r = some s') : ¬ s'.Lifetime := by
  cases r with
  | noMm => exact absurd trivial hkeeps
  | noStack => exact absurd trivial hkeeps
  | early =>
    cases adopt with
    | true => simp [Life.execve] at hexec
    | false =>
      have hs' : (s.mmAlloc.setMapped s.nextMm true).mmput s.nextMm = s' := by
        simpa [Life.execve] using hexec
      rw [← hs']
      exact h.not_lifetime rfl rfl rfl rfl
  | done =>
    cases hmm : s.mm s.curr with
    | none =>
      -- the borrowed address space is freed, and it has a user
      obtain rfl : adopt = false := by simpa [KeepsUsers, hmm] using hkeeps
      obtain ⟨m, hm⟩ := h.shape.borrowed
      have hdrop : ((s.mmAlloc.setMapped s.nextMm true).setMm s.curr (some s.nextMm)).mmdrop m =
          some s' := by
        simpa [Life.execve, execMmap, mmAlloc, setMapped, Life.setUsers, hmm, hm] using hexec
      have hinit : m ≠ initMm := by
        rintro rfl
        simp [mmdrop] at hdrop
      have hmade := (h.shape.active _ _ hm).resolve_left hinit
      obtain ⟨t, halive, ht⟩ := ((h.owned m hmade).resolve_right
        fun hgone => (hgone.unknown s.curr).2 hm).hasUser
      have htc : t ≠ s.curr := fun heq => by simp [heq, hmm] at ht
      rw [mmdrop, if_neg hinit] at hdrop
      have hs' := some.inj hdrop
      intro hlife
      refine hlife.safe m ?_ ⟨t, ?_, .inl ?_⟩
      · rw [← hs']
        simp
      · rw [← hs']
        exact halive
      · rw [← hs']
        simpa [setMm, setMapped, mmAlloc, Life.setUsers, htc] using ht
    | some old =>
      obtain rfl : adopt = false := by
        cases adopt with
        | true => exact absurd ((hok rfl).symm.trans hmm) nofun
        | false => rfl
      have hlast : ¬ ∃ t, t ≠ s.curr ∧ s.alive t = true ∧ s.mm t = some old := by
        simpa only [KeepsUsers, hmm] using hkeeps
      obtain rfl := some.inj ((execve_own hmm (h.shape.user _ _ hmm)).symm.trans hexec)
      have hmade := h.shape.named _ _ hmm
      have hne : old ≠ s.nextMm := fun heq => Shape.not_made_next s (heq ▸ hmade)
      intro hlife
      have htorn := hlife.torn old ⟨hmade.1, lt_succ_of_lt hmade.2⟩ ?_
      · have hmapped := (h.lives_of_mm hmm).mapped
        simp [loaded, mmput, mmAlloc, setMm, setMapped, Life.setUsers, hne, hmapped] at htorn
      · rintro ⟨t, halive, ht⟩
        by_cases htc : t = s.curr
        · simp [loaded, mmput, mmAlloc, setMm, setMapped, Life.setUsers, htc, Ne.symm hne] at ht
        · refine hlast ⟨t, htc, halive, ?_⟩
          simpa [loaded, mmput, mmAlloc, setMm, setMapped, Life.setUsers, htc] using ht

theorem Inv.lifetime_doExit (hne : next ≠ s.curr) (halive : s.alive next = true)
    (hexit : s.doExit next = some s') :
    (s.KeepsUsers (.exit next) → s'.Inv) ∧ (¬ s.KeepsUsers (.exit next) → ¬ s'.Lifetime) := by
  have hshape : Shape { s with alive := update s.alive s.curr false } :=
    ⟨h.shape.borrowed, h.shape.user, h.shape.kernel, h.shape.named, h.shape.active, h.shape.next⟩
  have halive' : ∀ t, t ≠ s.curr → s.alive t = true → update s.alive s.curr false t = true := by
    intro t ht hlive
    rw [update_of_ne ht, hlive]
  constructor
  · intro hkeeps
    have hkept : Kept { s with alive := update s.alive s.curr false } := by
      refine ⟨hshape, fun m hm => ?_, h.unmade⟩
      refine (h.owned m hm).imp (fun hlives => ?_)
        fun hgone => ⟨hgone.released, hgone.unmapped, hgone.unknown⟩
      obtain ⟨⟨t, ht, htm⟩, hmapped, hreleased⟩ := hlives
      refine ⟨?_, hmapped, hreleased⟩
      by_cases htc : t = s.curr
      · subst htc
        obtain ⟨k, hkc, hk, hkm⟩ := hkeeps m htm
        exact ⟨k, halive' k hkc hk, hkm⟩
      · exact ⟨t, halive' t htc ht, htm⟩
    exact hkept.switchTo hne (halive' next hne halive) hexit
  · intro hkeeps hlife
    simp only [KeepsUsers, not_forall] at hkeeps
    obtain ⟨m, hmm, hlast⟩ := hkeeps
    obtain ⟨s₁, hs₁, -, -, hmm₁, halive₁, hmapped, -, hnext, -⟩ := hshape.switchTo hne
    obtain rfl : s₁ = s' := some.inj (hs₁.symm.trans hexit)
    have hmade := h.shape.named _ _ hmm
    have htorn := hlife.torn m ⟨hmade.1, hnext ▸ hmade.2⟩ ?_
    · rw [hmapped, (h.lives_of_mm hmm).mapped] at htorn
      contradiction
    · rintro ⟨t, ht, htm⟩
      rw [halive₁] at ht
      rw [hmm₁] at htm
      by_cases htc : t = s.curr
      · simp [htc] at ht
      · exact hlast ⟨t, htc, by simpa [htc] using ht, htm⟩

/-! ## Runs -/

theorem Inv.step {op : Op n} {r : Unit} (hok : s.Ok op) (hstep : s.step op = some (r, s')) :
    (s.KeepsUsers op → s'.Inv) ∧ (¬ s.KeepsUsers op → ¬ s'.Lifetime) := by
  cases op with
  | switch next =>
    obtain ⟨s₁, hswitch, hr⟩ := map_eq_some_iff.mp hstep
    obtain rfl : s₁ = s' := congrArg Prod.snd hr
    exact ⟨fun _ => h.toKept.switchTo hok.1 hok.2 hswitch, fun hkeeps => absurd trivial hkeeps⟩
  | clone vm r =>
    obtain rfl := congrArg Prod.snd (some.inj hstep)
    exact ⟨h.clone hok, h.not_lifetime_clone⟩
  | exec adopt r =>
    obtain ⟨s₁, hexec, hr⟩ := map_eq_some_iff.mp hstep
    obtain rfl : s₁ = s' := congrArg Prod.snd hr
    exact ⟨fun hkeeps => h.execve hok hkeeps hexec,
      fun hkeeps => h.not_lifetime_execve hok hkeeps hexec⟩
  | exit next =>
    obtain ⟨s₁, hexit, hr⟩ := map_eq_some_iff.mp hstep
    obtain rfl : s₁ = s' := congrArg Prod.snd hr
    exact h.lifetime_doExit hok.1 hok.2 hexit

end

/-- As long as no address space loses its last user the lifetimes are right, and the next call keeps
them right if and only if it is such a call. -/
theorem lifetime_iff_keepsUsers
    (h : Reachable step (fun (s : Life n) op => s.Ok op ∧ s.KeepsUsers op) Start s) :
    s.Lifetime ∧ ∀ op r s', s.Ok op → s.step op = some (r, s') →
      (s'.Lifetime ↔ s.KeepsUsers op) := by
  have hinv : s.Inv :=
    h.invariant (fun s hs => hs.inv) fun s op r s' hs hop hstep => (hs.step hop.1 hstep).1 hop.2
  refine ⟨hinv.lifetime, fun op r s' hok hstep => ⟨fun hlife => ?_, fun hkeeps => ?_⟩⟩
  · by_contra hkeeps
    exact (hinv.step hok hstep).2 hkeeps hlife
  · exact ((hinv.step hok hstep).1 hkeeps).lifetime

/-! ## A process and a kernel thread -/

def oneProcess : Life 3 where
  curr := 0
  mm t := if t = 0 then some 1 else none
  activeMm t := if t = 0 then some 1 else none
  mmUsers _ := 1
  prevMm := none
  started _ := true
  alive t := t != 2
  mapped m := m == 1
  released _ := 0
  nextMm := 2

theorem start_oneProcess : oneProcess.Start := by
  have hone : ∀ t m, oneProcess.mm t = some m → m = 1 := by
    intro t m ht
    by_cases h : t = 0
    · exact (some.inj ((if_pos h).symm.trans ht)).symm
    · exact absurd ((if_neg h).symm.trans ht) nofun
  have hmade : oneProcess.Made 1 := ⟨by decide, by decide⟩
  refine ⟨rfl, ⟨1, rfl⟩, fun _ _ h => h, fun _ _ h => h, ?_, ?_, Nat.two_pos, ?_, fun _ => rfl⟩
  · intro t m ht
    exact hone t m ht ▸ hmade
  · intro t m ht
    exact .inr (hone t m ht ▸ hmade)
  · intro m hm
    have h1 : m = 1 := Nat.le_antisymm (Nat.le_of_lt_succ hm.2) (Nat.pos_of_ne_zero hm.1)
    subst h1
    exact ⟨⟨0, rfl, rfl⟩, rfl⟩

/-- The process makes a thread. -/
theorem lifetime_iff_keepsUsers_thread : ∃ s',
    oneProcess.step (.clone true (.done 2)) = some ((), s') ∧ s'.Lifetime := by
  refine ⟨_, rfl, ?_⟩
  exact ((lifetime_iff_keepsUsers (.start start_oneProcess)).2 (.clone true (.done 2)) () _ rfl
    rfl).mpr (.inr (.inl rfl))

/-- The process exits, and its pages stay; or the kernel thread executes a program, and the address
space of the process is freed. -/
theorem process_pages_stay : ∃ s₁ s₂ s₃,
    oneProcess.step (.exit 1) = some ((), s₁) ∧ ¬ s₁.Lifetime ∧
    oneProcess.step (.switch 1) = some ((), s₂) ∧
    s₂.step (.exec false .done) = some ((), s₃) ∧ ¬ s₃.Lifetime := by
  have hexit : ∃ s₁, oneProcess.step (.exit 1) = some ((), s₁) ∧ s₁.Made 1 ∧ s₁.mapped 1 = true ∧
      ∀ t, s₁.alive t = true → s₁.mm t ≠ some 1 :=
    ⟨_, rfl, ⟨by decide, by decide⟩, rfl, by decide⟩
  obtain ⟨s₁, hs₁, hmade, hmapped, hlost⟩ := hexit
  refine ⟨s₁, _, _, hs₁, fun hlife => ?_, rfl, rfl, fun hlife => ?_⟩
  · have htorn := hlife.torn 1 hmade fun ⟨t, halive, hmm⟩ => hlost t halive hmm
    exact absurd (hmapped.symm.trans htorn) (by decide)
  · exact hlife.safe 1 (by decide) ⟨0, rfl, .inl rfl⟩

end MyOS2.ContextSwitch.Life
