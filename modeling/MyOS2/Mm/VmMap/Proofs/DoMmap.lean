import MyOS2.Mm.VmMap.DoMmap
import MyOS2.Mm.VmMap.Proofs.UnmappedArea

/-!
# `MAP_FIXED_NOREPLACE`

A request with this flag is to fail with `EEXIST` where something is mapped already. The
test is one call of `find_vma_intersection`, and no other part of `do_mmap` returns that
error. So the request fails as it should exactly when it gets as far as the test and the
test finds the overlap, or when the address itself reads as that error.
-/

namespace MyOS2.Mmap

open Option

/-! ## Errors of a request -/

/-- Every error of the computation has the property. -/
def FailsWith {β : Type} (p : Nat → Prop) (x : Except Nat β) : Prop := ∀ e, x = .error e → p e

namespace FailsWith

variable {β γ : Type} {p : Nat → Prop}

theorem pure (b : β) : FailsWith p (Pure.pure b : Except Nat β) := nofun

theorem throw {e : Nat} (h : p e) : FailsWith p (throw e : Except Nat β) := by
  rintro e' he
  obtain rfl : e = e' := by simpa using Except.error.inj he
  exact h

theorem bind {x : Except Nat β} {f : β → Except Nat γ} (hx : FailsWith p x)
    (hf : ∀ b, FailsWith p (f b)) : FailsWith p (x >>= f) := by
  intro e he
  cases x with
  | error e' => exact hx e (congrArg Except.error (Except.error.inj he))
  | ok b => exact hf b e he

theorem ite {c : Prop} [Decidable c] {x y : Except Nat β} (hx : FailsWith p x)
    (hy : FailsWith p y) : FailsWith p (if c then x else y) := by
  split
  · exact hx
  · exact hy

end FailsWith

theorem fileVmFlags_ne_eexist (f : MmapFile) (prot flags pgoff len vmFlags : Nat) :
    FailsWith (· ≠ 17) (fileVmFlags f prot flags pgoff len vmFlags) := by
  repeat' first
    | exact FailsWith.pure _
    | exact FailsWith.throw (by decide)
    | apply FailsWith.ite

theorem anonVmFlags_ne_eexist (addr flags vmFlags : Nat) :
    FailsWith (· ≠ 17) (anonVmFlags addr flags vmFlags) := by
  repeat' first
    | exact FailsWith.pure _
    | exact FailsWith.throw (by decide)
    | apply FailsWith.ite

theorem reqArea_ne_eexist (r : MmapReq) (prot flags vmFlags addr len : Nat) :
    FailsWith (· ≠ 17) (reqArea r prot flags vmFlags addr len) := by
  unfold reqArea
  split
  · exact FailsWith.bind (fileVmFlags_ne_eexist _ _ _ _ _ _) fun _ => FailsWith.pure _
  · exact FailsWith.bind (anonVmFlags_ne_eexist _ _ _) fun _ => FailsWith.pure _

theorem errValue_ne_eexist {e : Nat} (h : e ≠ 17) : errValue e ≠ errValue 17 := by
  simp only [errValue]
  omega

theorem hasBit_or_self (x : Nat) {mask : Nat} (h : mask ≠ 0) : hasBit (x ||| mask) mask = true := by
  rw [hasBit, bne_iff_ne, Nat.and_or_distrib_right, Nat.and_self]
  exact fun hc => h (Nat.or_eq_zero_iff.1 hc).2

theorem hasBit_or {x mask : Nat} (y : Nat) (h : hasBit x mask = true) :
    hasBit (x ||| y) mask = true := by
  rw [hasBit, bne_iff_ne] at h ⊢
  rw [Nat.and_or_distrib_right]
  exact fun hc => h (Nat.or_eq_zero_iff.1 hc).1

theorem setupError_cases (r : MmapReq) (area : Vma) :
    setupError r area = -eperm ∨ setupError r area = 0 := by
  unfold setupError
  split
  · exact .inl rfl
  · exact .inr rfl

namespace VmaList

variable {l l' : VmaList Vma} {m : MmapEnv} {r : MmapReq} {a : Allocs}

theorem mapRegion_code {req : Vma} {setup err : Int}
    (h : l.mapRegion req setup a = some (err, l')) : err = 0 ∨ err = -enomem ∨ err = setup := by
  simp only [mapRegion, bind_eq_bind, bind_eq_some_iff] at h
  obtain ⟨⟨e₁, l₁⟩, -, h⟩ := h
  split at h
  · exact .inr (.inl (Prod.mk.inj (some.inj h)).1.symm)
  obtain ⟨⟨merged, l₂⟩, -, h⟩ := bind_eq_some_iff.1 h
  split at h
  · exact .inl (Prod.mk.inj (some.inj h)).1.symm
  split at h
  · exact .inr (.inl (Prod.mk.inj (some.inj h)).1.symm)
  split at h
  · exact .inr (.inr (Prod.mk.inj (some.inj h)).1.symm)
  · obtain ⟨l₃, -, h⟩ := bind_eq_some_iff.1 h
    exact .inl (Prod.mk.inj (some.inj h)).1.symm

/-! ## The test -/

/-- The request gets to the choice of its address: its offset does not overflow, and neither the
number of areas nor the length is beyond its limit. -/
def PassesChecks (l : VmaList Vma) (m : MmapEnv) (r : MmapReq) : Prop :=
  r.pgoff ≤ (r.pgoff + pageAlign r.len / pageSize) % 2 ^ 64 ∧ l.mapCount ≤ m.maxMapCount ∧
    pageAlign r.len ≤ taskSizeMax

/-- The overlap is found: the end of the range does not wrap around, an area ends below the range
and none ends at its start. -/
def TestSees (l : VmaList Vma) (r : MmapReq) : Prop :=
  ¬ isErrValue r.addr ∧ r.addr + pageAlign r.len < 2 ^ 64 ∧ l.HasPred r.addr

section

variable (hflag : hasBit r.flags mapFixedNoreplace = true) (hlen : pageAlign r.len ≠ 0)

include hflag hlen

theorem doMmap_of_not_passes (hp : ¬ l.PassesChecks m r) : ∃ e, e ≠ 17 ∧
    l.doMmap m r a = some (errValue e, l) := by
  have hzero : r.len ≠ 0 := by
    intro h
    exact hlen (by rw [h]; rfl)
  simp only [doMmap, if_neg hzero, if_pos hflag, if_neg hlen,
    if_pos (hasBit_or_self r.flags (show mapFixed ≠ 0 by decide))]
  split
  · exact ⟨75, by decide, rfl⟩
  split
  · exact ⟨12, by decide, rfl⟩
  · rename_i hoff hcount
    have hsize : taskSizeMax < pageAlign r.len := by
      refine Nat.lt_of_not_le fun hle => hp ⟨Nat.le_of_not_lt hoff, ?_, hle⟩
      exact Int.not_lt.1 hcount
    refine ⟨12, by decide, ?_⟩
    rw [getUnmappedArea, if_pos hsize]
    simp only [bind_eq_bind, bind_some]
    exact if_pos (by decide)

/-- Past the checks everything depends on the test, and what follows it has no such error. -/
theorem doMmap_of_passes (hp : l.PassesChecks m r) :
    ∃ rest : Option (Nat × VmaList Vma),
      (¬ isErrValue r.addr → ∀ l', rest ≠ some (errValue 17, l')) ∧
      l.doMmap m r a = if isErrValue r.addr then some (r.addr, l)
        else (l.findVmaIntersection r.addr ((r.addr + pageAlign r.len) % 2 ^ 64)).bind fun found =>
          if found.isSome then some (errValue 17, l) else rest := by
  obtain ⟨hoff, hcount, hsize⟩ := hp
  have hzero : r.len ≠ 0 := by
    intro h
    exact hlen (by rw [h]; rfl)
  have hfixed : hasBit (r.flags ||| mapFixed) mapFixed = true := hasBit_or_self _ (by decide)
  have haddr : l.getUnmappedArea m.mmapBase r.addr (pageAlign r.len) (r.flags ||| mapFixed) =
      some r.addr := by
    rw [getUnmappedArea, if_neg (Nat.not_lt.2 hsize), if_pos (bne_iff_ne.1 hfixed)]
  simp only [doMmap, if_neg hzero, if_pos hflag, if_neg hlen, if_pos hfixed,
    if_neg (Nat.not_lt.2 hoff), if_neg (Int.not_lt.2 hcount), haddr, bind_eq_bind,
    bind_some, if_pos (hasBit_or mapFixed hflag)]
  refine ⟨_, fun herr l' => ?_, rfl⟩
  split
  · rename_i e he
    have hne := errValue_ne_eexist (reqArea_ne_eexist _ _ _ _ _ _ e he)
    exact fun hc => hne (Prod.mk.inj (some.inj hc)).1
  · rename_i area harea
    rw [ne_eq, map_eq_some_iff]
    rintro ⟨⟨err, l₁⟩, hregion, hc⟩
    have hcode := (Prod.mk.inj hc).1
    by_cases hz : err = 0
    · rw [if_pos hz] at hcode
      exact herr (hcode ▸ (by decide : isErrValue (errValue 17)))
    · rw [if_neg hz] at hcode
      refine errValue_ne_eexist ?_ hcode
      have := mapRegion_code hregion
      have := setupError_cases r area
      simp only [enomem, eperm] at *
      omega

end

theorem Sorted.unmapped_iff (h : l.Sorted) {addr len : Nat} (hlen : len ≠ 0) :
    l.Unmapped addr len ↔ ∀ v ∈ l.order, ¬ l.Overlaps v addr (addr + len) := by
  constructor
  · rintro hu v hv ⟨hstart, hstop⟩
    have hne := h.nonempty v hv
    rcases Nat.le_total addr (l.start v) with hle | hle
    · exact hu (l.start v) hle hstart ⟨v, hv, Nat.le_refl _, hne⟩
    · exact hu addr (Nat.le_refl _) (by omega) ⟨v, hv, hle, hstop⟩
  · rintro hno x hx hx' ⟨v, hv, hstart, hstop⟩
    exact hno v hv ⟨by omega, by omega⟩

/-- A request that must not replace a mapping is refused where there is one, exactly when it passes
the checks before the test and the test sees the overlap. -/
theorem doMmap_noreplace_iff (l : VmaList Vma) (m : MmapEnv) (r : MmapReq) (a : Allocs)
    (h : l.WellFormed) (hflag : hasBit r.flags mapFixedNoreplace = true) (haddr : r.addr < 2 ^ 64) :
    (¬ l.Unmapped r.addr (pageAlign r.len) → l.doMmap m r a = some (errValue 17, l)) ↔
      l.Unmapped r.addr (pageAlign r.len) ∨
        l.PassesChecks m r ∧ (l.TestSees r ∨ r.addr = errValue 17) := by
  by_cases hu : l.Unmapped r.addr (pageAlign r.len)
  · exact iff_of_true (fun hc => absurd hu hc) (.inl hu)
  rw [or_iff_right hu, forall_prop_of_true hu]
  have hlen : pageAlign r.len ≠ 0 := by
    intro hz
    exact hu fun x hx hx' => absurd hx (by omega)
  by_cases hp : l.PassesChecks m r
  swap
  · obtain ⟨e, he, hr⟩ := doMmap_of_not_passes (a := a) hflag hlen hp
    rw [hr]
    exact iff_of_false (fun hc => errValue_ne_eexist he (Prod.mk.inj (some.inj hc)).1)
      fun hc => hp hc.1
  rw [and_iff_right hp]
  obtain ⟨rest, hrest, hr⟩ := doMmap_of_passes (a := a) hflag hlen hp
  rw [hr]
  by_cases herr : isErrValue r.addr
  · rw [if_pos herr, or_iff_right fun hs : l.TestSees r => hs.1 herr]
    simp
  have hne : r.addr ≠ errValue 17 := fun hc => herr (hc ▸ by decide)
  rw [if_neg herr, or_iff_left hne]
  by_cases hwrap : r.addr + pageAlign r.len < 2 ^ 64
  swap
  · -- the end of the range lies below its start, and the search never ends
    have hlt : (r.addr + pageAlign r.len) % 2 ^ 64 < r.addr := by
      have := hp.2.2
      simp only [taskSizeMax, pageSize] at this
      omega
    rw [findVmaIntersection, if_pos hlt]
    exact iff_of_false (by simp) fun hs => hwrap hs.2.1
  rw [Nat.mod_eq_of_lt hwrap]
  by_cases hpred : l.HasPred r.addr
  · refine iff_of_true ?_ ⟨herr, hwrap, hpred⟩
    obtain ⟨w, hw, ho⟩ : ∃ w ∈ l.order, l.Overlaps w r.addr (r.addr + pageAlign r.len) := by
      rw [h.unmapped_iff hlen] at hu
      simpa only [not_forall, not_not, exists_prop] using hu
    obtain ⟨low, v, B, hl, hlow, hbelow, hov⟩ := h.exists_first hpred hw ho
    rw [h.findVmaIntersection_of_first (Nat.le_add_right _ _) hl hlow hbelow hov]
    rfl
  · refine iff_of_false ?_ fun hs => hpred hs.2.2
    rw [h.findVmaIntersection_of_not (Nat.le_add_right _ _) (.inr hpred)]
    exact hrest herr l

/-- One page of private memory at the address, with `MAP_FIXED_NOREPLACE`. -/
def noreplaceAt (addr : Nat) : MmapReq :=
  ⟨none, addr, pageSize, protRead ||| protWrite, mapPrivate ||| 0x20 ||| mapFixedNoreplace, 0, 0⟩

/-- The address that is asked for is the start of an area. -/
theorem doMmap_noreplace_iff_two_areas :
    (¬ (ofAreas [anonAt 4096 8192, anonAt 12288 16384]).Unmapped 12288 (pageAlign pageSize) →
      (ofAreas [anonAt 4096 8192, anonAt 12288 16384]).doMmap ⟨taskUnmappedBase, 0, 65530⟩
        (noreplaceAt 12288) ⟨true, true, true⟩ =
          some (errValue 17, ofAreas [anonAt 4096 8192, anonAt 12288 16384])) ↔
      (ofAreas [anonAt 4096 8192, anonAt 12288 16384]).Unmapped 12288 (pageAlign pageSize) ∨
        (ofAreas [anonAt 4096 8192, anonAt 12288 16384]).PassesChecks
            ⟨taskUnmappedBase, 0, 65530⟩ (noreplaceAt 12288) ∧
          ((ofAreas [anonAt 4096 8192, anonAt 12288 16384]).TestSees (noreplaceAt 12288) ∨
            12288 = errValue 17) :=
  doMmap_noreplace_iff _ _ (noreplaceAt 12288) _ ⟨⟨by decide, by decide⟩, by decide⟩ (by decide)
    (by decide)

/-- A request for the page of the only area succeeds. -/
theorem only_area_not_refused :
    ¬ (¬ (ofAreas [anonAt 4096 8192]).Unmapped 4096 (pageAlign pageSize) →
      (ofAreas [anonAt 4096 8192]).doMmap ⟨taskUnmappedBase, 0, 65530⟩ (noreplaceAt 4096)
        ⟨true, true, true⟩ = some (errValue 17, ofAreas [anonAt 4096 8192])) := by
  intro hc
  have hmapped : ¬ (ofAreas [anonAt 4096 8192]).Unmapped 4096 (pageAlign pageSize) := fun hu =>
    hu 4096 (Nat.le_refl _) (by decide) ⟨0, by decide, by decide⟩
  have haddr : ((ofAreas [anonAt 4096 8192]).doMmap ⟨taskUnmappedBase, 0, 65530⟩
      (noreplaceAt 4096) ⟨true, true, true⟩).map Prod.fst = some 4096 := by decide
  rw [hc hmapped] at haddr
  exact absurd haddr (by decide)

end VmaList

end MyOS2.Mmap
