import MyOS2.Mm.Kmalloc.Kmalloc
import MyOS2.Mm.Kmalloc.Proofs.Users

/-!
# Blocks of the `kmalloc` family

A cache of `kmalloc_caches` has objects as large as the requests that go to it, and
`get_order` names a page block that is large enough. The pages of slabs and of large
blocks name their first page, and that says to which allocator a block belongs.
Only `__kmalloc` is in the way: it spins on the sizes that `kmalloc` keeps away from
it and `kmalloc_array` does not.
-/

namespace MyOS2.Kmalloc

open Function Slub Option List

/-! ## Sizes -/

/-- The caches that `__kmalloc` uses were opened with the sizes of `kmalloc_info`. -/
theorem kmallocCaches_spec {i : Nat} (hpos : 1 ≤ i) (hle : i ≤ 12) :
    Geometry (kmallocCaches i) ∧ (kmallocCaches i).objectSize = kmallocInfo.getD i 0 := by
  have hopen : ∀ j < 13, 1 ≤ j → ((createKmallocCache j).any fun r => r.toOption.any fun c =>
      c.objectSize == kmallocInfo.getD j 0) = true := by
    decide +kernel
  have hi := hopen i (by omega) hpos
  rw [kmallocCaches]
  cases hcreate : createKmallocCache i with
  | none => simp [hcreate] at hi
  | some r =>
    cases r with
    | error e => simp [hcreate, Except.toOption] at hi
    | ok c => exact ⟨geometry_of_open hcreate, by simpa [hcreate, Except.toOption] using hi⟩

theorem le_kmallocInfo_fls64 {n : Nat} (hlow : 192 ≤ n) (hhigh : n < 4096) :
    (1 ≤ fls64 n ∧ fls64 n ≤ 12) ∧ n + 1 ≤ kmallocInfo.getD (fls64 n) 0 := by
  have hle : fls64 n ≤ 12 := (fls64_le_iff n 12).mpr hhigh
  have hge : ¬ fls64 n ≤ 7 := fun h => by
    have := (fls64_le_iff n 7).mp h
    omega
  have hself : n < 2 ^ fls64 n := (fls64_le_iff n _).mp (Nat.le_refl _)
  have hinfo : ∀ o < 13, 7 < o → kmallocInfo.getD o 0 = 2 ^ o := by decide
  generalize fls64 n = o at hle hge hself ⊢
  rw [hinfo o (by omega) (by omega)]
  omega

theorem kmallocSlab_spec {size : Nat} (hpos : 0 < size) (hle : size ≤ kmallocMaxCacheSize) :
    ∃ i, kmallocSlab size = some (some i) ∧ Geometry (kmallocCaches i) ∧
      size ≤ (kmallocCaches i).objectSize := by
  have hfound : ∃ i, kmallocSlab size = some (some i) ∧ (1 ≤ i ∧ i ≤ 12) ∧
      size ≤ kmallocInfo.getD i 0 := by
    have hmax : kmallocMaxCacheSize = 4096 := rfl
    rw [kmallocSlab, if_neg (by omega)]
    by_cases hsmall : size ≤ 192
    · have htable : ∀ n < 193, 0 < n → (sizeToIndex n).any (fun i =>
          decide ((1 ≤ i ∧ i ≤ 12) ∧ n ≤ kmallocInfo.getD i 0)) = true := by
        decide +kernel
      obtain ⟨i, hi, hspec⟩ := (any_eq_true _ _).mp (htable size (by omega) hpos)
      exact ⟨i, by rw [if_pos hsmall, hi]; rfl, of_decide_eq_true hspec⟩
    · obtain ⟨hindex, hinfo⟩ := le_kmallocInfo_fls64 (n := size - 1) (by omega) (by omega)
      exact ⟨_, by rw [if_neg hsmall], hindex, by omega⟩
  obtain ⟨i, hslab, hindex, hinfo⟩ := hfound
  obtain ⟨hg, hsize⟩ := kmallocCaches_spec hindex.1 hindex.2
  exact ⟨i, hslab, hg, hsize ▸ hinfo⟩

/-! ## Pages in use -/

namespace Heap
variable {h : Heap} {i : Nat} {x : Addr} {o : Origin} {zero : Bool} {answers : List (Option Pages)}

/-- The pages of a slab, or of a large block that was handed out. -/
def Occupied (h : Heap) (p order : Nat) : Prop :=
  (∃ i, h.slab p = some i ∧ order = (kmallocCaches i).order) ∨ ∃ x, (x, .pages p order) ∈ h.live

section

variable {pfn order p o : Nat} (hunused : h.Unused pfn order) (hp : h.Occupied p o)
include hunused hp

theorem Unused.apart : p + 2 ^ o ≤ pfn ∨ pfn + 2 ^ order ≤ p := by
  obtain ⟨i, hslab, rfl⟩ | ⟨x, hlive⟩ := hp
  · exact hunused.1 p i hslab
  · exact hunused.2 x p o hlive

theorem Unused.ne : p ≠ pfn := by
  have hapart := hunused.apart hp
  have := Nat.two_pow_pos o
  have := Nat.two_pow_pos order
  omega

end

theorem Unused.compound_eq {pfn order p o q : Nat} (hunused : h.Unused pfn order)
    (hhead : h.Occupied p o → ∀ q, p ≤ q → q < p + 2 ^ o → h.head q = p)
    (hp : h.Occupied p o ∨ p = pfn ∧ o = order) (hle : p ≤ q) (hlt : q < p + 2 ^ o) :
    h.compound pfn order q = p := by
  obtain hp | ⟨rfl, rfl⟩ := hp
  · rw [Heap.compound, if_neg]
    · exact hhead hp q hle hlt
    rintro ⟨hfrom, hto⟩
    cases hunused.apart hp with
    | inl hbelow => exact absurd (hlt.trans_le hbelow) (Nat.not_lt.mpr hfrom)
    | inr habove => exact absurd (hto.trans_le habove) (Nat.not_lt.mpr hle)
  · rw [Heap.compound, if_pos ⟨hle, hlt⟩]

/-- The caches are in order, the pages in use name their first page, and that knows whose they are.
-/
structure Inv (h : Heap) : Prop where
  inOrder : ∀ i, InOrder (kmallocCaches i) (h.users i).state (h.users i).live
  slab : ∀ p i, h.slab p = some i ↔ (h.users i).state.pgSlab p = true
  head : ∀ p o, h.Occupied p o → ∀ q, p ≤ q → q < p + 2 ^ o → h.head q = p
  objects : ∀ x i, (x, .cache i) ∈ h.live →
    Geometry (kmallocCaches i) ∧ x ∈ (h.users i).live
  blocks : ∀ x p o, (x, .pages p o) ∈ h.live →
    x = pageToVirt p ∧ h.slab p = none ∧ h.order p = o
  nodup : h.live.Nodup

theorem Inv.kfreeTo (hinv : Inv h) (hx : (x, o) ∈ h.live) : h.kfreeTo x = o := by
  cases o with
  | cache i =>
    obtain ⟨hg, hmem⟩ := hinv.objects x i hx
    obtain ⟨part, full, free, hkeeps, -⟩ := hinv.inOrder i
    obtain ⟨p, j, hp, hj, -, rfl⟩ := (hkeeps.held x).mp hmem
    have hslab := (hinv.slab p i).mpr hp
    obtain ⟨hle, hlt⟩ := hg.virtToPfn_slot (p := p) hj
    have hhead := hinv.head p _ (.inl ⟨i, hslab, rfl⟩) _ hle hlt
    simp only [Heap.kfreeTo, hhead, hslab]
  | pages p order =>
    obtain ⟨rfl, hslab, rfl⟩ := hinv.blocks x p order hx
    have hpfn : virtToPfn (pageToVirt p) = p := by
      rw [virtToPfn, pageToVirt, Nat.add_sub_cancel_left, Nat.mul_div_cancel _ (by decide)]
    have hhead := hinv.head p _ (.inr ⟨_, hx⟩) p (Nat.le_refl p)
      (Nat.lt_add_of_pos_right (Nat.two_pow_pos _))
    simp only [Heap.kfreeTo, hpfn, hhead, hslab]

/-- A cache has changed, and with it the pages that are its slabs and the objects that were handed
out. -/
theorem Inv.setUsers (hinv : Inv h) {h' : Heap} {u : Users}
    (husers : h'.users = update h.users i u)
    (horder : InOrder (kmallocCaches i) u.state u.live)
    (hself : ∀ p, h'.slab p = some i ↔ u.state.pgSlab p = true)
    (hother : ∀ p j, j ≠ i → (h'.slab p = some j ↔ h.slab p = some j))
    (hlive : ∀ e ∈ h'.live, e ∈ h.live) (hnodup : h'.live.Nodup)
    (hobjects : ∀ y, (y, .cache i) ∈ h'.live → y ∈ (h.users i).live → y ∈ u.live)
    (hhead : ∀ p o, h'.Occupied p o → ∀ q, p ≤ q → q < p + 2 ^ o → h'.head q = p)
    (hblocks : ∀ y p o, (y, .pages p o) ∈ h'.live → h.slab p = none →
      h'.slab p = none ∧ h'.order p = h.order p) : Inv h' := by
  have hcases : ∀ j, j = i ∧ h'.users j = u ∨ j ≠ i ∧ h'.users j = h.users j := by
    intro j
    rw [husers]
    by_cases hj : j = i
    · exact .inl ⟨hj, by rw [hj, update_self]⟩
    · exact .inr ⟨hj, update_of_ne hj ..⟩
  refine ⟨fun j => ?_, fun p j => ?_, hhead, fun y j hy => ?_, fun y p o hy => ?_, hnodup⟩
  · obtain ⟨rfl, hj⟩ | ⟨-, hj⟩ := hcases j
    · rwa [hj]
    · rw [hj]
      exact hinv.inOrder j
  · obtain ⟨rfl, hj⟩ | ⟨hne, hj⟩ := hcases j
    · rw [hj]
      exact hself p
    · rw [hj, hother p j hne]
      exact hinv.slab p j
  · obtain ⟨hg, hmem⟩ := hinv.objects y j (hlive _ hy)
    obtain ⟨rfl, hj⟩ | ⟨-, hj⟩ := hcases j
    · exact ⟨hg, hj ▸ hobjects y hy hmem⟩
    · exact ⟨hg, hj ▸ hmem⟩
  · obtain ⟨hptr, hslab, horder⟩ := hinv.blocks y p o (hlive _ hy)
    obtain ⟨hslab', horder'⟩ := hblocks y p o hy hslab
    exact ⟨hptr, hslab', horder'.trans horder⟩

theorem Inv.addSlab (hinv : Inv h) {new : Option Pages} {u : Users}
    (hnew : ∀ pg ∈ new, h.Unused pg.pfn (kmallocCaches i).order)
    (horder : InOrder (kmallocCaches i) u.state u.live)
    (hslabs : u.state.pgSlab = new.elim (h.users i).state.pgSlab fun pg =>
      update (h.users i).state.pgSlab pg.pfn true)
    (hlive : ∀ x ∈ (h.users i).live, x ∈ u.live) :
    Inv { h.addSlab i new with users := update h.users i u } := by
  cases new with
  | none =>
    refine hinv.setUsers rfl horder (fun p => ?_) (fun _ _ _ => Iff.rfl) (fun _ he => he)
      hinv.nodup (fun y _ => hlive y) hinv.head fun _ _ _ _ hslab => ⟨hslab, rfl⟩
    rw [hslabs]
    exact hinv.slab p i
  | some pg =>
    have hunused := hnew pg rfl
    have hat : ∀ p, update h.slab pg.pfn (some i) p =
        if p = pg.pfn then some i else h.slab p := fun p => update_apply ..
    refine hinv.setUsers rfl horder (fun p => ?_) (fun p j hj => ?_) (fun _ he => he) hinv.nodup
      (fun y _ => hlive y) ?_ fun y p o hy hslab => ?_
    · change update h.slab pg.pfn (some i) p = some i ↔ _
      rw [hat, hslabs, elim_some, update_apply]
      split
      · exact iff_of_true rfl rfl
      · exact hinv.slab p i
    · change update h.slab pg.pfn (some i) p = some j ↔ _
      rw [hat]
      split
      · rename_i hp
        -- a slab of another cache is in use
        refine iff_of_false (fun he => hj (some.inj he).symm) fun hslab => ?_
        exact hunused.ne (.inl ⟨j, hslab, rfl⟩) hp
      · exact Iff.rfl
    · intro p o hp q hle hlt
      have hcases : h.Occupied p o ∨ p = pg.pfn ∧ o = (kmallocCaches i).order := by
        obtain ⟨j, hslab, rfl⟩ | hx := hp
        · change update h.slab pg.pfn (some i) p = some j at hslab
          rw [hat] at hslab
          split at hslab
          · rename_i hp
            exact .inr ⟨hp, by rw [some.inj hslab]⟩
          · exact .inl (.inl ⟨j, hslab, rfl⟩)
        · exact .inl (.inr hx)
      exact hunused.compound_eq (hinv.head p o) hcases hle hlt
    · refine ⟨?_, rfl⟩
      change update h.slab pg.pfn (some i) p = none
      rwa [hat, if_neg (hunused.ne (.inr ⟨y, hy⟩))]

theorem Inv.hand (hinv : Inv h) (hg : Geometry (kmallocCaches i)) (hx : x ∈ (h.users i).live)
    (hnot : (x, .cache i) ∉ h.live) : Inv { h with live := (x, .cache i) :: h.live } where
  inOrder := hinv.inOrder
  slab := hinv.slab
  head p o hp := by
    refine hinv.head p o (hp.imp_right ?_)
    rintro ⟨y, hy⟩
    exact ⟨y, by simpa using hy⟩
  objects y j hy := by
    cases mem_cons.mp hy with
    | inl heq =>
      cases heq
      exact ⟨hg, hx⟩
    | inr hold => exact hinv.objects y j hold
  blocks y p o hy := hinv.blocks y p o (by simpa using hy)
  nodup := nodup_cons.mpr ⟨hnot, hinv.nodup⟩

/-! ## The calls -/

/-- The block is large enough, its bytes are zero if that was asked for, and `kfree` puts it back
where it came from. -/
def Serves (h : Heap) (size : Nat) (zero : Bool) (b : Block) : Prop :=
  size ≤ b.origin.bytes ∧
  (zero = true → ∀ mem a, b.ptr ≤ a → a < b.ptr + size → b.after mem a = 0) ∧
  h.kfreeTo b.ptr = b.origin

theorem Inv.serves (hinv : Inv h) {b : Block} {size : Nat} (hlive : (b.ptr, b.origin) ∈ h.live)
    (hbytes : size ≤ b.origin.bytes) (hcleared : zero = true → size ≤ b.cleared) :
    h.Serves size zero b := by
  refine ⟨hbytes, fun hz mem a hle hlt => ?_, hinv.kfreeTo hlive⟩
  rw [Block.after, if_pos ⟨hle, hlt.trans_le (Nat.add_le_add_left (hcleared hz) _)⟩]

/-- A call comes back with a block that serves the request, or with none. -/
def Done (size : Nat) (zero : Bool) (r : Option (Option Block × Heap)) : Prop :=
  ∃ b h', r = some (b, h') ∧ Inv h' ∧ ∀ blk ∈ b, h'.Serves size zero blk

theorem Inv.done_none (hinv : Inv h) (size : Nat) : Done size zero (some (none, h)) :=
  ⟨none, h, rfl, hinv, by simp⟩

theorem Inv.kmemCacheAlloc (hinv : Inv h) (hg : Geometry (kmallocCaches i)) {size : Nat}
    (hsize : size ≤ (kmallocCaches i).objectSize) (hne : answers ≠ [])
    (hok : ∀ pg ∈ answers.head?.join, h.Unused pg.pfn (kmallocCaches i).order ∧
      pg.head = decide (0 < (kmallocCaches i).order)) :
    Done size zero (h.kmemCacheAlloc i zero answers) := by
  have hcall : (h.users i).Ok (kmallocCaches i) (.alloc answers zero) := by
    obtain ⟨answer, rest, rfl⟩ := exists_cons_of_ne_nil hne
    cases answer with
    | none => trivial
    | some pg =>
      obtain ⟨hunused, hhead⟩ := hok pg rfl
      refine ⟨fun q hlt hgt => ?_, hhead⟩
      rw [← Bool.not_eq_true, ← hinv.slab q i]
      intro hslab
      cases hunused.apart (.inl ⟨i, hslab, rfl⟩) with
      | inl hle => exact absurd hgt (Nat.not_lt.mpr hle)
      | inr hle => exact absurd hlt (Nat.not_lt.mpr hle)
  obtain ⟨x, s', halloc, hslabs, horder⟩ := (hinv.inOrder i).kmemCacheAlloc hg rfl hcall
  have hstep : (h.users i).step (kmallocCaches i) (.alloc answers zero) =
      some (.allocated x, ⟨s', if x = 0 then (h.users i).live else x :: (h.users i).live⟩) := by
    rw [Users.step, halloc]
    rfl
  have hturn : s'.pgSlab = (newSlab (h.users i) (.alloc answers zero)).elim
      (h.users i).state.pgSlab fun pg => update (h.users i).state.pgSlab pg.pfn true := by
    rw [hslabs]
    unfold Users.slabsAfter
    cases newSlab (h.users i) (.alloc answers zero) <;> rfl
  have hnew : ∀ pg ∈ newSlab (h.users i) (.alloc answers zero),
      h.Unused pg.pfn (kmallocCaches i).order := by
    intro pg hpg
    obtain ⟨answer, rest, rfl⟩ := exists_cons_of_ne_nil hne
    cases answer with
    | none => simp [newSlab] at hpg
    | some pg' =>
      rw [newSlab] at hpg
      split at hpg
      · cases hpg
        exact (hok pg rfl).1
      · cases hpg
  have hgrown := hinv.addSlab (u := ⟨s', if x = 0 then (h.users i).live else x :: (h.users i).live⟩)
    hnew horder hturn (by intro y hy; split <;> simp [hy])
  rw [Heap.kmemCacheAlloc, hstep]
  simp only [bind_eq_bind, bind_some]
  by_cases hx : x = 0
  · rw [if_pos hx]
    exact hgrown.done_none size
  · rw [if_neg hx]
    rw [if_neg hx] at horder
    obtain ⟨part, full, free, hkeeps, -⟩ := horder
    have hfresh : (x, .cache i) ∉ h.live := fun hmem =>
      (nodup_cons.mp hkeeps.nodup).1 (hinv.objects x i hmem).2
    have hlive : (h.addSlab i (newSlab (h.users i) (.alloc answers zero))).live = h.live := by
      cases newSlab (h.users i) (.alloc answers zero) <;> rfl
    have hhand := hgrown.hand hg (x := x) (by simp [hx]) (hlive ▸ hfresh)
    rw [← hlive]
    refine ⟨_, _, rfl, hhand, ?_⟩
    rintro _ ⟨⟩
    refine hhand.serves (mem_cons_self ..) hsize ?_
    rintro rfl
    exact hsize

theorem Inv.kmallocLarge (hinv : Inv h) {size : Nat} (hpos : 0 < size) (hlt : size < 2 ^ 64)
    (hok : ∀ pg ∈ answers.head?.join, h.Unused pg.pfn (getOrder size)) :
    Done size zero (h.kmallocLarge size zero answers) := by
  have hfits := (getOrder_le_iff (o := getOrder size) hpos hlt).1 (Nat.le_refl _)
  unfold Heap.kmallocLarge
  generalize getOrder size = order at hfits hok ⊢
  by_cases horder : 10 < order
  · rw [if_pos horder]
    exact hinv.done_none size
  rw [if_neg horder]
  split
  · rename_i pg rest
    have hunused : h.Unused pg.pfn order := hok pg rfl
    have hother : ∀ {p o}, h.Occupied p o → p ≠ pg.pfn := fun hp => hunused.ne hp
    have hinv' : Inv { h with
        head := h.compound pg.pfn order
        order := update h.order pg.pfn order
        live := (pageToVirt pg.pfn, .pages pg.pfn order) :: h.live } := by
      refine ⟨hinv.inOrder, hinv.slab, ?_, ?_, ?_, ?_⟩
      · intro p o hp q hle hlt
        have hcases : h.Occupied p o ∨ p = pg.pfn ∧ o = order := by
          obtain hslab | ⟨y, hy⟩ := hp
          · exact .inl (.inl hslab)
          · cases mem_cons.mp hy with
            | inl heq =>
              cases heq
              exact .inr ⟨rfl, rfl⟩
            | inr hmem => exact .inl (.inr ⟨y, hmem⟩)
        exact hunused.compound_eq (hinv.head p o) hcases hle hlt
      · intro y j hy
        exact hinv.objects y j (by simpa using hy)
      · intro y p o hy
        cases mem_cons.mp hy with
        | inl heq =>
          cases heq
          refine ⟨rfl, ?_, update_self ..⟩
          cases hslab : h.slab pg.pfn with
          | none => rfl
          | some j => exact absurd rfl (hother (.inl ⟨j, hslab, rfl⟩))
        | inr hmem =>
          obtain ⟨hptr, hslab, ho⟩ := hinv.blocks y p o hmem
          exact ⟨hptr, hslab, (update_of_ne (hother (.inr ⟨y, hmem⟩)) ..).trans ho⟩
      · exact nodup_cons.mpr ⟨fun hmem => hother (.inr ⟨_, hmem⟩) rfl, hinv.nodup⟩
    refine ⟨_, _, rfl, hinv', ?_⟩
    rintro _ ⟨⟩
    refine hinv'.serves (mem_cons_self ..) hfits ?_
    rintro rfl
    exact Nat.le_refl _
  · exact hinv.done_none size

theorem Inv.erase (hinv : Inv h) (e : Addr × Origin) : Inv { h with live := h.live.erase e } where
  inOrder := hinv.inOrder
  slab := hinv.slab
  head p o hp := hinv.head p o (hp.imp_right fun ⟨y, hy⟩ => ⟨y, mem_of_mem_erase hy⟩)
  objects y j hy := hinv.objects y j (mem_of_mem_erase hy)
  blocks y p o hy := hinv.blocks y p o (mem_of_mem_erase hy)
  nodup := hinv.nodup.erase e

/-- A slab is not given back while an object of it is in use, as far as this call goes. -/
def ReleaseOk (h : Heap) : Op → Prop
  | .kfree x => ∀ i, h.kfreeTo x = .cache i → (h.users i).ReleaseOk (kmallocCaches i) (.free x)
  | _ => True

/-- `kfree` of an object: the cache changes, and gives a slab back if that is due. -/
theorem Inv.kfree_cache (hinv : Inv h) (hx : (x, .cache i) ∈ h.live) :
    ∃ h', h.kfree x = some h' ∧ (h.ReleaseOk (.kfree x) → Inv h') := by
  have hto := hinv.kfreeTo hx
  obtain ⟨hg, hmem⟩ := hinv.objects x i hx
  have hcall : (h.users i).Ok (kmallocCaches i) (.free x) := hmem
  obtain ⟨r, u, hstep, ⟨hslabs, hwas⟩, -, horder⟩ := Users.step_spec (hinv.inOrder i) hg hcall
  have hfreed : ∃ pages, r = .freed pages ∧ u.live = (h.users i).live.erase x := by
    obtain ⟨⟨pages, s'⟩, -, heq⟩ := bind_eq_some_iff.mp hstep
    cases heq
    exact ⟨pages, rfl, rfl⟩
  obtain ⟨pages, rfl, hlive⟩ := hfreed
  refine ⟨_, by simp only [Heap.kfree, hto, hstep, bind_eq_bind, bind_some]; rfl, ?_⟩
  intro hrel
  have horder := horder (hrel i hto)
  have hobjects : ∀ y, (y, .cache i) ∈ h.live.erase (x, .cache i) → y ∈ (h.users i).live →
      y ∈ u.live := by
    intro y hy hmem
    rw [hlive]
    refine (mem_erase_of_ne ?_).mpr hmem
    rintro rfl
    exact (List.Nodup.not_mem_erase hinv.nodup) hy
  have hsub : ∀ e ∈ h.live.erase (x, .cache i), e ∈ h.live := fun _ => mem_of_mem_erase
  have hnodup := hinv.nodup.erase (x, .cache i)
  cases pages with
  | none =>
    refine hinv.setUsers rfl horder (fun p => ?_) (fun _ _ _ => Iff.rfl) hsub hnodup hobjects
      (hinv.erase _).head fun _ _ _ _ hslab => ⟨hslab, rfl⟩
    rw [hslabs]
    exact hinv.slab p i
  | some pages =>
    have hgone : h.slab pages.1 = some i := (hinv.slab pages.1 i).mpr (hwas _ _ rfl)
    have hat : ∀ p, update h.slab pages.1 none p =
        if p = pages.1 then none else h.slab p := fun p => update_apply ..
    refine hinv.setUsers rfl horder (fun p => ?_) (fun p j hj => ?_) hsub hnodup hobjects ?_ ?_
    · change update h.slab pages.1 none p = some i ↔ _
      rw [hat, hslabs]
      change _ ↔ update (h.users i).state.pgSlab pages.1 false p = true
      rw [update_apply]
      split
      · exact iff_of_false (by simp) (by simp)
      · exact hinv.slab p i
    · change update h.slab pages.1 none p = some j ↔ _
      rw [hat]
      split
      · rename_i hp
        rw [hp, hgone]
        exact iff_of_false (by simp) fun he => hj (some.inj he).symm
      · exact Iff.rfl
    · intro p o hp
      refine hinv.head p o ?_
      obtain ⟨j, hslab, ho⟩ | ⟨y, hy⟩ := hp
      · change update h.slab pages.1 none p = some j at hslab
        rw [hat] at hslab
        split at hslab
        · cases hslab
        · exact .inl ⟨j, hslab, ho⟩
      · exact .inr ⟨y, hsub _ hy⟩
    · intro y p o hy hslab
      refine ⟨?_, rfl⟩
      change update h.slab pages.1 none p = none
      rw [hat, hslab, ite_self]

theorem Inv.kfree (hinv : Inv h) (hx : (x, o) ∈ h.live) :
    ∃ h', h.kfree x = some h' ∧ (h.ReleaseOk (.kfree x) → Inv h') := by
  cases o with
  | cache i => exact hinv.kfree_cache hx
  | pages p order =>
    refine ⟨_, ?_, fun _ => hinv.erase (x, .pages p order)⟩
    rw [Heap.kfree, hinv.kfreeTo hx]

theorem inv_start (hs : Start h) : Inv h where
  inOrder i := Users.inOrder_start (hs.users i)
  slab p i := by
    rw [hs.slab p, (hs.users i).pgSlab p]
    exact iff_of_false (by simp) (by simp)
  head p o hp := by
    obtain ⟨i, hslab, -⟩ | ⟨y, hy⟩ := hp
    · rw [hs.slab p] at hslab
      cases hslab
    · rw [hs.live] at hy
      cases hy
  objects y j hy := by
    rw [hs.live] at hy
    cases hy
  blocks y p o hy := by
    rw [hs.live] at hy
    cases hy
  nodup := hs.live ▸ nodup_nil

/-- What the family promises for a call: it comes back, with a block that serves the request or with
none. -/
def Meets (h : Heap) (op : Op) : Prop :=
  ∃ b h', h.step op = some (b, h') ∧ ∀ blk ∈ b, h'.Serves op.bytes op.zero blk

section Calls
variable {size : Nat} (hinv : Inv h) (hok : h.AnswersOk size answers)
include hinv hok

theorem Inv.kmalloc' (hle : size ≤ kmallocMaxCacheSize) :
    Done size zero (h.kmalloc' size zero answers) := by
  have hne : answers ≠ [] := by
    rintro rfl
    exact hok
  rw [Heap.kmalloc', if_neg (Nat.not_lt.mpr hle)]
  by_cases hzero : size = 0
  · subst hzero
    exact hinv.done_none 0
  · obtain ⟨i, hslab, hg, hsize⟩ := kmallocSlab_spec (Nat.pos_of_ne_zero hzero) hle
    simp only [hslab, bind_eq_bind, bind_some]
    refine hinv.kmemCacheAlloc hg hsize hne ?_
    obtain ⟨answer, rest, rfl⟩ := exists_cons_of_ne_nil hne
    rintro pg rfl
    rw [AnswersOk, if_neg (Nat.not_lt.mpr hle)] at hok
    exact hok i hslab

theorem Inv.kmalloc (hlt : size < 2 ^ 64) : Done size zero (h.kmalloc size zero answers) := by
  rw [Heap.kmalloc]
  by_cases hlarge : kmallocMaxCacheSize < size
  · rw [if_pos hlarge]
    refine hinv.kmallocLarge (Nat.zero_lt_of_lt hlarge) hlt ?_
    intro pg hpg
    unfold AnswersOk at hok
    split at hok
    · cases hpg
    · cases hpg
    · cases hpg
      rwa [if_pos hlarge] at hok
  · rw [if_neg hlarge]
    exact hinv.kmalloc' hok (Nat.not_lt.mp hlarge)

end Calls

end Heap

/-- An array of more than `KMALLOC_MAX_CACHE_SIZE` bytes is asked for only where
`__builtin_constant_p` answers 1. -/
def Op.ArrayOk : Op → Prop
  | .kmallocArray constant n size _ _ =>
    constant = true ∨ n * size ≤ kmallocMaxCacheSize ∨ 2 ^ 64 ≤ n * size
  | _ => True

namespace Heap
variable {h : Heap} {op : Op}

theorem Inv.step (hinv : Inv h) (hok : h.Ok op) (hop : op.ArrayOk) :
    ∃ b h', h.step op = some (b, h') ∧ (∀ blk ∈ b, h'.Serves op.bytes op.zero blk) ∧
      (h.ReleaseOk op → Inv h') := by
  have hdone : ∀ {size zero} {r : Option (Option Block × Heap)}, Done size zero r →
      ∃ b h', r = some (b, h') ∧ (∀ blk ∈ b, h'.Serves size zero blk) ∧ (True → Inv h') :=
    fun ⟨b, h', hr, hinv', hserves⟩ => ⟨b, h', hr, hserves, fun _ => hinv'⟩
  cases op with
  | kmalloc size zero answers => exact hdone (hinv.kmalloc hok.2 hok.1)
  | kmallocArray constant n size zero answers =>
    simp only [Heap.step, Heap.kmallocArray]
    by_cases hwrap : 2 ^ 64 ≤ n * size
    · rw [if_pos hwrap]
      exact hdone (hinv.done_none _)
    · rw [if_neg hwrap]
      split
      · exact hdone (hinv.kmalloc hok.2 (Nat.lt_of_not_le hwrap))
      · rename_i hconst
        exact hdone (hinv.kmalloc' hok.2 ((hop.resolve_left hconst).resolve_right hwrap))
  | kfree x =>
    obtain ⟨o, hx⟩ := hok
    obtain ⟨h', hfree, hkeep⟩ := hinv.kfree hx
    exact ⟨none, h', by rw [Heap.step, hfree]; rfl, by simp, hkeep⟩

/-- `__kmalloc` spins on the other arrays. -/
theorem step_eq_none (hop : ¬ op.ArrayOk) : h.step op = none := by
  cases op with
  | kmallocArray constant n size zero answers =>
    obtain ⟨hconst, hrest⟩ := not_or.mp hop
    obtain ⟨hlarge, hwrap⟩ := not_or.mp hrest
    rw [Heap.step, Heap.kmallocArray, if_neg hwrap, if_neg hconst, Heap.kmalloc',
      if_pos (Nat.lt_of_not_le hlarge)]
  | _ => exact absurd trivial hop

def empty : Heap := ⟨fun _ => Users.empty, id, fun _ => none, fun _ => 0, []⟩

theorem start_empty : Start empty := ⟨fun _ => Users.start_empty, fun _ => rfl, rfl⟩

/-- Two pages, from `p` on, were handed out. -/
def large (h : Heap) (p : Pfn) : Heap :=
  { h with
    head := h.compound p 1, order := update h.order p 1
    live := (pageToVirt p, .pages p 1) :: h.live }

theorem reachable_large {p : Pfn} (hunused : h.Unused p 1)
    (hr : Reachable Heap.step (fun h op => h.Ok op ∧ h.ReleaseOk op) Start h) :
    Reachable Heap.step (fun h op => h.Ok op ∧ h.ReleaseOk op) Start (h.large p) :=
  @Reachable.call _ _ _ _ _ _ _ _ (.kmalloc 8192 false [some ⟨p, true⟩]) _ hr
    ⟨⟨by decide, hunused⟩, trivial⟩ rfl

theorem objectSize_le (i : Nat) : (kmallocCaches i).objectSize ≤ (kmallocCaches i).size := by
  have hinfo : ∀ j < 22, (kmallocCaches j).objectSize ≤ (kmallocCaches j).size := by decide +kernel
  rcases Nat.lt_or_ge i 22 with hi | hi
  · exact hinfo i hi
  · have hzero : kmallocCaches i = kmallocCaches 0 := by
      rw [kmallocCaches, createKmallocCache, getD_eq_default _ _ hi]
      rfl
    exact hzero ▸ hinfo 0 (by decide)

/-- A block lies in the pages that its address leads to, which know what it is. -/
theorem Inv.lies (hinv : Inv h) {x : Addr} {o : Origin} (hx : (x, o) ∈ h.live) :
    ∃ p order, h.Occupied p order ∧ pageToVirt p ≤ x ∧ x + o.bytes ≤ pageToVirt (p + 2 ^ order) ∧
      (h.slab p = none → (x, o) = (pageToVirt p, .pages p (h.order p))) ∧
      ∀ i, h.slab p = some i → ∃ j, (x, o) = (slot (kmallocCaches i) p j, .cache i) := by
  cases o with
  | cache i =>
    obtain ⟨hg, hmem⟩ := hinv.objects x i hx
    obtain ⟨part, full, free, hkeeps, -⟩ := hinv.inOrder i
    obtain ⟨p, j, hp, hj, -, rfl⟩ := (hkeeps.held x).mp hmem
    have hslab := (hinv.slab p i).mpr hp
    refine ⟨p, _, .inl ⟨i, hslab, rfl⟩, Nat.le_add_right .., ?_, by simp [hslab], fun i' hi' => ?_⟩
    · exact (Nat.add_le_add_left (objectSize_le i) _).trans (hg.slot_add_size_le hj)
    · cases hslab.symm.trans hi'
      exact ⟨j, rfl⟩
  | pages p order =>
    obtain ⟨rfl, hslab, rfl⟩ := hinv.blocks x p order hx
    refine ⟨p, _, .inr ⟨_, hx⟩, Nat.le_refl _, Nat.le_of_eq ?_, fun _ => rfl, by simp [hslab]⟩
    rw [Origin.bytes, pageToVirt, pageToVirt, Nat.add_mul, Nat.mul_comm 4096, Nat.add_assoc]

/-- As long as no slab was given back too early, no two blocks that are in use have a byte in
common, wherever they come from. -/
theorem blocks_apart {x y : Addr} {o o' : Origin}
    (hr : Reachable Heap.step (fun h op => h.Ok op ∧ h.ReleaseOk op) Start h)
    (hx : (x, o) ∈ h.live) (hy : (y, o') ∈ h.live) (hne : (x, o) ≠ (y, o')) :
    x + o.bytes ≤ y ∨ y + o'.bytes ≤ x := by
  have hinv : Inv h := by
    refine hr.invariant (fun h => inv_start) fun h op b h' hinv hok hstep => ?_
    by_cases hop : op.ArrayOk
    · obtain ⟨b₁, h₁, hstep₁, -, hkeep⟩ := hinv.step hok.1 hop
      cases hstep₁.symm.trans hstep
      exact hkeep hok.2
    · cases (step_eq_none hop).symm.trans hstep
  obtain ⟨p, order, hp, hlo, hhi, hpages, hobject⟩ := hinv.lies hx
  obtain ⟨q, order', hq, hlo', hhi', hpages', hobject'⟩ := hinv.lies hy
  by_cases hpq : p = q
  · subst hpq
    cases hslab : h.slab p with
    | none => exact absurd ((hpages hslab).trans (hpages' hslab).symm) hne
    | some i =>
      obtain ⟨j, hj⟩ := hobject i hslab
      obtain ⟨j', hj'⟩ := hobject' i hslab
      cases hj
      cases hj'
      have hle {z} := Nat.add_le_add_left (objectSize_le i) z
      exact (Geometry.disjoint_of_ne fun hjj => hne (by rw [hjj])).imp hle.trans hle.trans
  · -- a page of both would have two heads
    have hapart : p + 2 ^ order ≤ q ∨ q + 2 ^ order' ≤ p := by
      have hpos := Nat.two_pow_pos order
      have hpos' := Nat.two_pow_pos order'
      by_contra hmeet
      have hmax := hinv.head p order hp (max p q) (by omega) (by omega)
      have hmax' := hinv.head q order' hq (max p q) (by omega) (by omega)
      exact hpq (hmax.symm.trans hmax')
    exact hapart.imp (fun hle => hhi.trans ((Geometry.pageToVirt_le hle).trans hlo'))
      fun hle => hhi'.trans ((Geometry.pageToVirt_le hle).trans hlo)

/-- Two blocks of two pages each. -/
theorem blocks_apart_large :
    Reachable Heap.step (fun h op => h.Ok op ∧ h.ReleaseOk op) Start ((empty.large 2).large 4) ∧
      (pageToVirt 4 + 8192 ≤ pageToVirt 2 ∨ pageToVirt 2 + 8192 ≤ pageToVirt 4) := by
  have hr := reachable_large (p := 4) (by simp +contextual [Heap.Unused, large, empty])
    (reachable_large (p := 2) (by simp [Heap.Unused, empty]) (.start start_empty))
  exact ⟨hr, blocks_apart hr mem_cons_self (mem_cons_of_mem _ mem_cons_self) (by decide)⟩

end Heap

end MyOS2.Kmalloc
