import MyOS2.Misc.Runs
import MyOS2.Mm.Misc.Proofs.PercpuPlace

/-!
# When per-cpu variables keep apart

Because padding is not charged, the place a request is put at may lie past the end of the chunk;
because the units of the cpus are `static_size` apart and not `chunk_size`, a variable of one
cpu may lie over a variable of another. `Areas.MayPut` says that neither happens; the variables
keep apart exactly as long as every request meets it.
-/

namespace MyOS2.Percpu

open List Nat

/-! ## Variables that keep apart -/

def Globals.pointer (g : Globals) (v : Area) : Int :=
  (g.chunks[v.chunk]?.map Chunk.baseAddr).getD 0 + v.off

/-- Every variable is aligned and inside its chunk, the variables of one chunk are disjoint, and so
are the copies of any two on different cpus. -/
structure Areas.Separate (s : Areas) : Prop where
  aligned : ∀ v ∈ s.vars, v.align ∣ v.off
  inside : ∀ v ∈ s.vars, v.off + v.size ≤ s.chunkSize
  apart : s.vars.Pairwise fun v w => v.chunk = w.chunk → Apart v.off v.size w.off w.size
  copies : ∀ v ∈ s.vars, ∀ w ∈ s.vars, ∀ i < s.nrCpuIds, ∀ j < s.nrCpuIds, i ≠ j →
    Apart (s.pointer v + s.pcpuUnitOffsets i) v.size (s.pointer w + s.pcpuUnitOffsets j) w.size

/-- A variable of `size` bytes may be put at `off` in chunk `i`: it ends inside the chunk, and no
distance between two units moves it over a variable of that chunk or over itself. -/
def Areas.MayPut (s : Areas) (i off size : Nat) : Prop :=
  off + size ≤ s.chunkSize ∧ ∀ k, 0 < k → k < s.nrCpuIds →
    Apart (off + (k * s.staticSize : Nat)) size off size ∧
    ∀ v ∈ s.vars, v.chunk = i →
      Apart (off + (k * s.staticSize : Nat)) size v.off v.size ∧
      Apart off size (v.off + (k * s.staticSize : Nat)) v.size

/-- The place a request is put at, if the call comes to that, is a good one. -/
def Areas.PlaceOk (s : Areas) (op : Op) : Prop :=
  ∀ i chunk, s.place op = some (i, chunk) → ¬ chunk.Spins op.align →
    s.MayPut i (align chunk.freeOffset op.align).toNat op.size

/-- The chunks are apart, and the variables lie below their free offsets. -/
structure Areas.Inv (s : Areas) : Prop where
  two : 2 ≤ s.chunks.length
  static_le : s.staticSize ≤ s.chunkSize
  chunkSize_lt : s.chunkSize < 2 ^ 30
  base : ∀ c ∈ s.chunks, c.baseAddr = (c.data : Int) - s.pcpuBaseAddr
  offset_le : ∀ c ∈ s.chunks, c.freeOffset.toNat ≤ s.chunkSize
  units : (s.chunks.map Chunk.data).Pairwise s.unitsApart
  below : ∀ v ∈ s.vars, ∃ c, s.chunks[v.chunk]? = some c ∧ v.off + v.size ≤ c.freeOffset.toNat
  separate : s.Separate

variable {n : Nat}

theorem Apart.symm {a b : Int} {m : Nat} (h : Apart a m b n) : Apart b n a m := by
  unfold Apart at *
  omega

theorem apart_shift {a b d : Int} {m : Nat} : Apart (d + a) m (d + b) n ↔ Apart a m b n := by
  unfold Apart
  omega

theorem Apart.mono {a b a' b' : Int} {m m' n' : Nat} (h : Apart a m b n) (ha : a ≤ a')
    (hm : a' + m' ≤ a + m) (hb : b ≤ b') (hn : b' + n' ≤ b + n) : Apart a' m' b' n' := by
  unfold Apart at *
  omega

variable {c : Chunk}

theorem pointer_eq {g : Globals} {v : Area} (h : g.chunks[v.chunk]? = some c) :
    g.pointer v = c.baseAddr + v.off := by
  simp [Globals.pointer, h]

variable {p off q size : Nat}

namespace Areas.Inv

variable {s : Areas}

theorem grow (h : s.Inv) {news : List Nat}
    (hunits : (s.chunks.map Chunk.data ++ news).Pairwise s.unitsApart) : (s.grow news).Inv := by
  have hold : ∀ {j : Nat} {c : Chunk}, s.chunks[j]? = some c → (s.grow news).chunks[j]? = some c := by
    intro j c hc
    have hlt := (List.getElem?_eq_some_iff.1 hc).1
    rw [Areas.grow, List.getElem?_append_left hlt, hc]
  have hpointer : ∀ v ∈ s.vars, (s.grow news).pointer v = s.pointer v := by
    intro v hv
    obtain ⟨c, hc, -⟩ := h.below v hv
    rw [pointer_eq hc, pointer_eq (hold hc)]
  refine ⟨?_, h.static_le, h.chunkSize_lt, ?_, ?_, ?_, ?_, h.separate.aligned, h.separate.inside,
    h.separate.apart, ?_⟩
  · have := h.two
    simp only [Areas.grow, length_append]
    omega
  · refine forall_mem_append.2 ⟨h.base, fun c hc => ?_⟩
    obtain ⟨d, -, rfl⟩ := mem_map.1 hc
    rfl
  · refine forall_mem_append.2 ⟨h.offset_le, fun c hc => ?_⟩
    obtain ⟨d, -, rfl⟩ := mem_map.1 hc
    exact zero_le _
  · have hdata : (s.grow news).chunks.map Chunk.data = s.chunks.map Chunk.data ++ news := by
      have hid : Chunk.data ∘ s.newChunk = id := rfl
      simp [Areas.grow, hid]
    rw [hdata]
    exact hunits
  · intro v hv
    obtain ⟨c, hc, hle⟩ := h.below v hv
    exact ⟨c, hold hc, hle⟩
  · intro v hv w hw i hi j hj hij
    rw [hpointer v hv, hpointer w hw]
    exact h.separate.copies v hv w hw i hi j hj hij

theorem units_of_ne (h : s.Inv) {i j : Nat} {d : Chunk} (hc : s.chunks[i]? = some c)
    (hd : s.chunks[j]? = some d) (hij : i ≠ j) : s.unitsApart c.data d.data := by
  obtain ⟨hi, rfl⟩ := List.getElem?_eq_some_iff.1 hc
  obtain ⟨hj, rfl⟩ := List.getElem?_eq_some_iff.1 hd
  have hpair := List.pairwise_iff_getElem.1 h.units
  rcases lt_or_gt_of_ne hij with hlt | hlt
  · have h' := hpair i j (by simpa using hi) (by simpa using hj) hlt
    simp only [getElem_map] at h'
    exact h'
  · have h' := hpair j i (by simpa using hj) (by simpa using hi) hlt
    simp only [getElem_map] at h'
    exact Apart.symm h'

theorem copy_le (h : s.Inv) {cpu : Nat} (hin : off + size ≤ s.chunkSize) (hcpu : cpu < s.nrCpuIds) :
    off + s.pcpuUnitOffsets cpu + size ≤ s.nrCpuIds * s.chunkSize := by
  have hmul : cpu * s.staticSize ≤ cpu * s.chunkSize := mul_le_mul_left _ h.static_le
  have hsucc : (cpu + 1) * s.chunkSize ≤ s.nrCpuIds * s.chunkSize := mul_le_mul_right _ hcpu
  rw [add_mul] at hsucc
  unfold Globals.pcpuUnitOffsets
  omega

theorem copies_of_ne (h : s.Inv) {d : Chunk} {i j : Nat} (hc : s.chunks[i]? = some c)
    (hd : s.chunks[j]? = some d) (hij : i ≠ j) {off' size' : Nat}
    (hin : off + size ≤ s.chunkSize) (hin' : off' + size' ≤ s.chunkSize) (hp : p < s.nrCpuIds)
    (hq : q < s.nrCpuIds) :
    Apart (c.baseAddr + off + s.pcpuUnitOffsets p) size
      (d.baseAddr + off' + s.pcpuUnitOffsets q) size' := by
  have hle := h.copy_le hin hp
  have hle' := h.copy_le hin' hq
  have hcb := h.base c (mem_of_getElem? hc)
  have hdb := h.base d (mem_of_getElem? hd)
  have hunits := h.units_of_ne hc hd hij
  rw [Globals.unitsApart, ← apart_shift (d := -(s.pcpuBaseAddr : Int))] at hunits
  apply hunits.mono <;> omega

theorem copies_iff_of_lt (s : Areas) (hpq : p < q) (base : Int) (off size off' size' : Nat) :
    Apart (base + off + s.pcpuUnitOffsets p) size (base + off' + s.pcpuUnitOffsets q) size' ↔
      Apart off size (off' + ((q - p) * s.staticSize : Nat)) size' := by
  have hq : q * s.staticSize = p * s.staticSize + (q - p) * s.staticSize := by
    rw [← add_mul]
    congr 1
    omega
  unfold Globals.pcpuUnitOffsets Apart
  rw [hq]
  omega

theorem copies_of_shifts (s : Areas) {off' size' : Nat} (h : ∀ k, 0 < k → k < s.nrCpuIds →
      Apart (off + (k * s.staticSize : Nat)) size off' size' ∧
      Apart off size (off' + (k * s.staticSize : Nat)) size')
    (base : Int) (hp : p < s.nrCpuIds) (hq : q < s.nrCpuIds) (hpq : p ≠ q) :
    Apart (base + off + s.pcpuUnitOffsets p) size (base + off' + s.pcpuUnitOffsets q) size' := by
  rcases lt_or_gt_of_ne hpq with hlt | hlt
  · rw [copies_iff_of_lt s hlt]
    exact (h (q - p) (by omega) (by omega)).2
  · apply Apart.symm
    rw [copies_iff_of_lt s hlt]
    exact (h (p - q) (by omega) (by omega)).1.symm

section Put

variable {op : Op} {i : Nat} {chunk : Chunk}

section

variable (hget : s.chunks[i]? = some chunk)
include hget

theorem put_getElem? (j : Nat) :
    ((s.put op i chunk).chunks[j]?).map Chunk.baseAddr = (s.chunks[j]?).map Chunk.baseAddr := by
  obtain ⟨hlt, -⟩ := List.getElem?_eq_some_iff.1 hget
  by_cases hj : i = j
  · subst hj
    simp [Areas.put, getElem?_set_self hlt, hget, Chunk.take]
  · simp [Areas.put, getElem?_set_ne hj]

theorem put_pointer (v : Area) : (s.put op i chunk).pointer v = s.pointer v := by
  rw [Globals.pointer, Globals.pointer, put_getElem? hget]

/-- Putting a variable anywhere but at a good place brings two variables together, or one over the
end of its chunk. -/
theorem mayPut_of_separate (h : (s.put op i chunk).Separate) :
    s.MayPut i (align chunk.freeOffset op.align).toNat op.size := by
  have hnew : (⟨i, (align chunk.freeOffset op.align).toNat, op.size, op.align⟩ : Area) ∈
      (s.put op i chunk).vars := mem_cons_self
  refine ⟨h.inside _ hnew, ?_⟩
  intro k hk hkn
  have hcopies : ∀ v ∈ (s.put op i chunk).vars, ∀ w ∈ (s.put op i chunk).vars,
      v.chunk = i → w.chunk = i → Apart v.off v.size (w.off + (k * s.staticSize : Nat)) w.size := by
    intro v hv w hw hvi hwi
    have hc := h.copies v hv w hw 0 (by exact Nat.lt_trans hk hkn) k hkn (Nat.ne_of_lt hk)
    rw [put_pointer hget, put_pointer hget, pointer_eq (hvi ▸ hget), pointer_eq (hwi ▸ hget)] at hc
    exact (copies_iff_of_lt s hk _ _ _ _ _).1 hc
  refine ⟨(hcopies _ hnew _ hnew rfl rfl).symm, ?_⟩
  intro v hv hvi
  have hv' : v ∈ (s.put op i chunk).vars := mem_cons_of_mem _ hv
  exact ⟨(hcopies v hv' _ hnew hvi rfl).symm, hcopies _ hnew v hv' rfl hvi⟩

end

theorem freeOffset_le_align (h : s.Inv) {a : Nat} (hget : s.chunks[i]? = some chunk)
    (hspin : ¬ chunk.Spins a) : chunk.freeOffset.toNat ≤ (align chunk.freeOffset a).toNat := by
  have hle := h.offset_le chunk (mem_of_getElem? hget)
  have hlt := h.chunkSize_lt
  have hsle : chunk.freeOffset.toInt ≤ (align chunk.freeOffset a).toInt := by
    rw [Chunk.Spins, BitVec.slt_iff_toInt_lt] at hspin
    omega
  rw [BitVec.toInt_eq_toNat_of_lt (x := chunk.freeOffset) (by omega)] at hsle
  have hcond := BitVec.toInt_eq_toNat_cond (align chunk.freeOffset a)
  split at hcond <;> omega

theorem put_freeOffset (h : s.Inv)
    (hmay : s.MayPut i (align chunk.freeOffset op.align).toNat op.size) :
    (chunk.take (BitVec.ofNat 32 op.size) (align chunk.freeOffset op.align)).freeOffset.toNat =
      (align chunk.freeOffset op.align).toNat + op.size := by
  have hle := hmay.1
  have hlt := h.chunkSize_lt
  rw [Chunk.take, BitVec.toNat_add, BitVec.toNat_ofNat]
  omega

theorem put_data (hget : s.chunks[i]? = some chunk) :
    (s.put op i chunk).chunks.map Chunk.data = s.chunks.map Chunk.data := by
  obtain ⟨hlt, hget'⟩ := List.getElem?_eq_some_iff.1 hget
  apply List.ext_getElem?
  intro j
  rw [getElem?_map, getElem?_map]
  by_cases hj : i = j
  · subst hj
    rw [hget, Areas.put, getElem?_set_self hlt]
    rfl
  · rw [Areas.put, getElem?_set_ne hj]

theorem put_copies (h : s.Inv) (hget : s.chunks[i]? = some chunk)
    (hmay : s.MayPut i off size) {v : Area} (hv : v ∈ s.vars) (hp : p < s.nrCpuIds)
    (hq : q < s.nrCpuIds) (hpq : p ≠ q) :
    Apart (chunk.baseAddr + off + s.pcpuUnitOffsets p) size
      (s.pointer v + s.pcpuUnitOffsets q) v.size := by
  obtain ⟨c, hc, -⟩ := h.below v hv
  rw [pointer_eq hc]
  by_cases hvi : v.chunk = i
  · obtain rfl : c = chunk := by
      rw [hvi, hget] at hc
      exact (Option.some.inj hc).symm
    exact copies_of_shifts s (fun k hk hkn => (hmay.2 k hk hkn).2 v hv hvi) _ hp hq hpq
  · exact h.copies_of_ne hget hc (Ne.symm hvi) hmay.1 (h.separate.inside v hv) hp hq

section

variable (h : s.Inv) (hget : s.chunks[i]? = some chunk) (hok : ∃ k, op.align = 2 ^ k)
  (hspin : ¬ chunk.Spins op.align)
  (hmay : s.MayPut i (align chunk.freeOffset op.align).toNat op.size)
include h hget hok hspin hmay

theorem put_separate : (s.put op i chunk).Separate := by
  constructor
  · intro v hv
    rcases mem_cons.1 hv with rfl | hv
    · obtain ⟨k, hk⟩ := hok
      simp only [hk]
      exact dvd_align chunk.freeOffset k
    · exact h.separate.aligned v hv
  · intro v hv
    rcases mem_cons.1 hv with rfl | hv
    · exact hmay.1
    · exact h.separate.inside v hv
  · refine pairwise_cons.2 ⟨?_, h.separate.apart⟩
    intro v hv hvi
    obtain ⟨c, hc, hle⟩ := h.below v hv
    rw [← hvi, hget] at hc
    cases hc
    have hfree := h.freeOffset_le_align hget hspin
    have hlow : v.off + v.size ≤ (align chunk.freeOffset op.align).toNat := by omega
    exact .inr (.inr (.inr (by exact_mod_cast hlow)))
  · intro v hv w hw p hp q hq hpq
    rw [put_pointer hget, put_pointer hget]
    rcases mem_cons.1 hv with rfl | hv
    · rw [pointer_eq (c := chunk) hget]
      rcases mem_cons.1 hw with rfl | hw
      · rw [pointer_eq (c := chunk) hget]
        exact copies_of_shifts s (fun k hk hkn =>
          ⟨(hmay.2 k hk hkn).1, (hmay.2 k hk hkn).1.symm⟩) _ hp hq hpq
      · exact h.put_copies hget hmay hw hp hq hpq
    · rcases mem_cons.1 hw with rfl | hw
      · rw [pointer_eq (v := ⟨i, _, _, _⟩) (c := chunk) hget]
        exact (h.put_copies hget hmay hv hq hp hpq.symm).symm
      · exact h.separate.copies v hv w hw p hp q hq hpq

theorem put : (s.put op i chunk).Inv := by
  have hmem := mem_of_getElem? hget
  obtain ⟨hlt, -⟩ := List.getElem?_eq_some_iff.1 hget
  have hfree := h.put_freeOffset hmay
  have hfree' := h.freeOffset_le_align hget hspin
  constructor
  · simpa [Areas.put] using h.two
  · exact h.static_le
  · exact h.chunkSize_lt
  · intro c hc
    rcases mem_or_eq_of_mem_set hc with hc | rfl
    · exact h.base c hc
    · exact h.base chunk hmem
  · intro c hc
    rcases mem_or_eq_of_mem_set hc with hc | rfl
    · exact h.offset_le c hc
    · rw [hfree]
      exact hmay.1
  · rw [put_data hget]
    exact h.units
  · intro v hv
    rcases mem_cons.1 hv with rfl | hv
    · exact ⟨_, getElem?_set_self hlt, le_of_eq hfree.symm⟩
    · obtain ⟨c, hc, hle⟩ := h.below v hv
      by_cases hvi : i = v.chunk
      · rw [← hvi, hget] at hc
        cases hc
        refine ⟨_, ?_, le_trans hle (hfree ▸ le_trans hfree' (le_add_right _ _))⟩
        rw [← hvi]
        exact getElem?_set_self hlt
      · exact ⟨c, (getElem?_set_ne hvi).trans hc, hle⟩
  · exact h.put_separate hget hok hspin hmay

end

end Put

end Areas.Inv

variable {s : Areas}

/-! ## Runs -/

theorem Areas.Inv.not_spins (h : s.Inv) {op : Op} {k i : Nat} {chunk : Chunk}
    (halign : op.align = 2 ^ k) (hk : k ≤ 30) (hplace : s.place op = some (i, chunk)) :
    ¬ chunk.Spins op.align := by
  have hlt := h.chunkSize_lt
  obtain ⟨news, -, hget, -⟩ := allocNoprof_eq h.two op
  have hfree : chunk.freeOffset.toNat ≤ s.chunkSize := by
    rcases mem_append.1 (mem_of_getElem? (hget i chunk hplace)) with hmem | hmem
    · exact h.offset_le chunk hmem
    · obtain ⟨d, -, rfl⟩ := mem_map.1 hmem
      exact zero_le _
  obtain ⟨hle, hlt'⟩ := le_align (x := chunk.freeOffset) (k := k) (by omega) hk
  rw [Chunk.Spins, halign, BitVec.slt_iff_toInt_lt, BitVec.toInt_eq_toNat_of_lt (by omega),
    BitVec.toInt_eq_toNat_of_lt (by omega)]
  omega

/-- A call that comes back keeps the variables apart exactly when it put its variable at a good
place, and then the run can go on. -/
theorem Areas.Inv.step {s' : Areas} (h : s.Inv) {op : Op} (hok : s.Ok op) {r : Option Int}
    (hstep : s.step op = some (r, s')) :
    (s'.Separate ↔ s.PlaceOk op) ∧ (s.PlaceOk op → s'.Inv) := by
  obtain ⟨halign, -, -, hunits⟩ := hok
  obtain ⟨news, hnews, hcases⟩ := Areas.step_cases h.two hstep
  have hsub : (s.chunks.map Chunk.data ++ news).Pairwise s.unitsApart :=
    hunits.sublist (hnews.sublist.append_left _)
  have hgrow := h.grow hsub
  rcases hcases with ⟨hnone, rfl⟩ | ⟨i, chunk, hplace, hget, hspin, rfl⟩
  · have hplaceOk : s.PlaceOk op := by
      intro i chunk hplace
      rw [hnone] at hplace
      cases hplace
    exact ⟨⟨fun _ => hplaceOk, fun _ => hgrow.separate⟩, fun _ => hgrow⟩
  · -- the condition speaks about the variables only, which new chunks leave alone
    have hiff : s.PlaceOk op ↔
        (s.grow news).MayPut i (align chunk.freeOffset op.align).toNat op.size := by
      constructor
      · intro hp
        exact hp i chunk hplace hspin
      · intro hmay j c hplace' _
        rw [hplace] at hplace'
        cases hplace'
        exact hmay
    refine ⟨⟨fun hsep => hiff.2 (Areas.Inv.mayPut_of_separate hget hsep), fun hp => ?_⟩,
      fun hp => hgrow.put hget halign hspin (hiff.1 hp)⟩
    exact (hgrow.put hget halign hspin (hiff.1 hp)).separate

theorem le_roundupPowOfTwo (hn : 1 < n) : n ≤ roundupPowOfTwo n := by
  have hlt := lt_log2_self (n := n - 1)
  unfold roundupPowOfTwo
  omega

theorem roundupPowOfTwo_le {k : Nat} (hn : 1 < n) (hk : n ≤ 2 ^ k) : roundupPowOfTwo n ≤ 2 ^ k := by
  apply Nat.pow_le_pow_right (by decide)
  exact (log2_lt (by omega)).2 (by omega)

theorem Areas.Start.inv (h : s.Start) : s.Inv := by
  obtain ⟨nrCpuIds, staticSize, first, reserved, hstatic, hg, hunits, hvars⟩ := h
  obtain ⟨g, vars⟩ := s
  subst hg hvars
  have hsum : 1 < sizeSum staticSize := by unfold sizeSum pageSize; omega
  have hle := le_roundupPowOfTwo hsum
  have hchunk : roundupPowOfTwo (sizeSum staticSize) ≤ 2 ^ 25 :=
    roundupPowOfTwo_le hsum (by unfold sizeSum pageSize; omega)
  have hstatic_le : staticSize ≤ sizeSum staticSize := le_add_right _ _
  have hfree : (BitVec.ofNat 32 (sizeSum staticSize)).toNat = sizeSum staticSize := by
    rw [BitVec.toNat_ofNat]
    omega
  refine ⟨le_refl 2, le_trans hstatic_le hle, lt_of_le_of_lt hchunk (by decide), ?_, ?_,
    ?_, ?_, ?_, ?_, pairwise_singleton _ _, ?_⟩
  · exact forall_mem_cons.2 ⟨by simp [simplePcpuSetupFirstChunk],
      forall_mem_singleton.2 rfl⟩
  · exact forall_mem_cons.2 ⟨hfree.le.trans hle, forall_mem_singleton.2 (zero_le _)⟩
  · simpa [simplePcpuSetupFirstChunk, Globals.newChunk] using hunits
  · exact forall_mem_singleton.2 ⟨_, rfl, (zero_add _).le.trans (hstatic_le.trans hfree.ge)⟩
  · exact forall_mem_singleton.2 (one_dvd _)
  · exact forall_mem_singleton.2 ((zero_add _).le.trans (hstatic_le.trans hle))
  · refine forall_mem_singleton.2 (forall_mem_singleton.2 fun i hi j hj hij => ?_)
    -- units `static_size` apart are just what the static area needs
    refine Areas.Inv.copies_of_shifts _ (fun k hk _ => ?_) _ hi hj hij
    have hmul : staticSize ≤ k * staticSize := Nat.le_mul_of_pos_left _ hk
    simp only [Apart, simplePcpuSetupFirstChunk]
    omega

namespace Areas

/-- The requests of a run are permitted and put at good places. -/
def OkAt (s : Areas) (op : Op) : Prop := s.Ok op ∧ s.PlaceOk op

theorem reachable_inv (h : Reachable Areas.step OkAt Start s) : s.Inv := by
  apply h.invariant
  · intro s hs
    exact hs.inv
  · intro s op r s' hinv hok hstep
    exact (hinv.step hok.1 hstep).2 hok.2

/-- As long as every request was put at a good place, the per-cpu variables keep apart, and the next
request keeps them apart exactly when it is put at one too; with an alignment of at most `2^30` it
always comes back. -/
theorem separate_iff_placeOk {s : Areas}
    (h : Reachable Areas.step OkAt Start s) :
    s.Separate ∧ ∀ op, s.Ok op →
      (∀ r s', s.step op = some (r, s') → (s'.Separate ↔ s.PlaceOk op)) ∧
      (op.align ≤ 2 ^ 30 → ∃ r s', s.step op = some (r, s')) := by
  have hinv := reachable_inv h
  refine ⟨hinv.separate, fun op hok => ⟨fun r s' hstep => (hinv.step hok hstep).1, fun hle => ?_⟩⟩
  obtain ⟨k, hk⟩ := hok.1
  have hk30 : k ≤ 30 := (Nat.pow_le_pow_iff_right (by decide)).1 (hk ▸ hle)
  exact step_isSome hinv.two fun i chunk hplace => hinv.not_spins hk hk30 hplace

def onePage (nrCpuIds : Nat) : Areas :=
  { toGlobals := simplePcpuSetupFirstChunk nrCpuIds 4096 0x100000 0x200000
    vars := [{ chunk := 0, off := 0, size := 4096, align := 1 }] }

theorem onePage_start : (onePage 4).Start :=
  ⟨4, 4096, 0x100000, 0x200000, by decide, rfl, by decide +kernel, rfl⟩

/-- Four processors, and a page of static variables. -/
theorem separate_iff_placeOk_onePage :
    (onePage 4).Start ∧ (onePage 4).Separate ∧ ∀ op, (onePage 4).Ok op →
      (∀ r s', (onePage 4).step op = some (r, s') → (s'.Separate ↔ (onePage 4).PlaceOk op)) ∧
      (op.align ≤ 2 ^ 30 → ∃ r s', (onePage 4).step op = some (r, s')) :=
  ⟨onePage_start, separate_iff_placeOk (.start onePage_start)⟩

/-- With four cpus, the first eight bytes allocated for cpu 0 are the first eight static bytes of
cpu 3. -/
theorem first_request_over_static :
    (onePage 4).Start ∧
    ∃ s, (onePage 4).step { size := 8, align := 8, reserved := false, news := [] } =
        some (some 12288, s) ∧ ¬ s.Separate := by
  refine ⟨onePage_start, (onePage 4).put ⟨8, 8, false, []⟩ 0 ⟨4096, 12288, 0, 0x100000⟩,
    by decide +kernel, ?_⟩
  intro h
  have hcopy := h.copies { chunk := 0, off := 12288, size := 8, align := 8 } (by decide +kernel)
    { chunk := 0, off := 0, size := 4096, align := 1 } (by decide +kernel) 0 (by decide +kernel) 3
    (by decide +kernel) (by decide)
  revert hcopy
  decide +kernel

end Areas

end MyOS2.Percpu
