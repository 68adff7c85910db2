import MyOS2.Mm.Misc.Percpu
import Mathlib.Tactic.Common
import MyOS2.Misc.Word

/-!
# Where a per-cpu request is put

A request is put at the aligned free offset of the first chunk whose free bytes
admit it; a new chunk is created when there is none.
-/

namespace MyOS2.Percpu

open Option

/-! ## Aligned offsets -/

theorem mask_toNat {k : Nat} (hk : k < 32) : (BitVec.ofNat 32 (2 ^ k) - 1).toNat = 2 ^ k - 1 := by
  have hpow : 2 ^ k < 2 ^ 32 := Nat.pow_lt_pow_right (by decide) hk
  have hpos := Nat.two_pow_pos k
  have hone : BitVec.toNat (1 : BitVec 32) = 1 := rfl
  rw [BitVec.toNat_sub, BitVec.toNat_ofNat, hone, Nat.mod_eq_of_lt hpow]
  omega

/-- Whatever the alignment, also beyond the range of an `int`, the aligned offset is a multiple of
it. -/
theorem dvd_align (x : CInt) (k : Nat) : 2 ^ k ∣ (align x (2 ^ k)).toNat := by
  by_cases hk : k < 32
  · have hzero : align x (2 ^ k) &&& (BitVec.ofNat 32 (2 ^ k) - 1) = 0 := by
      simp [align, BitVec.and_assoc]
    apply Nat.dvd_of_mod_eq_zero
    rw [← Nat.and_two_pow_sub_one_eq_mod, ← mask_toNat hk, ← BitVec.toNat_and, hzero]
    rfl
  · have hpow : BitVec.ofNat 32 (2 ^ k) = 0 := by
      apply BitVec.eq_of_toNat_eq
      have hdvd : 2 ^ 32 ∣ 2 ^ k := Nat.pow_dvd_pow 2 (by omega)
      exact Nat.mod_eq_zero_of_dvd hdvd
    simp [align, hpow]

theorem le_align {x : CInt} {k : Nat} (hx : x.toNat < 2 ^ 30) (hk : k ≤ 30) :
    x.toNat ≤ (align x (2 ^ k)).toNat ∧ (align x (2 ^ k)).toNat < 2 ^ 31 := by
  have hmask := mask_toNat (k := k) (by omega)
  have hpos := Nat.two_pow_pos k
  have hpow : 2 ^ k ≤ 2 ^ 30 := Nat.pow_le_pow_right (by decide) hk
  have hsum : (x + (BitVec.ofNat 32 (2 ^ k) - 1)).toNat = x.toNat + (2 ^ k - 1) := by
    rw [BitVec.toNat_add, hmask]
    omega
  have hcut := toNat_and_not_add (x + (BitVec.ofNat 32 (2 ^ k) - 1)) (BitVec.ofNat 32 (2 ^ k) - 1)
  have hlow : ((x + (BitVec.ofNat 32 (2 ^ k) - 1)) &&& (BitVec.ofNat 32 (2 ^ k) - 1)).toNat ≤
      2 ^ k - 1 := by
    rw [BitVec.toNat_and, hmask]
    exact Nat.and_le_right
  rw [hsum] at hcut
  simp only [align]
  omega

/-! ## Where a request is put -/

/-- The free bytes of the chunk admit the request. -/
def Chunk.fits (chunk : Chunk) (size : CInt) (a : Nat) : Bool :=
  !(simplePcpuFindBlockFit chunk size a).slt 0

def firstFit (size : CInt) (a : Nat) : List Chunk → Option (Nat × Chunk)
  | [] => none
  | chunk :: rest =>
    if chunk.fits size a then some (0, chunk)
    else (firstFit size a rest).map fun r => (r.1 + 1, r.2)

def Globals.place (g : Globals) (op : Op) : Option (Nat × Chunk) :=
  let size : CInt := BitVec.ofNat 32 op.size
  if op.reserved then
    (g.chunks[1]?.filter fun c => c.fits size op.align).map fun c => (1, c)
  else firstFit size op.align (g.chunks ++ (op.news.take 1).map g.newChunk)

theorem slt_find (chunk : Chunk) (size : CInt) (a : Nat) :
    (simplePcpuFindBlockFit chunk size a).slt 0 = !chunk.fits size a := by
  rw [Chunk.fits, Bool.not_not]

theorem find_of_fits {chunk : Chunk} {size : CInt} {a : Nat} (h : chunk.fits size a = true) :
    simplePcpuFindBlockFit chunk size a = align chunk.freeOffset a := by
  rw [Chunk.fits, simplePcpuFindBlockFit] at h
  rw [simplePcpuFindBlockFit]
  split at h
  · simp [enomem] at h
  · next hfree => rw [if_neg hfree]

def Chunk.serve (chunk : Chunk) (size : CInt) (a : Nat) : Option (CInt × Chunk) :=
  simplePcpuAllocArea chunk size (align chunk.freeOffset a)

theorem searchChunks_eq (size : CInt) (a : Nat) (chunks : List Chunk) :
    searchChunks size a chunks =
      match firstFit size a chunks with
      | none => some none
      | some (i, chunk) => (chunk.serve size a).map fun r => some (i, r.1, chunks.set i r.2) := by
  induction chunks with
  | nil => rfl
  | cons chunk rest ih =>
    rw [searchChunks, firstFit, slt_find]
    by_cases hfit : chunk.fits size a = true
    · simp only [find_of_fits hfit, hfit, Bool.not_true, if_true, Bool.false_eq_true, if_false,
        Chunk.serve]
      cases simplePcpuAllocArea chunk size (align chunk.freeOffset a) <;> rfl
    · simp only [hfit, Bool.not_false, if_true, Bool.false_eq_true, if_false, ih]
      cases firstFit size a rest with
      | none => rfl
      | some r =>
        simp only [map_some]
        cases r.2.serve size a <;> rfl

theorem firstFit_append (size : CInt) (a : Nat) (chunks more : List Chunk) :
    firstFit size a (chunks ++ more) = (firstFit size a chunks).or
      ((firstFit size a more).map fun r => (chunks.length + r.1, r.2)) := by
  induction chunks with
  | nil => simp [firstFit]
  | cons chunk rest ih =>
    rw [List.cons_append, firstFit, firstFit]
    split
    · rfl
    · rw [ih, map_or, map_map]
      congr 2
      funext r
      simp only [Function.comp, List.length_cons, Prod.mk.injEq, and_true]
      omega

theorem firstFit_getElem? {size : CInt} {a i : Nat} {chunks : List Chunk} {chunk : Chunk}
    (h : firstFit size a chunks = some (i, chunk)) : chunks[i]? = some chunk := by
  induction chunks generalizing i with
  | nil => simp [firstFit] at h
  | cons c rest ih =>
    rw [firstFit] at h
    split at h
    · cases h
      rfl
    · obtain ⟨r, hr, he⟩ := map_eq_some_iff.1 h
      cases he
      exact ih hr

theorem firstFit_newChunks (size : CInt) (a : Nat) (g : Globals) (datas : List Nat)
    (hfit : ¬ (g.newChunk 0).fits size a = true) :
    firstFit size a (datas.map g.newChunk) = none := by
  induction datas with
  | nil => rfl
  | cons d ds ih =>
    have hd : ¬ (g.newChunk d).fits size a = true := hfit
    rw [List.map_cons, firstFit, if_neg hd, ih, map_none]

/-- The chunks among which index `i` was found: a new one is there only when none of the old ones
fitted. -/
def Globals.grown (g : Globals) (i : Nat) (news : List Nat) : List Chunk :=
  if i < g.chunks.length then g.chunks else g.chunks ++ (news.take 1).map g.newChunk

theorem restart_eq (size : CInt) (a : Nat) (news : List Nat) (g : Globals) :
    restart size a news g =
      match firstFit size a (g.chunks ++ (news.take 1).map g.newChunk) with
      | none => some (none, { g with chunks := g.chunks ++ news.map g.newChunk })
      | some (i, chunk) => (chunk.serve size a).map fun r =>
          (some (i, r.1), { g with chunks := (g.grown i news).set i r.2 }) := by
  induction news generalizing g with
  | nil =>
    rw [restart, searchChunks_eq]
    simp only [List.take_nil, List.map_nil, List.append_nil, Globals.grown]
    cases firstFit size a g.chunks with
    | none => rfl
    | some r =>
      simp only [ite_self]
      cases r.2.serve size a <;> rfl
  | cons data news ih =>
    rw [restart, searchChunks_eq, firstFit_append]
    cases hold : firstFit size a g.chunks with
    | some r =>
      obtain ⟨i, chunk⟩ := r
      have hlt : i < g.chunks.length := (List.getElem?_eq_some_iff.1 (firstFit_getElem? hold)).1
      simp only [some_or, Globals.grown, if_pos hlt]
      cases chunk.serve size a <;> rfl
    | none =>
      simp only [bind_eq_bind, bind_some, ih, firstFit_append, hold, none_or,
        List.take_succ_cons, List.take_zero, List.map_singleton]
      by_cases hfit : (g.newChunk 0).fits size a = true
      · -- the chunk just created serves the request
        have hfound : firstFit size a [g.newChunk data] = some (0, g.newChunk data) := if_pos hfit
        have hlt : g.chunks.length < (g.chunks ++ [g.newChunk data]).length := by simp
        simp only [hfound, map_some, some_or, Nat.add_zero, Globals.grown, if_pos hlt,
          Nat.lt_irrefl, if_false, List.take_succ_cons, List.take_zero, List.map_singleton]
      · -- no new chunk will ever fit
        have hnone := firstFit_newChunks size a g [data] hfit
        have hnone' := firstFit_newChunks size a g (news.take 1) hfit
        have hsame : ({ g with chunks := g.chunks ++ [g.newChunk data] } : Globals).newChunk =
          g.newChunk := rfl
        rw [List.map_singleton] at hnone
        simp only [hnone, hsame, hnone', map_none, none_or]
        simp

theorem allocReserved_eq (size : CInt) (a : Nat) {g : Globals} (htwo : 2 ≤ g.chunks.length) :
    allocReserved size a g =
      match g.chunks[1]?.filter fun c => c.fits size a with
      | none => some (none, g)
      | some chunk => (chunk.serve size a).map fun r =>
          (some (1, r.1), { g with chunks := g.chunks.set 1 r.2 }) := by
  match hc : g.chunks, htwo with
  | first :: reserved :: rest, _ =>
    simp only [allocReserved, hc, List.getElem?_cons_succ, List.getElem?_cons_zero, slt_find,
      Option.filter]
    by_cases hfit : reserved.fits size a = true
    · simp only [find_of_fits hfit, hfit, Bool.not_true, if_true, Bool.false_eq_true, if_false,
        Chunk.serve]
      cases simplePcpuAllocArea reserved size (align reserved.freeOffset a) <;> rfl
    · simp only [hfit, Bool.not_false, if_true, Bool.false_eq_true, if_false]

theorem allocNoprof_eq {g : Globals} (htwo : 2 ≤ g.chunks.length) (op : Op) :
    ∃ news, news <+: op.news ∧
      (∀ i chunk, g.place op = some (i, chunk) →
        (g.chunks ++ news.map g.newChunk)[i]? = some chunk) ∧
      simplePcpuAllocNoprof op.size op.align op.reserved op.news g =
        match g.place op with
        | none => some (none, { g with chunks := g.chunks ++ news.map g.newChunk })
        | some (i, chunk) =>
          (chunk.serve (BitVec.ofNat 32 op.size) op.align).map fun r =>
            (some (i, r.1), { g with chunks := (g.chunks ++ news.map g.newChunk).set i r.2 }) := by
  by_cases hres : op.reserved = true
  · refine ⟨[], List.nil_prefix, ?_, ?_⟩
    · intro i chunk hplace
      rw [Globals.place, if_pos hres] at hplace
      obtain ⟨c, hc, he⟩ := map_eq_some_iff.1 hplace
      cases he
      simpa using (filter_eq_some_iff.1 hc).1
    · rw [simplePcpuAllocNoprof, if_pos hres, allocReserved_eq _ _ htwo, Globals.place, if_pos hres]
      simp only [List.map_nil, List.append_nil]
      cases g.chunks[1]?.filter fun c => c.fits (BitVec.ofNat 32 op.size) op.align <;> rfl
  · have hplace : g.place op = firstFit (BitVec.ofNat 32 op.size) op.align
        (g.chunks ++ (op.news.take 1).map g.newChunk) := by
      rw [Globals.place, if_neg hres]
    rw [simplePcpuAllocNoprof, if_neg hres, restart_eq, ← hplace]
    cases hfound : g.place op with
    | none => exact ⟨op.news, List.prefix_rfl, by simp, rfl⟩
    | some found =>
      obtain ⟨i, chunk⟩ := found
      have hget := firstFit_getElem? (hplace ▸ hfound)
      by_cases hlt : i < g.chunks.length
      · refine ⟨[], List.nil_prefix, ?_, by simp [Globals.grown, hlt]⟩
        intro i' chunk' h
        cases h
        simpa [List.getElem?_append_left hlt] using hget
      · refine ⟨op.news.take 1, List.take_prefix _ _, ?_, by simp [Globals.grown, hlt]⟩
        intro i' chunk' h
        cases h
        exact hget

def Areas.put (s : Areas) (op : Op) (i : Nat) (chunk : Chunk) : Areas :=
  let size : CInt := BitVec.ofNat 32 op.size
  let off := align chunk.freeOffset op.align
  { s with
    chunks := s.chunks.set i (chunk.take size off)
    vars := { chunk := i, off := off.toNat, size := op.size, align := op.align } :: s.vars }

def Areas.grow (s : Areas) (news : List Nat) : Areas :=
  { s with chunks := s.chunks ++ news.map s.newChunk }

/-- The call spins for ever on the chunk it settles on. -/
def Chunk.Spins (chunk : Chunk) (a : Nat) : Prop :=
  (align chunk.freeOffset a).slt chunk.freeOffset = true

/-- The two ways a call comes back: `NULL`, when no chunk fits, or the place in the first chunk that
does. -/
theorem Areas.step_cases {s s' : Areas} {op : Op} {r : Option Int} (htwo : 2 ≤ s.chunks.length)
    (h : s.step op = some (r, s')) :
    ∃ news, news <+: op.news ∧
      ((s.place op = none ∧ s' = s.grow news) ∨
        ∃ i chunk, s.place op = some (i, chunk) ∧ (s.grow news).chunks[i]? = some chunk ∧
          ¬ chunk.Spins op.align ∧ s' = (s.grow news).put op i chunk) := by
  obtain ⟨news, hnews, hget, heq⟩ := allocNoprof_eq htwo op
  refine ⟨news, hnews, ?_⟩
  rw [Areas.step, heq] at h
  cases hplace : s.place op with
  | none =>
    rw [hplace] at h
    cases h
    exact .inl ⟨rfl, rfl⟩
  | some found =>
    obtain ⟨i, chunk⟩ := found
    simp only [hplace, Chunk.serve, simplePcpuAllocArea] at h
    split at h
    · cases h
    · next hspin =>
      cases h
      exact .inr ⟨i, chunk, rfl, hget i chunk hplace, hspin, rfl⟩

theorem Areas.step_isSome {s : Areas} {op : Op} (htwo : 2 ≤ s.chunks.length)
    (hspin : ∀ i chunk, s.place op = some (i, chunk) → ¬ chunk.Spins op.align) :
    ∃ r s', s.step op = some (r, s') := by
  obtain ⟨news, -, -, heq⟩ := allocNoprof_eq htwo op
  rw [Areas.step, heq]
  cases hplace : s.place op with
  | none => exact ⟨_, _, rfl⟩
  | some found =>
    have hno := hspin found.1 found.2 hplace
    rw [Chunk.Spins] at hno
    simp only [Chunk.serve, simplePcpuAllocArea, if_neg hno]
    exact ⟨_, _, rfl⟩

/-! ## How often the search starts again -/

section Restart

variable {g : Globals}

/-- The call answers, after one new chunk at most. -/
def Globals.Settles (g : Globals) (op : Op) : Prop :=
  ∃ r g', simplePcpuAllocNoprof op.size op.align op.reserved op.news g = some (r, g') ∧
    g'.chunks.length ≤ g.chunks.length + 1

/-- The chunk that has to serve the request does not make the call spin; if there is none, the
request is a reserved one, or `kzalloc` has memory for one chunk at most. -/
def Globals.Answerable (g : Globals) (op : Op) : Prop :=
  (∀ i chunk, g.place op = some (i, chunk) → ¬ chunk.Spins op.align) ∧
    (g.place op = none → op.reserved = true ∨ op.news.length ≤ 1)

theorem Chunk.serve_eq (chunk : Chunk) (size : CInt) (a : Nat) :
    (chunk.Spins a ∧ chunk.serve size a = none) ∨
      (¬ chunk.Spins a ∧ ∃ r, chunk.serve size a = some r) := by
  by_cases hspin : chunk.Spins a
  · exact .inl ⟨hspin, if_pos hspin⟩
  · exact .inr ⟨hspin, _, if_neg hspin⟩

/-- `simple_pcpu_alloc_noprof` (`percpu.c:231-331`) answers after one new chunk at most exactly for
the requests that `Answerable` describes. -/
theorem settles_iff (htwo : 2 ≤ g.chunks.length) (op : Op) : g.Settles op ↔ g.Answerable op := by
  rw [Globals.Settles, Globals.Answerable, simplePcpuAllocNoprof, Globals.place]
  cases hres : op.reserved with
  | true =>
    simp only [if_true, allocReserved_eq _ _ htwo]
    cases g.chunks[1]?.filter fun c => c.fits (BitVec.ofNat 32 op.size) op.align with
    | none => simp
    | some chunk =>
      obtain ⟨hspin, hserve⟩ | ⟨hspin, r, hserve⟩ :=
        chunk.serve_eq (BitVec.ofNat 32 op.size) op.align <;> simp [hspin, hserve]
  | false =>
    simp only [Bool.false_eq_true, if_false, restart_eq, false_or]
    cases firstFit (BitVec.ofNat 32 op.size) op.align
        (g.chunks ++ (op.news.take 1).map g.newChunk) with
    | none => simp
    | some found =>
      obtain ⟨i, chunk⟩ := found
      obtain ⟨hspin, hserve⟩ | ⟨hspin, r, hserve⟩ :=
        chunk.serve_eq (BitVec.ofNat 32 op.size) op.align
      · simp [hspin, hserve]
      · have hlen : (g.grown i op.news).length ≤ g.chunks.length + 1 := by
          rw [Globals.grown]
          split <;> simp
        simp [hspin, hserve, hlen]

def bare : Globals := simplePcpuSetupFirstChunk 1 0 0 0x10000

/-- The chunks there are have no room for the second request, so that a new one has to serve it. -/
theorem settles_second : ∃ g : Globals,
    simplePcpuAllocNoprof 0x1800 8 false [] bare = some (some (1, 0), g) ∧
    g.place ⟨0x1800, 8, false, [0x20000, 0x30000]⟩ = some (2, g.newChunk 0x20000) ∧
    g.Settles ⟨0x1800, 8, false, [0x20000, 0x30000]⟩ := by
  let g : Globals := { bare with chunks := [⟨0, 0x2000, 0, 0⟩, ⟨0x800, 0x1800, 0x10000, 0x10000⟩] }
  have hplace : g.place ⟨0x1800, 8, false, [0x20000, 0x30000]⟩ = some (2, g.newChunk 0x20000) := by
    decide +kernel
  refine ⟨g, by decide +kernel, hplace, (settles_iff (by decide) _).mpr ⟨?_, ?_⟩⟩
  · intro i chunk hfound
    obtain ⟨rfl, rfl⟩ := Prod.mk.inj (Option.some.inj (hplace.symm.trans hfound))
    rw [Chunk.Spins]
    decide +kernel
  · intro hnone
    exact absurd (hplace.symm.trans hnone) (Option.some_ne_none _)

/-- A request that is larger than a chunk takes all the memory there is for chunks. -/
theorem restarts_without_end : ¬ bare.Settles ⟨0x4000, 8, false, [0x20000, 0x30000, 0x40000]⟩ := by
  have hcall : (simplePcpuAllocNoprof 0x4000 8 false [0x20000, 0x30000, 0x40000] bare).map
      (fun r => r.2.chunks.length) = some (bare.chunks.length + 3) := by
    decide +kernel
  rintro ⟨r, g', hg', hlen⟩
  rw [hg'] at hcall
  have := Option.some.inj hcall
  simp only at this
  omega

end Restart

end MyOS2.Percpu
