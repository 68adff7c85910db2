import MyOS2.Misc.Runs
import MyOS2.Mm.VmMap.Filemap

/-!
# The page cache as a flat file

A transfer whose end is not a multiple of the page size reads or writes exactly
its range of the file's logical content. When the end is page aligned, the
length of the last part is computed from `end % PAGE_SIZE = 0`, and the call
either leaves out the last page or passes a negative length to `memcpy`.
-/

namespace MyOS2.Filemap

open Function Option

/-! ## The parts of a range -/

def copiedTo (start end_ p : Nat) : Nat := min (max p start) end_

section Chunks

variable {start end_ p : Nat}

theorem copiedTo_of_end_le (start : Nat) (hp : end_ ≤ p) : copiedTo start end_ p = end_ := by
  unfold copiedTo
  omega

theorem copiedTo_of_lt (hse : start < end_) (hp : p < end_) :
    copiedTo start end_ p = max p start := by
  unfold copiedTo
  omega

variable (hp : p % pageSize = 0) (hsp : start < p + pageSize)
include hp hsp

theorem inpageStart_eq : inpageStart start p = max p start - p := by
  unfold inpageStart pageSize at *
  omega

/-- With an end that is not page aligned, the length is that of the part of the page that lies in
the range. -/
theorem chunkLen_eq (hse : start < end_) (hend : end_ % pageSize ≠ 0) (hpe : p < end_) :
    chunkLen start end_ p =
      ((copiedTo start end_ (p + pageSize) - copiedTo start end_ p : Nat) : Int) := by
  rw [copiedTo_of_lt hse hpe, chunkLen, inpageStart_eq hp hsp]
  unfold copiedTo pageSize at *
  split <;> omega

theorem chunkLen_last (hend : end_ % pageSize = 0) (hlast : end_ ≤ p + pageSize) :
    chunkLen start end_ p = -((max p start - p : Nat) : Int) := by
  rw [chunkLen, inpageStart_eq hp hsp]
  split <;> omega

theorem chunkLen_not_last (hnot : p + pageSize < end_) :
    chunkLen start end_ p = ((p + pageSize - max p start : Nat) : Int) := by
  rw [chunkLen, inpageStart_eq hp hsp]
  split <;> omega

end Chunks

variable {p : Nat} {s : Mapping}

/-! ## Pages and content -/

namespace Mapping

/-- No frame is cached for two pages, and none lies outside the array. -/
structure Inv (s : Mapping) : Prop where
  once : ∀ i j frame, s.pageArray i = some frame → s.pageArray j = some frame → i = j

theorem content_of_cached {off frame : Nat} (h : s.pageArray (off / pageSize) = some frame) :
    s.content off = s.mem frame (off % pageSize) := by
  simp only [content, h]

theorem content_of_not_cached {off : Nat}
    (h : s.pageArray (off / pageSize) = none) : s.content off = s.file off := by
  simp only [content, h]

section Fill

variable {s : Mapping} {frame p : Nat}

/-- Filling a page with the file's bytes leaves the logical content as it was. -/
theorem content_fill (hp : p % pageSize = 0) (hpage : s.pageArray (p / pageSize) = none)
    (hunused : ∀ j, s.pageArray j ≠ some frame) : (s.fill frame p).content = s.content := by
  funext off
  by_cases hoff : off / pageSize = p / pageSize
  · have hnew : (s.fill frame p).pageArray (off / pageSize) = some frame := by simp [fill, hoff]
    have hold : s.pageArray (off / pageSize) = none := by rw [hoff, hpage]
    rw [content_of_not_cached hold, content_of_cached hnew]
    have haddr : p + off % pageSize = off := by unfold pageSize at *; omega
    simp [fill, haddr]
  · have hsame : (s.fill frame p).pageArray (off / pageSize) = s.pageArray (off / pageSize) :=
      update_of_ne hoff _ _
    cases hcached : s.pageArray (off / pageSize) with
    | none => rw [content_of_not_cached hcached, content_of_not_cached (hsame.trans hcached), fill]
    | some frame' =>
      have hne : frame' ≠ frame := by
        intro he
        exact hunused _ (he ▸ hcached)
      rw [content_of_cached hcached, content_of_cached (hsame.trans hcached)]
      simp [fill, update_of_ne hne]

theorem Inv.fill (hinv : s.Inv) (hunused : ∀ j, s.pageArray j ≠ some frame) :
    (s.fill frame p).Inv := by
  constructor
  intro i j frame' hi hj
  simp only [Mapping.fill, update_apply] at hi hj
  split at hi <;> split at hj
  · next h1 h2 => exact h1.trans h2.symm
  · exact absurd (some.inj hi ▸ hj) (hunused j)
  · exact absurd (some.inj hj ▸ hi) (hunused i)
  · exact hinv.once i j frame' hi hj

theorem FreshFrames.fill {frames : Nat → Nat} (h : s.FreshFrames frames)
    (hin : p / pageSize < s.nrpages) (hpage : s.pageArray (p / pageSize) = none) :
    (s.fill (frames (p / pageSize)) p).FreshFrames frames := by
  have hold : ∀ i, (s.fill (frames (p / pageSize)) p).pageArray i = none →
      i ≠ p / pageSize ∧ s.pageArray i = none := by
    intro i hi
    simp only [Mapping.fill, update_apply] at hi
    split at hi
    · cases hi
    · next hne => exact ⟨hne, hi⟩
  constructor
  · intro i hlt hi j hj
    obtain ⟨hne, hi'⟩ := hold i hi
    simp only [Mapping.fill, update_apply] at hj
    split at hj
    · exact hne (h.distinct i hlt _ hin hi' hpage (some.inj hj).symm)
    · exact h.unused i hlt hi' j hj
  · intro i hilt j hjlt hi hj
    exact h.distinct i hilt j hjlt (hold i hi).2 (hold j hj).2

end Fill

theorem findPage_spec {frames : Nat → Nat} (hinv : s.Inv)
    (hfresh : s.FreshFrames frames) (hp : p % pageSize = 0) (hin : p / pageSize < s.nrpages) :
    ∃ frame s', findPage s frames p = some (frame, s') ∧
      s'.pageArray (p / pageSize) = some frame ∧ s'.content = s.content ∧ s'.Inv ∧
      s'.FreshFrames frames ∧ s'.nrpages = s.nrpages := by
  cases hpage : s.pageArray (p / pageSize) with
  | some frame =>
    exact ⟨frame, s, by simp [findPage, hin, hpage], hpage, rfl, hinv, hfresh, rfl⟩
  | none =>
    have hunused := hfresh.unused _ hin hpage
    exact ⟨frames (p / pageSize), s.fill (frames (p / pageSize)) p,
      by simp only [findPage, hpage, if_pos hin], by simp [fill], content_fill hp hpage hunused,
      hinv.fill hunused, hfresh.fill hin hpage, rfl⟩

theorem content_setPage (hinv : s.Inv) {a b frame : Nat} {g : Nat → Byte}
    (hp : p % pageSize = 0) (hb : b ≤ pageSize) (hpage : s.pageArray (p / pageSize) = some frame) :
    (s.setPage frame (overwrite (s.mem frame) a b g)).content =
      overwrite s.content (p + a) (p + b) (fun off => g (off - p)) := by
  funext off
  have hsame : (s.setPage frame (overwrite (s.mem frame) a b g)).pageArray (off / pageSize) =
    s.pageArray (off / pageSize) := rfl
  have hpos : p / pageSize * pageSize = p := Nat.div_mul_cancel (Nat.dvd_of_mod_eq_zero hp)
  by_cases hoff : off / pageSize = p / pageSize
  · have hcached : s.pageArray (off / pageSize) = some frame := by rw [hoff, hpage]
    have hmod : p + off % pageSize = off := by rw [← hpos, ← hoff, Nat.mul_comm, Nat.div_add_mod]
    rw [content_of_cached (hsame.trans hcached)]
    simp only [setPage, update_self]
    by_cases hmem : a ≤ off % pageSize ∧ off % pageSize < b
    · rw [overwrite_of_mem hmem.1 hmem.2, overwrite_of_mem (by omega) (by omega)]
      congr 1
      omega
    · rw [overwrite_of_not_mem hmem, overwrite_of_not_mem (by omega), content_of_cached hcached]
  · rw [overwrite_of_not_mem (by unfold pageSize at *; omega)]
    cases hcached : s.pageArray (off / pageSize) with
    | none =>
      rw [content_of_not_cached hcached, content_of_not_cached (hsame.trans hcached), setPage]
    | some frame' =>
      have hne : frame' ≠ frame := by
        intro he
        exact hoff (hinv.once _ _ frame (he ▸ hcached) hpage)
      rw [content_of_cached hcached, content_of_cached (hsame.trans hcached)]
      simp [setPage, update_of_ne hne]

end Mapping

/-! ## The loop -/

/-- What the loop needs of the mapping it works on. -/
structure Transfer.Ready (x : Transfer) (frames : Nat → Nat) (end_ : Nat) : Prop where
  inv : x.mapping.Inv
  fresh : x.mapping.FreshFrames frames
  inside : end_ ≤ x.mapping.nrpages * pageSize

/-- A copy of the part `[c, d)` of the file, in the page at `p`, takes what `Q` says of content and
buffer at `c` to what it says at `d`. -/
def CopyStep (memcpy : Nat → Nat → Nat → Nat → Transfer → Transfer) (frames : Nat → Nat)
    (start end_ : Nat) (Q : Nat → (Nat → Byte) → (Nat → Byte) → Prop) : Prop :=
  ∀ p c d frame x, x.Ready frames end_ → p % pageSize = 0 →
    x.mapping.pageArray (p / pageSize) = some frame →
    p ≤ c → start ≤ c → c ≤ d → d ≤ p + pageSize → Q c x.mapping.content x.buf →
    (memcpy frame (c - p) (c - start) (d - c) x).Ready frames end_ ∧
      Q d (memcpy frame (c - p) (c - start) (d - c) x).mapping.content
        (memcpy frame (c - p) (c - start) (d - c) x).buf

variable {fuel ret : Nat} {x' x : Transfer}

section Loop

variable {memcpy : Nat → Nat → Nat → Nat → Transfer → Transfer} {frames : Nat → Nat}
  {start end_ : Nat} {Q : Nat → (Nat → Byte) → (Nat → Byte) → Prop}

/-- The loop carries `Q` from the part already copied to the end of the range. -/
theorem pageLoop_rule (hcopy : CopyStep memcpy frames start end_ Q) (hse : start < end_)
    (hend : end_ % pageSize ≠ 0) (hready : x.Ready frames end_)
    (hp : p % pageSize = 0) (hsp : start < p + pageSize) (hpos : 0 < fuel)
    (hfuel : end_ < p + fuel)
    (hQ : Q (copiedTo start end_ p) x.mapping.content x.buf) :
    ∃ x', pageLoop memcpy frames start end_ fuel p (copiedTo start end_ p - start) x =
        some (end_ - start, x') ∧ x'.Ready frames end_ ∧ Q end_ x'.mapping.content x'.buf := by
  induction fuel generalizing p x with
  | zero => cases hpos
  | succ fuel ih =>
    by_cases hpe : p < end_
    · have hc := copiedTo_of_lt hse hpe
      have hidx : p / pageSize < x.mapping.nrpages := by
        apply Nat.div_lt_of_lt_mul
        rw [Nat.mul_comm]
        exact Nat.lt_of_lt_of_le hpe hready.inside
      obtain ⟨frame, s', hfind, hpage, hcontent, hinv, hfresh, hnr⟩ :=
        Mapping.findPage_spec hready.inv hready.fresh hp hidx
      have hready' : ({ x with mapping := s' } : Transfer).Ready frames end_ :=
        ⟨hinv, hfresh, hnr ▸ hready.inside⟩
      have hle : copiedTo start end_ p ≤ copiedTo start end_ (p + pageSize) := by
        unfold copiedTo
        omega
      have hd : copiedTo start end_ (p + pageSize) ≤ p + pageSize := by
        unfold copiedTo
        omega
      obtain ⟨hr, hQ'⟩ := hcopy p (copiedTo start end_ p) (copiedTo start end_ (p + pageSize)) frame
        { x with mapping := s' } hready' hp hpage (by omega) (by omega) hle hd (hcontent ▸ hQ)
      obtain ⟨x', hloop, hfinal⟩ := ih hr (by simpa using hp) (by omega)
        (by omega) (by unfold pageSize; omega) hQ'
      refine ⟨x', ?_, hfinal⟩
      have hbufp : copiedTo start end_ p - start +
          (copiedTo start end_ (p + pageSize) - copiedTo start end_ p) =
          copiedTo start end_ (p + pageSize) - start := by omega
      rw [pageLoop, if_pos hpe, hfind, chunkLen_eq hp hsp hse hend hpe, inpageStart_eq hp hsp, ← hc]
      simp only [bind_eq_bind, bind_some, Int.toNat_natCast, hbufp]
      rw [if_neg (by omega), hloop]
    · have hdone := copiedTo_of_end_le start (Nat.le_of_not_lt hpe)
      refine ⟨x, ?_, hready, hdone ▸ hQ⟩
      rw [pageLoop, if_neg hpe, hdone]

/-- With a page-aligned end, the loop stops at least a page short or not at all. -/
theorem pageLoop_aligned (hend : end_ % pageSize = 0) {bufp : Nat}
    (hp : p % pageSize = 0) (hsp : start < p + pageSize) (hpe : p < end_)
    (hbufp : start + bufp = max p start)
    (h : pageLoop memcpy frames start end_ fuel p bufp x = some (ret, x')) :
    start + ret + pageSize ≤ end_ := by
  induction fuel generalizing p bufp x with
  | zero => simp [pageLoop] at h
  | succ fuel ih =>
    rw [pageLoop, if_pos hpe] at h
    cases hfind : findPage x.mapping frames p with
    | none => simp [hfind] at h
    | some r =>
      simp only [hfind, bind_eq_bind, bind_some] at h
      by_cases hlast : end_ ≤ p + pageSize
      · rw [chunkLen_last hp hsp hend hlast] at h
        split at h
        · cases h
        · next hneg =>
          have hstop : ¬ p + pageSize < end_ := by omega
          have heq : end_ = p + pageSize := by unfold pageSize at *; omega
          cases fuel with
          | zero => simp [pageLoop] at h
          | succ fuel =>
            rw [pageLoop, if_neg hstop] at h
            obtain ⟨hret, -⟩ := h
            omega
      · rw [chunkLen_not_last hp hsp (by omega)] at h
        exact ih (by simpa using hp) (by omega) (by omega) (by unfold pageSize at *; omega) h

theorem pageLoop_ready
    (hcopy : ∀ frame a b l x, x.Ready frames 0 → (memcpy frame a b l x).Ready frames 0)
    {bufp : Nat} (hready : x.Ready frames 0) (hp : p % pageSize = 0)

    (h : pageLoop memcpy frames start end_ fuel p bufp x = some (ret, x')) :
    x'.Ready frames 0 := by
  induction fuel generalizing p bufp x with
  | zero => simp [pageLoop] at h
  | succ fuel ih =>
    rw [pageLoop] at h
    split at h
    · by_cases hidx : p / pageSize < x.mapping.nrpages
      · obtain ⟨frame, s', hfind, -, -, hinv, hfresh, -⟩ :=
          Mapping.findPage_spec hready.inv hready.fresh hp hidx
        simp only [hfind, bind_eq_bind, bind_some] at h
        split at h
        · cases h
        · exact ih (hcopy _ _ _ _ _ ⟨hinv, hfresh, Nat.zero_le _⟩) (by simpa using hp) h
      · simp [findPage, hidx] at h
    · cases h
      exact hready

end Loop

/-! ## The two functions -/

theorem pageAlignDown_mod (a : Nat) : pageAlignDown a % pageSize = 0 := Nat.mul_mod_left _ _

theorem lt_pageAlignDown_add (a : Nat) : a < pageAlignDown a + pageSize := by
  unfold pageAlignDown pageSize
  omega

theorem copiedTo_pageAlignDown {start end_ : Nat} (hse : start < end_) :
    copiedTo start end_ (pageAlignDown start) = start := by
  have hle : pageAlignDown start ≤ start := Nat.div_mul_le_self _ _
  unfold copiedTo
  omega

section

variable {memcpy : Nat → Nat → Nat → Nat → Transfer → Transfer} {frames : Nat → Nat}

theorem pageLoop_start {pos n : Nat} {Q : Nat → (Nat → Byte) → (Nat → Byte) → Prop}
    (hcopy : CopyStep memcpy frames pos (pos + n) Q) (hn : 0 < n)
    (hend : (pos + n) % pageSize ≠ 0) (hready : x.Ready frames (pos + n))
    (hQ : Q pos x.mapping.content x.buf) :
    ∃ x', pageLoop memcpy frames pos (pos + n) (pos + n + 1) (pageAlignDown pos) 0 x =
        some (n, x') ∧ x'.Ready frames (pos + n) ∧ Q (pos + n) x'.mapping.content x'.buf := by
  have hse : pos < pos + n := Nat.lt_add_of_pos_right hn
  have hc := copiedTo_pageAlignDown hse
  have hfuel : pos + n < pageAlignDown pos + (pos + n + 1) := by omega
  have hrule := pageLoop_rule hcopy hse hend hready (pageAlignDown_mod pos)
    (lt_pageAlignDown_add pos) (Nat.succ_pos _) hfuel (by rw [hc]; exact hQ)
  rwa [hc, Nat.sub_self, Nat.add_sub_cancel_left] at hrule

theorem pageLoop_start_aligned {pos n : Nat} (hn : 0 < n) (hend : (pos + n) % pageSize = 0)

    (h : pageLoop memcpy frames pos (pos + n) fuel (pageAlignDown pos) 0 x = some (ret, x')) :
    ret < n := by
  have hle : pageAlignDown pos ≤ pos := Nat.div_mul_le_self _ _
  have hshort := pageLoop_aligned hend (pageAlignDown_mod pos) (lt_pageAlignDown_add pos)
    (by omega) (by omega) h
  unfold pageSize at hshort
  omega

end

section

variable {x : Transfer} {frames : Nat → Nat} {end_ : Nat} (h : x.Ready frames end_)
  (frame inpage bufp len : Nat)
include h

theorem Transfer.Ready.copyOut : (Filemap.copyOut frame inpage bufp len x).Ready frames end_ :=
  ⟨h.inv, h.fresh, h.inside⟩

theorem Transfer.Ready.copyIn : (Filemap.copyIn frame inpage bufp len x).Ready frames end_ :=
  ⟨⟨h.inv.once⟩, ⟨h.fresh.unused, h.fresh.distinct⟩, h.inside⟩

end

/-- What a read copied so far: the file is as it was, and the buffer has the first bytes of the
range. -/
def ReadTo (start : Nat) (file buf₀ : Nat → Byte) (c : Nat) (content buf : Nat → Byte) : Prop :=
  content = file ∧ buf = overwrite buf₀ 0 (c - start) (fun i => file (start + i))

theorem copyOut_step (frames : Nat → Nat) (start end_ : Nat) (file buf₀ : Nat → Byte) :
    CopyStep copyOut frames start end_ (ReadTo start file buf₀) := by
  intro p c d frame x hready hp hpage hpc hsc hcd hd hQ
  obtain ⟨hfile, hbuf⟩ := hQ
  refine ⟨hready.copyOut frame _ _ _, hfile, ?_⟩
  have hd' : c - start + (d - c) = d - start := by omega
  show overwrite x.buf (c - start) (c - start + (d - c)) _ = _
  rw [hbuf, hd', ← overwrite_append (Nat.zero_le (c - start)) (Nat.sub_le_sub_right hcd start)]
  apply overwrite_congr
  intro i hi₁ hi₂
  have hoff : (start + i) / pageSize = p / pageSize := by unfold pageSize at *; omega
  have hmod : (start + i) % pageSize = c - p + (i - (c - start)) := by unfold pageSize at *; omega
  have hcached : x.mapping.pageArray ((start + i) / pageSize) = some frame := by rw [hoff, hpage]
  rw [← hfile, Mapping.content_of_cached hcached, hmod]

/-- What a write copied so far: the file has the new bytes up to `c`. -/
def WrittenTo (start : Nat) (file buf₀ : Nat → Byte) (c : Nat) (content buf : Nat → Byte) : Prop :=
  buf = buf₀ ∧ content = overwrite file start c (fun off => buf₀ (off - start))

theorem copyIn_step (frames : Nat → Nat) (start end_ : Nat) (file buf₀ : Nat → Byte) :
    CopyStep copyIn frames start end_ (WrittenTo start file buf₀) := by
  intro p c d frame x hready hp hpage hpc hsc hcd hd hQ
  obtain ⟨hbuf, hcontent⟩ := hQ
  refine ⟨hready.copyIn frame _ _ _, hbuf, ?_⟩
  have hd' : c - p + (d - c) = d - p := by omega
  have hpd : p + (d - p) = d := by omega
  have hpc' : p + (c - p) = c := by omega
  show (x.mapping.setPage frame _).content = _
  rw [Mapping.content_setPage hready.inv hp (by omega) hpage, hd', hpd, hpc', hcontent,
    ← overwrite_append hsc hcd]
  apply overwrite_congr
  intro off hoff₁ hoff₂
  rw [hbuf]
  congr 1
  omega

/-! ## Runs -/

namespace Mapping

/-- What a user expects of one call: a read returns its length and the logical content of its range,
a write returns its length and changes that range to the bytes of the buffer, and nothing else
changes. -/
def Served (s : Mapping) : Op → Nat × (Nat → Byte) → Mapping → Prop
  | .read _ pos n buf, (ret, buf'), s' =>
    ret = n ∧ buf' = overwrite buf 0 n (fun i => s.content (pos + i)) ∧ s'.content = s.content
  | .write _ pos n buf, (ret, _), s' =>
    ret = n ∧ s'.content = overwrite s.content pos (pos + n) (fun off => buf (off - pos))

/-- The end of the range is not a multiple of the page size. -/
def EndUnaligned : Op → Prop
  | .read _ pos n _ | .write _ pos n _ => (pos + n) % pageSize ≠ 0

theorem Inv.step {s' : Mapping} {op : Op} {r : Nat × (Nat → Byte)} (hinv : s.Inv)
    (hok : s.Ok op) (h : s.step op = some (r, s')) : s'.Inv := by
  cases op with
  | read frames pos n buf =>
    obtain ⟨⟨ret, x⟩, hx, hs⟩ := bind_eq_some_iff.1 h
    cases hs
    exact (pageLoop_ready (fun _ _ _ _ _ hready => hready.copyOut _ _ _ _)
      ⟨hinv, hok.2.2, Nat.zero_le _⟩ (pageAlignDown_mod pos) hx).inv
  | write frames pos n buf =>
    obtain ⟨⟨ret, x⟩, hx, hs⟩ := bind_eq_some_iff.1 h
    cases hs
    exact (pageLoop_ready (fun _ _ _ _ _ hready => hready.copyIn _ _ _ _)
      ⟨hinv, hok.2.2, Nat.zero_le _⟩ (pageAlignDown_mod pos) hx).inv

section

variable {s : Mapping} {frames : Nat → Nat} {pos n : Nat} (buf : Nat → Byte) (hinv : s.Inv)
include hinv

theorem simpleFilemapRead_spec (hok : s.Ok (.read frames pos n buf)) (hend : (pos + n) % pageSize ≠ 0) :
    ∃ x, simpleFilemapRead s frames pos n buf = some (n, x) ∧ x.mapping.Inv ∧
      x.mapping.content = s.content ∧
      x.buf = overwrite buf 0 n (fun i => s.content (pos + i)) := by
  obtain ⟨hn, hin, hfresh⟩ := hok
  obtain ⟨x, hx, hready, hcontent, hbuf⟩ := pageLoop_start
    (copyOut_step frames pos (pos + n) s.content buf) hn hend
    (x := { mapping := s, buf := buf }) ⟨hinv, hfresh, hin⟩
    ⟨rfl, by rw [Nat.sub_self, overwrite_of_le (Nat.le_refl 0)]⟩
  rw [Nat.add_sub_cancel_left] at hbuf
  exact ⟨x, hx, hready.inv, hcontent, hbuf⟩

theorem genericPerformWrite_spec (hok : s.Ok (.write frames pos n buf))
    (hend : (pos + n) % pageSize ≠ 0) :
    ∃ x, genericPerformWrite s frames pos n buf = some (n, x) ∧ x.mapping.Inv ∧
      x.mapping.content = overwrite s.content pos (pos + n) (fun off => buf (off - pos)) := by
  obtain ⟨hn, hin, hfresh⟩ := hok
  obtain ⟨x, hx, hready, -, hcontent⟩ := pageLoop_start
    (copyIn_step frames pos (pos + n) s.content buf) hn hend
    (x := { mapping := s, buf := buf }) ⟨hinv, hfresh, hin⟩
    ⟨rfl, by rw [overwrite_of_le (Nat.le_refl pos)]⟩
  exact ⟨x, hx, hready.inv, hcontent⟩

end

/-- A call returns and serves its user exactly when its end is not page aligned. -/
theorem Inv.served_iff (hinv : s.Inv) {op : Op} (hok : s.Ok op) :
    (∃ r s', s.step op = some (r, s') ∧ s.Served op r s') ↔ EndUnaligned op := by
  constructor
  · intro h
    obtain ⟨r, s', hstep, hserved⟩ := h
    cases op with
    | read frames pos n buf =>
      intro hend
      obtain ⟨⟨ret, x⟩, hx, hs⟩ := bind_eq_some_iff.1 hstep
      cases hs
      exact absurd hserved.1 (Nat.ne_of_lt (pageLoop_start_aligned hok.1 hend hx))
    | write frames pos n buf =>
      intro hend
      obtain ⟨⟨ret, x⟩, hx, hs⟩ := bind_eq_some_iff.1 hstep
      cases hs
      exact absurd hserved.1 (Nat.ne_of_lt (pageLoop_start_aligned hok.1 hend hx))
  · intro hend
    cases op with
    | read frames pos n buf =>
      obtain ⟨x, hx, -, hcontent, hbuf⟩ := simpleFilemapRead_spec buf hinv hok hend
      exact ⟨(n, x.buf), x.mapping, by simp [Mapping.step, hx], rfl, hbuf, hcontent⟩
    | write frames pos n buf =>
      obtain ⟨x, hx, -, hcontent⟩ := genericPerformWrite_spec buf hinv hok hend
      exact ⟨(n, x.buf), x.mapping, by simp [Mapping.step, hx], rfl, hcontent⟩

theorem reachable_inv (h : Reachable Mapping.step Mapping.Ok Empty s) : s.Inv := by
  apply h.invariant
  · intro s hs
    constructor
    intro i j frame hi _
    rw [hs i] at hi
    cases hi
  · intro s op r s' hinv hok hstep
    exact hinv.step hok hstep

/-- In every run of reads and writes on a file, a call behaves as on a flat file exactly when the
end of its range is not page aligned. -/
theorem served_iff_endUnaligned {s : Mapping} {op : Op}
    (h : Reachable Mapping.step Mapping.Ok Empty s) (hok : s.Ok op) :
    (∃ r s', s.step op = some (r, s') ∧ s.Served op r s') ↔ EndUnaligned op :=
  (reachable_inv h).served_iff hok

def twoPages : Mapping :=
  { nrpages := 2, pageArray := fun _ => none, mem := fun _ _ => 0, file := fun _ => 0 }

theorem twoPages_fresh : twoPages.FreshFrames id where
  unused _ _ _ _ := by simp [twoPages]
  distinct _ _ _ _ _ _ h := h

/-- A write inside the first of two pages. -/
theorem served_iff_endUnaligned_twoPages :
    twoPages.Ok (.write id 10 20 fun _ => 1) ∧
    ((∃ r s', twoPages.step (.write id 10 20 fun _ => 1) = some (r, s') ∧
      twoPages.Served (.write id 10 20 fun _ => 1) r s') ↔
      EndUnaligned (.write id 10 20 fun _ => 1)) := by
  have hok : twoPages.Ok (.write id 10 20 fun _ => 1) := ⟨by decide, by decide, twoPages_fresh⟩
  exact ⟨hok, served_iff_endUnaligned (.start fun _ => rfl) hok⟩

/-- A write of the whole first page returns 0. -/
theorem aligned_write_lost :
    twoPages.Empty ∧ twoPages.Ok (.write id 0 4096 fun _ => 1) ∧
    (twoPages.step (.write id 0 4096 fun _ => 1)).map (fun r => r.1.1) = some 0 ∧
    ¬ ∃ r s', twoPages.step (.write id 0 4096 fun _ => 1) = some (r, s') ∧
      twoPages.Served (.write id 0 4096 fun _ => 1) r s' := by
  have hret : (twoPages.step (.write id 0 4096 fun _ => 1)).map (fun r => r.1.1) = some 0 := by rfl
  refine ⟨fun _ => rfl, ⟨by decide, by decide, twoPages_fresh⟩, hret, ?_⟩
  intro h
  obtain ⟨r, s', hstep, hserved⟩ := h
  rw [hstep] at hret
  have h0 : r.1 = 0 := some.inj hret
  have hn : r.1 = 4096 := hserved.1
  omega

end Mapping

end MyOS2.Filemap
