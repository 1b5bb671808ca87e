import Mosito.Physical.ShuffleLower
import Mosito.Lib.KWayMerge

/-! When the sorting lower end of the shuffle gives every destination its tuples in order, each
once. -/
namespace Mosito
open ByteStore Runs KWayMerge
namespace ShuffleLower

/-- What a state holds for one destination. -/
structure Lane where
  column : List Image
  buffer : Block
  rest : List Tuple
  ok : Bool

section Lane
variable {t : ℕ} {p : List Tuple} {l : Lane}

/-- Every block of the column announces the same number of tuples. -/
def Uniform (t : ℕ) (column : List Image) : Prop := ∀ img ∈ column, img.count = announced t

theorem Uniform.length {column : List Image} (h : Uniform t column) :
    (column.flatMap (Image.tuples t)).length = column.length * announced t := by
  rw [ShuffleLower1.length_flatMap_tuples, List.eq_replicate_of_mem (l := column.map Image.count)
    (a := announced t) (by simpa [Uniform] using h)]
  simp

theorem Uniform.concat {column : List Image} (h : Uniform t column) (b : Block) :
    Uniform t (column ++ [(b.assembling blockSize t).image]) := by
  intro img himg
  rcases List.mem_append.mp himg with himg | himg
  · exact h img himg
  · rw [List.mem_singleton.mp himg]
    exact ShuffleLower1.count_assembling t

/-- Before the flush: what was put, what is in the buffer and what is left make up `p`. -/
def Sending (t : ℕ) (p : List Tuple) (l : Lane) : Prop :=
  l.ok = false ∧ Uniform t l.column ∧ (Even t l.rest.length ∨ l.rest = []) ∧
    ∃ q, Held t l.buffer q ∧ l.column.flatMap (Image.tuples t) ++ q ++ l.rest = p

/-- In the flush: the block in the buffer is the last one, put or not. -/
def Flushing (t : ℕ) (p : List Tuple) (l : Lane) : Prop :=
  Uniform t l.column ∧ ∃ q, Held t l.buffer q ∧ (l.ok = true → q = []) ∧
    ((q ≠ [] ∧ l.column.flatMap (Image.tuples t) ++ q = p) ∨
      l.column.flatMap (Image.tuples t) = p)

/-- After the flush. -/
def Sent (t : ℕ) (p : List Tuple) (l : Lane) : Prop :=
  Uniform t l.column ∧ l.buffer.size = blockSize ∧ l.column.flatMap (Image.tuples t) = p

/-- After the empty block. -/
def Finished (t : ℕ) (p : List Tuple) (l : Lane) : Prop :=
  ∃ data z, l.column = data ++ [z] ∧ z.count = 0 ∧ Uniform t data ∧
    data.flatMap (Image.tuples t) = p

variable (hpos : 0 < announced t)
include hpos

theorem pos_of_announced : 0 < t :=
  Nat.pos_of_ne_zero fun h => by simp [announced, h] at hpos

theorem Sending.gather (h : Sending t p l) (hsizes : ∀ x ∈ p, x.length = t)
    (hempty : l.buffer.empty = true) (hrest : l.rest ≠ []) :
    Sending t p { l with
      buffer := (l.buffer.fill l.rest).1, rest := l.rest.drop (l.buffer.fill l.rest).2 } := by
  obtain ⟨hok, huni, heven, q, hq, hall⟩ := h
  rw [hq.empty_iff (pos_of_announced hpos)] at hempty
  subst hempty
  have heven := heven.resolve_right hrest
  obtain ⟨htaken, hheld⟩ := hq.fill hrest hpos
    (fun x hx => hsizes x (by rw [← hall]; exact List.mem_append_right _ hx)) heven
  refine ⟨hok, huni, ?_, _, hheld, ?_⟩
  · rw [htaken, List.length_drop]
    refine heven.drop.imp_right fun hzero => ?_
    exact List.drop_eq_nil_of_le (by omega)
  · rw [htaken, List.append_assoc, List.take_append_drop, ← hall, List.append_nil]

omit hpos in
theorem Sending.refuse (h : Sending t p l) :
    Sending t p { l with buffer := l.buffer.assembling blockSize t } := by
  obtain ⟨hok, huni, heven, q, hq, hall⟩ := h
  exact ⟨hok, huni, heven, q, hq.assembling, hall⟩

theorem Sending.accept (h : Sending t p l) (hfull : l.buffer.empty = false) :
    Sending t p { l with
      column := l.column ++ [(l.buffer.assembling blockSize t).image]
      buffer := (l.buffer.assembling blockSize t).reset } := by
  obtain ⟨hok, huni, heven, q, hq, hall⟩ := h
  have hne : q ≠ [] := fun hnil => by
    simp [(hq.empty_iff (pos_of_announced hpos)).mpr hnil] at hfull
  refine ⟨hok, huni.concat _, heven, [], hq.assembling.reset, ?_⟩
  rw [List.flatMap_append, List.flatMap_singleton, hq.image_tuples (hq.full.resolve_left hne),
    List.append_nil, hall]

omit hpos in
theorem Sending.flush (h : Sending t p l) (hrest : l.rest = []) : Flushing t p l := by
  obtain ⟨hok, huni, -, q, hq, hall⟩ := h
  rw [hrest, List.append_nil] at hall
  refine ⟨huni, q, hq, fun htrue => by simp [hok] at htrue, ?_⟩
  rcases eq_or_ne q [] with rfl | hne
  · exact Or.inr (by rwa [List.append_nil] at hall)
  · exact Or.inl ⟨hne, hall⟩

theorem Flushing.skip (h : Flushing t p l) (hempty : l.buffer.empty = true) :
    Flushing t p { l with ok := true } := by
  obtain ⟨huni, q, hq, -, hall⟩ := h
  exact ⟨huni, q, hq, fun _ => (hq.empty_iff (pos_of_announced hpos)).mp hempty, hall⟩

omit hpos in
theorem Flushing.sent (h : Flushing t p l) (hok : l.ok = true) : Sent t p l := by
  obtain ⟨huni, q, hq, hnil, hall⟩ := h
  exact ⟨huni, hq.size, hall.resolve_left fun hne => hne.1 (hnil hok)⟩

omit hpos in
theorem Sent.accept (h : Sent t p l) : Finished t p { l with
    column := l.column ++ [(l.buffer.build blockSize 0).image]
    buffer := l.buffer.build blockSize 0 } := by
  obtain ⟨huni, hsize, hall⟩ := h
  exact ⟨l.column, _, rfl, Block.count_build hsize, huni, hall⟩

section Flush
variable (heven : Even t p.length)
include heven

/-- A put block is one that the column lacked. -/
theorem Flushing.accept (h : Flushing t p l)
    (hlt : l.column.length < blocksFor t p.length) :
    Flushing t p { l with
      column := l.column ++ [(l.buffer.assembling blockSize t).image]
      buffer := l.buffer.assembling blockSize t } := by
  obtain ⟨huni, q, hq, hok, hall⟩ := h
  have hlen := huni.length
  have hblocks := heven.blocksFor_mul hpos
  rcases hall with ⟨hne, hall⟩ | hall
  · refine ⟨huni.concat _, q, hq.assembling, hok, Or.inr ?_⟩
    rw [List.flatMap_append, List.flatMap_singleton, hq.image_tuples (hq.full.resolve_left hne),
      hall]
  · rw [hall, ← hblocks] at hlen
    exact absurd (Nat.eq_of_mul_eq_mul_right hpos hlen) hlt.ne'

/-- A block that is refused was put before. -/
theorem Flushing.refuse (h : Flushing t p l)
    (hge : ¬ l.column.length < blocksFor t p.length) :
    Flushing t p { l with buffer := (l.buffer.assembling blockSize t).reset, ok := true } := by
  obtain ⟨huni, q, hq, -, hall⟩ := h
  have hlen := huni.length
  have hblocks := heven.blocksFor_mul hpos
  refine ⟨huni, [], hq.assembling.reset, fun _ => rfl, Or.inr ?_⟩
  rcases hall with ⟨hne, hall⟩ | hall
  · have htotal : l.column.length * announced t + announced t = p.length := by
      rw [← hlen, ← hq.full.resolve_left hne, ← List.length_append, hall]
    rw [← hblocks, ← Nat.succ_mul] at htotal
    have := Nat.eq_of_mul_eq_mul_right hpos htotal
    omega
  · exact hall

end Flush
end Lane

def lane (s : ShuffleLower) (i : ℕ) : Lane := ⟨s.columns i, s.buffers i, s.newRanges i, s.oks i⟩

section Inv
variable {t n : ℕ} {p : ℕ → List Tuple} {s s' : ShuffleLower} {i j : ℕ}

/-- What holds for destination `i` when `execute` is at `pc`. -/
def LaneAt (t : ℕ) (p : List Tuple) (i : ℕ) (pc : ShufflePc) (l : Lane) : Prop :=
  match pc with
  | .gather | .send _ => Sending t p l
  | .check | .flush _ => Flushing t p l
  | .close k => if i < k then Finished t p l else Sent t p l
  | .returned => Finished t p l

/-- `p i` are the tuples of destination `i`, in the order in which they are taken. -/
structure Inv (t n : ℕ) (p : ℕ → List Tuple) (s : ShuffleLower) : Prop where
  n_eq : s.n = n
  totalsize : s.totalsize = t
  emptied : s.emptys = exhausted n s.newRanges
  one : s.oneEmpty = true → ∀ i < n, s.newRanges i = []
  lanes : ∀ i < n, LaneAt t (p i) i s.pc (s.lane i)

/-- A step that leaves the ranges alone. -/
theorem Inv.move (h : Inv t n p s) (hn : s'.n = s.n) (ht : s'.totalsize = s.totalsize)
    (hempty : s'.emptys = s.emptys) (hone : s'.oneEmpty = s.oneEmpty)
    (hranges : s'.newRanges = s.newRanges)
    (hlanes : ∀ i < n, LaneAt t (p i) i s'.pc (s'.lane i)) : Inv t n p s' :=
  ⟨hn.trans h.n_eq, ht.trans h.totalsize, by rw [hempty, hranges]; exact h.emptied,
    by rw [hone, hranges]; exact h.one, hlanes⟩

variable (hpos : 0 < announced t) (hsizes : ∀ i, ∀ x ∈ p i, x.length = t)
include hpos hsizes

theorem Inv.gatherOne (h : Inv t n p s) (hpc : s.pc = .gather) (hi : i < n) :
    Inv t n p (s.gatherOne i) ∧ (s.gatherOne i).pc = .gather := by
  have hlanes := h.lanes
  rw [hpc] at hlanes
  unfold ShuffleLower.gatherOne
  split_ifs with hfill
  swap
  · exact ⟨h, hpc⟩
  have hcard := exhausted_update hi hfill.2
    ((s.newRanges i).drop ((s.buffers i).fill (s.newRanges i)).2)
  refine ⟨⟨h.n_eq, h.totalsize, ?_, ?_, fun j hj => ?_⟩, hpc⟩
  · dsimp only
    rw [hcard, ← h.emptied]
    split_ifs <;> omega
  · intro hone j hj
    simp only [Bool.or_eq_true, Bool.and_eq_true, decide_eq_true_eq] at hone
    rcases hone with hone | ⟨hrest, hall⟩
    · exact absurd (h.one hone i hi) hfill.2
    · rw [if_pos hrest, ← h.emptied, hall, h.n_eq] at hcard
      exact total_eq_nil_iff.mp (exhausted_eq_iff.mp hcard) j hj
  · change LaneAt t (p j) j s.pc _
    rw [hpc]
    rcases eq_or_ne j i with rfl | hne
    · simpa [lane, LaneAt] using (hlanes j hj).gather hpos (hsizes j) hfill.1 hfill.2
    · simpa [lane, LaneAt, hne] using hlanes j hj

theorem Inv.gather (h : Inv t n p s) (hpc : s.pc = .gather) (k : ℕ) (hk : k ≤ n) :
    Inv t n p (s.gather k) ∧ (s.gather k).pc = .gather := by
  induction k with
  | zero => exact ⟨h, hpc⟩
  | succ k ih =>
    obtain ⟨hinv, hgather⟩ := ih (by omega)
    exact hinv.gatherOne hpos hsizes hgather hk

omit hsizes in
theorem Inv.send_step {accepted : Bool} (h : Inv t n p s) (hpc : s.pc = .send i)
    (hs : s.step accepted = some s') : Inv t n p s' := by
  have hlanes : ∀ j < n, Sending t (p j) (s.lane j) := by
    have hall := h.lanes
    rwa [hpc] at hall
  simp only [step, hpc] at hs
  split_ifs at hs with hi hempty hacc <;> cases hs
  · exact h.move rfl rfl rfl rfl rfl hlanes
  · exact h.move rfl rfl rfl rfl rfl hlanes
  · refine h.move rfl rfl rfl rfl rfl fun j hj => ?_
    rcases eq_or_ne j i with rfl | hne
    · simpa [lane, LaneAt, goto, setBuffer, enqueue, assemble, h.totalsize] using
        (hlanes j hj).accept hpos (by simpa [lane] using hempty)
    · simpa [lane, LaneAt, goto, setBuffer, enqueue, assemble, hne] using hlanes j hj
  · refine h.move rfl rfl rfl rfl rfl fun j hj => ?_
    rcases eq_or_ne j i with rfl | hne
    · simpa [lane, LaneAt, goto, setBuffer, assemble, h.totalsize] using (hlanes j hj).refuse
    · simpa [lane, LaneAt, goto, setBuffer, assemble, hne] using hlanes j hj

omit hsizes in
theorem Inv.flush_step {accepted : Bool} (h : Inv t n p s) (heven : ∀ i < n, Even t (p i).length)
    (hpc : s.pc = .flush i) (honce : Once t (fun i => (p i).length) s accepted)
    (hs : s.step accepted = some s') : Inv t n p s' := by
  have hlanes : ∀ j < n, Flushing t (p j) (s.lane j) := by
    have hall := h.lanes
    rwa [hpc] at hall
  simp only [step, hpc] at hs
  split_ifs at hs with hlast hempty hacc <;> cases hs
  · exact h.move rfl rfl rfl rfl rfl hlanes
  · refine h.move rfl rfl rfl rfl rfl fun j hj => ?_
    rcases eq_or_ne j i with rfl | hne
    · simpa [lane, LaneAt, goto, setOk] using (hlanes j hj).skip hpos hempty
    · simpa [lane, LaneAt, goto, setOk, hne] using hlanes j hj
  all_goals
    have hlacks := honce i (Nat.lt_of_not_le hlast) hpc (by simpa using hempty)
    refine h.move rfl rfl rfl rfl rfl fun j hj => ?_
    rcases eq_or_ne j i with rfl | hne
  · simpa [lane, LaneAt, goto, setBuffer, enqueue, assemble, h.totalsize] using
      (hlanes j hj).accept hpos (heven j hj) (hlacks.mp hacc)
  · simpa [lane, LaneAt, goto, setBuffer, enqueue, assemble, hne] using hlanes j hj
  · simpa [lane, LaneAt, goto, setBuffer, setOk, assemble, h.totalsize] using
      (hlanes j hj).refuse hpos (heven j hj) (hlacks.not.mp hacc)
  · simpa [lane, LaneAt, goto, setBuffer, setOk, assemble, hne] using hlanes j hj

omit hpos hsizes in
theorem Inv.close_step {accepted : Bool} (h : Inv t n p s) (hpc : s.pc = .close i)
    (hs : s.step accepted = some s') : Inv t n p s' := by
  have hlanes : ∀ j < n, if j < i then Finished t (p j) (s.lane j) else Sent t (p j) (s.lane j) := by
    have hall := h.lanes
    rwa [hpc] at hall
  simp only [step, hpc] at hs
  split_ifs at hs with hlast hacc <;> cases hs
  · refine h.move rfl rfl rfl rfl rfl fun j hj => ?_
    have hlane := hlanes j hj
    rwa [if_pos (by rw [h.n_eq] at hlast; omega)] at hlane
  · refine h.move rfl rfl rfl rfl rfl fun j hj => ?_
    have hlane := hlanes j hj
    rcases eq_or_ne j i with rfl | hne
    · rw [if_neg (lt_irrefl j)] at hlane
      simpa [lane, LaneAt, goto, setBuffer, enqueue] using hlane.accept
    · have hiff : j < i + 1 ↔ j < i := by omega
      simpa [lane, LaneAt, goto, setBuffer, enqueue, hne, hiff] using hlane
  · refine h.move rfl rfl rfl rfl rfl fun j hj => ?_
    have hlane := hlanes j hj
    change LaneAt t (p j) j s.pc _
    rw [hpc]
    rcases eq_or_ne j i with rfl | hne
    · rw [if_neg (lt_irrefl j)] at hlane
      simpa [lane, LaneAt, setBuffer, Sent, Block.build] using hlane
    · simpa [lane, LaneAt, setBuffer, hne] using hlane

theorem step_inv {accepted : Bool} (heven : ∀ i < n, Even t (p i).length) (h : Inv t n p s)
    (honce : Once t (fun i => (p i).length) s accepted) (hs : s.step accepted = some s') :
    Inv t n p s' := by
  cases hpc : s.pc with
  | gather =>
    obtain ⟨hinv, hgather⟩ := h.gather hpos hsizes hpc n le_rfl
    have hlanes : ∀ j < n, Sending t (p j) ((s.gather n).lane j) := by
      have hall := hinv.lanes
      rwa [hgather] at hall
    simp only [step, hpc, h.n_eq, Option.some.injEq] at hs
    subst hs
    refine hinv.move rfl rfl rfl rfl rfl fun j hj => ?_
    cases hone : (s.gather n).oneEmpty with
    | false => exact hlanes j hj
    | true => exact (hlanes j hj).flush (hinv.one hone j hj)
  | send i => exact h.send_step hpos hpc hs
  | check =>
    have hlanes : ∀ j < n, Flushing t (p j) (s.lane j) := by
      have hall := h.lanes
      rwa [hpc] at hall
    simp only [step, hpc] at hs
    split_ifs at hs with hoks <;> cases hs
    · refine h.move rfl rfl rfl rfl rfl fun j hj => ?_
      simpa [LaneAt, lane, goto] using (hlanes j hj).sent (hoks.2 j (h.n_eq ▸ hj))
    · exact h.move rfl rfl rfl rfl rfl hlanes
  | flush i => exact h.flush_step hpos heven hpc honce hs
  | close i => exact h.close_step hpc hs
  | returned => simp [step, hpc] at hs

end Inv

section Counts
variable {t n : ℕ} {sizes : ℕ → ℕ} {s s' : ShuffleLower} {accepted : Bool}

/-- The blocks with tuples of a column. -/
def dataBlocks (column : List Image) : ℕ := column.countP fun img => img.count ≠ 0

/-- What the blocks of any run announce. -/
structure Counts (t n : ℕ) (s : ShuffleLower) : Prop where
  n_eq : s.n = n
  totalsize : s.totalsize = t
  size : ∀ i, (s.buffers i).size = blockSize
  counts : ∀ i, ∀ img ∈ s.columns i, img.count ≠ 0 → img.count = announced t
  uniform : s.pc.closing = false → ∀ i, Uniform t (s.columns i)

/-- A column has no more blocks than `size` tuples take, and all once its buffer is empty. -/
def Settled (t size : ℕ) (column : List Image) (b : Block) : Prop :=
  dataBlocks column ≤ blocksFor t size ∧ (b.empty = true → dataBlocks column = blocksFor t size)

def Exactly (t : ℕ) (sizes : ℕ → ℕ) (s : ShuffleLower) : Prop :=
  s.pc.flushing = true → ∀ i < s.n, Settled t (sizes i) (s.columns i) (s.buffers i)

theorem gatherOne_frame (s : ShuffleLower) (k : ℕ) :
    (s.gatherOne k).n = s.n ∧ (s.gatherOne k).totalsize = s.totalsize ∧
      (s.gatherOne k).pc = s.pc ∧ (s.gatherOne k).columns = s.columns ∧
      ∀ i, ((s.gatherOne k).buffers i).size = (s.buffers i).size := by
  unfold gatherOne
  split
  · refine ⟨rfl, rfl, rfl, rfl, fun i => ?_⟩
    rcases eq_or_ne i k with rfl | hne
    · simp
    · simp [hne]
  · exact ⟨rfl, rfl, rfl, rfl, fun _ => rfl⟩

theorem gather_frame (s : ShuffleLower) (k : ℕ) :
    (s.gather k).n = s.n ∧ (s.gather k).totalsize = s.totalsize ∧ (s.gather k).pc = s.pc ∧
      (s.gather k).columns = s.columns ∧
      ∀ i, ((s.gather k).buffers i).size = (s.buffers i).size := by
  induction k with
  | zero => exact ⟨rfl, rfl, rfl, rfl, fun _ => rfl⟩
  | succ k ih =>
    obtain ⟨hn, ht, hpc, hcols, hsize⟩ := (s.gather k).gatherOne_frame k
    exact ⟨hn.trans ih.1, ht.trans ih.2.1, hpc.trans ih.2.2.1, hcols.trans ih.2.2.2.1,
      fun i => (hsize i).trans (ih.2.2.2.2 i)⟩

/-- The gather phase fills the empty buffers of the first `k` destinations. -/
theorem gather_at (s : ShuffleLower) (k i : ℕ) :
    (s.gather k).buffers i = (if i < k ∧ (s.buffers i).empty ∧ s.newRanges i ≠ [] then
        ((s.buffers i).fill (s.newRanges i)).1 else s.buffers i) ∧
      (s.gather k).newRanges i = (if i < k ∧ (s.buffers i).empty ∧ s.newRanges i ≠ [] then
        (s.newRanges i).drop ((s.buffers i).fill (s.newRanges i)).2 else s.newRanges i) := by
  induction k with
  | zero => simp [gather]
  | succ k ih =>
    rw [gather, gatherOne]
    rcases eq_or_ne i k with rfl | hne
    · simp only [lt_irrefl, false_and, ↓reduceIte] at ih
      rw [ih.1, ih.2]
      simp only [Nat.lt_succ_self, true_and]
      split <;> simp_all
    · have hiff : i < k + 1 ↔ i < k := by omega
      simp only [hiff]
      rw [← ih.1, ← ih.2]
      split <;> simp [hne]

theorem gather_oks (s : ShuffleLower) (k : ℕ) : (s.gather k).oks = s.oks := by
  induction k with
  | zero => rfl
  | succ k ih =>
    rw [← ih, gather, gatherOne]
    split <;> rfl

theorem Counts.gather (h : Counts t n s) (k : ℕ) : Counts t n (s.gather k) := by
  obtain ⟨hn, ht, hpc, hcols, hsize⟩ := s.gather_frame k
  refine ⟨hn.trans h.n_eq, ht.trans h.totalsize, fun i => (hsize i).trans (h.size i), ?_, ?_⟩
  · rw [hcols]
    exact h.counts
  · rw [hpc, hcols]
    exact h.uniform

theorem Counts.goto (h : Counts t n s) {pc : ShufflePc}
    (hpc : pc.closing = false → s.pc.closing = false) : Counts t n (s.goto pc) :=
  ⟨h.n_eq, h.totalsize, h.size, h.counts, fun hc => h.uniform (hpc hc)⟩

theorem Counts.setOk (h : Counts t n s) (i : ℕ) : Counts t n (s.setOk i) :=
  ⟨h.n_eq, h.totalsize, h.size, h.counts, h.uniform⟩

theorem Counts.setBuffer (h : Counts t n s) {i : ℕ} {b : Block} (hb : b.size = blockSize) :
    Counts t n (s.setBuffer i b) := by
  refine ⟨h.n_eq, h.totalsize, fun j => ?_, h.counts, h.uniform⟩
  rcases eq_or_ne j i with rfl | hne
  · simpa [ShuffleLower.setBuffer] using hb
  · simpa [ShuffleLower.setBuffer, hne] using h.size j

theorem mem_enqueue {i j : ℕ} {img : Image} (h : img ∈ (s.enqueue i).columns j) :
    img ∈ s.columns j ∨ img = (s.buffers i).image := by
  rcases eq_or_ne j i with rfl | hj
  · simpa [enqueue] using h
  · exact Or.inl (by simpa [enqueue, hj] using h)

theorem Counts.enqueue (h : Counts t n s) {i : ℕ}
    (hcount : (s.buffers i).image.count = announced t ∨
      s.pc.closing = true ∧ (s.buffers i).image.count = 0) : Counts t n (s.enqueue i) := by
  refine ⟨h.n_eq, h.totalsize, h.size, fun j img himg hne => ?_, fun hc j img himg => ?_⟩
  · rcases mem_enqueue himg with himg | rfl
    · exact h.counts j img himg hne
    · exact hcount.resolve_right fun hz => hne hz.2
  · rcases mem_enqueue himg with himg | rfl
    · exact h.uniform hc j img himg
    · exact hcount.resolve_right fun hz => nomatch hz.1.symm.trans hc

theorem Counts.assemble (h : Counts t n s) (i : ℕ) : Counts t n (s.assemble i) ∧
    ((s.assemble i).buffers i).image.count = announced t := by
  refine ⟨h.setBuffer rfl, ?_⟩
  rw [ShuffleLower.assemble, h.totalsize]
  simpa [ShuffleLower.setBuffer, announced] using ShuffleLower1.count_assembling t

theorem Counts.build (h : Counts t n s) (i : ℕ) :
    Counts t n (s.setBuffer i ((s.buffers i).build blockSize 0)) ∧
      ((s.setBuffer i ((s.buffers i).build blockSize 0)).buffers i).image.count = 0 := by
  refine ⟨h.setBuffer (h.size i), ?_⟩
  simpa [ShuffleLower.setBuffer] using Block.count_build (h.size i)

theorem step_counts (h : Counts t n s) (hs : s.step accepted = some s') : Counts t n s' := by
  cases hpc : s.pc with
  | gather =>
    simp only [step, hpc, Option.some.injEq] at hs
    subst hs
    exact (h.gather _).goto fun _ => by simp [(s.gather_frame _).2.2.1, hpc]
  | send i =>
    obtain ⟨hasm, hcount⟩ := h.assemble i
    simp only [step, hpc] at hs
    split_ifs at hs <;> cases hs
    · exact h.goto (by simp [hpc])
    · exact h.goto (by simp [hpc])
    · have hreset : ((s.assemble i).buffers i).reset.size = blockSize := hasm.size i
      exact ((hasm.enqueue (Or.inl hcount)).setBuffer hreset).goto fun _ => by
        simp [ShuffleLower.setBuffer, ShuffleLower.enqueue, ShuffleLower.assemble, hpc]
    · exact hasm.goto fun _ => by simp [ShuffleLower.setBuffer, ShuffleLower.assemble, hpc]
  | check =>
    simp only [step, hpc] at hs
    split_ifs at hs with hoks <;> cases hs
    · exact h.goto (by simp)
    · exact h.goto (by simp [hpc])
  | flush i =>
    obtain ⟨hasm, hcount⟩ := h.assemble i
    simp only [step, hpc] at hs
    split_ifs at hs <;> cases hs
    · exact h.goto (by simp [hpc])
    · exact (h.setOk i).goto fun _ => by simp [ShuffleLower.setOk, hpc]
    · exact (hasm.enqueue (Or.inl hcount)).goto fun _ => by
        simp [ShuffleLower.setBuffer, ShuffleLower.enqueue, ShuffleLower.assemble, hpc]
    · have hreset : ((s.assemble i).buffers i).reset.size = blockSize := hasm.size i
      exact ((hasm.setBuffer hreset).setOk i).goto fun _ => by
        simp [ShuffleLower.setBuffer, ShuffleLower.setOk, ShuffleLower.assemble, hpc]
  | close i =>
    obtain ⟨hbuild, hcount⟩ := h.build i
    simp only [step, hpc] at hs
    split_ifs at hs <;> cases hs
    · exact h.goto (by simp)
    · refine (hbuild.enqueue (Or.inr ⟨?_, hcount⟩)).goto (by simp)
      simp [ShuffleLower.setBuffer, hpc]
    · exact hbuild
  | returned => simp [step, hpc] at hs

theorem empty_build (b : Block) (size number : ℕ) : (b.build size number).empty = b.empty := rfl

theorem dataBlocks_concat (column : List Image) (img : Image) :
    dataBlocks (column ++ [img]) = dataBlocks column + if img.count ≠ 0 then 1 else 0 := by
  simp [dataBlocks, List.countP_cons]

theorem Uniform.dataBlocks {column : List Image} (h : Uniform t column) (hpos : 0 < announced t) :
    dataBlocks column = column.length := by
  rw [ShuffleLower.dataBlocks, List.countP_eq_length]
  intro img himg
  rw [h img himg]
  simpa using hpos.ne'

/-- In the flush, a block too many or a block lost is never made good. -/
theorem exactly_back (hpos : 0 < announced t) (h : Counts t n s)
    (hs : s.step accepted = some s') (hex : Exactly t sizes s') :
    Exactly t sizes s ∧ Once t sizes s accepted := by
  cases hpc : s.pc with
  | gather => exact ⟨fun hf => by simp [hpc] at hf, fun i _ hi => by simp [hpc] at hi⟩
  | send i => exact ⟨fun hf => by simp [hpc] at hf, fun i _ hi => by simp [hpc] at hi⟩
  | check =>
    refine ⟨fun _ => ?_, fun i _ hi => by simp [hpc] at hi⟩
    simp only [step, hpc] at hs
    split_ifs at hs <;> cases hs
    · exact hex rfl
    · exact hex rfl
  | flush i =>
    have hdata := (h.uniform (by simp [hpc]) i).dataBlocks hpos
    simp only [step, hpc] at hs
    split_ifs at hs with hlast hempty hacc <;> cases hs
    · refine ⟨fun _ => hex rfl, fun j hj heq => ?_⟩
      cases hpc.symm.trans heq
      omega
    · refine ⟨fun _ => hex rfl, fun j hj heq hfull => ?_⟩
      cases hpc.symm.trans heq
      simp [hempty] at hfull
    · -- the column gets one more block, so it lacked one
      have hi := (hex rfl i (Nat.lt_of_not_le hlast)).1
      have hcount : ((s.buffers i).assembling blockSize t).image.count ≠ 0 := by
        rw [ShuffleLower1.count_assembling]
        exact hpos.ne'
      simp only [goto, enqueue, assemble, setBuffer, Function.update_self, dataBlocks_concat,
        h.totalsize, if_pos hcount] at hi
      refine ⟨fun _ j hj => ?_, fun j hj heq _ => ?_⟩
      · rcases eq_or_ne j i with rfl | hne
        · exact ⟨by omega, fun he => absurd he hempty⟩
        · simpa [goto, enqueue, assemble, setBuffer, hne] using hex rfl j hj
      · cases hpc.symm.trans heq
        exact ⟨fun _ => by omega, fun _ => hacc⟩
    · -- the buffer is reset, so the column lacks none
      have hi := (hex rfl i (Nat.lt_of_not_le hlast)).2
      simp only [goto, setOk, assemble, setBuffer, Function.update_self, Block.reset,
        Block.empty, decide_true, forall_const] at hi
      refine ⟨fun _ j hj => ?_, fun j hj heq _ => ?_⟩
      · rcases eq_or_ne j i with rfl | hne
        · exact ⟨by omega, fun _ => hi⟩
        · simpa [goto, setOk, assemble, setBuffer, hne] using hex rfl j hj
      · cases hpc.symm.trans heq
        exact ⟨fun ha => absurd ha hacc, fun _ => by omega⟩
  | close i =>
    have hcount := Block.count_build (h.size i)
    refine ⟨fun _ j hj => ?_, fun j _ heq => by simp [hpc] at heq⟩
    simp only [step, hpc] at hs
    split_ifs at hs with hlast hacc <;> cases hs
    · exact hex rfl j hj
    · have hafter := hex rfl j hj
      rcases eq_or_ne j i with rfl | hne
      · simpa [Settled, goto, enqueue, setBuffer, dataBlocks_concat, hcount, empty_build]
          using hafter
      · simpa [goto, enqueue, setBuffer, hne] using hafter
    · have hafter := hex (by simp [setBuffer, hpc]) j hj
      rcases eq_or_ne j i with rfl | hne
      · simpa [Settled, setBuffer, empty_build] using hafter
      · simpa [setBuffer, hne] using hafter
  | returned => simp [step, hpc] at hs

theorem counts_prelude (sort : List Tuple → List Tuple) (junk : ℕ → Memory)
    (child : List Image) : Counts t n (prelude sort n t junk child) :=
  ⟨rfl, rfl, fun _ => rfl, by simp [prelude], by simp [prelude, Uniform]⟩

/-- A column with exactly its tuples was filled evenly, and has as many blocks as these take. -/
theorem Counts.even_of_lossless (h : Counts t n s) {i : ℕ} {ts : List Tuple}
    (hne : ts ≠ []) (hroom : 4 ≤ blockSize % t ∨ ts.length ≤ announced t)
    (hloss : ShuffleLower1.Lossless t (s.columns i) ts) :
    0 < announced t ∧ Even t ts.length ∧ dataBlocks (s.columns i) = blocksFor t ts.length := by
  obtain ⟨blocks, z, hcol, hz, hdata, hperm⟩ := hloss
  have huni : Uniform t blocks := fun b hb =>
    h.counts i b (by rw [hcol]; exact List.mem_append_left _ hb) (hdata b hb)
  have hlen : blocks.length * announced t = ts.length := by
    rw [← huni.length]
    exact hperm.length_eq
  have hlenpos := List.length_pos_iff.mpr hne
  have hpos : 0 < announced t := Nat.pos_of_ne_zero fun h0 => by simp [h0] at hlen; omega
  have heven : Even t ts.length := by
    rcases hroom with hroom | hroom
    · left
      have heq : announced t = capacity t :=
        (Block.capacity_eq_iff (by decide) (pos_of_announced hpos)).mpr hroom
      exact ⟨heq.symm, by rw [← heq, ← hlen]; exact Nat.dvd_mul_left _ _⟩
    · right
      have hone : 0 < blocks.length := Nat.pos_of_ne_zero fun h0 => by simp [h0] at hlen; omega
      have := Nat.le_mul_of_pos_left (announced t) hone
      omega
  refine ⟨hpos, heven, ?_⟩
  have hblocks := heven.blocksFor_mul hpos
  rw [← hlen] at hblocks ⊢
  rw [hcol, dataBlocks_concat, huni.dataBlocks hpos]
  simpa [hz] using (Nat.eq_of_mul_eq_mul_right hpos hblocks).symm

end Counts

section Execute
variable {sort : List Tuple → List Tuple} {n t : ℕ} {junk : ℕ → Memory} {child : List Image}
  {outcomes : List Bool} {s : ShuffleLower}

/-- The tuples of the child for destination `i`. -/
def shareOf (n t : ℕ) (child : List Image) (i : ℕ) : List Tuple :=
  share n i (child.flatMap (Image.tuples t))

/-- Every column has its share in order. -/
def Delivers (n t : ℕ) (child : List Image) (s : ShuffleLower) : Prop :=
  ∀ i < n, Ordered t (s.columns i) (shareOf n t child i)

/-- Every share fills blocks that hold what they announce, and in the flush every block is
accepted once and then refused. -/
def Clean (n t : ℕ) (child : List Image) (start : ShuffleLower) (outcomes : List Bool) : Prop :=
  (∀ i < n, Even t (shareOf n t child i).length) ∧
    Along step (Once t fun i => (shareOf n t child i).length) start outcomes

section Forward
variable (hperm : ∀ l, (sort l).Perm l) (hn : n ∣ cpuCore) (hfits : ∀ img ∈ child, img.Fits t)
  (hkeys : ∀ x ∈ child.flatMap (Image.tuples t), key x < dataVolume)
include hperm hn hfits hkeys

theorem newRanges_perm (i : ℕ) :
    ((prelude sort n t junk child).newRanges i).Perm (shareOf n t child i) := by
  have htuples := childTuples_eq hfits
  rw [prelude, htuples]
  exact (List.reverse_perm _).trans (combine_perm hperm hn hkeys i)

theorem inv_prelude (hshare : ∀ i < n, shareOf n t child i ≠ [])
    (heven : ∀ i < n, Even t (shareOf n t child i).length) :
    Inv t n (prelude sort n t junk child).newRanges (prelude sort n t junk child) := by
  have hp (i : ℕ) : ((prelude sort n t junk child).newRanges i).Perm (shareOf n t child i) :=
    newRanges_perm hperm hn hfits hkeys i
  refine ⟨rfl, rfl, ?_, fun hone => by simp [prelude] at hone, fun i hi => ?_⟩
  · refine (exhausted_eq_zero fun i hi hnil => ?_).symm
    have hi' := hp i
    rw [hnil, List.nil_perm] at hi'
    exact hshare i hi hi'
  · refine ⟨rfl, by simp [lane, prelude, Uniform], Or.inl ?_, [], ⟨?_, rfl, rfl, Or.inl rfl⟩, rfl⟩
    · exact (hp i).length_eq ▸ heven i hi
    · exact (Block.make (junk i) blockSize t).stored_reset

/-- In a clean run every column ends up with its share. -/
theorem delivers_of_clean (hsorted : ∀ l, (sort l).Pairwise fun x y => key y ≤ key x)
    (hshare : ∀ i < n, shareOf n t child i ≠ [])
    (hrun : run step (prelude sort n t junk child) outcomes = some s) (hret : s.pc = .returned)
    (hclean : Clean n t child (prelude sort n t junk child) outcomes) : Delivers n t child s := by
  obtain ⟨heven, honce⟩ := hclean
  have hp (i : ℕ) : ((prelude sort n t junk child).newRanges i).Perm (shareOf n t child i) :=
    newRanges_perm hperm hn hfits hkeys i
  have hlen : (fun i => (shareOf n t child i).length) =
      fun i => ((prelude sort n t junk child).newRanges i).length :=
    funext fun i => (hp i).length_eq.symm
  have heven' : ∀ i < n, Even t ((prelude sort n t junk child).newRanges i).length :=
    fun i hi => (hp i).length_eq ▸ heven i hi
  have hsizes : ∀ i, ∀ x ∈ (prelude sort n t junk child).newRanges i, x.length = t := by
    intro i x hx
    exact Image.length_of_mem_flatMap (List.mem_of_mem_filter ((hp i).subset hx))
  intro i hi
  have hpos : 0 < announced t := by
    rcases heven i hi with ⟨heq, hdvd⟩ | heq
    · have := Nat.pos_of_dvd_of_pos hdvd (List.length_pos_iff.mpr (hshare i hi))
      omega
    · rw [← heq]
      exact List.length_pos_iff.mpr (hshare i hi)
  rw [hlen] at honce
  have hinv : Inv t n (prelude sort n t junk child).newRanges s :=
    inv_along (fun _ _ _ hinv honce hs => step_inv hpos hsizes heven' hinv honce hs) honce hrun
      (inv_prelude hperm hn hfits hkeys hshare heven)
  have hlane := hinv.lanes i hi
  rw [hret] at hlane
  obtain ⟨data, z, hcol, hz, huni, hall⟩ := hlane
  change s.columns i = data ++ [z] at hcol
  refine ⟨⟨data, z, hcol, hz, fun b hb => ?_, ?_⟩, ?_⟩
  · rw [huni b hb]
    exact hpos.ne'
  · rw [hall]
    exact hp i
  · have hnil : z.tuples t = [] := List.length_eq_zero_iff.mp (by rw [Image.tuples_length, hz])
    rw [hcol, List.flatMap_append, List.flatMap_singleton, hnil, List.append_nil, hall, prelude,
      childTuples_eq hfits, List.pairwise_reverse]
    exact combine_sorted hperm hsorted hkeys i

end Forward

/-- A run that delivers is clean, or some share meets blocks whose tail cuts off a tuple. -/
theorem clean_of_delivers (hn : 0 < n) (hshare : ∀ i < n, shareOf n t child i ≠ [])
    (hrun : run step (prelude sort n t junk child) outcomes = some s)
    (hroom : ∀ i < n, 4 ≤ blockSize % t ∨ (shareOf n t child i).length ≤ announced t)
    (hdel : Delivers n t child s) : Clean n t child (prelude sort n t junk child) outcomes := by
  have hcounts : Counts t n s :=
    Runs.inv (fun _ _ _ h hs => step_counts h hs) hrun (counts_prelude sort junk child)
  have hall (i : ℕ) (hi : i < n) :=
    hcounts.even_of_lossless (hshare i hi) (hroom i hi) (hdel i hi).1
  refine ⟨fun i hi => (hall i hi).2.1, ?_⟩
  have hexactly : Exactly t (fun i => (shareOf n t child i).length) s := fun _ i hi => by
    have hblocks := (hall i (hcounts.n_eq ▸ hi)).2.2
    exact ⟨hblocks.le, fun _ => hblocks⟩
  exact (along_of_final (fun _ _ _ h hs => step_counts h hs)
    (fun _ _ _ h hs hex => exactly_back (hall 0 hn).1 h hs hex) hrun
    (counts_prelude sort junk child) hexactly).2

/-- When `execute` returns, a clean run has delivered. Conversely, a run that has delivered was
clean, unless a share of more than one block meets blocks whose tail cuts off a tuple. -/
theorem execute_ordered (hperm : ∀ l, (sort l).Perm l)
    (hsorted : ∀ l, (sort l).Pairwise fun x y => key y ≤ key x) (hn : n ∣ cpuCore)
    (hfits : ∀ img ∈ child, img.Fits t)
    (hkeys : ∀ x ∈ child.flatMap (Image.tuples t), key x < dataVolume)
    (hshare : ∀ i < n, shareOf n t child i ≠ [])
    (hrun : run step (prelude sort n t junk child) outcomes = some s) (hret : s.pc = .returned) :
    (Clean n t child (prelude sort n t junk child) outcomes → Delivers n t child s) ∧
      (Delivers n t child s → Clean n t child (prelude sort n t junk child) outcomes ∨
        ∃ i < n, blockSize % t < 4 ∧ announced t < (shareOf n t child i).length) := by
  refine ⟨delivers_of_clean hperm hn hfits hkeys hsorted hshare hrun hret, fun hdel => ?_⟩
  by_cases hcut : ∃ i < n, blockSize % t < 4 ∧ announced t < (shareOf n t child i).length
  · exact Or.inr hcut
  · refine Or.inl (clean_of_delivers (Nat.pos_of_dvd_of_pos hn (by decide)) hshare hrun
      (fun i hi => ?_) hdel)
    by_cases h4 : blockSize % t < 4
    · exact Or.inr (Nat.le_of_not_lt fun hlt => hcut ⟨i, hi, h4, hlt⟩)
    · exact Or.inl (Nat.le_of_not_lt h4)

end Execute

instance (t : ℕ) (sizes : ℕ → ℕ) (s : ShuffleLower) (accepted : Bool) :
    Decidable (Once t sizes s accepted) :=
  inferInstanceAs (Decidable (∀ i < s.n, s.pc = .flush i → (s.buffers i).empty = false →
    (accepted = true ↔ (s.columns i).length < blocksFor t (sizes i))))

/-- A sort as `stable_sort` is assumed to be. -/
def descending (l : List Tuple) : List Tuple := l.insertionSort fun x y => key y ≤ key x

theorem descending_perm (l : List Tuple) : (descending l).Perm l :=
  List.perm_insertionSort _ l

theorem descending_sorted (l : List Tuple) :
    (descending l).Pairwise fun x y => key y ≤ key x := by
  have : Std.Total fun x y : Tuple => key y ≤ key x := ⟨fun x y => Nat.le_total _ _⟩
  have : IsTrans Tuple fun x y => key y ≤ key x := ⟨fun _ _ _ hxy hyz => hyz.trans hxy⟩
  exact List.pairwise_insertionSort _ l

/-- One destination, and a child with the key 7 alone. -/
def oneKey (t : ℕ) : ShuffleLower := prelude descending 1 t (fun _ _ => 0) [oneTuple 7]

/-- Five blocks with a tuple each, in three of the four ranges. -/
def fiveLongs : List Image := [40000000, 7, 20000000, 30000000, 9].map oneLong

theorem fiveLongs_fits {t : ℕ} (ht : t ≤ blockSize) : ∀ img ∈ fiveLongs, img.Fits t := by
  intro img himg
  obtain ⟨k, -, rfl⟩ := List.mem_map.mp himg
  rwa [Image.Fits, oneLong_count, Nat.one_mul]

/-- Two destinations, and tuples of 40000 bytes, one to a block. -/
def fiveStart : ShuffleLower := prelude descending 2 40000 (fun _ _ => 0) fiveLongs

/-- The last block of the first destination is accepted in the flush and then refused. -/
def fiveOutcomes : List Bool := List.replicate 14 true ++ false :: List.replicate 6 true

theorem execute_ordered_fiveLongs : ∃ s, run step fiveStart fiveOutcomes = some s ∧
    Clean 2 40000 fiveLongs fiveStart fiveOutcomes ∧ Delivers 2 40000 fiveLongs s := by
  have hret : (run step fiveStart fiveOutcomes).map ShuffleLower.pc = some .returned := by
    decide +kernel
  obtain ⟨s, hrun, hpc⟩ := Option.map_eq_some_iff.mp hret
  have hlen : ∀ i < 2, 1 < (shareOf 2 40000 fiveLongs i).length := by decide +kernel
  have hclean : Clean 2 40000 fiveLongs fiveStart fiveOutcomes := by
    refine ⟨fun i hi => Or.inl ⟨by decide, ?_⟩, by decide +kernel⟩
    exact (by decide : capacity 40000 = 1) ▸ one_dvd _
  have hshare : ∀ i < 2, shareOf 2 40000 fiveLongs i ≠ [] := fun i hi =>
    List.ne_nil_of_length_pos (Nat.zero_lt_of_lt (hlen i hi))
  exact ⟨s, hrun, hclean, (execute_ordered descending_perm descending_sorted (by decide)
    (fiveLongs_fits (by decide)) (by decide +kernel) hshare hrun hpc).1 hclean⟩

/-- The only block is put again as long as the column has room. -/
theorem execute_repeats_block :
    (∀ x ∈ [oneTuple 7].flatMap (Image.tuples 16), key x < dataVolume) ∧
      shareOf 1 16 [oneTuple 7] 0 ≠ [] ∧
      ∃ s, run step (oneKey 16) (List.replicate 62 true ++ false :: List.replicate 4 true) =
        some s ∧ s.pc = .returned ∧ (s.columns 0).length = columnCon + 1 ∧
        ¬ Delivers 1 16 [oneTuple 7] s := by
  have hfinal : (run step (oneKey 16)
      (List.replicate 62 true ++ false :: List.replicate 4 true)).map
        (fun s => (s.pc, (s.columns 0).length)) = some (.returned, 21) := by decide +kernel
  have hone : (shareOf 1 16 [oneTuple 7] 0).length = 1 := by decide +kernel
  obtain ⟨s, hrun, heq⟩ := Option.map_eq_some_iff.mp hfinal
  obtain ⟨hpc, hlen⟩ := Prod.mk.inj heq
  refine ⟨by decide +kernel, List.length_pos_iff.mp (by omega), s, hrun, hpc, hlen, fun hdel => ?_⟩
  obtain ⟨⟨blocks, z, hcol, -, hdata, hperm⟩, -⟩ := hdel 0 one_pos
  rw [hcol, List.length_append, List.length_singleton] at hlen
  -- twenty blocks with a tuple each hold more than the one tuple of the child
  have hsum : (blocks.map fun _ => 1).sum ≤ (blocks.map Image.count).sum :=
    List.sum_le_sum fun b hb => Nat.one_le_iff_ne_zero.mpr (hdata b hb)
  have htotal := hperm.length_eq
  rw [ShuffleLower1.length_flatMap_tuples, hone] at htotal
  simp only [List.map_const', List.sum_replicate, smul_eq_mul, mul_one] at hsum
  omega

end ShuffleLower
end Mosito
