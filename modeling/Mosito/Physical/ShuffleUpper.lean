import Mosito.Common.SortedMerge

/-! The upper end of the ordered shuffle hands the merged blocks to the operator above. -/
namespace Mosito
open ByteStore KWayMerge PCBuffer

structure ShuffleUpper where
  pcbuffer : PCBuffer
  blockTemp : Block

namespace ShuffleUpper

/-- One call of `execute`: its result, the operator and the caller's block after it, and the
tuples that `get_sorted` stored. -/
structure Executed where
  ret : Bool
  upper : ShuffleUpper
  block : Block
  stored : List Tuple

/-- `none` when `get_sorted` waits for a block that never comes. -/
def execute (su : ShuffleUpper) (block : Block) : Option Executed :=
  (su.pcbuffer.getSorted su.blockTemp.reset).map fun c =>
    if c.ret then ⟨true, ⟨c.pc, c.block⟩, block.storeBlock c.block.start blockSize, c.stored⟩
    else ⟨false, ⟨c.pc, c.block⟩, block, c.stored⟩

/-- Successive calls up to the first one that returns false, if it is among the first `k`. -/
def executeRun : ℕ → ShuffleUpper → Block → Option (List Executed)
  | 0, _, _ => none
  | k + 1, su, block =>
      (su.execute block).bind fun e =>
        if e.ret then (executeRun k e.upper e.block).map (e :: ·) else some [e]

/-- `prelude`: a new buffer with a column for each lower, and a block for its results. -/
def make (ns : NewSchema) (row : ℕ) (data : ℕ → List (Option Image)) (junk : Memory)
    (lt : LoserTree Ptr) : ShuffleUpper :=
  ⟨PCBuffer.make ns row data junk lt, Block.make junk blockSize ns.totalsize⟩

/-- The tuples that an operator above gets by iterating the blocks returned with true. -/
def delivered (es : List Executed) : List Tuple :=
  es.flatMap fun e => if e.ret then e.block.tuples else []

/-- The tuples passed to `storeTuple`. -/
def stored (es : List Executed) : List Tuple := es.flatMap Executed.stored

end ShuffleUpper

namespace PCBuffer

theorem Frame.trans {i : ℕ} {pc pc' pc'' : PCBuffer} (h : Frame i pc pc')
    (h' : Frame i pc' pc'') : Frame i pc pc'' where
  ns := h'.ns.trans h.ns
  row := h'.row.trans h.row
  lt := h'.lt.trans h.lt
  begun := h'.begun.trans h.begun
  junk := h'.junk.trans h.junk
  data j hj := (h'.data j hj).trans (h.data j hj)
  mergedBlocks j hj := (h'.mergedBlocks j hj).trans (h.mergedBlocks j hj)
  itrs j hj := (h'.itrs j hj).trans (h.itrs j hj)

theorem getNext_frame (i : ℕ) (pc : PCBuffer) : Frame i pc (pc.getNext i).2 := by
  constructor <;> intros <;> simp [getNext, *]

theorem createIterator_frame (i : ℕ) (pc : PCBuffer) : Frame i pc (pc.createIterator i) := by
  constructor <;> intros <;> simp [createIterator, *]

theorem fetch_frame {i : ℕ} {pc pc' : PCBuffer} (h : pc.fetch i = some pc') : Frame i pc pc' := by
  obtain ⟨r, -, rfl⟩ := Option.map_eq_some_iff.mp h
  constructor <;> intros <;> simp [*]

/-- `advance` never gives a null entry, whatever the buffer holds. -/
theorem advance_next {pc pc' : PCBuffer} {i : ℕ} {ptr : Ptr}
    (h : pc.advance i = some (.next ptr pc')) :
    Frame i pc pc' ∧ ((∃ addr, ptr = .block i addr) ∨ ∃ bytes, ptr = .heap bytes) := by
  have hframe := pc.getNext_frame i
  by_cases hc : (pc.itrs i).current = (pc.mergedBlocks i).getSize
  · rw [getNext_of_eq hc] at hframe
    rw [advance, getNext_of_eq hc] at h
    obtain ⟨pc1, hfetch, hnext⟩ := Option.map_eq_some_iff.mp h
    have hframe1 := hframe.trans (fetch_frame hfetch)
    split at hnext
    · dsimp only at hnext
      split at hnext
      · cases hnext
      · cases hnext
        exact ⟨⟨hframe1.ns, hframe1.row, hframe1.lt, hframe1.begun, hframe1.junk, hframe1.data,
          hframe1.mergedBlocks, hframe1.itrs⟩, Or.inr ⟨_, rfl⟩⟩
    · next hsize =>
      have hframe2 := (hframe1.trans (createIterator_frame i pc1)).trans (getNext_frame i _)
      have hcur : ((pc1.createIterator i).itrs i).current = 0 := by
        simp [createIterator, BufferIterator.fresh]
      have hne : 0 ≠ ((pc1.createIterator i).mergedBlocks i).getSize := Ne.symm hsize
      rw [getNext_of_lt hcur hne] at hnext hframe2
      cases hnext
      exact ⟨hframe2, Or.inl ⟨_, rfl⟩⟩
  · rw [getNext_of_lt rfl hc] at hframe
    rw [advance, getNext_of_lt rfl hc] at h
    cases h
    exact ⟨hframe, Or.inl ⟨_, rfl⟩⟩

/-- A call returns true with a full block and false only after it stored a tuple. -/
structure Ended (ns : NewSchema) (size : ℕ) (c : Call) : Prop where
  full : c.ret = true → Loaded c.pc ∧ c.pc.ns = ns ∧ c.stored.length = size / ns.totalsize ∧
    ∃ b : Block, b.tupleSize = ns.totalsize ∧ c.block = b.assembling blockSize ns.totalsize
  last : c.ret = false → c.stored ≠ []

theorem mergeLoop_ended {fuel : ℕ} {pc : PCBuffer} {block : Block} {out : List Tuple} {c : Call}
    (h : Loaded pc) (hfree : block.free = out.length * block.tupleSize)
    (hroom : block.free ≤ block.size) (htup : block.tupleSize = pc.ns.totalsize)
    (hc : mergeLoop fuel pc block out = some c) : Ended pc.ns block.size c := by
  induction fuel generalizing pc block out with
  | zero => cases hc
  | succ fuel ih =>
    rw [mergeLoop] at hc
    cases hall : block.allocateTuple with
    | none =>
      rw [hall] at hc
      cases hc
      refine ⟨fun _ => ⟨h, rfl, ?_, block, htup, rfl⟩, fun hret => by cases hret⟩
      have hlt := Block.allocateTuple_eq_none.mp hall
      rw [hfree, htup] at hlt hroom
      symm
      apply Nat.div_eq_of_lt_le hroom
      rwa [Nat.succ_mul]
    | some d =>
      obtain ⟨i, hi, hw⟩ := h.winner_eq
      obtain ⟨hle, -⟩ := Block.allocateTuple_eq_some.mp hall
      simp only [hall, hw, Nat.add_sub_cancel] at hc
      cases hadv : pc.advance i with
      | none =>
        rw [hadv] at hc
        cases hc
      | some a =>
        rw [hadv] at hc
        cases a with
        | ended pc' =>
          cases hc
          exact ⟨fun hret => (by cases hret), fun _ => by simp⟩
        | next ptr pc' =>
          obtain ⟨hf, hptr⟩ := advance_next hadv
          have hl := h.load hw hf hptr
          simp only [hl.winning_ne_null, ↓reduceIte] at hc
          have hend := ih hl ?_ ?_ ?_ hc
          · exact hf.ns ▸ hend
          · change block.free + block.tupleSize = (out ++ [_]).length * block.tupleSize
            rw [hfree, List.length_append, List.length_singleton, Nat.succ_mul]
          · exact hle
          · exact htup.trans (congrArg _ hf.ns.symm)

end PCBuffer

namespace ShuffleUpper
variable {ns : NewSchema} {row : ℕ}

/-- The blocks returned with true announce no more tuples than they were given. -/
theorem executeRun_delivered_lt {k : ℕ} {su : ShuffleUpper} {pc : PCBuffer} {block : Block}
    {es : List Executed} (hrun : executeRun k su block = some es)
    (hstart : (if su.pcbuffer.begun then some su.pcbuffer else su.pcbuffer.start) = some pc)
    (h : Loaded pc) (hns : pc.ns = ns) (htup : su.blockTemp.tupleSize = ns.totalsize)
    (hsize : su.blockTemp.size = blockSize) (hblock : block.size = blockSize) :
    (delivered es).length < (stored es).length := by
  induction k generalizing su pc block es with
  | zero => cases hrun
  | succ k ih =>
    subst hns
    obtain ⟨e, he, hrest⟩ := Option.bind_eq_some_iff.mp hrun
    obtain ⟨c, hc, rfl⟩ := Option.map_eq_some_iff.mp he
    rw [getSorted, hstart, Option.bind_some] at hc
    have hfree : su.blockTemp.reset.reset.free =
        ([] : List Tuple).length * su.blockTemp.reset.reset.tupleSize := by simp [Block.reset]
    have hend := mergeLoop_ended h hfree (Nat.zero_le _) htup hc
    cases hret : c.ret with
    | false =>
      simp only [hret, Bool.false_eq_true, ↓reduceIte] at hrest
      cases hrest
      simpa [delivered, stored, List.length_pos_iff] using hend.last hret
    | true =>
      obtain ⟨hl, hcns, hlen, b, hbt, hcb⟩ := hend.full hret
      simp only [hret, ↓reduceIte] at hrest
      obtain ⟨es', hes', rfl⟩ := Option.map_eq_some_iff.mp hrest
      have hct : c.block.tupleSize = pc.ns.totalsize := hcb ▸ hbt
      have hcs : c.block.size = blockSize := hcb ▸ rfl
      have hlt := ih hes' (by simp [hl.begun]) hl hcns hct hcs hblock
      have hsz : (block.storeBlock c.block.start blockSize).getSize =
          (blockSize - 4) / pc.ns.totalsize := by
        rw [Block.getSize_copy hblock hcs, hcb, Block.getSize_assembling]
        exact (Nat.div_le_self _ _).trans_lt (by decide)
      have hle : (blockSize - 4) / pc.ns.totalsize ≤ c.stored.length := by
        rw [hlen]
        change _ ≤ su.blockTemp.size / _
        rw [hsize]
        exact Nat.div_le_div_right (by omega)
      simp only [delivered, stored, List.flatMap_cons, List.length_append, ↓reduceIte,
        Block.tuples_length, hsz] at hlt ⊢
      omega

/-- The calls of `execute` store what the calls of `get_sorted` store. -/
theorem executeRun_of_sortedRun {k : ℕ} {pc : PCBuffer} {blockTemp : Block} {cs : List Call}
    (h : sortedRun k pc blockTemp = some cs) (block : Block) :
    ∃ es, executeRun k ⟨pc, blockTemp⟩ block = some es ∧ stored es = cs.flatMap Call.stored := by
  induction k generalizing pc blockTemp block cs with
  | zero => cases h
  | succ k ih =>
    obtain ⟨c, hc, hrest⟩ := Option.bind_eq_some_iff.mp h
    have hc' : pc.getSorted blockTemp.reset = some c := hc
    rw [executeRun, execute, hc', Option.map_some, Option.bind_some]
    cases hret : c.ret with
    | false =>
      simp only [hret, Bool.false_eq_true, ↓reduceIte] at hrest
      cases hrest
      exact ⟨_, rfl, rfl⟩
    | true =>
      simp only [hret, ↓reduceIte] at hrest
      obtain ⟨cs', hcs', rfl⟩ := Option.map_eq_some_iff.mp hrest
      obtain ⟨es, hes, hst⟩ := ih hcs' (block.storeBlock c.block.start blockSize)
      refine ⟨⟨true, ⟨c.pc, c.block⟩, block.storeBlock c.block.start blockSize, c.stored⟩ :: es,
        ?_, ?_⟩
      · simp only [↓reduceIte, hes, Option.map_some]
      · rw [stored, List.flatMap_cons, List.flatMap_cons, ← hst]
        rfl

section Delivery
variable {data : ℕ → List (Option Image)} {junk : Memory} {lt : LoserTree Ptr} {block : Block}
  {blocks : ℕ → List Image}

/-- The run of calls ends, every stored tuple is in a block returned with true, and these
blocks hold as many tuples as the columns were given. -/
def Delivers (su : ShuffleUpper) (block : Block) (supplied : List Tuple) : Prop :=
  ∃ k es, executeRun k su block = some es ∧ (delivered es).length = (stored es).length ∧
    (delivered es).length = supplied.length

theorem delivered_lt_stored (h : Supply ns.totalsize row data blocks) (hblock : block.size = blockSize)
    {k : ℕ} {es : List Executed} (hrun : executeRun k (make ns row data junk lt) block = some es) :
    (delivered es).length < (stored es).length := by
  obtain ⟨pc, hpc, -, hns, -, -, hload, -⟩ := h.start junk lt
  exact executeRun_delivered_lt hrun hpc hload hns rfl rfl hblock

/-- With the sentinel after all tuples the run ends, and some tuples are never delivered. -/
theorem delivered_lt_supplied (h : Supply ns.totalsize row data blocks)
    (hb : Bounded ns junk row blocks) (ht : 0 < ns.totalsize) (hle : ns.totalsize ≤ blockSize)
    (hblock : block.size = blockSize) :
    ∃ k es, executeRun k (make ns row data junk lt) block = some es ∧
      (delivered es).length < (total row fun i => decode ns.totalsize (blocks i)).length := by
  obtain ⟨k, cs, hcs, hc⟩ := h.completes hb lt ht hle
    (show (Block.make junk blockSize ns.totalsize).tupleSize = ns.totalsize from rfl) rfl
  obtain ⟨es, hes, hst⟩ := executeRun_of_sortedRun hcs block
  obtain ⟨rem', hpicks, hnil⟩ := hc.picks_all
  have hlen := hpicks.total_perm.length_eq
  rw [hnil, List.append_nil, ← hst] at hlen
  exact ⟨k, es, hes, hlen ▸ delivered_lt_stored h hblock hes⟩

theorem not_delivers (h : Supply ns.totalsize row data blocks) (hblock : block.size = blockSize)
    (supplied : List Tuple) : ¬ Delivers (make ns row data junk lt) block supplied := by
  rintro ⟨k, es, hrun, hstored, -⟩
  have := delivered_lt_stored h hblock hrun
  omega

/-- No run of `execute` delivers all tuples: the last one is stored in the block of the
call that returns false. -/
theorem never_delivers (h : Supply ns.totalsize row data blocks) (hblock : block.size = blockSize)
    (junk : Memory) (lt : LoserTree Ptr) :
    ¬ Delivers (make ns row data junk lt) block (total row fun i => decode ns.totalsize (blocks i)) ∧
      (Bounded ns junk row blocks → 0 < ns.totalsize → ns.totalsize ≤ blockSize →
        ∃ k es, executeRun k (make ns row data junk lt) block = some es ∧
          (delivered es).length < (total row fun i => decode ns.totalsize (blocks i)).length) :=
  ⟨not_delivers h hblock _, fun hb ht hle => delivered_lt_supplied h hb ht hle hblock⟩

end Delivery

/-- The pops of a column that is given one tuple. -/
def latePops (i : ℕ) : List (Option Image) :=
  ((BlockCircleQueue.make (fun _ => Block.make (fun _ => 0) blockSize 0) columnCon).run
    (lateOps (if i = 0 then 7 else 3))).popped

private theorem supply_latePops :
    Supply twoLongs.totalsize 2 latePops fun i => [oneTuple (if i = 0 then 7 else 3)] :=
  ⟨le_rfl, fun _ _ => (supplied_lateOps _).feed, fun _ _ => by simp⟩

/-- Two columns of one tuple each: the run ends, and not both tuples are delivered. -/
theorem never_delivers_two :
    ∃ k es, executeRun k (make twoLongs 2 latePops (fun _ => 0)
        ⟨0, 0, 0, fun _ => 0, fun _ => .null⟩) (Block.make (fun _ => 0) blockSize 16) = some es ∧
      (delivered es).length < [longTuple 7, longTuple 3].length := by
  have hd := never_delivers supply_latePops
    (show (Block.make (fun _ => 0) blockSize 16).size = blockSize from rfl) (fun _ => 0)
    ⟨0, 0, 0, fun _ => 0, fun _ => .null⟩
  refine hd.2 ⟨sentinel_twoLongs _, fun i _ x hx => ?_⟩ (by decide) (by decide)
  have hx' : x ∈ [longTuple (if i = 0 then 7 else 3)] := hx
  rw [List.mem_singleton.mp hx', key_longTuple]
  exact (UInt8.toNat_lt _).trans (by decide)

/-- Two columns of one tuple each are not delivered. -/
theorem not_delivers_two :
    ¬ Delivers (make twoLongs 2 latePops (fun _ => 0) ⟨0, 0, 0, fun _ => 0, fun _ => .null⟩)
      (Block.make (fun _ => 0) blockSize 16) [longTuple 7, longTuple 3] :=
  not_delivers supply_latePops rfl _

end ShuffleUpper
end Mosito
