import Mosito.Common.Buffer
import Mosito.Lib.Runs

/-! Scans of files through the memory store. The first scan of a file reads it into blocks, and
every scan of it hands out copies of these blocks, one for each call. -/
namespace Mosito
open ByteStore Runs

namespace Image

/-- All bytes of the block. -/
def bytes (img : Image) : List UInt8 := readAt img.mem 0 blockSize

@[simp] theorem bytes_length (img : Image) : img.bytes.length = blockSize := readAt_length _ _ _

end Image

namespace Block

/-- `new Block(BLOCK_SIZE)`; `junk` has the bytes and the `tuple_size_` that nobody sets. -/
def fresh (junk : Block) : Block := { junk with free := 0, size := blockSize }

end Block

structure Scan where
  /-- `scan_ser_obj_->file_path_` -/
  filePath : String
  /-- The text of `filename_`; empty before the first `prelude`. -/
  filename : String
  cursor : ℕ
  /-- What came out with true since the last `prelude`. -/
  delivered : List Image
  /-- False came out since the last `prelude`. -/
  ended : Bool

namespace Scan

/-- The rounds of `fread` until it gives no byte. `bytes` is what is left of the file, `buffer` is
what `buffer_` points to. -/
def readBlocks : ℕ → (ℕ → Block) → Memory → List UInt8 → List Block
  | 0, _, _, _ => []
  | fuel + 1, junk, buffer, bytes =>
      let piece := bytes.take blockSize
      let buffer := writeAt buffer 0 piece
      if piece.length = 0 then []
      else (junk 0).fresh.storeBlock buffer piece.length ::
        readBlocks fuel (fun k => junk (k + 1)) buffer (bytes.drop blockSize)

/-- Every round but the last takes a byte. -/
def readFile (junk : ℕ → Block) (buffer : Memory) (bytes : List UInt8) : List Block :=
  readBlocks (bytes.length + 1) junk buffer bytes

/-- `filename_` gets another name behind the one that it has. -/
def nextName (ip : String) (scan : Scan) : String :=
  scan.filename ++ (scan.filePath ++ "." ++ ip)

def opened (ip : String) (scan : Scan) : Scan :=
  { scan with filename := scan.nextName ip, cursor := 0, delivered := [], ended := false }

end Scan

/-- The scans of a worker, its files, and `MemoryStore::blocks_`. -/
structure Scans where
  ip : String
  disk : String → Option (List UInt8)
  blocks : String → Option (List Block)
  scans : ℕ → Scan

/-- `write` is another program that writes or removes a file. -/
inductive ScanEvent where
  | prelude (i : ℕ) (junk : ℕ → Block) (buffer : Memory)
  | execute (i : ℕ) (block : Block)
  | write (path : String) (contents : Option (List UInt8))

namespace Scans
open Scan

/-- `none` when the file cannot be opened, since `fread` then gets a null pointer. -/
def prelude (i : ℕ) (junk : ℕ → Block) (buffer : Memory) (s : Scans) : Option Scans :=
  let scan := (s.scans i).opened s.ip
  let s := { s with scans := Function.update s.scans i scan }
  match s.blocks scan.filename with
  | some _ => some s
  | none => (s.disk scan.filename).map fun bytes =>
      { s with
        blocks := Function.update s.blocks scan.filename (some (readFile junk buffer bytes)) }

/-- `blocks_[filename_.str()]` makes an empty entry if there is none. -/
def entry (i : ℕ) (s : Scans) : List Block := (s.blocks (s.scans i).filename).getD []

def execute (i : ℕ) (block : Block) (s : Scans) : Scans :=
  let scan := s.scans i
  let s' := { s with blocks := Function.update s.blocks scan.filename (some (s.entry i)) }
  match (s.entry i)[scan.cursor]? with
  | some b =>
      let block := block.storeBlock b.start blockSize
      let scan :=
        { scan with cursor := scan.cursor + 1, delivered := scan.delivered ++ [block.image] }
      { s' with scans := Function.update s.scans i scan }
  | none => { s' with scans := Function.update s.scans i { scan with ended := true } }

def step (s : Scans) : ScanEvent → Option Scans
  | .prelude i junk buffer => s.prelude i junk buffer
  | .execute i block => some (s.execute i block)
  | .write path contents => some { s with disk := Function.update s.disk path contents }

/-- Before the first `prelude` of any scan. -/
structure Start (s : Scans) : Prop where
  empty : ∀ path, s.blocks path = none
  closed : ∀ i, (s.scans i).filename = "" ∧ (s.scans i).delivered = [] ∧ (s.scans i).ended = false

/-- The blocks hold the bytes, one behind the other, and the last one has some of them. -/
structure Carries (bytes : List UInt8) (imgs : List Image) : Prop where
  enough : bytes.length ≤ imgs.length * blockSize
  needed : imgs ≠ [] → (imgs.length - 1) * blockSize < bytes.length
  bytes : (imgs.flatMap Image.bytes).take bytes.length = bytes

section Carries
variable {bytes : List UInt8} {img : Image} {imgs imgs' : List Image}

/-- A block with the first bytes in front. -/
theorem Carries.cons (h : Carries (bytes.drop blockSize) imgs) (hne : bytes ≠ [])
    (himg : img.bytes.take bytes.length = bytes.take blockSize) : Carries bytes (img :: imgs) := by
  have hlen := h.enough
  rw [List.length_drop] at hlen
  have hpos : 0 < bytes.length := List.length_pos_of_ne_nil hne
  constructor
  · rw [List.length_cons, Nat.succ_mul]
    omega
  · intro _
    rw [List.length_cons, Nat.add_sub_cancel]
    by_cases hi : imgs = []
    · rw [hi, List.length_nil, Nat.zero_mul]
      exact hpos
    · have hneed := h.needed hi
      have himgs := List.length_pos_of_ne_nil hi
      rw [List.length_drop] at hneed
      have hmul : imgs.length * blockSize = (imgs.length - 1) * blockSize + blockSize := by
        rw [← Nat.succ_mul]
        congr 1
        omega
      omega
  · have hrest := h.bytes
    rw [List.length_drop] at hrest
    rw [List.flatMap_cons, List.take_append, Image.bytes_length, himg, hrest,
      List.take_append_drop]

end Carries

section Steps
variable {s s' s₀ : Scans} {e : ScanEvent} {es : List ScanEvent} {i j : ℕ} {junk : ℕ → Block}
  {buffer : Memory} {path : String} {bs : List Block}

/-- The file is either in the store, or it is read. -/
theorem prelude_cases (h : s.prelude i junk buffer = some s') :
    s'.scans = Function.update s.scans i ((s.scans i).opened s.ip) ∧
      ((∃ bs, s.blocks ((s.scans i).nextName s.ip) = some bs ∧ s'.blocks = s.blocks) ∨
        ∃ bytes, s.blocks ((s.scans i).nextName s.ip) = none ∧
          s.disk ((s.scans i).nextName s.ip) = some bytes ∧
          s'.blocks = Function.update s.blocks ((s.scans i).nextName s.ip)
            (some (readFile junk buffer bytes))) := by
  unfold prelude at h
  dsimp only at h
  split at h
  next bs hbs =>
    cases h
    exact ⟨rfl, .inl ⟨bs, hbs, rfl⟩⟩
  next hnone =>
    obtain ⟨bytes, hbytes, rfl⟩ := Option.map_eq_some_iff.mp h
    exact ⟨rfl, .inr ⟨bytes, hnone, hbytes, rfl⟩⟩

theorem execute_blocks (s : Scans) (i : ℕ) (block : Block) :
    (s.execute i block).blocks =
      Function.update s.blocks (s.scans i).filename (some (s.entry i)) := by
  unfold execute
  dsimp only
  split <;> rfl

theorem execute_scans_of_ne (s : Scans) (block : Block) (h : j ≠ i) :
    (s.execute i block).scans j = s.scans j := by
  unfold execute
  dsimp only
  split <;> exact Function.update_of_ne h _ _

theorem image_storeBlock_start (b block : Block) :
    (block.storeBlock b.start blockSize).image = b.image := by
  ext k
  simp [Block.image, Block.storeBlock]

theorem execute_some {b : Block} (block : Block) (h : (s.entry i)[(s.scans i).cursor]? = some b) :
    (s.execute i block).scans i =
      { s.scans i with
        cursor := (s.scans i).cursor + 1
        delivered := (s.scans i).delivered ++ [b.image] } := by
  unfold execute
  dsimp only
  rw [h]
  dsimp only
  rw [Function.update_self, image_storeBlock_start]

theorem execute_none (block : Block) (h : (s.entry i)[(s.scans i).cursor]? = none) :
    (s.execute i block).scans i = { s.scans i with ended := true } := by
  unfold execute
  dsimp only
  rw [h]
  exact Function.update_self ..

theorem execute_filename (s : Scans) (i : ℕ) (block : Block) :
    ((s.execute i block).scans i).filename = (s.scans i).filename := by
  cases h : (s.entry i)[(s.scans i).cursor]? with
  | some b => rw [execute_some block h]
  | none => rw [execute_none block h]

/-- What is in the store is never read again. -/
theorem blocks_kept (h : step s e = some s') (hb : s.blocks path = some bs) :
    s'.blocks path = some bs := by
  cases e with
  | prelude i junk buffer =>
    obtain ⟨-, ⟨-, -, hsame⟩ | ⟨bytes, hnone, -, hnew⟩⟩ := prelude_cases h
    · rwa [hsame]
    · have hne : path ≠ (s.scans i).nextName s.ip := by
        rintro rfl
        rw [hb] at hnone
        cases hnone
      rwa [hnew, Function.update_of_ne hne]
  | execute i block =>
    cases h
    rw [execute_blocks]
    by_cases hp : path = (s.scans i).filename
    · rw [hp, Function.update_self, entry, ← hp, hb]
      rfl
    · rwa [Function.update_of_ne hp]
  | write p contents =>
    cases h
    exact hb

/-- What a scan that was opened has handed out of its file. -/
structure Reading (s : Scans) (i : ℕ) : Prop where
  stored : s.blocks (s.scans i).filename = some (s.entry i)
  cursor : (s.scans i).cursor ≤ (s.entry i).length
  delivered : (s.scans i).delivered = ((s.entry i).take (s.scans i).cursor).map Block.image
  ended : (s.scans i).ended = true → (s.scans i).cursor = (s.entry i).length

def Inv (s : Scans) : Prop := ∀ i, (s.scans i).filename ≠ "" → s.Reading i

theorem entry_eq (h : s.blocks (s.scans i).filename = some bs) : s.entry i = bs := by
  rw [entry, h]
  rfl

theorem Start.inv (h : Start s) : s.Inv := fun i hi => absurd (h.closed i).1 hi

/-- The steps of other scans leave a scan as it is. -/
theorem Reading.congr (h : s.Reading i) (hscan : s'.scans i = s.scans i)
    (hblocks : s'.blocks (s.scans i).filename = s.blocks (s.scans i).filename) : s'.Reading i := by
  have hentry : s'.entry i = s.entry i := by rw [entry, entry, hscan, hblocks]
  constructor
  · rw [hscan, hentry, hblocks]
    exact h.stored
  · rw [hscan, hentry]
    exact h.cursor
  · rw [hscan, hentry]
    exact h.delivered
  · rw [hscan, hentry]
    exact h.ended

theorem reading_opened (hscan : s.scans i = (s₀.scans i).opened s₀.ip)
    (hblocks : s.blocks ((s₀.scans i).nextName s₀.ip) = some bs) : s.Reading i := by
  have hstored : s.blocks (s.scans i).filename = some bs := by
    rw [hscan]
    exact hblocks
  constructor
  · rw [entry_eq hstored, hstored]
  · rw [hscan]
    exact Nat.zero_le _
  · rw [hscan]
    rfl
  · rw [hscan]
    nofun

theorem Inv.prelude (h : s.Inv) (hs : s.prelude i junk buffer = some s') : s'.Inv := by
  obtain ⟨hscans, hblocks⟩ := prelude_cases hs
  intro j hj
  by_cases hji : j = i
  · subst hji
    have hscan : s'.scans j = (s.scans j).opened s.ip := by rw [hscans, Function.update_self]
    obtain ⟨bs, hbs, hsame⟩ | ⟨bytes, -, -, hnew⟩ := hblocks
    · exact reading_opened hscan (hsame ▸ hbs)
    · exact reading_opened hscan (by rw [hnew, Function.update_self])
  · have hscan : s'.scans j = s.scans j := by rw [hscans, Function.update_of_ne hji]
    rw [hscan] at hj
    have hr := h j hj
    apply hr.congr hscan
    rw [hr.stored]
    exact blocks_kept (e := .prelude i junk buffer) hs hr.stored

/-- A call hands out the block at the cursor, or finds the scan at its end. -/
theorem Reading.execute (h : s.Reading i) (block : Block) : (s.execute i block).Reading i := by
  have hstored : (s.execute i block).blocks ((s.execute i block).scans i).filename =
      some (s.entry i) := by
    rw [execute_blocks, execute_filename, Function.update_self]
  have hentry := entry_eq hstored
  cases hb : (s.entry i)[(s.scans i).cursor]? with
  | some b =>
    obtain ⟨hlt, hget⟩ := List.getElem?_eq_some_iff.mp hb
    have hscan := execute_some block hb
    constructor
    · rw [hentry, hstored]
    · rw [hentry, hscan]
      exact hlt
    · rw [hentry, hscan]
      dsimp only
      rw [List.take_add_one, List.map_append, ← h.delivered, hb]
      rfl
    · rw [hscan]
      intro hended
      exact absurd (h.ended hended) hlt.ne
  | none =>
    have hscan := execute_none block hb
    constructor
    · rw [hentry, hstored]
    · rw [hentry, hscan]
      exact h.cursor
    · rw [hentry, hscan]
      exact h.delivered
    · rw [hentry, hscan]
      intro _
      exact Nat.le_antisymm h.cursor (List.getElem?_eq_none_iff.mp hb)

theorem Inv.step (h : s.Inv) (hs : Scans.step s e = some s') : s'.Inv := by
  cases e with
  | prelude i junk buffer => exact h.prelude hs
  | execute i block =>
    cases hs
    intro j hj
    by_cases hji : j = i
    · subst hji
      rw [execute_filename] at hj
      exact (h j hj).execute block
    · have hscan := execute_scans_of_ne s block hji
      rw [hscan] at hj
      have hr := h j hj
      apply hr.congr hscan
      rw [hr.stored]
      exact blocks_kept (e := .execute i block) rfl hr.stored
  | write path contents =>
    cases hs
    exact fun j hj => (h j hj).congr rfl rfl

theorem inv_of_run (hinv : s₀.Inv) (hr : run Scans.step s₀ es = some s) : s.Inv :=
  Runs.inv (fun _ _ _ hi hs => hi.step hs) hr hinv

end Steps

end Scans
end Mosito
