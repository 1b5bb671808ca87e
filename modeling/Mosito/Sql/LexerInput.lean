import Mosito.Lib.ByteStore

/-! How the text of a query reaches the scanner: `getparsetreeroot` stores the typed query,
and the scanner asks for it piece by piece through `readInputForLexer`. -/
namespace Mosito
open ByteStore

/-- The bytes of `globalInputText`. -/
def globalInputSize : ℕ := 10000

/-- A typed query: it ends at its first `;` and fits in `globalInputText` with its NUL. -/
structure Query where
  text : List UInt8
  short : text.length < 9999
  ends : ∃ body, text = body ++ [59] ∧ 59 ∉ body

/-- The globals that the scanner reads from. -/
structure LexerInput where
  globalInputText : Memory
  globalReadOffset : ℤ

/-- What the calls between a storing and the first call with 0 bytes report and deliver. -/
structure Reads where
  counts : List ℤ
  bytes : List UInt8
  deriving DecidableEq

namespace LexerInput

/-- The zero-initialised globals at the start of the program. -/
def start : LexerInput := ⟨fun _ => 0, 0⟩

def strlen (text : Memory) : ℕ := ((readAt text 0 globalInputSize).takeWhile (· ≠ 0)).length

/-- The buffer's bytes, `*numBytesRead` and the globals after the call. -/
def readInputForLexer (maxBytesToRead : ℤ) (g : LexerInput) : List UInt8 × ℤ × LexerInput :=
  let bytesRemaining : ℤ := strlen g.globalInputText - g.globalReadOffset
  let numBytesToRead := if maxBytesToRead > bytesRemaining then bytesRemaining else maxBytesToRead
  (readAt g.globalInputText g.globalReadOffset.toNat numBytesToRead.toNat, numBytesToRead,
    { g with globalReadOffset := g.globalReadOffset + numBytesToRead })

/-- The typing loop of `getparsetreeroot`, after the `memset`. -/
def store (q : Query) (g : LexerInput) : LexerInput :=
  { g with globalInputText := writeAt (fun _ => 0) 0 (q.text ++ [0]) }

/-- The scanner's calls, up to the first one that reports 0 bytes. -/
def drain : ℕ → (ℕ → ℕ+) → LexerInput → Option (Reads × LexerInput)
  | 0, _, _ => none
  | fuel + 1, sizes, g =>
      let r := readInputForLexer (sizes 0 : ℕ) g
      if r.2.1 = 0 then some (⟨[], []⟩, r.2.2)
      else (drain fuel (fun i => sizes (i + 1)) r.2.2).map fun d =>
        (⟨r.2.1 :: d.1.counts, r.1 ++ d.1.bytes⟩, d.2)

/-- One query; no call but the last reports 0, so `globalInputSize` calls are enough. -/
def getparsetreeroot (q : Query) (sizes : ℕ → ℕ+) (g : LexerInput) :
    Option (Reads × LexerInput) := drain globalInputSize sizes (store q g)

/-- The queries of a session, each with the sizes that the scanner asks for. -/
def execute : List (Query × (ℕ → ℕ+)) → LexerInput → Option (List Reads)
  | [], _ => some []
  | x :: session, g =>
      (getparsetreeroot x.1 x.2 g).bind fun d => (execute session d.2).map (d.1 :: ·)

/-- The query has reached the scanner as it was typed, and no count is negative. -/
def Whole (q : Query) (d : Reads) : Prop := d.bytes = q.text ∧ ∀ n ∈ d.counts, 0 ≤ n

section Drain
variable {g : LexerInput} {n : ℕ}

/-- At the end of the text, the next call reports 0 bytes. -/
theorem drain_end (hn : strlen g.globalInputText = n) (hg : g.globalReadOffset = n) (fuel : ℕ)
    (sizes : ℕ → ℕ+) : drain (fuel + 1) sizes g = some (⟨[], []⟩, g) := by
  have hpos : 1 ≤ (sizes 0 : ℕ) := (sizes 0).pos
  have hzero : (if ((sizes 0 : ℕ) : ℤ) > (n : ℤ) - n then (n : ℤ) - n else (sizes 0 : ℕ)) = 0 := by
    rw [if_pos (by omega)]
    omega
  rw [drain, readInputForLexer, hn, hg]
  dsimp only
  rw [if_pos hzero, hzero, add_zero, ← hg]

/-- Before the end of the text, the calls deliver the rest of it. -/
theorem drain_rest (hn : strlen g.globalInputText = n) {o fuel : ℕ} (hg : g.globalReadOffset = o)
    (ho : o ≤ n) (hf : n - o < fuel) (sizes : ℕ → ℕ+) :
    ∃ counts, drain fuel sizes g = some (⟨counts, readAt g.globalInputText o (n - o)⟩,
      { g with globalReadOffset := n }) ∧ ∀ c ∈ counts, 0 ≤ c := by
  induction fuel generalizing g o sizes with
  | zero => omega
  | succ fuel ih =>
    rcases Nat.eq_or_lt_of_le ho with rfl | hlt
    · refine ⟨[], ?_, by simp⟩
      rw [drain_end hn hg, Nat.sub_self, readAt_zero, ← hg]
    · -- the call takes `m` bytes and leaves the rest to the later calls
      obtain ⟨m, hm, hm1, hmn⟩ : ∃ m : ℕ, (if ((sizes 0 : ℕ) : ℤ) > (n : ℤ) - o then (n : ℤ) - o
          else (sizes 0 : ℕ)) = m ∧ 1 ≤ m ∧ m ≤ n - o := by
        by_cases hc : ((sizes 0 : ℕ) : ℤ) > (n : ℤ) - o
        · exact ⟨n - o, by rw [if_pos hc]; omega, by omega, le_rfl⟩
        · exact ⟨sizes 0, if_neg hc, (sizes 0).pos, by omega⟩
      rw [drain, readInputForLexer, hn, hg]
      dsimp only
      rw [hm, if_neg (by omega)]
      obtain ⟨counts, hd, hcounts⟩ := ih (g := { g with globalReadOffset := (o : ℤ) + m })
        (o := o + m) hn (by push_cast; rfl) (by omega) (by omega) fun i => sizes (i + 1)
      refine ⟨m :: counts, ?_, ?_⟩
      · rw [hd, Option.map_some]
        simp only [Int.toNat_natCast]
        rw [← readAt_add, show m + (n - (o + m)) = n - o by omega]
      · intro c hc
        rcases List.mem_cons.mp hc with rfl | hc
        · omega
        · exact hcounts c hc

/-- Past the end of the text, one call reports a negative number and moves back to the end. -/
theorem drain_past (hn : strlen g.globalInputText = n) {o : ℕ} (hg : g.globalReadOffset = o)
    (ho : n < o) (fuel : ℕ) (sizes : ℕ → ℕ+) :
    drain (fuel + 2) sizes g = some (⟨[(n : ℤ) - o], []⟩, { g with globalReadOffset := n }) := by
  have hpos : 1 ≤ (sizes 0 : ℕ) := (sizes 0).pos
  have hnone : ((n : ℤ) - o).toNat = 0 := Int.toNat_of_nonpos (by omega)
  have hend := drain_end (g := { g with globalReadOffset := n }) hn rfl fuel fun i => sizes (i + 1)
  rw [drain, readInputForLexer, hn, hg]
  dsimp only
  rw [if_pos (show ((sizes 0 : ℕ) : ℤ) > (n : ℤ) - o by omega), if_neg (by omega),
    show (o : ℤ) + (n - o) = n by ring, hend, hnone, readAt_zero]
  rfl

end Drain

/-- The query as a C string. -/
def cString (q : Query) : List UInt8 := q.text.takeWhile (· ≠ 0)

theorem cString_eq_iff {q : Query} : cString q = q.text ↔ 0 ∉ q.text := by
  rw [cString, List.takeWhile_eq_self_iff]
  constructor
  · intro h hz
    simpa using h 0 hz
  · intro h x hx
    simp only [decide_eq_true_eq]
    rintro rfl
    exact h hx

section Store
variable (q : Query) (g : LexerInput)

theorem readAt_store : readAt (store q g).globalInputText 0 (q.text.length + 1) = q.text ++ [0] := by
  have h := readAt_writeAt_same (fun _ => 0) 0 (q.text ++ [0])
  rwa [List.length_append] at h

theorem strlen_store : strlen (store q g).globalInputText = (cString q).length := by
  have hshort := q.short
  have hsize : globalInputSize = q.text.length + 1 + (globalInputSize - (q.text.length + 1)) := by
    unfold globalInputSize
    omega
  rw [strlen, hsize, readAt_add, readAt_store, List.append_assoc, List.takeWhile_append]
  split
  · next h =>
    have hall : q.text.takeWhile (· ≠ 0) = q.text := (List.takeWhile_prefix _).eq_of_length h
    rw [cString, hall]
    simp
  · rfl

theorem readAt_cString (o : ℕ) :
    readAt (store q g).globalInputText o ((cString q).length - o) = (cString q).drop o := by
  have hle : (cString q).length ≤ q.text.length := (List.takeWhile_prefix _).length_le
  have htake : cString q = q.text.take (cString q).length :=
    List.prefix_iff_eq_take.mp (List.takeWhile_prefix _)
  have hread : readAt (store q g).globalInputText 0 (cString q).length = cString q := by
    have h := congrArg (List.take (cString q).length) (readAt_store q g)
    rw [readAt_take, min_eq_left (by omega), List.take_append_of_le_length hle, ← htake] at h
    exact h
  have hdrop := readAt_drop (store q g).globalInputText 0 (cString q).length o
  rw [hread, Nat.zero_add] at hdrop
  exact hdrop.symm

end Store

/-- A query leaves the offset at the end of its text. It arrives whole exactly if the offset
was 0 before and the query has no NUL. -/
theorem getparsetreeroot_whole (q : Query) (sizes : ℕ → ℕ+) {g : LexerInput} {o : ℕ}
    (hg : g.globalReadOffset = o) : ∃ d, getparsetreeroot q sizes g =
      some (d, { store q g with globalReadOffset := (cString q).length }) ∧
      (Whole q d ↔ o = 0 ∧ 0 ∉ q.text) := by
  have hle : (cString q).length ≤ q.text.length := (List.takeWhile_prefix _).length_le
  have hshort := q.short
  have hpos : 0 < q.text.length := by
    obtain ⟨body, hbody, -⟩ := q.ends
    rw [hbody]
    simp
  rcases Nat.lt_or_ge (cString q).length o with hlt | hge
  · refine ⟨_, drain_past (strlen_store q g) hg hlt 9998 sizes, ⟨fun h => ?_, fun h => ?_⟩⟩
    · have := h.2 _ (List.mem_singleton_self _)
      omega
    · omega
  · obtain ⟨counts, hd, hcounts⟩ := drain_rest (strlen_store q g) hg hge
      (show _ < globalInputSize by unfold globalInputSize; omega) sizes
    refine ⟨_, hd, ?_⟩
    rw [Whole, readAt_cString, ← cString_eq_iff]
    constructor
    · rintro ⟨hbytes, -⟩
      have hlen := congrArg List.length hbytes
      rw [List.length_drop] at hlen
      obtain rfl : o = 0 := by omega
      exact ⟨rfl, hbytes⟩
    · rintro ⟨rfl, hq⟩
      exact ⟨hq, hcounts⟩

theorem execute_total (session : List (Query × (ℕ → ℕ+))) {g : LexerInput} {o : ℕ}
    (hg : g.globalReadOffset = o) : ∃ ds, execute session g = some ds := by
  induction session generalizing g o with
  | nil => exact ⟨[], rfl⟩
  | cons x session ih =>
    obtain ⟨d, hd, -⟩ := getparsetreeroot_whole x.1 x.2 hg
    obtain ⟨ds, hds⟩ := ih (g := { store x.1 g with globalReadOffset := (cString x.1).length }) rfl
    exact ⟨d :: ds, by rw [execute, hd, Option.bind_some, hds, Option.map_some]⟩

/-- The first query decides on its own text, and leaves no chance to a second one. -/
theorem execute_cons_whole (x : Query × (ℕ → ℕ+)) (session : List (Query × (ℕ → ℕ+))) :
    ∃ ds, execute (x :: session) start = some ds ∧
      (List.Forall₂ (fun x d => Whole x.1 d) (x :: session) ds ↔
        session = [] ∧ 0 ∉ x.1.text) := by
  obtain ⟨d, hd, hwhole⟩ := getparsetreeroot_whole x.1 x.2 (g := start) (o := 0) rfl
  cases session with
  | nil =>
    refine ⟨[d], by rw [execute, hd]; rfl, ?_⟩
    rw [List.forall₂_cons, hwhole]
    simp
  | cons y session =>
    let g : LexerInput := { store x.1 start with globalReadOffset := (cString x.1).length }
    obtain ⟨e, he, hnext⟩ := getparsetreeroot_whole y.1 y.2 (g := g) (o := (cString x.1).length) rfl
    obtain ⟨ds, hds⟩ := execute_total session
      (g := { store y.1 g with globalReadOffset := (cString y.1).length }) rfl
    refine ⟨d :: e :: ds, ?_, ?_⟩
    · rw [execute, hd, Option.bind_some, execute, he, Option.bind_some, hds]
      rfl
    · rw [List.forall₂_cons, List.forall₂_cons, hwhole, hnext]
      refine ⟨fun h => ?_, fun h => absurd h.1 (List.cons_ne_nil _ _)⟩
      obtain ⟨⟨-, hx⟩, ⟨hzero, -⟩, -⟩ := h
      obtain ⟨body, hbody, -⟩ := x.1.ends
      rw [cString_eq_iff.mpr hx, hbody] at hzero
      simp at hzero

/-- Every session ends; all its queries arrive whole exactly if it is at most one query
without a NUL. -/
theorem execute_whole_iff (session : List (Query × (ℕ → ℕ+))) :
    ∃ ds, execute session start = some ds ∧
      (List.Forall₂ (fun x d => Whole x.1 d) session ds ↔
        session.length ≤ 1 ∧ ∀ x ∈ session, 0 ∉ x.1.text) := by
  cases session with
  | nil => exact ⟨[], rfl, by simp⟩
  | cons x session =>
    obtain ⟨ds, hds, hiff⟩ := execute_cons_whole x session
    refine ⟨ds, hds, hiff.trans ⟨?_, ?_⟩⟩
    · rintro ⟨rfl, hx⟩
      simpa using hx
    · rintro ⟨hlen, hall⟩
      exact ⟨List.eq_nil_of_length_eq_zero (by simpa using hlen), hall x (by simp)⟩

/-- The query `a;`. -/
def shortQuery : Query := ⟨[97, 59], by decide, [97], rfl, by decide⟩

/-- `a;` with a scanner that asks for 8192 bytes each time. -/
def shortRead : Query × (ℕ → ℕ+) := (shortQuery, fun _ => 8192)

/-- The second time `a;` is typed, the first call already reports 0 bytes. -/
theorem execute_second_lost : ∃ ds, execute [shortRead, shortRead] start = some ds ∧
    ¬ List.Forall₂ (fun x d => Whole x.1 d) [shortRead, shortRead] ds := by
  obtain ⟨ds, hds, hiff⟩ := execute_cons_whole shortRead [shortRead]
  exact ⟨ds, hds, fun h => List.cons_ne_nil _ _ (hiff.mp h).1⟩

end LexerInput
end Mosito
