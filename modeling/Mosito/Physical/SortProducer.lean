import Mosito.Physical.ParallelSort

/-! What the blocks of the sort announce. The sort finishes every block with
`assembling(BLOCK_SIZE, bytes)`, so it announces as many tuples as a full block has room for. -/
namespace Mosito
open ByteStore ShuffleLower

/-- The tail of the block counts the tuples `ts`, and a receiver iterates exactly these. -/
def Truthful (t : ℕ) (img : Image) (ts : List Tuple) : Prop :=
  img.count = ts.length ∧ img.tuples t = ts

/-- No tuples at all, or blocks of which each holds what it announces. -/
def FillsEvenly (t k : ℕ) : Prop := k = 0 ∨ Even t k

section Assembling
variable {t : ℕ} {b : Block} {ts : List Tuple}

/-- An assembled block is truthful exactly if it holds as many tuples as fit before the tail. -/
theorem truthful_assembling (h : b.Stored ts) (hsize : b.size = blockSize)
    (htup : b.tupleSize = t) :
    Truthful t (b.assembling blockSize t).image ts ↔ ts.length = announced t := by
  have hcount : (b.assembling blockSize t).image.count = announced t :=
    ShuffleLower1.count_assembling t
  rw [Truthful, hcount]
  constructor
  · rintro ⟨hlen, -⟩
    exact hlen.symm
  · intro hlen
    exact ⟨hlen.symm, Held.image_tuples ⟨h, hsize, htup, Or.inr hlen⟩ hlen⟩

theorem ShuffleLower.Even.announced_pos {k : ℕ} (h : Even t k) (hk : k ≠ 0) : 0 < announced t := by
  by_contra hnot
  have hzero : announced t = 0 := by omega
  rcases h with ⟨hcap, hdvd⟩ | rfl
  · rw [hcap, hzero, zero_dvd_iff] at hdvd
    exact hk hdvd
  · exact hk hzero

end Assembling

namespace PhysicalSort

section Handed
variable {t : ℕ} {s : PhysicalSort}

end Handed

end PhysicalSort

end Mosito
