import Mosito.Common.Buffer

/-! Column types and the schemas that travel with a query plan. -/
namespace Mosito
open ByteStore

/-- `enum data_type`. -/
inductive DataType where
  | int
  | double
  | long
  deriving DecidableEq, Repr

/-- `totalsize_`, `vd_` and `accum_`, the byte offsets of the columns. -/
structure NewSchema where
  totalsize : ℕ
  vd : List DataType
  accum : List ℕ
  deriving DecidableEq, Repr

namespace NewSchema

/-- One round of the constructor's loop; a type without a branch leaves no column. -/
def addColumn (ns : NewSchema) (d : DataType) : NewSchema :=
  match d with
  | .int => ⟨ns.totalsize + 4, ns.vd ++ [.int], ns.accum ++ [ns.totalsize]⟩
  | .long => ⟨ns.totalsize + 8, ns.vd ++ [.long], ns.accum ++ [ns.totalsize]⟩
  | .double => ns

def make (vd : List DataType) : NewSchema := vd.foldl addColumn ⟨0, [], []⟩

/-- The tuple that stands for an exhausted column: `ULONG_MAX` at `8*i` for each long
column `i` of the `malloc`ed bytes `junk`. -/
def sentinel (ns : NewSchema) (junk : Memory) : Tuple :=
  let add := ns.vd.zipIdx.foldl
    (fun m d => if d.1 = .long then writeAt m (8 * d.2) (leBytes 8 ulongMax) else m) junk
  readAt add 0 ns.totalsize

end NewSchema

/-- The schema `(t_long, t_long)`. -/
def twoLongs : NewSchema := NewSchema.make [.long, .long]

end Mosito
