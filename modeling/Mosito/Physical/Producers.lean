import Mosito.Physical.Project
import Mosito.Physical.ShuffleProducer

/-! The counts that the producers of blocks write. The sort and the shuffle announce the tuples of
a full block; the projection writes no count. -/
namespace Mosito
open ByteStore ShuffleLower

namespace Project

end Project

end Mosito
