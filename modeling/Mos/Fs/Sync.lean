import Mos.Fs.BlockSpec
import Mos.Lib.Run

/-!
# What `fs_sync` writes back

`fs_sync` writes the blocks that carry `PTE_DIRTY`. Only `dir_lookup` and `file_dirty` set it: neither
`free_block`, which changes the bitmap, nor the functions that put block numbers into files and index
blocks, nor `file_create`, which writes a name, mark the blocks they change. So a block that the server
has edited reaches the disk if and only if it happens to be marked.
-/

namespace Mos

open Lib Prog Function

variable {s t : Fs} {b : Nat}

/-! ## The loop -/

end Mos
