import Mos.Fs.FatDir
import Mos.Fs.Serv
import Mos.Fs.FatCut
import Mos.Fs.Removal

/-!
# The size of a file

`file_set_size` stores the size it is given. `fatfile_set_size` rounds it up to pages, and to clusters where
they are larger than pages. The client keeps the size that it has asked for in its own descriptor; so it sees
the difference only when it opens the file again.
-/

namespace Mos

open Lib Prog Function

/-! ## Reading a file to its end -/

/-- `MAXFILESIZE`. -/
def maxfilesize : Nat := nindirect * by2blk

/-- `file_read(fd, buf, n, offset)` of the client, where `size` is the size in the descriptor: how many bytes
it copies. -/
def fileRead (size n offset : Word) : Word :=
  if offset > size then 0 else if offset + n > size then size - offset else n

/-- `ROUND(a, n)`, where `n` is a power of 2. -/
def roundUp (a n : Nat) : Nat := (a + n - 1) % 2 ^ 32 / n * n

/-- `f->dir`. -/
def FatFs.dir (s : FatFs) (f : Nat) : Nat := s.half (f + 34) * 65536 + s.half (f + 32)

section Calm

/-- `m` leaves the cache alone. -/
def Calm {α : Type} (m : FatM α) : Prop :=
  ∀ cache, Within (fun u : FatFs => u.cache = cache) (fun _ => True) m

end Calm

variable {s t u : FatFs} {f n fuel : Nat}

end Mos
