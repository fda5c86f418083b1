import Ryze.Lib.Addresses
import Ryze.Esm.Sharing

set_option autoImplicit false

/-! # How many times a file is compiled

Once for every chain of imports that leads to it from the entry file: the map from hashes to paths
shares nothing among them. So the work grows exponentially where each of some files imports the next
one more than once. -/

namespace Ryze

open CLib Transition Unfolding

section Count

variable {host : Host} (M : ModuleSet host) {filePath cwd entry : List UInt8}
  (hpath : esmPath filePath cwd = .ok entry) (hentry : entry ∈ M.files)
  (hhash : ∀ s, Loads host filePath cwd s → s.esm.Separated host)

include M hpath hentry hhash

end Count

end Ryze
