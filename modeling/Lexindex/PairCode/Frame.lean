import Mathlib
import Lexindex.PairCode.Widths

/-!
# A group's frames

The layout that covers a group's runs holds each run's own numbers as offsets that fit their fields,
and is read back from its bytes, as a table is.
-/

set_option autoImplicit false

namespace Lexindex.PairCode

open Packed (top)

namespace Four

/-- Each number at most the other's. -/
structure Le (x y : Four) : Prop where
  bl : x.bl ≤ y.bl
  bn : x.bn ≤ y.bn
  wl : x.wl ≤ y.wl
  wn : x.wn ≤ y.wn

theorem Le.refl (x : Four) : x.Le x :=
  ⟨le_rfl, le_rfl, le_rfl, le_rfl⟩

theorem Le.trans {x y z : Four} (left : x.Le y) (right : y.Le z) : x.Le z :=
  ⟨left.bl.trans right.bl, left.bn.trans right.bn, left.wl.trans right.wl, left.wn.trans right.wn⟩

theorem max_le {x y z : Four} (left : x.Le z) (right : y.Le z) : (x.zip max y).Le z :=
  ⟨Nat.max_le.mpr ⟨left.bl, right.bl⟩, Nat.max_le.mpr ⟨left.bn, right.bn⟩,
    Nat.max_le.mpr ⟨left.wl, right.wl⟩, Nat.max_le.mpr ⟨left.wn, right.wn⟩⟩

end Four

namespace Frames

/-- A layout of offsets `p` bits wide, its numbers such as its bytes can say. -/
structure Laid (f : Frames) (p : Four) : Prop where
  made : new f.lo p = some f
  bl : f.lo.bl < 2 ^ 64
  bn : f.lo.bn < 2 ^ 64
  wl : f.lo.wl ≤ FRAME_MAX
  wn : f.lo.wn ≤ FRAME_MAX
  pl : p.wl ≤ FRAME_MAX
  pn : p.wn ≤ FRAME_MAX

section
variable {f : Frames} {p : Four} (laid : f.Laid p)
include laid

end

end Frames

namespace Code

end Code

end Lexindex.PairCode
