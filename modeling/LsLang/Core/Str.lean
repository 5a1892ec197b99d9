import LsLang.Word

/-! The byte strings of `std.core.str`. -/

namespace LsLang.Core

/-- `Str`: the bytes from `data` on, `len` of them. -/
abbrev Str : Type := List UInt8

/-- A character constant. -/
abbrev ch (c : Char) : UInt8 := UInt8.ofNat c.toNat

/-- A string constant. -/
abbrev lit (cs : List Char) : Str := cs.map ch

/-- The `int` that `byte_at!` returns. -/
abbrev int (b : UInt8) : Int := b.toNat

/-- The byte `push_byte` stores for an `int`. -/
def byteOf (b : Int) : UInt8 := UInt8.ofNat (b % 256).toNat

theorem int_eq_iff (b : UInt8) (n : Nat) (hn : n < 256) : int b = n ↔ b = UInt8.ofNat n := by
  grind [UInt8.toNat_ofNat_of_lt', UInt8.ofNat_toNat, Nat.cast_inj]

namespace Str

/-- ASCII whitespace, as `trim` reads it. -/
def isBlank (b : UInt8) : Bool := b == 32 || b == 9 || b == 10 || b == 13

def trim (s : Str) : Str := ((s.dropWhile isBlank).reverse.dropWhile isBlank).reverse

end Str

end LsLang.Core
