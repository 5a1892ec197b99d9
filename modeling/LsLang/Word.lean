import Mathlib.Data.Int.Basic
import Mathlib.Tactic.NormNum

/-! Fixed-width integers of the source language: `int` is 32 bits wide and
`i64` 64, both in two's complement; `u8` is a byte. -/

namespace LsLang

/-- The value an `int` expression takes when its exact value is `x`. -/
def i32 (x : Int) : Int := Int.bmod x (2 ^ 32)

/-- The value an `i64` expression takes when its exact value is `x`. -/
def i64 (x : Int) : Int := Int.bmod x (2 ^ 64)

/-- `x as u8`. -/
def u8 (x : Nat) : Nat := x % 256

theorem i32_eq {x : Int} (hl : -2 ^ 31 ≤ x) (hu : x < 2 ^ 31) : i32 x = x := by
  apply Int.bmod_eq_of_le <;> omega

theorem i64_eq {x : Int} (hl : -2 ^ 63 ≤ x) (hu : x < 2 ^ 63) : i64 x = x := by
  apply Int.bmod_eq_of_le <;> omega

theorem u8_eq {x : Nat} (h : x < 256) : u8 x = x := Nat.mod_eq_of_lt h

end LsLang
