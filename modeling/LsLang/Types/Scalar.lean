import Mathlib.Data.Int.Order.Basic
import Mathlib.Tactic.NormNum
import Mathlib.Tactic.Positivity

/-! The scalar types of `types.c`, and how they widen. -/

namespace LsLang.Types

/-- The kinds of scalar type, `TYPE_INT` to `TYPE_CHAR`. -/
inductive Scalar
  | int | i8 | i16 | i32 | i64 | u8 | u16 | u32 | u64
  | f32 | f64 | f16 | bf16
  | bool | char
  deriving DecidableEq

namespace Scalar

/-- `type_is_integer` -/
def isInteger : Scalar → Bool
  | int | i8 | i16 | i32 | i64 | u8 | u16 | u32 | u64 | char => true
  | _ => false

/-- `type_is_float` -/
def isFloat : Scalar → Bool
  | f32 | f64 | f16 | bf16 => true
  | _ => false

/-- `type_is_numeric` -/
def isNumeric (t : Scalar) : Bool := t.isInteger || t.isFloat

/-- `type_is_signed` -/
def isSigned : Scalar → Bool
  | int | i8 | i16 | i32 | i64 => true
  | _ => false

/-- `type_is_unsigned` -/
def isUnsigned : Scalar → Bool
  | u8 | u16 | u32 | u64 | char => true
  | _ => false

/-- `type_int_bits` -/
def intBits : Scalar → Nat
  | i8 | u8 | char => 8
  | i16 | u16 => 16
  | int | i32 | u32 => 32
  | i64 | u64 => 64
  | _ => 0

/-- `type_float_mantissa_bits` -/
def floatMantissaBits : Scalar → Nat
  | f32 => 24
  | f64 => 53
  | f16 => 11
  | bf16 => 8
  | _ => 0

/-- `type_float_rank` -/
def floatRank : Scalar → Nat
  | f64 => 3
  | f32 => 2
  | _ => 1

/-- `type_widens_to` -/
def widensTo (src dst : Scalar) : Bool :=
  if src = dst then false
  else if src.isFloat && dst.isFloat then decide (src.floatRank < dst.floatRank)
  else if src.isInteger && dst.isFloat then
    decide (0 < src.intBits ∧ 0 < dst.floatMantissaBits ∧ src.intBits ≤ dst.floatMantissaBits)
  else if src.isInteger && dst.isInteger then
    if src.isSigned && dst.isSigned then decide (src.intBits ≤ dst.intBits)
    else if src.isUnsigned && dst.isUnsigned then decide (src.intBits ≤ dst.intBits)
    else if src.isUnsigned && dst.isSigned then decide (src.intBits < dst.intBits)
    else false
  else false

/-- `type_numeric_common` -/
def numericCommon (a b : Scalar) : Option Scalar :=
  if !a.isNumeric || !b.isNumeric then none
  else if a = b then some a
  else if a.widensTo b then some b
  else if b.widensTo a then some a
  else none

/-- The width of the values of an integer type or `bool`. -/
def width (t : Scalar) : Nat := if t = bool then 1 else t.intBits

def InRange (t : Scalar) (v : Int) : Prop :=
  if t.isSigned then -2 ^ (t.width - 1) ≤ v ∧ v < 2 ^ (t.width - 1) else 0 ≤ v ∧ v < 2 ^ t.width

instance (t : Scalar) (v : Int) : Decidable (t.InRange v) := by
  unfold InRange
  infer_instance

/-- The value of the type that has the bits of `v`. -/
def wrap (t : Scalar) (v : Int) : Int :=
  if t.isSigned then Int.bmod v (2 ^ t.width) else v % 2 ^ t.width

theorem signed_width {t : Scalar} (h : t.isSigned = true) :
    t.width = 8 ∨ t.width = 16 ∨ t.width = 32 ∨ t.width = 64 := by
  cases t <;> first | (exact absurd h (by decide)) | decide

theorem wrap_inRange (t : Scalar) (v : Int) : t.InRange (t.wrap v) := by
  unfold InRange wrap
  split
  · grind [signed_width, Int.bmod_lt, Int.le_bmod]
  · exact ⟨Int.emod_nonneg _ (by positivity), Int.emod_lt_of_pos _ (by positivity)⟩

theorem wrap_emod (t : Scalar) (v : Int) : t.wrap v % 2 ^ t.width = v % 2 ^ t.width := by
  unfold wrap
  split
  · exact_mod_cast Int.bmod_emod (x := v) (m := 2 ^ t.width)
  · exact Int.emod_emod_of_dvd _ (dvd_refl _)

theorem InRange.eq_of_emod {t : Scalar} {v w : Int} (hv : t.InRange v) (hw : t.InRange w)
    (h : v % 2 ^ t.width = w % 2 ^ t.width) : v = w := by
  unfold InRange at hv hw
  split at hv
  · rename_i hs
    rw [if_pos hs] at hw
    grind [signed_width]
  · rename_i hs
    rw [if_neg hs] at hw
    grind [Int.emod_eq_of_lt]

end Scalar

end LsLang.Types
