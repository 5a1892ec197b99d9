import LsLang.Core.Growth
import LsLang.Core.StrNum

/-! Decimal text: the digits that the runtime writes, and `Str.to_int` and `Str.to_i64`, which read them
back. -/

namespace LsLang.Runtime

open LsLang.Core LsLang.Undefined

/-! ### Writing -/

/-- The digits of `v` from the last to the first, in the cells of `tmp` that are left. -/
def decLoop : ℕ → UInt64 → Str → Res Str
  | 0, v, tmp => if v = 0 then .ok tmp else .stuck
  | room + 1, v, tmp => if v = 0 then .ok tmp else decLoop room (v / 10) (tmp ++ [48 + (v % 10).toUInt8])

/-- `ls_u64_dec` -/
def lsU64Dec (v : UInt64) : Res Str :=
  if v = 0 then .ok [48]
  else do
    let tmp ← decLoop 20 v []
    .ok tmp.reverse

/-- `ls_i64_dec` -/
def lsI64Dec (v : Int64) : Res Str :=
  if v < 0 then do
    let a ← asLong (v.toInt + 1)
    let b ← asLong (-a)
    let digits ← lsU64Dec (UInt64.ofNat b.toNat + 1)
    .ok (45 :: digits)
  else lsU64Dec (UInt64.ofNat v.toInt.toNat)

/-! ### The digits -/

theorem showNat_step {n : ℕ} (h : 10 ≤ n) : showNat n = showNat (n / 10) ++ showNat (n % 10) := by
  have hlt : n % 10 < 10 := Nat.mod_lt n (by omega)
  unfold showNat
  rw [Nat.toDigits_of_base_le (by omega) h, Nat.toDigits_of_lt_base hlt]
  grind

theorem showNat_digit {n : ℕ} (h : n < 10) : showNat n = [48 + UInt8.ofNat n] := by
  have hall : ∀ k : Fin 10, showNat k = [48 + UInt8.ofNat k] := by decide
  exact hall ⟨n, h⟩

theorem showNat_head {n : ℕ} (h : (showNat n).head? = some 48) : n = 0 := by
  induction n using Nat.strong_induction_on with
  | _ n ih =>
    by_cases hn : n < 10
    · have hall : ∀ k : Fin 10, (showNat k).head? = some 48 → k = 0 := by decide
      exact congrArg Fin.val (hall ⟨n, hn⟩ h)
    · obtain ⟨a, rest, hcons⟩ := List.exists_cons_of_ne_nil (showNat_ne_nil (n / 10))
      rw [showNat_step (by omega), hcons] at h
      grind

theorem decLoop_zero (room : ℕ) (tmp : Str) : decLoop room 0 tmp = .ok tmp := by
  cases room with
  | zero => rfl
  | succ room => rfl

theorem decLoop_digits {room : ℕ} {v : UInt64} (tmp : Str) (hpos : v ≠ 0) (h : v.toNat < 10 ^ room) :
    decLoop room v tmp = .ok (tmp ++ (showNat v.toNat).reverse) := by
  have hv : v.toNat ≠ 0 := fun h0 => hpos (UInt64.toNat_inj.1 h0)
  have hten : (10 : UInt64).toNat = 10 := rfl
  induction room generalizing v tmp with
  | zero => omega
  | succ room ih =>
    have hdiv : (v / 10).toNat = v.toNat / 10 := by rw [UInt64.toNat_div, hten]
    have hmod : (v % 10).toUInt8 = UInt8.ofNat (v.toNat % 10) := by
      rw [← UInt8.toNat_inj, UInt64.toNat_toUInt8, UInt64.toNat_mod, hten]
      rw [UInt8.toNat_ofNat']
    unfold decLoop
    rw [if_neg hpos, hmod, ← List.singleton_append, ← List.append_nil [_]]
    by_cases hsmall : v.toNat < 10
    · have hnone : v / 10 = 0 := by
        rw [← UInt64.toNat_inj, hdiv]
        grind
      rw [hnone, decLoop_zero, showNat_digit hsmall, Nat.mod_eq_of_lt hsmall]
      rfl
    · have hnext : v.toNat / 10 ≠ 0 := by omega
      have hne : v / 10 ≠ 0 := by
        intro h0
        rw [h0] at hdiv
        exact hnext hdiv.symm
      have hlt : (v / 10).toNat < 10 ^ room := by grind
      rw [ih _ hne hlt (by rw [hdiv]; exact hnext), hdiv, showNat_step (by omega : 10 ≤ v.toNat),
        showNat_digit (Nat.mod_lt v.toNat (by omega)), List.reverse_append, List.append_assoc]
      rfl

theorem lsU64Dec_eq (v : UInt64) : lsU64Dec v = .ok (showNat v.toNat) := by
  unfold lsU64Dec
  by_cases h : v = 0
  · subst h
    rfl
  · have hlt : v.toNat < 10 ^ 20 := lt_trans v.toNat_lt (by norm_num)
    rw [if_neg h, decLoop_digits [] h hlt]
    exact congrArg Res.ok (List.reverse_reverse _)

theorem decLoop_length {room : ℕ} {v : UInt64} {tmp ds : Str} (h : decLoop room v tmp = .ok ds) :
    ds.length ≤ tmp.length + room := by
  induction room generalizing v tmp with
  | zero =>
    unfold decLoop at h
    grind
  | succ room ih =>
    unfold decLoop at h
    grind

theorem showNat_length (v : UInt64) : (showNat v.toNat).length ≤ 20 := by
  by_cases h : v = 0
  · subst h
    decide
  · have hlt : v.toNat < 10 ^ 20 := lt_trans v.toNat_lt (by norm_num)
    have hlen := decLoop_length (decLoop_digits [] h hlt)
    simpa using hlen

theorem lsI64Dec_eq (v : Int64) : lsI64Dec v = .ok (showInt v.toInt) := by
  have hlo := v.le_toInt
  have hhi := v.toInt_lt
  have hiff : v < 0 ↔ v.toInt < 0 := Int64.lt_iff_toInt_lt
  unfold lsI64Dec showInt
  by_cases h : v < 0
  · have hneg : v.toInt < 0 := hiff.1 h
    have hnat : (UInt64.ofNat (-(v.toInt + 1)).toNat + 1).toNat = v.toInt.natAbs := by
      grind [Nat.mod_eq_of_lt, UInt64.toNat_add, UInt64.toNat_ofNat_of_lt']
    have ha : asLong (v.toInt + 1) = .ok (v.toInt + 1) := asLong_eq (by omega) (by omega)
    have hb : asLong (-(v.toInt + 1)) = .ok (-(v.toInt + 1)) := asLong_eq (by omega) (by omega)
    rw [if_pos h, if_pos hneg, ha]
    change (asLong (-(v.toInt + 1)) >>= _) = _
    rw [hb]
    change (lsU64Dec (UInt64.ofNat (-(v.toInt + 1)).toNat + 1) >>= _) = _
    rw [lsU64Dec_eq, hnat]
    rfl
  · have hpos : ¬ v.toInt < 0 := mt hiff.2 h
    have hnat : (UInt64.ofNat v.toInt.toNat).toNat = v.toInt.natAbs := by
      rw [UInt64.toNat_ofNat_of_lt' (by rw [UInt64.size]; omega)]
      omega
    rw [if_neg h, if_neg hpos, lsU64Dec_eq, hnat]

/-- The decimal text of a number: its digits, the first of them not zero unless it is the only one. -/
structure Decimal (ds : Str) (n : ℕ) : Prop where
  digits : ∀ d ∈ ds, isDigit d = true
  value : natOf ds 0 = n
  nonempty : ds ≠ []
  leading : ds.head? = some 48 → ds = [48]

theorem showNat_decimal (n : ℕ) : Decimal (showNat n) n where
  digits := showNat_digits n
  value := natOf_showNat n
  nonempty := showNat_ne_nil n
  leading h := by
    rw [showNat_head h]
    rfl

/-! ### Print and parse -/

/-- The sign in front of the digits. -/
inductive Sign
  | none
  | plus
  | minus
  deriving DecidableEq

def Sign.text : Sign → Str → Str
  | .none, ds => ds
  | .plus, ds => 43 :: ds
  | .minus, ds => 45 :: ds

def Sign.value : Sign → Str → ℤ
  | .minus, ds => -natOf ds 0
  | _, ds => natOf ds 0

theorem toI64_sign {ds : Str} (hds : ∀ d ∈ ds, isDigit d = true) (hne : ds ≠ []) (sg : Sign) :
    Str.toI64 (sg.text ds) = .ok (Int64.ofInt (sg.value ds)) := by
  obtain ⟨hplain, hplus, hminus⟩ := toSigned_digits wraps_int64 hds hne
  cases sg with
  | none => exact hplain
  | plus => exact hplus
  | minus => exact hminus

/-- Decimal print and parse are inverse. -/
theorem decimal_inverse (v : Int64) (w : Int32) (u : UInt64) (sg : Sign) (ds : Str)
    (hds : ∀ d ∈ ds, isDigit d = true) (hne : ds ≠ []) (hl : -2 ^ 63 ≤ sg.value ds)
    (hu : sg.value ds < 2 ^ 63) :
    (∃ out, lsI64Dec v = .ok out ∧ Str.toI64 out = .ok v) ∧
    (∃ out, lsI64Dec w.toInt64 = .ok out ∧ Str.toInt out = .ok w) ∧
    (∃ out, lsU64Dec u = .ok out ∧ Decimal out u.toNat ∧ out.length ≤ 20) ∧
    ∃ n : Int64, Str.toI64 (sg.text ds) = .ok n ∧ n.toInt = sg.value ds := by
  refine ⟨⟨_, lsI64Dec_eq v, toI64_showInt v⟩, ⟨_, lsI64Dec_eq _, ?_⟩,
    ⟨_, lsU64Dec_eq u, showNat_decimal _, showNat_length u⟩, _, toI64_sign hds hne sg, ?_⟩
  · rw [Int32.toInt_toInt64]
    exact toInt_showInt w
  · exact Int64.toInt_ofInt_of_le hl hu

/-- The two minimum values, and the minimum with a leading zero and its sign. -/
theorem decimal_inverse_minimum :
    (∃ out, lsI64Dec Int64.minValue = .ok out ∧ Str.toI64 out = .ok Int64.minValue) ∧
    (∃ out, lsI64Dec Int32.minValue.toInt64 = .ok out ∧ Str.toInt out = .ok Int32.minValue) ∧
    (∃ out, lsU64Dec 18446744073709551615 = .ok out ∧ Decimal out (18446744073709551615 : UInt64).toNat ∧
      out.length ≤ 20) ∧
    ∃ n : Int64, Str.toI64 (Sign.minus.text (48 :: showNat 9223372036854775808)) = .ok n ∧
      n.toInt = Sign.minus.value (48 :: showNat 9223372036854775808) := by
  have hdigits : ∀ d ∈ 48 :: showNat 9223372036854775808, isDigit d = true :=
    List.forall_mem_cons.2 ⟨rfl, showNat_digits _⟩
  have hvalue : Sign.minus.value (48 :: showNat 9223372036854775808) = -9223372036854775808 := by
    unfold Sign.value
    rfl
  have hneg : (-9223372036854775808 : ℤ) < 2 ^ 63 :=
    Int.lt_trans (Int.negSucc_lt_zero _) (Int.natCast_pos.2 (Nat.two_pow_pos 63))
  exact decimal_inverse Int64.minValue Int32.minValue 18446744073709551615 .minus _ hdigits (List.cons_ne_nil _ _)
    (Int.le_of_eq hvalue.symm) (Int.lt_of_le_of_lt (Int.le_of_eq hvalue) hneg)

end LsLang.Runtime
