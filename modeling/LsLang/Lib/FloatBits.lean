import Mathlib.Data.Nat.Log
import Mathlib.Tactic.Ring

/-! Single and double floats by the fields of their bit patterns, and the casts between them: exact from single to
double, rounded to the nearest and to even back, with a NaN made quiet by either. -/

namespace LsLang.Lib.FloatBits

/-- A bit pattern of a sign, `e` bits of exponent and `p` bits of fraction. -/
structure Bits (e p : ℕ) where
  sign : Bool
  exp : Fin (2 ^ e)
  frac : Fin (2 ^ p)
  deriving DecidableEq

abbrev Single : Type := Bits 8 23

abbrev Double : Type := Bits 11 52

def Bits.of {e p : ℕ} (sign : Bool) (exp frac : ℕ) : Bits e p :=
  ⟨sign, Fin.ofNat (2 ^ e) exp, Fin.ofNat (2 ^ p) frac⟩

theorem Bits.of_fields {e p : ℕ} (x : Bits e p) : Bits.of x.sign x.exp x.frac = x := by
  obtain ⟨sign, exp, frac⟩ := x
  unfold Bits.of
  rw [Fin.ofNat_val_eq_self, Fin.ofNat_val_eq_self]

section Fields

variable {e p exp frac : ℕ} (sign : Bool)

theorem Bits.of_exp (h : exp < 2 ^ e) : ((Bits.of sign exp frac : Bits e p).exp : ℕ) = exp := Nat.mod_eq_of_lt h

theorem Bits.of_frac (h : frac < 2 ^ p) : ((Bits.of sign exp frac : Bits e p).frac : ℕ) = frac := Nat.mod_eq_of_lt h

end Fields

def quiet (p frac : ℕ) : ℕ := if frac < 2 ^ (p - 1) then frac + 2 ^ (p - 1) else frac

def Bits.signalling {e p : ℕ} (x : Bits e p) : Bool :=
  decide ((x.exp : ℕ) = 2 ^ e - 1 ∧ 0 < (x.frac : ℕ) ∧ (x.frac : ℕ) < 2 ^ (p - 1))

/-- `n` over `2 ^ k`, rounded to the nearest, a half to even. -/
def roundShift (n k : ℕ) : ℕ :=
  n / 2 ^ k +
    if 2 ^ k < 2 * (n % 2 ^ k) ∨ (2 * (n % 2 ^ k) = 2 ^ k ∧ n / 2 ^ k % 2 = 1) then 1 else 0

theorem roundShift_mul (m k : ℕ) : roundShift (m * 2 ^ k) k = m := by
  have hpos : 0 < 2 ^ k := Nat.two_pow_pos k
  unfold roundShift
  rw [Nat.mul_mod_left, Nat.mul_div_cancel m hpos, if_neg (by omega)]
  rfl

def widen (x : Single) : Double :=
  if (x.exp : ℕ) = 255 then
    if (x.frac : ℕ) = 0 then .of x.sign 2047 0 else .of x.sign 2047 (quiet 23 x.frac * 2 ^ 29)
  else if (x.exp : ℕ) = 0 then
    if (x.frac : ℕ) = 0 then .of x.sign 0 0
    else
      let k := Nat.log 2 x.frac
      .of x.sign (874 + k) ((x.frac - 2 ^ k) * 2 ^ (52 - k))
  else .of x.sign (x.exp + 896) (x.frac * 2 ^ 29)

/-- The exponent and the fraction of the single, in one number: a fraction that is rounded up carries. -/
def magnitude (exp frac : ℕ) : ℕ :=
  if 897 ≤ exp then (exp - 896) * 2 ^ 23 + roundShift frac 29
  else if exp = 0 then 0
  else roundShift (2 ^ 52 + frac) (926 - exp)

def narrow (x : Double) : Single :=
  if (x.exp : ℕ) = 2047 then
    if (x.frac : ℕ) = 0 then .of x.sign 255 0 else .of x.sign 255 (quiet 23 (x.frac / 2 ^ 29))
  else
    let n := magnitude x.exp x.frac
    if n < 255 * 2 ^ 23 then .of x.sign (n / 2 ^ 23) (n % 2 ^ 23) else .of x.sign 255 0

def truncate (x : Double) : ℤ :=
  let n : ℕ :=
    if (x.exp : ℕ) = 0 then 0 else (2 ^ 52 + (x.frac : ℕ)) * 2 ^ ((x.exp : ℕ) - 1075) / 2 ^ (1075 - (x.exp : ℕ))
  if x.sign then -n else n

def ofInt (n : ℤ) : Double :=
  if n = 0 then .of false 0 0
  else
    let k := Nat.log 2 n.natAbs
    let m := roundShift (n.natAbs * 2 ^ 52) k
    .of (n < 0) (1022 + k + m / 2 ^ 52) m

theorem narrow_nan {x : Double} (hexp : (x.exp : ℕ) = 2047) (hfrac : (x.frac : ℕ) ≠ 0) :
    narrow x = .of x.sign 255 (quiet 23 (x.frac / 2 ^ 29)) := by
  unfold narrow
  rw [if_pos hexp, if_neg hfrac]

theorem narrow_finite {x : Double} (exp frac : ℕ) (hexp : (x.exp : ℕ) ≠ 2047) (he : exp < 255) (hf : frac < 2 ^ 23)
    (h : magnitude x.exp x.frac = exp * 2 ^ 23 + frac) : narrow x = .of x.sign exp frac := by
  unfold narrow
  rw [if_neg hexp]
  dsimp only
  rw [h, if_pos (by omega), Nat.add_comm, Nat.add_mul_div_right _ _ (by decide), Nat.add_mul_mod_self_right,
    Nat.div_eq_of_lt hf, Nat.mod_eq_of_lt hf, Nat.zero_add]

section Widen

variable {x : Single}

theorem narrow_widen_special (h : x.signalling = false) (hexp : (x.exp : ℕ) = 255) : narrow (widen x) = x := by
  have hback := x.of_fields
  have hlt := x.frac.isLt
  unfold widen
  rw [if_pos hexp]
  rw [hexp] at hback
  by_cases hzero : (x.frac : ℕ) = 0
  · rw [if_pos hzero]
    rw [hzero] at hback
    exact hback
  · have hquiet : quiet 23 x.frac = x.frac := by
      have hbig : ¬ (x.frac : ℕ) < 2 ^ (23 - 1) := by
        intro hlt
        have hsignals : x.signalling = true := decide_eq_true ⟨hexp, Nat.pos_of_ne_zero hzero, hlt⟩
        rw [hsignals] at h
        cases h
      exact if_neg hbig
    have hwide : (x.frac : ℕ) * 2 ^ 29 < 2 ^ 52 := by omega
    rw [if_neg hzero, hquiet]
    rw [narrow_nan (Bits.of_exp _ (by decide)) (by rw [Bits.of_frac _ hwide]; omega), Bits.of_frac _ hwide,
      Nat.mul_div_cancel _ (by decide), hquiet]
    exact hback

theorem narrow_widen_subnormal (hexp : (x.exp : ℕ) = 0) (hfrac : (x.frac : ℕ) ≠ 0) : narrow (widen x) = x := by
  have hback := x.of_fields
  have hlt := x.frac.isLt
  unfold widen
  rw [if_neg (by omega), if_pos hexp, if_neg hfrac]
  rw [hexp] at hback
  dsimp only
  -- the leading bit of the fraction becomes the implicit one
  have hlow : 2 ^ Nat.log 2 x.frac ≤ (x.frac : ℕ) := Nat.pow_log_le_self 2 hfrac
  have hhigh : (x.frac : ℕ) < 2 ^ (Nat.log 2 x.frac + 1) := Nat.lt_pow_succ_log_self (by decide) _
  have hk : Nat.log 2 x.frac < 23 := Nat.log_lt_of_lt_pow hfrac hlt
  generalize Nat.log 2 x.frac = k at hlow hk hhigh ⊢
  have htwo : 2 ^ (k + 1) = 2 ^ k * 2 := pow_succ 2 k
  have hone : 2 ^ k * 2 ^ (52 - k) = 2 ^ 52 := by rw [← pow_add, Nat.add_sub_of_le (by omega)]
  have hsum : 2 ^ 52 + ((x.frac : ℕ) - 2 ^ k) * 2 ^ (52 - k) = x.frac * 2 ^ (52 - k) := by
    rw [← hone, ← Nat.add_mul, Nat.add_sub_of_le hlow]
  have hwide : ((x.frac : ℕ) - 2 ^ k) * 2 ^ (52 - k) < 2 ^ 52 := by
    rw [← hone]
    exact Nat.mul_lt_mul_of_pos_right (by omega) (Nat.two_pow_pos _)
  have he : ((Bits.of x.sign (874 + k) (((x.frac : ℕ) - 2 ^ k) * 2 ^ (52 - k)) : Double).exp : ℕ) = 874 + k :=
    Bits.of_exp _ (by omega)
  rw [narrow_finite 0 x.frac (by rw [he]; omega) (by decide) hlt ?_]
  · exact hback
  · rw [he, Bits.of_frac _ hwide]
    unfold magnitude
    rw [if_neg (by omega), if_neg (by omega), hsum, show 926 - (874 + k) = 52 - k by omega, roundShift_mul]
    omega

theorem narrow_widen_normal (hlow : (x.exp : ℕ) ≠ 0) (hhigh : (x.exp : ℕ) ≠ 255) : narrow (widen x) = x := by
  have hexp := x.exp.isLt
  have hlt := x.frac.isLt
  have hwide : (x.frac : ℕ) * 2 ^ 29 < 2 ^ 52 := by omega
  have he : ((Bits.of x.sign (x.exp + 896) (x.frac * 2 ^ 29) : Double).exp : ℕ) = x.exp + 896 :=
    Bits.of_exp _ (by omega)
  unfold widen
  rw [if_neg hhigh, if_neg hlow]
  rw [narrow_finite x.exp x.frac (by rw [he]; omega) (by omega) hlt ?_]
  · exact x.of_fields
  · rw [he, Bits.of_frac _ hwide]
    unfold magnitude
    rw [if_pos (by omega), roundShift_mul]
    omega

/-- Narrowing gives back what was widened, unless it is a signalling NaN. -/
theorem narrow_widen (h : x.signalling = false) : narrow (widen x) = x := by
  by_cases hexp : (x.exp : ℕ) = 255
  · exact narrow_widen_special h hexp
  · by_cases hzero : (x.exp : ℕ) = 0
    · by_cases hfrac : (x.frac : ℕ) = 0
      · have hback := x.of_fields
        rw [hzero, hfrac] at hback
        have hzeros : widen x = .of x.sign 0 0 := by
          unfold widen
          rw [if_neg hexp, if_pos hzero, if_pos hfrac]
        have he : ((Bits.of x.sign 0 0 : Double).exp : ℕ) = 0 := Bits.of_exp _ (by decide)
        rw [hzeros, narrow_finite 0 0 (by rw [he]; decide) (by decide) (by decide) ?_]
        · exact hback
        · unfold magnitude
          rw [he, if_neg (by decide), if_pos rfl]
          rfl
      · exact narrow_widen_subnormal hzero hfrac
    · exact narrow_widen_normal hzero hexp

end Widen

example : narrow (widen (.of false 255 1)) = .of false 255 (2 ^ 22 + 1) := by decide +kernel

end LsLang.Lib.FloatBits
