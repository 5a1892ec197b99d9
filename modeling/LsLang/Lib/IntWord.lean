import Mathlib.Algebra.Order.Ring.Int
import Mathlib.Data.Int.Bitwise
import Mathlib.Data.Nat.Log
import Mathlib.Tactic.Ring

/-! Words of a fixed width as the residues of integers. The operations that a machine has on
words are those of the integers, and those on signed words that are no ring operations are
those of the integers which the words stand for. -/

namespace LsLang.Lib
variable {w : Nat}

theorem testBit_ofInt (x : Int) (i : Nat) :
    (BitVec.ofInt w x).getLsbD i = (decide (i < w) && x.testBit i) := by
  cases x with
  | ofNat n => simp [Int.testBit, BitVec.getLsbD_ofNat]
  | negSucc n =>
    rw [BitVec.ofInt_negSucc_eq_not_ofNat, BitVec.getLsbD_not, BitVec.getLsbD_ofNat]
    by_cases h : i < w <;> simp [h, Int.testBit]

theorem ofInt_land (x y : Int) :
    BitVec.ofInt w (Int.land x y) = BitVec.ofInt w x &&& BitVec.ofInt w y := by
  apply BitVec.eq_of_getLsbD_eq
  grind [BitVec.getLsbD_and, testBit_ofInt, Int.testBit_land]

theorem ofInt_lor (x y : Int) :
    BitVec.ofInt w (Int.lor x y) = BitVec.ofInt w x ||| BitVec.ofInt w y := by
  apply BitVec.eq_of_getLsbD_eq
  grind [BitVec.getLsbD_or, testBit_ofInt, Int.testBit_lor]

theorem ofInt_xor (x y : Int) :
    BitVec.ofInt w (Int.xor x y) = BitVec.ofInt w x ^^^ BitVec.ofInt w y := by
  apply BitVec.eq_of_getLsbD_eq
  grind [BitVec.getLsbD_xor, testBit_ofInt, Int.testBit_lxor]

theorem ofInt_lnot (x : Int) : BitVec.ofInt w (Int.lnot x) = ~~~BitVec.ofInt w x := by
  apply BitVec.eq_of_getLsbD_eq
  intro i hi
  rw [BitVec.getLsbD_not, testBit_ofInt, testBit_ofInt, Int.testBit_lnot]
  simp [hi]

theorem ofInt_sub (x y : Int) :
    BitVec.ofInt w (x - y) = BitVec.ofInt w x - BitVec.ofInt w y := by
  rw [Int.sub_eq_add_neg, BitVec.ofInt_add, BitVec.ofInt_neg, BitVec.sub_eq_add_neg]

theorem ofInt_shl (x : Int) (n : Nat) :
    BitVec.ofInt w (x * 2 ^ n) = BitVec.ofInt w x <<< n := by
  have : BitVec.ofInt w (2 ^ n) = BitVec.twoPow w n := by
    apply BitVec.eq_of_toNat_eq
    rw [BitVec.toNat_twoPow, BitVec.toNat_ofInt]
    norm_cast
  rw [BitVec.shiftLeft_eq_mul_twoPow, BitVec.ofInt_mul, this]

theorem ofInt_eq_of_emod {x y : Int} (h : x % 2 ^ w = y % 2 ^ w) :
    BitVec.ofInt w x = BitVec.ofInt w y := by grind [BitVec.toInt_ofInt, BitVec.eq_of_toInt_eq]

def FitsWord (w : Nat) (x : Int) : Prop := -2 ^ (w - 1) ≤ x ∧ x < 2 ^ (w - 1)

instance (x : Int) : Decidable (FitsWord w x) := by
  unfold FitsWord
  infer_instance

variable {x y : Int}

theorem FitsWord.toInt_ofInt (hw : 0 < w) (h : FitsWord w x) : (BitVec.ofInt w x).toInt = x :=
  BitVec.toInt_ofInt_eq_self hw h.1 h.2

theorem ofInt_tdiv (hw : 0 < w) (hx : FitsWord w x) (hy : FitsWord w y) :
    BitVec.ofInt w (Int.tdiv x y) = (BitVec.ofInt w x).sdiv (BitVec.ofInt w y) := by
  apply BitVec.eq_of_toInt_eq
  rw [BitVec.toInt_sdiv, BitVec.toInt_ofInt, hx.toInt_ofInt hw, hy.toInt_ofInt hw]

theorem ofInt_tmod (hw : 0 < w) (hx : FitsWord w x) (hy : FitsWord w y) :
    BitVec.ofInt w (Int.tmod x y) = (BitVec.ofInt w x).srem (BitVec.ofInt w y) := by
  have h : BitVec.ofInt w (((BitVec.ofInt w x).srem (BitVec.ofInt w y)).toInt) =
      (BitVec.ofInt w x).srem (BitVec.ofInt w y) := BitVec.ofInt_toInt
  rw [← h, BitVec.toInt_srem, hx.toInt_ofInt hw, hy.toInt_ofInt hw]

theorem ofInt_sar (hw : 0 < w) (hx : FitsWord w x) (n : Nat) :
    BitVec.ofInt w (x >>> n) = (BitVec.ofInt w x).sshiftRight n := by
  have h : BitVec.ofInt w (((BitVec.ofInt w x).sshiftRight n).toInt) =
      (BitVec.ofInt w x).sshiftRight n := BitVec.ofInt_toInt
  rw [← h, BitVec.toInt_sshiftRight, hx.toInt_ofInt hw]

end LsLang.Lib

/-! Rounding an integer to a number of significant bits, ties to even. With 53 bits it is what
the conversion of an integer to a double does, as long as the exponent is in range. -/

namespace LsLang.Lib

/-- The multiple of `u` nearest to `n`, the even one of two. -/
def nearest (u n : Nat) : Nat :=
  if 2 * (n % u) < u ∨ 2 * (n % u) = u ∧ n / u % 2 = 0 then n / u * u else (n / u + 1) * u

/-- The unit in the last place of `n` when `p` bits of it are kept. -/
def ulp (p n : Nat) : Nat := 2 ^ (n.log2 + 1 - p)

def roundNat (p n : Nat) : Nat := nearest (ulp p n) n

def roundInt (p : Nat) (z : Int) : Int :=
  if 0 ≤ z then (roundNat p z.natAbs : Int) else -(roundNat p z.natAbs : Int)

theorem le_nearest (u n : Nat) : n / u * u ≤ nearest u n := by
  unfold nearest
  grind

theorem nearest_le (u n : Nat) : nearest u n ≤ (n / u + 1) * u := by
  unfold nearest
  grind

theorem nearest_mono {u m n : Nat} (h : m ≤ n) : nearest u m ≤ nearest u n := by
  rcases Nat.eq_or_lt_of_le (Nat.div_le_div_right (c := u) h) with hq | hq
  · -- within one interval between multiples the larger remainder decides
    have hr : m % u ≤ n % u := by grind [Nat.div_add_mod]
    unfold nearest
    rw [hq]
    have hup := Nat.mul_le_mul_right u (Nat.le_succ (n / u))
    split_ifs with h₁ h₂
    · exact le_rfl
    · exact hup
    · grind
    · exact le_rfl
  · calc nearest u m ≤ (m / u + 1) * u := nearest_le u m
      _ ≤ n / u * u := Nat.mul_le_mul_right u hq
      _ ≤ nearest u n := le_nearest u n

theorem nearest_of_dvd {u n : Nat} (hu : 0 < u) (h : u ∣ n) : nearest u n = n := by
  unfold nearest
  rw [Nat.mod_eq_zero_of_dvd h, if_pos (Or.inl (by simpa using hu)), Nat.div_mul_cancel h]

theorem ulp_pos (p n : Nat) : 0 < ulp p n := Nat.two_pow_pos _

theorem ulp_dvd {p n k : Nat} (h : n.log2 + 1 ≤ k + p) : ulp p n ∣ 2 ^ k :=
  pow_dvd_pow 2 (by omega)

theorem roundNat_mono {p m n : Nat} (hp : 0 < p) (h : m ≤ n) : roundNat p m ≤ roundNat p n := by
  unfold roundNat
  rcases Nat.lt_or_ge m.log2 n.log2 with hl | hl
  · -- a power of two lies between them, and rounding keeps it
    have hn : n ≠ 0 := by grind
    have hm : m ≤ 2 ^ n.log2 :=
      (Nat.lt_log2_self (n := m)).le.trans (Nat.pow_le_pow_right (by omega) hl)
    calc nearest (ulp p m) m ≤ nearest (ulp p m) (2 ^ n.log2) := nearest_mono hm
      _ = 2 ^ n.log2 := nearest_of_dvd (ulp_pos p m) (ulp_dvd (by omega))
      _ = nearest (ulp p n) (2 ^ n.log2) :=
        (nearest_of_dvd (ulp_pos p n) (ulp_dvd (by omega))).symm
      _ ≤ nearest (ulp p n) n := nearest_mono (Nat.log2_self_le hn)
  · have hle : m.log2 ≤ n.log2 := by
      rcases Nat.eq_zero_or_pos m with rfl | hm
      · simp
      · exact (Nat.le_log2 (by omega)).mpr ((Nat.log2_self_le (by omega)).trans h)
    have : ulp p m = ulp p n := by
      unfold ulp
      rw [le_antisymm hle hl]
    rw [this]
    exact nearest_mono h

theorem roundInt_mono {p : Nat} {a b : Int} (hp : 0 < p) (h : a ≤ b) :
    roundInt p a ≤ roundInt p b := by
  unfold roundInt
  split_ifs with ha hb hb
  · exact_mod_cast roundNat_mono hp (by omega)
  · omega
  · omega
  · have := roundNat_mono hp (show b.natAbs ≤ a.natAbs by omega)
    omega

theorem roundInt_lt_iff {p : Nat} {a b : Int} (hp : 0 < p)
    (h : a = b ∨ roundInt p a ≠ roundInt p b) : roundInt p a < roundInt p b ↔ a < b := by
  constructor
  · intro hlt
    by_contra hge
    exact absurd (roundInt_mono hp (not_lt.mp hge)) (not_le.mpr hlt)
  · intro hlt
    exact lt_of_le_of_ne (roundInt_mono hp hlt.le) (h.resolve_left hlt.ne)

example : roundInt 53 9007199254740993 = 9007199254740992 := by decide

end LsLang.Lib
