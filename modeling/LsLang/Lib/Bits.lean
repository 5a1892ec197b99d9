import Mathlib.Algebra.Order.Group.Int
import Mathlib.Algebra.Order.Ring.Int
import Mathlib.Data.Int.Bitwise
import Mathlib.Tactic.Linarith
import Mathlib.Tactic.LinearCombination
import Mathlib.Tactic.Ring

/-! Words and bit strings in network order: the digits of a number, the most significant first,
be they bytes or bits, and the fields that the bits of a word are divided into. -/

namespace LsLang.Lib

theorem emod_mul_base {b : ℤ} (hb : 0 < b) {c : ℤ} (a : ℤ) :
    a % (b * c) = a % b + b * (a / b % c) := by
  have h1 := Int.emod_add_mul_ediv a (b * c)
  have h2 := Int.emod_add_mul_ediv a b
  have h3 := Int.emod_add_mul_ediv (a / b) c
  grind [Int.ediv_ediv_of_nonneg]

section Digits

class Digit (D : Type) where
  base : ℤ
  val : D → ℤ
  ofInt : ℤ → D
  base_pos : 0 < base
  val_ofInt : ∀ x, val (ofInt x) = x % base
  ofInt_val : ∀ d, ofInt (val d) = d

instance byteDigit : Digit UInt8 where
  base := 256
  val b := b.toNat
  ofInt x := UInt8.ofNat (x % 256).toNat
  base_pos := by decide
  val_ofInt x := by
    rw [UInt8.toNat_ofNat']
    omega
  ofInt_val b := by
    have := b.toNat_lt
    rw [Int.emod_eq_of_lt (by omega) (by omega), Int.toNat_natCast, UInt8.ofNat_toNat]

instance bitDigit : Digit Bool where
  base := 2
  val b := b.toInt
  ofInt x := decide (x % 2 = 1)
  base_pos := by decide
  val_ofInt x := by
    by_cases h : x % 2 = 1
    · simp [h]
    grind
  ofInt_val b := by cases b <;> rfl

variable {D : Type} [Digit D]

open Digit

/-- The low `n` digits of a number. -/
def toDigits (D : Type) [Digit D] : ℕ → ℤ → List D
  | 0, _ => []
  | n + 1, v => ofInt (v / base D ^ n) :: toDigits D n v

def ofDigits (ds : List D) : ℤ := ds.foldl (fun v d => v * base D + val d) 0

theorem Digit.val_bounds (d : D) : 0 ≤ val d ∧ val d < base D := by
  rw [← ofInt_val d, val_ofInt]
  exact ⟨Int.emod_nonneg _ (base_pos (D := D)).ne', Int.emod_lt_of_pos _ base_pos⟩

theorem Digit.ofInt_congr {x y : ℤ} (h : x % base D = y % base D) : (ofInt x : D) = ofInt y := by
  grind [ofInt_val, val_ofInt]

@[simp] theorem length_toDigits (n : ℕ) (v : ℤ) : (toDigits D n v).length = n := by
  induction n with
  | zero => rfl
  | succ n ih => rw [toDigits, List.length_cons, ih]

theorem foldl_digits (ds : List D) (v : ℤ) :
    ds.foldl (fun v d => v * base D + val d) v = v * base D ^ ds.length + ofDigits ds := by
  unfold ofDigits
  induction ds generalizing v with
  | nil => simp
  | cons d ds ih =>
    grind

theorem ofDigits_append (ds es : List D) :
    ofDigits (ds ++ es) = ofDigits ds * base D ^ es.length + ofDigits es := by
  rw [ofDigits, List.foldl_append, foldl_digits]
  rfl

theorem ofDigits_cons (d : D) (ds : List D) :
    ofDigits (d :: ds) = val d * base D ^ ds.length + ofDigits ds := by
  rw [ofDigits, List.foldl_cons, foldl_digits]
  ring

theorem ofDigits_bounds (ds : List D) : 0 ≤ ofDigits ds ∧ ofDigits ds < base D ^ ds.length := by
  induction ds with
  | nil => simp [ofDigits]
  | cons d ds ih =>
    obtain ⟨h0, hd⟩ := val_bounds d
    have hp : 0 < base D ^ ds.length := pow_pos base_pos _
    rw [ofDigits_cons, List.length_cons, pow_succ]
    constructor
    · have := mul_nonneg h0 hp.le
      linarith [ih.1]
    · nlinarith [ih.2]

theorem ofDigits_toDigits (n : ℕ) (v : ℤ) : ofDigits (toDigits D n v) = v % base D ^ n := by
  induction n with
  | zero => simp [toDigits, ofDigits]
  | succ n ih =>
    rw [toDigits, ofDigits_cons, length_toDigits, ih, val_ofInt, pow_succ,
      emod_mul_base (pow_pos base_pos n)]
    ring

theorem toDigits_congr {n : ℕ} {u v : ℤ} (h : u % base D ^ n = v % base D ^ n) :
    toDigits D n u = toDigits D n v := by
  induction n with
  | zero => rfl
  | succ n ih =>
    have hpos : 0 < base D ^ n := pow_pos base_pos n
    have hdvd : base D ^ n ∣ base D ^ (n + 1) := ⟨base D, pow_succ _ _⟩
    have hlow : u % base D ^ n = v % base D ^ n := by
      rw [← Int.emod_emod_of_dvd u hdvd, h, Int.emod_emod_of_dvd v hdvd]
    rw [pow_succ, emod_mul_base hpos, emod_mul_base hpos, hlow] at h
    have hhigh := Int.eq_of_mul_eq_mul_left hpos.ne' (add_left_cancel h)
    rw [toDigits, toDigits, ofInt_congr hhigh, ih hlow]

theorem toDigits_ofDigits (ds : List D) : toDigits D ds.length (ofDigits ds) = ds := by
  induction ds with
  | nil => rfl
  | cons d ds ih =>
    obtain ⟨h0, hlt⟩ := ofDigits_bounds ds
    have hp := (pow_pos (base_pos (D := D)) ds.length).ne'
    rw [List.length_cons, toDigits, ofDigits_cons, add_comm, Int.add_mul_ediv_right _ _ hp,
      Int.ediv_eq_zero_of_lt h0 hlt, zero_add, ofInt_val,
      toDigits_congr (Int.add_mul_emod_self_right _ _ _), ih]

theorem toDigits_add (m n : ℕ) (v : ℤ) :
    toDigits D (m + n) v = toDigits D m (v / base D ^ n) ++ toDigits D n v := by
  induction m with
  | zero => rw [Nat.zero_add, toDigits, List.nil_append]
  | succ m ih =>
    rw [Nat.add_right_comm, toDigits, ih, toDigits, List.cons_append, pow_add, mul_comm,
      Int.ediv_ediv_of_nonneg (pow_pos base_pos n).le]

theorem toDigits_snoc (n : ℕ) (v : ℤ) (d : D) :
    toDigits D (n + 1) (v * base D + val d) = toDigits D n v ++ [d] := by
  have hdiv : (v * base D + val d) / base D = v := by
    obtain ⟨h0, hd⟩ := val_bounds d
    rw [add_comm, Int.add_mul_ediv_right _ _ base_pos.ne', Int.ediv_eq_zero_of_lt h0 hd, zero_add]
  induction n with
  | zero =>
    have : (ofInt (v * base D + val d) : D) = ofInt (val d) :=
      ofInt_congr (by rw [add_comm, Int.add_mul_emod_self_right])
    simp [toDigits, this, ofInt_val]
  | succ n ih =>
    rw [toDigits, ih, toDigits, pow_succ', ← Int.ediv_ediv_of_nonneg base_pos.le, hdiv,
      List.cons_append]

end Digits

section Fields

def fields : List ℕ → ℤ → List ℤ
  | [], _ => []
  | w :: ws, v => v / 2 ^ ws.sum % 2 ^ w :: fields ws v

def pack : List ℕ → List ℤ → ℤ
  | _ :: ws, x :: xs => x * 2 ^ ws.sum + pack ws xs
  | _, _ => 0

def FieldsFit (ws : List ℕ) (xs : List ℤ) : Prop :=
  List.Forall₂ (fun (w : ℕ) (x : ℤ) => 0 ≤ x ∧ x < 2 ^ w) ws xs

theorem pack_bounds {ws : List ℕ} {xs : List ℤ} (h : FieldsFit ws xs) :
    0 ≤ pack ws xs ∧ pack ws xs < 2 ^ ws.sum := by
  induction h with
  | nil => simp [pack]
  | @cons _ x ws xs hx _ ih =>
    have hp : (0 : ℤ) < 2 ^ ws.sum := by positivity
    rw [pack, List.sum_cons, pow_add]
    constructor
    · have := mul_nonneg hx.1 hp.le
      linarith [ih.1]
    · nlinarith [ih.2, hx.2]

theorem fields_add {ws : List ℕ} (a v : ℤ) : fields ws (a * 2 ^ ws.sum + v) = fields ws v := by
  induction ws generalizing a with
  | nil => rfl
  | cons w ws ih =>
    have hp : (2 : ℤ) ^ ws.sum ≠ 0 := by positivity
    have he : a * 2 ^ (w :: ws).sum + v = a * 2 ^ w * 2 ^ ws.sum + v := by grind
    rw [fields, fields, he, ih, add_comm (a * 2 ^ w * 2 ^ ws.sum), Int.add_mul_ediv_right _ _ hp,
      Int.add_mul_emod_self_right]

theorem fields_pack {ws : List ℕ} {xs : List ℤ} (h : FieldsFit ws xs) :
    fields ws (pack ws xs) = xs := by
  induction h with
  | nil => rfl
  | @cons w x ws xs hx hrest ih =>
    obtain ⟨h0, hlt⟩ := pack_bounds hrest
    have hp : (2 : ℤ) ^ ws.sum ≠ 0 := by positivity
    rw [pack, fields, fields_add, ih, add_comm, Int.add_mul_ediv_right _ _ hp,
      Int.ediv_eq_zero_of_lt h0 hlt, zero_add, Int.emod_eq_of_lt hx.1 hx.2]

theorem fieldsFit_fields (ws : List ℕ) (v : ℤ) : FieldsFit ws (fields ws v) := by
  induction ws with
  | nil => exact .nil
  | cons w ws ih =>
    have hp : (0 : ℤ) < 2 ^ w := by positivity
    exact .cons ⟨Int.emod_nonneg _ hp.ne', Int.emod_lt_of_pos _ hp⟩ ih

theorem pack_fields (ws : List ℕ) (v : ℤ) : pack ws (fields ws v) = v % 2 ^ ws.sum := by
  induction ws with
  | nil => simp [pack]
  | cons w ws ih =>
    rw [fields, pack, ih, List.sum_cons, pow_add, mul_comm (2 ^ w : ℤ),
      emod_mul_base (by positivity)]
    ring

theorem lor_eq_add {k : ℕ} {a b : ℤ} (ha : 2 ^ k ∣ a) (h0 : 0 ≤ b) (hb : b < 2 ^ k) :
    Int.lor a b = a + b := by
  induction k generalizing a b with
  | zero =>
    have : b = 0 := by omega
    subst this
    cases a <;> simp [Int.lor, Nat.ldiff]
  | succ k ih =>
    obtain ⟨c, rfl⟩ := ha
    have hc : (2 : ℤ) ^ (k + 1) * c = Int.bit false (2 ^ k * c) := by
      rw [Int.bit_val, pow_succ, cond_false]
      ring
    have hd := Int.bit_decomp b
    have hv := Int.bit_val (Int.bodd b) (Int.div2 b)
    have hb2 := Int.div2_val b
    have h0' : 0 ≤ Int.div2 b := by omega
    have hb' : Int.div2 b < 2 ^ k := by rw [pow_succ] at hb; omega
    calc Int.lor (2 ^ (k + 1) * c) b
        = Int.lor (Int.bit false (2 ^ k * c)) (Int.bit (Int.bodd b) (Int.div2 b)) := by rw [hc, hd]
      _ = Int.bit (Int.bodd b) (2 ^ k * c + Int.div2 b) := by
          rw [Int.lor_bit, ih ⟨c, rfl⟩ h0' hb', Bool.false_or]
      _ = 2 ^ (k + 1) * c + b := by
          rw [Int.bit_val, pow_succ]
          linear_combination hd - hv

def lorFields : ℤ → List ℕ → List ℤ → ℤ
  | a, _ :: ws, x :: xs => lorFields (Int.lor a (x * 2 ^ ws.sum)) ws xs
  | a, _, _ => a

theorem lorFields_eq {ws : List ℕ} {xs : List ℤ} {a : ℤ} (ha : 2 ^ ws.sum ∣ a)
    (h : FieldsFit ws xs) : lorFields a ws xs = a + pack ws xs := by
  induction h generalizing a with
  | nil => simp [lorFields, pack]
  | @cons w x ws xs hx _ ih =>
    have hp : (0 : ℤ) < 2 ^ ws.sum := by positivity
    rw [List.sum_cons, pow_add, mul_comm] at ha
    have hdvd : 2 ^ (ws.sum + w) ∣ a := by rwa [pow_add]
    have hlt : x * 2 ^ ws.sum < 2 ^ (ws.sum + w) := by
      rw [pow_add, mul_comm]
      exact mul_lt_mul_of_pos_left hx.2 hp
    have hstep := lor_eq_add hdvd (mul_nonneg hx.1 hp.le) hlt
    have hnext : 2 ^ ws.sum ∣ a + x * 2 ^ ws.sum :=
      Int.dvd_add ((Dvd.intro _ rfl).trans ha) (Dvd.intro_left x rfl)
    rw [lorFields, hstep, ih hnext, pack]
    ring

end Fields

section Stream

theorem base_byte : Digit.base UInt8 = Digit.base Bool ^ 8 := rfl

def bitsOf (bs : List UInt8) : List Bool := bs.flatMap fun b => toDigits Bool 8 (Digit.val b)

@[simp] theorem bitsOf_nil : bitsOf [] = [] := rfl

theorem bitsOf_cons (b : UInt8) (bs : List UInt8) :
    bitsOf (b :: bs) = toDigits Bool 8 (Digit.val b) ++ bitsOf bs := rfl

theorem bitsOf_append (bs cs : List UInt8) : bitsOf (bs ++ cs) = bitsOf bs ++ bitsOf cs := by
  unfold bitsOf
  exact List.flatMap_append

@[simp] theorem length_bitsOf (bs : List UInt8) : (bitsOf bs).length = 8 * bs.length := by
  induction bs with
  | nil => rfl
  | cons b bs ih =>
    rw [bitsOf_cons, List.length_append, ih, length_toDigits, List.length_cons]
    ring

theorem bitsOf_inj {bs cs : List UInt8} (h : bitsOf bs = bitsOf cs) : bs = cs := by
  induction bs generalizing cs with
  | nil =>
    have hl := congrArg List.length h
    rw [length_bitsOf, length_bitsOf, List.length_nil] at hl
    exact (List.length_eq_zero_iff.mp (by omega)).symm
  | cons b bs ih =>
    cases cs with
    | nil =>
      have hl := congrArg List.length h
      rw [length_bitsOf, length_bitsOf, List.length_nil, List.length_cons] at hl
      omega
    | cons c cs =>
      rw [bitsOf_cons, bitsOf_cons] at h
      obtain ⟨hb, hrest⟩ := List.append_inj h (by simp)
      have hval := congrArg ofDigits hb
      rw [ofDigits_toDigits, ofDigits_toDigits] at hval
      have h1 := Digit.val_bounds b
      have h2 := Digit.val_bounds c
      rw [← base_byte, Int.emod_eq_of_lt h1.1 h1.2, Int.emod_eq_of_lt h2.1 h2.2] at hval
      grind [Digit.ofInt_val]

theorem getElem?_toDigits (n : ℕ) (v : ℤ) {i : ℕ} (hi : i < n) :
    (toDigits Bool n v)[i]? = some (Digit.ofInt (v / 2 ^ (n - 1 - i))) := by
  induction n generalizing i with
  | zero => omega
  | succ n ih =>
    rw [toDigits]
    cases i with
    | zero => rfl
    | succ i =>
      grind

theorem toDigits_eq_map (n : ℕ) (v : ℤ) :
    toDigits Bool n v = (List.range n).map fun i => Digit.ofInt (v / 2 ^ (n - 1 - i)) := by
  apply List.ext_getElem?
  intro i
  by_cases hi : i < n
  · rw [getElem?_toDigits n v hi, List.getElem?_map, List.getElem?_range hi]
    rfl
  · rw [List.getElem?_eq_none (by simpa using hi), List.getElem?_eq_none (by simpa using hi)]

theorem getElem?_bitsOf (bs : List UInt8) (i : ℕ) {j : ℕ} (hj : j < 8) :
    (bitsOf bs)[8 * i + j]? =
      bs[i]?.map fun b => Digit.ofInt (Digit.val b / 2 ^ (7 - j)) := by
  induction bs generalizing i with
  | nil => rfl
  | cons b bs ih =>
    rw [bitsOf_cons]
    cases i with
    | zero =>
      rw [Nat.mul_zero, Nat.zero_add, List.getElem?_append_left (by simpa using hj),
        getElem?_toDigits 8 _ hj]
      rfl
    | succ i =>
      grind [List.getElem?_append_right, length_toDigits, List.getElem?_cons_succ]

end Stream

end LsLang.Lib
