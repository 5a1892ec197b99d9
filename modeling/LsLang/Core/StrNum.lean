import LsLang.Core.Str

/-! Numbers and their text: the parsing methods of `std.core.str_num`, and how a number is
put into a formatted string. -/

namespace LsLang.Core

/-- The arithmetic of `f64`. -/
class F64 (F : Type) where
  /-- `i as f64` -/
  ofInt : Int → F
  /-- The constant `0.1`. -/
  tenth : F
  add : F → F → F
  sub : F → F → F
  mul : F → F → F
  div : F → F → F
  /-- `x as int` -/
  toInt : F → Int
  beq : F → F → Bool
  le : F → F → Bool
  /-- The text of a number in a formatted string. -/
  fmt : F → Str

/-- What IEEE arithmetic promises about integers of at most 53 bits. -/
class F64.Exact (F : Type) [F64 F] : Prop where
  add_ofInt : ∀ a b : Int, |a| ≤ 2 ^ 53 → |b| ≤ 2 ^ 53 → |a + b| ≤ 2 ^ 53 →
    add (ofInt a) (ofInt b : F) = ofInt (a + b)
  sub_ofInt : ∀ a b : Int, |a| ≤ 2 ^ 53 → |b| ≤ 2 ^ 53 → |a - b| ≤ 2 ^ 53 →
    sub (ofInt a) (ofInt b : F) = ofInt (a - b)
  mul_ofInt : ∀ a b : Int, 0 ≤ a → 0 ≤ b → a ≤ 2 ^ 53 → b ≤ 2 ^ 53 → a * b ≤ 2 ^ 53 →
    mul (ofInt a) (ofInt b : F) = ofInt (a * b)
  toInt_ofInt : ∀ a : Int, |a| < 2 ^ 31 → toInt (ofInt a : F) = a
  beq_ofInt : ∀ a b : Int, |a| ≤ 2 ^ 53 → |b| ≤ 2 ^ 53 →
    beq (ofInt a) (ofInt b : F) = decide (a = b)
  le_ofInt : ∀ a b : Int, |a| ≤ 2 ^ 53 → |b| ≤ 2 ^ 53 →
    le (ofInt a) (ofInt b : F) = decide (a ≤ b)

def showNat (n : Nat) : Str := lit (Nat.toDigits 10 n)

def showInt (i : Int) : Str := if i < 0 then 45 :: showNat i.natAbs else showNat i.natAbs

/-- The integers as they stand: arithmetic without rounding. -/
instance intF64 : F64 Int where
  ofInt := id
  tenth := 0
  add := (· + ·)
  sub := (· - ·)
  mul := (· * ·)
  div := (· / ·)
  toInt := id
  beq := (· == ·)
  le a b := decide (a ≤ b)
  fmt := showInt

instance intF64_exact : F64.Exact Int where
  add_ofInt _ _ _ _ _ := rfl
  sub_ofInt _ _ _ _ _ := rfl
  mul_ofInt _ _ _ _ _ _ _ := rfl
  toInt_ofInt _ _ := rfl
  beq_ofInt _ _ _ _ := rfl
  le_ofInt _ _ _ _ := rfl

/-- A byte from `0` to `9`. -/
def isDigit (b : UInt8) : Bool := 48 ≤ b && b ≤ 57

namespace Str

def sign : Str → Bool × Str
  | [] => (false, [])
  | first :: rest =>
    if first = 45 then (true, rest) else if first = 43 then (false, rest) else (false, first :: rest)

def hexDigit (hd : UInt8) : Option Int :=
  if 48 ≤ hd ∧ hd ≤ 57 then some (int hd - 48)
  else if 97 ≤ hd ∧ hd ≤ 102 then some (int hd - 97 + 10)
  else if 65 ≤ hd ∧ hd ≤ 70 then some (int hd - 65 + 10)
  else none

/-- The digits behind `0x`, if the text starts with it. -/
def hexPrefix : Str → Option Str
  | a :: b :: rest => if a = 48 ∧ (b = 120 ∨ b = 88) then some rest else none
  | _ => none

section Signed

-- a signed type with its wrapping arithmetic, and the value in it of a number
variable {N : Type} [Add N] [Sub N] [Mul N] (ofInt : Int → N)

def hexLoop : Str → N → Except String N
  | [], hv => .ok hv
  | hd :: rest, hv =>
    match hexDigit hd with
    | some dig => hexLoop rest (hv * ofInt 16 + ofInt dig)
    | none => .error "invalid hex digit"

def digitLoop : Str → N → Except String N
  | [], val => .ok val
  | d :: rest, val =>
    if isDigit d then digitLoop rest (val * ofInt 10 + ofInt (int d - 48))
    else .error "invalid digit"

/-- The common text of `to_int` and `to_i64`. -/
def toSigned (s : Str) : Except String N :=
  if s.length = 0 then .error "empty string"
  else
    let (neg, rest) := s.sign
    if rest.length = 0 then .error "no digits"
    else
      match hexPrefix rest with
      | some [] => .error "no hex digits"
      | some ds => (hexLoop ofInt ds (ofInt 0)).map fun hv => if neg then ofInt 0 - hv else hv
      | none => (digitLoop ofInt rest (ofInt 0)).map fun val => if neg then ofInt 0 - val else val

end Signed

/-- `Str.to_int` -/
def toInt (s : Str) : Except String Int32 := toSigned Int32.ofInt s

/-- `Str.to_i64` -/
def toI64 (s : Str) : Except String Int64 := toSigned Int64.ofInt s

section Float

variable {F : Type} [F64 F]

open F64

def digit (d : UInt8) : F := ofInt (int d - 48)

def floatInt : Str → F → Bool → Except String (F × Bool × Str)
  | [], val, any => .ok (val, any, [])
  | d :: rest, val, any =>
    if d = 46 ∨ d = 101 ∨ d = 69 then .ok (val, any, d :: rest)
    else if isDigit d then floatInt rest (add (mul val (ofInt 10)) (digit d)) true
    else .error "invalid digit"

def floatFrac : Str → F → F → Bool → Except String (F × Bool × Str)
  | [], val, _, any => .ok (val, any, [])
  | d :: rest, val, scale, any =>
    if d = 101 ∨ d = 69 then .ok (val, any, d :: rest)
    else if isDigit d then floatFrac rest (add val (mul (digit d) scale)) (mul scale tenth) true
    else .error "invalid digit"

/-- The digits of the exponent, an `int`. -/
def floatExp : Str → Int → Except String Int
  | [], ev => .ok ev
  | d :: rest, ev =>
    if isDigit d then floatExp rest (i32 (ev * 10 + (int d - 48))) else .error "invalid digit"

def floatScale (val : F) : Str → Except String F
  | [] => .ok val
  | ec :: rest =>
    if ec ≠ 101 ∧ ec ≠ 69 then .error "invalid digit"
    else
      let (eneg, rest) := Str.sign rest
      if rest.length = 0 then .error "no digits"
      else
        (floatExp rest 0).map fun ev =>
          let p10 := (fun p : F => mul p (ofInt 10))^[ev.toNat] (ofInt 1)
          if eneg then div val p10 else mul val p10

/-- `Str.to_float` -/
def toFloat (s : Str) : Except String F :=
  if s.length = 0 then .error "empty string"
  else do
    let (neg, rest) := s.sign
    let (val, any, rest) ← floatInt rest (ofInt 0) false
    let (val, any, rest) ←
      if rest.head? = some 46 then floatFrac (rest.drop 1) val tenth any else .ok (val, any, rest)
    if !any then .error "no digits"
    else
      let val ← floatScale val rest
      .ok (if neg then sub (ofInt 0) val else val)

end Float

end Str

theorem except_bind {ε α β : Type} (a : α) (f : α → Except ε β) : (Except.ok a >>= f) = f a := rfl

/-! A printed integer is read back. -/

theorem isDigit_ch {c : Char} (h : c.isDigit = true) :
    isDigit (ch c) = true ∧ int (ch c) - 48 = ((c.toNat - '0'.toNat : Nat) : Int) := by
  have hl : 48 ≤ c.toNat := Char.isDigit_iff_toNat.mp h |>.1
  have hu : c.toNat ≤ 57 := Char.isDigit_iff_toNat.mp h |>.2
  have ht : (ch c).toNat = c.toNat := UInt8.toNat_ofNat_of_lt' (by unfold UInt8.size; omega)
  refine ⟨?_, ?_⟩
  · unfold isDigit
    rw [Bool.and_eq_true, decide_eq_true_iff, decide_eq_true_iff, UInt8.le_iff_toNat_le,
      UInt8.le_iff_toNat_le, ht]
    exact ⟨hl, hu⟩
  grind

theorem showNat_digits (n : Nat) : ∀ b ∈ showNat n, isDigit b = true := by
  intro b hb
  obtain ⟨c, hc, rfl⟩ := List.mem_map.mp hb
  exact (isDigit_ch (Nat.isDigit_of_mem_toDigits (by decide) (by decide) hc)).1

theorem showNat_ne_nil (n : Nat) : showNat n ≠ [] := by
  unfold showNat lit
  rw [Ne, List.map_eq_nil_iff]
  exact Nat.toDigits_ne_nil

/-- The number whose digits follow those of `m`. -/
def natOf (s : Str) (m : Nat) : Nat := s.foldl (fun m d => m * 10 + (d.toNat - 48)) m

theorem int_digit {d : UInt8} (h : isDigit d = true) : int d - 48 = ((d.toNat - 48 : Nat) : Int) := by
  unfold isDigit at h
  rw [Bool.and_eq_true, decide_eq_true_iff, decide_eq_true_iff, UInt8.le_iff_toNat_le] at h
  grind

theorem le_natOf (s : Str) (m : Nat) : m ≤ natOf s m := by
  induction s generalizing m with
  | nil => exact le_rfl
  | cons d s ih =>
    have := ih (m * 10 + (d.toNat - 48))
    unfold natOf at this ⊢
    grind

theorem natOf_lit {cs : List Char} (h : ∀ c ∈ cs, c.isDigit = true) (m : Nat) :
    natOf (lit cs) m = Nat.ofDigitChars 10 cs m := by
  induction cs generalizing m with
  | nil => rfl
  | cons c cs ih =>
    obtain ⟨hd, hv⟩ := isDigit_ch (h c (List.mem_cons_self ..))
    rw [int_digit hd, Nat.cast_inj] at hv
    rw [Nat.ofDigitChars_cons, ← ih fun c hc => h c (List.mem_cons_of_mem _ hc), Nat.mul_comm, ← hv]
    rfl

theorem natOf_showNat (n : Nat) : natOf (showNat n) 0 = n := by
  unfold showNat
  rw [natOf_lit fun c hc => Nat.isDigit_of_mem_toDigits (by decide) (by decide) hc,
    Nat.ofDigitChars_ten_toDigits]

structure Wraps {N : Type} [Add N] [Sub N] [Mul N] (ofInt : Int → N) : Prop where
  add : ∀ a b, ofInt (a + b) = ofInt a + ofInt b
  sub : ∀ a b, ofInt (a - b) = ofInt a - ofInt b
  mul : ∀ a b, ofInt (a * b) = ofInt a * ofInt b

theorem wraps_int32 : Wraps Int32.ofInt where
  add := Int32.ofInt_add
  sub := Int32.ofInt_sub
  mul := Int32.ofInt_mul

theorem wraps_int64 : Wraps Int64.ofInt where
  add := Int64.ofInt_add
  sub := Int64.ofInt_sub
  mul := Int64.ofInt_mul

section Signed

variable {N : Type} [Add N] [Sub N] [Mul N] {ofInt : Int → N}

theorem digitLoop_digits (hw : Wraps ofInt) {s : Str} (h : ∀ b ∈ s, isDigit b = true) (m : Nat) :
    Str.digitLoop ofInt s (ofInt m) = .ok (ofInt (natOf s m)) := by
  induction s generalizing m with
  | nil => rfl
  | cons d s ih =>
    have hd := h d (List.mem_cons_self ..)
    have hnat : natOf (d :: s) m = natOf s (m * 10 + (d.toNat - 48)) := rfl
    have hstep : ofInt m * ofInt 10 + ofInt ((d.toNat - 48 : Nat) : Int) =
        ofInt ((m * 10 + (d.toNat - 48) : Nat) : Int) := by
      rw [Nat.cast_add, Nat.cast_mul, hw.add, hw.mul]
      rfl
    rw [Str.digitLoop, if_pos hd, int_digit hd, hnat, hstep]
    exact ih (fun c hc => h c (List.mem_cons_of_mem _ hc)) _

end Signed

theorem floatInt_digits {F : Type} [F64 F] [F64.Exact F] {s : Str} (h : ∀ b ∈ s, isDigit b = true)
    (m : Nat) (any : Bool) (hm : natOf s m ≤ 2 ^ 53) :
    Str.floatInt s (F64.ofInt m : F) any = .ok (F64.ofInt (natOf s m), any || !s.isEmpty, []) := by
  induction s generalizing m any with
  | nil => rw [Str.floatInt, List.isEmpty_nil, Bool.not_true, Bool.or_false]; rfl
  | cons d s ih =>
    have hd := h d (List.mem_cons_self ..)
    have hnat : natOf (d :: s) m = natOf s (m * 10 + (d.toNat - 48)) := rfl
    have hle := le_natOf s (m * 10 + (d.toNat - 48))
    rw [hnat] at hm ⊢
    have hmul : F64.mul (F64.ofInt m : F) (F64.ofInt 10) = F64.ofInt (m * 10) :=
      F64.Exact.mul_ofInt _ _ (by omega) (by omega) (by omega) (by omega) (by omega)
    have hadd : F64.add (F64.ofInt (m * 10) : F) (Str.digit d) =
        F64.ofInt ((m * 10 + (d.toNat - 48) : Nat) : Int) := by
      unfold Str.digit
      rw [int_digit hd, F64.Exact.add_ofInt, Nat.cast_add, Nat.cast_mul]
      · rfl
      all_goals
        grind
    rw [Str.floatInt, if_neg, if_pos hd, hmul, hadd, ih (fun b hb => h b (List.mem_cons_of_mem _ hb)) _ _ hm]
    · simp
    · rintro (rfl | rfl | rfl) <;> exact absurd hd (by decide)

theorem hexPrefix_digits {s : Str} (h : ∀ b ∈ s, isDigit b = true) : Str.hexPrefix s = none := by
  match s, h with
  | [], _ => rfl
  | [_], _ => rfl
  | a :: b :: rest, h =>
    unfold Str.hexPrefix
    dsimp only
    rw [if_neg]
    rintro ⟨-, rfl | rfl⟩
    · exact absurd (h 120 (by simp)) (by decide)
    · exact absurd (h 88 (by simp)) (by decide)

theorem sign_digit {a : UInt8} (h : isDigit a = true) (rest : Str) :
    Str.sign (a :: rest) = (false, a :: rest) := by
  unfold Str.sign
  dsimp only
  rw [if_neg, if_neg]
  · rintro rfl
    exact absurd h (by decide)
  · rintro rfl
    exact absurd h (by decide)

theorem sign_digits {s : Str} (h : ∀ b ∈ s, isDigit b = true) : Str.sign s = (false, s) := by
  cases s with
  | nil => rfl
  | cons a rest => exact sign_digit (h a (List.mem_cons_self ..)) rest

section Signed

variable {N : Type} [Add N] [Sub N] [Mul N] {ofInt : Int → N}

theorem toSigned_digits (hw : Wraps ofInt) {ds : Str} (h : ∀ b ∈ ds, isDigit b = true) (hne : ds ≠ []) :
    Str.toSigned ofInt ds = .ok (ofInt (natOf ds 0)) ∧
      Str.toSigned ofInt (43 :: ds) = .ok (ofInt (natOf ds 0)) ∧
      Str.toSigned ofInt (45 :: ds) = .ok (ofInt (-natOf ds 0)) := by
  have hlen : ds.length ≠ 0 := fun h => hne (List.length_eq_zero_iff.mp h)
  have hloop := digitLoop_digits hw h 0
  -- behind the sign there are only the digits
  have hsign : ∀ (s : Str) (neg : Bool), s.length ≠ 0 → s.sign = (neg, ds) →
      Str.toSigned ofInt s = .ok (if neg then ofInt 0 - ofInt (natOf ds 0) else ofInt (natOf ds 0)) := by
    intro s neg hs hsgn
    unfold Str.toSigned
    rw [if_neg hs, hsgn]
    dsimp only
    rw [if_neg hlen, hexPrefix_digits h]
    exact congrArg (Except.map _) hloop
  refine ⟨hsign ds false hlen (sign_digits h), hsign _ false (by simp) rfl, ?_⟩
  rw [hsign _ true (by simp) rfl, if_pos rfl, ← hw.sub, zero_sub]

theorem toSigned_showInt (hw : Wraps ofInt) (i : Int) : Str.toSigned ofInt (showInt i) = .ok (ofInt i) := by
  obtain ⟨hplain, -, hminus⟩ := toSigned_digits hw (showNat_digits i.natAbs) (showNat_ne_nil _)
  rw [natOf_showNat] at hplain hminus
  unfold showInt
  by_cases hi : i < 0
  · rw [if_pos hi, hminus, Int.ofNat_natAbs_of_nonpos hi.le, neg_neg]
  · rw [if_neg hi, hplain, Int.natAbs_of_nonneg (not_lt.1 hi)]

end Signed

theorem toI64_digits {ds : Str} (h : ∀ b ∈ ds, isDigit b = true) (hne : ds ≠ []) :
    Str.toI64 ds = .ok (Int64.ofInt (natOf ds 0)) ∧
      Str.toI64 (45 :: ds) = .ok (Int64.ofInt (-natOf ds 0)) := by
  obtain ⟨hplain, -, hminus⟩ := toSigned_digits wraps_int64 h hne
  exact ⟨hplain, hminus⟩

theorem toI64_showInt (i : Int64) : Str.toI64 (showInt i.toInt) = .ok i :=
  (toSigned_showInt wraps_int64 i.toInt).trans (congrArg Except.ok (Int64.ofInt_toInt i))

theorem toInt_showInt (i : Int32) : Str.toInt (showInt i.toInt) = .ok i :=
  (toSigned_showInt wraps_int32 i.toInt).trans (congrArg Except.ok (Int32.ofInt_toInt i))

theorem toFloat_int {F : Type} [F64 F] [F64.Exact F] {ds : Str} (h : ∀ b ∈ ds, isDigit b = true)
    (hne : ds ≠ []) (hm : natOf ds 0 ≤ 2 ^ 53) :
    Str.toFloat ds = .ok (F64.ofInt (natOf ds 0) : F) ∧
      Str.toFloat (45 :: ds) = .ok (F64.ofInt (-natOf ds 0) : F) := by
  have hlen : ds.length ≠ 0 := fun h => hne (List.length_eq_zero_iff.mp h)
  have hint := floatInt_digits (F := F) h 0 false hm
  have hany : (false || !ds.isEmpty) = true := by grind
  rw [hany] at hint
  have hneg : F64.sub (F64.ofInt 0 : F) (F64.ofInt (natOf ds 0)) = F64.ofInt (-natOf ds 0) := by
    rw [F64.Exact.sub_ofInt, zero_sub]
    · decide
    · rw [abs_of_nonneg (by omega)]
      omega
    · rw [zero_sub, abs_neg, abs_of_nonneg (by omega)]
      omega
  refine ⟨?_, ?_⟩
  · unfold Str.toFloat
    rw [if_neg hlen, sign_digits h]
    exact (congrArg (· >>= _) hint).trans rfl
  · unfold Str.toFloat
    rw [if_neg (by simp), Str.sign, if_pos rfl]
    refine (congrArg (· >>= _) hint).trans ?_
    exact congrArg Except.ok hneg

theorem toFloat_showInt {F : Type} [F64 F] [F64.Exact F] {i : Int} (hi : |i| ≤ 2 ^ 53) :
    Str.toFloat (showInt i) = .ok (F64.ofInt i : F) := by
  have hnat : natOf (showNat i.natAbs) 0 = i.natAbs := natOf_showNat _
  have h := toFloat_int (F := F) (showNat_digits i.natAbs) (showNat_ne_nil _)
    (by grind)
  rw [hnat] at h
  unfold showInt
  grind

end LsLang.Core
