import LsLang.Oran.Wire
import Mathlib.Data.List.Basic

/-! The bit cursors over the bits that they stand for. -/

namespace LsLang.Oran

open LsLang.Core LsLang.Lib

section Shift

theorem shl_eq {x k : ℤ} {n : ℕ} (hk : k = n) (hn : n < 32) : shl x k = i32 (x * 2 ^ n) := by
  have : (k % 32).toNat = n := by omega
  rw [shl, this]

theorem lor_shl_one {v : ℤ} (h0 : 0 ≤ v) (hv : v < 2 ^ 30) (b : Bool) :
    Int.lor (shl v 1) b.toInt = v * 2 + b.toInt := by
  have hs : shl v 1 = v * 2 := by
    rw [shl_eq (k := 1) (n := 1) rfl (by decide), i32_eq (by omega) (by omega)]
    rfl
  rw [hs, lor_eq_add (k := 1) ⟨v, by ring⟩]
  · cases b <;> decide
  · cases b <;> decide

end Shift

namespace BitReader

/-- The cursor in front of the bit number `p` of the buffer. -/
def at' (buf : Str) (p : ℕ) : BitReader := ⟨buf, buf.length, (p / 8 : ℕ), (p % 8 : ℕ)⟩

variable {buf : Str} {p n : ℕ} {v : ℤ}

theorem takeBit_at (hlen : buf.length < 2 ^ 31) {b : Bool} (hb : (bitsOf buf)[p]? = some b) :
    takeBit v (at' buf p) = .ok (Int.lor (shl v 1) b.toInt, at' buf (p + 1)) := by
  have hp : p = 8 * (p / 8) + p % 8 := by omega
  have hj : p % 8 < 8 := Nat.mod_lt _ (by decide)
  rw [hp, getElem?_bitsOf buf _ hj] at hb
  obtain ⟨byte, hbyte, rfl⟩ := Option.map_eq_some_iff.mp hb
  obtain ⟨hlt, hget⟩ := List.getElem?_eq_some_iff.mp hbyte
  have hload : loadU8 buf (p / 8 : ℕ) = .ok (Digit.val byte) := by
    have hdrop : (buf.drop (p / 8)).take 1 = [byte] := by
      rw [List.drop_eq_getElem_cons hlt, hget]
      rfl
    unfold loadU8 loadBe loadAt
    rw [if_pos (by omega), Int.toNat_natCast, hdrop]
    show Except.ok _ = Except.ok _
    simp [ofDigits]
  have hbit : shr (Digit.val byte) (7 - (p % 8 : ℕ)) % 2 =
      (Digit.ofInt (Digit.val byte / 2 ^ (7 - p % 8)) : Bool).toInt := by
    rw [shr_eq (n := 7 - p % 8) (by omega) (by omega)]
    exact (Digit.val_ofInt (D := Bool) _).symm
  have hstep : takeBit v (at' buf p) = (if ((p % 8 : ℕ) : ℤ) + 1 = 8 then
      .ok (Int.lor (shl v 1) (shr (Digit.val byte) (7 - (p % 8 : ℕ)) % 2),
        ⟨buf, buf.length, i32 ((p / 8 : ℕ) + 1), 0⟩)
    else .ok (Int.lor (shl v 1) (shr (Digit.val byte) (7 - (p % 8 : ℕ)) % 2),
        ⟨buf, buf.length, (p / 8 : ℕ), (p % 8 : ℕ) + 1⟩)) := by
    unfold takeBit at'
    rw [if_neg (by simp only; omega), hload]
    rfl
  rw [hstep, hbit, i32_eq (by omega) (by omega)]
  unfold at'
  split
  · grind
  · grind

theorem takeBit_end (hp : 8 * buf.length ≤ p) : takeBit v (at' buf p) = .error .abort := by
  unfold takeBit at'
  grind

theorem takeLoop_at (hlen : buf.length < 2 ^ 31) {pre bs rest : List Bool}
    (hb : (bitsOf buf).drop p = bs ++ rest) (hv : v = ofDigits pre)
    (hpre : pre.length + bs.length < 32) :
    takeLoop bs.length v (at' buf p) = .ok (ofDigits (pre ++ bs), at' buf (p + bs.length)) := by
  induction bs generalizing p v pre with
  | nil =>
    rw [List.append_nil, ← hv]
    rfl
  | cons b bs ih =>
    have hget : (bitsOf buf)[p]? = some b := by
      rw [← List.head?_drop, hb]
      rfl
    have hbound := ofDigits_bounds pre
    have hpow : (2 : ℤ) ^ pre.length ≤ 2 ^ 30 := by
      apply pow_le_pow_right₀ (by decide)
      grind
    have hbit := lor_shl_one (v := v) (hv ▸ hbound.1)
      (lt_of_lt_of_le (hv ▸ hbound.2) hpow) b
    have hnext : (bitsOf buf).drop (p + 1) = bs ++ rest := by
      rw [← List.tail_drop, hb]
      rfl
    have hval : v * 2 + b.toInt = ofDigits (pre ++ [b]) := by
      rw [ofDigits_append, ← hv]
      simp [ofDigits, Digit.base, Digit.val]
    rw [List.length_cons, takeLoop, takeBit_at hlen hget]
    show takeLoop bs.length _ _ = _
    grind

theorem take_at (hlen : buf.length < 2 ^ 31) {bs rest : List Bool} (hn : bs.length < 32)
    (hb : (bitsOf buf).drop p = bs ++ rest) :
    take bs.length (at' buf p) = .ok (ofDigits bs, at' buf (p + bs.length)) := by
  have h := @takeLoop_at _ _ _ hlen [] _ _ hb rfl (by simpa using hn)
  rwa [List.nil_append] at h

theorem land_sign_ne_zero {u : ℤ} (h0 : 0 ≤ u) (hu : u < 2 ^ (n + 1)) :
    Int.land u (2 ^ n) ≠ 0 ↔ 2 ^ n ≤ u := by
  obtain ⟨m, rfl⟩ := Int.eq_ofNat_of_zero_le h0
  have hm : m < 2 ^ (n + 1) := by exact_mod_cast hu
  have hland : Int.land m (2 ^ n) = ((m &&& 2 ^ n : ℕ) : ℤ) := by
    rw [← Nat.cast_two, ← Nat.cast_pow]
    rfl
  rw [hland, Nat.and_two_pow]
  by_cases hle : 2 ^ n ≤ m
  · have : m.testBit n = true := Nat.testBit_of_two_pow_le_and_two_pow_add_one_gt hle hm
    rw [this]
    simp only [Bool.toNat_true, one_mul]
    constructor
    · exact fun _ => by exact_mod_cast hle
    grind
  · have : m.testBit n = false := Nat.testBit_lt_two_pow (by omega)
    rw [this]
    simp only [Bool.toNat_false, zero_mul, Nat.cast_zero, ne_eq, not_true_eq_false, false_iff]
    exact fun h => hle (by exact_mod_cast h)

def Fits (width x : ℤ) : Prop := -2 ^ (width.toNat - 1) ≤ x ∧ x < 2 ^ (width.toNat - 1)

instance (width x : ℤ) : Decidable (Fits width x) := by
  unfold Fits
  infer_instance

theorem signed_emod {x : ℤ} (hn : n < 31) (h : Fits ((n + 1 : ℕ) : ℤ) x) :
    signed (n + 1 : ℕ) (x % 2 ^ (n + 1)) = x := by
  unfold Fits at h
  rw [Int.toNat_natCast, Nat.add_sub_cancel] at h
  have hp : (0 : ℤ) < 2 ^ n := by positivity
  have h31 : (2 : ℤ) ^ n ≤ 2 ^ 30 := pow_le_pow_right₀ (by decide) (by omega)
  have hu0 : 0 ≤ x % 2 ^ (n + 1) := Int.emod_nonneg _ (by positivity)
  have hu : x % 2 ^ (n + 1) < 2 ^ (n + 1) := Int.emod_lt_of_pos _ (by positivity)
  have hone : shl 1 ((n + 1 : ℕ) - 1) = 2 ^ n := by
    rw [shl_eq (n := n) (by omega) (by omega), one_mul, i32_eq (by omega) (by omega)]
  have hsign := land_sign_ne_zero hu0 hu
  unfold signed
  rw [hone]
  rcases lt_or_ge x 0 with hneg | hnn
  · have hmod : x % 2 ^ (n + 1) = x + 2 ^ (n + 1) := by
      rw [← Int.add_emod_right, Int.emod_eq_of_lt] <;> rw [pow_succ] <;> linarith
    have hle : 2 ^ n ≤ x % 2 ^ (n + 1) := by grind
    rw [if_pos (hsign.mpr hle), hmod, shl_eq (n := n + 1) rfl (by omega), one_mul]
    show Int.bmod (x + 2 ^ (n + 1) - Int.bmod (2 ^ (n + 1)) (2 ^ 32)) (2 ^ 32) = x
    grind
  · have hmod : x % 2 ^ (n + 1) = x := Int.emod_eq_of_lt hnn (by rw [pow_succ]; linarith)
    grind

theorem takeSigned_at (hlen : buf.length < 2 ^ 31) {x : ℤ} {rest : List Bool} (hn : n < 31)
    (hx : Fits ((n + 1 : ℕ) : ℤ) x)
    (hb : (bitsOf buf).drop p = toDigits Bool (n + 1) x ++ rest) :
    takeSigned (n + 1 : ℕ) (at' buf p) = .ok (x, at' buf (p + (n + 1))) := by
  have h := take_at hlen (by rw [length_toDigits]; omega) hb
  rw [length_toDigits, ofDigits_toDigits] at h
  unfold takeSigned
  rw [h]
  show Except.ok (signed _ (x % 2 ^ (n + 1)), _) = _
  rw [signed_emod hn hx]

theorem takeMany_at (hlen : buf.length < 2 ^ 31) {xs : List ℤ} {rest : List Bool} (hn : n < 31)
    (hx : ∀ x ∈ xs, Fits ((n + 1 : ℕ) : ℤ) x)
    (hb : (bitsOf buf).drop p = xs.flatMap (toDigits Bool (n + 1)) ++ rest) :
    takeMany (n + 1 : ℕ) xs.length (at' buf p) =
      .ok (xs, at' buf (p + (n + 1) * xs.length)) := by
  induction xs generalizing p with
  | nil => rfl
  | cons x xs ih =>
    rw [List.flatMap_cons, List.append_assoc] at hb
    have hnext : (bitsOf buf).drop (p + (n + 1)) = xs.flatMap (toDigits Bool (n + 1)) ++ rest := by
      rw [← List.drop_drop, hb, List.drop_left' (by simp)]
    have hfirst := takeSigned_at hlen hn (hx x List.mem_cons_self) hb
    have hrest := ih (fun y hy => hx y (List.mem_cons_of_mem x hy)) hnext
    rw [List.length_cons, takeMany, hfirst]
    show (takeMany (n + 1 : ℕ) xs.length (at' buf (p + (n + 1))) >>= _) = _
    rw [hrest]
    have hpos : p + (n + 1) + (n + 1) * xs.length = p + (n + 1) * (xs.length + 1) := by ring
    rw [hpos]
    rfl

theorem align_at (hlen : buf.length < 2 ^ 31) (hp : p ≤ 8 * buf.length) {q k : ℕ} (hk : k < 8)
    (hq : p + k = 8 * q) : ((at' buf p).align).bytePos = q := by
  unfold align at'
  by_cases h0 : p % 8 = 0
  · grind
  · have hpos : i32 ((p / 8 : ℕ) + 1) = q := by
      rw [i32_eq (by omega) (by omega)]
      omega
    grind

end BitReader

theorem toDigits_zero (n : ℕ) : toDigits Bool n 0 = List.replicate n false := by
  induction n with
  | zero => rfl
  | succ n ih =>
    rw [toDigits, ih, Int.zero_ediv]
    rfl

namespace BitSink

def bits (s : BitSink) : List Bool := bitsOf s.w.buf ++ toDigits Bool s.bw.nbits.toNat s.bw.acc

structure Wf (s : BitSink) : Prop where
  nbits_nonneg : 0 ≤ s.bw.nbits
  nbits_lt : s.bw.nbits < 8
  acc_nonneg : 0 ≤ s.bw.acc
  acc_lt : s.bw.acc < 2 ^ s.bw.nbits.toNat

variable {s : BitSink}

theorem wf_fresh (w : Writer) : Wf ⟨w, bitWriter⟩ :=
  ⟨le_rfl, by simp [bitWriter], le_rfl, by simp [bitWriter]⟩

theorem bits_fresh (w : Writer) : bits ⟨w, bitWriter⟩ = bitsOf w.buf := List.append_nil _

theorem bitsOf_byteOf (buf : Str) (x : ℤ) :
    bitsOf (buf ++ [byteOf x]) = bitsOf buf ++ toDigits Bool 8 x := by
  have hbyte : toDigits Bool 8 (Digit.val (byteOf x)) = toDigits Bool 8 x := by
    apply toDigits_congr
    rw [byteOf_eq, Digit.val_ofInt, base_byte, Int.emod_emod]
  rw [bitsOf_append, bitsOf_cons, bitsOf_nil, List.append_nil, hbyte]

theorem pushBit_bits (h : s.Wf) (b : Bool) :
    (s.pushBit b.toInt).Wf ∧ (s.pushBit b.toInt).bits = s.bits ++ [b] := by
  obtain ⟨n, hn⟩ := Int.eq_ofNat_of_zero_le h.nbits_nonneg
  have hn8 : n < 8 := by have := h.nbits_lt; omega
  have hnat : s.bw.nbits.toNat = n := by omega
  have hacc := h.acc_lt
  rw [hnat] at hacc
  have hpow : (2 : ℤ) ^ n ≤ 2 ^ 7 := pow_le_pow_right₀ (by decide) (by omega)
  have hstep := lor_shl_one h.acc_nonneg (by linarith) b
  have hsnoc : toDigits Bool (n + 1) (s.bw.acc * 2 + b.toInt) = toDigits Bool n s.bw.acc ++ [b] :=
    toDigits_snoc n s.bw.acc b
  unfold pushBit
  simp only [hstep]
  split
  · have h7 : n = 7 := by omega
    subst h7
    refine ⟨wf_fresh _, ?_⟩
    show bitsOf (s.w.buf ++ [byteOf _]) ++ [] = _
    rw [List.append_nil, bitsOf_byteOf, hsnoc, bits, hnat, List.append_assoc]
  · have hnext : (s.bw.nbits + 1).toNat = n + 1 := by omega
    have hbit : 0 ≤ b.toInt ∧ b.toInt ≤ 1 := by cases b <;> decide
    refine ⟨⟨by simp only; omega, by simp only; omega, ?_, ?_⟩, ?_⟩
    · have := h.acc_nonneg
      simp only
      omega
    · grind
    · unfold bits
      grind

theorem foldl_pushBit (h : s.Wf) (bs : List Bool) :
    (bs.foldl (fun s b => s.pushBit b.toInt) s).Wf ∧
      (bs.foldl (fun s b => s.pushBit b.toInt) s).bits = s.bits ++ bs := by
  induction bs generalizing s with
  | nil => grind
  | cons b bs ih =>
    grind [List.foldl_cons, List.append_assoc, pushBit_bits]

theorem push_eq (s : BitSink) (v : ℤ) {n : ℕ} (hn : n ≤ 32) :
    s.push v n = (toDigits Bool n v).foldl (fun s b => s.pushBit b.toInt) s := by
  rw [toDigits_eq_map, List.foldl_map]
  unfold push
  rw [Int.toNat_natCast]
  apply List.foldl_ext
  intro _ i hi
  rw [List.mem_range] at hi
  rw [shr_eq (n := n - 1 - i) (by omega) (by omega)]
  congr 1
  exact (Digit.val_ofInt (D := Bool) _).symm

theorem push_bits (h : s.Wf) (v : ℤ) {n : ℕ} (hn : n ≤ 32) :
    (s.push v n).Wf ∧ (s.push v n).bits = s.bits ++ toDigits Bool n v := by
  rw [push_eq s v hn]
  exact foldl_pushBit h _

theorem align_bits (h : s.Wf) :
    ∃ k < 8, bitsOf s.align.w.buf = s.bits ++ List.replicate k false := by
  obtain ⟨n, hn⟩ := Int.eq_ofNat_of_zero_le h.nbits_nonneg
  have hn8 : n < 8 := by have := h.nbits_lt; omega
  have hnat : s.bw.nbits.toNat = n := by omega
  have hacc := h.acc_lt
  rw [hnat] at hacc
  unfold align bits
  rw [hnat]
  split
  · refine ⟨8 - n, by omega, ?_⟩
    have hpow : (2 : ℤ) ^ n * 2 ^ (8 - n) = 2 ^ 8 := by
      rw [← pow_add]
      congr 1
      omega
    have hp : (0 : ℤ) < 2 ^ (8 - n) := by positivity
    have hlt : s.bw.acc * 2 ^ (8 - n) < 2 ^ 8 := by nlinarith
    have hnn : 0 ≤ s.bw.acc * 2 ^ (8 - n) := mul_nonneg h.acc_nonneg hp.le
    have hshl : shl s.bw.acc (8 - s.bw.nbits) = s.bw.acc * 2 ^ (8 - n) := by
      rw [shl_eq (n := 8 - n) (by omega) (by omega), i32_eq (by omega) (by omega)]
    have hzero : toDigits Bool (8 - n) (s.bw.acc * 2 ^ (8 - n)) = List.replicate (8 - n) false := by
      rw [← toDigits_zero]
      apply toDigits_congr
      exact Int.mul_emod_left _ _
    have hsplit : toDigits Bool 8 (s.bw.acc * 2 ^ (8 - n)) =
        toDigits Bool n s.bw.acc ++ List.replicate (8 - n) false := by
      have := toDigits_add (D := Bool) n (8 - n) (s.bw.acc * 2 ^ (8 - n))
      have hbase : Digit.base Bool ^ (8 - n) = 2 ^ (8 - n) := rfl
      grind [Int.mul_ediv_cancel]
    show bitsOf (s.w.buf ++ [byteOf _]) = _
    rw [bitsOf_byteOf, hshl, hsplit, List.append_assoc]
  · have h0 : n = 0 := by omega
    rw [h0]
    exact ⟨0, by decide, by simp [toDigits]⟩

end BitSink

theorem foldl_push_bits {s : BitSink} (h : s.Wf) (xs : List ℤ) {n : ℕ} (hn : n ≤ 32) :
    (xs.foldl (fun s x => s.push x n) s).Wf ∧
      (xs.foldl (fun s x => s.push x n) s).bits = s.bits ++ xs.flatMap (toDigits Bool n) := by
  induction xs generalizing s with
  | nil => grind
  | cons x xs ih =>
    grind [List.foldl_cons, List.append_assoc, BitSink.push_bits]

theorem pushSamples_bits (xs : List ℤ) {n : ℕ} (hn : n ≤ 32) (w : Writer) :
    ∃ k < 8, bitsOf (pushSamples xs n w).buf =
      bitsOf w.buf ++ xs.flatMap (toDigits Bool n) ++ List.replicate k false := by
  obtain ⟨hwf, hbits⟩ := foldl_push_bits (BitSink.wf_fresh w) xs hn
  obtain ⟨k, hk, halign⟩ := BitSink.align_bits hwf
  refine ⟨k, hk, ?_⟩
  rw [pushSamples, halign, hbits, BitSink.bits_fresh]

theorem length_flatMap_toDigits (xs : List ℤ) (n : ℕ) :
    (xs.flatMap (toDigits Bool n)).length = n * xs.length := by
  induction xs with
  | nil => rfl
  | cons x xs ih =>
    rw [List.flatMap_cons, List.length_append, ih, length_toDigits, List.length_cons]
    ring

theorem pushSamples_eq (xs : List ℤ) {n : ℕ} (hn : n ≤ 32) (w : Writer) :
    pushSamples xs n w = w.bytes (pushSamples xs n ⟨[]⟩).buf := by
  obtain ⟨k, hk, hw⟩ := pushSamples_bits xs hn w
  obtain ⟨k', hk', h0⟩ := pushSamples_bits xs hn ⟨[]⟩
  have hl := congrArg List.length hw
  have hl' := congrArg List.length h0
  simp only [List.length_append, length_bitsOf, List.length_replicate, List.length_nil] at hl hl'
  have hkk : k = k' := by omega
  have hbuf : (pushSamples xs n w).buf = w.buf ++ (pushSamples xs n ⟨[]⟩).buf := by
    apply bitsOf_inj
    rw [hw, bitsOf_append, h0, hkk, bitsOf_nil, List.nil_append, List.append_assoc]
  rw [Writer.bytes, ← hbuf]

theorem mirrors_samples {xs : List ℤ} {n : ℕ} (hn : n < 31)
    (hx : ∀ x ∈ xs, BitReader.Fits ((n + 1 : ℕ) : ℤ) x) :
    Mirrors (pushSamples xs (n + 1 : ℕ)) (takeSamples xs.length (n + 1 : ℕ)) xs := by
  refine ⟨_, fun w => pushSamples_eq xs (by omega) w, ?_⟩
  intro pre post hlen
  obtain ⟨k, hk, hbits⟩ := pushSamples_bits xs (n := n + 1) (by omega) ⟨[]⟩
  set body := (pushSamples xs (n + 1 : ℕ) ⟨[]⟩).buf with hbody
  have hl := congrArg List.length hbits
  simp only [List.length_append, length_bitsOf, List.length_replicate, List.length_nil,
    length_flatMap_toDigits] at hl
  have hdrop : (bitsOf (pre ++ body ++ post)).drop (8 * pre.length) =
      xs.flatMap (toDigits Bool (n + 1)) ++ (List.replicate k false ++ bitsOf post) := by
    rw [bitsOf_append, bitsOf_append, List.append_assoc, List.drop_left' (length_bitsOf pre), hbits]
    simp
  have hstart : bitReader ⟨pre ++ body ++ post, pre.length⟩ =
      BitReader.at' (pre ++ body ++ post) (8 * pre.length) := by
    unfold bitReader BitReader.at'
    simp
  have htake := BitReader.takeMany_at hlen hn hx hdrop
  have hend := BitReader.align_at hlen (p := 8 * pre.length + (n + 1) * xs.length)
    (by grind) (q := (pre ++ body).length) hk (by grind)
  unfold takeSamples
  simp only [hstart, htake]
  show Except.ok (xs, Reader.seek _ _) = _
  rw [hend]
  rfl

end LsLang.Oran
