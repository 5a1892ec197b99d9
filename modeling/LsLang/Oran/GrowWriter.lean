import LsLang.Core.Growth
import LsLang.Lib.Total
import LsLang.Oran.Samples

/-! The `Writer` of `oran.cus` with its capacity, and a `BitWriter` on top of it. Their arithmetic overflows without a
meaning, so that a `Writer` has room for 2^30 bytes. -/

namespace LsLang.Oran

open LsLang.Core LsLang.Lib LsLang.Undefined LsLang.Undefined.Res

/-- `buf` are the bytes that were written, and `cap` how many there is room for. -/
structure GrowWriter where
  buf : Str
  cap : ℤ

namespace GrowWriter

/-- `writer` -/
def fresh : GrowWriter := ⟨[], 64⟩

def reserve (n : ℤ) (w : GrowWriter) : Res GrowWriter := do
  let need ← asInt (w.buf.length + n)
  if need ≤ w.cap then pure w
  else do
    let nc ← asInt (w.cap * 2)
    let nc ← Growth.doubled need 32 nc
    pure { w with cap := nc }

def store (v : ℤ) (w : GrowWriter) : Res GrowWriter :=
  if w.buf.length < w.cap then do
    let _ ← asInt (w.buf.length + 1)
    pure { w with buf := w.buf ++ [byteOf v] }
  else .stuck

def byte (v : ℤ) (w : GrowWriter) : Res GrowWriter := do
  let w ← w.reserve 1
  w.store v

structure Ok (w : GrowWriter) : Prop where
  cap : ∃ j ≤ 30, w.cap = 2 ^ j
  le : w.buf.length ≤ w.cap

theorem Ok.fits {w : GrowWriter} (h : w.Ok) : w.buf.length ≤ 2 ^ 30 := by
  obtain ⟨j, hj, hcap⟩ := h.cap
  have hle := h.le
  have hpow : (2 : ℤ) ^ j ≤ 2 ^ 30 := pow_le_pow_right₀ (by norm_num) hj
  omega

theorem Ok.cap_pos {w : GrowWriter} (h : w.Ok) : 1 ≤ w.cap := by
  obtain ⟨j, -, hcap⟩ := h.cap
  rw [hcap]
  exact one_le_pow₀ (by norm_num)

theorem Ok.cap_max {w : GrowWriter} (h : w.Ok) (hlt : 2 ^ 29 < w.cap) : w.cap = 2 ^ 30 := by
  obtain ⟨j, hj, hcap⟩ := h.cap
  rw [hcap] at hlt ⊢
  have hj' : 29 < j := (pow_lt_pow_iff_right₀ (by norm_num)).1 hlt
  rw [show j = 30 by omega]

def bytes : Holder GrowWriter UInt8 := ⟨Ok, buf, 2 ^ 30, fun _ h => h.fits⟩

theorem ok_fresh : fresh.Ok := ⟨⟨6, by decide, rfl⟩, by decide⟩

theorem store_ok {w : GrowWriter} (h : w.Ok) (hlt : w.buf.length < w.cap) (v : ℤ) :
    w.store v = .ok { w with buf := w.buf ++ [byteOf v] } := by
  have hfits := h.fits
  unfold store
  rw [if_pos hlt, asInt_eq (by omega) (by omega)]
  rfl

theorem reserve_full {w : GrowWriter} (h : w.Ok) (hfull : w.buf.length = w.cap) :
    w.reserve 1 = if w.cap ≤ 2 ^ 29 then .ok { w with cap := w.cap * 2 } else .stuck := by
  have hfits := h.fits
  have hpos := h.cap_pos
  unfold reserve
  rw [asInt_eq (by omega) (by omega), ok_bind, if_neg (by omega)]
  split
  · have hdone : Growth.doubled (w.buf.length + 1) 32 (w.cap * 2) = .ok (w.cap * 2) := if_neg (by omega)
    rw [asInt_eq (by omega) (by omega), ok_bind, hdone]
    rfl
  · next hmax =>
    have hcap := h.cap_max (by omega)
    have hstuck : asInt (w.cap * 2) = .stuck := if_neg (by omega)
    rw [hstuck]
    rfl

theorem adds_byte (v : ℤ) : bytes.Adds (byte v) [byteOf v] := by
  intro w h
  have hfits := h.fits
  have hle := h.le
  change (w.byte v).Exactly ((w.buf ++ [byteOf v]).length ≤ 2 ^ 30) fun t => t.Ok ∧ t.buf = w.buf ++ [byteOf v]
  rw [List.length_append, List.length_singleton]
  unfold byte
  by_cases hroom : w.buf.length < w.cap
  · have hreserve : w.reserve 1 = .ok w := by
      unfold reserve
      rw [asInt_eq (by omega) (by omega), ok_bind, if_pos (by omega)]
      rfl
    obtain ⟨j, hj, hcap⟩ := h.cap
    have hpow : (2 : ℤ) ^ j ≤ 2 ^ 30 := pow_le_pow_right₀ (by norm_num) hj
    rw [hreserve, ok_bind, store_ok h hroom]
    refine (Exactly.ok ⟨⟨⟨j, hj, hcap⟩, ?_⟩, rfl⟩).congr (iff_of_true trivial (by omega))
    grind
  · rw [reserve_full h (by omega)]
    split
    · next hcap29 =>
      obtain ⟨j, hj, hcap⟩ := h.cap
      have hpos := h.cap_pos
      have hj' : j < 30 := by grind
      have hgrown : Ok { w with cap := w.cap * 2 } :=
        ⟨⟨j + 1, by omega, by rw [pow_succ, ← hcap]⟩, by dsimp only; omega⟩
      rw [ok_bind, store_ok hgrown (by dsimp only; omega)]
      refine (Exactly.ok ⟨⟨hgrown.cap, ?_⟩, rfl⟩).congr (iff_of_true trivial (by omega))
      grind
    · next hmax =>
      have hcap := h.cap_max (by omega)
      exact ⟨fun hc => absurd hc (by omega), fun _ hr => by cases hr⟩

end GrowWriter

/-- A `BitWriter` and the `Writer` that its bytes go to. -/
structure GrowSink where
  w : GrowWriter
  bw : BitWriter

namespace GrowSink

/-- The body of the loop of `push`. -/
def pushBit (bit : ℤ) (s : GrowSink) : Res GrowSink :=
  let acc := Int.lor (shl s.bw.acc 1) bit
  if s.bw.nbits + 1 = 8 then do
    let w ← s.w.byte acc
    pure ⟨w, ⟨0, 0⟩⟩
  else pure ⟨s.w, ⟨acc, s.bw.nbits + 1⟩⟩

def push (v width : ℤ) : GrowSink → Res GrowSink :=
  forFrom (fun i => pushBit (shr v (width - 1 - i) % 2)) 0 width.toNat

def align (s : GrowSink) : Res GrowSink :=
  if s.bw.nbits > 0 then do
    let w ← s.w.byte (shl s.bw.acc (8 - s.bw.nbits))
    pure ⟨w, ⟨0, 0⟩⟩
  else pure s

def view (s : GrowSink) : BitSink := ⟨⟨s.w.buf⟩, s.bw⟩

structure Ok (s : GrowSink) : Prop where
  w : s.w.Ok
  wf : s.view.Wf

theorem length_bits {s : BitSink} (h : s.Wf) : (s.bits.length : ℤ) = 8 * s.w.buf.length + s.bw.nbits := by
  have h0 := h.nbits_nonneg
  unfold BitSink.bits
  rw [List.length_append, length_bitsOf, length_toDigits]
  push_cast
  omega

def bits : Holder GrowSink Bool where
  ok := Ok
  held s := s.view.bits
  room := 8 * 2 ^ 30 + 7
  fits s h := by
    have hlen := length_bits h.wf
    have hfits := h.w.fits
    have hlt := h.wf.nbits_lt
    change ((s.view.bits.length : ℤ)) = 8 * s.w.buf.length + s.bw.nbits at hlen
    change s.bw.nbits < 8 at hlt
    omega

theorem flush {s : GrowSink} (h : s.w.Ok) (v : ℤ) :
    (s.w.byte v >>= fun w => pure ⟨w, ⟨0, 0⟩⟩ : Res GrowSink).Exactly (s.w.buf.length + 1 ≤ 2 ^ 30)
      fun t => t.w.Ok ∧ t.view = ⟨s.view.w.byte v, ⟨0, 0⟩⟩ := by
  have hbyte := GrowWriter.adds_byte v s.w h
  refine (hbyte.bind (d := True) fun w hw => ?_).congr ?_
  · refine Exactly.ok ⟨hw.1, ?_⟩
    have hbuf : w.buf = s.w.buf ++ [byteOf v] := hw.2
    unfold view
    rw [hbuf]
    rfl
  · have hlen : (s.w.buf ++ [byteOf v]).length = s.w.buf.length + 1 := by grind
    rw [and_true]
    exact iff_of_eq (congrArg (· ≤ 2 ^ 30) hlen)

theorem adds_pushBit (b : Bool) : bits.Adds (pushBit b.toInt) [b] := by
  intro s h
  obtain ⟨hwf, hbits⟩ := BitSink.pushBit_bits h.wf b
  have hlen : (s.view.bits.length : ℤ) = 8 * s.w.buf.length + s.bw.nbits := length_bits h.wf
  have hlt : s.bw.nbits < 8 := h.wf.nbits_lt
  have hfits := h.w.fits
  change (pushBit b.toInt s).Exactly ((s.view.bits ++ [b]).length ≤ 8 * 2 ^ 30 + 7)
    fun t => t.Ok ∧ t.view.bits = s.view.bits ++ [b]
  rw [List.length_append, List.length_singleton]
  by_cases hfull : s.bw.nbits + 1 = 8
  · have hview : s.view.pushBit b.toInt = ⟨s.view.w.byte (Int.lor (shl s.bw.acc 1) b.toInt), ⟨0, 0⟩⟩ := if_pos hfull
    rw [hview] at hwf hbits
    have hstep : pushBit b.toInt s = (s.w.byte (Int.lor (shl s.bw.acc 1) b.toInt) >>= fun w => pure ⟨w, ⟨0, 0⟩⟩) :=
      if_pos hfull
    rw [hstep]
    refine ((flush h.w _).mono fun t ht => ?_).congr (by omega)
    rw [← ht.2] at hwf hbits
    exact ⟨⟨ht.1, hwf⟩, hbits⟩
  · have hview : s.view.pushBit b.toInt = ⟨s.view.w, ⟨Int.lor (shl s.bw.acc 1) b.toInt, s.bw.nbits + 1⟩⟩ :=
      if_neg hfull
    rw [hview] at hwf hbits
    have hstep : pushBit b.toInt s = .ok ⟨s.w, ⟨Int.lor (shl s.bw.acc 1) b.toInt, s.bw.nbits + 1⟩⟩ := if_neg hfull
    rw [hstep]
    exact (Exactly.ok ⟨⟨h.w, hwf⟩, hbits⟩).congr (iff_of_true trivial (by omega))

theorem adds_push (v : ℤ) {n : ℕ} (hn : n ≤ 32) : bits.Adds (push v n) (toDigits Bool n v) := by
  have hloop := Holder.adds_forFrom (H := bits) (i := 0) (n := n)
    (b := fun i => pushBit (shr v (n - 1 - i) % 2))
    (q := fun i => [(Digit.ofInt (v / 2 ^ (n - 1 - i)) : Bool)]) ?_
  · refine hloop.congr (fun s => ?_) ?_
    · unfold push
      rw [Int.toNat_natCast]
    · rw [toDigits_eq_map, ← List.range_eq_range', ← List.map_eq_flatMap]
  · intro i _ hi
    have hbit : shr v (n - 1 - i) % 2 = (Digit.ofInt (v / 2 ^ (n - 1 - i)) : Bool).toInt := by
      rw [shr_eq (n := n - 1 - i) (by omega) (by omega)]
      exact (Digit.val_ofInt (D := Bool) _).symm
    rw [hbit]
    exact adds_pushBit _

theorem align_exactly {s : GrowSink} (h : s.Ok) :
    s.align.Exactly (s.view.bits.length ≤ 8 * 2 ^ 30) fun t =>
      t.w.Ok ∧ ∃ k < 8, bitsOf t.w.buf = s.view.bits ++ List.replicate k false := by
  obtain ⟨k, hk, hbits⟩ := BitSink.align_bits h.wf
  have hlen : (s.view.bits.length : ℤ) = 8 * s.w.buf.length + s.bw.nbits := length_bits h.wf
  have h0 : 0 ≤ s.bw.nbits := h.wf.nbits_nonneg
  have hlt : s.bw.nbits < 8 := h.wf.nbits_lt
  have hfits := h.w.fits
  by_cases hopen : s.bw.nbits > 0
  · have hview : s.view.align = ⟨s.view.w.byte (shl s.bw.acc (8 - s.bw.nbits)), ⟨0, 0⟩⟩ := if_pos hopen
    have hstep : s.align = (s.w.byte (shl s.bw.acc (8 - s.bw.nbits)) >>= fun w => pure ⟨w, ⟨0, 0⟩⟩) := if_pos hopen
    rw [hview] at hbits
    rw [hstep]
    refine ((flush h.w _).mono fun t ht => ⟨ht.1, k, hk, ?_⟩).congr (by omega)
    rw [← ht.2] at hbits
    exact hbits
  · have hview : s.view.align = s.view := if_neg hopen
    have hstep : s.align = .ok s := if_neg hopen
    rw [hview] at hbits
    rw [hstep]
    exact (Exactly.ok ⟨h.w, k, hk, hbits⟩).congr (iff_of_true trivial (by omega))

end GrowSink

/-! The bit cursor loses nothing: what a `BitWriter` pushed, a `BitReader` takes, value by value. -/

/-- A value to be pushed with a width. -/
structure BitField where
  value : Int32
  width : ℕ
  one_le : 1 ≤ width
  le : width ≤ 16

namespace BitField

def bits (x : BitField) : List Bool := toDigits Bool x.width x.value.toInt

def total (xs : List BitField) : ℕ := (xs.map width).sum

end BitField

def pushAll : List BitField → GrowSink → Res GrowSink
  | [], s => .ok s
  | x :: xs, s => s.push x.value.toInt x.width >>= pushAll xs

/-- The bytes that one `BitWriter` leaves in a fresh `Writer`. -/
def written (xs : List BitField) : Res Str := do
  let s ← pushAll xs ⟨GrowWriter.fresh, bitWriter⟩
  let s ← s.align
  pure s.w.buf

/-- Each value is taken in its turn, and with its sign if it fits the width. -/
def ReadsBack : List BitField → BitReader → Prop
  | [], _ => True
  | x :: xs, br => ∃ br', br.take x.width = .ok (x.value.toInt % 2 ^ x.width, br') ∧
      (BitReader.Fits x.width x.value.toInt → br.takeSigned x.width = .ok (x.value.toInt, br')) ∧ ReadsBack xs br'

/-- The bytes are as many as the bits need, and give the values back. -/
structure Lossless (xs : List BitField) (buf : Str) : Prop where
  length : buf.length = (BitField.total xs + 7) / 8
  reads : ReadsBack xs (bitReader ⟨buf, 0⟩)

variable {xs : List BitField}

theorem length_flatMap_bits (xs : List BitField) : (xs.flatMap BitField.bits).length = BitField.total xs := by
  rw [List.length_flatMap, BitField.total]
  congr 1
  exact List.map_congr_left fun x _ => length_toDigits _ _

theorem adds_pushAll (xs : List BitField) : GrowSink.bits.Adds (pushAll xs) (xs.flatMap BitField.bits) := by
  induction xs with
  | nil => exact Holder.adds_nil
  | cons x xs ih => exact (GrowSink.adds_push x.value.toInt (by have := x.le; omega)).bind ih

theorem written_exactly (xs : List BitField) :
    (written xs).Exactly (BitField.total xs ≤ 8 * 2 ^ 30) fun buf =>
      ∃ k < 8, bitsOf buf = xs.flatMap BitField.bits ++ List.replicate k false := by
  have hfresh : GrowSink.bits.held ⟨GrowWriter.fresh, bitWriter⟩ = [] := BitSink.bits_fresh ⟨[]⟩
  have hpush := (adds_pushAll xs).run (s := ⟨GrowWriter.fresh, bitWriter⟩)
    ⟨GrowWriter.ok_fresh, BitSink.wf_fresh _⟩ hfresh
  have hboth : (written xs).Exactly ((xs.flatMap BitField.bits).length ≤ GrowSink.bits.room ∧
      (xs.flatMap BitField.bits).length ≤ 8 * 2 ^ 30 ∧ True)
      fun buf => ∃ k < 8, bitsOf buf = xs.flatMap BitField.bits ++ List.replicate k false := by
    refine hpush.bind fun s hs => ?_
    have halign := GrowSink.align_exactly hs.1
    have hheld : s.view.bits = xs.flatMap BitField.bits := hs.2
    rw [hheld] at halign
    exact halign.bind fun t ht => Exactly.ok ht.2
  rw [length_flatMap_bits] at hboth
  exact hboth.congr ⟨fun hle => hle.2.1, fun hle => ⟨hle.trans (by decide), hle, trivial⟩⟩

theorem reads_at {b : Str} (hlen : b.length < 2 ^ 31) {p : ℕ} {rest : List Bool}
    (h : (bitsOf b).drop p = xs.flatMap BitField.bits ++ rest) : ReadsBack xs (BitReader.at' b p) := by
  induction xs generalizing p with
  | nil => trivial
  | cons x xs ih =>
    rw [List.flatMap_cons, List.append_assoc] at h
    have hle := x.le
    have hone := x.one_le
    have hwidth : x.bits.length = x.width := length_toDigits _ _
    have hnext : (bitsOf b).drop (p + x.width) = xs.flatMap BitField.bits ++ rest := by
      rw [← List.drop_drop, h, List.drop_left' hwidth]
    have htake := BitReader.take_at hlen (by rw [hwidth]; omega) h
    rw [hwidth, BitField.bits, ofDigits_toDigits] at htake
    refine ⟨_, htake, fun hfits => ?_, ih hnext⟩
    obtain ⟨n, hn⟩ := Nat.exists_eq_add_one.2 hone
    rw [BitField.bits, hn] at h
    rw [hn] at hfits ⊢
    exact BitReader.takeSigned_at hlen (by omega) hfits h

theorem bit_cursor_bound (xs : List BitField) :
    (written xs).Yields (Lossless xs) ↔ BitField.total xs ≤ 8 * 2 ^ 30 := by
  constructor
  · rintro ⟨buf, hbuf, -⟩
    exact (written_exactly xs).only buf hbuf
  · intro hle
    refine ((written_exactly xs).returns hle).mono ?_
    rintro buf ⟨k, hk, hbits⟩
    have hlen := congrArg List.length hbits
    rw [List.length_append, List.length_replicate, length_bitsOf, length_flatMap_bits] at hlen
    exact ⟨by omega, reads_at (b := buf) (p := 0) (by omega) hbits⟩

/-- The bit cursor is lossless exactly for what fills no more than the 2^30 bytes of a `Writer`. -/
theorem bit_cursor_lossless_iff (xs : List BitField) :
    (written xs).Yields (Lossless xs) ↔ (BitField.total xs + 7) / 8 ≤ 2 ^ 30 := by
  rw [bit_cursor_bound]
  omega

/-- A value of 16 bits for each two bytes of a full `Writer`, and one more. -/
theorem bit_cursor_loses : ¬ ∀ xs : List BitField, (written xs).Yields (Lossless xs) := by
  intro h
  have hle := (bit_cursor_bound (List.replicate (2 ^ 29 + 1) ⟨0, 16, by decide, by decide⟩)).1 (h _)
  rw [BitField.total, List.map_replicate, List.sum_replicate_nat] at hle
  exact absurd hle (by norm_num)

end LsLang.Oran
