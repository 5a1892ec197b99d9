import LsLang.Core.Buffer
import LsLang.Oran.Wire

/-! A `Reader` of `std.text.bytes` under any sequence of moves and reads. -/

namespace LsLang.Oran

open LsLang.Core LsLang.Lib

def leU (n : ℕ) : Parse ℤ := fun r =>
  if i32 (r.pos + n) > r.buf.length then .error .abort
  else do
    let bs ← loadAt r.buf r.pos n
    .ok (ofDigits bs.reverse, { r with pos := i32 (r.pos + n) })

def leU16 : Parse ℤ := leU 2

def leU32 : Parse ℤ := leU 4

def leU64 : Parse ℤ := leU 8

def Reader.skip (r : Reader) (n : ℤ) : Reader := { r with pos := i32 (r.pos + n) }

/-- `has?` -/
def Reader.has (r : Reader) (n : ℤ) : Bool := i32 (r.pos + n) ≤ r.buf.length

/-- `of_bytes` -/
def ofBytes (buf : StrBytes) : Reader := ⟨buf.bytes, 0⟩

/-- The reads of a `Reader`. -/
inductive ReadOp
  | beU8
  | beU16
  | beU32
  | beU64
  | leU16
  | leU32
  | leU64

namespace ReadOp

def width : ReadOp → ℕ
  | beU8 => 1
  | beU16 | leU16 => 2
  | beU32 | leU32 => 4
  | beU64 | leU64 => 8

def run : ReadOp → Parse ℤ
  | beU8 => Oran.beU8
  | beU16 => Oran.beU16
  | beU32 => Oran.beU32
  | beU64 => Oran.beU64
  | leU16 => Oran.leU16
  | leU32 => Oran.leU32
  | leU64 => Oran.leU64

end ReadOp

/-- A call of a method. -/
inductive ReaderOp
  | seek (off : Int32)
  | skip (n : Int32)
  | has (n : Int32)
  | read (op : ReadOp)

def ReaderOp.exec (r : Reader) : ReaderOp → Except Stop Reader
  | seek off => .ok (r.seek off.toInt)
  | skip n => .ok (r.skip n.toInt)
  | has _ => .ok r
  | read op => Prod.snd <$> op.run r

/-- The next `n` bytes are read one after the other. -/
def CanRead (r : Reader) (n : ℕ) : Prop := ∃ x, collect beU8 n r = .ok x

/-- What is expected of one call. -/
def ReaderOp.Safe (r : Reader) : ReaderOp → Prop
  | seek _ | skip _ => True
  | has n => 0 ≤ n.toInt → r.has n.toInt = true → CanRead r n.toInt.toNat
  | read op => op.run r ≠ .error .wild

/-- The sum of the cursor and a width, as an `int`, tells whether the bytes are there: the cursor is in front of the
end and the sum does not overflow, or it is negative and the sum still behind the end. -/
def Reader.Tells (r : Reader) (width : ℤ) : Prop :=
  0 ≤ r.pos ∧ r.pos + width < 2 ^ 31 ∨ r.pos < 0 ∧ r.buf.length < r.pos + width

def ReaderOp.Guarded (r : Reader) : ReaderOp → Prop
  | seek _ | skip _ => True
  | has n => 0 < n.toInt → r.Tells n.toInt
  | read op => r.Tells op.width

def EveryCall (P : Reader → ReaderOp → Prop) : List ReaderOp → Reader → Prop
  | [], _ => True
  | op :: ops, r => P r op ∧ ∀ r', op.exec r = .ok r' → EveryCall P ops r'

/-- The cursor and the length are each an `int`. -/
structure Reader.Ok (r : Reader) : Prop where
  pos_ge : -2 ^ 31 ≤ r.pos
  pos_lt : r.pos < 2 ^ 31
  length_lt : r.buf.length < 2 ^ 31

variable {r r' : Reader} {n : ℕ}

/-! ### One call -/

theorem i32_bounds (x : ℤ) : -2 ^ 31 ≤ i32 x ∧ i32 x < 2 ^ 31 := by
  have hl := Int.le_bmod (x := x) (m := 2 ^ 32) (by norm_num)
  have hu := Int.bmod_lt (x := x) (m := 2 ^ 32) (by norm_num)
  unfold i32
  constructor <;> omega

theorem i32_neg {x : ℤ} (hl : 2 ^ 31 ≤ x) (hu : x < 2 ^ 32) : i32 x < 0 := by
  have h : i32 x = i32 (x - 2 ^ 32) := by
    unfold i32
    grind
  rw [h, i32_eq (by omega) (by omega)]
  omega

theorem loads_iff (h : r.Ok) (hn : 0 < n) (hn31 : (n : ℤ) < 2 ^ 31) :
    (i32 (r.pos + n) ≤ r.buf.length → 0 ≤ r.pos ∧ r.pos + n ≤ r.buf.length) ↔ r.Tells n := by
  obtain ⟨hge, hlt, hlen⟩ := h
  unfold Reader.Tells
  by_cases hpos : 0 ≤ r.pos
  · by_cases hsum : r.pos + n < 2 ^ 31
    · rw [i32_eq (by omega) hsum]
      omega
    · have hneg := i32_neg (x := r.pos + n) (by omega) (by omega)
      omega
  · rw [i32_eq (by omega) (by omega)]
    omega

theorem beU_wild_iff (h : r.Ok) (hn : 0 < n) (hn31 : (n : ℤ) < 2 ^ 31) :
    beU n r ≠ .error .wild ↔ r.Tells n := by
  rw [← loads_iff h hn hn31]
  unfold beU loadBe loadAt
  by_cases hsum : i32 (r.pos + n) ≤ r.buf.length
  · rw [if_neg (by omega), imp_iff_right hsum]
    split
    · next hin => exact iff_of_true (fun hwild => by cases hwild) hin
    · next hout => exact iff_of_false (fun hne => hne rfl) hout
  grind

theorem leU_wild_iff (h : r.Ok) (hn : 0 < n) (hn31 : (n : ℤ) < 2 ^ 31) :
    leU n r ≠ .error .wild ↔ r.Tells n := by
  rw [← loads_iff h hn hn31]
  unfold leU loadAt
  by_cases hsum : i32 (r.pos + n) ≤ r.buf.length
  · rw [if_neg (by omega), imp_iff_right hsum]
    split
    · next hin => exact iff_of_true (fun hwild => by cases hwild) hin
    · next hout => exact iff_of_false (fun hne => hne rfl) hout
  grind

theorem ReadOp.wild_iff (h : r.Ok) (op : ReadOp) : op.run r ≠ .error .wild ↔ r.Tells op.width := by
  cases op with
  | beU8 => exact beU_wild_iff h (n := 1) (by decide) (by decide)
  | beU16 => exact beU_wild_iff h (n := 2) (by decide) (by decide)
  | beU32 => exact beU_wild_iff h (n := 4) (by decide) (by decide)
  | beU64 => exact beU_wild_iff h (n := 8) (by decide) (by decide)
  | leU16 => exact leU_wild_iff h (n := 2) (by decide) (by decide)
  | leU32 => exact leU_wild_iff h (n := 4) (by decide) (by decide)
  | leU64 => exact leU_wild_iff h (n := 8) (by decide) (by decide)

theorem beU8_ok_iff (h : r.Ok) :
    (∃ v, beU8 r = .ok (v, r')) ↔ 0 ≤ r.pos ∧ r.pos < r.buf.length ∧ r' = { r with pos := r.pos + 1 } := by
  obtain ⟨hge, hlt, hlen⟩ := h
  unfold beU8 beU loadBe loadAt
  constructor
  · rintro ⟨v, hv⟩
    split at hv
    · cases hv
    · next hsum =>
      split at hv
      · next hin =>
        cases hv
        grind [i32_eq]
      · cases hv
  · rintro ⟨h0, hin, rfl⟩
    have hsum : i32 (r.pos + (1 : ℕ)) = r.pos + 1 := i32_eq (by omega) (by omega)
    refine ⟨ofDigits ((r.buf.drop r.pos.toNat).take 1), ?_⟩
    rw [hsum, if_neg (by omega), if_pos ⟨h0, by omega⟩]
    rfl

theorem canRead_succ : CanRead r (n + 1) ↔ ∃ v r', beU8 r = .ok (v, r') ∧ CanRead r' n := by
  constructor
  · rintro ⟨⟨xs, r''⟩, hx⟩
    obtain ⟨v, r', hv, hrest⟩ := bind_eq_ok hx
    obtain ⟨vs, r2, hvs, -⟩ := bind_eq_ok hrest
    exact ⟨v, r', hv, _, hvs⟩
  · rintro ⟨v, r', hv, ⟨vs, r''⟩, hvs⟩
    refine ⟨(v :: vs, r''), ?_⟩
    rw [collect, bind_ok hv, bind_ok hvs]
    rfl

theorem canRead_iff (h : r.Ok) : CanRead r n ↔ n = 0 ∨ 0 ≤ r.pos ∧ r.pos + n ≤ r.buf.length := by
  induction n generalizing r with
  | zero => exact iff_of_true ⟨([], r), rfl⟩ (.inl rfl)
  | succ n ih =>
    rw [canRead_succ, or_iff_right n.succ_ne_zero, Nat.cast_succ]
    have hlen := h.length_lt
    have hnext : 0 ≤ r.pos → r.pos < r.buf.length →
        (CanRead ⟨r.buf, r.pos + 1⟩ n ↔ n = 0 ∨ 0 ≤ r.pos + 1 ∧ r.pos + 1 + n ≤ r.buf.length) :=
      fun h0 hin => ih ⟨by grind, by change r.pos + 1 < _; omega, hlen⟩
    constructor
    · rintro ⟨v, r', hv, hrest⟩
      obtain ⟨h0, hin, rfl⟩ := (beU8_ok_iff h).1 ⟨v, hv⟩
      grind
    · rintro ⟨h0, hle⟩
      obtain ⟨v, hv⟩ := (beU8_ok_iff h).2 ⟨h0, by omega, rfl⟩
      grind

theorem ReaderOp.safe_iff (h : r.Ok) (op : ReaderOp) : op.Safe r ↔ op.Guarded r := by
  cases op with
  | seek off => exact Iff.rfl
  | skip n => exact Iff.rfl
  | read op => exact op.wild_iff h
  | has n =>
    change (0 ≤ n.toInt → r.has n.toInt = true → CanRead r n.toInt.toNat) ↔ (0 < n.toInt → r.Tells n.toInt)
    have hn31 : n.toInt < 2 ^ 31 := n.toInt_lt
    rw [canRead_iff h]
    unfold Reader.has
    rw [decide_eq_true_iff]
    rcases lt_trichotomy n.toInt 0 with hneg | hzero | hpos
    · grind
    · grind
    · have hloads := loads_iff h (n := n.toInt.toNat) (by omega) (by omega)
      grind

/-! ### A run -/

theorem beU_ok {v : ℤ} (h : beU n r = .ok (v, r')) : r' = ⟨r.buf, i32 (r.pos + n)⟩ := by
  unfold beU at h
  split at h
  · cases h
  · obtain ⟨u, hu⟩ : ∃ u, loadBe r.buf r.pos n = .ok u := by
      cases hload : loadBe r.buf r.pos n with
      | error e =>
        rw [hload] at h
        cases h
      | ok u => exact ⟨u, rfl⟩
    rw [hu] at h
    cases h
    rfl

theorem leU_ok {v : ℤ} (h : leU n r = .ok (v, r')) : r' = ⟨r.buf, i32 (r.pos + n)⟩ := by
  unfold leU at h
  split at h
  · cases h
  · obtain ⟨bs, hbs⟩ : ∃ bs, loadAt r.buf r.pos n = .ok bs := by
      cases hload : loadAt r.buf r.pos n with
      | error e =>
        rw [hload] at h
        cases h
      | ok bs => exact ⟨bs, rfl⟩
    rw [hbs] at h
    cases h
    rfl

theorem ReadOp.run_ok (op : ReadOp) {v : ℤ} (h : op.run r = .ok (v, r')) : r' = ⟨r.buf, i32 (r.pos + op.width)⟩ := by
  cases op with
  | beU8 => exact beU_ok h
  | beU16 => exact beU_ok h
  | beU32 => exact beU_ok h
  | beU64 => exact beU_ok h
  | leU16 => exact leU_ok h
  | leU32 => exact leU_ok h
  | leU64 => exact leU_ok h

theorem ReaderOp.exec_ok (h : r.Ok) {op : ReaderOp} (hexec : op.exec r = .ok r') : r'.Ok := by
  cases op with
  | seek off =>
    cases hexec
    exact ⟨off.le_toInt, off.toInt_lt, h.length_lt⟩
  | skip n =>
    cases hexec
    exact ⟨(i32_bounds _).1, (i32_bounds _).2, h.length_lt⟩
  | has n =>
    cases hexec
    exact h
  | read op =>
    change Prod.snd <$> op.run r = .ok r' at hexec
    cases hrun : op.run r with
    | error e =>
      rw [hrun] at hexec
      cases hexec
    | ok x =>
      rw [hrun] at hexec
      cases hexec
      rw [op.run_ok (v := x.1) hrun]
      exact ⟨(i32_bounds _).1, (i32_bounds _).2, h.length_lt⟩

theorem everyCall_congr {P Q : Reader → ReaderOp → Prop} (hPQ : ∀ r op, r.Ok → (P r op ↔ Q r op))
    {ops : List ReaderOp} (h : r.Ok) : EveryCall P ops r ↔ EveryCall Q ops r := by
  induction ops generalizing r with
  | nil => exact Iff.rfl
  | cons op ops ih =>
    exact and_congr (hPQ r op h) (forall_congr' fun r' => forall_congr' fun hexec => ih (ReaderOp.exec_ok h hexec))

/-- A run keeps to the buffer exactly if at each of its reads the sum of the cursor and the width tells where the bytes
are. -/
theorem reader_safe_iff (buf : StrBytes) (ops : List ReaderOp) :
    EveryCall ReaderOp.Safe ops (ofBytes buf) ↔ EveryCall ReaderOp.Guarded ops (ofBytes buf) := by
  have hok : (ofBytes buf).Ok := ⟨by norm_num [ofBytes], by norm_num [ofBytes], buf.fits⟩
  exact everyCall_congr (fun _ op h => op.safe_iff h) hok

/-- A cursor in front of the buffer is not noticed. -/
theorem reader_not_safe : ¬ ∀ (buf : StrBytes) (ops : List ReaderOp), EveryCall ReaderOp.Safe ops (ofBytes buf) := by
  intro h
  have hsafe := (h ⟨[7], by decide⟩ [.seek (-1), .read .beU8]).2 _ rfl
  exact hsafe.1 (by rfl)

end LsLang.Oran
