import LsLang.Core.Str
import LsLang.Lib.Bits
import LsLang.Word
import Mathlib.Data.Nat.Bitwise

/-! Both ends of the wire: the `Reader` of `std.text.bytes` over the loads of the runtime, the
`Writer` of `oran.cus` and its cursors for values of any bit width. -/

namespace LsLang.Oran

open LsLang.Core LsLang.Lib

/-- How a call ends that does not return: it prints a diagnostic and aborts, it loads a byte outside
its buffer, or it is still running. -/
inductive Stop
  | abort
  | wild
  | running
  deriving DecidableEq

/-- `x << k`. LLVM leaves a count outside of 0..31 undefined, the machine takes it modulo 32. -/
def shl (x k : ℤ) : ℤ := i32 (x * 2 ^ (k % 32).toNat)

/-- `x >> k` -/
def shr (x k : ℤ) : ℤ := x / 2 ^ (k % 32).toNat

/-- `b2i` -/
def b2i (x : Bool) : ℤ := x.toInt

/-- A one-bit field as a `bool`. -/
def flag (x : ℤ) : Bool := x != 0

section Loads

variable (buf : Str) (off : ℤ)

/-- The `n` bytes at an offset. The runtime does not check it. -/
def loadAt (n : ℕ) : Except Stop Str :=
  if 0 ≤ off ∧ off + n ≤ buf.length then .ok ((buf.drop off.toNat).take n) else .error .wild

/-- The big-endian number in `n` bytes. -/
def loadBe (n : ℕ) : Except Stop ℤ := ofDigits <$> loadAt buf off n

def loadU8 : Except Stop ℤ := loadBe buf off 1

def loadBeU16 : Except Stop ℤ := loadBe buf off 2

def loadBeU32 : Except Stop ℤ := loadBe buf off 4

def loadLeU32 : Except Stop ℤ := (fun bs => ofDigits bs.reverse) <$> loadAt buf off 4

end Loads

structure Reader where
  buf : Str
  pos : ℤ
  deriving DecidableEq

/-- A function of a `Reader`. -/
abbrev Parse (α : Type) : Type := StateT Reader (Except Stop) α

def beU (n : ℕ) : Parse ℤ := fun r =>
  if i32 (r.pos + n) > r.buf.length then .error .abort
  else do
    let v ← loadBe r.buf r.pos n
    .ok (v, { r with pos := i32 (r.pos + n) })

def beU8 : Parse ℤ := beU 1

def beU16 : Parse ℤ := beU 2

def beU32 : Parse ℤ := beU 4

def beU64 : Parse ℤ := beU 8

def Reader.seek (r : Reader) (off : ℤ) : Reader := { r with pos := off }

def seek (off : ℤ) : Parse Unit := modify fun r => r.seek off

/-- A loop `for i in 0..n` that reads one more element each time. -/
def collect {α : Type} (p : Parse α) : ℕ → Parse (List α)
  | 0 => pure []
  | n + 1 => do
    let x ← p
    let xs ← collect p n
    pure (x :: xs)

structure Writer where
  buf : Str
  deriving DecidableEq

namespace Writer

variable (w : Writer)

def byte (v : ℤ) : Writer := ⟨w.buf ++ [byteOf v]⟩

def beU16 (v : ℤ) : Writer := (w.byte (shr v 8)).byte v

def beU32 (v : ℤ) : Writer := (((w.byte (shr v 24)).byte (shr v 16)).byte (shr v 8)).byte v

/-- The argument is a `u64`. -/
def beU64 (v : ℤ) : Writer := (w.beU32 (i32 (v / 2 ^ 32))).beU32 (i32 v)

def bytes (s : Str) : Writer := ⟨w.buf ++ s⟩

def size : ℤ := w.buf.length

def patchBeU16 (off : ℕ) (v : ℤ) : Writer :=
  ⟨(w.buf.set off (byteOf (shr v 8))).set (off + 1) (byteOf v)⟩

end Writer

structure BitReader where
  buf : Str
  len : ℤ
  bytePos : ℤ
  bitPos : ℤ
  deriving DecidableEq

/-- `bit_reader` where the reader stands. -/
def bitReader (r : Reader) : BitReader := ⟨r.buf, r.buf.length, r.pos, 0⟩

namespace BitReader

/-- The body of the loop of `take`. -/
def takeBit (v : ℤ) (br : BitReader) : Except Stop (ℤ × BitReader) :=
  if br.bytePos ≥ br.len then .error .abort
  else do
    let byte ← loadU8 br.buf br.bytePos
    let v := Int.lor (shl v 1) (shr byte (7 - br.bitPos) % 2)
    if br.bitPos + 1 = 8 then .ok (v, { br with bytePos := i32 (br.bytePos + 1), bitPos := 0 })
    else .ok (v, { br with bitPos := br.bitPos + 1 })

def takeLoop : ℕ → ℤ → BitReader → Except Stop (ℤ × BitReader)
  | 0, v, br => .ok (v, br)
  | n + 1, v, br => do
    let (v, br) ← takeBit v br
    takeLoop n v br

def take (width : ℤ) (br : BitReader) : Except Stop (ℤ × BitReader) :=
  takeLoop width.toNat 0 br

/-- The value with its sign, from the two's complement of `width` bits. -/
def signed (width v : ℤ) : ℤ :=
  if Int.land v (shl 1 (width - 1)) ≠ 0 then i32 (v - shl 1 width) else v

def takeSigned (width : ℤ) (br : BitReader) : Except Stop (ℤ × BitReader) := do
  let (v, br) ← take width br
  .ok (signed width v, br)

def takeMany (width : ℤ) : ℕ → BitReader → Except Stop (List ℤ × BitReader)
  | 0, br => .ok ([], br)
  | n + 1, br => do
    let (x, br) ← takeSigned width br
    let (xs, br) ← takeMany width n br
    .ok (x :: xs, br)

def align (br : BitReader) : BitReader :=
  if br.bitPos ≠ 0 then { br with bytePos := i32 (br.bytePos + 1), bitPos := 0 } else br

end BitReader

structure BitWriter where
  acc : ℤ
  nbits : ℤ
  deriving DecidableEq

def bitWriter : BitWriter := ⟨0, 0⟩

/-- A `BitWriter` with the `Writer` that its bytes go to. -/
structure BitSink where
  w : Writer
  bw : BitWriter

namespace BitSink

/-- The body of the loop of `push`. -/
def pushBit (s : BitSink) (bit : ℤ) : BitSink :=
  let acc := Int.lor (shl s.bw.acc 1) bit
  if s.bw.nbits + 1 = 8 then ⟨s.w.byte acc, ⟨0, 0⟩⟩ else ⟨s.w, ⟨acc, s.bw.nbits + 1⟩⟩

def push (s : BitSink) (v width : ℤ) : BitSink :=
  (List.range width.toNat).foldl (fun s (i : ℕ) => s.pushBit (shr v (width - 1 - i) % 2)) s

def align (s : BitSink) : BitSink :=
  if s.bw.nbits > 0 then ⟨s.w.byte (shl s.bw.acc (8 - s.bw.nbits)), ⟨0, 0⟩⟩ else s

end BitSink

def pushSamples (xs : List ℤ) (width : ℤ) (w : Writer) : Writer :=
  (xs.foldl (fun s x => s.push x width) (BitSink.mk w bitWriter)).align.w

def takeSamples (n : ℕ) (width : ℤ) : Parse (List ℤ) := fun r => do
  let (xs, br) ← BitReader.takeMany width n (bitReader r)
  .ok (xs, r.seek br.align.bytePos)

/-! Writers and the readers that undo them. -/

section Words

variable {α β : Type}

/-- From the first of the bytes `bs` on the reader returns `a` and is behind them then, wherever they
stand in a buffer. -/
def Reads (p : Parse α) (bs : Str) (a : α) : Prop :=
  ∀ pre post : Str, (pre ++ bs ++ post).length < 2 ^ 31 →
    p ⟨pre ++ bs ++ post, pre.length⟩ = .ok (a, ⟨pre ++ bs ++ post, (pre ++ bs).length⟩)

theorem bind_ok {p : Parse α} {f : α → Parse β} {r r' : Reader} {a : α}
    (h : p r = .ok (a, r')) : (p >>= f) r = f a r' := by
  show (p r >>= fun x => f x.1 x.2) = _
  rw [h]
  rfl

theorem bind_eq_ok {p : Parse α} {f : α → Parse β} {r r' : Reader} {b : β}
    (h : (p >>= f) r = .ok (b, r')) : ∃ a r1, p r = .ok (a, r1) ∧ f a r1 = .ok (b, r') := by
  cases hp : p r with
  | error e =>
    have : (p >>= f) r = .error e := by
      show (p r >>= fun x => f x.1 x.2) = _
      rw [hp]
      rfl
    rw [this] at h
    cases h
  | ok x =>
    rw [bind_ok hp] at h
    grind

theorem get_bind (f : Reader → Parse β) (r : Reader) : (get >>= f) r = f r r := rfl

theorem Reads.pure (a : α) : Reads (pure a) [] a := by
  intro pre post _
  rw [List.append_nil]
  rfl

theorem Reads.bind {p : Parse α} {f : α → Parse β} {bs cs : Str} {a : α} {b : β}
    (hp : Reads p bs a) (hf : Reads (f a) cs b) : Reads (p >>= f) (bs ++ cs) b := by
  intro pre post hlen
  have hbuf : pre ++ (bs ++ cs) ++ post = pre ++ bs ++ (cs ++ post) := by simp
  have hbuf' : pre ++ (bs ++ cs) ++ post = pre ++ bs ++ cs ++ post := by simp
  have h1 := hp pre (cs ++ post) (by rwa [← hbuf])
  have h2 := hf (pre ++ bs) post (by rwa [← hbuf'])
  grind [bind_ok, List.append_assoc]

theorem loadAt_append (pre bs post : Str) :
    loadAt (pre ++ bs ++ post) pre.length bs.length = .ok bs := by
  unfold loadAt
  rw [if_pos (by constructor <;> simp), Int.toNat_natCast]
  simp

theorem reads_beU (bs : Str) : Reads (beU bs.length) bs (ofDigits bs) := by
  intro pre post hlen
  have hle : pre.length + bs.length ≤ (pre ++ bs ++ post).length := by simp
  have hpos : i32 ((pre.length : ℤ) + bs.length) = pre.length + bs.length :=
    i32_eq (by omega) (by omega)
  unfold beU loadBe
  simp only [hpos, loadAt_append]
  rw [if_neg (by omega)]
  show Except.ok _ = Except.ok _
  grind

theorem Reads.last {p : Parse α} {f : α → Parse β} {bs : Str} {a : α} {b : β}
    (hp : Reads p bs a) (hf : f a = Pure.pure b) : Reads (p >>= f) bs b := by
  have hb : Reads (f a) [] b := by
    rw [hf]
    exact Reads.pure b
  have h := hp.bind hb
  rwa [List.append_nil] at h

/-- What `f` writes, `p` reads as `a`. -/
def Mirrors (f : Writer → Writer) (p : Parse α) (a : α) : Prop :=
  ∃ bs : Str, (∀ w, f w = w.bytes bs) ∧ Reads p bs a

theorem Mirrors.intro {f : Writer → Writer} {p : Parse α} {bs : Str} {a : α}
    (hf : ∀ w, f w = w.bytes bs) (hp : Reads p bs a) : Mirrors f p a := ⟨bs, hf, hp⟩

theorem bytes_bytes (w : Writer) (bs cs : Str) : (w.bytes bs).bytes cs = w.bytes (bs ++ cs) := by
  unfold Writer.bytes
  rw [List.append_assoc]

theorem bytes_nil (w : Writer) : w.bytes [] = w := by
  unfold Writer.bytes
  rw [List.append_nil]

theorem Mirrors.foldl {f : α → Writer → Writer} {p : Parse α} {xs : List α}
    (h : ∀ x ∈ xs, Mirrors (f x) p x) :
    Mirrors (fun w => xs.foldl (fun w x => f x w) w) (collect p xs.length) xs := by
  induction xs with
  | nil => exact ⟨[], fun w => (bytes_nil w).symm, Reads.pure []⟩
  | cons x xs ih =>
    obtain ⟨bs, hf, hp⟩ := h x List.mem_cons_self
    obtain ⟨cs, hg, hq⟩ := ih fun y hy => h y (List.mem_cons_of_mem x hy)
    refine ⟨bs ++ cs, fun w => ?_, ?_⟩
    · grind [bytes_bytes]
    · exact hp.bind (hq.last rfl)

theorem shr_eq {x k : ℤ} {n : ℕ} (hk : k = n) (hn : n < 32) : shr x k = x / 2 ^ n := by
  have : (k % 32).toNat = n := by omega
  rw [shr, this]

theorem byteOf_eq (x : ℤ) : byteOf x = Digit.ofInt x := rfl

theorem beU16_eq (w : Writer) (v : ℤ) : w.beU16 v = w.bytes (toDigits UInt8 2 v) := by
  simp [Writer.beU16, Writer.byte, Writer.bytes, toDigits, byteOf_eq, Digit.base,
    shr_eq (x := v) (k := 8) rfl (by decide)]

theorem beU32_eq (w : Writer) (v : ℤ) : w.beU32 v = w.bytes (toDigits UInt8 4 v) := by
  simp [Writer.beU32, Writer.byte, Writer.bytes, toDigits, byteOf_eq, Digit.base,
    shr_eq (x := v) (k := 24) rfl (by decide), shr_eq (x := v) (k := 16) rfl (by decide),
    shr_eq (x := v) (k := 8) rfl (by decide)]

theorem i32_emod (x : ℤ) : i32 x % 2 ^ 32 = x % 2 ^ 32 := Int.bmod_emod

theorem beU64_eq (w : Writer) (v : ℤ) : w.beU64 v = w.bytes (toDigits UInt8 8 v) := by
  have hhi : toDigits UInt8 4 (i32 (v / 2 ^ 32)) = toDigits UInt8 4 (v / 2 ^ 32) :=
    toDigits_congr (i32_emod _)
  have hlo : toDigits UInt8 4 (i32 v) = toDigits UInt8 4 v := toDigits_congr (i32_emod _)
  have hadd : toDigits UInt8 8 v = toDigits UInt8 4 (v / 2 ^ 32) ++ toDigits UInt8 4 v :=
    toDigits_add 4 4 v
  rw [Writer.beU64, beU32_eq, beU32_eq, hhi, hlo, hadd]
  simp [Writer.bytes]

theorem byte_eq (w : Writer) (v : ℤ) : w.byte v = w.bytes (toDigits UInt8 1 v) := by
  simp [Writer.byte, Writer.bytes, toDigits, byteOf_eq]

theorem reads_digits {n : ℕ} {x v : ℤ} (hv : x % 256 ^ n = v) :
    Reads (beU n) (toDigits UInt8 n x) v := by
  have h := reads_beU (toDigits UInt8 n x)
  rwa [length_toDigits, ofDigits_toDigits, Digit.base, byteDigit, hv] at h

variable {x v : ℤ}

theorem reads_byte (h : x % 2 ^ 8 = v) : Reads beU8 (toDigits UInt8 1 x) v :=
  reads_digits (by simpa using h)

theorem reads_beU16 (h : x % 2 ^ 16 = v) : Reads beU16 (toDigits UInt8 2 x) v :=
  reads_digits (by simpa using h)

theorem reads_beU32 (h : x % 2 ^ 32 = v) : Reads beU32 (toDigits UInt8 4 x) v :=
  reads_digits (by simpa using h)

theorem reads_beU64 (h : x % 2 ^ 64 = v) : Reads beU64 (toDigits UInt8 8 x) v :=
  reads_digits (by simpa using h)

end Words

end LsLang.Oran
