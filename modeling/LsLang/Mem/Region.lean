import Mathlib
import LsLang.Core.Buffer
import LsLang.Lib.Transition

/-! `Region` of `std.mem.arena`: a block of bytes, from the front of which slices are carved. -/

namespace LsLang.Mem

open LsLang.Core LsLang.Undefined LsLang.Undefined.Res Transition

/-- A reserved `Region`; `base` is the start of its block. -/
structure Region where
  off : ℤ
  cap : ℤ

namespace Region

/-- `reserve` -/
def reserve (cap : ℤ) : Region := ⟨0, cap⟩

/-- The next place that is divisible by 8. -/
def aligned (off : ℤ) : ℤ := (off + 7) / 8 * 8

/-- `alloc_bytes`, with the place of the slice in the block; `c.abort()` is a failure. -/
def allocBytes (r : Region) (size : ℤ) : Res (ℤ × Region) := do
  let up ← asLong (r.off + 7)
  let a ← asLong (Int.tdiv up 8 * 8)
  let need ← asLong (a + size)
  if r.cap < need then .fail else pure (a, { r with off := need })

/-- `str`: the place of the slice, and the bytes that are copied to it. -/
def str (r : Region) (src : StrBytes) : Res ((ℤ × List UInt8) × Region) := do
  let n := src.len
  let (p, r) ← r.allocBytes n
  let bytes ← bytecopy src.bytes 0 n
  pure ((p, bytes), r)

/-- `str_substr` -/
def strSubstr (r : Region) (src : StrBytes) (start len : Int32) : Res ((ℤ × List UInt8) × Region) := do
  let (s, l) ← clamp src.len start.toInt len.toInt
  let (p, r) ← r.allocBytes l
  let bytes ← bytecopy src.bytes s l
  pure ((p, bytes), r)

def reset (r : Region) : Region := { r with off := 0 }

end Region

/-- A call. -/
inductive RegionOp
  | allocBytes (size : ℤ)
  | str (src : StrBytes)
  | strSubstr (src : StrBytes) (start len : Int32)
  | reset

/-- The calls on a region, with the slices that they have returned since the last `reset`. -/
structure RegionHistory where
  region : Region
  slices : List (ℤ × ℤ)

namespace RegionOp

/-- A call, with the place and the size of the slice that it returns. -/
def run (r : Region) : RegionOp → Res (Option (ℤ × ℤ) × Region)
  | allocBytes size => do
    let (p, r) ← r.allocBytes size
    pure (some (p, size), r)
  | str src => do
    let ((p, bytes), r) ← r.str src
    pure (some (p, bytes.length), r)
  | strSubstr src start len => do
    let ((p, bytes), r) ← r.strSubstr src start len
    pure (some (p, bytes.length), r)
  | reset => pure (none, r.reset)

/-- The size of a request is not negative. -/
def Given : RegionOp → Prop
  | allocBytes size => 0 ≤ size ∧ size < 2 ^ 63
  | _ => True

def size : RegionOp → Option ℤ
  | allocBytes size => some size
  | str src => some src.len
  | strSubstr src start len => some (clampedLen src.len start.toInt len.toInt)
  | reset => none

/-- A request that fits is carved behind the others, and one that does not fit aborts. -/
def Behaves (r : Region) (op : RegionOp) : Prop :=
  op.run r = match op.size with
    | none => .ok (none, r.reset)
    | some n =>
      if Region.aligned r.off + n ≤ r.cap then
        .ok (some (Region.aligned r.off, n), { r with off := Region.aligned r.off + n })
      else .fail

/-- The sums of a call are in range. -/
def InRange (r : Region) : RegionOp → Prop
  | allocBytes size => Region.aligned r.off + size < 2 ^ 63
  | str src => Region.aligned r.off + src.len < 2 ^ 63
  | strSubstr src start len => clampedStart src.len start.toInt + max len.toInt 0 < 2 ^ 31 ∧
      Region.aligned r.off + clampedLen src.len start.toInt len.toInt < 2 ^ 63
  | reset => True

def Step (h : RegionHistory) (op : RegionOp) (h' : RegionHistory) : Prop :=
  op.Given ∧ ∃ s r, op.run h.region = .ok (s, r) ∧ h' = ⟨r, s.elim [] (· :: h.slices)⟩

end RegionOp

namespace Region

variable {r r' : Region} {size p off : ℤ}

theorem le_aligned (off : ℤ) : off ≤ aligned off := by
  unfold aligned
  omega

theorem aligned_dvd (off : ℤ) : 8 ∣ aligned off := dvd_mul_left 8 _

theorem allocBytes_eq (hoff : 0 ≤ r.off) (hlt : r.off < 2 ^ 63) (hsize : 0 ≤ size) :
    r.allocBytes size =
      if aligned r.off + size < 2 ^ 63 then
        if aligned r.off + size ≤ r.cap then .ok (aligned r.off, { r with off := aligned r.off + size }) else .fail
      else .stuck := by
  have hle := le_aligned r.off
  unfold allocBytes
  by_cases hup : r.off + 7 < 2 ^ 63
  · have hdiv : Int.tdiv (r.off + 7) 8 * 8 = aligned r.off := by
      rw [Int.tdiv_eq_ediv_of_nonneg (by omega)]
      rfl
    have hmul : aligned r.off < 2 ^ 63 := by unfold aligned; omega
    rw [asLong_eq (by omega) hup, ok_bind, hdiv, asLong_eq (by omega) hmul, ok_bind]
    split
    · next hsum =>
      rw [asLong_eq (by omega) hsum, ok_bind]
      by_cases hcap : r.cap < aligned r.off + size
      · grind
      · rw [if_neg hcap, if_pos (Int.not_lt.1 hcap)]
        rfl
    · next hsum =>
      have hstuck : asLong (aligned r.off + size) = .stuck := if_neg fun h => hsum h.2
      rw [hstuck]
      rfl
  · have hstuck : asLong (r.off + 7) = .stuck := if_neg fun h => hup h.2
    have hsum : ¬aligned r.off + size < 2 ^ 63 := by unfold aligned; omega
    rw [hstuck, if_neg hsum]
    rfl

end Region

namespace RegionOp

variable {r : Region} {op : RegionOp} {h h' : RegionHistory}

structure Sound (r : Region) : Prop where
  off_nonneg : 0 ≤ r.off
  off_le : r.off ≤ r.cap
  cap_lt : r.cap < 2 ^ 63

/-- A call that carves `n` bytes. -/
def carve (r : Region) (n : ℤ) : Res (Option (ℤ × ℤ) × Region) := do
  let (p, r) ← r.allocBytes n
  pure (some (p, n), r)

theorem carve_behaves (hr : Sound r) {n : ℤ} (hn : 0 ≤ n) :
    carve r n = (if Region.aligned r.off + n ≤ r.cap then
        Res.ok (some (Region.aligned r.off, n), { r with off := Region.aligned r.off + n })
      else .fail) ↔ Region.aligned r.off + n < 2 ^ 63 := by
  have hcap := hr.cap_lt
  have hlt : r.off < 2 ^ 63 := lt_of_le_of_lt hr.off_le hcap
  unfold carve
  rw [Region.allocBytes_eq hr.off_nonneg hlt hn]
  by_cases hsum : Region.aligned r.off + n < 2 ^ 63
  · refine iff_of_true ?_ hsum
    rw [if_pos hsum]
    split <;> rfl
  · refine iff_of_false ?_ hsum
    rw [if_neg hsum, if_neg (by omega)]
    intro heq
    cases heq

theorem run_str (r : Region) (src : StrBytes) : (str src).run r = carve r src.len := by
  have hle : 0 + src.len ≤ (src.bytes.length : ℤ) := Int.le_of_eq (Int.zero_add _)
  have hlen := length_bytesAt (Int.le_refl 0) src.len_nonneg hle
  unfold run Region.str carve
  dsimp only
  cases r.allocBytes src.len with
  | ok q =>
    rw [ok_bind, bytecopy_ok (Int.le_refl 0) src.len_nonneg hle]
    show Res.ok (some (q.1, ((bytesAt src.bytes 0 src.len).length : ℤ)), q.2) = _
    rw [hlen]
    rfl
  | fail => rfl
  | stuck => rfl

theorem run_strSubstr (r : Region) (src : StrBytes) (start len : Int32) :
    (strSubstr src start len).run r =
      (asInt (clampedStart src.len start.toInt + max len.toInt 0) >>= fun _ =>
        carve r (clampedLen src.len start.toInt len.toInt)) := by
  unfold run Region.strSubstr
  dsimp only
  rw [clamp_eq src.len_nonneg]
  cases asInt (clampedStart src.len start.toInt + max len.toInt 0) with
  | ok x =>
    rw [ok_bind, ok_bind]
    show ((r.allocBytes (clampedLen src.len start.toInt len.toInt) >>= _) >>= _) = _
    unfold carve
    cases r.allocBytes (clampedLen src.len start.toInt len.toInt) with
    | ok q =>
      dsimp only
      rw [ok_bind, src.copy_clamped]
      show Res.ok (some (q.1, _), q.2) = _
      rw [src.length_clamped]
      rfl
    | fail => rfl
    | stuck => rfl
  | fail => rfl
  | stuck => rfl

theorem behaves_iff (hr : Sound r) (hop : op.Given) : op.Behaves r ↔ op.InRange r := by
  unfold Behaves InRange
  cases op with
  | allocBytes size => exact carve_behaves hr hop.1
  | str src =>
    rw [run_str]
    exact carve_behaves hr src.len_nonneg
  | strSubstr src start len =>
    have hsum : 0 ≤ clampedStart src.len start.toInt + max len.toInt 0 :=
      Int.add_nonneg (clampedStart_nonneg src.len_nonneg) (le_max_right _ _)
    rw [run_strSubstr]
    by_cases hint : clampedStart src.len start.toInt + max len.toInt 0 < 2 ^ 31
    · rw [asInt_eq (by omega) hint, ok_bind]
      exact (carve_behaves hr clampedLen_nonneg).trans (iff_and_self.2 fun _ => hint)
    · have hstuck : asInt (clampedStart src.len start.toInt + max len.toInt 0) = .stuck := if_neg fun h => hint h.2
      refine iff_of_false ?_ fun h => hint h.1
      rw [hstuck]
      unfold size
      dsimp only
      split <;> exact fun heq => by cases heq
  | reset => exact iff_of_true rfl trivial

structure Carved (cap : ℤ) (h : RegionHistory) : Prop where
  sound : Sound h.region
  cap : h.region.cap = cap
  inside : ∀ s ∈ h.slices, 8 ∣ s.1 ∧ 0 ≤ s.1 ∧ 0 ≤ s.2 ∧ s.1 + s.2 ≤ h.region.off
  order : h.slices.Pairwise fun s t => t.1 + t.2 ≤ s.1

theorem Carved.carve {cap n : ℤ} (hc : Carved cap h) (hn : 0 ≤ n) {s : Option (ℤ × ℤ)}
    (hcall : RegionOp.carve h.region n = .ok (s, r)) : Carved cap ⟨r, s.elim [] (· :: h.slices)⟩ := by
  have hle := Region.le_aligned h.region.off
  have hoff := hc.sound.off_nonneg
  have hlt : h.region.off < 2 ^ 63 := lt_of_le_of_lt hc.sound.off_le hc.sound.cap_lt
  unfold RegionOp.carve at hcall
  rw [Region.allocBytes_eq hoff hlt hn] at hcall
  split at hcall
  · split at hcall
    · next hfit =>
      cases hcall
      refine ⟨⟨?_, hfit, hc.sound.cap_lt⟩, hc.cap, ?_, ?_⟩
      · grind
      · intro s hs
        rcases List.mem_cons.1 hs with rfl | hs
        · exact ⟨Region.aligned_dvd _, by dsimp only; omega, hn, Int.le_refl _⟩
        · obtain ⟨hdvd, h0, hsize, hend⟩ := hc.inside s hs
          grind
      · refine List.pairwise_cons.2 ⟨fun t ht => ?_, hc.order⟩
        have hend := (hc.inside t ht).2.2.2
        grind
    · cases hcall
  · cases hcall

theorem Carved.step {cap : ℤ} (hc : Carved cap h) (hs : Step h op h') : Carved cap h' := by
  obtain ⟨hop, s, r, hcall, rfl⟩ := hs
  cases op with
  | allocBytes size => exact hc.carve hop.1 hcall
  | str src =>
    rw [run_str] at hcall
    exact hc.carve src.len_nonneg hcall
  | strSubstr src start len =>
    rw [run_strSubstr] at hcall
    obtain ⟨_, _, hcarve⟩ := bind_ok hcall
    exact hc.carve clampedLen_nonneg hcarve
  | reset =>
    cases hcall
    exact ⟨⟨Int.le_refl 0, le_trans hc.sound.off_nonneg hc.sound.off_le, hc.sound.cap_lt⟩, hc.cap,
      fun s hs => absurd hs List.not_mem_nil, .nil⟩

/-- In every run the slices are aligned, inside the block and apart from each other, and the next call does what it is
meant to do if and only if its sums are in range. -/
theorem region_slices_apart (cap : ℤ) (hpos : 0 < cap) (hlt : cap < 2 ^ 63) (ops : List RegionOp) (h : RegionHistory)
    (hrun : Run Step ⟨Region.reserve cap, []⟩ ops h) :
    (∀ s ∈ h.slices, 8 ∣ s.1 ∧ 0 ≤ s.1 ∧ 0 ≤ s.2 ∧ s.1 + s.2 ≤ cap) ∧
    h.slices.Pairwise (fun s t => Disjoint (Set.Ico s.1 (s.1 + s.2)) (Set.Ico t.1 (t.1 + t.2))) ∧
    ∀ op : RegionOp, op.Given → (op.Behaves h.region ↔ op.InRange h.region) := by
  have hstart : Carved cap ⟨Region.reserve cap, []⟩ :=
    ⟨⟨Int.le_refl 0, hpos.le, hlt⟩, rfl, fun s hs => absurd hs List.not_mem_nil, .nil⟩
  have hc : Carved cap h := hrun.invariant (I := fun _ => Carved cap) hstart fun _ _ _ _ hi hs => hi.step hs
  refine ⟨fun s hs => ?_, ?_, fun op hop => behaves_iff hc.sound hop⟩
  · obtain ⟨hdvd, h0, hsize, hend⟩ := hc.inside s hs
    have hoff := hc.sound.off_le
    rw [hc.cap] at hoff
    exact ⟨hdvd, h0, hsize, hend.trans hoff⟩
  · refine hc.order.imp fun {s t} hst => ?_
    exact Set.Ico_disjoint_Ico.2 (le_trans (min_le_right _ _) (le_trans hst (le_max_left _ _)))

/-- Three slices of a block of 32 bytes: 5 bytes, the string `abc`, and what `substr` takes of it from 1 on. -/
def threeSlices : RegionHistory := ⟨⟨18, 32⟩, [(16, 2), (8, 3), (0, 5)]⟩

theorem threeSlices_run : Run Step ⟨Region.reserve 32, []⟩
    [.allocBytes 5, .str ⟨[97, 98, 99], by decide⟩, .strSubstr ⟨[97, 98, 99], by decide⟩ 1 10] threeSlices := by
  have h₁ : Step ⟨Region.reserve 32, []⟩ (.allocBytes 5) ⟨⟨5, 32⟩, [(0, 5)]⟩ :=
    ⟨⟨by decide, by decide⟩, some (0, 5), ⟨5, 32⟩, rfl, rfl⟩
  have h₂ : Step ⟨⟨5, 32⟩, [(0, 5)]⟩ (.str ⟨[97, 98, 99], by decide⟩) ⟨⟨11, 32⟩, [(8, 3), (0, 5)]⟩ :=
    ⟨trivial, some (8, 3), ⟨11, 32⟩, rfl, rfl⟩
  have h₃ : Step ⟨⟨11, 32⟩, [(8, 3), (0, 5)]⟩ (.strSubstr ⟨[97, 98, 99], by decide⟩ 1 10) threeSlices :=
    ⟨trivial, some (16, 2), ⟨18, 32⟩, rfl, rfl⟩
  exact ((Run.refl.snoc h₁).snoc h₂).snoc h₃

theorem region_slices_apart_three :
    (∀ s ∈ threeSlices.slices, 8 ∣ s.1 ∧ 0 ≤ s.1 ∧ 0 ≤ s.2 ∧ s.1 + s.2 ≤ 32) ∧
    threeSlices.slices.Pairwise (fun s t => Disjoint (Set.Ico s.1 (s.1 + s.2)) (Set.Ico t.1 (t.1 + t.2))) ∧
    ∀ op : RegionOp, op.Given → (op.Behaves threeSlices.region ↔ op.InRange threeSlices.region) :=
  region_slices_apart 32 (by decide) (by decide) _ threeSlices threeSlices_run

/-- A request of 2^63 - 1 bytes behind 8 others does not abort: the sum overflows, and wrapped around it is less than the
capacity. -/
theorem region_overflows : Run Step ⟨Region.reserve 16, []⟩ [.allocBytes 8] ⟨⟨8, 16⟩, [(0, 8)]⟩ ∧
    (allocBytes (2 ^ 63 - 1)).Given ∧ 16 < Region.aligned 8 + (2 ^ 63 - 1) ∧
    (allocBytes (2 ^ 63 - 1)).run ⟨8, 16⟩ = .stuck ∧ Int.bmod (Region.aligned 8 + (2 ^ 63 - 1)) (2 ^ 64) ≤ 16 :=
  ⟨.single ⟨⟨by decide, by decide⟩, some (0, 8), ⟨8, 16⟩, rfl, rfl⟩, ⟨by decide, by decide⟩, by decide, rfl, by decide⟩

end RegionOp

/-! The four clamps. -/

/-- The range between `start` and `start + len`, as far as there are bytes. -/
structure Selects (t : StrBytes) (start len : Int32) (s l : ℤ) : Prop where
  inside : 0 ≤ s ∧ 0 ≤ l ∧ s + l ≤ t.len
  substr : t.substr start len = .ok (bytesAt t.bytes s l)
  subslice : t.subslice start len = .ok ⟨s, l⟩
  sub : ∀ ptr, StrSlice.sub ⟨ptr, t.len⟩ start len = .ok ⟨ptr + s, l⟩
  strSubstr : ∀ r : Region, r.strSubstr t start len =
    (r.allocBytes l >>= fun q => .ok ((q.1, bytesAt t.bytes s l), q.2))

theorem selects_of_clamp {t : StrBytes} {start len : Int32}
    (hint : clampedStart t.len start.toInt + max len.toInt 0 < 2 ^ 31)
    (hroom : clampedLen t.len start.toInt len.toInt ≤ 2 ^ 30) :
    Selects t start len (clampedStart t.len start.toInt) (clampedLen t.len start.toInt len.toInt) := by
  have hclamp := clamp_ok t.len_nonneg hint
  obtain ⟨g, hg⟩ := strReserve_zero.2 hroom
  refine ⟨⟨clampedStart_nonneg t.len_nonneg, clampedLen_nonneg, clamped_le⟩, ?_, ?_, fun ptr => ?_, fun r => ?_⟩
  · unfold StrBytes.substr
    rw [hclamp, ok_bind]
    dsimp only
    rw [hg, ok_bind, t.copy_clamped]
  · unfold StrBytes.subslice
    rw [hclamp]
    rfl
  · unfold StrSlice.sub
    rw [hclamp]
    rfl
  · unfold Region.strSubstr
    rw [hclamp, ok_bind]
    dsimp only
    cases r.allocBytes (clampedLen t.len start.toInt len.toInt) with
    | ok q =>
      rw [ok_bind, ok_bind, t.copy_clamped]
      rfl
    | fail => rfl
    | stuck => rfl

/-- The four copies select the clamped range if and only if the clamped start and the length add up to an `int`, and
`Str.substr` is given room for the range. -/
theorem clamps_agree_iff (t : StrBytes) (start len : Int32) :
    Selects t start len (min (max start.toInt 0) t.len)
        (min (max len.toInt 0) (t.len - min (max start.toInt 0) t.len)) ↔
      min (max start.toInt 0) t.len + max len.toInt 0 < 2 ^ 31 ∧
        min (max len.toInt 0) (t.len - min (max start.toInt 0) t.len) ≤ 2 ^ 30 := by
  constructor
  · intro h
    have hsubstr := h.substr
    unfold StrBytes.substr at hsubstr
    by_cases hint : clampedStart t.len start.toInt + max len.toInt 0 < 2 ^ 31
    · rw [clamp_ok t.len_nonneg hint, ok_bind] at hsubstr
      obtain ⟨g, hg, -⟩ := bind_ok hsubstr
      exact ⟨hint, strReserve_zero.1 ⟨g, hg⟩⟩
    · rw [clamp_stuck t.len_nonneg hint] at hsubstr
      cases hsubstr
  · rintro ⟨hint, hroom⟩
    exact selects_of_clamp hint hroom

/-- The rest of a string from 1 on, with a huge length: the sum overflows. -/
theorem clamps_overflow : ¬Selects ⟨[97], by decide⟩ 1 2147483647 1 0 := by
  intro h
  have hstuck : StrBytes.subslice ⟨[97], by decide⟩ 1 2147483647 = .stuck := rfl
  have hsubslice := h.subslice
  rw [hstuck] at hsubslice
  cases hsubslice

end LsLang.Mem
