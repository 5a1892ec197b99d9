import LsLang.Core.Growth
import LsLang.Oran.Wire
import Mathlib.Data.List.Range

/-! The resource blocks that a mask of block groups selects. -/

namespace LsLang.Oran

open LsLang.Core LsLang.Undefined LsLang.Undefined.Res

/-- `ceil_div` -/
def ceilDiv (a b : ℤ) : Res ℤ := do
  let s ← asInt (a + b)
  let s ← asInt (s - 1)
  pure (s.tdiv b)

/-- `out.push(lo + j)` -/
def pushPrb (lo : ℤ) (j : ℕ) (out : List ℤ) : Res (List ℤ) := do
  let p ← asInt (lo + j)
  pure (out ++ [p])

/-- Where the blocks of the group `n` begin, and how many there are. -/
def groupRun (startPrbc numPrbc rbgSize last f0 flast : ℤ) (n : ℕ) : Res (ℤ × ℤ) :=
  if (n : ℤ) = 0 then pure (startPrbc, f0)
  else if (n : ℤ) = last then do
    let stop ← asInt (startPrbc + numPrbc)
    let lo ← asInt (stop - flast)
    pure (lo, flast)
  else do
    let second ← asInt (startPrbc + f0)
    let before ← asInt (n - 1)
    let skipped ← asInt (before * rbgSize)
    let lo ← asInt (second + skipped)
    pure (lo, rbgSize)

/-- The turn of the group `n`. -/
def pushGroup (startPrbc numPrbc rbgSize rbgMask last f0 flast : ℤ) (n : ℕ) (out : List ℤ) : Res (List ℤ) :=
  if shr rbgMask n % 2 ≠ 0 then do
    let (lo, cnt) ← groupRun startPrbc numPrbc rbgSize last f0 flast n
    forFrom (pushPrb lo) 0 cnt.toNat out
  else pure out

def rbgToPrbs (startPrbc numPrbc rbgSize rbgMask : ℤ) : Res (List ℤ) :=
  if rbgSize ≤ 0 then pure []
  else do
    let off0 := startPrbc.tmod rbgSize
    let total ← asInt (numPrbc + off0)
    let groups ← ceilDiv total rbgSize
    let last ← asInt (groups - 1)
    let f0 ← asInt (rbgSize - off0)
    let stop ← asInt (startPrbc + numPrbc)
    let flast := if stop.tmod rbgSize = 0 then rbgSize else stop.tmod rbgSize
    let turns ← asInt (last + 1)
    forFrom (pushGroup startPrbc numPrbc rbgSize rbgMask last f0 flast) 0 turns.toNat []

/-- A section's blocks `[start, start + num)`, its groups and the mask, of at most 28 groups. -/
structure RbgSection where
  start : ℤ
  num : ℤ
  size : ℤ
  mask : ℕ
  start_nonneg : 0 ≤ start
  start_lt : start < 2 ^ 31
  one_le_num : 1 ≤ num
  num_lt : num < 2 ^ 31
  one_le_size : 1 ≤ size
  size_lt : size < 2 ^ 31
  mask_lt : mask < 2 ^ 28
  groups_le : (start % size + num - 1) / size < 28

namespace RbgSection

variable (s : RbgSection)

def group (p : ℤ) : ℤ := p / s.size - s.start / s.size

def last : ℤ := (s.start % s.size + s.num - 1) / s.size

/-- The blocks of the selected groups, in increasing order. -/
structure Selects (out : List ℤ) : Prop where
  sorted : out.Pairwise (· < ·)
  mem_iff : ∀ p, p ∈ out ↔ s.start ≤ p ∧ p < s.start + s.num ∧ s.mask.testBit (s.group p).toNat

/-- The sums do not overflow, and if the first group is selected, the section reaches its end. -/
structure Proper : Prop where
  stop : s.start + s.num < 2 ^ 31
  round : s.start % s.size + s.num + s.size < 2 ^ 31
  first : s.mask.testBit 0 → s.size ≤ s.start % s.size + s.num

end RbgSection

/-- `cnt` blocks from `lo` on. -/
def prbRun (lo : ℤ) (cnt : ℕ) : List ℤ := (List.range cnt).map fun j : ℕ => lo + j

theorem mem_prbRun {lo p : ℤ} {cnt : ℕ} : p ∈ prbRun lo cnt ↔ lo ≤ p ∧ p < lo + cnt := by
  unfold prbRun
  rw [List.mem_map]
  constructor
  · grind
  · rintro ⟨h0, h1⟩
    exact ⟨(p - lo).toNat, List.mem_range.2 (by omega), by omega⟩

theorem sorted_prbRun (lo : ℤ) (cnt : ℕ) : (prbRun lo cnt).Pairwise (· < ·) := by
  refine List.pairwise_map.2 (List.pairwise_lt_range.imp fun {i j} hij => ?_)
  omega

theorem prbRun_succ (lo : ℤ) (cnt : ℕ) : prbRun lo (cnt + 1) = prbRun lo cnt ++ [lo + cnt] := by
  unfold prbRun
  rw [List.range_succ, List.map_append]
  rfl

theorem pushRun_ok {lo : ℤ} {cnt : ℕ} {out out' : List ℤ} (h : forFrom (pushPrb lo) 0 cnt out = .ok out') :
    out' = out ++ prbRun lo cnt := by
  induction cnt generalizing out' with
  | zero =>
    cases h
    exact (List.append_nil out).symm
  | succ cnt ih =>
    rw [forFrom_snoc] at h
    obtain ⟨mid, hmid, hlast⟩ := Res.bind_ok h
    obtain ⟨p, hp, hpush⟩ := Res.bind_ok hlast
    obtain ⟨rfl, -⟩ := asInt_ok hp
    cases hpush
    rw [ih hmid, prbRun_succ, List.append_assoc, Nat.zero_add]

theorem pushRun_yields {a : ℤ} {k : ℕ} (hl : 0 ≤ a) (hu : a + k ≤ 2 ^ 31) (out : List ℤ) :
    (forFrom (pushPrb a) 0 k out).Yields (· = out ++ prbRun a k) := by
  have hloop := forFrom_yields (b := pushPrb a) (I := fun j mid => mid = out ++ prbRun a j) (i := 0) (n := k)
    (s := out) ?_ (List.append_nil out).symm
  · rwa [Nat.zero_add] at hloop
  · rintro j mid - hj rfl
    unfold pushPrb
    rw [asInt_eq (by omega) (by omega), ok_bind]
    exact yields_pure.2 (by rw [prbRun_succ, List.append_assoc])

namespace RbgSection

variable {s : RbgSection} {n : ℕ} {p : ℤ} {out : List ℤ}

/-! ### The groups -/

theorem start_eq (s : RbgSection) : s.start / s.size * s.size + s.start % s.size = s.start :=
  Int.ediv_mul_add_emod s.start s.size

theorem offset_bounds (s : RbgSection) : 0 ≤ s.start % s.size ∧ s.start % s.size < s.size :=
  ⟨Int.emod_nonneg _ (by have := s.one_le_size; omega), Int.emod_lt_of_pos _ s.one_le_size⟩

theorem last_bounds (s : RbgSection) :
    s.last * s.size ≤ s.start % s.size + s.num - 1 ∧ s.start % s.size + s.num - 1 < s.last * s.size + s.size := by
  have hdiv := Int.ediv_mul_add_emod (s.start % s.size + s.num - 1) s.size
  have h0 := Int.emod_nonneg (s.start % s.size + s.num - 1) (b := s.size) (by have := s.one_le_size; omega)
  have hlt := Int.emod_lt_of_pos (s.start % s.size + s.num - 1) s.one_le_size
  unfold last
  omega

theorem last_nonneg (s : RbgSection) : 0 ≤ s.last := by
  have hoff := s.offset_bounds
  have hnum := s.one_le_num
  exact Int.ediv_nonneg (by omega) (by grind)

theorem group_eq_iff {k : ℤ} :
    s.group p = k ↔ s.start / s.size * s.size + k * s.size ≤ p ∧
      p < s.start / s.size * s.size + k * s.size + s.size := by
  have hsize := s.one_le_size
  have hlow : k + s.start / s.size ≤ p / s.size ↔ (k + s.start / s.size) * s.size ≤ p :=
    Int.le_ediv_iff_mul_le (by omega)
  have hhigh : p / s.size < k + s.start / s.size + 1 ↔ p < (k + s.start / s.size + 1) * s.size :=
    Int.ediv_lt_iff_lt_mul (by omega)
  rw [add_mul] at hlow
  rw [add_mul, add_mul, one_mul] at hhigh
  unfold group
  omega

theorem group_nonneg (h : s.start ≤ p) : 0 ≤ s.group p :=
  Int.sub_nonneg_of_le (Int.ediv_le_ediv (by have := s.one_le_size; omega) h)

theorem group_le_last (h : p < s.start + s.num) : s.group p ≤ s.last := by
  have hsize := s.one_le_size
  have hstart := s.start_eq
  have hlast := s.last_bounds
  have hlt : p / s.size < s.start / s.size + s.last + 1 := by
    rw [Int.ediv_lt_iff_lt_mul (by omega), add_mul, add_mul, one_mul]
    omega
  unfold group
  omega

/-! ### One group -/

theorem flast_eq (s : RbgSection) :
    (if (s.start + s.num).tmod s.size = 0 then s.size else (s.start + s.num).tmod s.size) =
      s.start % s.size + s.num - s.last * s.size := by
  have hsize := s.one_le_size
  have h0 := s.start_nonneg
  have hnum := s.one_le_num
  have hstart := s.start_eq
  have hlast := s.last_bounds
  have hmod : (s.start + s.num).tmod s.size = (s.start % s.size + s.num - s.last * s.size) % s.size := by
    rw [Int.tmod_eq_emod_of_nonneg (by omega)]
    have hsum : s.start + s.num = s.start % s.size + s.num - s.last * s.size +
        (s.start / s.size + s.last) * s.size := by
      rw [add_mul]
      omega
    conv_lhs => rw [hsum]
    exact Int.add_mul_emod_self_right _ _ _
  rw [hmod]
  by_cases hfull : s.start % s.size + s.num - s.last * s.size = s.size
  · rw [hfull, Int.emod_self, if_pos rfl]
  · rw [Int.emod_eq_of_lt (by omega) (by omega), if_neg (by omega)]

/-- The blocks `[lo, lo + cnt)` are those of the group `n`. -/
structure IsRun (s : RbgSection) (n : ℕ) (lo cnt : ℤ) : Prop where
  nonneg : 0 ≤ cnt
  mem_iff : ∀ p, lo ≤ p ∧ p < lo + cnt ↔ s.start ≤ p ∧ p < s.start + s.num ∧ s.group p = n
  start_le : s.start ≤ lo
  le_stop : lo + cnt ≤ s.start + s.num

theorem groupRun_yields (h : s.Proper) (hbit : s.mask.testBit n) (hn : (n : ℤ) ≤ s.last) :
    (groupRun s.start s.num s.size s.last (s.size - s.start % s.size)
      (s.start % s.size + s.num - s.last * s.size) n).Yields fun run => s.IsRun n run.1 run.2 := by
  have hsize := s.one_le_size
  have hsize31 := s.size_lt
  have h0 := s.start_nonneg
  have hnum := s.one_le_num
  have hstart := s.start_eq
  have hlast := s.last_bounds
  have hoff := s.offset_bounds
  have hstop := h.stop
  have hg : 0 ≤ s.start / s.size * s.size :=
    mul_nonneg (Int.ediv_nonneg h0 (by omega)) (by omega)
  unfold groupRun
  -- the first group may be cut in front, the last one behind; the others are whole
  split
  · next hzero =>
    have hn0 : n = 0 := by omega
    subst hn0
    have hfirst := h.first hbit
    refine yields_pure.2 ⟨by dsimp only; omega, fun p => ?_, le_rfl, by dsimp only; omega⟩
    rw [group_eq_iff]
    grind
  · next hpos =>
    have hone : (1 : ℤ) * s.size ≤ n * s.size := mul_le_mul_of_nonneg_right (by omega) (by omega)
    rw [one_mul] at hone
    split
    · next hend =>
      rw [← hend] at hlast ⊢
      rw [asInt_eq (by omega) hstop, ok_bind, asInt_eq (by omega) (by omega), ok_bind]
      refine yields_pure.2 ⟨by dsimp only; omega, fun p => ?_, by dsimp only; omega, by dsimp only; omega⟩
      rw [group_eq_iff]
      dsimp only
      omega
    · next hmid =>
      have hbefore : ((n : ℤ) + 1) * s.size ≤ s.last * s.size :=
        mul_le_mul_of_nonneg_right (by omega) (by omega)
      have hskip : ((n : ℤ) - 1) * s.size = n * s.size - s.size := by rw [sub_mul, one_mul]
      rw [add_mul, one_mul] at hbefore
      have hn28 : (n : ℤ) < 2 ^ 31 := by
        have := s.groups_le
        change s.last < 28 at this
        omega
      rw [asInt_eq (by omega) (by omega), ok_bind, asInt_eq (by omega) (by omega), ok_bind, hskip,
        asInt_eq (by omega) (by omega), ok_bind, asInt_eq (by omega) (by omega), ok_bind]
      refine yields_pure.2 ⟨by dsimp only; omega, fun p => ?_, by dsimp only; omega, by dsimp only; omega⟩
      rw [group_eq_iff]
      dsimp only
      omega

theorem bit_iff (hn : n < 32) : shr s.mask n % 2 ≠ 0 ↔ s.mask.testBit n := by
  have hshift : (((n : ℤ) % 32).toNat) = n := by omega
  unfold shr
  rw [hshift, Nat.testBit_eq_decide_div_mod_eq, decide_eq_true_iff]
  grind

/-! ### The loop -/

/-- The blocks of the selected groups below `n`. -/
structure Picked (s : RbgSection) (n : ℕ) (out : List ℤ) : Prop where
  sorted : out.Pairwise (· < ·)
  mem_iff : ∀ p, p ∈ out ↔
    s.start ≤ p ∧ p < s.start + s.num ∧ s.group p < n ∧ s.mask.testBit (s.group p).toNat

theorem Picked.init : s.Picked 0 [] := by
  refine ⟨.nil, fun p => iff_of_false List.not_mem_nil ?_⟩
  rintro ⟨h0, -, hlt, -⟩
  have := group_nonneg h0
  omega

theorem Picked.skip (h : s.Picked n out) (hbit : ¬ s.mask.testBit n) : s.Picked (n + 1) out := by
  refine ⟨h.sorted, fun p => (h.mem_iff p).trans ?_⟩
  grind

theorem Picked.push (h : s.Picked n out) (hbit : s.mask.testBit n) {lo cnt : ℤ} (hrun : s.IsRun n lo cnt) :
    s.Picked (n + 1) (out ++ prbRun lo cnt.toNat) := by
  have hcnt := hrun.nonneg
  have hmem : ∀ p, p ∈ prbRun lo cnt.toNat ↔ s.start ≤ p ∧ p < s.start + s.num ∧ s.group p = n := by
    intro p
    rw [mem_prbRun, ← hrun.mem_iff p]
    omega
  refine ⟨List.pairwise_append.2 ⟨h.sorted, sorted_prbRun _ _, fun p hp q hq => ?_⟩, fun p => ?_⟩
  · have hp' := ((h.mem_iff p).1 hp).2.2.1
    have hq' := ((hmem q).1 hq).2.2
    by_contra hle
    have : s.group q ≤ s.group p :=
      Int.sub_le_sub_right (Int.ediv_le_ediv (by have := s.one_le_size; omega) (not_lt.1 hle)) _
    omega
  · rw [List.mem_append, h.mem_iff, hmem]
    constructor
    · grind
    · grind

theorem pushGroup_picked (hproper : s.Proper) (hn : (n : ℤ) ≤ s.last) (h : s.Picked n out) :
    (pushGroup s.start s.num s.size s.mask s.last (s.size - s.start % s.size)
      (s.start % s.size + s.num - s.last * s.size) n out).Yields (s.Picked (n + 1)) := by
  have hlast : s.last < 28 := s.groups_le
  unfold pushGroup
  split
  · next hset =>
    have hbit := (bit_iff (by omega)).1 hset
    refine (groupRun_yields hproper hbit hn).bind ?_
    rintro ⟨lo, cnt⟩ hrun
    have h0 := s.start_nonneg
    have hle := hrun.start_le
    have hstop := hrun.le_stop
    have hcnt := hrun.nonneg
    have hlt := hproper.stop
    dsimp only at hle hstop hcnt
    refine (pushRun_yields (a := lo) (k := cnt.toNat) (by omega) (by omega) out).mono ?_
    rintro _ rfl
    exact h.push hbit hrun
  · next hclear => exact yields_pure.2 (h.skip fun hbit => hclear ((bit_iff (by omega)).2 hbit))

/-! ### The whole call -/

theorem rbgToPrbs_eq (hstop : s.start + s.num < 2 ^ 31) (hround : s.start % s.size + s.num + s.size < 2 ^ 31) :
    rbgToPrbs s.start s.num s.size s.mask =
      forFrom (pushGroup s.start s.num s.size s.mask s.last (s.size - s.start % s.size)
        (s.start % s.size + s.num - s.last * s.size)) 0 (s.last + 1).toNat [] := by
  have hsize := s.one_le_size
  have hsize31 := s.size_lt
  have h0 := s.start_nonneg
  have hnum := s.one_le_num
  have hoff := s.offset_bounds
  have hlast0 := s.last_nonneg
  have hlast : s.last < 28 := s.groups_le
  have hdiv : (s.num + s.start % s.size + s.size - 1).tdiv s.size = s.last + 1 := by
    have hshape : s.num + s.start % s.size + s.size - 1 = s.start % s.size + s.num - 1 + 1 * s.size := by omega
    rw [Int.tdiv_eq_ediv_of_nonneg (by omega), hshape, Int.add_mul_ediv_right _ _ (by omega)]
    rfl
  unfold rbgToPrbs ceilDiv
  rw [if_neg (by omega), Int.tmod_eq_emod_of_nonneg h0]
  dsimp only
  rw [asInt_eq (by omega) (by omega), ok_bind, asInt_eq (by omega) (by omega), ok_bind,
    asInt_eq (by omega) (by omega), ok_bind, hdiv, pure_eq, ok_bind, add_sub_cancel_right,
    asInt_eq (by omega) (by omega), ok_bind, asInt_eq (by omega) (by omega), ok_bind,
    asInt_eq (by omega) hstop, ok_bind, asInt_eq (by omega) (by omega), ok_bind, s.flast_eq]

theorem Proper.selects (h : s.Proper) : (rbgToPrbs s.start s.num s.size s.mask).Yields s.Selects := by
  have hlast0 := s.last_nonneg
  rw [rbgToPrbs_eq h.stop h.round]
  refine (forFrom_yields (I := s.Picked) (fun n out _ hn hout => ?_) Picked.init).mono fun out hout => ?_
  · exact pushGroup_picked h (by omega) hout
  · refine ⟨hout.sorted, fun p => (hout.mem_iff p).trans ?_⟩
    refine and_congr_right fun _ => and_congr_right fun hlt => and_iff_right_of_imp fun _ => ?_
    have := group_le_last hlt
    omega

theorem first_whole (hstop : s.start + s.num < 2 ^ 31) (hround : s.start % s.size + s.num + s.size < 2 ^ 31)
    (hbit : s.mask.testBit 0) (hshort : s.start % s.size + s.num < s.size)
    (h : rbgToPrbs s.start s.num s.size s.mask = .ok out) : s.start + s.num ∈ out := by
  have hoff := s.offset_bounds
  have hnum := s.one_le_num
  have hlast : s.last = 0 := Int.ediv_eq_zero_of_lt (by omega) (by omega)
  rw [rbgToPrbs_eq hstop hround, hlast] at h
  obtain ⟨mid, hmid, hrest⟩ := Res.bind_ok h
  cases hrest
  unfold pushGroup at hmid
  rw [if_pos ((bit_iff (by decide)).2 hbit)] at hmid
  have hrun : groupRun s.start s.num s.size 0 (s.size - s.start % s.size)
      (s.start % s.size + s.num - 0 * s.size) 0 = .ok (s.start, s.size - s.start % s.size) := if_pos rfl
  rw [hrun, ok_bind] at hmid
  rw [pushRun_ok hmid, List.nil_append, mem_prbRun]
  omega

/-- The mask selects the blocks of its groups exactly if nothing overflows and a selected first group is filled. -/
theorem rbg_selects_iff (s : RbgSection) : (rbgToPrbs s.start s.num s.size s.mask).Yields s.Selects ↔ s.Proper := by
  constructor
  · rintro ⟨out, hout, hsel⟩
    have hsize := s.one_le_size
    have hrun := hout
    unfold rbgToPrbs ceilDiv at hrun
    rw [if_neg (by omega), Int.tmod_eq_emod_of_nonneg s.start_nonneg] at hrun
    obtain ⟨total, htotal, hrun⟩ := Res.bind_ok hrun
    obtain ⟨rfl, -⟩ := asInt_ok htotal
    obtain ⟨groups, hgroups, hrun⟩ := Res.bind_ok hrun
    obtain ⟨sum, hsum, -⟩ := Res.bind_ok hgroups
    obtain ⟨-, hround⟩ := asInt_ok hsum
    obtain ⟨last, -, hrun⟩ := Res.bind_ok hrun
    obtain ⟨f0, -, hrun⟩ := Res.bind_ok hrun
    obtain ⟨stop, hstop, -⟩ := Res.bind_ok hrun
    obtain ⟨-, hstop⟩ := asInt_ok hstop
    refine ⟨hstop, by omega, fun hbit => ?_⟩
    by_contra hshort
    have hmem := first_whole hstop (by omega) hbit (by omega) hout
    have := ((hsel.mem_iff _).1 hmem).2.1
    omega
  · exact Proper.selects

def oneOfFour : RbgSection :=
  ⟨0, 1, 4, 1, by decide, by decide, by decide, by decide, by decide, by decide, by decide, by decide⟩

/-- The other blocks of its group are selected too. -/
theorem rbg_not_selects :
    ¬ ∀ s : RbgSection, (rbgToPrbs s.start s.num s.size s.mask).Yields s.Selects := by
  intro h
  obtain ⟨out, hout, hsel⟩ := h oneOfFour
  have hrun : rbgToPrbs oneOfFour.start oneOfFour.num oneOfFour.size oneOfFour.mask = .ok [0, 1, 2, 3] := rfl
  rw [hrun] at hout
  cases hout
  exact absurd ((hsel.mem_iff 3).1 (by decide)).2.1 (by decide)

end RbgSection

end LsLang.Oran
