import LsLang.Core.Growth
import LsLang.Core.Str
import LsLang.Lib.Numeral
import LsLang.Lib.Total

/-! The printers of integers: `_to_base` of `std.text.strconv`, the methods of `Sink`, and the `itoa` of the
simulator. -/

namespace LsLang.Text

open LsLang.Core LsLang.Lib LsLang.Undefined

/-! ### The printers

The loops are given as many turns as they may take. -/

section Signed

-- a difference in the type of the result: undefined where it overflows, or wrapped
variable (arith : ℤ → Res ℤ)

/-- `if neg { n = 0 - n }` -/
def negated (neg : Bool) (n : ℤ) : Res ℤ := if neg then arith (0 - n) else .ok n

/-- `while n > 0` of `_to_base`, which collects the digits backwards. -/
def toBaseLoop (base : ℤ) : ℕ → ℤ → Str → Res Str
  | turns, n, rev =>
    if n > 0 then
      match turns with
      | 0 => .stuck
      | turns + 1 =>
        let d := n.tmod base
        let ch := if d ≥ 10 then 87 + d else 48 + d
        toBaseLoop base turns (n.tdiv base) (rev ++ [byteOf ch])
    else .ok rev

/-- `_to_base` -/
def toBase (turns : ℕ) (n base : ℤ) : Res Str :=
  if n = 0 then .ok [48]
  else do
    let neg := decide (n < 0)
    let n ← negated arith neg n
    let rev ← toBaseLoop base turns n []
    let out : Str := if neg then [45] else []
    .ok (out ++ rev.reverse)

/-- `while v > 0` of `itoa`, which puts each digit in front. -/
def itoaLoop : ℕ → ℤ → Str → Res Str
  | turns, v, out =>
    if v > 0 then
      match turns with
      | 0 => .stuck
      | turns + 1 =>
        let d := v.tmod 10
        itoaLoop turns (v.tdiv 10) (byteOf (48 + d) :: out)
    else .ok out

def itoa (turns : ℕ) (n : ℤ) : Res Str :=
  if n = 0 then .ok [48]
  else do
    let neg := decide (n < 0)
    let v ← negated arith neg n
    let out ← itoaLoop turns v []
    .ok (if neg then 45 :: out else out)

end Signed

/-- `while v / div >= ten` of `write_u64` -/
def scaleUp (v : UInt64) : ℕ → UInt64 → Res UInt64
  | turns, div =>
    if v / div ≥ 10 then
      match turns with
      | 0 => .stuck
      | turns + 1 => scaleUp v turns (div * 10)
    else .ok div

/-- `while div > 0` of `write_u64` -/
def writeDigits (v : UInt64) : ℕ → UInt64 → Str → Res Str
  | turns, div, buf =>
    if div > 0 then
      match turns with
      | 0 => .stuck
      | turns + 1 =>
        let d := (v / div) % 10
        writeDigits v turns (div / 10) (buf ++ [byteOf (48 + d.toNat)])
    else .ok buf

/-- `Sink.write_u64` -/
def writeU64 (turns : ℕ) (buf : Str) (v : UInt64) : Res Str := do
  let div ← scaleUp v turns 1
  writeDigits v turns div buf

/-- `Sink.write_i64` -/
def writeI64 (turns : ℕ) (buf : Str) (n : Int64) : Res Str :=
  if n < 0 then
    let mag : UInt64 := 0 - n.toUInt64
    writeU64 turns (buf ++ [45]) mag
  else writeU64 turns buf n.toUInt64

/-! ### What they print -/

def digitByte (d : ℕ) : UInt8 := if d < 10 then UInt8.ofNat (48 + d) else UInt8.ofNat (87 + d)

/-- `s` is the number in the base: a sign where it is negative, and the digits of its absolute value. -/
def Prints (b : ℕ) (n : ℤ) (s : Str) : Prop :=
  ∃ ds, Numeral b n.natAbs ds ∧ s = (if n < 0 then [45] else []) ++ ds.map digitByte

theorem digitByte_injective {d e : ℕ} (hd : d < 16) (he : e < 16) (h : digitByte d = digitByte e) : d = e := by
  have hall : ∀ x y : Fin 16, digitByte x = digitByte y → x = y := by decide
  exact congrArg Fin.val (hall ⟨d, hd⟩ ⟨e, he⟩ h)

theorem digitByte_ne_minus {d : ℕ} (hd : d < 16) : digitByte d ≠ 45 := by
  have hall : ∀ x : Fin 16, digitByte x ≠ 45 := by decide
  exact hall ⟨d, hd⟩

theorem map_digitByte_injective {ds es : List ℕ} (hds : ∀ d ∈ ds, d < 16) (hes : ∀ d ∈ es, d < 16)
    (h : ds.map digitByte = es.map digitByte) : ds = es := by
  induction ds generalizing es with
  | nil => exact (List.map_eq_nil_iff.1 h.symm).symm
  | cons d ds ih =>
    cases es with
    | nil => cases h
    | cons e es =>
      obtain ⟨hhead, htail⟩ := List.cons.inj h
      rw [List.forall_mem_cons] at hds hes
      rw [digitByte_injective hds.1 hes.1 hhead, ih hds.2 hes.2 htail]

theorem Prints.unique {b : ℕ} {n : ℤ} {s s' : Str} (hb : 1 < b) (h : Prints b n s) (h' : Prints b n s') : s = s' := by
  obtain ⟨ds, hds, rfl⟩ := h
  obtain ⟨es, hes, rfl⟩ := h'
  rw [hds.unique hes hb]

theorem Prints.value_unique {b : ℕ} {n m : ℤ} {s : Str} (hb : b ≤ 16) (h : Prints b n s) (h' : Prints b m s) : n = m := by
  obtain ⟨ds, hds, rfl⟩ := h
  obtain ⟨es, hes, heq⟩ := h'
  have hd : ∀ d ∈ ds, d < 16 := fun d hd => (hds.lt_base d hd).trans_le hb
  have he : ∀ d ∈ es, d < 16 := fun d hd => (hes.lt_base d hd).trans_le hb
  have hminus : ∀ {l : List ℕ} {t : Str}, (∀ d ∈ l, d < 16) → l ≠ [] → l.map digitByte ≠ [45] ++ t := by
    intro l t hl hne hsign
    obtain ⟨d, rest, rfl⟩ := List.exists_cons_of_ne_nil hne
    exact digitByte_ne_minus (hl d List.mem_cons_self) (List.cons.inj hsign).1
  have habs : ds = es → n.natAbs = m.natAbs := by
    rintro rfl
    exact hds.value_unique hes
  by_cases hn : n < 0
  · rw [if_pos hn] at heq
    by_cases hm : m < 0
    · rw [if_pos hm] at heq
      have hnat := habs (map_digitByte_injective hd he (List.append_cancel_left heq))
      omega
    · rw [if_neg hm] at heq
      exact absurd heq.symm (hminus he hes.ne_nil)
  · rw [if_neg hn] at heq
    by_cases hm : m < 0
    · rw [if_pos hm] at heq
      exact absurd heq (hminus hd hds.ne_nil)
    · rw [if_neg hm] at heq
      have hnat := habs (map_digitByte_injective hd he heq)
      omega

/-! ### The remainders -/

theorem toBaseLoop_zero (base : ℤ) (turns : ℕ) (rev : Str) : toBaseLoop base turns 0 rev = .ok rev := by
  cases turns <;> rfl

theorem toBaseLoop_succ {b n : ℕ} (hb : b ≤ 16) (hpos : 0 < b) (hn : 0 < n) (turns : ℕ) (rev : Str) :
    toBaseLoop b (turns + 1) n rev = toBaseLoop b turns (n / b : ℕ) (rev ++ [digitByte (n % b)]) := by
  have hmod : (n : ℤ).tmod b = (n % b : ℕ) := rfl
  have hdiv : (n : ℤ).tdiv b = (n / b : ℕ) := rfl
  have hlt : n % b < 16 := (Nat.mod_lt n hpos).trans_le hb
  have hall : ∀ d : ℕ, d < 16 → byteOf (if (d : ℤ) ≥ 10 then 87 + d else 48 + d) = digitByte d := by decide
  conv_lhs => unfold toBaseLoop
  grind

theorem toBaseLoop_digits {b : ℕ} (hb : b ≤ 16) (hpos : 1 < b) {n turns : ℕ} (hn : 0 < n) (hturns : n < b ^ turns)
    (rev : Str) : ∃ ds, Numeral b n ds ∧ toBaseLoop b turns n rev = .ok (rev ++ (ds.map digitByte).reverse) := by
  induction turns generalizing n rev with
  | zero =>
    grind
  | succ turns ih =>
    rw [toBaseLoop_succ hb (by omega) hn]
    by_cases hsmall : n < b
    · refine ⟨[n], .single hsmall, ?_⟩
      rw [Nat.div_eq_of_lt hsmall, Nat.mod_eq_of_lt hsmall]
      exact toBaseLoop_zero b turns _
    · have hquot : n / b < b ^ turns := Nat.div_lt_of_lt_mul (by grind)
      obtain ⟨ds, hds, hloop⟩ := ih (Nat.div_pos (by omega) (by omega)) hquot (rev ++ [digitByte (n % b)])
      refine ⟨_, hds.of_div (by omega) (by omega), ?_⟩
      grind

theorem itoaLoop_zero (turns : ℕ) (out : Str) : itoaLoop turns 0 out = .ok out := by
  cases turns <;> rfl

theorem itoaLoop_succ {n : ℕ} (hn : 0 < n) (turns : ℕ) (out : Str) :
    itoaLoop (turns + 1) n out = itoaLoop turns (n / 10 : ℕ) (digitByte (n % 10) :: out) := by
  have hmod : (n : ℤ).tmod 10 = (n % 10 : ℕ) := rfl
  have hdiv : (n : ℤ).tdiv 10 = (n / 10 : ℕ) := rfl
  have hall : ∀ d : ℕ, d < 10 → byteOf (48 + (d : ℤ)) = digitByte d := by decide
  conv_lhs => unfold itoaLoop
  grind

theorem itoaLoop_digits {n turns : ℕ} (hn : 0 < n) (hturns : n < 10 ^ turns) (out : Str) :
    ∃ ds, Numeral 10 n ds ∧ itoaLoop turns n out = .ok (ds.map digitByte ++ out) := by
  induction turns generalizing n out with
  | zero => omega
  | succ turns ih =>
    rw [itoaLoop_succ hn]
    by_cases hsmall : n < 10
    · refine ⟨[n], .single hsmall, ?_⟩
      rw [Nat.div_eq_of_lt hsmall, Nat.mod_eq_of_lt hsmall]
      exact itoaLoop_zero turns _
    · have hquot : n / 10 < 10 ^ turns := Nat.div_lt_of_lt_mul (by grind)
      obtain ⟨ds, hds, hloop⟩ := ih (Nat.div_pos (by omega) (by omega)) hquot (digitByte (n % 10) :: out)
      refine ⟨_, hds.of_div (by omega) (by omega), ?_⟩
      grind

/-! ### The signs -/

/-- The difference has its value where it is an `int`, and not where it is none. -/
structure Subtracts (arith : ℤ → Res ℤ) : Prop where
  fits : ∀ x, -2 ^ 31 ≤ x → x < 2 ^ 31 → arith x = .ok x
  overflows : ∀ y, arith (2 ^ 31) = .ok y → y ≤ 0

theorem subtracts_asInt : Subtracts asInt := ⟨fun _ => asInt_eq, fun y h => by cases h⟩

theorem toBaseLoop_nonpos {base v : ℤ} (h : v ≤ 0) (turns : ℕ) (rev : Str) : toBaseLoop base turns v rev = .ok rev := by
  unfold toBaseLoop
  exact if_neg (by omega)

theorem itoaLoop_nonpos {v : ℤ} (h : v ≤ 0) (turns : ℕ) (out : Str) : itoaLoop turns v out = .ok out := by
  unfold itoaLoop
  exact if_neg (by omega)

theorem not_prints_minus (b : ℕ) (n : ℤ) (hb : b ≤ 16) : ¬Prints b n [45] := by
  rintro ⟨ds, hds, heq⟩
  obtain ⟨d, rest, rfl⟩ := List.exists_cons_of_ne_nil hds.ne_nil
  have hd : d < 16 := (hds.lt_base d List.mem_cons_self).trans_le hb
  split at heq
  · cases heq
  · exact digitByte_ne_minus hd (List.cons.inj heq).1.symm

theorem prints_zero {b : ℕ} (hb : 0 < b) : Prints b 0 [48] := ⟨[0], .single hb, rfl⟩

variable {arith : ℤ → Res ℤ}

theorem signed_prints (harith : Subtracts arith) {b : ℕ} (hb : b ≤ 16) {n : ℤ} (hn : n ≠ 0) (hlow : -2 ^ 31 ≤ n)
    (hhigh : n < 2 ^ 31) {g : ℤ → Res Str} (hstop : ∀ v ≤ 0, g v = .ok [])
    (hloop : ∀ m : ℕ, 0 < m → m < 2 ^ 31 → ∃ ds, Numeral b m ds ∧ g m = .ok (ds.map digitByte)) :
    (negated arith (decide (n < 0)) n >>= fun v => g v >>= fun digits =>
      .ok ((if decide (n < 0) then [45] else []) ++ digits)).Yields (Prints b n) ↔ n ≠ -2 ^ 31 := by
  unfold negated
  by_cases hneg : n < 0
  · rw [if_pos (decide_eq_true hneg), if_pos (decide_eq_true hneg)]
    by_cases hmin : n = -2 ^ 31
    · rw [hmin]
      refine ⟨fun h => ?_, fun h => absurd rfl h⟩
      obtain ⟨s, hs, hprints⟩ := h
      obtain ⟨y, hy, hs⟩ := Res.bind_ok hs
      rw [hstop y (harith.overflows y hy)] at hs
      cases hs
      exact absurd hprints (not_prints_minus b _ hb)
    · refine ⟨fun _ => hmin, fun _ => ?_⟩
      obtain ⟨m, rfl⟩ : ∃ m : ℕ, n = -m := ⟨n.natAbs, by omega⟩
      obtain ⟨ds, hds, hdigits⟩ := hloop m (by omega) (by omega)
      rw [zero_sub, neg_neg, harith.fits m (by omega) (by omega)]
      change Res.Yields (g m >>= _) _
      rw [hdigits]
      refine Res.yields_ok.2 ⟨ds, ?_, ?_⟩
      · grind
      · rw [if_pos hneg]
  · rw [if_neg (by simpa using hneg), if_neg (by simpa using hneg)]
    refine ⟨fun _ => by omega, fun _ => ?_⟩
    obtain ⟨m, rfl⟩ : ∃ m : ℕ, n = m := ⟨n.natAbs, by omega⟩
    obtain ⟨ds, hds, hdigits⟩ := hloop m (by omega) (by omega)
    change Res.Yields (g m >>= _) _
    rw [hdigits]
    refine Res.yields_ok.2 ⟨ds, ?_, ?_⟩
    · rwa [Int.natAbs_natCast]
    · rw [if_neg hneg]

theorem toBase_prints (harith : Subtracts arith) {b turns : ℕ} (hpos : 1 < b) (hb : b ≤ 16) (hturns : 31 ≤ turns)
    {n : ℤ} (hlow : -2 ^ 31 ≤ n) (hhigh : n < 2 ^ 31) :
    (toBase arith turns n b).Yields (Prints b n) ↔ n ≠ -2 ^ 31 := by
  unfold toBase
  by_cases hn : n = 0
  · rw [if_pos hn, hn]
    grind [Res.yields_ok, prints_zero]
  · rw [if_neg hn]
    have hsigned := signed_prints harith hb hn hlow hhigh (g := fun v => toBaseLoop b turns v [] >>= fun rev => .ok rev.reverse)
      (fun v hv => by rw [toBaseLoop_nonpos hv]; rfl) ?_
    · simp only [Res.bind_assoc] at hsigned
      exact hsigned
    · intro m hm hlt
      have hpow : m < b ^ turns := (hlt.trans_le (Nat.pow_le_pow_right (by omega) hturns)).trans_le (Nat.pow_le_pow_left hpos _)
      obtain ⟨ds, hds, hloop⟩ := toBaseLoop_digits hb hpos hm hpow []
      refine ⟨ds, hds, ?_⟩
      rw [hloop]
      exact congrArg Res.ok (List.reverse_reverse _)

theorem itoa_prints (harith : Subtracts arith) {turns : ℕ} (hturns : 31 ≤ turns) {n : ℤ} (hlow : -2 ^ 31 ≤ n)
    (hhigh : n < 2 ^ 31) : (itoa arith turns n).Yields (Prints 10 n) ↔ n ≠ -2 ^ 31 := by
  unfold itoa
  by_cases hn : n = 0
  · rw [if_pos hn, hn]
    grind [Res.yields_ok, prints_zero]
  · rw [if_neg hn]
    have hsigned := signed_prints harith (by decide : 10 ≤ 16) hn hlow hhigh (g := fun v => itoaLoop turns v [])
      (fun v hv => itoaLoop_nonpos hv _ _) ?_
    · grind
    · intro m hm hlt
      have hpow : m < 10 ^ turns :=
        (hlt.trans_le (Nat.pow_le_pow_right (by omega) hturns)).trans_le (Nat.pow_le_pow_left (by decide) _)
      obtain ⟨ds, hds, hloop⟩ := itoaLoop_digits hm hpow []
      grind

/-! ### The powers of ten -/

theorem toNat_ten : (10 : UInt64).toNat = 10 := rfl

theorem more_iff {v div : UInt64} {k : ℕ} (hdiv : div.toNat = 10 ^ k) : v / div ≥ 10 ↔ 10 ^ (k + 1) ≤ v.toNat := by
  have hpos : 0 < 10 ^ k := Nat.pow_pos (by decide)
  rw [ge_iff_le, UInt64.le_iff_toNat_le, toNat_ten, UInt64.toNat_div, hdiv, Nat.le_div_iff_mul_le hpos, pow_succ, mul_comm]

theorem scaleUp_power {v div : UInt64} {turns k : ℕ} (hdiv : div.toNat = 10 ^ k) (hle : 0 < k → 10 ^ k ≤ v.toNat)
    (hturns : v.toNat < 10 ^ (k + turns + 1)) :
    (scaleUp v turns div).Yields fun top => ∃ j ≤ k + turns, top.toNat = 10 ^ j ∧ (0 < j → 10 ^ j ≤ v.toNat) ∧
      v.toNat < 10 ^ (j + 1) := by
  induction turns generalizing div k with
  | zero =>
    unfold scaleUp
    rw [if_neg fun h => Nat.not_le.2 hturns ((more_iff hdiv).1 h)]
    exact Res.yields_ok.2 ⟨k, le_rfl, hdiv, hle, hturns⟩
  | succ turns ih =>
    unfold scaleUp
    by_cases h : v / div ≥ 10
    · have hnext := (more_iff hdiv).1 h
      -- the next power is no larger than the number, so the product is a `u64`
      have hmul : (div * 10).toNat = 10 ^ (k + 1) := by
        rw [UInt64.toNat_mul, hdiv, toNat_ten, ← pow_succ]
        exact Nat.mod_eq_of_lt (hnext.trans_lt v.toNat_lt)
      grind
    · rw [if_neg h]
      exact Res.yields_ok.2 ⟨k, by omega, hdiv, hle, Nat.not_le.1 fun hle => h ((more_iff hdiv).2 hle)⟩

theorem writeDigits_zero {v div : UInt64} (hdiv : div.toNat = 0) (turns : ℕ) (buf : Str) :
    writeDigits v turns div buf = .ok buf := by
  unfold writeDigits
  refine if_neg fun h => ?_
  rw [gt_iff_lt, UInt64.lt_iff_toNat_lt, hdiv] at h
  exact Nat.not_lt_zero _ h

theorem writeDigits_succ {v div : UInt64} {k : ℕ} (hdiv : div.toNat = 10 ^ k) (turns : ℕ) (buf : Str) :
    writeDigits v (turns + 1) div buf = writeDigits v turns (div / 10) (buf ++ [digitByte (v.toNat / 10 ^ k % 10)]) := by
  have hpos : div > 0 := by
    rw [gt_iff_lt, UInt64.lt_iff_toNat_lt, hdiv]
    grind
  have hall : ∀ d < 10, byteOf (48 + (d : ℕ)) = digitByte d := by decide
  have hd : (v / div % 10).toNat = v.toNat / 10 ^ k % 10 := by rw [UInt64.toNat_mod, UInt64.toNat_div, hdiv, toNat_ten]
  conv_lhs => unfold writeDigits
  grind

theorem writeDigits_rest {v div : UInt64} {turns k : ℕ} (hdiv : div.toNat = 10 ^ k / 10) (hturns : k ≤ turns) {ds : List ℕ}
    (hds : Numeral 10 (v.toNat / 10 ^ k) ds) (hpos : 0 < k → 0 < v.toNat / 10 ^ k) (buf : Str) :
    ∃ es, Numeral 10 v.toNat (ds ++ es) ∧ writeDigits v turns div buf = .ok (buf ++ es.map digitByte) := by
  induction k generalizing div turns ds buf with
  | zero =>
    rw [pow_zero, Nat.div_one] at hds
    refine ⟨[], by rwa [List.append_nil], ?_⟩
    rw [writeDigits_zero hdiv]
    grind
  | succ k ih =>
    obtain ⟨turns, rfl⟩ : ∃ t, turns = t + 1 := ⟨turns - 1, by omega⟩
    have hten : 10 ^ (k + 1) / 10 = 10 ^ k := by grind
    rw [hten] at hdiv
    have hquot : v.toNat / 10 ^ k / 10 = v.toNat / 10 ^ (k + 1) := by rw [Nat.div_div_eq_div_mul, pow_succ]
    have hlarge : 10 ≤ v.toNat / 10 ^ k := by grind
    have hnext : (div / 10).toNat = 10 ^ k / 10 := by rw [UInt64.toNat_div, hdiv, toNat_ten]
    rw [← hquot] at hds
    obtain ⟨es, hes, hloop⟩ := ih hnext (Nat.le_of_succ_le_succ hturns) (hds.of_div (by decide) hlarge) (fun _ => by omega)
      (buf ++ [digitByte (v.toNat / 10 ^ k % 10)])
    grind [writeDigits_succ, List.append_assoc, List.append_cons]

theorem writeU64_prints {turns : ℕ} (hturns : 20 ≤ turns) (buf : Str) (v : UInt64) :
    ∃ s, writeU64 turns buf v = .ok (buf ++ s) ∧ Prints 10 v.toNat s := by
  have hone : (1 : UInt64).toNat = 10 ^ 0 := rfl
  have hlt : v.toNat < 10 ^ (0 + 19 + 1) := v.toNat_lt.trans (by decide)
  have hroom : v.toNat < 10 ^ (0 + turns + 1) := hlt.trans_le (Nat.pow_le_pow_right (by decide) (by omega))
  obtain ⟨top, htop, j, -, hj, hle, hnext⟩ := scaleUp_power hone (fun h => absurd h (Nat.lt_irrefl 0)) hroom
  have hjlt : j < 20 := by
    by_contra h
    have hpow : 10 ^ 20 ≤ 10 ^ j := Nat.pow_le_pow_right (by decide) (by omega)
    grind
  have hhead : v.toNat / 10 ^ j < 10 := Nat.div_lt_of_lt_mul (by rwa [pow_succ] at hnext)
  have hdiv : (top / 10).toNat = 10 ^ j / 10 := by rw [UInt64.toNat_div, hj, toNat_ten]
  obtain ⟨turns, rfl⟩ : ∃ t, turns = t + 1 := ⟨turns - 1, by omega⟩
  obtain ⟨es, hes, hloop⟩ := writeDigits_rest hdiv (show j ≤ turns by omega) (.single hhead)
    (fun h => Nat.div_pos (hle h) (Nat.pow_pos (by decide))) (buf ++ [digitByte (v.toNat / 10 ^ j % 10)])
  refine ⟨([v.toNat / 10 ^ j] ++ es).map digitByte, ?_, _, hes, ?_⟩
  · unfold writeU64
    rw [htop]
    change writeDigits v (turns + 1) top buf = _
    rw [writeDigits_succ hj, hloop, List.append_assoc, Nat.mod_eq_of_lt hhead]
    rfl
  grind

theorem toInt_eq (n : Int64) :
    n.toInt = if 2 * n.toUInt64.toNat < 2 ^ 64 then (n.toUInt64.toNat : ℤ) else n.toUInt64.toNat - (2 ^ 64 : ℕ) :=
  BitVec.toInt_eq_toNat_cond n.toBitVec

theorem magnitude (n : Int64) :
    (n < 0 → (0 - n.toUInt64).toNat = n.toInt.natAbs ∧ n.toInt < 0) ∧ (¬n < 0 → (n.toUInt64.toNat : ℤ) = n.toInt) := by
  have hsub : (0 - n.toUInt64).toNat = (2 ^ 64 - n.toUInt64.toNat + 0) % 2 ^ 64 := UInt64.toNat_sub _ _
  have hlt := n.toUInt64.toNat_lt
  grind [Int64.lt_iff_toInt_lt, toInt_eq]

theorem writeI64_prints {turns : ℕ} (hturns : 20 ≤ turns) (buf : Str) (n : Int64) :
    ∃ s, writeI64 turns buf n = .ok (buf ++ s) ∧ Prints 10 n.toInt s := by
  unfold writeI64
  by_cases h : n < 0
  · obtain ⟨habs, hneg⟩ := (magnitude n).1 h
    obtain ⟨s, hs, ds, hds, rfl⟩ := writeU64_prints hturns (buf ++ [45]) (0 - n.toUInt64)
    rw [habs, Int.natAbs_natCast] at hds
    refine ⟨[45] ++ ds.map digitByte, ?_, ds, hds, ?_⟩
    · grind
    · rw [if_pos hneg]
  · rw [if_neg h, ← (magnitude n).2 h]
    exact writeU64_prints hturns buf n.toUInt64

/-! ### All of them -/

theorem agree_iff {r r' : Res Str} {n : ℤ} {c : Prop} (h : r.Yields (Prints 10 n) ↔ c) (h' : r'.Yields (Prints 10 n)) :
    (∃ s, r = .ok s ∧ r' = .ok s) ↔ c := by
  obtain ⟨s', hs', hprints⟩ := h'
  rw [← h]
  constructor
  · rintro ⟨s, hs, hs''⟩
    cases hs'.symm.trans hs''
    exact ⟨_, hs, hprints⟩
  · rintro ⟨s, hs, hs''⟩
    exact ⟨s, hs, by rw [hs', hs''.unique (by decide) hprints]⟩

/-- The printers are exact, agree and can be read back, but for the least `int` in those that negate it. -/
theorem printers_exact_iff {arith : ℤ → Res ℤ} (harith : Subtracts arith) {turns : ℕ} (hturns : 31 ≤ turns) :
    (∀ (n : ℤ) (base : ℕ), -2 ^ 31 ≤ n → n < 2 ^ 31 → 2 ≤ base → base ≤ 16 →
      ((toBase arith turns n base).Yields (Prints base n) ↔ n ≠ -2 ^ 31)) ∧
    (∀ n : ℤ, -2 ^ 31 ≤ n → n < 2 ^ 31 → ((itoa arith turns n).Yields (Prints 10 n) ↔ n ≠ -2 ^ 31)) ∧
    (∀ (buf : Str) (v : UInt64), ∃ s, writeU64 turns buf v = .ok (buf ++ s) ∧ Prints 10 v.toNat s) ∧
    (∀ (buf : Str) (n : Int64), ∃ s, writeI64 turns buf n = .ok (buf ++ s) ∧ Prints 10 n.toInt s) ∧
    (∀ n : Int64, -2 ^ 31 ≤ n.toInt → n.toInt < 2 ^ 31 →
      ((∃ s, toBase arith turns n.toInt 10 = .ok s ∧ writeI64 turns [] n = .ok s) ↔ n.toInt ≠ -2 ^ 31) ∧
      ((∃ s, itoa arith turns n.toInt = .ok s ∧ writeI64 turns [] n = .ok s) ↔ n.toInt ≠ -2 ^ 31)) ∧
    (∀ v : UInt64, v.toNat < 2 ^ 63 → writeU64 turns [] v = writeI64 turns [] v.toInt64) ∧
    ∀ (base : ℕ) (n m : ℤ) (s : Str), base ≤ 16 → Prints base n s → Prints base m s → n = m := by
  have hlong : ∀ n : Int64, (writeI64 turns [] n).Yields (Prints 10 n.toInt) := writeI64_prints (by omega) []
  refine ⟨fun n base hlow hhigh hpos hb => toBase_prints harith hpos hb hturns hlow hhigh,
    fun n hlow hhigh => itoa_prints harith hturns hlow hhigh, writeU64_prints (by omega), writeI64_prints (by omega),
    fun n hlow hhigh => ⟨?_, ?_⟩, fun v hv => ?_, fun base n m s hb h h' => h.value_unique hb h'⟩
  · exact agree_iff (toBase_prints harith (by decide) (by decide) hturns hlow hhigh) (hlong n)
  · exact agree_iff (itoa_prints harith hturns hlow hhigh) (hlong n)
  · have hnat : v.toInt64.toUInt64 = v := UInt64.toUInt64_toInt64 v
    have hneg : ¬v.toInt64 < 0 := by
      intro h
      have hmag := ((magnitude v.toInt64).1 h).2
      rw [toInt_eq, hnat, if_pos (by omega)] at hmag
      omega
    unfold writeI64
    rw [if_neg hneg, hnat]

theorem printers_exact_iff_dump : (itoa asInt 31 (-120)).Yields (Prints 10 (-120)) ↔ (-120 : ℤ) ≠ -2 ^ 31 :=
  (printers_exact_iff subtracts_asInt (le_refl 31)).2.1 (-120) (by decide) (by decide)

/-- Where the negation wraps around, only the sign is printed. -/
theorem not_printers_exact :
    itoa (fun x => .ok (i32 x)) 31 (-2 ^ 31) = .ok [45] ∧ toBase (fun x => .ok (i32 x)) 31 (-2 ^ 31) 16 = .ok [45] ∧
      ¬Prints 10 (-2 ^ 31) [45] ∧ ¬Prints 16 (-2 ^ 31) [45] ∧
      ¬(itoa asInt 31 (-2 ^ 31)).Yields (Prints 10 (-2 ^ 31)) ∧ ¬(toBase asInt 31 (-2 ^ 31) 16).Yields (Prints 16 (-2 ^ 31)) := by
  refine ⟨rfl, rfl, not_prints_minus 10 _ (by decide), not_prints_minus 16 _ le_rfl, ?_, ?_⟩
  · rintro ⟨s, hs, -⟩
    cases hs
  · rintro ⟨s, hs, -⟩
    cases hs

end LsLang.Text
