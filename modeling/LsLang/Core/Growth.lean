import LsLang.Lib.Total
import Mathlib.Algebra.Order.Ring.Int
import Mathlib.Tactic.Linarith
import Mathlib.Tactic.Ring

/-! How the containers of `std.core` grow: `Vec.reserve`, `Str.reserve`, `Map._grow` and `Deque._grow`. Signed
arithmetic is compiled with `nsw`, so that an overflow has no meaning. -/

namespace LsLang.Core

open LsLang.Undefined

/-- An `int` with this value. -/
def asInt (x : ℤ) : Res ℤ := if -2 ^ 31 ≤ x ∧ x < 2 ^ 31 then .ok x else .stuck

/-- An `i64` with this value. -/
def asLong (x : ℤ) : Res ℤ := if -2 ^ 63 ≤ x ∧ x < 2 ^ 63 then .ok x else .stuck

theorem asInt_eq {x : ℤ} (hl : -2 ^ 31 ≤ x) (hu : x < 2 ^ 31) : asInt x = .ok x := if_pos ⟨hl, hu⟩

theorem asLong_eq {x : ℤ} (hl : -2 ^ 63 ≤ x) (hu : x < 2 ^ 63) : asLong x = .ok x := if_pos ⟨hl, hu⟩

theorem asInt_ok {x y : ℤ} (h : asInt x = .ok y) : y = x ∧ x < 2 ^ 31 := by
  unfold asInt at h
  grind

theorem asInt_ok_iff {x y : ℤ} : asInt x = .ok y ↔ y = x ∧ -2 ^ 31 ≤ x ∧ x < 2 ^ 31 := by
  unfold asInt
  grind

theorem asLong_ok {x y : ℤ} (h : asLong x = .ok y) : y = x ∧ x < 2 ^ 63 := by
  unfold asLong at h
  grind

namespace Growth

/-- `while n < need { n = n * 2 }`. A positive `int` can be doubled 30 times at most. -/
def doubled (need : ℤ) : ℕ → ℤ → Res ℤ
  | 0, _ => .stuck
  | fuel + 1, n =>
    if n < need then do
      let n ← asInt (n * 2)
      doubled need fuel n
    else .ok n

inductive Request
  | malloc (bytes : ℤ)
  | realloc (bytes : ℤ)

def Request.bytes : Request → ℤ
  | malloc bytes => bytes
  | realloc bytes => bytes

structure Grown where
  cap : ℤ
  requests : List Request

/-- `Vec.reserve`, of elements of `size` bytes. -/
def vecReserve (size cap need : ℤ) : Res Grown :=
  if need ≤ cap then .ok ⟨cap, []⟩
  else do
    let n ← doubled need 32 (if cap < 4 then 4 else cap)
    let bytes ← asLong (n * size)
    pure ⟨n, [.realloc bytes]⟩

/-- `Str.reserve` -/
def strReserve (cap need : ℤ) : Res Grown :=
  if need ≤ cap then .ok ⟨cap, []⟩
  else do
    let n ← doubled need 32 (if cap < 8 then 8 else cap)
    -- a static or arena buffer is not its own, and is copied to a fresh one
    if cap ≤ 0 then pure ⟨n, [.malloc n]⟩
    else pure ⟨n, [.realloc n]⟩

def newcap (cap : ℤ) : Res ℤ := if 0 < cap then asInt (cap * 2) else .ok 8

/-- `Map._grow`, of keys of `sizeK` bytes and values of `sizeV`. -/
def mapGrow (sizeK sizeV cap : ℤ) : Res Grown := do
  let n ← newcap cap
  let keys ← asLong (n * sizeK)
  let vals ← asLong (n * sizeV)
  pure ⟨n, [.realloc n, .realloc keys, .realloc vals]⟩

/-- `Deque._grow` -/
def dequeGrow (size cap : ℤ) : Res Grown := do
  let n ← newcap cap
  let bytes ← asLong (n * size)
  pure ⟨n, [.realloc bytes]⟩

/-- A growth returns with room for `need` elements, and has asked for the bytes of that many of each of the sizes. -/
def Grows (r : Res Grown) (need : ℤ) (sizes : List ℤ) : Prop :=
  r.Yields fun g => need ≤ g.cap ∧ (g.requests = [] ∨ g.requests.map Request.bytes = sizes.map (g.cap * ·))

/-- The fields of a container. -/
structure Sizes where
  len : ℤ
  cap : ℤ
  len_nonneg : 0 ≤ len
  len_le_cap : len ≤ cap
  cap_lt : cap < 2 ^ 31

theorem Sizes.cap_nonneg (s : Sizes) : 0 ≤ s.cap := le_trans s.len_nonneg s.len_le_cap

/-- Doubling `start` reaches `need` with an `int`, and the bytes for elements of this size are an `i64`. -/
def Reaches (start need size : ℤ) : Prop :=
  ∃ j : ℕ, need ≤ start * 2 ^ j ∧ start * 2 ^ j < 2 ^ 31 ∧ start * 2 ^ j * size < 2 ^ 63

variable {start need n size cap : ℤ} {fuel : ℕ}

theorem doubled_ok (h : doubled need fuel n = .ok cap) (hn : n < 2 ^ 31) :
    ∃ j : ℕ, cap = n * 2 ^ j ∧ need ≤ cap ∧ cap < 2 ^ 31 := by
  induction fuel generalizing n with
  | zero => cases h
  | succ fuel ih =>
    unfold doubled at h
    split at h
    · obtain ⟨m, hm, hd⟩ := Res.bind_ok h
      obtain ⟨rfl, hlt⟩ := asInt_ok hm
      obtain ⟨j, rfl, hneed, hcap⟩ := ih hd hlt
      exact ⟨j + 1, by ring, hneed, hcap⟩
    · next hge =>
      cases h
      exact ⟨0, by ring, by omega, hn⟩

theorem doubled_yields (hn : 0 < n) {j : ℕ} (hneed : need ≤ n * 2 ^ j) (hlt : n * 2 ^ j < 2 ^ 31) (hj : j < fuel) :
    (doubled need fuel n).Yields fun cap => need ≤ cap ∧ 0 < cap ∧ cap ≤ n * 2 ^ j := by
  induction fuel generalizing n j with
  | zero => grind
  | succ fuel ih =>
    have hpow : (1 : ℤ) ≤ 2 ^ j := one_le_pow₀ (by norm_num)
    unfold doubled
    split
    · next hless =>
      cases j with
      | zero => omega
      | succ j =>
        have hsplit : n * 2 ^ (j + 1) = n * 2 * 2 ^ j := by ring
        have hpow' : (1 : ℤ) ≤ 2 ^ j := one_le_pow₀ (by norm_num)
        have hle : n * 2 ≤ n * 2 * 2 ^ j := le_mul_of_one_le_right (by omega) hpow'
        rw [hsplit] at hneed hlt ⊢
        rw [asInt_eq (by omega) (by omega)]
        exact ih (by omega) hneed hlt (by omega)
    · have hle : n ≤ n * 2 ^ j := le_mul_of_one_le_right (by omega) hpow
      exact Res.yields_ok.2 ⟨by omega, hn, hle⟩

theorem doublings_lt {j : ℕ} (hn : 0 < n) (hlt : n * 2 ^ j < 2 ^ 31) : j < 32 := by
  by_contra hge
  have hpow : (2 : ℤ) ^ 32 ≤ 2 ^ j := pow_le_pow_right₀ (by norm_num) (by omega)
  have hle : (2 : ℤ) ^ j ≤ n * 2 ^ j := le_mul_of_one_le_left (by positivity) (by omega)
  omega

theorem grows_doubled {f : ℤ → Res Grown} {sizes : List ℤ} {P : ℤ → Prop} (hstart : 0 < start) (hlt : start < 2 ^ 31)
    (hP : ∀ {m n : ℤ}, 0 ≤ m → m ≤ n → P n → P m)
    (hf : ∀ n, 0 < n → need ≤ n → (Grows (f n) need sizes ↔ P n)) :
    Grows (doubled need 32 start >>= f) need sizes ↔
      ∃ j : ℕ, need ≤ start * 2 ^ j ∧ start * 2 ^ j < 2 ^ 31 ∧ P (start * 2 ^ j) := by
  constructor
  · rintro ⟨g, hg, hrest⟩
    obtain ⟨n, hn, hfn⟩ := Res.bind_ok hg
    obtain ⟨j, rfl, hneed, hn31⟩ := doubled_ok hn hlt
    exact ⟨j, hneed, hn31, (hf _ (by positivity) hneed).1 ⟨g, hfn, hrest⟩⟩
  · rintro ⟨j, hneed, hn31, hp⟩
    refine (doubled_yields hstart hneed hn31 (doublings_lt hstart hn31)).bind ?_
    rintro n ⟨hn, hpos, hle⟩
    exact (hf n hpos hn).2 (hP hpos.le hle hp)

/-- The value of the new capacity. -/
def nextCap (cap : ℤ) : ℤ := if 0 < cap then cap * 2 else 8

theorem newcap_eq (cap : ℤ) : newcap cap = asInt (nextCap cap) := by
  unfold newcap nextCap
  split <;> rfl

theorem lt_nextCap (hcap : 0 ≤ cap) : cap < nextCap cap := by
  unfold nextCap
  split <;> omega

theorem int_bind_grows {x : ℤ} (hx : 0 ≤ x) {f : ℤ → Res Grown} {sizes : List ℤ} :
    Grows (asInt x >>= f) need sizes ↔ x < 2 ^ 31 ∧ Grows (f x) need sizes := by
  constructor
  · rintro ⟨g, hg, hrest⟩
    obtain ⟨y, hy, hf⟩ := Res.bind_ok hg
    obtain ⟨rfl, hlt⟩ := asInt_ok hy
    exact ⟨hlt, g, hf, hrest⟩
  · rintro ⟨hlt, hgrows⟩
    rw [asInt_eq (by omega) hlt]
    exact hgrows

theorem long_bind_grows {x : ℤ} (hx : 0 ≤ x) {f : ℤ → Res Grown} {sizes : List ℤ} :
    Grows (asLong x >>= f) need sizes ↔ x < 2 ^ 63 ∧ Grows (f x) need sizes := by
  constructor
  · rintro ⟨g, hg, hrest⟩
    obtain ⟨y, hy, hf⟩ := Res.bind_ok hg
    obtain ⟨rfl, hlt⟩ := asLong_ok hy
    exact ⟨hlt, g, hf, hrest⟩
  · rintro ⟨hlt, hgrows⟩
    rw [asLong_eq (by omega) hlt]
    exact hgrows

theorem grows_ok {n : ℤ} {rs : List Request} {sizes : List ℤ} (hneed : need ≤ n)
    (hbytes : rs.map Request.bytes = sizes.map (n * ·)) : Grows (pure ⟨n, rs⟩) need sizes :=
  Res.yields_ok.2 ⟨hneed, .inr hbytes⟩

theorem strReserve_grows_of_lt (hlt : cap < 2 ^ 31) (need : ℤ) :
    Grows (strReserve cap need) need [1] ↔ need ≤ cap ∨ Reaches (max 8 cap) need 1 := by
  unfold strReserve
  split
  · next hle => exact ⟨fun _ => .inl hle, fun _ => Res.yields_ok.2 ⟨hle, .inl rfl⟩⟩
  · next hle =>
    have hstart : (if cap < 8 then 8 else cap) = max 8 cap := by split <;> omega
    rw [or_iff_right hle, hstart]
    refine (grows_doubled (P := fun _ => True) (by omega) (by omega) (fun _ _ h => h) ?_).trans ?_
    · intro n _ hneed
      refine iff_true_intro ?_
      split <;> exact grows_ok hneed (by simp [Request.bytes])
    · unfold Reaches
      grind

section Exact

variable (s : Sizes) (need : ℤ)

theorem vecReserve_grows (size : ℕ) :
    Grows (vecReserve size s.cap need) need [(size : ℤ)] ↔ need ≤ s.cap ∨ Reaches (max 4 s.cap) need size := by
  have hlt := s.cap_lt
  unfold vecReserve
  split
  · next hle => exact ⟨fun _ => .inl hle, fun _ => Res.yields_ok.2 ⟨hle, .inl rfl⟩⟩
  · next hle =>
    have hstart : (if s.cap < 4 then 4 else s.cap) = max 4 s.cap := by split <;> omega
    rw [or_iff_right hle, hstart]
    refine grows_doubled (P := fun n => n * size < 2 ^ 63) (by omega) (by omega) ?_ ?_
    · intro m n _ hmn hn
      exact lt_of_le_of_lt (mul_le_mul_of_nonneg_right hmn (Int.natCast_nonneg size)) hn
    · intro n hpos hneed
      rw [long_bind_grows (by positivity)]
      exact and_iff_left (grows_ok hneed rfl)

theorem strReserve_grows :
    Grows (strReserve s.cap need) need [1] ↔ need ≤ s.cap ∨ Reaches (max 8 s.cap) need 1 :=
  strReserve_grows_of_lt s.cap_lt need

theorem mapGrow_grows (sizeK sizeV : ℕ) :
    Grows (mapGrow sizeK sizeV s.cap) (s.cap + 1) [1, (sizeK : ℤ), (sizeV : ℤ)] ↔
      nextCap s.cap < 2 ^ 31 ∧ nextCap s.cap * sizeK < 2 ^ 63 ∧ nextCap s.cap * sizeV < 2 ^ 63 := by
  have hlt := lt_nextCap s.cap_nonneg
  have hpos : 0 ≤ nextCap s.cap := s.cap_nonneg.trans hlt.le
  unfold mapGrow
  rw [newcap_eq, int_bind_grows hpos, long_bind_grows (by positivity), long_bind_grows (by positivity)]
  refine and_congr_right fun _ => and_congr_right fun _ => and_iff_left (grows_ok hlt ?_)
  simp [Request.bytes]

theorem dequeGrow_grows (size : ℕ) :
    Grows (dequeGrow size s.cap) (s.cap + 1) [(size : ℤ)] ↔
      nextCap s.cap < 2 ^ 31 ∧ nextCap s.cap * size < 2 ^ 63 := by
  have hlt := lt_nextCap s.cap_nonneg
  have hpos : 0 ≤ nextCap s.cap := s.cap_nonneg.trans hlt.le
  unfold dequeGrow
  rw [newcap_eq, int_bind_grows hpos, long_bind_grows (by positivity)]
  exact and_congr_right fun _ => and_iff_left (grows_ok hlt rfl)

end Exact

/-- The growths do what they promise exactly as long as doubling leads to an `int` that is large enough, and the bytes
to an `i64`. -/
theorem growth_exact (s : Sizes) (need : ℤ) (size sizeK sizeV : ℕ) :
    (Grows (vecReserve size s.cap need) need [(size : ℤ)] ↔ need ≤ s.cap ∨ Reaches (max 4 s.cap) need size) ∧
    (Grows (strReserve s.cap need) need [1] ↔ need ≤ s.cap ∨ Reaches (max 8 s.cap) need 1) ∧
    (Grows (mapGrow sizeK sizeV s.cap) (s.cap + 1) [1, (sizeK : ℤ), (sizeV : ℤ)] ↔
      nextCap s.cap < 2 ^ 31 ∧ nextCap s.cap * sizeK < 2 ^ 63 ∧ nextCap s.cap * sizeV < 2 ^ 63) ∧
    (Grows (dequeGrow size s.cap) (s.cap + 1) [(size : ℤ)] ↔
      nextCap s.cap < 2 ^ 31 ∧ nextCap s.cap * size < 2 ^ 63) :=
  ⟨vecReserve_grows s need size, strReserve_grows s need, mapGrow_grows s sizeK sizeV, dequeGrow_grows s size⟩

/-- An empty `Vec` of bytes cannot be given room for 2^30 + 1 of them. -/
theorem growth_overflows :
    ¬ ∀ (s : Sizes) (need : ℤ), need < 2 ^ 31 → Grows (vecReserve 1 s.cap need) need [1] := by
  intro h
  obtain ⟨g, hg, -⟩ := h ⟨0, 0, le_refl 0, le_refl 0, by norm_num⟩ (2 ^ 30 + 1) (by norm_num)
  have hstuck : vecReserve 1 0 (2 ^ 30 + 1) = .stuck := rfl
  rw [hstuck] at hg
  cases hg

theorem exists_doubling {n : ℤ} (hn : 0 < n) (hlt : n < 2 ^ 31) (hneed : need ≤ 2 ^ 30) :
    ∃ j : ℕ, need ≤ n * 2 ^ j ∧ n * 2 ^ j < 2 ^ 31 := by
  induction hd : (need - n).toNat using Nat.strongRecOn generalizing n with
  | ind d ih =>
    by_cases hle : need ≤ n
    · exact ⟨0, by omega, by omega⟩
    · obtain ⟨j, hj, hj'⟩ := ih (need - n * 2).toNat (by omega) (n := n * 2) (by omega) (by omega) rfl
      exact ⟨j + 1, by rw [pow_succ']; linarith, by rw [pow_succ']; linarith⟩

section Pushes

open LsLang.Undefined.Res

/-- The capacity of an empty `Vec` after so many pushes, counted in elements. -/
def pushed : ℕ → Res ℤ
  | 0 => .ok 0
  | n + 1 => do
    let cap ← pushed n
    let need ← asInt (n + 1)
    let g ← vecReserve 1 cap need
    pure g.cap

def PushedCap (n : ℕ) (cap : ℤ) : Prop := n ≤ cap ∧ (cap = 0 ∨ ∃ j ≤ 30, cap = 2 ^ j)

theorem PushedCap.le {n : ℕ} (h : PushedCap n cap) : cap ≤ 2 ^ 30 := by
  obtain ⟨-, rfl | ⟨j, hj, rfl⟩⟩ := h
  · norm_num
  · exact pow_le_pow_right₀ (by norm_num) hj

theorem doubled_exactly {n : ℕ} (h : PushedCap n cap) (hfull : ¬(n : ℤ) + 1 ≤ cap) :
    (doubled (n + 1) 32 (if cap < 4 then 4 else cap)).Exactly (n + 1 ≤ 2 ^ 30) (PushedCap (n + 1)) := by
  have hn := h.1
  by_cases hsmall : cap < 4
  · have hdone : doubled (n + 1) 32 4 = .ok 4 := if_neg (by omega)
    rw [if_pos hsmall, hdone]
    exact (Exactly.ok ⟨by push_cast; omega, .inr ⟨2, by omega, rfl⟩⟩).congr (iff_of_true trivial (by omega))
  · rw [if_neg hsmall, doubled, if_pos (by omega)]
    obtain rfl | ⟨j, hj, rfl⟩ := h.2
    · omega
    · obtain hlt | rfl := Nat.lt_or_eq_of_le hj
      · have hpow : (2 : ℤ) ^ j ≤ 2 ^ 29 := pow_le_pow_right₀ (by norm_num) (by omega)
        have hdone : doubled (n + 1) 31 (2 ^ j * 2) = .ok (2 ^ j * 2) := if_neg (by omega)
        rw [asInt_eq (by omega) (by omega), ok_bind, hdone]
        exact (Exactly.ok ⟨by push_cast; omega, .inr ⟨j + 1, by omega, (pow_succ 2 j).symm⟩⟩).congr
          (iff_of_true trivial (by omega))
      · have hstuck : asInt (2 ^ 30 * 2) = .stuck := if_neg (by norm_num)
        rw [hstuck]
        exact ⟨fun hc => absurd hc (by omega), fun _ hr => by cases hr⟩

theorem reserve_exactly {n : ℕ} (h : PushedCap n cap) :
    (vecReserve 1 cap (n + 1)).Exactly (n + 1 ≤ 2 ^ 30) fun g => PushedCap (n + 1) g.cap := by
  have hle := h.le
  unfold vecReserve
  by_cases hroom : (n : ℤ) + 1 ≤ cap
  · rw [if_pos hroom]
    exact (Exactly.ok ⟨by push_cast; exact hroom, h.2⟩).congr (iff_of_true trivial (by omega))
  · rw [if_neg hroom]
    refine ((doubled_exactly h hroom).bind (d := True) fun m hm => ?_).congr (and_iff_left trivial)
    have h0 := hm.1
    have hmax := hm.le
    rw [asLong_eq (by omega) (by omega)]
    exact Exactly.ok hm

theorem pushed_exactly (n : ℕ) : (pushed n).Exactly (n ≤ 2 ^ 30) (PushedCap n) := by
  induction n with
  | zero => exact (Exactly.ok ⟨le_rfl, .inl rfl⟩).congr (iff_of_true trivial (Nat.zero_le _))
  | succ n ih =>
    refine (ih.bind (d := n + 1 ≤ 2 ^ 30) fun cap hcap => ?_).congr (and_iff_right_of_imp fun h => by omega)
    have hn := hcap.1.trans hcap.le
    rw [asInt_eq (by omega) (by omega), ok_bind]
    refine ((reserve_exactly hcap).bind (d := True) fun g hg => Exactly.ok hg).congr (and_iff_left trivial)

end Pushes

end Growth

open LsLang.Undefined.Res in
/-- `push` onto a `Vec` that other pushes have filled. -/
def vecPush {α : Type} (x : α) (xs : List α) : Res (List α) := do
  let _cap ← Growth.pushed (xs.length + 1)
  pure (xs ++ [x])

open LsLang.Undefined.Res in
theorem vecPush_exactly {α : Type} (x : α) (xs : List α) :
    (vecPush x xs).Exactly (xs.length + 1 ≤ 2 ^ 30) (· = xs ++ [x]) :=
  ((Growth.pushed_exactly (xs.length + 1)).bind (d := True) (R := (· = xs ++ [x])) fun _ _ => Exactly.ok rfl).congr
    (and_iff_left trivial)

end LsLang.Core
