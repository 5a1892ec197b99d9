import LsLang.Word

/-! The loop by which `channel`, `new_ring` and `new_mpmc_ring` round a capacity
up to a power of two, and the slot a cursor addresses under the mask. -/

namespace LsLang.Sync

/-- `while n < capacity { n = n * 2 }`; `none` when the loop is still running
after `fuel` tests. -/
def roundUp : Nat → Int → Int → Option Int
  | 0, _, _ => none
  | fuel + 1, n, capacity =>
    if n < capacity then roundUp fuel (i32 (n * 2)) capacity else some n

theorem roundUp_zero (fuel : Nat) {capacity : Int} (h : 0 < capacity) :
    roundUp fuel 0 capacity = none := by
  induction fuel with
  | zero => rfl
  | succ fuel ih =>
    rw [roundUp, if_pos h]
    exact ih

theorem i32_double_top : i32 ((2 ^ 30 : Nat) * 2) = -2 ^ 31 := by decide

theorem i32_double_min : i32 (-2 ^ 31 * 2) = 0 := by decide

theorem i32_double {j : Nat} (hj : j < 30) : i32 ((2 ^ j : Nat) * 2) = (2 ^ (j + 1) : Nat) := by
  have hlo : 0 < 2 ^ j := Nat.two_pow_pos j
  have hhi : 2 ^ j < 2 ^ 30 := Nat.pow_lt_pow_right (by omega) hj
  generalize hm : 2 ^ j = m at *
  rw [pow_succ, hm, i32_eq (by omega) (by omega)]
  push_cast
  rfl

theorem roundUp_min (fuel : Nat) {capacity : Int} (h : 0 < capacity) :
    roundUp fuel (-2 ^ 31) capacity = none := by
  cases fuel with
  | zero => rfl
  | succ fuel =>
    rw [roundUp, if_pos (by omega), i32_double_min]
    exact roundUp_zero fuel h

theorem roundUp_pow {fuel j : Nat} {capacity n : Int} (hj : j ≤ 30)
    (h : roundUp fuel (2 ^ j : Nat) capacity = some n) :
    ∃ k ≤ 30, n = (2 ^ k : Nat) ∧ capacity ≤ n := by
  induction fuel generalizing j with
  | zero => cases h
  | succ fuel ih =>
    rw [roundUp] at h
    split_ifs at h with hlt
    · grind [i32_double_top, roundUp_min, i32_double, Nat.lt_or_ge]
    · grind

theorem roundUp_one {fuel : Nat} {capacity n : Int} (h : roundUp fuel 1 capacity = some n) :
    ∃ k ≤ 30, n = (2 ^ k : Nat) ∧ capacity ≤ n :=
  roundUp_pow (j := 0) (by omega) h

theorem and_mask {cap x : Nat} {k : Nat} (h : cap = 2 ^ k) : x &&& (cap - 1) = x % cap := by
  subst h
  exact Nat.and_two_pow_sub_one_eq_mod x k

end LsLang.Sync
