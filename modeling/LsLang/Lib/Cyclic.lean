import Mathlib.Data.Nat.ModEq

/-! Positions of a cyclic array of `n` slots, counted forward from a base. -/

namespace Cyclic

variable {n b i j : ℕ}

theorem add_mod_inj (hi : i < n) (hj : j < n) (h : (b + i) % n = (b + j) % n) : i = j := by
  have hm : i ≡ j [MOD n] := Nat.ModEq.add_left_cancel' b h
  rwa [Nat.ModEq, Nat.mod_eq_of_lt hi, Nat.mod_eq_of_lt hj] at hm

theorem succ_add_mod : ((b + 1) % n + i) % n = (b + (i + 1)) % n := by
  rw [Nat.mod_add_mod, Nat.add_assoc, Nat.add_comm 1 i]

theorem add_succ_mod : ((b + i) % n + 1) % n = (b + (i + 1)) % n := by
  rw [Nat.mod_add_mod, Nat.add_assoc]

theorem add_mod_cases {d : ℕ} (hi : i < n) (hd : d ≤ n) :
    (i + d) % n = i + d ∧ i + d < n ∨ (i + d) % n + n = i + d ∧ n ≤ i + d := by
  rcases Nat.lt_or_ge (i + d) n with h | h
  · exact .inl ⟨Nat.mod_eq_of_lt h, h⟩
  · rcases Nat.lt_or_ge (i + d) (n + n) with h' | h'
    · rw [Nat.mod_eq_sub_mod h, Nat.mod_eq_of_lt (by omega)]
      omega
    grind

theorem succ_mod_cases (hi : i < n) :
    (i + 1) % n = i + 1 ∧ i + 1 < n ∨ (i + 1) % n = 0 ∧ i + 1 = n := by
  have := add_mod_cases (d := 1) hi (by omega)
  omega

theorem eq_sub_mod {d : ℕ} (hb : b < n) (hd : d < n) (hat : (b + d) % n = i) :
    d = (i + n - b) % n := by
  rcases add_mod_cases hb hd.le with ⟨he, hlt⟩ | ⟨he, hge⟩
  · rw [show i + n - b = d + n by omega, Nat.add_mod_right, Nat.mod_eq_of_lt hd]
  · rw [show i + n - b = d by omega, Nat.mod_eq_of_lt hd]

end Cyclic
