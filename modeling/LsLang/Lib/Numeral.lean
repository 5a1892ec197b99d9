import Mathlib.Data.Nat.Digits.Lemmas

/-! Numbers written in a base: their digits, most significant first. -/

namespace LsLang.Lib

variable {b n m d : ℕ} {ds ds' : List ℕ}

structure Numeral (b n : ℕ) (ds : List ℕ) : Prop where
  ne_nil : ds ≠ []
  lt_base : ∀ d ∈ ds, d < b
  no_leading_zero : ds.head? = some 0 → ds = [0]
  value : Nat.ofDigits b ds.reverse = n

namespace Numeral

theorem single (h : d < b) : Numeral b d [d] where
  ne_nil := List.cons_ne_nil _ _
  lt_base := by grind
  no_leading_zero := by grind
  value := Nat.ofDigits_singleton

theorem concat (h : Numeral b n ds) (hn : 0 < n) (hd : d < b) : Numeral b (b * n + d) (ds ++ [d]) where
  ne_nil := List.concat_ne_nil _ _
  lt_base := by
    intro x hx
    rcases List.mem_append.1 hx with hx | hx
    · exact h.lt_base x hx
    grind
  no_leading_zero := by
    intro hhead
    rw [List.head?_append_of_ne_nil _ h.ne_nil] at hhead
    -- the digits before would be those of zero
    have hvalue := h.value
    rw [h.no_leading_zero hhead] at hvalue
    exact absurd hvalue hn.ne
  value := by
    rw [List.reverse_append, List.reverse_singleton, List.singleton_append, Nat.ofDigits_cons, h.value, add_comm]

theorem of_div (hb : 0 < b) (hn : b ≤ n) (h : Numeral b (n / b) ds) : Numeral b n (ds ++ [n % b]) := by
  have hconcat := h.concat (Nat.div_pos hn hb) (Nat.mod_lt n hb)
  rwa [Nat.div_add_mod] at hconcat

theorem head_eq_zero (h : Numeral b 0 ds) (hb : 1 < b) : ds = [0] := by
  obtain ⟨d, rest, rfl⟩ := List.exists_cons_of_ne_nil h.ne_nil
  have hzero := Nat.digits_zero_of_eq_zero (by omega) h.value d (List.mem_reverse.2 List.mem_cons_self)
  exact h.no_leading_zero (congrArg some hzero)

theorem eq_digits (h : Numeral b n ds) (hb : 1 < b) (hn : 0 < n) : Nat.digits b n = ds.reverse := by
  rw [← h.value]
  refine Nat.digits_ofDigits b hb _ (fun x hx => h.lt_base x (List.mem_reverse.1 hx)) fun hne hlast => ?_
  rw [List.getLast_reverse] at hlast
  have hhead : ds.head? = some 0 := by
    rw [List.head?_eq_some_head h.ne_nil, hlast]
  have hvalue := h.value
  rw [h.no_leading_zero hhead] at hvalue
  exact hn.ne hvalue

theorem unique (h : Numeral b n ds) (h' : Numeral b n ds') (hb : 1 < b) : ds = ds' := by
  rcases Nat.eq_zero_or_pos n with rfl | hn
  · rw [h.head_eq_zero hb, h'.head_eq_zero hb]
  · exact List.reverse_injective ((h.eq_digits hb hn).symm.trans (h'.eq_digits hb hn))

theorem value_unique (h : Numeral b n ds) (h' : Numeral b m ds) : n = m := h.value.symm.trans h'.value

end Numeral

end LsLang.Lib
