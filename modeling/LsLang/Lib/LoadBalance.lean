import Mathlib.Algebra.BigOperators.Field
import Mathlib.Algebra.Order.BigOperators.Group.Finset
import Mathlib.Algebra.Order.Field.Rat
import Mathlib.Combinatorics.Hall.Basic
import Mathlib.Tactic.Positivity
import Mathlib.Tactic.Ring

/-! Items that may each be split over some of the places, and the least load that the fullest
place can have: that of the densest set of places. -/

namespace LoadBalance

open Finset

variable {ι P : Type*} [Fintype ι] [Fintype P] [DecidableEq P]

structure Spread (A : ι → Finset P) where
  share : ι → P → ℚ
  nonneg : ∀ i p, 0 ≤ share i p
  within : ∀ i p, p ∉ A i → share i p = 0
  total : ∀ i, ∑ p, share i p = 1

variable {A : ι → Finset P}

def Spread.load (d : Spread A) (p : P) : ℚ := ∑ i, d.share i p

/-- The largest load of a place. -/
def Spread.IsMaxLoad (d : Spread A) (c : ℚ) : Prop := IsGreatest (Set.range d.load) c

/-- The items that have to go to `S`. -/
def confined (A : ι → Finset P) (S : Finset P) : Finset ι := {i | A i ⊆ S}

omit [Fintype P] in
theorem mem_confined {S : Finset P} {i : ι} : i ∈ confined A S ↔ A i ⊆ S := by
  simp [confined]

theorem Spread.total_of_confined (d : Spread A) {S : Finset P} {i : ι} (hi : i ∈ confined A S) :
    ∑ p ∈ S, d.share i p = 1 := by
  rw [← d.total i]
  apply Finset.sum_subset (Finset.subset_univ S)
  intro p _ hp
  exact d.within i p fun hA => hp (mem_confined.mp hi hA)

theorem Spread.card_confined_le (d : Spread A) (S : Finset P) :
    (#(confined A S) : ℚ) ≤ ∑ p ∈ S, d.load p := by
  calc (#(confined A S) : ℚ) = ∑ i ∈ confined A S, ∑ p ∈ S, d.share i p := by
        rw [Finset.sum_congr rfl fun i hi => d.total_of_confined hi]
        simp
    _ ≤ ∑ i, ∑ p ∈ S, d.share i p := by
        apply Finset.sum_le_univ_sum_of_nonneg
        exact fun i => Finset.sum_nonneg fun p _ => d.nonneg i p
    _ = ∑ p ∈ S, d.load p := Finset.sum_comm

theorem Spread.le_of_isMaxLoad (d : Spread A) {c : ℚ} (hc : d.IsMaxLoad c) (S : Finset P) :
    (#(confined A S) : ℚ) ≤ #S * c := by
  apply (d.card_confined_le S).trans
  rw [← nsmul_eq_mul]
  exact Finset.sum_le_card_nsmul _ _ _ fun p _ => hc.2 ⟨p, rfl⟩

section exists_spread

variable {a b : ℕ}

omit [Fintype P] in
theorem exists_placement (h : ∀ S, #(confined A S) * b ≤ a * #S) :
    ∃ f : ι × Fin b → P × Fin a, Function.Injective f ∧ ∀ x, (f x).1 ∈ A x.1 := by
  classical
  let t : ι × Fin b → Finset (P × Fin a) := fun x => A x.1 ×ˢ univ
  obtain ⟨f, hinj, hf⟩ := (Finset.all_card_le_biUnion_card_iff_exists_injective t).mp <| by
    intro X
    let S : Finset P := X.biUnion fun x => A x.1
    have hX : X ⊆ confined A S ×ˢ univ := by
      intro x hx
      refine mem_product.mpr ⟨mem_confined.mpr fun p hp => ?_, mem_univ _⟩
      grind
    have ht : X.biUnion t = S ×ˢ univ := by grind
    calc #X ≤ #(confined A S ×ˢ (univ : Finset (Fin b))) := card_le_card hX
      _ = #(confined A S) * b := by rw [card_product, card_univ, Fintype.card_fin]
      _ ≤ a * #S := h S
      _ = #(X.biUnion t) := by rw [ht, card_product, card_univ, Fintype.card_fin, mul_comm]
  grind

def part (f : ι × Fin b → P × Fin a) (i : ι) (p : P) : ℚ := #{k | (f (i, k)).1 = p} / b

omit [Fintype ι] in
theorem sum_part (hb : 0 < b) (f : ι × Fin b → P × Fin a) (i : ι) : ∑ p, part f i p = 1 := by
  have hcard : ∑ p, #{k | (f (i, k)).1 = p} = b := by
    rw [← card_eq_sum_card_fiberwise (f := fun k => (f (i, k)).1) fun _ _ => mem_coe.mpr (mem_univ _)]
    simp
  unfold part
  rw [← Finset.sum_div, ← Nat.cast_sum, hcard]
  exact div_self (by positivity)

omit [Fintype P] in
theorem sum_part_le {f : ι × Fin b → P × Fin a} (hf : Function.Injective f) (p : P) :
    ∑ i, part f i p ≤ a / b := by
  classical
  have hcard : ∑ i, #{k | (f (i, k)).1 = p} ≤ a := by
    calc ∑ i, #{k | (f (i, k)).1 = p} = #{x : ι × Fin b | (f x).1 = p} := by
          simp only [card_filter]
          rw [← univ_product_univ, sum_product]
      _ ≤ #(({p} : Finset P) ×ˢ (univ : Finset (Fin a))) := by
          apply card_le_card_of_injOn f _ hf.injOn
          intro x hx
          grind
      _ = a := by simp
  unfold part
  rw [← Finset.sum_div, ← Nat.cast_sum]
  gcongr

theorem exists_spread (hb : 0 < b) (h : ∀ S, #(confined A S) * b ≤ a * #S) :
    ∃ d : Spread A, ∀ p, d.load p ≤ a / b := by
  obtain ⟨f, hinj, hf⟩ := exists_placement h
  refine ⟨⟨part f, fun i p => div_nonneg (Nat.cast_nonneg _) (Nat.cast_nonneg _), fun i p hp => ?_, sum_part hb f⟩,
    sum_part_le hinj⟩
  have hempty : ({k | (f (i, k)).1 = p} : Finset (Fin b)) = ∅ := by grind
  unfold part
  rw [hempty]
  simp

end exists_spread

theorem isLeast_maxLoad {a b : ℕ} (hb : 0 < b) (h : ∀ S, #(confined A S) * b ≤ a * #S)
    {S : Finset P} (hS : S.Nonempty) (hd : #(confined A S) * b = a * #S) :
    IsLeast {c : ℚ | ∃ d : Spread A, d.IsMaxLoad c} (a / b) := by
  have hb' : (0 : ℚ) < b := by exact_mod_cast hb
  have hS' : (0 : ℚ) < #S := by exact_mod_cast hS.card_pos
  have hd' : (#(confined A S) : ℚ) * b = a * #S := by exact_mod_cast hd
  have hlow : ∀ d : Spread A, ∀ c, d.IsMaxLoad c → (a : ℚ) / b ≤ c := by
    intro d c hc
    rw [div_le_iff₀ hb']
    apply le_of_mul_le_mul_right _ hS'
    calc (a : ℚ) * #S = #(confined A S) * b := hd'.symm
      _ ≤ #S * c * b := mul_le_mul_of_nonneg_right (d.le_of_isMaxLoad hc S) hb'.le
      _ = c * b * #S := by ring
  refine ⟨?_, fun c ⟨d, hc⟩ => hlow d c hc⟩
  obtain ⟨d, hle⟩ := exists_spread hb h
  obtain ⟨q, -, hq⟩ := univ.exists_max_image d.load (hS.mono (subset_univ S))
  have hmax : d.IsMaxLoad (d.load q) := by
    refine ⟨⟨q, rfl⟩, ?_⟩
    rintro _ ⟨p, rfl⟩
    exact hq p (mem_univ p)
  grind

end LoadBalance
