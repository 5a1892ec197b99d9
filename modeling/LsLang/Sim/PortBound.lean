import LsLang.Lib.LoadBalance
import LsLang.Sim.Uop
import Mathlib.Data.Fintype.Fin
import Mathlib.Algebra.BigOperators.Fin

/-! The port bound is the optimum of the fractional port assignment. -/

namespace LsLang.Sim

open Finset LoadBalance

namespace Density

/-- `d` is at most as dense as `e`. -/
def Le (d e : Density) : Prop := d.cnt * e.ss ≤ e.cnt * d.ss

theorem Le.trans {d e f : Density} (he : 0 < e.ss) (h₁ : d.Le e) (h₂ : e.Le f) : d.Le f := by
  unfold Le at *
  apply Nat.le_of_mul_le_mul_right _ he
  calc d.cnt * f.ss * e.ss = d.cnt * e.ss * f.ss := by ring
    _ ≤ e.cnt * d.ss * f.ss := Nat.mul_le_mul_right _ h₁
    _ = e.cnt * f.ss * d.ss := by ring
    _ ≤ f.cnt * e.ss * d.ss := Nat.mul_le_mul_right _ h₂
    _ = f.cnt * d.ss * e.ss := by ring

/-- The products with densities of this kind fit an `int`. -/
structure Fits (d : Density) (n nports : ℕ) : Prop where
  cnt_le : d.cnt ≤ n
  ss_le : d.ss ≤ nports
  ss_pos : 0 < d.ss

variable {n nports : ℕ} {d e : Density}

theorem Fits.i32_mul (hn : n * nports < 2 ^ 31) (hd : d.Fits n nports) (he : e.Fits n nports) :
    i32 (d.cnt * e.ss) = d.cnt * e.ss := by
  have hle : d.cnt * e.ss ≤ n * nports := Nat.mul_le_mul hd.cnt_le he.ss_le
  grind [i32_eq]

theorem better_eq (hn : n * nports < 2 ^ 31) (hd : d.Fits n nports) (he : e.Fits n nports) :
    d.better e = if e.cnt * d.ss > d.cnt * e.ss then e else d := by
  unfold better
  rw [he.i32_mul hn hd, hd.i32_mul hn he]
  norm_cast

theorem le_better (hn : n * nports < 2 ^ 31) (hd : d.Fits n nports) (he : e.Fits n nports) :
    d.Le (d.better e) ∧ e.Le (d.better e) := by
  rw [better_eq hn hd he]
  unfold Le
  grind

theorem better_cases (d e : Density) : d.better e = d ∨ d.better e = e := by
  unfold better
  split_ifs
  · exact Or.inr rfl
  · exact Or.inl rfl

theorem foldl_better (hn : n * nports < 2 ^ 31) (f : ℕ → Density) (masks : List ℕ)
    (hf : ∀ m ∈ masks, (f m).Fits n nports) (hd : d.Fits n nports) :
    let r := masks.foldl (fun best mask => best.better (f mask)) d
    r.Fits n nports ∧ d.Le r ∧ (∀ m ∈ masks, (f m).Le r) ∧ (r = d ∨ ∃ m ∈ masks, r = f m) := by
  induction masks generalizing d with
  | nil => exact ⟨hd, Nat.le_refl _, fun _ hm => (List.not_mem_nil hm).elim, Or.inl rfl⟩
  | cons m ms ih =>
    have hm := hf m List.mem_cons_self
    have hb : (d.better (f m)).Fits n nports := by grind [better_cases]
    obtain ⟨hfit, hle, hall, hex⟩ := ih (fun k hk => hf k (List.mem_cons_of_mem m hk)) hb
    have hstep := le_better hn hd hm
    rw [List.foldl_cons]
    have hpos : 0 < (d.better (f m)).ss := hb.ss_pos
    refine ⟨hfit, Le.trans hpos hstep.1 hle, ?_, ?_⟩
    · grind [Le.trans]
    · grind [List.mem_cons_of_mem, better_cases, List.mem_cons_self]

end Density

section sets
variable {nports : ℕ}

def portSet (nports mask : ℕ) : Finset (Fin nports) := {p | mask.testBit p = true}

theorem mem_portSet {mask : ℕ} {p : Fin nports} : p ∈ portSet nports mask ↔ mask.testBit p := by
  simp [portSet]

theorem popcount_eq_card (mask : ℕ) : popcount mask nports = #(portSet nports mask) := by
  unfold popcount portSet
  rw [card_filter, Fin.sum_univ_eq_sum_range fun p => if mask.testBit p = true then 1 else 0,
    ← card_filter, List.countP_eq_length_filter]
  exact (List.toFinset_card_of_nodup (List.nodup_range.filter _)).symm.trans <| by
    congr 1
    ext i
    simp

theorem exists_mask (S : Finset (Fin nports)) : ∃ mask < 2 ^ nports, portSet nports mask = S := by
  refine ⟨Nat.ofBits fun p => decide (p ∈ S), Nat.ofBits_lt_two_pow _, ?_⟩
  ext p
  rw [mem_portSet, Nat.testBit_ofBits_lt _ _ p.isLt]
  simp

theorem exists_mask_pos {S : Finset (Fin nports)} (hS : S.Nonempty) :
    ∃ mask ∈ List.range' 1 (2 ^ nports - 1), portSet nports mask = S := by
  obtain ⟨mask, hlt, rfl⟩ := exists_mask S
  refine ⟨mask, ?_, rfl⟩
  have hpos : mask ≠ 0 := by grind [mem_portSet]
  grind

theorem portSet_nonempty {mask : ℕ} (h : mask ∈ List.range' 1 (2 ^ nports - 1)) :
    (portSet nports mask).Nonempty := by
  rw [List.mem_range'_1] at h
  obtain ⟨i, hi⟩ := Nat.exists_testBit_of_ne_zero (show mask ≠ 0 by omega)
  have hlt : i < nports := by
    by_contra hge
    have : mask < 2 ^ i := by
      have := Nat.pow_le_pow_right (show 0 < 2 by decide) (not_lt.mp hge)
      omega
    rw [Nat.testBit_lt_two_pow this] at hi
    cases hi
  exact ⟨⟨i, hlt⟩, mem_portSet.mpr hi⟩

end sets

/-- The uops that have a port at all. -/
def routed (uops : List Uop) : List Uop := uops.filter fun u => !u.portMask.isEmpty

/-- The ports of the mask of a uop. -/
def Uop.ports (u : Uop) (nports : ℕ) : Finset (Fin nports) := {p | (p : ℕ) ∈ u.portMask}

/-- A way to distribute every uop with a non-empty mask over the ports of its mask. -/
abbrev Distribution (uops : List Uop) (nports : ℕ) : Type :=
  Spread fun i : Fin (routed uops).length => (routed uops)[i].ports nports

theorem conf_iff {u : Uop} {nports mask : ℕ} (hu : ∀ p ∈ u.portMask, p < nports) :
    u.conf mask = true ↔ u.portMask ≠ [] ∧ u.ports nports ⊆ portSet nports mask := by
  unfold Uop.conf
  rw [Bool.and_eq_true, List.all_eq_true, Bool.not_eq_true', List.isEmpty_eq_false_iff]
  refine and_congr_right fun _ => ⟨?_, ?_⟩
  · intro h p hp
    exact mem_portSet.mpr (h p (by simpa [Uop.ports] using hp))
  · intro h p hp
    exact mem_portSet.mp (h (show ⟨p, hu p hp⟩ ∈ u.ports nports by simpa [Uop.ports] using hp))

theorem card_filter_getElem {α : Type*} (l : List α) (q : α → Bool) :
    #{i : Fin l.length | q l[i] = true} = l.countP q := by
  induction l with
  | nil => rfl
  | cons a l ih =>
    rw [List.countP_cons, ← ih]
    exact (Fin.card_filter_univ_succ' _).trans (add_comm _ _)

theorem card_confined {uops : List Uop} {nports : ℕ} (hu : MasksWithin uops nports) (mask : ℕ) :
    #(confined (fun i : Fin (routed uops).length => (routed uops)[i].ports nports)
      (portSet nports mask)) = uops.countP (Uop.conf mask) := by
  have hr : uops.countP (Uop.conf mask) = (routed uops).countP (Uop.conf mask) := by
    rw [routed, List.countP_filter]
    apply List.countP_congr
    intro u _
    unfold Uop.conf
    grind
  rw [hr, ← card_filter_getElem]
  unfold confined
  congr 1
  ext i
  have hi := List.mem_filter.mp (List.getElem_mem (l := routed uops) i.isLt)
  have hne : (routed uops)[i].portMask ≠ [] := by simpa using hi.2
  rw [mem_filter, mem_filter, conf_iff (hu (routed uops)[i] hi.1)]
  grind

variable {uops : List Uop} {nports : ℕ}

theorem density_fits {mask : ℕ} (hm : mask ∈ List.range' 1 (2 ^ nports - 1)) :
    (density uops nports mask).Fits uops.length nports where
  cnt_le := List.countP_le_length
  ss_le := by
    exact List.countP_le_length.trans List.length_range.le
  ss_pos := by
    show 0 < popcount mask nports
    rw [popcount_eq_card]
    exact (portSet_nonempty hm).card_pos

theorem confined_mul_le (hpos : 1 ≤ nports) (hu : MasksWithin uops nports)
    (hn : uops.length * nports < 2 ^ 31) (S : Finset (Fin nports)) :
    #(confined (fun i : Fin (routed uops).length => (routed uops)[i].ports nports) S) *
      (bestDensity uops nports).ss ≤ (bestDensity uops nports).cnt * #S := by
  rcases S.eq_empty_or_nonempty with rfl | hS
  · have hnone : confined (fun i : Fin (routed uops).length => (routed uops)[i].ports nports) ∅ =
        ∅ := by
      rw [Finset.eq_empty_iff_forall_notMem]
      intro i hi
      have hr := List.mem_filter.mp (List.getElem_mem (l := routed uops) i.isLt)
      obtain ⟨p, hp⟩ := List.exists_mem_of_ne_nil (routed uops)[i].portMask (by simpa using hr.2)
      have hmem : (⟨p, hu _ hr.1 p hp⟩ : Fin nports) ∈ (routed uops)[i].ports nports := by
        simpa [Uop.ports] using hp
      simpa using mem_confined.mp hi hmem
    rw [hnone]
    simp
  · obtain ⟨mask, hm, rfl⟩ := exists_mask_pos hS
    have hinit : (Density.mk 0 1).Fits uops.length nports := ⟨Nat.zero_le _, hpos, Nat.one_pos⟩
    obtain ⟨-, -, hall, -⟩ :=
      Density.foldl_better hn (density uops nports) _ (fun _ => density_fits) hinit
    rw [card_confined hu, ← popcount_eq_card]
    exact hall mask hm

/-- The fraction that the port bound is computed from is the least load that the fullest port can
have. -/
theorem bestDensity_isLeast (uops : List Uop) (nports : ℕ) (hpos : 1 ≤ nports) (_ : nports < 31)
    (hu : MasksWithin uops nports) (hn : uops.length * nports < 2 ^ 31) :
    IsLeast {c : ℚ | ∃ d : Distribution uops nports, d.IsMaxLoad c}
      ((bestDensity uops nports).cnt / (bestDensity uops nports).ss) ∧
    (routed uops = [] → (bestDensity uops nports).cnt = 0) := by
  have hinit : (Density.mk 0 1).Fits uops.length nports := ⟨Nat.zero_le _, hpos, Nat.one_pos⟩
  obtain ⟨hfit, -, -, hex⟩ :=
    Density.foldl_better hn (density uops nports) _ (fun _ => density_fits) hinit
  have hle := confined_mul_le hpos hu hn
  constructor
  · rcases hex with h | ⟨mask, hm, h⟩
    · -- nothing is confined anywhere, and all ports together are a densest set
      have hb : bestDensity uops nports = ⟨0, 1⟩ := h
      refine isLeast_maxLoad hfit.ss_pos hle (S := univ) ⟨⟨0, hpos⟩, mem_univ _⟩ ?_
      have := hle univ
      rw [hb] at this ⊢
      simpa using this
    · have hb : bestDensity uops nports = density uops nports mask := h
      refine isLeast_maxLoad hfit.ss_pos hle (portSet_nonempty hm) ?_
      rw [card_confined hu, hb, ← popcount_eq_card]
      rfl
  · intro hr
    rcases hex with h | ⟨mask, -, h⟩
    · exact congrArg Density.cnt h
    · refine (congrArg Density.cnt h).trans (List.countP_eq_zero.mpr fun u hmem hc => ?_)
      unfold Uop.conf at hc
      rw [Bool.and_eq_true] at hc
      have : u ∈ routed uops := List.mem_filter.mpr ⟨hmem, hc.1⟩
      rw [hr] at this
      cases this

/-- A uop of latency 1 without sources. -/
def aluUop (portMask : List ℕ) : Uop := ⟨0, portMask, 1, [], false, false⟩

/-- Four operations that three ports can take. -/
theorem bestDensity_isLeast_alu :
    let uops := List.replicate 4 (aluUop [0, 1, 5])
    IsLeast {c : ℚ | ∃ d : Distribution uops 6, d.IsMaxLoad c}
      ((bestDensity uops 6).cnt / (bestDensity uops 6).ss) ∧
    (routed uops = [] → (bestDensity uops 6).cnt = 0) :=
  bestDensity_isLeast (List.replicate 4 (aluUop [0, 1, 5])) 6 (by decide) (by decide) (by decide)
    (by decide)

example : flowPortBound (List.replicate 4 (aluUop [0, 1, 5])) 6 = 16 := by decide +kernel

theorem bestDensity_wraps :
    bestDensity (List.replicate (2 ^ 30) (aluUop [0])) 2 = ⟨2 ^ 30, 2⟩ := by
  have hd : ∀ mask, density (List.replicate (2 ^ 30) (aluUop [0])) 2 mask =
      ⟨if (aluUop [0]).conf mask then 2 ^ 30 else 0, popcount mask 2⟩ := by
    intro mask
    unfold density
    rw [List.countP_replicate]
  have hr : List.range' 1 (2 ^ 2 - 1) = [1, 2, 3] := rfl
  unfold bestDensity
  rw [hr]
  simp only [List.foldl_cons, List.foldl_nil, hd]
  decide

/-- Half a load is found, with `2 ^ 30` uops that one port has to take. -/
theorem bestDensity_not_isLeast :
    let uops := List.replicate (2 ^ 30) (aluUop [0])
    MasksWithin uops 2 ∧ ¬IsLeast {c : ℚ | ∃ d : Distribution uops 2, d.IsMaxLoad c}
      ((bestDensity uops 2).cnt / (bestDensity uops 2).ss) := by
  intro uops
  have hu : MasksWithin uops 2 := by
    intro u hmem p hp
    rw [List.eq_of_mem_replicate hmem] at hp
    rw [List.mem_singleton.mp hp]
    decide
  refine ⟨hu, fun hleast => ?_⟩
  rw [bestDensity_wraps] at hleast
  obtain ⟨d, hd⟩ := hleast.1
  have hle := d.le_of_isMaxLoad hd (portSet 2 1)
  have hconf : uops.countP (Uop.conf 1) = 2 ^ 30 := by
    rw [List.countP_replicate]
    rfl
  have hcard : #(portSet 2 1) = 1 := rfl
  rw [card_confined hu, hconf, hcard] at hle
  norm_num at hle

end LsLang.Sim
