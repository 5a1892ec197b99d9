import LsLang.Lib.Packing
import LsLang.Lsm.LiveRanges
import Mathlib.Algebra.Order.BigOperators.Group.List

/-! The planner keeps outputs that are live together apart: what is placed so far is apart, and every next
output goes where it hits none of it. -/

namespace LsLang.Lsm

open LsLang.Core LsLang.Lib

section Needs

theorem static_nonneg (x : ℤ) : 0 ≤ static x := by
  unfold static
  split <;> omega

theorem elements_nonneg (dims : List ℤ) : 0 ≤ elements dims := by
  unfold elements
  induction dims with
  | nil => exact zero_le_one
  | cons d dims ih => exact mul_nonneg (static_nonneg d) ih

variable {o : Op}

theorem padded_bounds (o : Op) : elements o.dims ≤ padded o ∧ 0 ≤ padded o ∧ 16 ∣ padded o := by
  have h := elements_nonneg o.dims
  unfold padded
  grind

end Needs

section Place

variable {need : ℤ} {ivs : List (ℤ × ℤ)}

def blocks (need : ℤ) (iv : ℤ × ℤ) (place : ℤ) : Bool := place < iv.2 ∧ iv.1 < i32 (place + need)

theorem findPlace_eq (need : ℤ) (ivs : List (ℤ × ℤ)) (passes : ℕ) (place : ℤ) :
    findPlace need ivs passes place = settle (blocks need) Prod.snd ivs passes place := by
  have hbump : bump need = fun s iv => if blocks need iv s.1 then (iv.2, true) else s := by
    funext s iv
    unfold bump blocks
    grind
  induction passes generalizing place with
  | zero => rfl
  | succ passes ih =>
    unfold findPlace settle sweep
    rw [hbump]
    simp only [ih]

theorem findPlace_spec {passes : ℕ} (hpasses : ivs.length < passes)
    (hend : ∀ iv ∈ ivs, 0 ≤ iv.2 ∧ iv.2 + need < 2 ^ 31) (hneed : 0 ≤ need)
    (hroom : need < 2 ^ 31) :
    ∃ place, findPlace need ivs passes 0 = some place ∧
      (place = 0 ∨ ∃ iv ∈ ivs, place = iv.2) ∧
      ∀ iv ∈ ivs, iv.2 ≤ place ∨ place + need ≤ iv.1 := by
  have hpast : ∀ iv ∈ ivs, ∀ x, blocks need iv x → x < iv.2 := by
    intro iv _ x h
    unfold blocks at h
    grind
  obtain ⟨place, hplace, -, hclear, hwhere⟩ := settle_spec hpast passes 0
    (lt_of_le_of_lt List.countP_le_length hpasses)
  have hexact : i32 (place + need) = place + need := by grind [i32_eq]
  refine ⟨place, by rw [findPlace_eq]; exact hplace, hwhere, fun iv hiv => ?_⟩
  have h := hclear iv hiv
  unfold blocks at h
  grind

end Place

section Run

variable {need : List ℤ} {lastuse : List ℕ} {passes : ℕ}

/-- The outputs in `done` are placed: where, how far up, and apart if they are live together. -/
structure Placed (need : List ℤ) (lastuse : List ℕ) (done : List ℕ) (s : List ℤ × ℤ) : Prop where
  length : s.1.length = need.length
  free : ∀ b < need.length, b ∉ done → s.1.getD b 0 = -1
  nonneg : ∀ b ∈ done, 0 ≤ s.1.getD b 0
  aligned : ∀ b ∈ done, 16 ∣ s.1.getD b 0
  top : ∀ b ∈ done, s.1.getD b 0 + need.getD b 0 ≤ s.2
  peak_le : s.2 ≤ (done.map fun b => need.getD b 0).sum
  attained : s.2 = 0 ∧ done = [] ∨ ∃ b ∈ done, s.2 = s.1.getD b 0 + need.getD b 0
  apart : ∀ b ∈ done, ∀ p ∈ done, b ≠ p → b ≤ lastuse.getD p 0 → p ≤ lastuse.getD b 0 →
    s.1.getD b 0 + need.getD b 0 ≤ s.1.getD p 0 ∨ s.1.getD p 0 + need.getD p 0 ≤ s.1.getD b 0

theorem mem_intervals {offset : List ℤ} {b : ℕ} {iv : ℤ × ℤ} :
    iv ∈ intervals need lastuse offset b ↔ ∃ p < offset.length, 0 ≤ offset.getD p 0 ∧
      p ≤ lastuse.getD b 0 ∧ b ≤ lastuse.getD p 0 ∧
      iv = (offset.getD p 0, i32 (offset.getD p 0 + need.getD p 0)) := by
  unfold intervals
  grind

variable {done : List ℕ} {s : List ℤ × ℤ} {b : ℕ}

theorem Placed.intervals_spec (h : Placed need lastuse done s) (hneed : ∀ b, 0 ≤ need.getD b 0)
    (hsum : s.2 < 2 ^ 31) {iv : ℤ × ℤ} (hiv : iv ∈ intervals need lastuse s.1 b) :
    ∃ p ∈ done, p ≤ lastuse.getD b 0 ∧ b ≤ lastuse.getD p 0 ∧
      iv = (s.1.getD p 0, s.1.getD p 0 + need.getD p 0) := by
  obtain ⟨p, hp, h0, h1, h2, rfl⟩ := mem_intervals.1 hiv
  have hdone : p ∈ done := by
    by_contra hnot
    have := h.free p (by rw [← h.length]; exact hp) hnot
    omega
  have htop := h.top p hdone
  grind [i32_eq]

theorem Placed.peak_nonneg (h : Placed need lastuse done s) (hneed : ∀ b, 0 ≤ need.getD b 0) :
    0 ≤ s.2 := by
  rcases h.attained with ⟨h0, -⟩ | ⟨b, hb, hpeak⟩
  · omega
  · have := h.nonneg b hb
    have := hneed b
    omega

theorem Placed.place (h : Placed need lastuse done s) (hneed : ∀ b, 0 ≤ need.getD b 0)
    (h16 : ∀ b, 16 ∣ need.getD b 0) (hdone : ∀ p ∈ done, p < need.length)
    (hsum : s.2 + need.getD b 0 < 2 ^ 31) (hpasses : need.length < passes) :
    ∃ place, findPlace (need.getD b 0) (intervals need lastuse s.1 b) passes 0 = some place ∧
      0 ≤ place ∧ 16 ∣ place ∧ place ≤ s.2 ∧
      ∀ p ∈ done, p ≤ lastuse.getD b 0 → b ≤ lastuse.getD p 0 →
        place + need.getD b 0 ≤ s.1.getD p 0 ∨ s.1.getD p 0 + need.getD p 0 ≤ place := by
  have hnb := hneed b
  have h0 := h.peak_nonneg hneed
  have hlen : (intervals need lastuse s.1 b).length < passes := by
    refine lt_of_le_of_lt ?_ hpasses
    unfold intervals
    rw [List.length_map, ← h.length]
    grind
  have hspec : ∀ iv ∈ intervals need lastuse s.1 b, ∃ p ∈ done,
      p ≤ lastuse.getD b 0 ∧ b ≤ lastuse.getD p 0 ∧
        iv = (s.1.getD p 0, s.1.getD p 0 + need.getD p 0) := fun iv hiv =>
    h.intervals_spec hneed (by omega) hiv
  have hend : ∀ iv ∈ intervals need lastuse s.1 b, 0 ≤ iv.2 ∧ iv.2 ≤ s.2 ∧ 16 ∣ iv.2 := by
    intro iv hiv
    obtain ⟨p, hp, -, -, rfl⟩ := hspec iv hiv
    have hoff := h.nonneg p hp
    have hn := hneed p
    exact ⟨by simp only; omega, h.top p hp, (h.aligned p hp).add (h16 p)⟩
  obtain ⟨place, hplace, hwhere, hclear⟩ := @findPlace_spec (need.getD b 0) _ _ hlen
    (fun iv hiv => ⟨(hend iv hiv).1, by grind⟩) hnb (by omega)
  refine ⟨place, hplace, ?_, ?_, ?_, ?_⟩
  · grind
  · grind
  · grind
  · intro p hp h1 h2
    have htop := h.top p hp
    have hn := hneed p
    have hiv : (s.1.getD p 0, s.1.getD p 0 + need.getD p 0) ∈ intervals need lastuse s.1 b :=
      mem_intervals.2 ⟨p, by rw [h.length]; exact hdone p hp, h.nonneg p hp, h1, h2,
        by have hoff := h.nonneg p hp; rw [i32_eq (by omega) (by omega)]⟩
    grind

theorem Placed.step (h : Placed need lastuse done s) (hneed : ∀ b, 0 ≤ need.getD b 0)
    (h16 : ∀ b, 16 ∣ need.getD b 0) (hb : b < need.length) (hnew : b ∉ done)
    (hdone : ∀ p ∈ done, p < need.length)
    (hsum : ((b :: done).map fun b => need.getD b 0).sum < 2 ^ 31)
    (hpasses : need.length < passes) :
    ∃ s', placeOne need lastuse passes s b = some s' ∧ Placed need lastuse (b :: done) s' := by
  rw [List.map_cons, List.sum_cons] at hsum
  have hnb := hneed b
  have hpeak := h.peak_le
  have hpeak0 := h.peak_nonneg hneed
  obtain ⟨place, hplace, h0, halign, hle, hclear⟩ := h.place hneed h16 hdone (b := b) (by omega)
    hpasses
  have hat : ∀ p < need.length, (s.1.set b place).getD p 0 = if b = p then place
      else s.1.getD p 0 := fun p hp => getD_set _ _ _ _ _ (by rw [h.length]; exact hp)
  have hself : (s.1.set b place).getD b 0 = place := by rw [hat b hb, if_pos rfl]
  have hother : ∀ p ∈ done, (s.1.set b place).getD p 0 = s.1.getD p 0 := by grind
  have htop : i32 (place + need.getD b 0) = place + need.getD b 0 := i32_eq (by omega) (by omega)
  refine ⟨(s.1.set b place, max (place + need.getD b 0) s.2), ?_, ?_⟩
  · unfold placeOne
    grind
  · refine ⟨?_, ?_, ?_, ?_, ?_, ?_, ?_, ?_⟩
    · rw [List.length_set, h.length]
    · intro p hp hnot
      rw [List.mem_cons, not_or] at hnot
      rw [hat p hp, if_neg fun hbp => hnot.1 hbp.symm]
      exact h.free p hp hnot.2
    · rw [List.forall_mem_cons, hself]
      exact ⟨h0, fun p hp => by rw [hother p hp]; exact h.nonneg p hp⟩
    · rw [List.forall_mem_cons, hself]
      exact ⟨halign, fun p hp => by rw [hother p hp]; exact h.aligned p hp⟩
    · rw [List.forall_mem_cons, hself]
      exact ⟨le_max_left _ _, fun p hp => by
        rw [hother p hp]; exact (h.top p hp).trans (le_max_right _ _)⟩
    · grind
    · refine .inr ?_
      rcases h.attained with ⟨hzero, -⟩ | ⟨p, hp, hp'⟩
      · grind
      grind
    · have hnext : ∀ p ∈ done, p ≤ lastuse.getD b 0 → b ≤ lastuse.getD p 0 →
          place + need.getD b 0 ≤ s.1.getD p 0 ∨ s.1.getD p 0 + need.getD p 0 ≤ place := hclear
      rw [List.forall_mem_cons]
      refine ⟨?_, fun q hq => ?_⟩
      · grind
      · rw [List.forall_mem_cons, hself, hother q hq]
        refine ⟨fun _ hqb hbq => (hnext q hq hqb hbq).symm, fun p hp hne hqp hpq => ?_⟩
        rw [hother p hp]
        exact h.apart q hq p hp hne hqp hpq

theorem Placed.run (hneed : ∀ b, 0 ≤ need.getD b 0) (h16 : ∀ b, 16 ∣ need.getD b 0)
    (hpasses : need.length < passes) : ∀ (order done : List ℕ) (s : List ℤ × ℤ),
    Placed need lastuse done s → (∀ b ∈ order, b < need.length) → (∀ p ∈ done, p < need.length) →
    order.Nodup → (∀ b ∈ order, b ∉ done) →
    ((order ++ done).map fun b => need.getD b 0).sum < 2 ^ 31 →
    ∃ s', order.foldlM (placeOne need lastuse passes) s = some s' ∧
      Placed need lastuse (order.reverse ++ done) s' := by
  intro order
  induction order with
  | nil => grind
  | cons b order ih =>
    intro done s h horder hdone hnodup hfresh hsum
    obtain ⟨hb, horder⟩ := List.forall_mem_cons.1 horder
    obtain ⟨hbo, hnodup⟩ := List.nodup_cons.1 hnodup
    obtain ⟨hnew, hfresh⟩ := List.forall_mem_cons.1 hfresh
    have hperm : (b :: order ++ done).Perm (order ++ b :: done) := List.perm_middle.symm
    rw [(hperm.map _).sum_eq] at hsum
    have hrest : 0 ≤ (order.map fun b => need.getD b 0).sum :=
      List.sum_nonneg (by grind)
    have hbelow : ((b :: done).map fun b => need.getD b 0).sum < 2 ^ 31 := by grind
    obtain ⟨s', hs', h'⟩ := h.step hneed h16 hb hnew hdone hbelow hpasses
    obtain ⟨s'', hs'', h''⟩ := ih (b :: done) s' h' horder
      (List.forall_mem_cons.2 ⟨hb, hdone⟩) hnodup
      (fun p hp hmem => by grind) hsum
    refine ⟨s'', ?_, ?_⟩
    · grind
    · grind

end Run

end LsLang.Lsm
