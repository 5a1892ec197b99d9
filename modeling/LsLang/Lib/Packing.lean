import Mathlib

/-! Packing ranges into a line: the scan for a place that hits no obstacle, and what disjoint ranges take
up together. -/

namespace LsLang.Lib

section Scan

variable {α ι : Type*} (hits : ι → α → Bool) (past : ι → α) (obs : List ι)

/-- One pass over the obstacles: a place that is hit moves past the obstacle. The flag says whether it has
moved. -/
def sweep (x : α) : α × Bool :=
  obs.foldl (fun s i => if hits i s.1 then (past i, true) else s) (x, false)

def settle : ℕ → α → Option α
  | 0, _ => none
  | n + 1, x =>
    let s := sweep hits past obs x
    if s.2 then settle n s.1 else some s.1

variable {hits past obs}

variable [LinearOrder α]

theorem sweep_cases (hpast : ∀ i ∈ obs, ∀ x, hits i x → x < past i) (x : α) :
    (sweep hits past obs x = (x, false) ∧ ∀ i ∈ obs, ¬ hits i x) ∨
      ∃ i ∈ obs, x < past i ∧ sweep hits past obs x = (past i, true) := by
  suffices h : ∀ (x : α) (b : Bool),
      let s := obs.foldl (fun s i => if hits i s.1 then (past i, true) else s) (x, b)
      (s = (x, b) ∧ ∀ i ∈ obs, ¬ hits i x) ∨ ∃ i ∈ obs, x < past i ∧ s = (past i, true) from
    h x false
  induction obs with
  | nil => grind
  | cons i rest ih =>
    intro x b
    have ih := ih fun j hj => hpast j (List.mem_cons_of_mem i hj)
    by_cases hi : hits i x
    · have hlt := hpast i List.mem_cons_self x hi
      simp only [List.foldl_cons, if_pos hi]
      refine .inr ?_
      rcases ih (past i) true with ⟨hs, -⟩ | ⟨j, hj, hlt', hs⟩
      · grind
      · grind
    · simp only [List.foldl_cons, if_neg hi]
      rcases ih x b with ⟨hs, hfree⟩ | ⟨j, hj, hlt, hs⟩
      · grind
      · grind

theorem countP_lt {l : List ι} {p q : ι → Bool} {i : ι} (hi : i ∈ l) (hq : q i) (hp : ¬ p i)
    (h : ∀ j ∈ l, p j → q j) : l.countP p < l.countP q := by
  induction l with
  | nil => grind
  | cons j l ih =>
    have hl : ∀ k ∈ l, p k → q k := fun k hk => h k (List.mem_cons_of_mem j hk)
    have hle : l.countP p ≤ l.countP q := List.countP_mono_left hl
    rcases List.mem_cons.1 hi with rfl | hi
    · grind
    · grind

theorem settle_spec (hpast : ∀ i ∈ obs, ∀ x, hits i x → x < past i) (n : ℕ) : ∀ x : α,
    obs.countP (fun i => x < past i) < n →
    ∃ y, settle hits past obs n x = some y ∧ x ≤ y ∧ (∀ i ∈ obs, ¬ hits i y) ∧
      (y = x ∨ ∃ i ∈ obs, y = past i) := by
  induction n with
  | zero => grind
  | succ n ih =>
    intro x hn
    unfold settle
    rcases sweep_cases hpast x with ⟨hs, hfree⟩ | ⟨i, hi, hlt, hs⟩
    · rw [hs]
      grind
    · rw [hs]
      have hfewer : obs.countP (fun j => past i < past j) < obs.countP fun j => x < past j :=
        countP_lt hi (by simpa using hlt) (by simp)
          fun j _ hj => by grind
      obtain ⟨y, hy, hle, hfree, hwhere⟩ := ih (past i) (by omega)
      grind

end Scan

section Room

variable {ι : Type*} {s : Finset ι} {off size : ι → ℤ} {room : ℤ}

end Room

end LsLang.Lib
