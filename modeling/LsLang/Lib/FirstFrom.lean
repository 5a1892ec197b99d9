import Mathlib.Data.List.Basic
import Mathlib.Data.List.Infix
import Mathlib.Data.Nat.Find
import Mathlib.Tactic.Common

/-! The first position from a start on that has a property, and searches that pass over others. -/

namespace LsLang.Lib

/-- `r` is the first position from `s` on where `P` holds, if there is one. -/
def FirstFrom (P : Nat → Prop) (s : Nat) (r : Option Nat) : Prop :=
  match r with
  | some i => s ≤ i ∧ P i ∧ ∀ j, s ≤ j → j < i → ¬ P j
  | none => ∀ j, s ≤ j → ¬ P j

namespace FirstFrom

variable {P Q : Nat → Prop} {s s' : Nat} {r : Option Nat}

theorem here (h : P s) : FirstFrom P s (some s) := ⟨Nat.le_refl s, h, fun _ hj hlt => absurd hj (Nat.not_le.2 hlt)⟩

theorem skip (h : FirstFrom P s' r) (hle : s ≤ s') (hno : ∀ j, s ≤ j → j < s' → ¬ P j) : FirstFrom P s r := by
  cases r with
  | some i =>
    obtain ⟨hi, hp, hfirst⟩ := h
    refine ⟨Nat.le_trans hle hi, hp, fun j hj hlt => ?_⟩
    grind
  | none =>
    intro j hj
    rcases Nat.lt_or_ge j s' with hj' | hj'
    · exact hno j hj hj'
    · exact h j hj'

theorem congr (h : FirstFrom P s r) (hPQ : ∀ j, s ≤ j → (P j ↔ Q j)) : FirstFrom Q s r := by
  cases r with
  | some i =>
    obtain ⟨hi, hp, hfirst⟩ := h
    exact ⟨hi, (hPQ i hi).1 hp, fun j hj hlt hq => hfirst j hj hlt ((hPQ j hj).2 hq)⟩
  | none => exact fun j hj hq => h j hj ((hPQ j hj).2 hq)

theorem unique {r' : Option Nat} (h : FirstFrom P s r) (h' : FirstFrom P s r') : r = r' := by
  cases r with
  | none =>
    cases r' with
    | none => rfl
    | some j => exact absurd h'.2.1 (h j h'.1)
  | some i =>
    cases r' with
    | none => exact absurd h.2.1 (h' i h.1)
    | some j =>
      obtain ⟨hi, hpi, hbefore⟩ := h
      obtain ⟨hj, hpj, hbefore'⟩ := h'
      grind

end FirstFrom

theorem findIdx?_eq_some_iff_getElem? {α : Type} {p : α → Bool} {l : List α} {i : Nat} : l.findIdx? p = some i ↔
    (∃ a, l[i]? = some a ∧ p a = true) ∧ ∀ j < i, ∀ b, l[j]? = some b → p b = false := by
  rw [List.findIdx?_eq_some_iff_getElem]
  constructor
  · grind
  · grind

theorem firstFrom_findIdx? {α : Type} (p : α → Bool) (l : List α) (s : Nat) :
    FirstFrom (fun j => ∃ a, l[j]? = some a ∧ p a = true) s (((l.drop s).findIdx? p).map (s + ·)) := by
  have hget : ∀ j, (l.drop s)[j]? = l[s + j]? := fun j => List.getElem?_drop
  cases h : (l.drop s).findIdx? p with
  | some i =>
    obtain ⟨⟨a, ha, hp⟩, hfirst⟩ := findIdx?_eq_some_iff_getElem?.1 h
    rw [hget] at ha
    refine ⟨Nat.le_add_right s i, ⟨a, ha, hp⟩, ?_⟩
    rintro j hj hlt ⟨b, hb, hpb⟩
    obtain ⟨k, rfl⟩ := Nat.exists_eq_add_of_le hj
    grind
  | none =>
    rintro j hj ⟨b, hb, hpb⟩
    grind [List.findIdx?_eq_none_iff, List.mem_of_getElem?, Nat.exists_eq_add_of_le]

end LsLang.Lib

/-! A list cut at a separator: at the first place where it stands, and again behind it. -/

namespace LsLang.Lib

variable {α : Type}

/-- `sep` stands in `s` at `j`. -/
def StandsAt (sep s : List α) (j : ℕ) : Prop := sep <+: s.drop j

/-- The pieces of a list between the separators that a search from the left comes to. -/
inductive Separated (sep : List α) : List α → List (List α) → Prop
  | last {s : List α} : (∀ j, ¬ StandsAt sep s j) → Separated sep s [s]
  | cut {s : List α} {p : ℕ} {pieces : List (List α)} : FirstFrom (StandsAt sep s) 0 (some p) →
    Separated sep (s.drop (p + sep.length)) pieces → Separated sep s (s.take p :: pieces)

section Stands

variable {sep s : List α} {j k : ℕ}

theorem standsAt_drop : StandsAt sep (s.drop k) j ↔ StandsAt sep s (k + j) := by
  unfold StandsAt
  rw [List.drop_drop]

theorem StandsAt.le (h : StandsAt sep s j) (hne : sep ≠ []) : j + sep.length ≤ s.length := by
  have hlen := h.length_le
  have hpos := List.length_pos_iff.2 hne
  grind

theorem StandsAt.of_take (h : StandsAt sep (s.take k) j) (hne : sep ≠ []) : StandsAt sep s j ∧ j < k := by
  have hle := h.le hne
  have hpos := List.length_pos_iff.2 hne
  rw [List.length_take] at hle
  refine ⟨?_, by omega⟩
  unfold StandsAt at h ⊢
  rw [List.drop_take] at h
  grind

theorem StandsAt.split (h : StandsAt sep s j) : s.drop j = sep ++ s.drop (j + sep.length) := by
  obtain ⟨t, ht⟩ := h
  rw [← List.drop_drop, ← ht, List.drop_left]

end Stands

namespace Separated

variable {sep s : List α} {pieces : List (List α)}

theorem ne_nil (h : Separated sep s pieces) : pieces ≠ [] := by
  cases h with
  | last _ => exact List.cons_ne_nil _ _
  | cut _ _ => exact List.cons_ne_nil _ _

theorem join (h : Separated sep s pieces) : sep.intercalate pieces = s := by
  induction h with
  | last _ => exact List.intercalate_singleton
  | @cut s p pieces hp hrest ih =>
    rw [List.intercalate_cons_of_ne_nil hrest.ne_nil, ih, List.append_assoc, ← StandsAt.split hp.2.1,
      List.take_append_drop]

/-- Every list falls into pieces. -/
theorem exists_pieces (hne : sep ≠ []) (s : List α) : ∃ pieces, Separated sep s pieces := by
  induction hn : s.length using Nat.strong_induction_on generalizing s with
  | _ n ih =>
    by_cases hno : ∀ j, ¬ StandsAt sep s j
    · exact ⟨[s], .last hno⟩
    obtain ⟨j, hj⟩ := not_forall_not.1 hno
    obtain ⟨p, hp, hmin⟩ : ∃ p, StandsAt sep s p ∧ ∀ k < p, ¬ StandsAt sep s k := by
      classical
      exact ⟨Nat.find ⟨j, hj⟩, Nat.find_spec ⟨j, hj⟩, fun k hk => Nat.find_min ⟨j, hj⟩ hk⟩
    have hfirst : FirstFrom (StandsAt sep s) 0 (some p) := ⟨Nat.zero_le p, hp, fun k _ hk => hmin k hk⟩
    have hlt : (s.drop (p + sep.length)).length < n := by
      have hle := StandsAt.le hp hne
      have hpos := List.length_pos_iff.2 hne
      rw [List.length_drop]
      omega
    obtain ⟨pieces, hrest⟩ := ih _ hlt (s.drop (p + sep.length)) rfl
    exact ⟨s.take p :: pieces, .cut hfirst hrest⟩

theorem free (h : Separated sep s pieces) (hne : sep ≠ []) : ∀ piece ∈ pieces, ∀ j, ¬ StandsAt sep piece j := by
  induction h with
  | last hno =>
    grind
  | @cut s p pieces hp hrest ih =>
    intro piece hpiece
    rcases List.mem_cons.1 hpiece with rfl | hpiece
    · intro j hj
      obtain ⟨hstands, hlt⟩ := hj.of_take hne
      exact hp.2.2 j (Nat.zero_le j) hlt hstands
    · exact ih piece hpiece

end Separated

end LsLang.Lib
