import Mathlib.Data.Bool.AllAny
import Mathlib.Data.List.Infix
import Mathlib.Data.List.TakeWhile
import Mathlib.Tactic.Common

/-! Scanning a list until a test on what is left holds, and until a pattern is ahead. -/

namespace LsLang.Lib

section ScanUntil

variable {α β : Type*} {stop : List α → Bool}

def scanUntil (stop : List α → Bool) : List α → List α × List α
  | [] => ([], [])
  | a :: as =>
    if stop (a :: as) then ([], a :: as)
    else
      let s := scanUntil stop as
      (a :: s.1, s.2)

theorem scanUntil_stop {rest : List α} (h : rest = [] ∨ stop rest) :
    scanUntil stop rest = ([], rest) := by
  cases rest with
  | nil => rfl
  | cons a as =>
    unfold scanUntil
    grind

theorem scanUntil_append {rest : List α} (hrest : rest = [] ∨ stop rest) : ∀ xs : List α,
    (∀ ys, ys ≠ [] → ys <:+ xs → ¬ stop (ys ++ rest)) →
    scanUntil stop (xs ++ rest) = (xs, rest) := by
  intro xs
  induction xs with
  | nil => exact fun _ => scanUntil_stop hrest
  | cons x xs ih =>
    intro h
    have hx : ¬ stop (x :: (xs ++ rest)) :=
      h (x :: xs) (List.cons_ne_nil x xs) (List.suffix_refl _)
    have hxs := ih fun ys hne hys => h ys hne (hys.trans (List.suffix_cons x xs))
    rw [List.cons_append, scanUntil, if_neg hx, hxs]

theorem scanUntil_head {p : α → Bool} {xs rest : List α} (hxs : ∀ x ∈ xs, ¬ p x)
    (hrest : rest = [] ∨ ∃ a, rest.head? = some a ∧ p a) :
    scanUntil (fun s => s.head?.any p) (xs ++ rest) = (xs, rest) := by
  apply scanUntil_append
  · grind
  · intro ys hne hys
    obtain ⟨y, ys, rfl⟩ := List.exists_cons_of_ne_nil hne
    exact hxs y (hys.subset List.mem_cons_self)

theorem scanUntil_split {p : List α → Bool} (s : List α) : (scanUntil p s).1 ++ (scanUntil p s).2 = s := by
  induction s with
  | nil => rfl
  | cons a as ih =>
    unfold scanUntil
    grind

theorem scanUntil_not_stop {p : List α → Bool} (s : List α) : ∀ ys, ys ≠ [] → ys <:+ (scanUntil p s).1 →
    ¬ p (ys ++ (scanUntil p s).2) := by
  induction s with
  | nil =>
    intro ys hne hys
    exact absurd (List.suffix_nil.1 hys) hne
  | cons a as ih =>
    intro ys hne hys
    by_cases hstop : p (a :: as)
    · rw [scanUntil, if_pos hstop] at hys
      grind
    · rw [scanUntil, if_neg hstop] at hys ⊢
      grind [List.cons_append, scanUntil_split, List.suffix_cons_iff]

end ScanUntil

section Pattern

variable {α β : Type*} [DecidableEq β] {f : α → β} {pat : List β}

def Borderless (pat : List β) : Prop := ∀ k < pat.length, 0 < k → ¬ pat.drop k <+: pat

instance (pat : List β) : Decidable (Borderless pat) :=
  inferInstanceAs (Decidable (∀ k < pat.length, 0 < k → ¬ pat.drop k <+: pat))

theorem scanUntil_pattern (hpat : Borderless pat) {xs rest : List α} (hxs : ¬ pat <:+: xs.map f)
    (hrest : pat <+: rest.map f) :
    scanUntil (fun s => pat.isPrefixOf (s.map f)) (xs ++ rest) = (xs, rest) := by
  apply scanUntil_append
  · grind
  intro ys hne hys hstop
  have hfound : pat <+: ys.map f ++ rest.map f := by grind
  by_cases hlen : pat.length ≤ (ys.map f).length
  · have hin : pat <+: ys.map f := List.prefix_of_prefix_length_le hfound (List.prefix_append _ _) hlen
    grind
  -- the pattern begins in `ys` and goes on in `rest`, where it begins again
  · have hcut : (ys.map f) <+: pat :=
      List.prefix_of_prefix_length_le (List.prefix_append _ _) hfound (by omega)
    obtain ⟨tail, htail⟩ := hcut
    have hdrop : pat.drop (ys.map f).length = tail := by grind
    have htail' : tail <+: rest.map f := by grind [List.prefix_append_right_inj]
    refine hpat (ys.map f).length (by omega) ?_ ?_
    · grind
    grind [List.prefix_of_prefix_length_le, List.length_append]

theorem scanUntil_pattern_not {q : List β} (hpat : q ≠ []) (s : List α) :
    ¬ q <:+: (scanUntil (fun s => q.isPrefixOf (s.map f)) s).1.map f := by
  rintro ⟨as, bs, heq⟩
  rw [List.append_assoc] at heq
  obtain ⟨xs, ys, hxy, -, hys⟩ := List.map_eq_append_iff.1 heq.symm
  have hne : ys ≠ [] := by
    rintro rfl
    exact hpat (List.append_eq_nil_iff.1 hys.symm).1
  apply scanUntil_not_stop (p := fun s => q.isPrefixOf (s.map f)) s ys hne ⟨xs, hxy.symm⟩
  grind

end Pattern

end LsLang.Lib
