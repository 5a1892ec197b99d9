import Mathlib.Data.List.Induction
import Mathlib.Logic.Basic
import Mathlib.Logic.Function.Basic

/-! Finite runs of a labelled step relation, and the rules that carry an
invariant of the states and of the labels seen so far along a run. -/

namespace Transition

variable {σ ε : Type*} {step : σ → ε → σ → Prop}

/-- The run from `s` to `u` whose steps carry the labels `es`, in the order they happen. -/
inductive Run (step : σ → ε → σ → Prop) (s : σ) : List ε → σ → Prop
  | refl : Run step s [] s
  | snoc {es : List ε} {t u : σ} {e : ε} : Run step s es t → step t e u → Run step s (es ++ [e]) u

theorem Run.invariant {I : List ε → σ → Prop} {s t : σ} {es : List ε} (h : Run step s es t)
    (h₀ : I [] s) (hstep : ∀ es t e u, I es t → step t e u → I (es ++ [e]) u) : I es t := by
  induction h with
  | refl => exact h₀
  | snoc _ hs ih => exact hstep _ _ _ _ ih hs

theorem Run.mono (step' : σ → ε → σ → Prop) (hsub : ∀ s e t, step s e t → step' s e t) {s t : σ}
    {es : List ε} (h : Run step s es t) : Run step' s es t := by
  induction h with
  | refl => exact .refl
  | snoc _ hs ih => exact ih.snoc (hsub _ _ _ hs)

theorem Run.single {s t : σ} {e : ε} (h : step s e t) : Run step s [e] t :=
  Run.snoc .refl h

theorem Run.snoc_inv {s u : σ} {es : List ε} {e : ε} (h : Run step s (es ++ [e]) u) :
    ∃ t, Run step s es t ∧ step t e u := by
  generalize hes : es ++ [e] = fs at h
  cases h with
  | refl => simp at hes
  | snoc hr hs =>
    grind [List.head_eq_of_cons_eq, List.append_inj']

theorem Run.split {s u : σ} {es fs : List ε} (h : Run step s (es ++ fs) u) :
    ∃ t, Run step s es t ∧ Run step t fs u := by
  induction fs using List.reverseRecOn generalizing u with
  | nil => exact ⟨u, by simpa using h, .refl⟩
  | append_singleton fs e ih =>
    rw [← List.append_assoc] at h
    obtain ⟨v, hv, hs⟩ := h.snoc_inv
    obtain ⟨t, ht, hf⟩ := ih hv
    exact ⟨t, ht, hf.snoc hs⟩

theorem Run.step_at {s u : σ} {l fs : List ε} {e : ε} (h : Run step s (l ++ e :: fs) u) :
    ∃ t t', Run step s l t ∧ step t e t' ∧ Run step t' fs u := by
  rw [show l ++ e :: fs = (l ++ [e]) ++ fs by simp] at h
  obtain ⟨t', ht', hf⟩ := h.split
  obtain ⟨t, ht, hs⟩ := ht'.snoc_inv
  grind

theorem Run.simulate {σ' ε' : Type*} {step' : σ' → ε' → σ' → Prop} {R : σ → σ' → Prop}
    (view : ε → ε')
    (hsim : ∀ s s' e t, R s s' → step s e t → ∃ t', R t t' ∧ step' s' (view e) t')
    {s t : σ} {s' : σ'} {es : List ε} (hR : R s s') (h : Run step s es t) :
    ∃ t', R t t' ∧ Run step' s' (es.map view) t' := by
  induction h with
  | refl => exact ⟨s', hR, .refl⟩
  | snoc _ hs ih =>
    obtain ⟨u', hu, hr⟩ := ih
    obtain ⟨v', hv, hs'⟩ := hsim _ _ _ _ hu hs
    refine ⟨v', hv, ?_⟩
    rw [List.map_append]
    exact hr.snoc hs'

end Transition

/-! Two computations that may fail, run side by side: what their results have in common when both return. -/

namespace LsLang.Lib

def Lockstep {ε α β : Type} (R : α → β → Prop) (x : Except ε α) (y : Except ε β) : Prop :=
  ∀ a b, x = .ok a → y = .ok b → R a b

namespace Lockstep

variable {ε α β γ δ : Type} {R : α → β → Prop} {S : γ → δ → Prop} {x : Except ε α} {y : Except ε β}

theorem ok {a : α} {b : β} (h : R a b) : Lockstep R (.ok a : Except ε α) (.ok b) := by
  rintro _ _ ⟨⟩ ⟨⟩
  exact h

theorem left (e : ε) : Lockstep R (.error e) y := by
  rintro a b h
  cases h

theorem right (e : ε) : Lockstep R x (.error e) := by
  rintro a b - h
  cases h

theorem bind {f : α → Except ε γ} {g : β → Except ε δ} (h : Lockstep R x y)
    (hfg : ∀ a b, R a b → Lockstep S (f a) (g b)) : Lockstep S (x >>= f) (y >>= g) := by
  intro c d hc hd
  cases x with
  | error => cases hc
  | ok a =>
    cases y with
    | error => cases hd
    | ok b => exact hfg a b (h a b rfl rfl) c d hc hd

theorem ite {p q : Prop} [Decidable p] [Decidable q] {x' : Except ε α} {y' : Except ε β} (hpq : p ↔ q)
    (h : p → Lockstep R x y) (h' : ¬ p → Lockstep R x' y') :
    Lockstep R (if p then x else x') (if q then y else y') := by grind

theorem imp {R' : α → β → Prop} (h : Lockstep R x y) (hR : ∀ a b, R a b → R' a b) : Lockstep R' x y :=
  fun a b ha hb => hR a b (h a b ha hb)

end Lockstep

end LsLang.Lib
