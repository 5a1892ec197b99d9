import Mathlib.Algebra.BigOperators.Group.Finset.Basic
import Mathlib.Algebra.Order.BigOperators.Group.Finset
import Mathlib.Data.Finset.Lattice.Fold
import Mathlib.Logic.Relation

/-! Points of a graph from which a marked point can be reached. -/

namespace LsLang.Lib

variable {α β : Type*}

def Reaches (edge : α → α → Prop) (mark : α → Prop) (x : α) : Prop :=
  ∃ y, Relation.ReflTransGen edge x y ∧ mark y

namespace Reaches

variable {edge edge' : α → α → Prop} {mark mark' : α → Prop} {x y : α}

theorem here (h : mark x) : Reaches edge mark x := ⟨x, .refl, h⟩

theorem step (hxy : edge x y) (h : Reaches edge mark y) : Reaches edge mark x := by
  obtain ⟨z, hyz, hz⟩ := h
  exact ⟨z, .head hxy hyz, hz⟩

theorem closed {p : α → Prop} (hmark : ∀ x, mark x → p x) (hedge : ∀ x y, edge x y → p y → p x)
    (h : Reaches edge mark x) : p x := by
  obtain ⟨y, hpath, hy⟩ := h
  induction hpath using Relation.ReflTransGen.head_induction_on with
  | refl => exact hmark y hy
  | head hab _ ih => exact hedge _ _ hab ih

theorem absorb (hmark : ∀ x, mark' x → Reaches edge mark x) (h : Reaches edge mark' x) :
    Reaches edge mark x :=
  h.closed hmark fun _ _ hxy hy => hy.step hxy

theorem rename {edgeN : β → β → Prop} {markN : β → Prop} (names : α → β → Prop)
    (hmark : ∀ x a, names x a → mark x → markN a)
    (hedge : ∀ x y a, names x a → ¬ markN a → edge x y → ∃ b, names y b ∧ edgeN a b)
    {x : α} {a : β} (hx : names x a) (h : Reaches edge mark x) : Reaches edgeN markN a := by
  have hall : ∀ a, names x a → Reaches edgeN markN a := by
    refine h.closed (p := fun x => ∀ a, names x a → Reaches edgeN markN a) ?_ ?_
    · intro x hx a ha
      exact .here (hmark x a ha hx)
    grind [here, step]
  exact hall a hx

end Reaches

end LsLang.Lib
