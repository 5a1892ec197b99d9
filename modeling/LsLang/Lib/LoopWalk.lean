import Mathlib.Algebra.Order.Ring.Int
import Mathlib.Data.List.Chain
import Mathlib.Data.List.Nodup
import Mathlib.Logic.Relation
import Mathlib.Tactic.Linarith
import Mathlib.Tactic.Ring

/-! Walks along weighted steps whose only cycles are loops at one node. -/

namespace LoopWalk

open Relation

variable {α : Type*} (R : α → α → ℤ → Prop)

def Step (a b : α) : Prop := ∃ g, R a b g

def OnlyLoops : Prop := ∀ a b, TransGen (Step R) a b → TransGen (Step R) b a → a = b

inductive Walk (a : α) : α → List α → ℤ → Prop
  | nil : Walk a a [a] 0
  | snoc {b d : α} {l : List α} {c g : ℤ} : Walk a b l c → R b d g → Walk a d (d :: l) (c + g)

variable {R} {a b : α} {l : List α} {c : ℤ}

theorem Walk.length_pos (h : Walk R a b l c) : 0 < l.length := by
  cases h with
  | nil => exact Nat.one_pos
  | snoc => exact Nat.succ_pos _

theorem Walk.reach (h : Walk R a b l c) {v : α} (hv : v ∈ l) : ReflTransGen (Step R) v b := by
  induction h with
  | nil =>
    grind
  | snoc h hg ih =>
    rcases List.mem_cons.mp hv with rfl | hv
    · exact ReflTransGen.refl
    · exact (ih hv).tail ⟨_, hg⟩

theorem Walk.eq_cons (h : Walk R a b l c) : ∃ l', l = b :: l' := by
  cases h with
  | nil => exact ⟨[], rfl⟩
  | snoc => exact ⟨_, rfl⟩

theorem Walk.isChain (h : Walk R a b l c) : l.IsChain fun x y => Step R y x := by
  induction h with
  | nil => grind
  | snoc h hg ih =>
    obtain ⟨l', rfl⟩ := h.eq_cons
    exact List.isChain_cons_cons.mpr ⟨⟨_, hg⟩, ih⟩

theorem Walk.drop_loop (hR : OnlyLoops R) (h : Walk R a b l c) (hl : ¬l.Nodup) :
    ∃ v g l', R v v g ∧ Walk R a b l' (c - g) ∧ l'.length + 1 = l.length := by
  induction h with
  | nil => grind
  | @snoc b d l c g h hg ih =>
    by_cases hnd : l.Nodup
    · have hd : d ∈ l := by grind
      have hdb : d = b := by
        by_contra hne
        have hgo : TransGen (Step R) d b := (reflTransGen_iff_eq_or_transGen.mp (h.reach hd)).resolve_left
          (Ne.symm hne)
        exact hne (hR d b hgo (TransGen.single ⟨g, hg⟩))
      subst hdb
      refine ⟨d, g, l, hg, ?_, rfl⟩
      rwa [add_sub_cancel_right]
    · obtain ⟨v, g', l', hv, hw, hlen⟩ := ih hnd
      refine ⟨v, g', d :: l', hv, ?_, by simpa using hlen⟩
      rw [add_sub_right_comm]
      exact hw.snoc hg

theorem Walk.closed_le (hR : OnlyLoops R) {best : ℤ} (hbest : ∀ v g, R v v g → g ≤ best)
    (h : Walk R a b l c) (hback : ReflTransGen (Step R) b a) :
    b = a ∧ c ≤ ((l.length : ℤ) - 1) * best := by
  induction h with
  | nil => simp
  | @snoc b d l c g h hg ih =>
    obtain ⟨rfl, hle⟩ := ih (ReflTransGen.head ⟨g, hg⟩ hback)
    have hd : d = b := by
      rcases reflTransGen_iff_eq_or_transGen.mp hback with heq | hgo
      · exact heq.symm
      · exact hR d b hgo (TransGen.single ⟨g, hg⟩)
    subst hd
    have hg' := hbest d g hg
    refine ⟨rfl, ?_⟩
    rw [List.length_cons]
    push_cast
    linarith

end LoopWalk
