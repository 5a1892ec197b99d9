import Mathlib.Data.List.Perm.Basic
import Mathlib.Order.Defs.Unbundled
import Mathlib.Tactic.Common

/-! Bottom-up merge sort. A comparison is two relations: `P x y` when it may put `x` first and `Q x y` when it may put
`y` first, so that one that contradicts itself is a comparison as well. -/

namespace LsLang.Lib

variable {α : Type} {P Q : α → α → Prop} {le : α → α → Prop}

inductive Merge (P Q : α → α → Prop) : List α → List α → List α → Prop
  | left (xs : List α) : Merge P Q xs [] xs
  | right (ys : List α) : Merge P Q [] ys ys
  | first {x y : α} {xs ys zs : List α} : P x y → Merge P Q xs (y :: ys) zs → Merge P Q (x :: xs) (y :: ys) (x :: zs)
  | second {x y : α} {xs ys zs : List α} : Q x y → Merge P Q (x :: xs) ys zs → Merge P Q (x :: xs) (y :: ys) (y :: zs)

theorem Merge.perm {xs ys zs : List α} (h : Merge P Q xs ys zs) : zs.Perm (xs ++ ys) := by
  induction h with
  | left xs => rw [List.append_nil]
  | right ys => exact .refl _
  | first _ _ ih => exact ih.cons _
  | second _ _ ih => exact (ih.cons _).trans List.perm_middle.symm

/-- The relations of a comparison that tells the order `le`. -/
structure Tells (P Q le : α → α → Prop) : Prop where
  le_of_first : ∀ {x y}, P x y → le x y
  not_le_of_second : ∀ {x y}, Q x y → ¬ le x y
  total : ∀ x y, le x y ∨ le y x
  trans : ∀ {x y z}, le x y → le y z → le x z

theorem Tells.le_of_second (ht : Tells P Q le) {x y : α} (h : Q x y) : le y x :=
  (ht.total x y).resolve_left (ht.not_le_of_second h)

theorem Merge.sorted (ht : Tells P Q le) {xs ys zs : List α} (h : Merge P Q xs ys zs) (hx : xs.Pairwise le)
    (hy : ys.Pairwise le) : zs.Pairwise le := by
  induction h with
  | left xs => exact hx
  | right ys => exact hy
  | @first x y xs ys zs hp hm ih =>
    refine List.pairwise_cons.2 ⟨fun z hz => ?_, ih (List.pairwise_cons.1 hx).2 hy⟩
    rcases List.mem_append.1 (hm.perm.mem_iff.1 hz) with hz | hz
    · exact (List.pairwise_cons.1 hx).1 z hz
    · rcases List.mem_cons.1 hz with rfl | hz
      · exact ht.le_of_first hp
      · exact ht.trans (ht.le_of_first hp) ((List.pairwise_cons.1 hy).1 z hz)
  | @second x y xs ys zs hq hm ih =>
    refine List.pairwise_cons.2 ⟨fun z hz => ?_, ih hx (List.pairwise_cons.1 hy).2⟩
    rcases List.mem_append.1 (hm.perm.mem_iff.1 hz) with hz | hz
    · rcases List.mem_cons.1 hz with rfl | hz
      · exact ht.le_of_second hq
      · exact ht.trans (ht.le_of_second hq) ((List.pairwise_cons.1 hx).1 z hz)
    · exact (List.pairwise_cons.1 hy).1 z hz

theorem Merge.filter (ht : Tells P Q le) {E : α → Bool} (hE : ∀ x y, E x = true → E y = true → le x y)
    {xs ys zs : List α} (h : Merge P Q xs ys zs) (hx : xs.Pairwise le) :
    zs.filter E = xs.filter E ++ ys.filter E := by
  induction h with
  | left xs => grind
  | right ys => rfl
  | @first x y xs ys zs _ _ ih =>
    grind
  | @second x y xs ys zs hq _ ih =>
    rw [List.filter_cons, ih hx, List.filter_cons (x := y)]
    split
    · next hy =>
      -- nothing of the first run is in the class of an element that is less than its head
      have hnone : (x :: xs).filter E = [] := by
        refine List.filter_eq_nil_iff.2 fun z hz hEz => ht.not_le_of_second hq ?_
        rcases List.mem_cons.1 hz with rfl | hz
        · exact hE z y hEz hy
        · exact ht.trans ((List.pairwise_cons.1 hx).1 z hz) (hE z y hEz hy)
      rw [hnone]
      rfl
    · rfl

/-- The elements at places of one block of `w` are in order. -/
def RunsSorted (le : α → α → Prop) (w : ℕ) (l : List α) : Prop :=
  ∀ ⦃i j : ℕ⦄ ⦃x y : α⦄, i < j → i / w = j / w → l[i]? = some x → l[j]? = some y → le x y

/-- One pass: neighbouring runs of `w` are merged, the last ones as far as they are there. -/
inductive Pass (P Q : α → α → Prop) (w : ℕ) : List α → List α → Prop
  | start : Pass P Q w [] []
  | block {l l' xs ys zs : List α} : Pass P Q w l l' → 2 * w ∣ l.length → xs.length ≤ w → ys.length ≤ w →
      (ys ≠ [] → xs.length = w) → Merge P Q xs ys zs → Pass P Q w (l ++ (xs ++ ys)) (l' ++ zs)

theorem Pass.perm {w : ℕ} {l l' : List α} (h : Pass P Q w l l') : l'.Perm l := by
  induction h with
  | start => exact .refl _
  | block _ _ _ _ _ hm ih => exact ih.append hm.perm

theorem Pass.length {w : ℕ} {l l' : List α} (h : Pass P Q w l l') : l'.length = l.length := h.perm.length_eq

theorem RunsSorted.append_left {w : ℕ} {l k : List α} (h : RunsSorted le w (l ++ k)) : RunsSorted le w l := by
  intro i j x y hij hdiv hx hy
  have hi := (List.getElem?_eq_some_iff.1 hx).1
  have hj := (List.getElem?_eq_some_iff.1 hy).1
  exact h hij hdiv (by grind) (by grind)

theorem RunsSorted.pairwise {w : ℕ} (hw : 0 < w) {l xs k : List α} (h : RunsSorted le w (l ++ (xs ++ k)))
    (hl : w ∣ l.length) (hx : xs.length ≤ w) : xs.Pairwise le := by
  refine List.pairwise_iff_getElem.2 fun i j hi hj hij => ?_
  obtain ⟨b, hb⟩ := hl
  have hget : ∀ {i} (hi : i < xs.length), (l ++ (xs ++ k))[l.length + i]? = some xs[i] := by grind
  have hblock : ∀ {i}, i < xs.length → (l.length + i) / w = b := by
    intro i hi
    rw [hb, Nat.mul_add_div hw, Nat.div_eq_of_lt (Nat.lt_of_lt_of_le hi hx), Nat.add_zero]
  exact h (Nat.add_lt_add_left hij _) ((hblock hi).trans (hblock hj).symm) (hget hi) (hget hj)

theorem Pass.runsSorted (ht : Tells P Q le) {w : ℕ} (hw : 0 < w) {l l' : List α} (h : Pass P Q w l l')
    (hs : RunsSorted le w l) : RunsSorted le (2 * w) l' := by
  induction h with
  | start =>
    intro i j x y _ _ hx
    simp at hx
  | @block l l' xs ys zs hp hdvd hx hy hfull hm ih =>
    have hlw : w ∣ l.length := Nat.dvd_trans (Nat.dvd_mul_left w 2) hdvd
    have hxs : xs.Pairwise le := hs.pairwise hw hlw hx
    have hys : ys.Pairwise le := by
      cases ys with
      | nil => exact .nil
      | cons y ys =>
        have hlast : RunsSorted le w ((l ++ xs) ++ ((y :: ys) ++ [])) := by grind
        refine hlast.pairwise hw ?_ hy
        rw [List.length_append, hfull (List.cons_ne_nil y ys)]
        exact Nat.dvd_add hlw (Nat.dvd_refl w)
    have hzs := hm.sorted ht hxs hys
    obtain ⟨b, hb⟩ := hdvd
    have hlen := hp.length
    have hzlen : zs.length ≤ 2 * w := by
      rw [hm.perm.length_eq, List.length_append]
      omega
    intro i j x y hij hdiv hi hj
    rcases Nat.lt_or_ge i l'.length with hil | hil
    · -- the block of `i` ends inside `l'`
      have hjl : j < l'.length := by
        rw [hlen, hb] at hil ⊢
        rw [Nat.mul_comm] at hil ⊢
        exact (Nat.div_lt_iff_lt_mul (by omega)).1 (hdiv ▸ (Nat.div_lt_iff_lt_mul (by omega)).2 hil)
      rw [List.getElem?_append_left hil] at hi
      rw [List.getElem?_append_left hjl] at hj
      exact ih hs.append_left hij hdiv hi hj
    grind [List.getElem?_append_right, List.getElem?_eq_some_iff, List.pairwise_iff_getElem]

theorem Pass.filter (ht : Tells P Q le) {E : α → Bool} (hE : ∀ x y, E x = true → E y = true → le x y) {w : ℕ}
    (hw : 0 < w) {l l' : List α} (h : Pass P Q w l l') (hs : RunsSorted le w l) : l'.filter E = l.filter E := by
  induction h with
  | start => rfl
  | block _ hdvd hx _ _ hm ih =>
    have hlw : w ∣ _ := Nat.dvd_trans (Nat.dvd_mul_left w 2) hdvd
    rw [List.filter_append, List.filter_append, List.filter_append, ih hs.append_left,
      hm.filter ht hE (hs.pairwise hw hlw hx)]

/-- What has become of `l` when runs of `w` are merged next. -/
inductive Passes (P Q : α → α → Prop) : ℕ → List α → List α → Prop
  | start (l : List α) : Passes P Q 1 l l
  | pass {w : ℕ} {l m m' : List α} : Passes P Q w l m → Pass P Q w m m' → Passes P Q (2 * w) l m'

namespace Passes

variable {w : ℕ} {l m : List α}

theorem width_pos (h : Passes P Q w l m) : 0 < w := by
  induction h with
  | start l => exact Nat.one_pos
  | pass _ _ ih => omega

theorem perm (h : Passes P Q w l m) : m.Perm l := by
  induction h with
  | start l => exact .refl l
  | pass _ hp ih => exact hp.perm.trans ih

theorem runsSorted (ht : Tells P Q le) (h : Passes P Q w l m) : RunsSorted le w m := by
  induction h with
  | start l =>
    intro i j x y hij hdiv
    grind
  | pass h hp ih => exact hp.runsSorted ht h.width_pos ih

theorem filter (ht : Tells P Q le) {E : α → Bool} (hE : ∀ x y, E x = true → E y = true → le x y)
    (h : Passes P Q w l m) : m.filter E = l.filter E := by
  induction h with
  | start l => rfl
  | pass h hp ih => rw [hp.filter ht hE h.width_pos (h.runsSorted ht), ih]

theorem sorted (ht : Tells P Q le) (h : Passes P Q w l m) (hw : m.length ≤ w) : m.Pairwise le := by
  have hs : RunsSorted le w ([] ++ (m ++ [])) := by
    rw [List.append_nil]
    exact h.runsSorted ht
  exact hs.pairwise h.width_pos (Nat.dvd_zero w) hw

end Passes

end LsLang.Lib
