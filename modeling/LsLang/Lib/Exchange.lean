import Mathlib.Data.List.Basic
import Mathlib.Logic.Equiv.Basic

/-! Lists with two of their elements exchanged. -/

namespace LsLang.Lib

variable {α : Type} {l : List α} {i j k : ℕ} {x y : α}

def swapped (l : List α) (i j : ℕ) : List α :=
  match l[i]?, l[j]? with
  | some x, some y => (l.set i y).set j x
  | _, _ => l

theorem swapped_eq (hi : l[i]? = some x) (hj : l[j]? = some y) : swapped l i j = (l.set i y).set j x := by
  unfold swapped
  rw [hi, hj]

theorem swapped_perm (hi : i < l.length) (hj : j < l.length) : (swapped l i j).Perm l := by
  rw [swapped_eq (List.getElem?_eq_getElem hi) (List.getElem?_eq_getElem hj)]
  exact List.set_set_perm hi hj

theorem get_swapped (hi : i < l.length) (hj : j < l.length) (k : ℕ) :
    (swapped l i j)[k]? = l[Equiv.swap i j k]? := by
  rw [swapped_eq (List.getElem?_eq_getElem hi) (List.getElem?_eq_getElem hj), List.getElem?_set, List.getElem?_set,
    Equiv.swap_apply_def, List.length_set, if_pos hi, if_pos hj]
  by_cases hkj : j = k
  · grind
  · grind

theorem length_swapped (l : List α) (i j : ℕ) : (swapped l i j).length = l.length := by
  unfold swapped
  grind

theorem swapped_self (l : List α) (i : ℕ) : swapped l i i = l := by
  cases hi : l[i]? with
  | none =>
    unfold swapped
    rw [hi]
  | some x =>
    obtain ⟨hlt, rfl⟩ := List.getElem?_eq_some_iff.1 hi
    rw [swapped_eq hi hi, List.set_set, List.set_getElem_self]

end LsLang.Lib

/-! Binary heaps in lists, the largest element first. A heap in which one element is out of place is repaired by
exchanging it with its parent, or with the larger of its children. -/

namespace LsLang.Lib

variable {α : Type} {lt : α → α → Bool} {l : List α} {x y z : α} {i j p q c : ℕ}

/-- A strict weak order. -/
structure StrictWeak (lt : α → α → Bool) : Prop where
  asymm : ∀ {x y}, lt x y = true → lt y x = false
  trans_not : ∀ {x y z}, lt x y = false → lt y z = false → lt x z = false

namespace StrictWeak

theorem irrefl (h : StrictWeak lt) (x : α) : lt x x = false := by
  cases hx : lt x x with
  | false => rfl
  | true => exact absurd (h.asymm hx) (by grind)

theorem not_lt_of_lt (h : StrictWeak lt) (hxy : lt x y = true) (hxz : lt x z = false) : lt y z = false :=
  h.trans_not (h.asymm hxy) hxz

theorem trans (h : StrictWeak lt) (hxy : lt x y = true) (hyz : lt y z = true) : lt x z = true := by
  cases hxz : lt x z with
  | true => rfl
  | false => exact absurd (h.trans_not hxz (h.asymm hyz)) (by grind)

end StrictWeak

/-- `c` is a child of `p`. -/
def IsChild (c p : ℕ) : Prop := c = 2 * p + 1 ∨ c = 2 * p + 2

theorem parent_lt (h : IsChild c p) : p < c := by
  unfold IsChild at h
  omega

theorem parent_unique (h : IsChild c p) (h' : IsChild c q) : p = q := by
  unfold IsChild at h h'
  omega

theorem isChild_parent (h : 0 < c) : IsChild c ((c - 1) / 2) := by
  unfold IsChild
  omega

/-- The element at `p`, if there is one, is not less than the one at `c`. -/
def Above (lt : α → α → Bool) (l : List α) (p c : ℕ) : Prop :=
  ∀ x y, l[p]? = some x → l[c]? = some y → lt x y = false

/-- No parent is less than its child. -/
def HeapOrdered (lt : α → α → Bool) (l : List α) : Prop := ∀ p c, IsChild c p → Above lt l p c

/-- A heap, except that the element at `i` may be larger than its parent. -/
structure UpTo (lt : α → α → Bool) (l : List α) (i : ℕ) : Prop where
  others : ∀ p c, IsChild c p → c ≠ i → Above lt l p c
  grand : ∀ p c, IsChild i p → IsChild c i → Above lt l p c

/-- A heap, except that the element at `i` may be less than its children. -/
structure DownFrom (lt : α → α → Bool) (l : List α) (i : ℕ) : Prop where
  others : ∀ p c, IsChild c p → p ≠ i → Above lt l p c
  grand : ∀ p c, IsChild i p → IsChild c i → Above lt l p c

theorem above_swapped (hi : i < l.length) (hj : j < l.length) :
    Above lt (swapped l i j) p c ↔ Above lt l (Equiv.swap i j p) (Equiv.swap i j c) := by
  unfold Above
  rw [get_swapped hi hj, get_swapped hi hj]

theorem above_of (hx : l[p]? = some x) (hy : l[c]? = some y) (h : lt x y = false) : Above lt l p c := by
  intro x' y' hx' hy'
  grind

theorem Above.trans (hw : StrictWeak lt) (hy : l[q]? = some y) (hpq : Above lt l p q) (hqc : Above lt l q c) :
    Above lt l p c := fun x z hx hz => hw.trans_not (hpq x y hx hy) (hqc y z hy hz)

theorem HeapOrdered.root (ho : HeapOrdered lt l) (hw : StrictWeak lt) (i : ℕ) : Above lt l 0 i := by
  induction i using Nat.strongRecOn with
  | ind i ih =>
    intro x z hx hz
    rcases Nat.eq_zero_or_pos i with rfl | hi
    · rw [hx, Option.some.injEq] at hz
      rw [hz]
      exact hw.irrefl z
    · have hchild := isChild_parent hi
      have hlt := parent_lt hchild
      have hy := List.getElem?_eq_getElem (Nat.lt_trans hlt (List.getElem?_eq_some_iff.1 hz).1)
      exact Above.trans hw hy (ih _ hlt) (ho _ i hchild) x z hx hz

/-! Up. -/

theorem UpTo.done (h : UpTo lt l i) (hi : ∀ p, IsChild i p → Above lt l p i) : HeapOrdered lt l := by
  intro p c hc
  by_cases hci : c = i
  · subst hci
    exact hi p hc
  · exact h.others p c hc hci

theorem UpTo.step (hw : StrictWeak lt) (h : UpTo lt l i) (hc : IsChild i p) (hx : l[p]? = some x) (hy : l[i]? = some y)
    (hlt : lt x y = true) : UpTo lt (swapped l p i) p := by
  have hp := (List.getElem?_eq_some_iff.1 hx).1
  have hi := (List.getElem?_eq_some_iff.1 hy).1
  have hpi := parent_lt hc
  refine ⟨fun q c hqc hcp => ?_, fun q c hpq hcp => ?_⟩
  · rw [above_swapped hp hi]
    by_cases hci : c = i
    · subst hci
      obtain rfl := parent_unique hc hqc
      rw [Equiv.swap_apply_left, Equiv.swap_apply_right]
      exact above_of hy hx (hw.asymm hlt)
    rw [Equiv.swap_apply_of_ne_of_ne hcp hci]
    by_cases hqp : q = p
    · -- a sibling
      subst hqp
      rw [Equiv.swap_apply_left]
      intro y' z hy' hz
      rw [hy, Option.some.injEq] at hy'
      exact hy' ▸ hw.not_lt_of_lt hlt (h.others q c hqc hci x z hx hz)
    by_cases hqi : q = i
    · subst hqi
      rw [Equiv.swap_apply_right]
      exact h.grand p c hc hqc
    · rw [Equiv.swap_apply_of_ne_of_ne hqp hqi]
      exact h.others q c hqc hci
  · have hqp := parent_lt hpq
    have hpc := parent_lt hcp
    have habove := h.others q p hpq (Nat.ne_of_lt hpi)
    rw [above_swapped hp hi, Equiv.swap_apply_of_ne_of_ne (Nat.ne_of_lt hqp) (Nat.ne_of_lt (Nat.lt_trans hqp hpi))]
    by_cases hci : c = i
    · grind
    · rw [Equiv.swap_apply_of_ne_of_ne (Nat.ne_of_gt hpc) hci]
      exact habove.trans hw hx (h.others p c hcp hci)

/-! Down. -/

theorem DownFrom.done (h : DownFrom lt l i) (hi : ∀ c, IsChild c i → Above lt l i c) : HeapOrdered lt l := by
  intro p c hc
  by_cases hpi : p = i
  · subst hpi
    exact hi c hc
  · exact h.others p c hc hpi

theorem DownFrom.step (hw : StrictWeak lt) (h : DownFrom lt l i) (hc : IsChild j i) (hx : l[i]? = some x)
    (hy : l[j]? = some y) (hlt : lt x y = true) (hbest : ∀ c, IsChild c i → c ≠ j → Above lt l j c) :
    DownFrom lt (swapped l i j) j := by
  have hi := (List.getElem?_eq_some_iff.1 hx).1
  have hj := (List.getElem?_eq_some_iff.1 hy).1
  have hij := parent_lt hc
  refine ⟨fun q c hqc hqj => ?_, fun q c hjq hcj => ?_⟩
  · have hqc' := parent_lt hqc
    rw [above_swapped hi hj]
    by_cases hqi : q = i
    · subst hqi
      rw [Equiv.swap_apply_left]
      by_cases hcj : c = j
      · subst hcj
        rw [Equiv.swap_apply_right]
        exact above_of hy hx (hw.asymm hlt)
      grind
    · have hcj : c ≠ j := fun heq => hqi (parent_unique hqc (heq ▸ hc))
      rw [Equiv.swap_apply_of_ne_of_ne hqi hqj]
      by_cases hci : c = i
      · subst hci
        rw [Equiv.swap_apply_left]
        exact h.grand q j hqc hc
      · rw [Equiv.swap_apply_of_ne_of_ne hci hcj]
        exact h.others q c hqc hqi
  · obtain rfl := parent_unique hc hjq
    have hjc := parent_lt hcj
    rw [above_swapped hi hj, Equiv.swap_apply_left,
      Equiv.swap_apply_of_ne_of_ne (Nat.ne_of_gt (Nat.lt_trans hij hjc)) (Nat.ne_of_gt hjc)]
    exact h.others j c hcj (Nat.ne_of_gt hij)

theorem HeapOrdered.append (ho : HeapOrdered lt l) (x : α) : UpTo lt (l ++ [x]) l.length := by
  refine ⟨fun p c hc hcl => ?_, fun p c _ hc => ?_⟩
  · intro y z hy hz
    have hlt := parent_lt hc
    have hc' : c < l.length := by grind
    rw [List.getElem?_append_left (Nat.lt_trans hlt hc')] at hy
    rw [List.getElem?_append_left hc'] at hz
    exact ho p c hc y z hy hz
  · intro y z hy hz
    have hlt := parent_lt hc
    grind

theorem HeapOrdered.withoutRoot (ho : HeapOrdered lt l) (hl : 0 < l.length) :
    DownFrom lt (swapped l 0 (l.length - 1)).dropLast 0 := by
  have hget {k : ℕ} {y : α} (hk : 0 < k) (hy : (swapped l 0 (l.length - 1)).dropLast[k]? = some y) :
      l[k]? = some y := by
    rw [List.getElem?_dropLast, length_swapped] at hy
    split at hy
    · next hlt =>
      rwa [get_swapped hl (Nat.sub_lt hl Nat.one_pos),
        Equiv.swap_apply_of_ne_of_ne (Nat.ne_of_gt hk) (Nat.ne_of_lt hlt)] at hy
    · cases hy
  refine ⟨fun p c hc hp0 y z hy hz => ?_, fun p c hc _ => ?_⟩
  · have hp := Nat.pos_of_ne_zero hp0
    exact ho p c hc y z (hget hp hy) (hget (Nat.lt_trans hp (parent_lt hc)) hz)
  · exact absurd (parent_lt hc) (Nat.not_lt_zero p)

end LsLang.Lib
