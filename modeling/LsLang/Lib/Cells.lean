import LsLang.Lib.Cyclic
import LsLang.Lib.Total
import Mathlib.Data.List.Basic
import Mathlib.Data.List.Rotate

/-! Buffers whose cells are vacant or hold one element each. To take from a vacant cell, to store into one that is
occupied, and to touch one that is not there has no meaning. -/

namespace LsLang.Lib

open LsLang.Undefined

/-- A buffer: each cell is vacant or holds one element. -/
abbrev Cells (α : Type) := List (Option α)

namespace Cells

variable {α : Type}

def take (b : Cells α) (i : ℕ) : Res (α × Cells α) :=
  match b[i]? with
  | some (some x) => .ok (x, b.set i none)
  | _ => .stuck

def store (b : Cells α) (i : ℕ) (x : α) : Res (Cells α) :=
  match b[i]? with
  | some none => .ok (b.set i (some x))
  | _ => .stuck

def peek (b : Cells α) (i : ℕ) : Res α :=
  match b[i]? with
  | some (some x) => .ok x
  | _ => .stuck

/-- The cells that hold these elements. -/
def full (l : List α) : Cells α := l.map some

/-- Cells without an element. -/
def vacant (n : ℕ) : Cells α := List.replicate n none

variable {b p q : Cells α} {i : ℕ} {x : α}

theorem take_eq (h : b[i]? = some (some x)) : b.take i = .ok (x, b.set i none) := by
  unfold take
  rw [h]

theorem store_eq (h : b[i]? = some none) (x : α) : b.store i x = .ok (b.set i (some x)) := by
  unfold store
  rw [h]

theorem peek_eq (h : b[i]? = some (some x)) : b.peek i = .ok x := by
  unfold peek
  rw [h]

theorem get_at (h : p.length = i) (c : Option α) : (p ++ c :: q)[i]? = some c := by grind

theorem set_at (h : p.length = i) (c d : Option α) : (p ++ c :: q).set i d = p ++ d :: q := by
  rw [← h, List.set_append_right _ _ (Nat.le_refl _), Nat.sub_self, List.set_cons_zero]

theorem take_at (h : p.length = i) : take (p ++ some x :: q) i = .ok (x, p ++ none :: q) := by
  rw [take_eq (get_at h _), set_at h]

theorem store_at (h : p.length = i) : store (p ++ none :: q) i x = .ok (p ++ some x :: q) := by
  rw [store_eq (get_at h _), set_at h]

theorem peek_at (h : p.length = i) : peek (p ++ some x :: q) i = .ok x := peek_eq (get_at h _)

@[simp] theorem length_full (l : List α) : (full l).length = l.length := List.length_map _

@[simp] theorem length_vacant (n : ℕ) : (vacant n : Cells α).length = n := List.length_replicate

@[simp] theorem full_nil : full ([] : List α) = [] := rfl

@[simp] theorem full_cons (x : α) (l : List α) : full (x :: l) = some x :: full l := rfl

@[simp] theorem full_append (l k : List α) : full (l ++ k) = full l ++ full k := List.map_append

@[simp] theorem vacant_zero : (vacant 0 : Cells α) = [] := rfl

theorem vacant_succ (n : ℕ) : (vacant (n + 1) : Cells α) = none :: vacant n := rfl

theorem vacant_succ' (n : ℕ) : (vacant (n + 1) : Cells α) = vacant n ++ [none] := List.replicate_succ'

theorem vacant_add (m n : ℕ) : (vacant (m + n) : Cells α) = vacant m ++ vacant n := List.replicate_add m n none

theorem get_full (l : List α) (i : ℕ) : (full l)[i]? = l[i]?.map some := List.getElem?_map

theorem set_full (l : List α) (i : ℕ) (x : α) : (full l).set i (some x) = full (l.set i x) := (List.map_set).symm

def elems (b : Cells α) : List α := b.filterMap id

@[simp] theorem elems_full (l : List α) : (full l).elems = l := by
  unfold elems full
  rw [List.filterMap_map]
  exact List.filterMap_some

end Cells

end LsLang.Lib

/-! Buffers used circularly: the cell that comes `i` places behind the base is the `i`-th of the buffer rotated to the
base. -/

namespace LsLang.Lib.Cells

open LsLang.Undefined

variable {α : Type} {b c : Cells α} {base i j : ℕ} {x : α}

theorem get_ring (hi : i < b.length) : b[(base + i) % b.length]? = (b.rotate base)[i]? := by
  rw [List.getElem?_rotate hi, Nat.add_comm]

theorem set_ring (hi : i < b.length) (y : Option α) :
    (b.set ((base + i) % b.length) y).rotate base = (b.rotate base).set i y := by
  refine List.ext_getElem? fun j => ?_
  rcases Nat.lt_or_ge j b.length with hj | hj
  · rw [List.getElem?_rotate (by rwa [List.length_set]), List.length_set, List.getElem?_set, List.getElem?_set,
      List.length_rotate, List.getElem?_rotate hj, if_pos hi, Nat.add_comm j base,
      if_pos (Nat.mod_lt _ (Nat.lt_of_le_of_lt (Nat.zero_le i) hi))]
    by_cases hij : i = j
    · grind
    · rw [if_neg hij, if_neg fun heq => hij (Cyclic.add_mod_inj hi hj heq)]
  grind [List.getElem?_eq_none, List.length_rotate, List.length_set]

theorem peek_ring (hi : i < b.length) : b.peek ((base + i) % b.length) = peek (b.rotate base) i := by
  unfold peek
  rw [get_ring hi]

variable (base) in
theorem take_ring (h : take (b.rotate base) i = .ok (x, c)) :
    ∃ b', b.take ((base + i) % b.length) = .ok (x, b') ∧ b'.rotate base = c ∧ b'.length = b.length := by
  unfold take at h
  split at h
  · next y hy =>
    cases h
    have hi : i < b.length := by
      have := (List.getElem?_eq_some_iff.1 hy).1
      rwa [List.length_rotate] at this
    exact ⟨_, take_eq (by rw [get_ring hi, hy]), set_ring hi none, List.length_set⟩
  · cases h

variable (base) in
theorem store_ring (h : store (b.rotate base) i x = .ok c) :
    ∃ b', b.store ((base + i) % b.length) x = .ok b' ∧ b'.rotate base = c ∧ b'.length = b.length := by
  unfold store at h
  split at h
  · next hy =>
    cases h
    have hi : i < b.length := by
      have := (List.getElem?_eq_some_iff.1 hy).1
      rwa [List.length_rotate] at this
    exact ⟨_, store_eq (by rw [get_ring hi, hy]) x, set_ring hi (some x), List.length_set⟩
  · cases h

theorem rotate_next (b : Cells α) (base : ℕ) : b.rotate ((base + 1) % b.length) = (b.rotate base).rotate 1 := by
  rw [List.rotate_mod, List.rotate_rotate]

theorem rotate_prev (hb : 0 < b.length) (base : ℕ) :
    (b.rotate ((base + (b.length - 1)) % b.length)).rotate 1 = b.rotate base := by
  rw [List.rotate_mod, List.rotate_rotate, Nat.add_assoc, Nat.sub_add_cancel hb, ← List.rotate_mod, Nat.add_mod_right,
    List.rotate_mod]

end LsLang.Lib.Cells
