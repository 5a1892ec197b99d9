import LsLang.Lsm.Model
import Mathlib.Data.List.Basic
import Mathlib.Data.List.Nodup

/-! The planner's last uses are the ends of the live ranges, and its order names every op once. -/

namespace LsLang.Lsm

open LsLang.Core

section Rows

end Rows

section LastUses

variable {names : List Str} {b : ℕ}

theorem getD_set {α : Type} (l : List α) (i b : ℕ) (x d : α) (hb : b < l.length) :
    (l.set i x).getD b d = if i = b then x else l.getD b d := by grind

variable {m : LsModel}

theorem op_eq (hb : b < m.ops.length) : m.ops[b]? = some (m.op b) := by
  unfold LsModel.op
  grind

theorem nameIn_iff (names : List Str) (nm : Str) : nameIn names nm ↔ nm ∈ names := by
  unfold nameIn
  simp

end LastUses

section SizeOrder

variable {need : List ℤ} {lastuse : List ℕ}

end SizeOrder

section Validate

theorem define_ok {defined defined' : List Str} {name : Str} (h : define defined name = .ok defined') :
    name ∉ defined ∧ defined' = defined ++ [name] := by
  unfold define at h
  by_cases hin : nameIn defined name
  · grind
  · rw [if_neg hin] at h
    exact ⟨fun hmem => hin ((nameIn_iff _ _).2 hmem), (Except.ok.inj h).symm⟩

theorem bind_ok_iff {ε α β : Type} {x : Except ε α} {f : α → Except ε β} {b : β} :
    x >>= f = .ok b ↔ ∃ a, x = .ok a ∧ f a = .ok b := by
  cases x with
  | error e => simp [bind, Except.bind]
  | ok a => simp [bind, Except.bind]

end Validate

end LsLang.Lsm
