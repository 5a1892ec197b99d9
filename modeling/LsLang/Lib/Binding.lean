import Mathlib.Data.List.Basic
import Mathlib.Data.List.Nodup
import Mathlib.Data.List.Perm.Basic
import Mathlib.Logic.Basic
import Mathlib.Order.Nat
import Mathlib.Tactic.Common

/-! Bindings of names to values as a list with the newest first: one of them changed where it
stands, and the newest dropped. -/

namespace LsLang.Lib
variable {κ α : Type} [BEq κ]

/-- The newest binding of `k` changed where it stands. -/
def rebind (k : κ) (v : α) : List (κ × α) → List (κ × α)
  | [] => []
  | b :: l => if k == b.1 then (k, v) :: l else b :: rebind k v l

/-- The newest bindings dropped until `n` are left. -/
def unwind (n : Nat) (l : List (κ × α)) : List (κ × α) := l.drop (l.length - n)

variable {k m : κ} {v w : α} {l l' : List (κ × α)}

omit [BEq κ] in
theorem keys_unwind (h : l.map Prod.fst <:+ l'.map Prod.fst) :
    (unwind l.length l').map Prod.fst = l.map Prod.fst := by
  unfold unwind
  rw [List.map_drop]
  have := List.suffix_iff_eq_drop.mp h
  simpa using this.symm

variable [LawfulBEq κ]

theorem mem_of_lookup (h : l.lookup k = some v) : (k, v) ∈ l := by
  obtain ⟨l₁, l₂, rfl, -⟩ := List.lookup_eq_some_iff.mp h
  simp

theorem lookup_isSome_iff_mem : (l.lookup k).isSome = true ↔ k ∈ l.map Prod.fst := by
  rw [List.lookup_isSome_iff, List.mem_map]
  grind

@[simp] theorem keys_rebind : (rebind k v l).map Prod.fst = l.map Prod.fst := by
  induction l with
  | nil => rfl
  | cons b l ih =>
    unfold rebind
    grind

theorem lookup_cons_ne {b : κ × α} (h : k ≠ b.1) : (b :: l).lookup k = l.lookup k := by grind

theorem lookup_cons_eq {b : κ × α} (h : k = b.1) : (b :: l).lookup k = some b.2 := by grind

theorem lookup_rebind (h : (l.lookup k).isSome = true) :
    (rebind k v l).lookup m = if m == k then some v else l.lookup m := by
  induction l with
  | nil => simp at h
  | cons b l ih =>
    unfold rebind
    by_cases hk : k = b.1
    · grind
    · grind

theorem mem_rebind (hl : (l.map Prod.fst).Nodup) (h : (m, w) ∈ rebind k v l) :
    m = k ∧ w = v ∨ m ≠ k ∧ (m, w) ∈ l := by
  induction l with
  | nil => simp [rebind] at h
  | cons b l ih =>
    rw [List.map_cons, List.nodup_cons] at hl
    unfold rebind at h
    split_ifs at h with hk <;> rw [beq_iff_eq] at hk
    · grind
    · grind

end LsLang.Lib

/-! Addresses handed out one after another, and the addresses that a computation's result owns. -/

namespace LsLang.Fresh

abbrev Addr := Nat

def malloc : StateM Addr Addr := fun next => (next, next + 1)

/-- All of the addresses were handed out between two moments, and none of them is there twice. -/
structure Within (lo hi : Addr) (as : List Addr) : Prop where
  le : lo ≤ hi
  nodup : as.Nodup
  mem : ∀ a ∈ as, lo ≤ a ∧ a < hi

namespace Within

variable {lo mid hi : Addr} {as bs : List Addr}

theorem nil (n : Addr) : Within n n [] := ⟨le_rfl, List.nodup_nil, fun a h => by cases h⟩

theorem malloc (n : Addr) : Within n (n + 1) [n] := by
  refine ⟨Nat.le_succ n, List.nodup_singleton n, fun a h => ?_⟩
  grind

theorem append (h : Within lo mid as) (h' : Within mid hi bs) : Within lo hi (as ++ bs) := by
  refine ⟨h.le.trans h'.le, List.nodup_append.2 ⟨h.nodup, h'.nodup, ?_⟩, fun a ha => ?_⟩
  · intro a ha b hb
    exact ((h.mem a ha).2.trans_le (h'.mem b hb).1).ne
  · rcases List.mem_append.1 ha with ha | ha
    · exact ⟨(h.mem a ha).1, (h.mem a ha).2.trans_le h'.le⟩
    · exact ⟨h.le.trans (h'.mem a ha).1, (h'.mem a ha).2⟩

theorem of_count (h : Within lo hi as) (hc : ∀ a, bs.count a ≤ as.count a) : Within lo hi bs := by
  refine ⟨h.le, List.nodup_iff_count_le_one.2 fun a => ?_, fun a ha => h.mem a ?_⟩
  · exact (hc a).trans (List.nodup_iff_count_le_one.1 h.nodup a)
  · exact List.count_pos_iff.1 ((List.count_pos_iff.2 ha).trans_le (hc a))

theorem disjoint (h : Within lo hi as) (hbs : ∀ b ∈ bs, b < lo) : List.Disjoint bs as :=
  fun a ha ha' => absurd (h.mem a ha').1 (Nat.not_le.2 (hbs a ha))

end Within

section Run

variable {α β : Type}

/-- A run that goes on when `held` has been handed out: then its result owns addresses handed out so
far, none of them twice. -/
def MakesAfter (held : List Addr) (owned : α → List Addr) (run : StateM Addr α) : Prop :=
  ∀ lo n, Within lo n held → Within lo (run n).2 (owned (run n).1)

def Makes (owned : α → List Addr) (run : StateM Addr α) : Prop :=
  ∀ n, Within n (run n).2 (owned (run n).1)

theorem makes_malloc : Makes (fun a => [a]) malloc := Within.malloc

theorem Makes.after {held : List Addr} {owned : α → List Addr} {run : StateM Addr α}
    {ownedLast : β → List Addr} {next : α → StateM Addr β} (h : Makes owned run)
    (hnext : ∀ a, MakesAfter (held ++ owned a) ownedLast (next a)) :
    MakesAfter held ownedLast (run >>= next) :=
  fun lo n hheld => hnext (run n).1 lo (run n).2 (hheld.append (h n))

theorem makesAfter_pure {held : List Addr} {owned : α → List Addr} {a : α}
    (hc : ∀ x, (owned a).count x ≤ held.count x) : MakesAfter held owned (pure a) :=
  fun _ _ hheld => hheld.of_count hc

theorem Makes.of_after {owned : α → List Addr} {run : StateM Addr α} (h : MakesAfter [] owned run) :
    Makes owned run := fun n => h n n (Within.nil n)

theorem makes_pure {owned : α → List Addr} {a : α} (h : owned a = []) : Makes owned (pure a) := by
  intro n
  change Within n n (owned a)
  rw [h]
  exact Within.nil n

end Run

end LsLang.Fresh
