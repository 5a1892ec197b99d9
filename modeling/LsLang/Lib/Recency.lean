import Mathlib.Data.Finset.Card
import Mathlib.Data.Fintype.Card

/-! Cells that hold keys, each stamped with the time of its last use: as long as few other keys are used, a key is not
in the cell with the earliest stamp. -/

namespace LsLang.Recency

variable {n : ℕ} {K : Type*} {key : Fin n → Option K} {stamp : Fin n → ℕ} {clock : ℕ} {i j v : Fin n} {k k₀ : K}
  {S : Finset K}

/-- The keys are pairwise different, and so are the stamps of the cells that have been used, none of which is later than
the clock; an empty cell has never been used. -/
structure Stamped (key : Fin n → Option K) (stamp : Fin n → ℕ) (clock : ℕ) : Prop where
  empty : ∀ i, key i = none → stamp i = 0
  used : ∀ i k, key i = some k → 0 < stamp i
  bound : ∀ i, stamp i ≤ clock
  times : ∀ i j, 0 < stamp i → stamp i = stamp j → i = j
  keys : ∀ i j k, key i = some k → key j = some k → i = j

/-- The cells that have been used after `j` hold keys of `S`. -/
def LaterIn (key : Fin n → Option K) (stamp : Fin n → ℕ) (j : Fin n) (S : Finset K) : Prop :=
  ∀ i, stamp j < stamp i → ∃ k ∈ S, key i = some k

theorem Stamped.init : Stamped (fun _ : Fin n => (none : Option K)) (fun _ => 0) clock where
  empty _ _ := rfl
  used _ _ h := absurd h.symm (Option.some_ne_none _)
  bound _ := Nat.zero_le _
  times _ _ h := absurd h (Nat.lt_irrefl 0)
  keys _ _ _ h := absurd h.symm (Option.some_ne_none _)

theorem Stamped.use (h : Stamped key stamp clock) (hk : ∀ i, key i = some k → i = j) :
    Stamped (Function.update key j (some k)) (Function.update stamp j (clock + 1)) (clock + 1) where
  empty i hi := by
    by_cases hij : i = j
    · grind
    · rw [Function.update_of_ne hij] at hi ⊢
      exact h.empty i hi
  used i k' hi := by
    by_cases hij : i = j
    · grind
    · rw [Function.update_of_ne hij] at hi ⊢
      exact h.used i k' hi
  bound i := by
    by_cases hij : i = j
    · grind
    · rw [Function.update_of_ne hij]
      exact Nat.le_succ_of_le (h.bound i)
  times a b ha hab := by
    have hlate : ∀ c : Fin n, stamp c ≠ clock + 1 := fun c => Nat.ne_of_lt (Nat.lt_succ_of_le (h.bound c))
    by_cases haj : a = j <;> by_cases hbj : b = j
    · exact haj.trans hbj.symm
    · grind
    · grind
    · rw [Function.update_of_ne haj] at ha hab
      rw [Function.update_of_ne hbj] at hab
      exact h.times a b ha hab
  keys a b k' ha hb := by
    by_cases haj : a = j <;> by_cases hbj : b = j
    · exact haj.trans hbj.symm
    · grind
    · grind
    · rw [Function.update_of_ne haj] at ha
      rw [Function.update_of_ne hbj] at hb
      exact h.keys a b k' ha hb

theorem LaterIn.now (h : Stamped key stamp clock) (j : Fin n) (k : K) (S : Finset K) :
    LaterIn (Function.update key j (some k)) (Function.update stamp j (clock + 1)) j S := by
  intro i hi
  rw [Function.update_self] at hi
  by_cases hij : i = j
  · grind
  · rw [Function.update_of_ne hij] at hi
    exact absurd (h.bound i) (Nat.not_le.2 (Nat.lt_of_succ_lt hi))

theorem LaterIn.use {a : Fin n} (h : LaterIn key stamp a S) (haj : a ≠ j) (hS : k ∈ S) :
    LaterIn (Function.update key j (some k)) (Function.update stamp j (clock + 1)) a S := by
  intro i hi
  by_cases hij : i = j
  · grind
  · rw [Function.update_of_ne haj, Function.update_of_ne hij] at hi
    rw [Function.update_of_ne hij]
    exact h i hi

theorem LaterIn.card_le (h : LaterIn key stamp v S) (hst : Stamped key stamp clock) (hv : ∀ i, stamp v ≤ stamp i)
    (hk₀ : key v = some k₀) (hS : k ∈ S) (hk : ∀ i, key i ≠ some k) : n ≤ S.card := by
  classical
  have hother : ∀ i, i ≠ v → ∃ k' ∈ S, key i = some k' := by
    intro i hi
    apply h
    apply Nat.lt_of_le_of_ne (hv i)
    intro heq
    exact hi (hst.times v i (hst.used v k₀ hk₀) heq).symm
  have hcard : (Finset.univ.erase v).card ≤ (S.erase k).card := by
    apply Finset.card_le_card_of_injOn fun i => (key i).getD k
    · intro i hi
      obtain ⟨k', hk', hkey⟩ := hother i (Finset.ne_of_mem_erase hi)
      grind
    · intro i hi i' hi' heq
      obtain ⟨b, _, hb⟩ := hother i (Finset.ne_of_mem_erase hi)
      obtain ⟨b', _, hb'⟩ := hother i' (Finset.ne_of_mem_erase hi')
      dsimp only at heq
      rw [hb, hb'] at heq
      refine hst.keys i i' b hb (hb'.trans ?_)
      grind
  rw [Finset.card_erase_of_mem (Finset.mem_univ v), Finset.card_univ, Fintype.card_fin, Finset.card_erase_of_mem hS]
    at hcard
  grind

end LsLang.Recency
