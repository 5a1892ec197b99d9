import LsLang.Lib.Cyclic
import Mathlib.Data.Finset.Card
import Mathlib.Data.Finset.Insert
import Mathlib.Order.Interval.Finset.Nat

/-! Robin Hood tables: a cyclic array of `n` slots in which every item lies at its
recorded distance behind the home of its key, and distances grow by at most one
from slot to slot. Insertion and removal move one vacant slot, the hole, through
the table. -/

namespace RobinHood

open Function Cyclic

variable {α κ : Type*}

abbrev Table (α : Type*) := ℕ → Option (ℕ × α)

def Holds (n : ℕ) (t : Table α) (x : α) : Prop := ∃ i < n, ∃ d, t i = some (d, x)

def count (n : ℕ) (t : Table α) : ℕ := ((Finset.range n).filter fun i => (t i).isSome).card

/-- The table is in order but for the hole `p`; no slot is the hole when `p = n`. -/
structure Layout (n : ℕ) (key : α → κ) (home : κ → ℕ) (p : ℕ) (t : Table α) : Prop where
  home_lt : ∀ k, home k < n
  hole : p < n → t p = none
  dist : ∀ i d x, i < n → t i = some (d, x) → d < n ∧ (home (key x) + d) % n = i
  order : ∀ i d x, i < n → i ≠ p → (i + 1) % n ≠ p → t ((i + 1) % n) = some (d + 1, x) →
    ∃ c y, t i = some (c, y) ∧ d ≤ c
  gap : ∀ i d x, i < n → (i + 1) % n = p → t ((p + 1) % n) = some (d + 2, x) →
    ∃ c y, t i = some (c, y) ∧ d ≤ c
  free : ∃ q < n, q ≠ p ∧ t q = none
  uniq : ∀ i j d e x y, i < n → j < n → t i = some (d, x) → t j = some (e, y) →
    key x = key y → i = j

/-- The item of slot `a` moves to slot `b`, its distance becoming `d`. -/
def move (t : Table α) (a b d : ℕ) (x : α) : Table α := update (update t a none) b (some (d, x))

section Move

variable {n a b c d : ℕ} {t : Table α} {x : α}

theorem move_target : move t a b d x b = some (d, x) := update_self _ _ _

theorem move_source (h : a ≠ b) : move t a b d x a = none := by
  rw [move, update_of_ne h, update_self]

theorem move_ne {i : ℕ} (ha : i ≠ a) (hb : i ≠ b) : move t a b d x i = t i := by
  rw [move, update_of_ne hb, update_of_ne ha]

theorem move_holds (ha : a < n) (hb : b < n) (hne : a ≠ b) (hx : t a = some (c, x))
    (hh : t b = none) {y : α} : Holds n (move t a b d x) y ↔ Holds n t y := by
  constructor
  · rintro ⟨i, hi, e, he⟩
    by_cases hib : i = b
    · subst hib
      rw [move_target] at he
      obtain rfl : x = y := by grind
      exact ⟨a, ha, c, hx⟩
    · by_cases hia : i = a
      · grind [move_source]
      · rw [move_ne hia hib] at he
        exact ⟨i, hi, e, he⟩
  · rintro ⟨i, hi, e, he⟩
    by_cases hia : i = a
    · subst hia
      obtain rfl : x = y := by grind
      exact ⟨b, hb, d, move_target⟩
    · refine ⟨i, hi, e, ?_⟩
      grind [move_ne]

theorem count_update_some {i : ℕ} {v : ℕ × α} (hi : i < n) (hn : t i = none) :
    count n (update t i (some v)) = count n t + 1 := by
  have he : (Finset.range n).filter (fun j => (update t i (some v) j).isSome) =
      insert i ((Finset.range n).filter fun j => (t j).isSome) := by grind
  rw [count, he, Finset.card_insert_of_notMem (by simp [hn])]
  rfl

theorem count_update_none {i : ℕ} {v : ℕ × α} (hi : i < n) (hs : t i = some v) :
    count n (update t i none) + 1 = count n t := by
  have he : t = update (update t i none) i (some v) := by grind
  conv_rhs => rw [he]
  rw [count_update_some hi (update_self _ _ _)]

theorem move_count (ha : a < n) (hb : b < n) (hne : a ≠ b) (hx : t a = some (c, x))
    (hh : t b = none) : count n (move t a b d x) = count n t := by
  rw [move, count_update_some hb (by grind), count_update_none ha hx]

end Move

theorem holds_update_none {n p : ℕ} {t : Table α} {y : α} :
    Holds n (update t p none) y ↔ ∃ i < n, i ≠ p ∧ ∃ d, t i = some (d, y) := by
  constructor
  · rintro ⟨i, hi, d, hd⟩
    grind
  · rintro ⟨i, hi, hip, d, hd⟩
    exact ⟨i, hi, d, by rw [update_of_ne hip, hd]⟩

theorem holds_update_some {n p u : ℕ} {t : Table α} {x y : α} (hp : p < n) :
    Holds n (update t p (some (u, x))) y ↔ y = x ∨ Holds n (update t p none) y := by
  rw [holds_update_none]
  constructor
  · rintro ⟨i, hi, d, hd⟩
    grind
  · rintro (rfl | ⟨i, hi, hip, d, hd⟩)
    · exact ⟨p, hp, u, update_self _ _ _⟩
    · exact ⟨i, hi, d, by rw [update_of_ne hip, hd]⟩

theorem exists_free {n : ℕ} {t : Table α} (p : ℕ) (hc : count n t + 1 < n) :
    ∃ q < n, q ≠ p ∧ t q = none := by
  by_contra! hall
  have hsub : (Finset.range n).erase p ⊆ (Finset.range n).filter fun i => (t i).isSome := by
    grind [Option.isSome_iff_ne_none, Finset.mem_erase, Finset.mem_range]
  have := Finset.card_le_card hsub
  have hcard : n ≤ ((Finset.range n).erase p).card + 1 := by
    grind [Finset.card_range, Finset.pred_card_le_card_erase]
  rw [count] at hc
  omega

namespace Layout

variable {n p : ℕ} {key : α → κ} {home : κ → ℕ} {t : Table α} {x : α} {c d i : ℕ}

theorem pos (h : Layout n key home p t) : 0 < n := by
  obtain ⟨q, hq, _⟩ := h.free
  omega

theorem succ_lt (h : Layout n key home p t) (i : ℕ) : (i + 1) % n < n := Nat.mod_lt _ h.pos

theorem exists_empty (h : Layout n key home n t) (hi : i < n) :
    ∃ e < n, t ((i + e) % n) = none ∧ ∀ w < e, t ((i + w) % n) ≠ none := by
  classical
  obtain ⟨q, hq, _, hqn⟩ := h.free
  have hex : ∃ e, t ((i + e) % n) = none := by
    rcases Nat.lt_or_ge q i with hqi | hqi
    · exact ⟨n - (i - q), by
        rw [show i + (n - (i - q)) = q + n by omega, Nat.add_mod_right, Nat.mod_eq_of_lt hq, hqn]⟩
    · exact ⟨q - i, by rw [Nat.add_sub_cancel' hqi, Nat.mod_eq_of_lt hq, hqn]⟩
  refine ⟨Nat.find hex, ?_, Nat.find_spec hex, fun w hw => Nat.find_min hex hw⟩
  by_contra hge
  have hlt : Nat.find hex - n < Nat.find hex := by
    have := h.pos
    omega
  apply Nat.find_min hex hlt
  have := Nat.find_spec hex
  rwa [show i + Nat.find hex = i + (Nat.find hex - n) + n by omega, Nat.add_mod_right] at this

theorem back (h : Layout n key home n t) (hi : i < n) (hx : t i = some (d, x)) :
    ∀ u ≤ d, ∃ c y, t ((home (key x) + u) % n) = some (c, y) ∧ u ≤ c := by
  obtain ⟨hd, hat⟩ := h.dist i d x hi hx
  intro u hu
  induction hu using Nat.decreasingInduction with
  | self =>
    grind
  | of_succ u _ ih =>
    obtain ⟨c, y, hc, hle⟩ := ih
    obtain ⟨c, rfl⟩ := Nat.exists_eq_add_of_le' (Nat.lt_of_lt_of_le (Nat.succ_pos u) hle)
    have hlt : (home (key x) + u) % n < n := Nat.mod_lt _ h.pos
    rw [← add_succ_mod] at hc
    obtain ⟨c', y', hc', hle'⟩ := h.order _ c y hlt hlt.ne (h.succ_lt _).ne hc
    grind

theorem absent (h : Layout n key home n t) {k : κ} {u : ℕ}
    (hstop : ∀ c y, t ((home k + u) % n) = some (c, y) → c < u)
    (hseen : ∀ v < u, ∀ c y, t ((home k + v) % n) = some (c, y) → key y ≠ k) :
    ∀ y, Holds n t y → key y ≠ k := by
  rintro y ⟨i, hi, d, hy⟩ rfl
  obtain ⟨_, hat⟩ := h.dist i d y hi hy
  rcases Nat.lt_or_ge d u with hd | hd
  · grind
  · obtain ⟨c, z, hc, hle⟩ := h.back hi hy u hd
    grind

theorem back_hole (h : Layout n key home p t) (hi : i < n) (hp : (i + 1) % n = p)
    (hx : t i = some (c, x)) :
    ∀ r, r ≤ c → r + 2 ≤ n → ∀ j < n, (j + r) % n = i → ∃ e y, t j = some (e, y) ∧ c ≤ e + r := by
  intro r
  induction r with
  | zero =>
    intro _ _ j hj hji
    rw [Nat.add_zero, Nat.mod_eq_of_lt hj] at hji
    grind
  | succ r ih =>
    intro hr hn j hj hji
    have hji' : ((j + 1) % n + r) % n = i := by rw [succ_add_mod, hji]
    obtain ⟨e, y, he, hle⟩ := ih (by omega) (by omega) _ (h.succ_lt j) hji'
    obtain ⟨e, rfl⟩ := Nat.exists_eq_add_of_le' (show 1 ≤ e by omega)
    have hjp : j ≠ p := by
      rintro rfl
      have := add_mod_cases (d := r + 1) hj (by omega)
      have := succ_mod_cases hi
      omega
    have hjp' : (j + 1) % n ≠ p := by
      intro hjp'
      have := add_mod_cases (d := r) (h.succ_lt j) (by omega)
      have := succ_mod_cases hi
      omega
    obtain ⟨e', y', he', hle'⟩ := h.order j e y hj hjp hjp' he
    grind

theorem succ_dist_lt (h : Layout n key home p t) (hi : i < n) (hp : (i + 1) % n = p)
    (hx : t i = some (c, x)) : c + 1 < n := by
  by_contra hge
  obtain ⟨q, hq, hqp, hqn⟩ := h.free
  obtain ⟨r, hr, hqr⟩ : ∃ r, r + 2 ≤ n ∧ (q + r) % n = i := by
    have := succ_mod_cases hi
    rcases Nat.lt_or_ge i q with hiq | hiq
    · refine ⟨i + n - q, by omega, ?_⟩
      have := add_mod_cases (d := i + n - q) hq (by omega)
      omega
    · refine ⟨i - q, by omega, ?_⟩
      rw [Nat.add_sub_cancel' hiq, Nat.mod_eq_of_lt hi]
  obtain ⟨e, y, he, _⟩ := h.back_hole hi hp hx r (by omega) hr q hq hqr
  rw [hqn] at he
  cases he

theorem uniq_move (h : Layout n key home p t) {a b : ℕ} (ha : a < n) (hx : t a = some (c, x))
    (hh : t b = none) :
    ∀ i j d' e y z, i < n → j < n → move t a b d x i = some (d', y) →
      move t a b d x j = some (e, z) → key y = key z → i = j := by
  have hne : a ≠ b := by grind
  -- seen from the old table, the slot `b` stands for the slot `a`
  have hold : ∀ i e y, i < n → move t a b d x i = some (e, y) →
      i = b ∧ y = x ∨ i ≠ a ∧ i ≠ b ∧ t i = some (e, y) := by
    intro i e y hi he
    by_cases hib : i = b
    · subst hib
      rw [move_target] at he
      grind
    grind [move_source, move_ne]
  intro i j d' e y z hi hj hy hz hk
  obtain ⟨rfl, rfl⟩ | ⟨hia, _, hy'⟩ := hold i d' y hi hy <;>
    obtain ⟨rfl, rfl⟩ | ⟨hja, _, hz'⟩ := hold j e z hj hz
  · rfl
  · exact absurd (h.uniq a j c e _ z ha hj hx hz' hk).symm hja
  · exact absurd (h.uniq i a d' c y _ hi ha hy' hx hk) hia
  · exact h.uniq i j d' e y z hi hj hy' hz' hk

theorem pullUp (h : Layout n key home p t) (hi : i < n) (hp : (i + 1) % n = p)
    (hx : t i = some (c, x)) : Layout n key home i (move t i p (c + 1) x) := by
  have hpn : p < n := hp ▸ h.succ_lt i
  have hh : t p = none := h.hole hpn
  have hip : i ≠ p := by grind
  have hc := h.succ_dist_lt hi hp hx
  obtain ⟨q, hq, hqp, hqn⟩ := h.free
  have hqi : q ≠ i := by grind
  have hi' := succ_mod_cases hi
  exact
    { home_lt := h.home_lt
      hole := fun _ => move_source hip
      dist := by
        intro j e y hj he
        by_cases hjp : j = p
        · subst hjp
          rw [move_target] at he
          cases he
          obtain ⟨_, hat⟩ := h.dist i c x hi hx
          exact ⟨hc, by rw [← add_succ_mod, hat, hp]⟩
        · by_cases hji : j = i
          · grind [move_source]
          · rw [move_ne hji hjp] at he
            exact h.dist j e y hj he
      order := by
        intro j e y hj hji hji' he
        have hjp' : (j + 1) % n ≠ p := by
          have := succ_mod_cases hj
          omega
        rw [move_ne hji' hjp'] at he
        by_cases hjp : j = p
        -- what stands behind the hole is at most one farther from home than the entry that moves in
        · subst hjp
          refine ⟨c + 1, x, move_target, ?_⟩
          rcases Nat.eq_zero_or_pos e with rfl | hpos
          · exact Nat.zero_le _
          · obtain ⟨e, rfl⟩ := Nat.exists_eq_add_of_le' hpos
            obtain ⟨c', y', hc', hle⟩ := h.gap i e y hi hp he
            grind
        · rw [move_ne hji hjp]
          exact h.order j e y hj hjp hjp' he
      gap := by
        intro j e y hj hji he
        rw [hp, move_target] at he
        cases he
        -- in front of the new hole the order is that of the slot it left
        have hjp : j ≠ p := by
          have := succ_mod_cases hj
          grind
        have hji' : j ≠ i := by grind
        rw [move_ne hji' hjp]
        exact h.order j e x hj hjp (by rw [hji]; exact hip) (by rw [hji, hx])
      free := ⟨q, hq, hqi, by rw [move_ne hqi hqp, hqn]⟩
      uniq := h.uniq_move hi hx hh }

theorem pullBack (h : Layout n key home p t) (hpn : p < n)
    (hx : t ((p + 1) % n) = some (c + 1, x)) :
    Layout n key home ((p + 1) % n) (move t ((p + 1) % n) p c x) := by
  have hh : t p = none := h.hole hpn
  have hjn := h.succ_lt p
  have hpj := succ_mod_cases hpn
  obtain ⟨hc, hat⟩ := h.dist _ _ _ hjn hx
  obtain ⟨q, hq, hqp, hqn⟩ := h.free
  generalize hj : (p + 1) % n = j at *
  have hjp : j ≠ p := by grind
  have hqj : q ≠ j := by grind
  exact
    { home_lt := h.home_lt
      hole := fun _ => move_source hjp
      dist := by
        intro i e y hi he
        by_cases hip : i = p
        · subst hip
          rw [move_target] at he
          cases he
          have := h.home_lt (key x)
          have := add_mod_cases (d := c + 1) this (by omega)
          grind [add_mod_cases]
        · by_cases hij : i = j
          · grind [move_source]
          · rw [move_ne hij hip] at he
            exact h.dist i e y hi he
      order := by
        intro i e y hi hij hij' he
        have hi' := succ_mod_cases hi
        have hip : i ≠ p := by omega
        rw [move_ne hij hip]
        -- the slot in front of the old hole sees the entry that has come nearer
        by_cases hip' : (i + 1) % n = p
        · rw [hip', move_target] at he
          cases he
          exact h.gap i e x hi hip' (by rw [hj, hx])
        · rw [move_ne hij' hip'] at he
          exact h.order i e y hi hip hip' he
      gap := by
        intro i e y hi hij he
        obtain rfl : i = p := by
          have := succ_mod_cases hi
          omega
        rw [move_target]
        refine ⟨c, x, rfl, ?_⟩
        have hj' := succ_mod_cases hjn
        rw [move_ne (by omega) (by omega)] at he
        obtain ⟨c', y', hc', hle⟩ := h.order j (e + 1) y hjn hjp (by omega) he
        grind
      free := ⟨q, hq, hqj, by rw [move_ne hqj hqp, hqn]⟩
      uniq := h.uniq_move hjn hx hh }

theorem fill (h : Layout n key home p t) (hpn : p < n) {u : ℕ} (hu : u < n)
    (hat : (home (key x) + u) % n = p)
    (hprev : ∀ i < n, (i + 1) % n = p → ∀ d, u = d + 1 → ∃ c y, t i = some (c, y) ∧ d ≤ c)
    (hnext : ∀ d y, t ((p + 1) % n) = some (d + 1, y) → d ≤ u)
    (hnew : ∀ y, Holds n t y → key y ≠ key x) :
    Layout n key home n (update t p (some (u, x))) := by
  obtain ⟨q, hq, hqp, hqn⟩ := h.free
  have hp := succ_mod_cases hpn
  exact
    { home_lt := h.home_lt
      hole := fun hlt => absurd hlt (lt_irrefl n)
      dist := by
        intro i e y hi he
        by_cases hip : i = p
        · grind
        · rw [update_of_ne hip] at he
          exact h.dist i e y hi he
      order := by
        intro i e y hi _ _ he
        have hi' := succ_mod_cases hi
        by_cases hip' : (i + 1) % n = p
        · rw [hip', update_self] at he
          cases he
          grind
        · rw [update_of_ne hip'] at he
          by_cases hip : i = p
          · grind
          · rw [update_of_ne hip]
            exact h.order i e y hi hip hip' he
      gap := fun i _ _ _ hin => absurd hin (h.succ_lt i).ne
      free := ⟨q, hq, hq.ne, by rw [update_of_ne hqp, hqn]⟩
      uniq := by
        intro i j d e y z hi hj hy hz hk
        -- the new key stands nowhere else
        by_cases hip : i = p <;> by_cases hjp : j = p
        · rw [hip, hjp]
        · subst hip
          rw [update_self] at hy
          rw [update_of_ne hjp] at hz
          cases hy
          exact absurd hk.symm (hnew z ⟨j, hj, e, hz⟩)
        · subst hjp
          rw [update_self] at hz
          rw [update_of_ne hip] at hy
          cases hz
          exact absurd hk (hnew y ⟨i, hi, d, hy⟩)
        · rw [update_of_ne hip] at hy
          rw [update_of_ne hjp] at hz
          exact h.uniq i j d e y z hi hj hy hz hk }

theorem setItem (h : Layout n key home n t) {y : α} (hpn : p < n) (hx : t p = some (c, x))
    (hk : key y = key x) : Layout n key home n (update t p (some (c, y))) := by
  have hold : ∀ i e z, update t p (some (c, y)) i = some (e, z) →
      ∃ w, t i = some (e, w) ∧ key w = key z := by grind
  have hnew : ∀ i e z, t i = some (e, z) → ∃ w, update t p (some (c, y)) i = some (e, w) := by grind
  obtain ⟨q, hq, hqn, hqe⟩ := h.free
  exact
    { home_lt := h.home_lt
      hole := fun hlt => absurd hlt (lt_irrefl n)
      dist := by
        intro i e z hi he
        obtain ⟨w, hw, hwz⟩ := hold i e z he
        exact hwz ▸ h.dist i e w hi hw
      order := by
        intro i e z hi hin hin' he
        obtain ⟨w, hw, _⟩ := hold _ _ _ he
        obtain ⟨c', w', hc', hle⟩ := h.order i e w hi hin hin' hw
        grind
      gap := fun i _ _ _ hin => absurd hin (h.succ_lt i).ne
      free := by
        refine ⟨q, hq, hqn, ?_⟩
        grind
      uniq := by
        intro i j d e z z' hi hj hz hz' hzz
        obtain ⟨w, hw, hwz⟩ := hold i d z hz
        obtain ⟨w', hw', hwz'⟩ := hold j e z' hz'
        exact h.uniq i j d e w w' hi hj hw hw' (by rw [hwz, hwz', hzz]) }

theorem vacate (h : Layout n key home n t) (hpn : p < n) (hx : t p = some (c, x)) :
    Layout n key home p (update t p none) := by
  obtain ⟨q, hq, _, hqn⟩ := h.free
  have hqp : q ≠ p := by grind
  have hold : ∀ i e y, update t p none i = some (e, y) → i ≠ p ∧ t i = some (e, y) := by grind
  exact
    { home_lt := h.home_lt
      hole := fun _ => update_self _ _ _
      dist := fun i e y hi he => h.dist i e y hi (hold i e y he).2
      order := by
        intro i e y hi hip _ he
        rw [update_of_ne hip]
        exact h.order i e y hi hi.ne (h.succ_lt i).ne (hold _ _ _ he).2
      gap := by
        intro i e y hi hip he
        obtain ⟨c', y', hc', hle⟩ :=
          h.order p (e + 1) y hpn hpn.ne (h.succ_lt p).ne (hold _ _ _ he).2
        obtain ⟨c', rfl⟩ := Nat.exists_eq_add_of_le' (show 1 ≤ c' by omega)
        rw [← hip] at hc'
        obtain ⟨b, z, hb, hle'⟩ := h.order i c' y' hi hi.ne (h.succ_lt i).ne hc'
        grind
      free := ⟨q, hq, hqp, by rw [update_of_ne hqp, hqn]⟩
      uniq := fun i j d e y z hi hj hy hz =>
        h.uniq i j d e y z hi hj (hold i d y hy).2 (hold j e z hz).2 }

theorem ofEmpty (h : Layout n key home n t) (hpn : p < n) (hp : t p = none)
    (hfree : ∃ q < n, q ≠ p ∧ t q = none) : Layout n key home p t where
  home_lt := h.home_lt
  hole _ := hp
  dist := h.dist
  order i e y hi _ _ := h.order i e y hi hi.ne (h.succ_lt i).ne
  gap := by
    intro i e y hi hip he
    obtain ⟨c, z, hc, _⟩ := h.order p (e + 1) y hpn hpn.ne (h.succ_lt p).ne he
    rw [hp] at hc
    cases hc
  free := hfree
  uniq := h.uniq

theorem close (h : Layout n key home p t) (hpn : p < n)
    (hnext : ∀ d x, t ((p + 1) % n) = some (d, x) → d = 0) : Layout n key home n t where
  home_lt := h.home_lt
  hole hlt := absurd hlt (lt_irrefl n)
  dist := h.dist
  order := by
    intro i e y hi _ _ he
    by_cases hip : i = p
    · grind
    · by_cases hip' : (i + 1) % n = p
      · rw [hip', h.hole hpn] at he
        cases he
      · exact h.order i e y hi hip hip' he
  gap := fun i _ _ _ hin => absurd hin (h.succ_lt i).ne
  free := ⟨p, hpn, hpn.ne, h.hole hpn⟩
  uniq := h.uniq

end Layout

/-! How far from home an item can be pushed: no further than its neighbourhood is crowded. -/

/-- No stretch of `L` slots is home to more than `L + lim` of the keys. -/
def Spread (n : ℕ) (home : κ → ℕ) (lim : ℕ) (S : Finset κ) : Prop :=
  ∀ a L, 0 < L → L ≤ n →
    ∀ K ⊆ S, (∀ k ∈ K, ∃ u < L, home k = (a + u) % n) → K.card ≤ L + lim

theorem Spread.mono {n lim : ℕ} {home : κ → ℕ} {S S' : Finset κ} (h : Spread n home lim S)
    (hs : S' ⊆ S) : Spread n home lim S' :=
  fun a L h₀ hL K hK => h a L h₀ hL K (hK.trans hs)

namespace Layout

variable {n b m g d i : ℕ} {key : α → κ} {home : κ → ℕ} {t : Table α} {x : α}

theorem exists_run (h : Layout n key home n t) (hi : i < n) (ht : t i ≠ none) :
    ∃ b < n, ∃ g, t b = none ∧ (b + 1 + g) % n = i ∧ ∀ v ≤ g, t ((b + 1 + v) % n) ≠ none := by
  classical
  obtain ⟨q, hq, _, hqn⟩ := h.free
  have hex : ∃ r, r ≤ n ∧ t ((i + (n - r)) % n) = none := by
    rcases Nat.lt_or_ge i q with hiq | hiq
    · exact ⟨n - (q - i), by omega, by grind [Nat.mod_eq_of_lt]⟩
    · exact ⟨i - q, by omega, by
        rw [show i + (n - (i - q)) = q + n by omega, Nat.add_mod_right, Nat.mod_eq_of_lt hq, hqn]⟩
  obtain ⟨r, ⟨hr, hrn⟩, hmin⟩ : ∃ r, (r ≤ n ∧ t ((i + (n - r)) % n) = none) ∧
      ∀ s < r, ¬ (s ≤ n ∧ t ((i + (n - s)) % n) = none) :=
    ⟨Nat.find hex, Nat.find_spec hex, fun _ hs => Nat.find_min hex hs⟩
  have hpos : 0 < r := by
    by_contra h0
    obtain rfl : r = 0 := by omega
    rw [Nat.sub_zero, Nat.add_mod_right, Nat.mod_eq_of_lt hi] at hrn
    exact ht hrn
  have hslot : ∀ v, ((i + (n - r)) % n + 1 + v) % n = (i + (n - r) + 1 + v) % n := by
    intro v
    rw [Nat.add_assoc, Nat.mod_add_mod, ← Nat.add_assoc]
  refine ⟨_, Nat.mod_lt _ h.pos, r - 1, hrn, ?_, fun v hv hn => ?_⟩
  · rw [hslot, show i + (n - r) + 1 + (r - 1) = i + n by omega, Nat.add_mod_right,
      Nat.mod_eq_of_lt hi]
  · rw [hslot, show i + (n - r) + 1 + v = i + (n - (r - 1 - v)) by omega] at hn
    grind

theorem dist_le_run (h : Layout n key home n t) (hb : b < n) (hbn : t b = none) :
    ∀ v e y, t ((b + 1 + v) % n) = some (e, y) → e ≤ v := by
  intro v
  induction v with
  | zero =>
    intro e y he
    by_contra hne
    obtain ⟨e, rfl⟩ := Nat.exists_eq_add_of_le' (show 1 ≤ e by omega)
    obtain ⟨c, z, hc, _⟩ := h.order b e y hb hb.ne (h.succ_lt b).ne he
    rw [hbn] at hc
    cases hc
  | succ v ih =>
    intro e y he
    rcases Nat.eq_zero_or_pos e with rfl | hpos
    · exact Nat.zero_le _
    · obtain ⟨e, rfl⟩ := Nat.exists_eq_add_of_le' hpos
      have hlt : (b + 1 + v) % n < n := Nat.mod_lt _ h.pos
      rw [← add_succ_mod] at he
      obtain ⟨c, z, hc, hle⟩ := h.order _ e y hlt hlt.ne (h.succ_lt _).ne he
      grind

theorem le_dist (h : Layout n key home n t) {e : ℕ} {y : α} (he : t (b % n) = some (e, y)) :
    ∀ r d x, t ((b + r) % n) = some (d, x) → d ≤ e + r := by
  intro r
  induction r with
  | zero =>
    grind
  | succ r ih =>
    intro d x hd
    rcases Nat.eq_zero_or_pos d with rfl | hpos
    · exact Nat.zero_le _
    · obtain ⟨d, rfl⟩ := Nat.exists_eq_add_of_le' hpos
      have hlt : (b + r) % n < n := Nat.mod_lt _ h.pos
      rw [← add_succ_mod] at hd
      obtain ⟨c, z, hc, hle⟩ := h.order _ d x hlt hlt.ne (h.succ_lt _).ne hd
      grind

theorem crowd [DecidableEq κ] (h : Layout n key home n t) (hb : b < n) (hbn : t b = none)
    (hm : m < n) (hrun : ∀ v ≤ m, t ((b + 1 + v) % n) ≠ none)
    (hx : t ((b + 1 + m) % n) = some (d, x)) {S : Finset κ}
    (hS : ∀ y, Holds n t y → key y ∈ S) :
    ∃ K ⊆ S, K.card = m + 1 ∧ ∀ k ∈ K, ∃ u < m - d + 1, home k = (b + 1 + u) % n := by
  have hitem : ∀ v : Fin (m + 1), ∃ y, ∃ e, t ((b + 1 + v) % n) = some (e, y) := by
    intro v
    obtain ⟨⟨e, y⟩, hy⟩ := Option.ne_none_iff_exists'.mp (hrun v (by omega))
    exact ⟨y, e, hy⟩
  choose f e hf using hitem
  have hslot : ∀ v, (b + 1 + v) % n < n := fun v => Nat.mod_lt _ h.pos
  have hinj : Function.Injective fun v => key (f v) := by
    intro v w hvw
    have := h.uniq _ _ _ _ _ _ (hslot v) (hslot w) (hf v) (hf w) hvw
    exact Fin.ext (add_mod_inj (by omega) (by omega) this)
  refine ⟨Finset.univ.image fun v => key (f v), ?_, ?_, ?_⟩
  · intro k hk
    obtain ⟨v, _, rfl⟩ := Finset.mem_image.mp hk
    exact hS _ ⟨_, hslot v, _, hf v⟩
  · rw [Finset.card_image_of_injective _ hinj, Finset.card_univ, Fintype.card_fin]
  · intro k hk
    obtain ⟨v, _, rfl⟩ := Finset.mem_image.mp hk
    have hev : e v ≤ v := h.dist_le_run hb hbn _ _ _ (hf v)
    have hdv : d ≤ e v + (m - v) := by
      apply h.le_dist (hf v) (m - v) d x
      grind
    obtain ⟨hen, hat⟩ := h.dist _ _ _ (hslot v) (hf v)
    refine ⟨v - e v, by omega, ?_⟩
    rw [← Nat.mod_eq_of_lt (h.home_lt (key (f v)))]
    have hsum : (home (key (f v)) + e v) % n = (b + 1 + (v - e v) + e v) % n := by grind
    exact Nat.ModEq.add_right_cancel' (e v) hsum

theorem insert_dist_le [DecidableEq κ] (h : Layout n key home n t) {k : κ} {lim u e : ℕ}
    {S : Finset κ} (hS : ∀ y, Holds n t y → key y ∈ S) (hk : k ∉ S)
    (hspread : Spread n home lim (insert k S)) (hue : u ≤ e)
    (hrun : ∀ w < e, t ((home k + w) % n) ≠ none)
    (hbefore : ∀ w < u, ∀ c y, t ((home k + w) % n) = some (c, y) → w ≤ c)
    (hstop : u < e → ∀ c y, t ((home k + u) % n) = some (c, y) → c < u) :
    u ≤ lim ∧ ∀ w, u ≤ w → w < e → ∀ c y, t ((home k + w) % n) = some (c, y) → c + 1 ≤ lim := by
  rcases Nat.eq_zero_or_pos e with rfl | hpos
  · grind
  have hh := h.home_lt k
  have h0 := hrun 0 hpos
  rw [Nat.add_zero, Nat.mod_eq_of_lt hh] at h0
  obtain ⟨b, hb, g, hbn, hg, hbefore_home⟩ := h.exists_run hh h0
  have hshift : ∀ w, (b + 1 + (g + w)) % n = (home k + w) % n := by
    intro w
    rw [← Nat.add_assoc, ← Nat.mod_add_mod, hg]
  have hall : ∀ v < g + e, t ((b + 1 + v) % n) ≠ none := by
    intro v hv
    rcases Nat.lt_or_ge v g with hlt | hge
    · exact hbefore_home v hlt.le
    · obtain ⟨w, rfl⟩ := Nat.exists_eq_add_of_le hge
      grind
  have hlen : g + e < n := by
    by_contra hge
    apply hall (n - 1) (by omega)
    rw [Nat.add_assoc, Nat.add_sub_cancel' h.pos, Nat.add_mod_right, Nat.mod_eq_of_lt hb, hbn]
  -- the crowd in front of the item at offset `w`, once without and once with `k` itself
  have hcrowd : ∀ w < e, ∀ c y, t ((home k + w) % n) = some (c, y) →
      c ≤ lim ∧ (c ≤ w → c + 1 ≤ lim) := by
    intro w hw c y hc
    rw [← hshift] at hc
    have hcv : c ≤ g + w := h.dist_le_run hb hbn _ _ _ hc
    obtain ⟨K, hKS, hcard, hK⟩ := h.crowd hb hbn (m := g + w) (by omega)
      (fun v hv => hall v (by omega)) hc hS
    have hsub := hKS.trans (Finset.subset_insert k S)
    constructor
    · have := hspread (b + 1) (g + w - c + 1) (Nat.succ_pos _) (by omega) K hsub hK
      omega
    · intro hcw
      have := hspread (b + 1) (g + w - c + 1) (Nat.succ_pos _) (by omega) (insert k K)
        (Finset.insert_subset_insert k hKS) (by
          intro k' hk'
          obtain rfl | hk' := Finset.mem_insert.mp hk'
          · exact ⟨g, by omega, hg.symm⟩
          · exact hK k' hk')
      grind
  constructor
  · rcases Nat.eq_zero_or_pos u with rfl | hu
    · exact Nat.zero_le _
    · obtain ⟨⟨c, y⟩, hc⟩ := Option.ne_none_iff_exists'.mp (hrun (u - 1) (by omega))
      have hle := hbefore (u - 1) (by omega) c y hc
      obtain ⟨h₁, h₂⟩ := hcrowd (u - 1) (by omega) c y hc
      omega
  · intro w huw hwe c y hc
    obtain ⟨⟨c₀, y₀⟩, hc₀⟩ := Option.ne_none_iff_exists'.mp (hrun u (by omega))
    have hlt := hstop (by omega) c₀ y₀ hc₀
    have hle : c ≤ c₀ + (w - u) := by
      apply h.le_dist hc₀ (w - u) c y
      grind
    grind

end Layout

end RobinHood
