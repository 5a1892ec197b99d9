import LsLang.Core.Map
import LsLang.Lib.RobinHood
import Mathlib.Data.Finmap

/-! The arrays of a map as a Robin Hood table, and what the probe and shift loops
do to it. -/

namespace LsLang.Core

open Function Cyclic RobinHood
open HashEqual (hash equal)

variable {K V : Type} [HashEqual K]

instance keySetoid (K : Type) [HashEqual K] : Setoid K := ⟨_, HashEqual.equivalence⟩

/-- The keys of a map: the values of `K` up to `Equal`. -/
def Key (K : Type) [HashEqual K] : Type := Quotient (keySetoid K)

def Key.mk (k : K) : Key K := Quotient.mk _ k

theorem Key.mk_eq {a b : K} : Key.mk a = Key.mk b ↔ equal a b = true := Quotient.eq

theorem Key.exists_mk (q : Key K) : ∃ k, Key.mk k = q := Quotient.exists_rep q

instance decidableSame : DecidableRel (keySetoid K).r := fun a b => inferInstanceAs (Decidable (equal a b = true))

instance : DecidableEq (Key K) := inferInstanceAs (DecidableEq (Quotient (keySetoid K)))

def entryKey (e : K × V) : Key K := Key.mk e.1

/-- The home of a key in a table of `cap` slots. -/
def homeIn (cap : Nat) : Key K → Nat :=
  Quotient.lift (fun k => Map.scatter (64 - Nat.log2 cap) (hash k)) fun a b h => by
    rw [HashEqual.hash_eq a b h]

theorem scatter_lt {b : Nat} (hb : 3 ≤ b) (hb' : b ≤ 28) (h : UInt64) :
    Map.scatter (64 - b) h < 2 ^ b := by
  have hs : (UInt64.ofNat (64 - b)).toNat = 64 - b := by
    rw [UInt64.toNat_ofNat']
    omega
  have hlt : ((h * 11400714819323198485) >>> UInt64.ofNat (64 - b)).toNat < 2 ^ b := by
    rw [UInt64.toNat_shiftRight, hs, Nat.mod_eq_of_lt (by omega), Nat.shiftRight_eq_div_pow,
      Nat.div_lt_iff_lt_mul (by positivity), ← Nat.pow_add, Nat.add_sub_cancel' (by omega)]
    exact UInt64.toNat_lt _
  have hle : 2 ^ b ≤ 2 ^ 28 := Nat.pow_le_pow_right (by omega) hb'
  rw [Map.scatter, i32_eq (by omega) (by omega), Int.toNat_natCast]
  exact hlt

namespace Map

/-- The capacity is a power of two that `int` arithmetic on slots and loads can take. -/
def Sized (m : Map K V) : Prop :=
  ∃ b, 3 ≤ b ∧ b ≤ 28 ∧ m.cap = 2 ^ b ∧ m.shift = 64 - b

/-- Slot `i` of the arrays for every `i` but the hole `p`. -/
def Shows (m : Map K V) (p : Nat) (t : Table (K × V)) : Prop :=
  ∀ i < m.cap, i ≠ p → m.ctrl i = 255 ∧ t i = none ∨
    ∃ k v, m.ctrl i < 255 ∧ m.keys i = some k ∧ m.vals i = some v ∧ t i = some (m.ctrl i, (k, v))

section Sized

omit [HashEqual K]

variable {m : Map K V}

theorem Sized.pos (h : m.Sized) : 8 ≤ m.cap := by
  obtain ⟨b, hb, _, hc, _⟩ := h
  rw [hc]
  exact Nat.pow_le_pow_right (n := 2) (by omega) hb

theorem Sized.le (h : m.Sized) : m.cap ≤ 2 ^ 28 := by
  obtain ⟨b, _, hb, hc, _⟩ := h
  rw [hc]
  exact Nat.pow_le_pow_right (by omega) hb

theorem Sized.shift_eq (h : m.Sized) : m.shift = 64 - Nat.log2 m.cap := by
  obtain ⟨b, _, _, hc, hs⟩ := h
  rw [hs, hc, Nat.log2_two_pow]

theorem Sized.and_mask (h : m.Sized) (x : Nat) : x &&& m.mask = x % m.cap := by
  obtain ⟨b, _, _, hc, _⟩ := h
  rw [mask, hc]
  exact Nat.and_two_pow_sub_one_eq_mod x b

theorem Sized.next_eq (h : m.Sized) (i : Nat) : m.next i = (i + 1) % m.cap := h.and_mask _

theorem Sized.prev_eq (h : m.Sized) {i p : Nat} (hi : i < m.cap) (hp : (i + 1) % m.cap = p) :
    m.prev p = i := by
  have hd : (m.cap : Int) ∣ 2 ^ 32 := by
    obtain ⟨b, _, hb, hc, _⟩ := h
    rw [hc, Nat.cast_pow]
    exact pow_dvd_pow 2 (by omega)
  have hm : ((((p : Int) - 1) % 2 ^ 32).toNat % m.cap : Nat) = ((p : Int) - 1) % m.cap := by
    rw [Int.natCast_mod, Int.toNat_of_nonneg (Int.emod_nonneg _ (by norm_num)),
      Int.emod_emod_of_dvd _ hd]
  have hx : ((p : Int) - 1) % m.cap = i := by
    rcases succ_mod_cases hi with ⟨he, hlt⟩ | ⟨he, hlast⟩
    · rw [show (p : Int) - 1 = i by omega]
      exact Int.emod_eq_of_lt (by omega) (by omega)
    · rw [← Int.add_emod_right, show (p : Int) - 1 + m.cap = i by omega]
      exact Int.emod_eq_of_lt (by omega) (by omega)
  rw [prev, h.and_mask]
  exact_mod_cast hm.trans hx

end Sized

variable {m : Map K V} {t : Table (K × V)} {k : K} {v : V} {p i c : Nat} {x : K × V}

theorem Sized.home_eq (h : m.Sized) (k : K) : m.home (hash k) = homeIn m.cap (Key.mk k) := by
  rw [home, h.shift_eq]
  rfl

theorem Sized.homeIn_lt (h : m.Sized) (q : Key K) : homeIn m.cap q < m.cap := by
  obtain ⟨k, rfl⟩ := q.exists_mk
  rw [← h.home_eq, home]
  obtain ⟨b, hb, hb', hc, hs⟩ := h
  rw [hc, hs]
  exact scatter_lt hb hb' _

omit [HashEqual K] in
theorem Shows.some (h : m.Shows p t) (hi : i < m.cap) (hip : i ≠ p) (hx : t i = some (c, x)) :
    m.ctrl i = c ∧ c < 255 ∧ m.keys i = some x.1 ∧ m.vals i = some x.2 := by
  obtain ⟨_, hn⟩ | ⟨k, v, hlt, hk, hv, hs⟩ := h i hi hip
  · rw [hn] at hx
    cases hx
  grind

omit [HashEqual K] in
theorem Shows.ctrl_eq_empty (h : m.Shows p t) (hi : i < m.cap) (hip : i ≠ p) :
    m.ctrl i = 255 ↔ t i = none := by
  obtain ⟨hc, hn⟩ | ⟨k, v, hlt, hk, hv, hs⟩ := h i hi hip
  · simp [hc, hn]
  · simp [hs, hlt.ne]

structure Ok (m : Map K V) (t : Table (K × V)) : Prop where
  sized : m.Sized
  shows_ : m.Shows m.cap t
  layout : Layout m.cap entryKey (homeIn m.cap) m.cap t
  len : m.len = count m.cap t

/-! Phase 1 of the insertion, and `_find`. -/

/-- Offset `w` from the home of `k` is taken, by another key and not too close to its home. -/
def Passed (m : Map K V) (t : Table (K × V)) (k : K) (w : Nat) : Prop :=
  ∃ c y, t ((homeIn m.cap (Key.mk k) + w) % m.cap) = some (c, y) ∧ w ≤ c ∧ entryKey y ≠ Key.mk k

/-- Where a search for `k` may end. -/
def Spot.Ok (m : Map K V) (t : Table (K × V)) (k : K) : Spot → Prop
  | .update idx => idx < m.cap ∧ ∃ c y, t idx = some (c, y) ∧ entryKey y = Key.mk k
  | .place idx psl => idx = (homeIn m.cap (Key.mk k) + psl) % m.cap ∧
      (∀ w < psl, m.Passed t k w) ∧
      ∀ c y, t idx = some (c, y) → c < psl ∧ entryKey y ≠ Key.mk k

theorem Ok.passed_le (h : m.Ok t) {w : Nat} (hp : m.Passed t k w) : w < 255 := by
  obtain ⟨c, y, hc, hle, _⟩ := hp
  have hlt : (homeIn m.cap (Key.mk k) + w) % m.cap < m.cap := Nat.mod_lt _ h.layout.pos
  obtain ⟨_, hlt', _⟩ := h.shows_.some hlt hlt.ne hc
  omega

theorem Ok.scan_spec (h : m.Ok t) (k : K) : ∀ fuel psl, psl + fuel = 256 →
    (∀ w < psl, m.Passed t k w) →
    ∃ spot, m.scan k fuel ((homeIn m.cap (Key.mk k) + psl) % m.cap) psl = some spot ∧
      spot.Ok m t k := by
  intro fuel
  induction fuel with
  | zero =>
    intro psl hf hp
    have := h.passed_le (hp 255 (by omega))
    omega
  | succ fuel ih =>
    intro psl hf hp
    generalize hidx : (homeIn m.cap (Key.mk k) + psl) % m.cap = idx
    have hlt : idx < m.cap := hidx ▸ Nat.mod_lt _ h.layout.pos
    rw [scan]
    obtain ⟨hc, hn⟩ | ⟨e, v, hle, hk, _, hs⟩ := h.shows_ idx hlt hlt.ne
    · rw [if_pos hc]
      refine ⟨_, rfl, hidx.symm, hp, fun c y hy => ?_⟩
      grind
    · rw [if_neg hle.ne, hk]
      dsimp only [Option.bind_eq_bind, Option.bind_some]
      split_ifs with he hcp
      · exact ⟨_, rfl, hlt, _, _, hs, Key.mk_eq.mpr he⟩
      · refine ⟨_, rfl, hidx.symm, hp, fun c y hy => ?_⟩
        rw [hs] at hy
        cases hy
        exact ⟨hcp, fun hk => he (Key.mk_eq.mp hk)⟩
      · rw [h.sized.next_eq, ← hidx, add_succ_mod]
        refine ih (psl + 1) (by omega) fun w hw => ?_
        rcases Nat.lt_succ_iff_lt_or_eq.mp hw with hw | rfl
        · exact hp w hw
        · exact ⟨_, (e, v), by rw [hidx]; exact hs, by omega, fun hke => he (Key.mk_eq.mp hke)⟩

theorem Ok.scan_home (h : m.Ok t) (k : K) :
    ∃ spot, m.scan k 256 (m.home (hash k)) 0 = some spot ∧ spot.Ok m t k := by
  have := h.scan_spec k 256 0 (by omega) fun w hw => absurd hw (Nat.not_lt_zero w)
  rwa [Nat.add_zero, Nat.mod_eq_of_lt (h.sized.homeIn_lt _), ← h.sized.home_eq] at this

theorem Ok.place_absent (h : m.Ok t) {idx psl : Nat} (hs : Spot.Ok m t k (.place idx psl)) :
    ∀ y, Holds m.cap t y → entryKey y ≠ Key.mk k := by
  obtain ⟨rfl, hp, hstop⟩ := hs
  refine h.layout.absent (fun c y hc => (hstop c y hc).1) fun w hw c y hc => ?_
  obtain ⟨c', y', hc', _, hne⟩ := hp w hw
  grind

theorem Ok.findLoop_spec (h : m.Ok t) (k : K) : ∀ fuel psl, psl + fuel = 256 →
    (∀ w < psl, m.Passed t k w) →
    ∃ r, m.findLoop k fuel ((homeIn m.cap (Key.mk k) + psl) % m.cap) psl = some r ∧
      (∀ idx, r = some idx → Spot.Ok m t k (.update idx)) ∧
      (r = none → ∀ y, Holds m.cap t y → entryKey y ≠ Key.mk k) := by
  intro fuel
  induction fuel with
  | zero =>
    intro psl hf hp
    have := h.passed_le (hp 255 (by omega))
    omega
  | succ fuel ih =>
    intro psl hf hp
    generalize hidx : (homeIn m.cap (Key.mk k) + psl) % m.cap = idx
    have hlt : idx < m.cap := hidx ▸ Nat.mod_lt _ h.layout.pos
    have hstop : (∀ c y, t idx = some (c, y) → c < psl) →
        ∀ y, Holds m.cap t y → entryKey y ≠ Key.mk k := by
      intro hs
      refine h.layout.absent (u := psl) (by rw [hidx]; exact hs) fun w hw c y hc => ?_
      obtain ⟨c', y', hc', _, hne⟩ := hp w hw
      grind
    rw [findLoop]
    obtain ⟨hc, hn⟩ | ⟨e, v, hle, hk, _, hs⟩ := h.shows_ idx hlt hlt.ne
    · rw [if_pos hc]
      grind
    · rw [if_neg hle.ne]
      split_ifs with hcp
      · grind
      · rw [hk]
        dsimp only [Option.bind_eq_bind, Option.bind_some]
        split_ifs with he
        · refine ⟨_, rfl, fun j hj => ?_, fun h => by cases h⟩
          cases hj
          exact ⟨hlt, _, _, hs, Key.mk_eq.mpr he⟩
        · rw [h.sized.next_eq, ← hidx, add_succ_mod]
          refine ih (psl + 1) (by omega) fun w hw => ?_
          rcases Nat.lt_succ_iff_lt_or_eq.mp hw with hw | rfl
          · exact hp w hw
          · exact ⟨_, (e, v), by rw [hidx]; exact hs, by omega, fun hke => he (Key.mk_eq.mp hke)⟩

theorem Ok.find_spec (h : m.Ok t) (k : K) :
    ∃ r, m.find k (hash k) = some r ∧ (∀ idx, r = some idx → Spot.Ok m t k (.update idx)) ∧
      (r = none → ∀ y, Holds m.cap t y → entryKey y ≠ Key.mk k) := by
  have hpos := h.sized.pos
  have := h.findLoop_spec k 256 0 (by omega) fun w hw => absurd hw (Nat.not_lt_zero w)
  rw [Nat.add_zero, Nat.mod_eq_of_lt (h.sized.homeIn_lt _), ← h.sized.home_eq] at this
  rwa [find, if_neg (by omega)]

/-! Phase 2 of the insertion. -/

theorem Ok.tailLoop_spec (h : m.Ok t) : ∀ e idx fuel, e < fuel → idx < m.cap →
    (∀ w < e, t ((idx + w) % m.cap) ≠ none) → t ((idx + e) % m.cap) = none →
    m.tailLoop fuel idx = some ((idx + e) % m.cap) := by
  intro e
  induction e with
  | zero =>
    intro idx fuel hf hi _ hn
    obtain ⟨fuel, rfl⟩ := Nat.exists_eq_add_of_le' (show 1 ≤ fuel by omega)
    simp only [Nat.add_zero, Nat.mod_eq_of_lt hi] at hn ⊢
    rw [tailLoop, if_pos ((h.shows_.ctrl_eq_empty hi hi.ne).mpr hn)]
  | succ e ih =>
    intro idx fuel hf hi hrun hn
    obtain ⟨fuel, rfl⟩ := Nat.exists_eq_add_of_le' (show 1 ≤ fuel by omega)
    have h0 := hrun 0 (Nat.succ_pos e)
    rw [Nat.add_zero, Nat.mod_eq_of_lt hi] at h0
    have hrest := ih ((idx + 1) % m.cap) fuel (by omega) (h.layout.succ_lt idx)
      (fun w hw => by rw [succ_add_mod]; grind) (by rw [succ_add_mod, hn])
    rw [tailLoop, if_neg fun hc => h0 ((h.shows_.ctrl_eq_empty hi hi.ne).mp hc), h.sized.next_eq,
      hrest, succ_add_mod]

theorem Sized.shiftUp_spec (hm : m.Sized) (hs : m.Shows p t)
    (hl : Layout m.cap entryKey (homeIn m.cap) p t) (hi : i < m.cap) (hp : (i + 1) % m.cap = p)
    (hx : t i = some (c, x)) (hc : c + 1 < 255) :
    ∃ m', m.shiftUp p = some m' ∧ m'.cap = m.cap ∧ m'.shift = m.shift ∧ m'.len = m.len ∧
      m'.Shows i (move t i p (c + 1) x) := by
  have hip : i ≠ p := by
    rintro rfl
    rw [hl.hole hi] at hx
    cases hx
  obtain ⟨hci, _, hk, hv⟩ := hs.some hi hip hx
  have hprev := hm.prev_eq hi hp
  have hup : m.shiftUp p = some { m with
      keys := update (update m.keys i none) p (some x.1)
      vals := update (update m.vals i none) p (some x.2)
      ctrl := update m.ctrl p (u8 (m.ctrl i + 1)) } := by
    rw [shiftUp, hprev, hk, hv]
    rfl
  refine ⟨_, hup, rfl, rfl, rfl, fun j hj hji => ?_⟩
  by_cases hjp : j = p
  · grind [move_target, update_self, u8_eq]
  · dsimp only
    rw [move_ne hji hjp, update_of_ne hjp, update_of_ne hjp, update_of_ne hji, update_of_ne hjp,
      update_of_ne hji]
    exact hs j hj hjp

/-- The table `t'` with a hole at `a` that the forward shift makes of `t`, whose `n`
slots from `a` on are taken. -/
structure Opened (m : Map K V) (t : Table (K × V)) (a n : Nat) (m' : Map K V)
    (t' : Table (K × V)) : Prop where
  cap : m'.cap = m.cap
  shift : m'.shift = m.shift
  len : m'.len = m.len
  shows_ : m'.Shows a t'
  layout : Layout m.cap entryKey (homeIn m.cap) a t'
  holds : ∀ y, Holds m.cap t' y ↔ Holds m.cap t y
  count : count m.cap t' = count m.cap t
  away : ∀ j, (∀ w ≤ n, j ≠ (a + w) % m.cap) → t' j = t j
  same : n = 0 → t' = t
  next : 0 < n → ∀ c x, t a = some (c, x) → t' ((a + 1) % m.cap) = some (c + 1, x)

theorem Sized.shiftLoop_spec {a : Nat} : ∀ (n : Nat) (m : Map K V) (t : Table (K × V)) (fuel : Nat),
    m.Sized → a < m.cap → n < m.cap → n < fuel → m.Shows ((a + n) % m.cap) t →
    Layout m.cap entryKey (homeIn m.cap) ((a + n) % m.cap) t →
    (∀ w < n, ∃ c x, t ((a + w) % m.cap) = some (c, x) ∧ c + 1 < 255) →
    ∃ m' t', shiftLoop a fuel ((a + n) % m.cap) m = some m' ∧ Opened m t a n m' t' := by
  intro n
  induction n with
  | zero =>
    intro m t fuel hm ha _ hf hs hl _
    obtain ⟨fuel, rfl⟩ := Nat.exists_eq_add_of_le' (show 1 ≤ fuel by omega)
    rw [Nat.add_zero a, Nat.mod_eq_of_lt ha] at hs hl ⊢
    exact ⟨m, t, by rw [shiftLoop, if_pos rfl], rfl, rfl, rfl, hs, hl, fun _ => Iff.rfl, rfl,
      fun _ _ => rfl, fun _ => rfl, fun h => absurd h (lt_irrefl 0)⟩
  | succ n ih =>
    intro m t fuel hm ha hn hf hs hl hrun
    obtain ⟨fuel, rfl⟩ := Nat.exists_eq_add_of_le' (show 1 ≤ fuel by omega)
    obtain ⟨c, x, hx, hc⟩ := hrun n (Nat.lt_succ_self n)
    have hi : (a + n) % m.cap < m.cap := Nat.mod_lt _ (by omega)
    have hp : ((a + n) % m.cap + 1) % m.cap = (a + (n + 1)) % m.cap := add_succ_mod
    have hpa : (a + (n + 1)) % m.cap ≠ a := by
      intro h
      have := add_mod_inj (j := 0) hn (by omega) (h.trans (Nat.mod_eq_of_lt ha).symm)
      omega
    have hip : (a + n) % m.cap ≠ (a + (n + 1)) % m.cap := by grind [add_mod_inj]
    have hh := hl.hole (hp ▸ Nat.mod_lt _ (by omega))
    -- the entry in front of the hole moves into it, and the hole one slot back
    obtain ⟨m₁, h₁, hcap, hshift, hlen, hs₁⟩ := hm.shiftUp_spec hs hl hi hp hx hc
    have hl₁ := hl.pullUp hi hp hx
    have hne : ∀ w < n, (a + w) % m.cap ≠ (a + n) % m.cap ∧
        (a + w) % m.cap ≠ (a + (n + 1)) % m.cap := by
      intro w hw
      constructor <;> intro h
      · have := add_mod_inj (by omega) (by omega) h
        omega
      · have := add_mod_inj (by omega) hn h
        omega
    have hm₁ : m₁.Sized := by rwa [Sized, hcap, hshift]
    obtain ⟨m', t', h', ho⟩ := ih m₁ _ fuel hm₁ (by omega) (by omega) (by omega)
      (by rw [hcap]; exact hs₁) (by rw [hcap]; exact hl₁) (by
        intro w hw
        rw [hcap, move_ne (hne w hw).1 (hne w hw).2]
        exact hrun w (by omega))
    refine ⟨m', t', ?_, ?_⟩
    · rw [shiftLoop, if_neg hpa, h₁, hm.prev_eq hi hp]
      grind
    · have hhold : ∀ y, Holds m.cap (move t _ _ (c + 1) x) y ↔ Holds m.cap t y := fun y =>
        move_holds hi (hp ▸ Nat.mod_lt _ (by omega)) hip hx hh
      have hcount : RobinHood.count m.cap (move t _ _ (c + 1) x) = RobinHood.count m.cap t :=
        move_count hi (hp ▸ Nat.mod_lt _ (by omega)) hip hx hh
      exact
        { cap := ho.cap.trans hcap
          shift := ho.shift.trans hshift
          len := ho.len.trans hlen
          shows_ := ho.shows_
          layout := by
            have := ho.layout
            rwa [hcap] at this
          holds := fun y => by
            have := ho.holds y
            grind
          count := by
            have := ho.count
            grind
          away := by
            intro j hj
            have := ho.away j fun w hw => by
              rw [hcap]
              exact hj w (by omega)
            rw [this, move_ne (hj n (by omega)) (hj (n + 1) le_rfl)]
          same := fun h => absurd h (Nat.succ_ne_zero n)
          next := by
            intro _ c₀ x₀ hx₀
            rcases Nat.eq_zero_or_pos n with rfl | hpos
            · rw [Nat.add_zero, Nat.mod_eq_of_lt ha, hx₀] at hx
              cases hx
              rw [ho.same rfl, Nat.zero_add, move_target]
            · have h0 := hne 0 hpos
              rw [Nat.add_zero, Nat.mod_eq_of_lt ha] at h0
              have := ho.next hpos c₀ x₀ (by rw [move_ne h0.1 h0.2, hx₀])
              rwa [hcap] at this }

theorem Ok.openSlot_spec (h : m.Ok t) {a e : Nat} (ha : a < m.cap) (he : e < m.cap)
    (hrun : ∀ w < e, ∃ c x, t ((a + w) % m.cap) = some (c, x) ∧ c + 1 < 255)
    (hn : t ((a + e) % m.cap) = none) (hroom : m.len + 1 < m.cap) :
    ∃ m' t', m.openSlot a = some m' ∧ Opened m t a e m' t' := by
  have hlt : (a + e) % m.cap < m.cap := Nat.mod_lt _ h.layout.pos
  have hfree := exists_free ((a + e) % m.cap) (t := t) (by rw [← h.len]; exact hroom)
  have hhole := h.layout.ofEmpty hlt hn hfree
  have hshow : m.Shows ((a + e) % m.cap) t := fun i hi _ => h.shows_ i hi hi.ne
  obtain ⟨m', t', hloop, ho⟩ := h.sized.shiftLoop_spec e m t (m.cap + 1) ha he (by omega) hshow
    hhole hrun
  refine ⟨m', t', ?_, ho⟩
  rw [openSlot]
  have hempty := h.shows_.ctrl_eq_empty ha ha.ne
  split_ifs with hc
  · rw [h.tailLoop_spec e a _ (by omega) ha (fun w hw => ?_) hn]
    · exact hloop
    grind
  · -- the slot is empty, so the run is
    obtain rfl : e = 0 := by
      by_contra hne
      obtain ⟨c, x, hx, _⟩ := hrun 0 (by omega)
      rw [Nat.add_zero, Nat.mod_eq_of_lt ha, hempty.mp (not_not.mp hc)] at hx
      cases hx
    rw [Nat.add_zero a, Nat.mod_eq_of_lt ha, shiftLoop, if_pos rfl] at hloop
    exact hloop

end Map

end LsLang.Core
