import LsLang.Core.MapTable

/-! `_insert_no_grow` and `remove` against a finite map of the keys. -/

namespace LsLang.Core

open Function Cyclic RobinHood
open HashEqual (hash equal)

variable {K V : Type} [HashEqual K]

abbrev KeyMap (K V : Type) [HashEqual K] : Type := Finmap fun _ : Key K => V

/-- The items of the table are the entries of `f`. -/
def Rep (n : Nat) (t : Table (K × V)) (f : KeyMap K V) : Prop :=
  ∀ q u, f.lookup q = some u ↔ ∃ x, Key.mk x = q ∧ Holds n t (x, u)

namespace Rep

variable {n : Nat} {t t' : Table (K × V)} {f : KeyMap K V}

theorem mem_keys (hr : Rep n t f) (q : Key K) :
    q ∈ f.keys ↔ ∃ y, Holds n t y ∧ entryKey y = q := by
  rw [Finmap.mem_keys, Finmap.mem_iff]
  constructor
  · rintro ⟨u, hu⟩
    obtain ⟨x, hx, hh⟩ := (hr q u).mp hu
    exact ⟨_, hh, hx⟩
  · rintro ⟨⟨x, u⟩, hh, hx⟩
    exact ⟨u, (hr q u).mpr ⟨x, hx, hh⟩⟩

theorem insert (hr : Rep n t f) {x : K} {v : V} {q : Key K} (hx : Key.mk x = q)
    (hh : ∀ y, Holds n t' y ↔ y = (x, v) ∨ Holds n t y ∧ entryKey y ≠ q) :
    Rep n t' (f.insert q v) := by
  intro q' u
  by_cases hq : q' = q
  · subst hq
    rw [Finmap.lookup_insert]
    constructor
    · grind
    · rintro ⟨x', hx', h⟩
      obtain he | ⟨_, hne⟩ := (hh _).mp h
      · cases he
        rfl
      · exact absurd hx' hne
  · rw [Finmap.lookup_insert_of_ne _ hq, hr q' u]
    refine exists_congr fun x' => and_congr_right fun hx' => ?_
    rw [hh]
    constructor
    · exact fun h => .inr ⟨h, fun he => hq (hx'.symm.trans he)⟩
    grind

theorem erase (hr : Rep n t f) {q : Key K}
    (hh : ∀ y, Holds n t' y ↔ Holds n t y ∧ entryKey y ≠ q) : Rep n t' (f.erase q) := by
  intro q' u
  by_cases hq : q' = q
  · subst hq
    rw [Finmap.lookup_erase]
    constructor
    · intro h
      cases h
    · rintro ⟨x, hx, h⟩
      exact absurd hx ((hh _).mp h).2
  · rw [Finmap.lookup_erase_ne hq, hr q' u]
    refine exists_congr fun x => and_congr_right fun hx => ?_
    rw [hh]
    exact ⟨fun h => ⟨h, fun he => hq (hx.symm.trans he)⟩, fun h => h.1⟩

theorem card_keys (hr : Rep n t f)
    (hu : ∀ i j d e x y, i < n → j < n → t i = some (d, x) → t j = some (e, y) →
      entryKey x = entryKey y → i = j) : f.keys.card = count n t := by
  have hget : ∀ i ∈ (Finset.range n).filter fun i => (t i).isSome,
      ∃ d x, i < n ∧ t i = some (d, x) := by
    intro i hi
    obtain ⟨hin, hs⟩ := Finset.mem_filter.mp hi
    obtain ⟨⟨d, x⟩, hx⟩ := Option.isSome_iff_exists.mp hs
    grind
  choose d x hin hx using hget
  symm
  refine Finset.card_bij (fun i hi => entryKey (x i hi)) (fun i hi => ?_) (fun i hi j hj he => ?_)
    fun q hq => ?_
  · exact (hr.mem_keys _).mpr ⟨_, ⟨i, hin i hi, _, hx i hi⟩, rfl⟩
  · grind
  · obtain ⟨y, ⟨i, hi, e, he⟩, hk⟩ := (hr.mem_keys q).mp hq
    grind

end Rep

namespace Map

variable {m : Map K V} {t : Table (K × V)} {f : KeyMap K V} {k : K} {v : V}

/-- The values `_insert_no_grow` casts to a byte: the probe length of the new entry
and those of the entries it shifts. -/
def runFrom (m : Map K V) : Nat → Nat → List Nat
  | 0, _ => []
  | fuel + 1, idx => if m.ctrl idx = 255 then [] else (m.ctrl idx + 1) :: m.runFrom fuel (m.next idx)

def probes (m : Map K V) (k : K) : List Nat :=
  match m.scan k 256 (m.home (hash k)) 0 with
  | some (.place idx psl) => psl :: m.runFrom (m.cap + 1) idx
  | _ => []

theorem Ok.mem_runFrom (h : m.Ok t) {n : Nat} : ∀ e idx fuel, e < fuel → idx < m.cap →
    (∀ w < e, t ((idx + w) % m.cap) ≠ none) → t ((idx + e) % m.cap) = none →
    (n ∈ m.runFrom fuel idx ↔
      ∃ w < e, ∃ c y, t ((idx + w) % m.cap) = some (c, y) ∧ n = c + 1) := by
  intro e
  induction e with
  | zero =>
    intro idx fuel hf hi _ hn
    obtain ⟨fuel, rfl⟩ := Nat.exists_eq_add_of_le' (show 1 ≤ fuel by omega)
    rw [Nat.add_zero idx, Nat.mod_eq_of_lt hi] at hn
    rw [runFrom, if_pos ((h.shows_.ctrl_eq_empty hi hi.ne).mpr hn)]
    simp
  | succ e ih =>
    intro idx fuel hf hi hrun hn
    obtain ⟨fuel, rfl⟩ := Nat.exists_eq_add_of_le' (show 1 ≤ fuel by omega)
    have h0 := hrun 0 (Nat.succ_pos e)
    rw [Nat.add_zero, Nat.mod_eq_of_lt hi] at h0
    obtain ⟨⟨c, x⟩, hc⟩ := Option.ne_none_iff_exists'.mp h0
    have hci := (h.shows_.some hi hi.ne hc).1
    have hrest := ih ((idx + 1) % m.cap) fuel (by omega) (h.layout.succ_lt idx)
      (fun w hw => by rw [succ_add_mod]; grind) (by rw [succ_add_mod, hn])
    simp only [succ_add_mod] at hrest
    rw [runFrom, if_neg fun hc => h0 ((h.shows_.ctrl_eq_empty hi hi.ne).mp hc), h.sized.next_eq,
      List.mem_cons, hrest, hci]
    constructor
    · rintro (rfl | ⟨w, hw, hc'⟩)
      · exact ⟨0, Nat.succ_pos e, c, x, by rw [Nat.add_zero, Nat.mod_eq_of_lt hi, hc], rfl⟩
      · exact ⟨w + 1, by omega, hc'⟩
    · rintro ⟨w, hw, c', y, hy, rfl⟩
      cases w with
      | zero =>
        rw [Nat.add_zero, Nat.mod_eq_of_lt hi, hc] at hy
        grind
      | succ w => grind

theorem Ok.place_run (h : m.Ok t) {idx psl : Nat} (hs : Spot.Ok m t k (.place idx psl)) :
    ∃ e, psl + e < m.cap ∧ t ((idx + e) % m.cap) = none ∧
      ∀ w < e, t ((idx + w) % m.cap) ≠ none := by
  obtain ⟨rfl, hp, _⟩ := hs
  obtain ⟨E, hE, hEn, hrun⟩ := h.layout.exists_empty (h.sized.homeIn_lt (Key.mk k))
  have hle : psl ≤ E := by
    by_contra hlt
    obtain ⟨c, y, hc, _⟩ := hp E (by omega)
    rw [hEn] at hc
    cases hc
  obtain ⟨e, rfl⟩ := Nat.exists_eq_add_of_le hle
  refine ⟨e, hE, ?_, fun w hw => ?_⟩
  · rw [Nat.mod_add_mod, Nat.add_assoc, hEn]
  · rw [Nat.mod_add_mod, Nat.add_assoc]
    exact hrun _ (by omega)

theorem probes_of_place {idx psl : Nat} (h : m.scan k 256 (m.home (hash k)) 0 = some (.place idx psl)) :
    m.probes k = psl :: m.runFrom (m.cap + 1) idx := by
  rw [probes, h]

theorem Ok.place_ok (h : m.Ok t) (hr : Rep m.cap t f) {idx psl : Nat}
    (hscan : m.scan k 256 (m.home (hash k)) 0 = some (.place idx psl))
    (hspot : Spot.Ok m t k (.place idx psl)) (hroom : m.len + 1 < m.cap)
    (hsmall : ∀ n ∈ m.probes k, n ≤ 254) :
    ∃ m' t', m.insertNoGrow k v (hash k) = some m' ∧ m'.cap = m.cap ∧ m'.Ok t' ∧
      Rep m.cap t' (f.insert (Key.mk k) v) := by
  obtain ⟨e, he, hen, hrun⟩ := h.place_run hspot
  have habs := h.place_absent hspot
  obtain ⟨hidx, hpass, hstop⟩ := hspot
  have hlt : idx < m.cap := hidx ▸ Nat.mod_lt _ h.layout.pos
  rw [probes_of_place hscan] at hsmall
  have hpsl : psl ≤ 254 := hsmall psl List.mem_cons_self
  have hshift : ∀ w < e, ∃ c x, t ((idx + w) % m.cap) = some (c, x) ∧ c + 1 < 255 := by
    intro w hw
    obtain ⟨⟨c, x⟩, hc⟩ := Option.ne_none_iff_exists'.mp (hrun w hw)
    have := hsmall (c + 1) (List.mem_cons_of_mem _
      ((h.mem_runFrom e idx _ (by omega) hlt hrun hen).mpr ⟨w, hw, c, x, hc, rfl⟩))
    grind
  obtain ⟨m', t', hopen, ho⟩ := h.openSlot_spec hlt (by omega) hshift hen hroom
  have hhole : t' idx = none := ho.layout.hole hlt
  have hfill : Layout m.cap entryKey (homeIn m.cap) m.cap (update t' idx (some (psl, (k, v)))) := by
    refine ho.layout.fill hlt (by omega) hidx.symm ?_ ?_ ?_
    -- in front of the slot: who passed it there is as far from home
    · rintro i hi hip d rfl
      obtain ⟨c, y, hc, hle, _⟩ := hpass d (by omega)
      have hid : i = (homeIn m.cap (Key.mk k) + d) % m.cap := by
        have hi' : (i + 1) % m.cap = ((homeIn m.cap (Key.mk k) + d) % m.cap + 1) % m.cap := by
          rw [hip, hidx, add_succ_mod]
        have hj : (homeIn m.cap (Key.mk k) + d) % m.cap < m.cap := Nat.mod_lt _ h.layout.pos
        have := succ_mod_cases hi
        have := succ_mod_cases hj
        omega
      rw [ho.away i fun w hw => ?_]
      · grind
      · rw [hid, hidx, Nat.mod_add_mod, Nat.add_assoc]
        intro he'
        have := add_mod_inj (by omega) (by omega) he'
        omega
    -- behind it: the entry that was pushed on was nearer to its home
    · intro d y hy
      rcases Nat.eq_zero_or_pos e with rfl | hpos
      · rw [ho.same rfl] at hy
        rw [Nat.add_zero, Nat.mod_eq_of_lt hlt] at hen
        obtain ⟨c, z, hc, _⟩ := h.layout.order idx d y hlt hlt.ne (h.layout.succ_lt idx).ne hy
        grind
      · obtain ⟨⟨c, x⟩, hc⟩ := Option.ne_none_iff_exists'.mp (hrun 0 hpos)
        rw [Nat.add_zero, Nat.mod_eq_of_lt hlt] at hc
        have := (hstop c x hc).1
        rw [ho.next hpos c x hc] at hy
        cases hy
        omega
    · intro y hy
      exact habs y ((ho.holds y).mp hy)
  refine ⟨m'.place idx psl k v, update t' idx (some (psl, (k, v))), ?_, ho.cap, ?_, ?_⟩
  · rw [insertNoGrow, hscan]
    grind
  · exact
      { sized := by
          have := h.sized
          rwa [Sized, place, ho.cap, ho.shift]
        shows_ := by
          intro i hi _
          by_cases hii : i = idx
          · subst hii
            right
            refine ⟨k, v, ?_⟩
            simp only [place, update_self, u8_eq (show psl < 256 by omega), and_true]
            omega
          · simp only [place, update_of_ne hii]
            exact ho.shows_ i hi hii
        layout := by
          have hcap : (m'.place idx psl k v).cap = m.cap := ho.cap
          grind
        len := by
          change m'.len + 1 = count m'.cap _
          rw [ho.len, ho.cap, count_update_some hlt hhole, ho.count, h.len] }
  · refine hr.insert rfl fun y => ?_
    rw [holds_update_some hlt, update_eq_self_iff.mpr hhole.symm, ho.holds]
    grind

theorem Ok.update_spec (h : m.Ok t) (hr : Rep m.cap t f) {idx : Nat}
    (hspot : Spot.Ok m t k (.update idx)) (v : V) :
    ∃ t', Ok { m with vals := update m.vals idx (some v) } t' ∧
      Rep m.cap t' (f.insert (Key.mk k) v) := by
  obtain ⟨hlt, c, ⟨x, w⟩, hx, hk⟩ := hspot
  obtain ⟨hci, hc, hkx, _⟩ := h.shows_.some hlt hlt.ne hx
  refine ⟨update t idx (some (c, (x, v))), ?_, hr.insert hk fun y => ?_⟩
  · exact
      { sized := h.sized
        shows_ := by
          intro i hi _
          by_cases hii : i = idx
          · grind
          · simp only [update_of_ne hii]
            exact h.shows_ i hi hi.ne
        layout := h.layout.setItem (y := (x, v)) hlt hx rfl
        len := by
          have h₁ := count_update_none hlt hx
          have h₂ := count_update_some (v := (c, (x, v))) hlt (update_self idx none t)
          rw [update_idem] at h₂
          have := h.len
          dsimp only
          omega }
  · rw [holds_update_some hlt, holds_update_none]
    refine or_congr_right ⟨?_, ?_⟩
    · rintro ⟨i, hi, hne, d, hd⟩
      exact ⟨⟨i, hi, d, hd⟩, fun he =>
        hne (h.layout.uniq i idx d c y _ hi hlt hd hx (he.trans hk.symm))⟩
    · rintro ⟨⟨i, hi, d, hd⟩, hne⟩
      grind

theorem Ok.insert_spec (h : m.Ok t) (hr : Rep m.cap t f) (k : K) (v : V)
    (hroom : m.len + 1 < m.cap) (hsmall : ∀ n ∈ m.probes k, n ≤ 254) :
    ∃ m' t', m.insertNoGrow k v (hash k) = some m' ∧ m'.cap = m.cap ∧ m'.Ok t' ∧
      Rep m.cap t' (f.insert (Key.mk k) v) := by
  obtain ⟨spot, hscan, hspot⟩ := h.scan_home k
  cases spot with
  | place idx psl => exact h.place_ok hr hscan hspot hroom hsmall
  | update idx =>
    obtain ⟨t', hok, hrep⟩ := h.update_spec hr hspot v
    refine ⟨{ m with vals := update m.vals idx (some v) }, t', ?_, rfl, hok, hrep⟩
    rw [insertNoGrow, hscan]
    rfl

theorem Ok.probes_le (h : m.Ok t) (hr : Rep m.cap t f) (k : K)
    (hs : Spread m.cap (homeIn m.cap) 254 (insert (Key.mk k) f.keys)) :
    ∀ n ∈ m.probes k, n ≤ 254 := by
  obtain ⟨spot, hscan, hspot⟩ := h.scan_home k
  cases spot with
  | update idx =>
    rw [probes, hscan]
    grind
  | place idx psl =>
    obtain ⟨e, he, hen, hrun⟩ := h.place_run hspot
    have habs := h.place_absent hspot
    obtain ⟨hidx, hpass, hstop⟩ := hspot
    have hlt : idx < m.cap := hidx ▸ Nat.mod_lt _ h.layout.pos
    have hoff : ∀ w, (homeIn m.cap (Key.mk k) + (psl + w)) % m.cap = (idx + w) % m.cap := by
      intro w
      rw [hidx, Nat.mod_add_mod, Nat.add_assoc]
    have hk : Key.mk k ∉ f.keys := by
      intro hmem
      obtain ⟨y, hy, hyk⟩ := (hr.mem_keys _).mp hmem
      exact habs y hy hyk
    obtain ⟨h₁, h₂⟩ := h.layout.insert_dist_le (e := psl + e) (u := psl)
      (fun y hy => (hr.mem_keys _).mpr ⟨y, hy, rfl⟩) hk hs (by omega) (fun w hw => by
        rcases Nat.lt_or_ge w psl with hlt | hge
        · obtain ⟨c, y, hc, _⟩ := hpass w hlt
          grind
        grind [Nat.exists_eq_add_of_le])
      (fun w hw c y hc => by
        obtain ⟨c', y', hc', hle, _⟩ := hpass w hw
        grind)
      fun _ c y hc => (hstop c y (by rw [hidx, hc])).1
    intro n hn
    rw [probes_of_place hscan, List.mem_cons] at hn
    obtain rfl | hn := hn
    · exact h₁
    · obtain ⟨w, hw, c, y, hc, rfl⟩ := (h.mem_runFrom e idx _ (by omega) hlt hrun hen).mp hn
      exact h₂ (psl + w) (by omega) (by omega) c y (by rw [hoff, hc])

/-! Removal. -/

omit [HashEqual K] in
theorem Sized.shiftBack_spec {p c : Nat} {x : K × V} (hm : m.Sized) (hs : m.Shows p t)
    (hp : p < m.cap) (hne : (p + 1) % m.cap ≠ p) (hx : t ((p + 1) % m.cap) = some (c + 1, x)) :
    ∃ m', m.shiftBack p (m.next p) = some m' ∧ m'.cap = m.cap ∧ m'.shift = m.shift ∧
      m'.len = m.len ∧ m'.Shows ((p + 1) % m.cap) (move t ((p + 1) % m.cap) p c x) := by
  rw [hm.next_eq]
  have hj : (p + 1) % m.cap < m.cap := Nat.mod_lt _ (by omega)
  generalize (p + 1) % m.cap = j at *
  obtain ⟨hcj, hc, hk, hv⟩ := hs.some hj hne hx
  have hback : m.shiftBack p j = some { m with
      keys := update (update m.keys j none) p (some x.1)
      vals := update (update m.vals j none) p (some x.2)
      ctrl := update m.ctrl p (u8 (m.ctrl j - 1)) } := by
    rw [shiftBack, hk, hv]
    rfl
  refine ⟨_, hback, rfl, rfl, rfl, fun i hi hij => ?_⟩
  by_cases hip : i = p
  · subst hip
    right
    refine ⟨x.1, x.2, ?_⟩
    simp only [move_target, update_self, hcj, Nat.add_sub_cancel, u8_eq (show c < 256 by omega),
      and_true]
    omega
  · simp only [move_ne hij hip, update_of_ne hip, update_of_ne hij]
    exact hs i hi hip

/-- The table `t'` without a hole that the backward shift makes of `t`. -/
structure Closed (m : Map K V) (t : Table (K × V)) (m' : Map K V) (t' : Table (K × V)) : Prop where
  cap : m'.cap = m.cap
  shift : m'.shift = m.shift
  len : m'.len = m.len
  shows_ : m'.Shows m.cap t'
  layout : Layout m.cap entryKey (homeIn m.cap) m.cap t'
  holds : ∀ y, Holds m.cap t' y ↔ Holds m.cap t y
  count : count m.cap t' = count m.cap t

theorem Sized.backLoop_stop {p : Nat} (hm : m.Sized) (hp : p < m.cap) (hs : m.Shows p t)
    (hl : Layout m.cap entryKey (homeIn m.cap) p t) (hne : (p + 1) % m.cap ≠ p)
    (h0 : ∀ d x, t ((p + 1) % m.cap) = some (d, x) → d = 0) (fuel : Nat) :
    ∃ m' t', backLoop (fuel + 1) p m = some m' ∧ Closed m t m' t' := by
  have hj : (p + 1) % m.cap < m.cap := hl.succ_lt p
  have hstop : backLoop (fuel + 1) p m = some { m with ctrl := update m.ctrl p 255 } := by
    rw [backLoop, hm.next_eq]
    cases hx : t ((p + 1) % m.cap) with
    | none => rw [if_pos ((hs.ctrl_eq_empty hj hne).mpr hx)]
    | some dx =>
      obtain ⟨d, x⟩ := dx
      obtain rfl := h0 d x hx
      rw [(hs.some hj hne hx).1, if_neg (by omega), if_pos rfl]
  refine ⟨_, t, hstop, rfl, rfl, rfl, fun i hi _ => ?_, hl.close hp h0, fun _ => Iff.rfl, rfl⟩
  by_cases hip : i = p
  · subst hip
    exact .inl ⟨update_self _ _ _, hl.hole hp⟩
  · simp only [update_of_ne hip]
    exact hs i hi hip

theorem Sized.backLoop_spec : ∀ (e p fuel : Nat) (m : Map K V) (t : Table (K × V)), e < fuel →
    p < m.cap → m.Sized → m.Shows p t → Layout m.cap entryKey (homeIn m.cap) p t →
    t ((p + 1 + e) % m.cap) = none → (p + 1 + e) % m.cap ≠ p →
    ∃ m' t', backLoop fuel p m = some m' ∧ Closed m t m' t' := by
  intro e
  induction e with
  | zero =>
    intro p fuel m t hf hp hm hs hl hq hqp
    obtain ⟨fuel, rfl⟩ := Nat.exists_eq_add_of_le' (show 1 ≤ fuel by omega)
    refine hm.backLoop_stop hp hs hl hqp (fun d x hx => ?_) fuel
    grind
  | succ e ih =>
    intro p fuel m t hf hp hm hs hl hq hqp
    obtain ⟨fuel, rfl⟩ := Nat.exists_eq_add_of_le' (show 1 ≤ fuel by omega)
    have hne : (p + 1) % m.cap ≠ p := by
      have := hm.pos
      have := succ_mod_cases hp
      omega
    by_cases h0 : ∀ d x, t ((p + 1) % m.cap) = some (d, x) → d = 0
    · exact hm.backLoop_stop hp hs hl hne h0 fuel
    push Not at h0
    obtain ⟨d, x, hx, hd⟩ := h0
    obtain ⟨d, rfl⟩ := Nat.exists_eq_succ_of_ne_zero hd
    have hj : (p + 1) % m.cap < m.cap := hl.succ_lt p
    have hh : t p = none := hl.hole hp
    obtain ⟨hc, hlt, _⟩ := hs.some hj hne hx
    obtain ⟨m₁, h₁, hcap, hshift, hlen, hs₁⟩ := hm.shiftBack_spec hs hp hne hx
    have hl₁ := hl.pullBack hp hx
    have hq₁ : (p + 1 + (e + 1)) % m.cap ≠ (p + 1) % m.cap := by grind
    rw [← hcap] at hl₁
    have hslot : ((p + 1) % m.cap + 1 + e) % m₁.cap = (p + 1 + (e + 1)) % m.cap := by
      rw [hcap, Nat.add_assoc, Nat.mod_add_mod, Nat.add_comm 1 e]
    have hm₁ : m₁.Sized := by rwa [Sized, hcap, hshift]
    obtain ⟨m', t', h', ho⟩ := ih ((p + 1) % m.cap) fuel m₁ (move t ((p + 1) % m.cap) p d x)
      (by omega) (by omega) hm₁ hs₁ (by grind)
      (by rw [hslot, move_ne hq₁ hqp, hq]) (by rw [hslot]; exact hq₁)
    have hholds := ho.holds
    have hcount := ho.count
    have hshows := ho.shows_
    have hlayout := ho.layout
    rw [hcap] at hholds hcount hshows hlayout
    refine ⟨m', t', ?_, ho.cap.trans hcap, ho.shift.trans hshift, ho.len.trans hlen, hshows,
      hlayout, fun y => ?_, ?_⟩
    · rw [backLoop, h₁, hm.next_eq, hc, if_neg hlt.ne, if_neg (Nat.succ_ne_zero d)]
      exact h'
    · rw [hholds, move_holds hj hp hne hx hh]
    · rw [hcount, move_count hj hp hne hx hh]

theorem Ok.remove_spec (h : m.Ok t) (hr : Rep m.cap t f) (k : K) :
    ∃ m' t', m.remove k = some (f.lookup (Key.mk k), m') ∧ m'.cap = m.cap ∧ m'.Ok t' ∧
      Rep m.cap t' (f.erase (Key.mk k)) := by
  obtain ⟨r, hfind, hfound, habs⟩ := h.find_spec k
  cases r with
  | none =>
    have habs := habs rfl
    have hn : f.lookup (Key.mk k) = none := by
      rw [Finmap.lookup_eq_none, ← Finmap.mem_keys, hr.mem_keys]
      grind
    refine ⟨m, t, ?_, rfl, h, hr.erase fun y => ⟨fun hy => ⟨hy, habs y hy⟩, fun hy => hy.1⟩⟩
    rw [remove, hfind, hn]
    rfl
  | some i =>
    obtain ⟨hi, c, ⟨x, v⟩, hx, hk⟩ := hfound i rfl
    obtain ⟨_, _, hkx, hvx⟩ := h.shows_.some hi hi.ne hx
    have hv : f.lookup (Key.mk k) = some v := (hr _ _).mpr ⟨x, hk, i, hi, c, hx⟩
    have hl := h.layout.vacate hi hx
    -- the shift back ends at a free slot, or at an entry that is at home
    obtain ⟨q, hq, hqi, hqn⟩ := hl.free
    obtain ⟨e, he, hqe⟩ : ∃ e < m.cap, (i + 1 + e) % m.cap = q := by
      rcases Nat.lt_or_ge i q with hlt | hge
      · exact ⟨q - (i + 1), by omega, by rw [Nat.add_sub_cancel' hlt, Nat.mod_eq_of_lt hq]⟩
      · exact ⟨q + m.cap - (i + 1), by omega, by
          rw [Nat.add_sub_cancel' (by omega), Nat.add_mod_right, Nat.mod_eq_of_lt hq]⟩
    obtain ⟨m', t', hloop, ho⟩ :=
      Sized.backLoop_spec e i (256 * m.cap + 1)
        { m with keys := update m.keys i none, vals := update m.vals i none } (update t i none)
        (by omega) hi h.sized (fun j hj hji => by
          simp only [update_of_ne hji]
          exact h.shows_ j hj hj.ne) hl (by rw [hqe]; exact hqn) (by rw [hqe]; exact hqi)
    have hcap : m'.cap = m.cap := ho.cap
    have hshift : m'.shift = m.shift := ho.shift
    have hlen : m'.len = m.len := ho.len
    have hcount : count m.cap t' = count m.cap (update t i none) := ho.count
    have hholds : ∀ y, Holds m.cap t' y ↔ Holds m.cap (update t i none) y := ho.holds
    refine ⟨{ m' with len := m'.len - 1 }, t', ?_, hcap, ?_, hr.erase fun y => ?_⟩
    · rw [remove, hfind, hv]
      grind
    · exact
        { sized := by
            have := h.sized
            rwa [Sized, hcap, hshift]
          shows_ := by
            have := ho.shows_
            rwa [← hcap] at this
          layout := by
            have := ho.layout
            rwa [← hcap] at this
          len := by
            have := count_update_none hi hx
            have := h.len
            grind }
    · rw [hholds, holds_update_none]
      constructor
      · rintro ⟨j, hj, hji, d, hd⟩
        exact ⟨⟨j, hj, d, hd⟩, fun he =>
          hji (h.layout.uniq j i d c y _ hj hi hd hx (he.trans hk.symm))⟩
      · rintro ⟨⟨j, hj, d, hd⟩, hne⟩
        grind

end Map

end LsLang.Core
