import LsLang.Core.MapOps

/-! The remaining methods of the map: lookups, `upsert`, `get_or_insert`, `merge`,
`clear`, `clone` and the iterations. -/

namespace LsLang.Core

open Function Cyclic RobinHood
open HashEqual (hash equal)

variable {K V : Type} [HashEqual K]

namespace Map

variable {m other : Map K V} {t : Table (K × V)} {f g : KeyMap K V}

/-! Lookups. -/

theorem Is.find_spec (h : m.Is f) (k : K) :
    ∃ r, m.find k (hash k) = some r ∧ (r = none → f.lookup (Key.mk k) = none) ∧
      ∀ idx, r = some idx → ∃ u, m.vals idx = some u ∧ f.lookup (Key.mk k) = some u ∧
        ∀ w, Is { m with vals := update m.vals idx (some w) } (f.insert (Key.mk k) w) := by
  obtain ⟨h0, _, rfl⟩ | ⟨t, ht, hr⟩ := h
  · exact ⟨none, by rw [find, if_pos h0], fun _ => Finmap.lookup_empty _, fun _ h => by cases h⟩
  · obtain ⟨r, hfind, hfound, habs⟩ := ht.find_spec k
    refine ⟨r, hfind, fun hn => ?_, fun idx hidx => ?_⟩
    · rw [Finmap.lookup_eq_none, ← Finmap.mem_keys, hr.mem_keys]
      grind
    · obtain ⟨hlt, c, ⟨x, u⟩, hx, hk⟩ := hfound idx hidx
      refine ⟨u, (ht.shows_.some hlt hlt.ne hx).2.2.2, (hr _ _).mpr ⟨x, hk, idx, hlt, c, hx⟩,
        fun w => ?_⟩
      obtain ⟨t', hok, hrep⟩ := ht.update_spec hr (hfound idx hidx) w
      exact .inr ⟨t', hok, hrep⟩

theorem Is.get_spec (h : m.Is f) (k : K) : m.get k = some (f.lookup (Key.mk k)) := by
  obtain ⟨r, hfind, hn, hs⟩ := h.find_spec k
  rw [get, hfind]
  grind

theorem Is.has_spec (h : m.Is f) (k : K) : m.has k = some (f.lookup (Key.mk k)).isSome := by
  obtain ⟨r, hfind, hn, hs⟩ := h.find_spec k
  rw [has, hfind]
  cases r with
  | none => rw [hn rfl]; rfl
  | some idx =>
    grind

theorem Is.getOr_spec (h : m.Is f) (k : K) (d : V) :
    m.getOr k d = some ((f.lookup (Key.mk k)).getD d) := by
  obtain ⟨r, hfind, hn, hs⟩ := h.find_spec k
  rw [getOr, hfind]
  grind

theorem Is.remove_spec (h : m.Is f) (k : K) :
    ∃ m', m.remove k = some (f.lookup (Key.mk k), m') ∧ m'.cap = m.cap ∧
      m'.Is (f.erase (Key.mk k)) := by
  obtain ⟨h0, hl, rfl⟩ | ⟨t, ht, hr⟩ := h
  · refine ⟨m, ?_, rfl, .inl ⟨h0, hl, ?_⟩⟩
    · rw [remove, find, if_pos h0, Finmap.lookup_empty]
      rfl
    · apply Finmap.ext_lookup
      grind [Finmap.notMem_empty, Finmap.lookup_empty, Finmap.lookup_eq_none, Finmap.mem_erase]
  · obtain ⟨m', t', hm', hcap, hok, hrep⟩ := ht.remove_spec hr k
    exact ⟨m', hm', hcap, .inr ⟨t', hok, hcap ▸ hrep⟩⟩

/-! `upsert` and `get_or_insert` insert an absent key the way `set` does. -/

/-- The values `upsert` and `get_or_insert` cast to a byte. -/
def upsertProbes (m : Map K V) (k : K) : List Nat :=
  match m.find k (hash k) with
  | some none => m.setProbes k
  | _ => []

theorem Is.upsert_spec (h : m.Is f) (k : K) (d : V) (u : V → V)
    (hn : (f.insert (Key.mk k) d).keys.card ≤ 2 ^ 27)
    (hsmall : ∀ n ∈ m.upsertProbes k, n ≤ 254) :
    ∃ m', m.upsert k d u = some m' ∧
      m'.Is (f.insert (Key.mk k) ((f.lookup (Key.mk k)).elim d u)) := by
  obtain ⟨r, hfind, hnone, hs⟩ := h.find_spec k
  rw [upsertProbes, hfind] at hsmall
  cases r with
  | none =>
    have hk : Key.mk k ∉ f.keys := by
      rw [Finmap.mem_keys, ← Finmap.lookup_eq_none, hnone rfl]
    rw [keys_insert, Finset.card_insert_of_notMem hk] at hn
    obtain ⟨m', hm', _, his⟩ := h.set_spec k d (by omega) hsmall
    refine ⟨m', ?_, by rw [hnone rfl]; exact his⟩
    rw [upsert, hfind]
    exact hm'
  | some idx =>
    obtain ⟨w, hw, hl, hupd⟩ := hs idx rfl
    refine ⟨_, ?_, by rw [hl]; exact hupd (u w)⟩
    rw [upsert, hfind]
    grind

theorem Is.getOrInsert_spec (h : m.Is f) (k : K) (d : V)
    (hn : (f.insert (Key.mk k) d).keys.card ≤ 2 ^ 27)
    (hsmall : ∀ n ∈ m.upsertProbes k, n ≤ 254) :
    ∃ m', m.getOrInsert k d = some ((f.lookup (Key.mk k)).getD d, m') ∧
      m'.Is (if (f.lookup (Key.mk k)).isSome then f else f.insert (Key.mk k) d) := by
  obtain ⟨r, hfind, hnone, hs⟩ := h.find_spec k
  rw [upsertProbes, hfind] at hsmall
  cases r with
  | none =>
    have hk : Key.mk k ∉ f.keys := by
      rw [Finmap.mem_keys, ← Finmap.lookup_eq_none, hnone rfl]
    rw [keys_insert, Finset.card_insert_of_notMem hk] at hn
    obtain ⟨m', hm', _, his⟩ := h.set_spec k d (by omega) hsmall
    refine ⟨m', ?_, by rw [hnone rfl]; exact his⟩
    rw [getOrInsert, hfind, hnone rfl]
    grind
  | some idx =>
    obtain ⟨w, hw, hl, _⟩ := hs idx rfl
    refine ⟨m, ?_, by rw [hl]; exact h⟩
    rw [getOrInsert, hfind, hl]
    grind

theorem Is.upsertProbes_le (h : m.Is f) (k : K) (hn : f.keys.card < 2 ^ 27)
    (hs : f.lookup (Key.mk k) = none →
      Spread (grownCap m.cap f.keys.card) (homeIn (grownCap m.cap f.keys.card)) 254
        (insert (Key.mk k) f.keys)) :
    ∀ n ∈ m.upsertProbes k, n ≤ 254 := by
  obtain ⟨r, hfind, hnone, _⟩ := h.find_spec k
  rw [upsertProbes, hfind]
  cases r with
  | none => exact h.setProbes_le k hn (hs (hnone rfl))
  | some idx => grind

/-! `merge` sets every entry of the other map. -/

/-- The values cast to a byte while the entries `es` are set one after the other. -/
def setAllProbes : List (K × V) → Map K V → List Nat
  | [], _ => []
  | e :: es, m => m.setProbes e.1 ++
    match m.set e.1 e.2 with
    | some m' => setAllProbes es m'
    | none => []

def mergeProbes (m other : Map K V) : List Nat :=
  setAllProbes (other.entries (List.range other.cap)) m

def Spreads : Nat → Finset (Key K) → List (Key K) → Prop
  | _, _, [] => True
  | cap, S, q :: qs =>
    Spread (grownCap cap S.card) (homeIn (grownCap cap S.card)) 254 (insert q S) ∧
      Spreads (grownCap cap S.card) (insert q S) qs

theorem subset_insertAll (es : List (K × V)) (f : KeyMap K V) :
    f.keys ⊆ (insertAll es f).keys := by
  rw [keys_insertAll]
  grind

theorem card_lt_of_insertAll {e : K × V} {es : List (K × V)}
    (hn : (insertAll (e :: es) f).keys.card < 2 ^ 27) :
    f.keys.card < 2 ^ 27 ∧ (insertAll es (f.insert (entryKey e) e.2)).keys.card < 2 ^ 27 :=
  ⟨(Finset.card_le_card (subset_insertAll _ f)).trans_lt hn, hn⟩

theorem Is.setAll_spec {es : List (K × V)} (h : m.Is f)
    (hn : (insertAll es f).keys.card < 2 ^ 27) (hsmall : ∀ n ∈ setAllProbes es m, n ≤ 254) :
    ∃ m', es.foldlM (fun m e => m.set e.1 e.2) m = some m' ∧ m'.Is (insertAll es f) := by
  induction es generalizing m f with
  | nil => exact ⟨m, rfl, h⟩
  | cons e es ih =>
    obtain ⟨hf, hn⟩ := card_lt_of_insertAll hn
    obtain ⟨m₁, h₁, _, his⟩ := h.set_spec e.1 e.2 hf fun n hn =>
      hsmall n (List.mem_append_left _ hn)
    rw [setAllProbes, h₁] at hsmall
    obtain ⟨m', h', his'⟩ := ih his hn fun n hn => hsmall n (List.mem_append_right _ hn)
    refine ⟨m', ?_, his'⟩
    grind

theorem Is.setAllProbes_le {es : List (K × V)} (h : m.Is f)
    (hn : (insertAll es f).keys.card < 2 ^ 27)
    (hs : Spreads m.cap f.keys (es.map entryKey)) : ∀ n ∈ setAllProbes es m, n ≤ 254 := by
  induction es generalizing m f with
  | nil => exact fun n hn => absurd hn List.not_mem_nil
  | cons e es ih =>
    obtain ⟨hf, hn⟩ := card_lt_of_insertAll hn
    obtain ⟨hs₁, hs⟩ := hs
    have hsmall := h.setProbes_le e.1 hf hs₁
    obtain ⟨m₁, h₁, hcap, his⟩ := h.set_spec e.1 e.2 hf hsmall
    rw [← hcap] at hs
    intro n hmem
    rw [setAllProbes, h₁, List.mem_append] at hmem
    obtain hmem | hmem := hmem
    · exact hsmall n hmem
    · exact ih his hn (by rw [keys_insert]; exact hs) n hmem

theorem Is.merge_fits (h : other.Is g) (m : Map K V) (f : KeyMap K V) :
    m.merge other = (other.entries (List.range other.cap)).foldlM (fun m e => m.set e.1 e.2) m ∧
      insertAll (other.entries (List.range other.cap)) f = g ∪ f := by
  obtain ⟨h0, _, rfl⟩ | ⟨t, ht, hr⟩ := h
  · rw [merge, h0, Finmap.empty_union]
    exact ⟨rfl, rfl⟩
  · exact ⟨ht.mergeLoop_eq (fun i hi => List.mem_range.mp hi) m, ht.insertAll_entries hr f⟩

theorem Is.merge_spec (h : m.Is f) (ho : other.Is g) (hn : (g ∪ f).keys.card < 2 ^ 27)
    (hsmall : ∀ n ∈ m.mergeProbes other, n ≤ 254) :
    ∃ m', m.merge other = some m' ∧ m'.Is (g ∪ f) := by
  obtain ⟨hmerge, hall⟩ := ho.merge_fits m f
  rw [hmerge, ← hall]
  exact h.setAll_spec (hall ▸ hn) hsmall

theorem Is.mergeProbes_le (h : m.Is f) (ho : other.Is g) (hn : (g ∪ f).keys.card < 2 ^ 27)
    (hs : Spreads m.cap f.keys ((other.entries (List.range other.cap)).map entryKey)) :
    ∀ n ∈ m.mergeProbes other, n ≤ 254 :=
  h.setAllProbes_le ((ho.merge_fits m f).2 ▸ hn) hs

/-! `clear` and `clone`. -/

theorem Is.clear_spec (h : m.Is f) : m.clear.Is ∅ := by
  obtain ⟨h0, _, _⟩ | ⟨t, ht, _⟩ := h
  · exact .inl ⟨h0, rfl, rfl⟩
  · refine .inr ⟨fun _ => none, ?_, fun q u => ?_⟩
    · have hpos := ht.sized.pos
      exact
        { sized := ht.sized
          shows_ := by
            intro i hi _
            refine .inl ⟨?_, rfl⟩
            simp only [clear]
            split_ifs with hl
            · rfl
            · exact not_not.mp fun hc => hl ⟨hi, hc⟩
          layout :=
            { home_lt := ht.sized.homeIn_lt
              hole := fun _ => rfl
              dist := fun i d x _ h => by cases h
              order := fun i d x _ _ _ h => by cases h
              gap := fun i d x _ _ h => by cases h
              free := ht.layout.free.imp fun q hq => ⟨hq.1, hq.2.1, rfl⟩
              uniq := fun i j d e x y _ _ h => by cases h }
          len := by simp [clear, count] }
    · rw [Finmap.lookup_empty]
      constructor
      · intro h
        cases h
      · rintro ⟨x, _, i, _, d, h⟩
        cases h

theorem Is.clone_spec (h : m.Is f) : m.clone.Is f ∧ m.clone.cap = m.cap := by
  obtain ⟨h0, _, rfl⟩ | ⟨t, ht, hr⟩ := h
  · rw [clone, if_pos h0, h0]
    exact ⟨empty_is, rfl⟩
  · have hpos := ht.sized.pos
    rw [clone, if_neg (by omega)]
    refine ⟨.inr ⟨t, ⟨ht.sized, fun i hi hic => ?_, ht.layout, ht.len⟩, hr⟩, rfl⟩
    have hi' : i < m.cap := hi
    simp only [live, hi', true_and, if_true]
    obtain ⟨hc, hn⟩ | ⟨k, v, hc, hk, hv, hs⟩ := ht.shows_ i hi' hi'.ne
    · exact .inl ⟨by rw [hc]; rfl, hn⟩
    · rw [u8_eq (show m.ctrl i < 256 by omega)]
      grind

/-! The iterations. -/

omit [HashEqual K] in
/-- The iterator of `m` at cursor `i`. -/
def iterAt (m : Map K V) (i : Nat) : MapIter K V := ⟨m.ctrl, m.keys, m.vals, m.cap, i⟩

omit [HashEqual K] in
theorem nextLoop_iterAt (m : Map K V) (fuel i : Nat) :
    MapIter.nextLoop (fuel + 1) (m.iterAt i) =
      if i < m.cap then
        if m.ctrl i ≠ 255 then do
          let k ← m.keys i
          let v ← m.vals i
          some (some (k, v), m.iterAt (i + 1))
        else MapIter.nextLoop fuel (m.iterAt (i + 1))
      else some (none, m.iterAt i) := rfl

theorem Ok.nextLoop_spec (h : m.Ok t) : ∀ n i fuel, i + n = m.cap → n < fuel →
    m.entries (List.range' i n) = [] ∧
      MapIter.nextLoop fuel (m.iterAt i) = some (none, m.iterAt m.cap) ∨
    ∃ e j, i < j ∧ j ≤ m.cap ∧
      m.entries (List.range' i n) = e :: m.entries (List.range' j (m.cap - j)) ∧
      MapIter.nextLoop fuel (m.iterAt i) = some (some e, m.iterAt j) := by
  intro n
  induction n with
  | zero =>
    intro i fuel hi hf
    obtain ⟨fuel, rfl⟩ := Nat.exists_eq_add_of_le' (show 1 ≤ fuel by omega)
    obtain rfl : i = m.cap := by omega
    refine .inl ⟨rfl, ?_⟩
    rw [nextLoop_iterAt, if_neg (lt_irrefl m.cap)]
  | succ n ih =>
    intro i fuel hi hf
    obtain ⟨fuel, rfl⟩ := Nat.exists_eq_add_of_le' (show 1 ≤ fuel by omega)
    have hlt : i < m.cap := by omega
    rw [List.range'_succ, nextLoop_iterAt, if_pos hlt]
    obtain ⟨hc, _, he⟩ | ⟨k, v, hc, hk, hv, _, he⟩ := h.entry_cases hlt (List.range' (i + 1) n)
    · grind
    grind

theorem Ok.forEach_spec (h : m.Ok t) (n : Nat) : ∀ i fuel, i + n = m.cap → n < fuel →
    MapIter.forEach fuel (m.iterAt i) = some (m.entries (List.range' i n)) := by
  induction n using Nat.strong_induction_on with
  | _ n ih =>
    intro i fuel hi hf
    obtain ⟨fuel, rfl⟩ := Nat.exists_eq_add_of_le' (show 1 ≤ fuel by omega)
    have hcap : (m.iterAt i).cap - (m.iterAt i).i + 1 = n + 1 := by
      change m.cap - i + 1 = n + 1
      omega
    rw [MapIter.forEach, MapIter.next, hcap]
    obtain ⟨he, hnext⟩ | ⟨e, j, hij, hj, he, hnext⟩ := h.nextLoop_spec n i (n + 1) hi (by omega)
    · rw [hnext, he]
      rfl
    grind

/-- The four iterations all run through the entries `es`. -/
structure Yields (m : Map K V) (es : List (K × V)) : Prop where
  iter : ∀ fuel, m.cap < fuel → MapIter.forEach fuel m.iter = some es
  keys : m.keyList = some (es.map Prod.fst)
  values : m.values = some (es.map Prod.snd)
  each : ∀ {σ : Type} (g : σ → K → V → σ) s, m.each g s = some (es.foldl (fun s e => g s e.1 e.2) s)

theorem Ok.yields (h : m.Ok t) : m.Yields (m.entries (List.range m.cap)) where
  iter fuel hf := by
    have := h.forEach_spec m.cap 0 fuel (by omega) hf
    rwa [← List.range_eq_range'] at this
  keys := h.collectLoop_eq (fun i hi => List.mem_range.mp hi) m.keys Prod.fst
    (fun _ _ _ hk _ => hk) []
  values := h.collectLoop_eq (fun i hi => List.mem_range.mp hi) m.vals Prod.snd
    (fun _ _ _ _ hv => hv) []
  each g s := h.eachLoop_eq (fun i hi => List.mem_range.mp hi) g s

omit [HashEqual K] in
theorem yields_nil (h0 : m.cap = 0) : m.Yields [] where
  iter fuel hf := by
    obtain ⟨fuel, rfl⟩ := Nat.exists_eq_add_of_le' (show 1 ≤ fuel by omega)
    have hi : ¬ m.iter.i < m.iter.cap := by
      change ¬ 0 < m.cap
      omega
    rw [MapIter.forEach, MapIter.next, MapIter.nextLoop, if_neg hi]
    rfl
  keys := by rw [keyList, h0]; rfl
  values := by rw [Map.values, h0]; rfl
  each g s := by rw [Map.each, h0]; rfl

theorem Is.yields (h : m.Is f) :
    ∃ es, m.Yields es ∧ (es.map entryKey).Nodup ∧ insertAll es ∅ = f ∧
      ∀ e, e ∈ es ↔ ∃ i, m.live i ∧ m.keys i = some e.1 ∧ m.vals i = some e.2 := by
  obtain ⟨h0, _, rfl⟩ | ⟨t, ht, hr⟩ := h
  · refine ⟨[], yields_nil h0, List.nodup_nil, rfl, fun e => ?_⟩
    simp [live, h0]
  · have hrange : ∀ i ∈ List.range m.cap, i < m.cap := fun i hi => List.mem_range.mp hi
    refine ⟨_, ht.yields, ht.nodup_entries hrange List.nodup_range, ?_, fun e => ?_⟩
    · rw [ht.insertAll_entries hr, Finmap.union_empty]
    · rw [ht.mem_entries hrange]
      constructor
      · rintro ⟨i, hi, d, hd⟩
        have hi := hrange i hi
        obtain ⟨hc, hlt, hk, hv⟩ := ht.shows_.some hi hi.ne hd
        exact ⟨i, ⟨hi, by omega⟩, hk, hv⟩
      · rintro ⟨i, ⟨hi, hc⟩, hk, hv⟩
        obtain ⟨hc', _⟩ | ⟨k, v, _, hk', hv', hs⟩ := ht.shows_ i hi hi.ne
        · exact absurd hc' hc
        grind

/-! What the arrays of a map look like from outside. -/

/-- The Robin Hood order of the arrays. -/
structure RobinHood (m : Map K V) : Prop where
  cap : m.cap = 0 ∨ ∃ b, 3 ≤ b ∧ m.cap = 2 ^ b ∧ m.shift = 64 - b
  free : m.cap ≠ 0 → ∃ i < m.cap, m.ctrl i = 255
  dist : ∀ i, m.live i → ∃ k v, m.keys i = some k ∧ m.vals i = some v ∧
    m.ctrl i = (i + m.cap - m.home (hash k)) % m.cap
  order : ∀ i, m.live i → m.ctrl ((i + 1) % m.cap) ≠ 255 →
    m.ctrl ((i + 1) % m.cap) ≤ m.ctrl i + 1
  behind : ∀ i < m.cap, m.ctrl i = 255 → m.ctrl ((i + 1) % m.cap) ≠ 255 →
    m.ctrl ((i + 1) % m.cap) = 0
  unequal : ∀ i j a b, m.live i → m.live j → m.keys i = some a → m.keys j = some b →
    equal a b = true → i = j

theorem Ok.robinHood (h : m.Ok t) : m.RobinHood := by
  have hpos := h.sized.pos
  have hlive : ∀ i, m.live i → ∃ k v, m.ctrl i < 255 ∧ m.keys i = some k ∧ m.vals i = some v ∧
      t i = some (m.ctrl i, (k, v)) := by
    rintro i ⟨hi, hc⟩
    exact (h.shows_ i hi hi.ne).resolve_left fun hn => hc hn.1
  -- a neighbour that is not at home makes the slot before it live
  have hstep : ∀ i d, i < m.cap → m.ctrl ((i + 1) % m.cap) = d + 1 → d + 1 ≠ 255 →
      m.live i ∧ d ≤ m.ctrl i := by
    intro i d hi hd hne
    have hj := h.layout.succ_lt i
    obtain ⟨k, v, _, _, _, hs⟩ := hlive _ ⟨hj, by rw [hd]; exact hne⟩
    rw [hd] at hs
    obtain ⟨c, y, hc, hle⟩ := h.layout.order i d _ hi hi.ne hj.ne hs
    obtain ⟨hci, hlt, _⟩ := h.shows_.some hi hi.ne hc
    exact ⟨⟨hi, by omega⟩, by omega⟩
  exact
    { cap := by
        obtain ⟨b, hb, _, hc, hs⟩ := h.sized
        grind
      free := by
        intro _
        obtain ⟨q, hq, _, hn⟩ := h.layout.free
        exact ⟨q, hq, (h.shows_.ctrl_eq_empty hq hq.ne).mpr hn⟩
      dist := by
        intro i hi
        obtain ⟨k, v, _, hk, hv, hs⟩ := hlive i hi
        refine ⟨k, v, hk, hv, ?_⟩
        obtain ⟨hd, hat⟩ := h.layout.dist i _ _ hi.1 hs
        have hh := h.sized.homeIn_lt (entryKey (k, v))
        rw [h.sized.home_eq]
        change m.ctrl i = (i + m.cap - homeIn m.cap (entryKey (k, v))) % m.cap
        exact eq_sub_mod hh hd hat
      order := by
        rintro i ⟨hi, _⟩ hne
        rcases Nat.eq_zero_or_pos (m.ctrl ((i + 1) % m.cap)) with h0 | hp
        · omega
        · obtain ⟨d, hd⟩ := Nat.exists_eq_add_of_le' hp
          have := (hstep i d hi hd (by omega)).2
          omega
      behind := by
        intro i hi hc hne
        by_contra h0
        obtain ⟨d, hd⟩ := Nat.exists_eq_succ_of_ne_zero h0
        exact (hstep i d hi hd (by omega)).1.2 hc
      unequal := by
        intro i j a b hi hj ha hb he
        obtain ⟨a', v, _, ha', _, hs⟩ := hlive i hi
        obtain ⟨b', w, _, hb', _, hs'⟩ := hlive j hj
        rw [ha] at ha'
        rw [hb] at hb'
        cases ha'
        cases hb'
        exact h.layout.uniq i j _ _ _ _ hi.1 hj.1 hs hs' (Key.mk_eq.mpr he) }

theorem Is.robinHood (h : m.Is f) : m.RobinHood := by
  obtain ⟨h0, _, _⟩ | ⟨t, ht, _⟩ := h
  · have hlive : ∀ i, ¬ m.live i := fun i hi => by
      have := hi.1
      omega
    exact
      { cap := .inl h0
        free := fun hc => absurd h0 hc
        dist := fun i hi => absurd hi (hlive i)
        order := fun i hi => absurd hi (hlive i)
        behind := fun i hi => by omega
        unequal := fun i j a b hi => absurd hi (hlive i) }
  · exact ht.robinHood

end Map

end LsLang.Core

/-! Keys with the hash 0. They all have the home slot 0. -/

namespace LsLang.Core

open Function Cyclic RobinHood
open HashEqual (hash equal)

variable {K V : Type} [HashEqual K]

theorem spread_of_card {n : Nat} {home : Key K → Nat} {S : Finset (Key K)} (h : S.card ≤ 255) :
    Spread n home 254 S := by
  intro a L hL _ L' hL' _
  have := Finset.card_le_card hL'
  omega

theorem homeIn_zero {k : K} (h : hash k = 0) (cap : Nat) : homeIn cap (Key.mk k) = 0 := by
  have h0 : ((0 : UInt64) * 11400714819323198485) >>> UInt64.ofNat (64 - Nat.log2 cap) = 0 := by
    rw [UInt64.zero_mul, UInt64.zero_shiftRight]
  change Map.scatter _ (hash k) = 0
  rw [Map.scatter, h, h0, UInt64.toNat_zero, Nat.cast_zero, i32_eq (by omega) (by omega)]
  rfl

namespace Map

variable {m : Map K V} {t : Table (K × V)} {f : KeyMap K V}

def Zero (m : Map K V) (t : Table (K × V)) : Prop :=
  ∀ i < m.cap, ∀ d x, t i = some (d, x) → hash x.1 = 0

theorem dist_eq_slot (h : m.Ok t) (h0 : m.Zero t) {i d : Nat} {x : K × V} (hi : i < m.cap)
    (hx : t i = some (d, x)) : d = i := by
  obtain ⟨hd, hat⟩ := h.layout.dist i d x hi hx
  rwa [show homeIn m.cap (entryKey x) = 0 from homeIn_zero (h0 i hi d x hx) _, Nat.zero_add,
    Nat.mod_eq_of_lt hd] at hat

theorem taken_iff (h : m.Ok t) (h0 : m.Zero t) {n : Nat} (hn : m.len = n) (hlt : n < m.cap) {i : Nat}
    (hi : i < m.cap) : t i ≠ none ↔ i < n := by
  have hcount : ((Finset.range m.cap).filter fun i => (t i).isSome).card = n := h.len.symm.trans hn
  have hdown : ∀ j < m.cap, t j ≠ none → ∀ u ≤ j, t u ≠ none := by
    intro j hj hjt u hu
    obtain ⟨⟨d, x⟩, hx⟩ := Option.ne_none_iff_exists'.mp hjt
    obtain rfl := dist_eq_slot h h0 hj hx
    obtain ⟨c, y, hc, _⟩ := h.layout.back hj hx u hu
    rw [show homeIn m.cap (entryKey x) = 0 from homeIn_zero (h0 _ hj _ x hx) _, Nat.zero_add,
      Nat.mod_eq_of_lt (by omega)] at hc
    grind
  constructor
  · intro ht
    by_contra hge
    have hsub : Finset.range (n + 1) ⊆ (Finset.range m.cap).filter fun i => (t i).isSome := by
      grind [Finset.mem_filter, Finset.mem_range, Option.isSome_iff_ne_none]
    have := Finset.card_le_card hsub
    grind
  · intro hin ht
    have hsub : (Finset.range m.cap).filter (fun i => (t i).isSome) ⊆ Finset.range i := by
      intro j hj
      simp only [Finset.mem_filter, Finset.mem_range, Option.isSome_iff_ne_none] at hj
      rw [Finset.mem_range]
      grind
    have := Finset.card_le_card hsub
    grind

/-- A table of 512 slots with 255 keys of the hash 0, and one more such key. -/
structure Full (m : Map K V) (f : KeyMap K V) (k : K) : Prop where
  cap : m.cap = 512
  card : f.keys.card = 255
  zero : ∀ x, Key.mk x ∈ f → hash x = 0
  key : hash k = 0
  new : Key.mk k ∉ f

theorem Full.zero_table {k : K} (hf : m.Full f k) (hr : Rep m.cap t f) : m.Zero t := by
  intro i hi d x hx
  refine hf.zero x.1 ?_
  rw [← Finmap.mem_keys, hr.mem_keys]
  exact ⟨x, ⟨i, hi, d, hx⟩, rfl⟩

theorem Full.scan {k : K} (hf : m.Full f k) (h : m.Ok t) (hr : Rep m.cap t f) :
    t 255 = none ∧ m.scan k 256 (m.home (hash k)) 0 = some (.place 255 255) := by
  have hcap := hf.cap
  have h0 := hf.zero_table hr
  have hlen : m.len = 255 := by rw [h.len_eq hr, hf.card]
  have htaken : ∀ i < 512, (t i ≠ none ↔ i < 255) := fun i hi =>
    taken_iff h h0 hlen (by omega) (by omega)
  have hnone : t 255 = none := by grind
  refine ⟨hnone, ?_⟩
  obtain ⟨spot, hscan, hspot⟩ := h.scan_home k
  rw [hscan]
  cases spot with
  | update idx =>
    obtain ⟨hlt, c, y, hx, hk⟩ := hspot
    refine absurd (Finmap.mem_iff.mpr ⟨y.2, ?_⟩) hf.new
    exact (hr (Key.mk k) y.2).mpr ⟨y.1, hk, idx, hlt, c, hx⟩
  | place idx psl =>
    obtain ⟨hidx, hpass, hstop⟩ := hspot
    rw [homeIn_zero hf.key, Nat.zero_add, hcap] at hidx
    have hle : psl ≤ 255 := by
      by_contra hgt
      obtain ⟨c, y, hc, _⟩ := hpass 255 (by omega)
      rw [homeIn_zero hf.key, Nat.zero_add, hcap] at hc
      grind
    rw [Nat.mod_eq_of_lt (by omega)] at hidx
    subst hidx
    have hge : 255 ≤ idx := by
      by_contra hlt
      obtain ⟨⟨c, y⟩, hc⟩ := Option.ne_none_iff_exists'.mp
        ((htaken idx (by omega)).mpr (by omega))
      have := (hstop c y hc).1
      have := dist_eq_slot h h0 (by omega) hc
      omega
    grind

theorem findLoop_len (m : Map K V) (l : Nat) (k : K) : ∀ fuel idx psl,
    findLoop { m with len := l } k fuel idx psl = m.findLoop k fuel idx psl := by
  intro fuel
  induction fuel with
  | zero => exact fun _ _ => rfl
  | succ fuel ih =>
    intro idx psl
    rw [findLoop, findLoop]
    simp only [ih]
    rfl

theorem get_len (m : Map K V) (l : Nat) (k : K) : get { m with len := l } k = m.get k := by
  rw [get, get, find, find, findLoop_len]
  rfl

theorem Full.set_lost {k : K} (hf : m.Full f k) (his : m.Is f) (v : V) :
    ∃ m', m.set k v = some m' ∧ m'.get k = some none := by
  have hcap := hf.cap
  have hcard := hf.card
  have hgrow : ¬ m.needsGrow = true := by
    rw [his.needsGrow_iff (by omega), hcard, hcap]
    omega
  obtain ⟨h0, _⟩ | ⟨t, h, hr⟩ := his
  · omega
  obtain ⟨hnone, hscan⟩ := hf.scan h hr
  have hempty : m.ctrl 255 = 255 := (h.shows_.ctrl_eq_empty (by omega) (by omega)).mpr hnone
  have hopen : m.openSlot 255 = some m := by
    rw [openSlot, if_neg (not_not.mpr hempty)]
  refine ⟨m.place 255 255 k v, ?_, ?_⟩
  · rw [set, reserve, if_neg hgrow]
    simp only [Option.bind_eq_bind, Option.bind_some]
    rw [insertNoGrow, hscan]
    grind
  · -- but for its length, the new table still shows the old entries
    have hok : Ok { m.place 255 255 k v with len := m.len } t :=
      { sized := h.sized
        shows_ := by
          intro i hi _
          by_cases hii : i = 255
          · subst hii
            refine .inl ⟨?_, hnone⟩
            simp only [place, update_self]
            rfl
          · simp only [place, update_of_ne hii]
            exact h.shows_ i hi (Nat.ne_of_lt hi)
        layout := h.layout
        len := h.len }
    have his' : Is { m.place 255 255 k v with len := m.len } f := .inr ⟨t, hok, hr⟩
    rw [← get_len _ m.len, his'.get_spec, Finmap.lookup_eq_none.mpr hf.new]

end Map

end LsLang.Core
