import LsLang.Core.MapInsert
import Mathlib.Data.List.Nodup

/-! The methods of the map against a finite map of the keys. -/

namespace LsLang.Core

open Function Cyclic RobinHood
open HashEqual (hash equal)

variable {K V : Type} [HashEqual K]

/-- Insert the entries in order. -/
def insertAll (es : List (K × V)) (f : KeyMap K V) : KeyMap K V :=
  es.foldl (fun f e => f.insert (entryKey e) e.2) f

theorem keys_insert (f : KeyMap K V) (q : Key K) (v : V) :
    (f.insert q v).keys = insert q f.keys := by
  ext q'
  rw [Finmap.mem_keys, Finmap.mem_insert, Finset.mem_insert, Finmap.mem_keys]

theorem lookup_insertAll {es : List (K × V)} (hd : (es.map entryKey).Nodup) (f : KeyMap K V)
    (q : Key K) (u : V) : (insertAll es f).lookup q = some u ↔
      (∃ x, Key.mk x = q ∧ (x, u) ∈ es) ∨ (∀ e ∈ es, entryKey e ≠ q) ∧ f.lookup q = some u := by
  induction es generalizing f with
  | nil => simp [insertAll]
  | cons e es ih =>
    obtain ⟨hne, hd⟩ := List.nodup_cons.mp hd
    rw [insertAll, List.foldl_cons, ← insertAll, ih hd]
    by_cases hq : entryKey e = q
    · subst hq
      rw [Finmap.lookup_insert]
      have hes : ∀ e' ∈ es, entryKey e' ≠ entryKey e := fun e' he' h =>
        hne (h ▸ List.mem_map_of_mem he')
      constructor
      · rintro (⟨x, hx, hm⟩ | ⟨_, hv⟩)
        · exact absurd hx (hes _ hm)
        · cases hv
          exact .inl ⟨e.1, rfl, List.mem_cons_self⟩
      grind
    · rw [Finmap.lookup_insert_of_ne _ (Ne.symm hq)]
      constructor
      · grind
      · rintro (⟨x, hx, hm⟩ | ⟨hn, hv⟩)
        · obtain he | hm := List.mem_cons.mp hm
          · exact absurd (by rw [← he]; exact hx) hq
          grind
        grind

theorem keys_insertAll (es : List (K × V)) (f : KeyMap K V) :
    (insertAll es f).keys = (es.map entryKey).toFinset ∪ f.keys := by
  induction es generalizing f with
  | nil => simp [insertAll]
  | cons e es ih =>
    rw [insertAll, List.foldl_cons, ← insertAll, ih, keys_insert, List.map_cons,
      List.toFinset_cons, Finset.union_insert, Finset.insert_union]

namespace Map

variable {m old : Map K V} {t : Table (K × V)} {f : KeyMap K V}

omit [HashEqual K] in
/-- The entries of the slots `is`, in their order. -/
def entries (m : Map K V) (is : List Nat) : List (K × V) :=
  is.filterMap fun i => if m.ctrl i = 255 then none else do
    let k ← m.keys i
    let v ← m.vals i
    some (k, v)

section Entries

variable {is : List Nat} {i : Nat}

theorem Ok.entry_cases (h : m.Ok t) (hi : i < m.cap) (is : List Nat) :
    m.ctrl i = 255 ∧ t i = none ∧ m.entries (i :: is) = m.entries is ∨
    ∃ k v, m.ctrl i ≠ 255 ∧ m.keys i = some k ∧ m.vals i = some v ∧
      t i = some (m.ctrl i, (k, v)) ∧ m.entries (i :: is) = (k, v) :: m.entries is := by
  obtain ⟨hc, hn⟩ | ⟨k, v, hc, hk, hv, hs⟩ := h.shows_ i hi hi.ne
  · exact .inl ⟨hc, hn, by simp [entries, hc]⟩
  · exact .inr ⟨k, v, hc.ne, hk, hv, hs, by simp [entries, hc.ne, hk, hv]⟩

theorem Ok.mem_entries (h : m.Ok t) (his : ∀ i ∈ is, i < m.cap) (e : K × V) :
    e ∈ m.entries is ↔ ∃ i ∈ is, ∃ d, t i = some (d, e) := by
  induction is with
  | nil => simp [entries]
  | cons i is ih =>
    have ih := ih fun j hj => his j (List.mem_cons_of_mem _ hj)
    obtain ⟨_, hn, he⟩ | ⟨k, v, _, _, _, hs, he⟩ :=
      h.entry_cases (his i List.mem_cons_self) is
    · simp [he, ih, hn]
    · rw [he, List.mem_cons, ih]
      constructor
      · grind
      · grind

theorem Ok.nodup_entries (h : m.Ok t) (his : ∀ i ∈ is, i < m.cap) (hd : is.Nodup) :
    ((m.entries is).map entryKey).Nodup := by
  induction is with
  | nil => simp [entries]
  | cons i is ih =>
    obtain ⟨hni, hd⟩ := List.nodup_cons.mp hd
    have his' : ∀ j ∈ is, j < m.cap := fun j hj => his j (List.mem_cons_of_mem _ hj)
    have ih := ih his' hd
    have hi := his i List.mem_cons_self
    obtain ⟨_, _, he⟩ | ⟨k, v, _, _, _, hs, he⟩ := h.entry_cases hi is
    · rwa [he]
    · rw [he, List.map_cons, List.nodup_cons]
      refine ⟨fun hmem => ?_, ih⟩
      obtain ⟨e, hm, hk⟩ := List.mem_map.mp hmem
      obtain ⟨j, hj, d, hjd⟩ := (h.mem_entries his' e).mp hm
      obtain rfl := h.layout.uniq j i _ _ _ _ (his' j hj) hi hjd hs hk
      exact hni hj

theorem Ok.insertAll_entries (h : m.Ok t) (hr : Rep m.cap t f) (g : KeyMap K V) :
    insertAll (m.entries (List.range m.cap)) g = f ∪ g := by
  have hrange : ∀ i ∈ List.range m.cap, i < m.cap := fun i hi => List.mem_range.mp hi
  have hmem : ∀ q u, f.lookup q = some u ↔
      ∃ x, Key.mk x = q ∧ (x, u) ∈ m.entries (List.range m.cap) := by
    intro q u
    rw [hr q u]
    refine exists_congr fun x => and_congr_right fun _ => ?_
    rw [h.mem_entries hrange]
    exact ⟨fun ⟨i, hi, hd⟩ => ⟨i, List.mem_range.mpr hi, hd⟩,
      fun ⟨i, hi, hd⟩ => ⟨i, List.mem_range.mp hi, hd⟩⟩
  apply Finmap.ext_lookup
  intro q
  apply Option.ext
  intro u
  rw [lookup_insertAll (h.nodup_entries hrange List.nodup_range), ← hmem]
  by_cases hq : q ∈ f
  · rw [Finmap.lookup_union_left hq]
    refine or_iff_left ?_
    rintro ⟨hn, _⟩
    obtain ⟨w, hw⟩ := Finmap.mem_iff.mp hq
    obtain ⟨x, hx, hm⟩ := (hmem q w).mp hw
    exact hn _ hm hx
  · rw [Finmap.lookup_union_right hq, Finmap.lookup_eq_none.mpr hq]
    constructor
    · grind
    · refine fun hv => .inr ⟨fun e he hk => hq ?_, hv⟩
      exact Finmap.mem_iff.mpr ⟨e.2, (hmem q e.2).mpr ⟨e.1, hk, he⟩⟩

theorem Ok.rehash_eq (h : old.Ok t) (his : ∀ i ∈ is, i < old.cap) (m : Map K V) :
    old.rehash is m =
      (old.entries is).foldlM (fun m e => m.insertNoGrow e.1 e.2 (hash e.1)) m := by
  induction is generalizing m with
  | nil => simp [rehash, entries]
  | cons i is ih =>
    have ih := ih fun j hj => his j (List.mem_cons_of_mem _ hj)
    obtain ⟨hc, _, he⟩ | ⟨k, v, hc, hk, hv, _, he⟩ :=
      h.entry_cases (his i List.mem_cons_self) is
    · rw [rehash, if_neg (not_not.mpr hc), ih, he]
    · rw [rehash, if_pos hc, hk, hv, he, List.foldlM_cons]
      grind

theorem Ok.mergeLoop_eq (h : old.Ok t) (his : ∀ i ∈ is, i < old.cap) (m : Map K V) :
    mergeLoop old is m = (old.entries is).foldlM (fun m e => m.set e.1 e.2) m := by
  induction is generalizing m with
  | nil => simp [mergeLoop, entries]
  | cons i is ih =>
    have ih := ih fun j hj => his j (List.mem_cons_of_mem _ hj)
    obtain ⟨hc, _, he⟩ | ⟨k, v, hc, hk, hv, _, he⟩ :=
      h.entry_cases (his i List.mem_cons_self) is
    · rw [mergeLoop, if_neg (not_not.mpr hc), ih, he]
    · rw [mergeLoop, if_pos hc, hk, hv, he, List.foldlM_cons]
      grind

theorem Ok.eachLoop_eq {σ : Type} (h : m.Ok t) (his : ∀ i ∈ is, i < m.cap) (g : σ → K → V → σ)
    (s : σ) : m.eachLoop g is s = some ((m.entries is).foldl (fun s e => g s e.1 e.2) s) := by
  induction is generalizing s with
  | nil => simp [eachLoop, entries]
  | cons i is ih =>
    have ih := ih fun j hj => his j (List.mem_cons_of_mem _ hj)
    obtain ⟨hc, _, he⟩ | ⟨k, v, hc, hk, hv, _, he⟩ :=
      h.entry_cases (his i List.mem_cons_self) is
    · rw [eachLoop, if_neg (not_not.mpr hc), ih, he]
    · rw [eachLoop, if_pos hc, hk, hv, he]
      grind

theorem Ok.collectLoop_eq {T : Type} (h : m.Ok t) (his : ∀ i ∈ is, i < m.cap)
    (arr : Nat → Option T) (π : K × V → T)
    (harr : ∀ i k v, m.keys i = some k → m.vals i = some v → arr i = some (π (k, v)))
    (out : List T) : m.collectLoop arr is out = some (out ++ (m.entries is).map π) := by
  induction is generalizing out with
  | nil => simp [collectLoop, entries]
  | cons i is ih =>
    have ih := ih fun j hj => his j (List.mem_cons_of_mem _ hj)
    obtain ⟨hc, _, he⟩ | ⟨k, v, hc, hk, hv, _, he⟩ :=
      h.entry_cases (his i List.mem_cons_self) is
    · rw [collectLoop, if_neg (not_not.mpr hc), ih, he]
    · rw [collectLoop, if_pos hc, harr i k v hk hv, he]
      grind

end Entries

/-! Growth and `set`. -/

/-- `m` stores exactly the entries of `f`. -/
def Is (m : Map K V) (f : KeyMap K V) : Prop :=
  m.cap = 0 ∧ m.len = 0 ∧ f = ∅ ∨ ∃ t, m.Ok t ∧ Rep m.cap t f

theorem Ok.len_eq (h : m.Ok t) (hr : Rep m.cap t f) : m.len = f.keys.card := by
  rw [h.len, hr.card_keys h.layout.uniq]

theorem Is.len_eq (h : m.Is f) : m.len = f.keys.card := by
  obtain ⟨_, hl, rfl⟩ | ⟨t, ht, hr⟩ := h
  · rw [hl, Finmap.keys_empty, Finset.card_empty]
  · exact ht.len_eq hr

theorem empty_is : (empty : Map K V).Is ∅ := .inl ⟨rfl, rfl, rfl⟩

/-- The values cast to a byte while the entries `es` are inserted one after the other. -/
def insertProbes : List (K × V) → Map K V → List Nat
  | [], _ => []
  | e :: es, m => m.probes e.1 ++
    match m.insertNoGrow e.1 e.2 (hash e.1) with
    | some m' => insertProbes es m'
    | none => []

theorem Ok.insertAll_spec {es : List (K × V)} (h : m.Ok t) (hr : Rep m.cap t f)
    (hroom : m.len + es.length < m.cap) (hsmall : ∀ n ∈ insertProbes es m, n ≤ 254) :
    ∃ m' t', es.foldlM (fun m e => m.insertNoGrow e.1 e.2 (hash e.1)) m = some m' ∧
      m'.cap = m.cap ∧ m'.Ok t' ∧ Rep m.cap t' (insertAll es f) := by
  induction es generalizing m t f with
  | nil => exact ⟨m, t, rfl, rfl, h, hr⟩
  | cons e es ih =>
    rw [List.length_cons] at hroom
    obtain ⟨m₁, t₁, h₁, hcap, hok, hrep⟩ := h.insert_spec hr e.1 e.2 (by omega) fun n hn =>
      hsmall n (List.mem_append_left _ hn)
    rw [insertProbes, h₁] at hsmall
    have hlen : m₁.len ≤ m.len + 1 := by
      rw [h.len_eq hr, hok.len_eq (hcap ▸ hrep), keys_insert]
      exact Finset.card_insert_le _ _
    rw [← hcap] at hrep
    obtain ⟨m', t', h', hcap', hok', hrep'⟩ := ih hok hrep (by omega) fun n hn =>
      hsmall n (List.mem_append_right _ hn)
    refine ⟨m', t', ?_, hcap'.trans hcap, hok', hcap ▸ hrep'⟩
    grind

theorem Ok.insertProbes_le {es : List (K × V)} (h : m.Ok t) (hr : Rep m.cap t f)
    (hroom : m.len + es.length < m.cap)
    (hs : Spread m.cap (homeIn m.cap) 254 (insertAll es f).keys) :
    ∀ n ∈ insertProbes es m, n ≤ 254 := by
  induction es generalizing m t f with
  | nil => exact fun n hn => absurd hn List.not_mem_nil
  | cons e es ih =>
    rw [List.length_cons] at hroom
    have hsub : insert (Key.mk e.1) f.keys ⊆ (insertAll (e :: es) f).keys := by
      rw [keys_insertAll, List.map_cons, List.toFinset_cons, Finset.insert_union]
      exact Finset.insert_subset_insert _ Finset.subset_union_right
    have hsmall := h.probes_le hr e.1 (hs.mono hsub)
    obtain ⟨m₁, t₁, h₁, hcap, hok, hrep⟩ := h.insert_spec hr e.1 e.2 (by omega) hsmall
    have hlen : m₁.len ≤ m.len + 1 := by
      rw [h.len_eq hr, hok.len_eq (hcap ▸ hrep), keys_insert]
      exact Finset.card_insert_le _ _
    rw [← hcap] at hrep hs
    intro n hn
    rw [insertProbes, h₁, List.mem_append] at hn
    obtain hn | hn := hn
    · exact hsmall n hn
    · exact ih hok hrep (by omega) hs n hn

def growProbes (m : Map K V) : List Nat := insertProbes (m.entries (List.range m.cap)) m.fresh

def reserveProbes (m : Map K V) : List Nat := if m.needsGrow then m.growProbes else []

/-- The values that `set` casts to a byte, those of the rehash included. -/
def setProbes (m : Map K V) (k : K) : List Nat :=
  m.reserveProbes ++ match m.reserve with
    | some m' => m'.probes k
    | none => []

/-- The capacity after a check for room with `n` entries. -/
def grownCap (cap n : Nat) : Nat :=
  if cap = 0 then 8 else if cap * 7 < (n + 1) * 8 then cap * 2 else cap

theorem newcap_eq {cap : Nat} (hc : cap ≤ 2 ^ 27) : (i32 (cap * 2)).toNat = cap * 2 := by
  rw [i32_eq (by omega) (by omega)]
  omega

theorem fresh_ok (h : m.cap = 0 ∨ m.Sized ∧ m.cap ≤ 2 ^ 27) :
    m.fresh.Ok (fun _ => none) ∧ Rep m.fresh.cap (fun _ => none) (∅ : KeyMap K V) ∧
      m.fresh.cap = (if m.cap = 0 then 8 else m.cap * 2) := by
  have hcap : m.fresh.cap = (if m.cap = 0 then 8 else m.cap * 2) := by
    rw [fresh, newcap]
    obtain h0 | ⟨hm, hle⟩ := h
    · grind
    · have := hm.pos
      rw [if_pos (show 0 < m.cap by omega), if_neg (show m.cap ≠ 0 by omega), newcap_eq hle]
  have hsized : m.fresh.Sized := by
    obtain h0 | ⟨hm, hle⟩ := h
    · rw [if_pos h0] at hcap
      exact ⟨3, le_rfl, by omega, hcap, by rw [fresh, newshift, if_neg (by omega)]⟩
    · have := hm.pos
      rw [if_neg (by omega)] at hcap
      obtain ⟨b, hb, hb', hc, hs⟩ := hm
      have hlt : b < 28 := by grind
      refine ⟨b + 1, by omega, by omega, by rw [hcap, hc, Nat.pow_succ], ?_⟩
      rw [fresh, newshift, if_pos (by omega)]
      dsimp only
      omega
  have hpos := hsized.pos
  refine ⟨⟨hsized, fun i _ _ => .inl ⟨rfl, rfl⟩, ?_, ?_⟩, fun q u => ?_, hcap⟩
  · exact
      { home_lt := hsized.homeIn_lt
        hole := fun _ => rfl
        dist := fun i d x _ h => by cases h
        order := fun i d x _ _ _ h => by cases h
        gap := fun i d x _ _ h => by cases h
        free := ⟨0, by omega, by omega, rfl⟩
        uniq := fun i j d e x y _ _ h => by cases h }
  · simp [fresh, count]
  · rw [Finmap.lookup_empty]
    constructor
    · intro h
      cases h
    · rintro ⟨x, _, i, _, d, h⟩
      cases h

omit [HashEqual K] in
theorem entries_length_le (m : Map K V) : (m.entries (List.range m.cap)).length ≤ m.cap := by
  have := List.length_filterMap_le (fun i => if m.ctrl i = 255 then none else do
    let k ← m.keys i
    let v ← m.vals i
    some (k, v)) (List.range m.cap)
  rwa [List.length_range] at this

theorem Is.grow_fits (h : m.Is f) (hc : m.cap ≤ 2 ^ 27) :
    m.grow = (m.entries (List.range m.cap)).foldlM
        (fun m e => m.insertNoGrow e.1 e.2 (hash e.1)) m.fresh ∧
      insertAll (m.entries (List.range m.cap)) ∅ = f ∧
      m.fresh.len + (m.entries (List.range m.cap)).length < m.fresh.cap ∧
      (m.cap = 0 ∨ m.Sized ∧ m.cap ≤ 2 ^ 27) := by
  have hrange : ∀ i ∈ List.range m.cap, i < m.cap := fun i hi => List.mem_range.mp hi
  have hle := m.entries_length_le
  have hlen : m.fresh.len = 0 := rfl
  obtain ⟨h0, _, rfl⟩ | ⟨t, ht, hr⟩ := h
  · have hcap := (fresh_ok (.inl h0)).2.2
    rw [if_pos h0] at hcap
    have hnil : m.entries (List.range m.cap) = [] := by rw [h0]; rfl
    rw [grow, hnil, h0]
    exact ⟨rfl, rfl, by simp [hcap, hlen], .inl rfl⟩
  · have hcap := (fresh_ok (.inr ⟨ht.sized, hc⟩)).2.2
    have := ht.sized.pos
    rw [if_neg (by omega)] at hcap
    refine ⟨ht.rehash_eq hrange m.fresh, ?_, by omega, .inr ⟨ht.sized, hc⟩⟩
    rw [ht.insertAll_entries hr, Finmap.union_empty]

theorem Is.grow_spec (h : m.Is f) (hc : m.cap ≤ 2 ^ 27) (hsmall : ∀ n ∈ m.growProbes, n ≤ 254) :
    ∃ m' t', m.grow = some m' ∧ m'.cap = (if m.cap = 0 then 8 else m.cap * 2) ∧ m'.Ok t' ∧
      Rep m'.cap t' f := by
  obtain ⟨hgrow, hall, hroom, hfits⟩ := h.grow_fits hc
  obtain ⟨hok, hrep, hcap⟩ := fresh_ok hfits
  obtain ⟨m', t', h', hcap', hok', hrep'⟩ := hok.insertAll_spec hrep hroom hsmall
  grind

theorem Is.growProbes_le (h : m.Is f) (hc : m.cap ≤ 2 ^ 27)
    (hs : Spread (if m.cap = 0 then 8 else m.cap * 2)
      (homeIn (if m.cap = 0 then 8 else m.cap * 2)) 254 f.keys) :
    ∀ n ∈ m.growProbes, n ≤ 254 := by
  obtain ⟨_, hall, hroom, hfits⟩ := h.grow_fits hc
  obtain ⟨hok, hrep, hcap⟩ := fresh_ok hfits
  refine hok.insertProbes_le hrep hroom ?_
  rw [hall, hcap]
  exact hs

theorem Is.cap_le (h : m.Is f) : m.cap ≤ 2 ^ 28 := by
  obtain ⟨h0, _⟩ | ⟨t, ht, _⟩ := h
  · omega
  · exact ht.sized.le

theorem Is.needsGrow_iff (h : m.Is f) (hn : f.keys.card < 2 ^ 27) :
    m.needsGrow = true ↔ m.cap = 0 ∨ m.cap * 7 < (f.keys.card + 1) * 8 := by
  have hc := h.cap_le
  rw [needsGrow, h.len_eq, i32_eq (by omega) (by omega), i32_eq (by omega) (by omega),
    Bool.or_eq_true, decide_eq_true_iff, decide_eq_true_iff]
  omega

theorem Is.grownCap_eq (h : m.Is f) (hn : f.keys.card < 2 ^ 27) :
    grownCap m.cap f.keys.card =
      if m.needsGrow then (if m.cap = 0 then 8 else m.cap * 2) else m.cap := by
  have hg := h.needsGrow_iff hn
  rw [grownCap]
  grind

theorem Is.cap_le_of_grow (h : m.Is f) (hn : f.keys.card < 2 ^ 27) (hg : m.needsGrow = true) :
    m.cap ≤ 2 ^ 27 := by
  have hlt := (h.needsGrow_iff hn).mp hg
  obtain ⟨h0, _⟩ | ⟨t, ht, _⟩ := h
  · omega
  · obtain ⟨b, _, _, hc, _⟩ := ht.sized
    have hb : 2 ^ b < 2 ^ 28 := by omega
    have := (Nat.pow_lt_pow_iff_right (a := 2) (by omega)).mp hb
    rw [hc]
    exact Nat.pow_le_pow_right (by omega) (by omega)

theorem Is.reserve_spec (h : m.Is f) (hn : f.keys.card < 2 ^ 27)
    (hsmall : ∀ n ∈ m.reserveProbes, n ≤ 254) :
    ∃ m' t', m.reserve = some m' ∧ m'.cap = grownCap m.cap f.keys.card ∧ m'.Ok t' ∧
      Rep m'.cap t' f ∧ m'.len + 1 < m'.cap := by
  have hg := h.needsGrow_iff hn
  have hlen := h.len_eq
  rw [h.grownCap_eq hn, reserve]
  rw [reserveProbes] at hsmall
  split_ifs at hsmall ⊢ with hng h0
  · obtain ⟨m', t', hm', hcap, hok, hrep⟩ := h.grow_spec (h.cap_le_of_grow hn hng) hsmall
    have hl := hok.len_eq hrep
    rw [if_pos h0] at hcap
    obtain ⟨_, _, rfl⟩ | ⟨t, ht, _⟩ := h
    · grind
    · have := ht.sized.pos
      omega
  · have hlt : m.cap * 7 < (f.keys.card + 1) * 8 := (hg.mp hng).resolve_left h0
    obtain ⟨m', t', hm', hcap, hok, hrep⟩ := h.grow_spec (h.cap_le_of_grow hn hng) hsmall
    have hl := hok.len_eq hrep
    rw [if_neg h0] at hcap
    obtain ⟨hc, _⟩ | ⟨t, ht, hr⟩ := h
    · exact absurd hc h0
    · obtain ⟨q, hq, _, hqn⟩ := ht.layout.free
      have hcount : count m.cap t < m.cap := by
        have hss : (Finset.range m.cap).filter (fun i => (t i).isSome) ⊂ Finset.range m.cap :=
          Finset.filter_ssubset.mpr ⟨q, Finset.mem_range.mpr hq, by simp [hqn]⟩
        have := Finset.card_lt_card hss
        rwa [Finset.card_range] at this
      have := ht.len
      grind
  · have hno : ¬ (m.cap = 0 ∨ m.cap * 7 < (f.keys.card + 1) * 8) := fun hc => hng (hg.mpr hc)
    obtain ⟨hc, _⟩ | ⟨t, ht, hr⟩ := h
    · exact absurd (.inl hc) hno
    grind

theorem Is.reserveProbes_le (h : m.Is f) (hn : f.keys.card < 2 ^ 27)
    (hs : Spread (grownCap m.cap f.keys.card) (homeIn (grownCap m.cap f.keys.card)) 254 f.keys) :
    ∀ n ∈ m.reserveProbes, n ≤ 254 := by
  have hg := h.needsGrow_iff hn
  rw [h.grownCap_eq hn] at hs
  rw [reserveProbes]
  split_ifs with hng
  · rw [if_pos hng] at hs
    exact h.growProbes_le (h.cap_le_of_grow hn hng) hs
  grind

theorem Is.set_spec (h : m.Is f) (k : K) (v : V) (hn : f.keys.card < 2 ^ 27)
    (hsmall : ∀ n ∈ m.setProbes k, n ≤ 254) :
    ∃ m', m.set k v = some m' ∧ m'.cap = grownCap m.cap f.keys.card ∧
      m'.Is (f.insert (Key.mk k) v) := by
  obtain ⟨m₁, t₁, h₁, hcap, hok, hrep, hroom⟩ := h.reserve_spec hn fun n hn =>
    hsmall n (List.mem_append_left _ hn)
  rw [setProbes, h₁] at hsmall
  obtain ⟨m', t', h', hcap', hok', hrep'⟩ := hok.insert_spec hrep k v hroom fun n hn =>
    hsmall n (List.mem_append_right _ hn)
  refine ⟨m', ?_, hcap'.trans hcap, .inr ⟨t', hok', hcap' ▸ hrep'⟩⟩
  rw [set, h₁]
  exact h'

theorem Is.setProbes_le (h : m.Is f) (k : K) (hn : f.keys.card < 2 ^ 27)
    (hs : Spread (grownCap m.cap f.keys.card) (homeIn (grownCap m.cap f.keys.card)) 254
      (insert (Key.mk k) f.keys)) :
    ∀ n ∈ m.setProbes k, n ≤ 254 := by
  have hsmall := h.reserveProbes_le hn (hs.mono (Finset.subset_insert _ _))
  obtain ⟨m₁, t₁, h₁, hcap, hok, hrep, _⟩ := h.reserve_spec hn hsmall
  intro n hn
  rw [setProbes, h₁, List.mem_append] at hn
  obtain hn | hn := hn
  · exact hsmall n hn
  · rw [← hcap] at hs
    exact hok.probes_le hrep k hs n hn

end Map

end LsLang.Core
