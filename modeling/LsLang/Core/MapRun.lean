import LsLang.Core.MapMethods
import LsLang.Lib.Transition

/-! Programs over several map variables, run side by side with finite maps. -/

namespace LsLang.Core

open Function Cyclic RobinHood Transition
open HashEqual (hash equal)

/-- An operation on the map variables `ι`. The exclusive borrow of `merge` keeps its
two maps apart; `clone x y` stores the copy of `x` in `y`. -/
inductive MapOp (ι K V : Type)
  | set (x : ι) (k : K) (v : V)
  | upsert (x : ι) (k : K) (dflt : V) (f : V → V)
  | getOrInsert (x : ι) (k : K) (dflt : V)
  | merge (x y : ι) (h : x ≠ y)
  | remove (x : ι) (k : K)
  | clear (x : ι)
  | clone (x y : ι)

/-- The map variables of a program, and the finite maps they stand for. -/
structure MapSide (ι K V : Type) [HashEqual K] where
  maps : ι → Map K V
  model : ι → KeyMap K V

variable {ι K V : Type} [DecidableEq ι] [HashEqual K]

namespace MapOp

def exec : MapOp ι K V → (ι → Map K V) → Option ((ι → Map K V) × Option V)
  | set x k v, s => do
    let m ← (s x).set k v
    some (update s x m, none)
  | upsert x k dflt f, s => do
    let m ← (s x).upsert k dflt f
    some (update s x m, none)
  | getOrInsert x k dflt, s => do
    let (v, m) ← (s x).getOrInsert k dflt
    some (update s x m, some v)
  | merge x y _, s => do
    let m ← (s x).merge (s y)
    some (update s x m, none)
  | remove x k, s => do
    let (out, m) ← (s x).remove k
    some (update s x m, out)
  | clear x, s => some (update s x (s x).clear, none)
  | clone x y, s => some (update s y (s x).clone, none)

/-- The same operation on finite maps. -/
def denote : MapOp ι K V → (ι → KeyMap K V) → (ι → KeyMap K V) × Option V
  | set x k v, f => (update f x ((f x).insert (Key.mk k) v), none)
  | upsert x k dflt u, f =>
    (update f x ((f x).insert (Key.mk k) (((f x).lookup (Key.mk k)).elim dflt u)), none)
  | getOrInsert x k dflt, f =>
    (update f x (if ((f x).lookup (Key.mk k)).isSome then f x else (f x).insert (Key.mk k) dflt),
      some (((f x).lookup (Key.mk k)).getD dflt))
  | merge x y _, f => (update f x (f y ∪ f x), none)
  | remove x k, f => (update f x ((f x).erase (Key.mk k)), (f x).lookup (Key.mk k))
  | clear x, f => (update f x ∅, none)
  | clone x y, f => (update f y (f x), none)

/-- The operation leaves fewer than 2^27 entries in every map. -/
def Held (op : MapOp ι K V) (p : MapSide ι K V) : Prop :=
  ∀ x, ((op.denote p.model).1 x).keys.card < 2 ^ 27

def probes : MapOp ι K V → (ι → Map K V) → List Nat
  | set x k _, s => (s x).setProbes k
  | upsert x k _ _, s | getOrInsert x k _, s => (s x).upsertProbes k
  | merge x y _, s => (s x).mergeProbes (s y)
  | remove _ _, _ | clear _, _ | clone _ _, _ => []

def Small (op : MapOp ι K V) (p : MapSide ι K V) : Prop := ∀ n ∈ op.probes p.maps, n ≤ 254

/-- In no table that the operation makes do `L` consecutive slots, for any `L`, count
as the home of more than `L + 254` keys. -/
def Spreads : MapOp ι K V → MapSide ι K V → Prop
  | set x k _, p => Map.Spreads (p.maps x).cap (p.model x).keys [Key.mk k]
  | upsert x k _ _, p | getOrInsert x k _, p =>
    Key.mk k ∉ p.model x → Map.Spreads (p.maps x).cap (p.model x).keys [Key.mk k]
  | merge x y _, p => Map.Spreads (p.maps x).cap (p.model x).keys
      (((p.maps y).entries (List.range (p.maps y).cap)).map entryKey)
  | remove _ _, _ | clear _, _ | clone _ _, _ => True

end MapOp

namespace MapSide

section Basic

omit [DecidableEq ι]

def start : MapSide ι K V := ⟨fun _ => Map.empty, fun _ => ∅⟩

def Ok (p : MapSide ι K V) : Prop := ∀ x, (p.maps x).Is (p.model x)

theorem start_ok : (start : MapSide ι K V).Ok := fun _ => Map.empty_is

theorem card_lt_of_insert {f : KeyMap K V} {q : Key K} {v : V}
    (hn : (f.insert q v).keys.card < 2 ^ 27) : f.keys.card < 2 ^ 27 := by
  rw [keys_insert] at hn
  exact (Finset.card_le_card (Finset.subset_insert _ _)).trans_lt hn

theorem card_insert_le {f : KeyMap K V} {q : Key K} {v : V}
    (hn : (if (f.lookup q).isSome then f else f.insert q v).keys.card < 2 ^ 27) :
    (f.insert q v).keys.card ≤ 2 ^ 27 := by grind [keys_insert, Finset.card_insert_le]

end Basic

/-- One operation on both sides; the label carries the value the code returned. -/
def Step (p : MapSide ι K V) (e : MapOp ι K V × Option V) (p' : MapSide ι K V) : Prop :=
  e.1.exec p.maps = some (p'.maps, e.2) ∧ p'.model = (e.1.denote p.model).1

variable {p p' : MapSide ι K V} {op : MapOp ι K V}

theorem Ok.update (h : p.Ok) {x : ι} {m : Map K V} {f : KeyMap K V} (hm : m.Is f) :
    MapSide.Ok ⟨update p.maps x m, update p.model x f⟩ := by
  intro y
  by_cases hy : y = x
  · subst hy
    simpa using hm
  · simpa [hy] using h y

theorem Ok.step (h : p.Ok) (hh : op.Held p) (hs : op.Small p) :
    ∃ p', Step p (op, (op.denote p.model).2) p' ∧ p'.Ok := by
  cases op with
  | set x k v =>
    have hn := hh x
    simp only [MapOp.denote, update_self] at hn
    obtain ⟨m, hm, _, his⟩ := (h x).set_spec k v (card_lt_of_insert hn) hs
    refine ⟨_, ⟨?_, rfl⟩, h.update (x := x) his⟩
    simp only [MapOp.exec, hm, Option.bind_eq_bind, Option.bind_some, MapOp.denote]
  | upsert x k d u =>
    have hn := hh x
    simp only [MapOp.denote, update_self, keys_insert] at hn
    obtain ⟨m, hm, his⟩ := (h x).upsert_spec k d u (by rw [keys_insert]; omega) hs
    refine ⟨_, ⟨?_, rfl⟩, h.update (x := x) his⟩
    simp only [MapOp.exec, hm, Option.bind_eq_bind, Option.bind_some, MapOp.denote]
  | getOrInsert x k d =>
    have hn := hh x
    simp only [MapOp.denote, update_self] at hn
    obtain ⟨m, hm, his⟩ := (h x).getOrInsert_spec k d (card_insert_le hn) hs
    refine ⟨_, ⟨?_, rfl⟩, h.update (x := x) his⟩
    simp only [MapOp.exec, hm, Option.bind_eq_bind, Option.bind_some, MapOp.denote]
  | merge x y hxy =>
    have hn := hh x
    simp only [MapOp.denote, update_self] at hn
    obtain ⟨m, hm, his⟩ := (h x).merge_spec (h y) hn hs
    refine ⟨_, ⟨?_, rfl⟩, h.update (x := x) his⟩
    simp only [MapOp.exec, hm, Option.bind_eq_bind, Option.bind_some, MapOp.denote]
  | remove x k =>
    obtain ⟨m, hm, _, his⟩ := (h x).remove_spec k
    refine ⟨_, ⟨?_, rfl⟩, h.update (x := x) his⟩
    simp only [MapOp.exec, hm, Option.bind_eq_bind, Option.bind_some, MapOp.denote]
  | clear x => exact ⟨_, ⟨rfl, rfl⟩, h.update (x := x) (h x).clear_spec⟩
  | clone x y => exact ⟨_, ⟨rfl, rfl⟩, h.update (x := y) (h x).clone_spec.1⟩

theorem Ok.of_step (h : p.Ok) (hh : op.Held p) (hs : op.Small p) {out : Option V}
    (hst : Step p (op, out) p') : p'.Ok ∧ out = (op.denote p.model).2 := by
  obtain ⟨q, ⟨hq, hqm⟩, hok⟩ := h.step hh hs
  obtain ⟨he, hm⟩ := hst
  have heq := Option.some.inj (he.symm.trans hq)
  obtain ⟨hmaps, hout⟩ := Prod.mk.inj heq
  refine ⟨fun x => ?_, hout⟩
  rw [hmaps, hm, ← hqm]
  exact hok x

theorem run_ok (guard : MapOp ι K V → MapSide ι K V → Prop)
    (hguard : ∀ op p, p.Ok → op.Held p → guard op p → op.Small p)
    {es : List (MapOp ι K V × Option V)}
    (h : Run (fun p e p' => e.1.Held p ∧ guard e.1 p ∧ Step p e p') start es p) : p.Ok := by
  refine h.invariant (I := fun _ p => p.Ok) start_ok ?_
  rintro _ p ⟨op, out⟩ q hp ⟨hh, hg, hst⟩
  exact (hp.of_step hh (hguard op p hp hh hg) hst).1

/-- Within the byte limit every operation keeps the Robin Hood order; the lookups and
the removals agree with the finite maps, and each iteration yields every entry once. -/
theorem robinHood_run {es : List (MapOp ι K V × Option V)}
    (h : Run (fun p e p' => e.1.Held p ∧ e.1.Small p ∧ Step p e p') start es p) :
    (∀ x, (p.maps x).RobinHood ∧ (p.maps x).len = (p.model x).keys.card) ∧
    (∀ x k, (p.maps x).get k = some ((p.model x).lookup (Key.mk k)) ∧
      (p.maps x).has k = some ((p.model x).lookup (Key.mk k)).isSome ∧
      (∀ d, (p.maps x).getOr k d = some (((p.model x).lookup (Key.mk k)).getD d)) ∧
      ∃ m, (p.maps x).remove k = some ((p.model x).lookup (Key.mk k), m)) ∧
    (∀ x, ∃ es, (p.maps x).Yields es ∧ (es.map entryKey).Nodup ∧ insertAll es ∅ = p.model x ∧
      ∀ e, e ∈ es ↔ ∃ i, (p.maps x).live i ∧ (p.maps x).keys i = some e.1 ∧
        (p.maps x).vals i = some e.2) ∧
    ∀ op : MapOp ι K V, op.Held p → op.Small p →
      ∃ p', Step p (op, (op.denote p.model).2) p' := by
  have hp : p.Ok := run_ok (fun op p => op.Small p) (fun _ _ _ _ hs => hs) h
  refine ⟨fun x => ⟨(hp x).robinHood, (hp x).len_eq⟩, fun x k => ?_, fun x => (hp x).yields,
    fun op hh hs => ?_⟩
  · obtain ⟨m, hm, _⟩ := (hp x).remove_spec k
    exact ⟨(hp x).get_spec k, (hp x).has_spec k, (hp x).getOr_spec k, m, hm⟩
  · obtain ⟨p', hst, _⟩ := hp.step hh hs
    exact ⟨p', hst⟩

theorem Ok.small (h : p.Ok) (hh : op.Held p) (hs : op.Spreads p) : op.Small p := by
  cases op with
  | set x k v =>
    have hn := hh x
    simp only [MapOp.denote, update_self] at hn
    exact (h x).setProbes_le k (card_lt_of_insert hn) hs.1
  | upsert x k d u =>
    have hn := hh x
    simp only [MapOp.denote, update_self] at hn
    exact (h x).upsertProbes_le k (card_lt_of_insert hn) fun hl =>
      (hs (Finmap.lookup_eq_none.mp hl)).1
  | getOrInsert x k d =>
    have hn := hh x
    simp only [MapOp.denote, update_self] at hn
    refine (h x).upsertProbes_le k ?_ fun hl => (hs (Finmap.lookup_eq_none.mp hl)).1
    split_ifs at hn
    · exact hn
    · exact card_lt_of_insert hn
  | merge x y hxy =>
    have hn := hh x
    simp only [MapOp.denote, update_self] at hn
    exact (h x).mergeProbes_le (h y) hn hs
  | remove _ _ | clear _ | clone _ _ => exact fun n hn => absurd hn List.not_mem_nil

theorem run_small {es : List (MapOp ι K V × Option V)}
    (h : Run (fun p e p' => e.1.Held p ∧ e.1.Spreads p ∧ Step p e p') start es p) :
    Run (fun p e p' => e.1.Held p ∧ e.1.Small p ∧ Step p e p') start es p := by
  refine (h.invariant (I := fun es p => p.Ok ∧
    Run (fun p e p' => e.1.Held p ∧ e.1.Small p ∧ Step p e p') start es p) ⟨start_ok, .refl⟩ ?_).2
  rintro es p e q ⟨hp, hr⟩ ⟨hh, hs, hst⟩
  have hsmall := hp.small hh hs
  exact ⟨(hp.of_step hh hsmall hst).1, hr.snoc ⟨hh, hsmall, hst⟩⟩

/-- While the keys are spread out, the maps are the finite maps, every stored byte is
the true distance from home, and every operation returns. -/
theorem finiteMap_run {es : List (MapOp ι K V × Option V)}
    (h : Run (fun p e p' => e.1.Held p ∧ e.1.Spreads p ∧ Step p e p') start es p) :
    (∀ x k, (p.maps x).get k = some ((p.model x).lookup (Key.mk k)) ∧
      (p.maps x).has k = some ((p.model x).lookup (Key.mk k)).isSome ∧
      ∀ d, (p.maps x).getOr k d = some (((p.model x).lookup (Key.mk k)).getD d)) ∧
    (∀ x, (p.maps x).len = (p.model x).keys.card) ∧
    (∀ x i, (p.maps x).live i → ∃ k, (p.maps x).keys i = some k ∧
      (p.maps x).ctrl i = (i + (p.maps x).cap - (p.maps x).home (hash k)) % (p.maps x).cap) ∧
    ∀ op : MapOp ι K V, op.Held p → op.Spreads p →
      ∃ p', Step p (op, (op.denote p.model).2) p' := by
  have hp : p.Ok := run_ok (fun op p => op.Spreads p) (fun _ _ h hh hs => h.small hh hs) h
  refine ⟨fun x k => ⟨(hp x).get_spec k, (hp x).has_spec k, (hp x).getOr_spec k⟩,
    fun x => (hp x).len_eq, fun x i hi => ?_, fun op hh hs => ?_⟩
  · obtain ⟨k, _, hk, _, hd⟩ := (hp x).robinHood.dist i hi
    exact ⟨k, hk, hd⟩
  · obtain ⟨p', hst, _⟩ := hp.step hh (hp.small hh hs)
    exact ⟨p', hst⟩

end MapSide

/-! Keys whose hashes all collide. -/

/-- Numbers as keys, every one of them with the hash 0. -/
def Colliding : Type := Nat

instance : HashEqual Colliding where
  hash _ := 0
  equal a b := Nat.beq a b
  equivalence := ⟨fun a => Nat.beq_refl a, fun h => by rw [Nat.eq_of_beq_eq_true h]; exact Nat.beq_refl _,
    fun h k => by rw [Nat.eq_of_beq_eq_true h]; exact k⟩
  hash_eq _ _ _ := rfl

namespace Colliding

def key (n : Nat) : Colliding := n

theorem key_inj {a b : Nat} (h : Key.mk (key a) = Key.mk (key b)) : a = b :=
  Nat.eq_of_beq_eq_true (Key.mk_eq.mp h)

/-- The map of the keys below `n`, each to itself. -/
def model : Nat → KeyMap Colliding Nat
  | 0 => ∅
  | n + 1 => (model n).insert (Key.mk (key n)) n

theorem keys_model (n : Nat) :
    (model n).keys = (Finset.range n).image fun i => Key.mk (key i) := by
  induction n with
  | zero => rfl
  | succ n ih => rw [model, keys_insert, ih, Finset.range_add_one, Finset.image_insert]

theorem card_model (n : Nat) : (model n).keys.card = n := by
  rw [keys_model, Finset.card_image_of_injective _ fun a b h => key_inj h, Finset.card_range]

theorem lookup_model {n i : Nat} (h : n ≤ i) : (model n).lookup (Key.mk (key i)) = none := by
  rw [Finmap.lookup_eq_none, ← Finmap.mem_keys, keys_model]
  grind [key_inj]

theorem lookup_model_self {n i : Nat} (h : n = i + 1) :
    (model n).lookup (Key.mk (key i)) = some i := by
  subst h
  exact Finmap.lookup_insert (model i)

def sets (n : Nat) : List (MapOp Unit Colliding Nat × Option Nat) :=
  (List.range n).map fun i => (.set () (key i) i, none)

def capAfter : Nat → Nat
  | 0 => 0
  | n + 1 => Map.grownCap (capAfter n) n

theorem sets_succ (n : Nat) : sets (n + 1) = sets n ++ [(.set () (key n) n, none)] := by
  rw [sets, List.range_succ, List.map_append]
  rfl

theorem held_set {n : Nat} (hn : n < 2 ^ 26) (m : Map Colliding Nat) :
    (MapOp.set () (key n) n).Held ⟨fun _ : Unit => m, fun _ => model n⟩ := by
  intro _
  have := card_model (n + 1)
  change (update (fun _ : Unit => model n) () (model (n + 1)) ()).keys.card < 2 ^ 27
  rw [update_self]
  omega

theorem step_set {n : Nat} {m m' : Map Colliding Nat} (h : m.set (key n) n = some m') :
    MapSide.Step ⟨fun _ : Unit => m, fun _ => model n⟩ (.set () (key n) n, none)
      ⟨fun _ => m', fun _ => model (n + 1)⟩ := by
  refine ⟨?_, rfl⟩
  simp only [MapOp.exec, h, Option.bind_eq_bind, Option.bind_some]
  rfl

theorem sets_run {n : Nat} (hn : n ≤ 255) :
    ∃ m : Map Colliding Nat, m.Is (model n) ∧ m.cap = capAfter n ∧
      Run (fun p e p' => e.1.Held p ∧ e.1.Spreads p ∧ MapSide.Step p e p') MapSide.start (sets n)
        ⟨fun _ => m, fun _ => model n⟩ := by
  induction n with
  | zero => exact ⟨Map.empty, Map.empty_is, rfl, .refl⟩
  | succ n ih =>
    obtain ⟨m, his, hcap, hrun⟩ := ih (by omega)
    have hspread : Map.Spreads m.cap (model n).keys [Key.mk (key n)] := by
      refine ⟨spread_of_card ?_, trivial⟩
      grind [card_model, Finset.card_insert_le]
    have hcard := card_model n
    obtain ⟨m', hm', hcap', his'⟩ := his.set_spec (key n) n (by omega)
      (his.setProbes_le (key n) (by omega) hspread.1)
    refine ⟨m', his', by rw [hcap', hcap, card_model]; rfl, ?_⟩
    rw [sets_succ]
    exact hrun.snoc ⟨held_set (by omega) m, hspread, step_set hm'⟩

/-! With 255 of them in the table, the next one is lost. -/

theorem full {m : Map Colliding Nat} (hcap : m.cap = 512) : m.Full (model 255) (key 255) where
  cap := hcap
  card := card_model 255
  zero _ _ := rfl
  key := rfl
  new := Finmap.lookup_eq_none.mp (lookup_model le_rfl)

/-- 256 keys with one hash: the last of them is set and then not found. -/
theorem lost_key : ∃ (es : List (MapOp Unit Colliding Nat × Option Nat))
    (p : MapSide Unit Colliding Nat),
    Run (fun p e p' => e.1.Held p ∧ MapSide.Step p e p') MapSide.start es p ∧
      (p.maps ()).get (key 255) = some none ∧
      (p.model ()).lookup (Key.mk (key 255)) = some 255 := by
  obtain ⟨m, his, hcap, hrun⟩ := sets_run le_rfl
  obtain ⟨m', hset, hget⟩ := (full (hcap.trans (by decide +kernel))).set_lost his 255
  have hrun' := hrun.mono (fun p e p' => e.1.Held p ∧ MapSide.Step p e p')
    fun _ _ _ hs => ⟨hs.1, hs.2.2⟩
  refine ⟨_, _, hrun'.snoc ⟨held_set (by norm_num) m, step_set hset⟩, hget, ?_⟩
  dsimp only
  exact lookup_model_self rfl

end Colliding

/-! Runs for which the results above say something. -/

namespace MapSide

/-- 255 keys with one hash: all but the first are displaced, and the table has grown to 512 slots. -/
theorem robinHood_run_crowded : ∃ p : MapSide Unit Colliding Nat,
    Run (fun p e p' => e.1.Held p ∧ e.1.Small p ∧ Step p e p') start (Colliding.sets 255) p ∧
      (p.maps ()).RobinHood ∧ (p.maps ()).cap = 512 ∧ (p.maps ()).get (Colliding.key 254) = some (some 254) := by
  obtain ⟨m, his, hcap, hrun⟩ := Colliding.sets_run le_rfl
  have hrun' := run_small hrun
  obtain ⟨h₁, h₂, _⟩ := robinHood_run hrun'
  refine ⟨_, hrun', (h₁ ()).1, hcap.trans (by decide +kernel), ?_⟩
  rw [(h₂ () (Colliding.key 254)).1]
  dsimp only
  rw [Colliding.lookup_model_self (i := 254) rfl]

theorem finiteMap_run_255 : ∃ p : MapSide Unit Colliding Nat,
    Run (fun p e p' => e.1.Held p ∧ e.1.Spreads p ∧ Step p e p') start (Colliding.sets 255) p ∧
      (p.maps ()).len = 255 ∧ (p.maps ()).get (Colliding.key 254) = some (some 254) := by
  obtain ⟨m, his, _, hrun⟩ := Colliding.sets_run le_rfl
  obtain ⟨h₁, h₂, _⟩ := finiteMap_run hrun
  refine ⟨_, hrun, ?_, ?_⟩
  · dsimp only at h₂ ⊢
    rw [h₂ (), Colliding.card_model]
  · rw [(h₁ () (Colliding.key 254)).1]
    dsimp only
    rw [Colliding.lookup_model_self (i := 254) rfl]

end MapSide

end LsLang.Core
