import LsLang.Word
import LsLang.Core.Str
import Mathlib.Logic.Function.Basic

/-! The hash map of `std.core.map`: open addressing with Robin Hood order, three
parallel arrays of `cap` slots, and one control byte a slot. -/

namespace LsLang.Core

open Function

/-- A key type: its `Hash` and `Equal` methods. -/
class HashEqual (K : Type) where
  hash : K → UInt64
  equal : K → K → Bool
  equivalence : Equivalence fun a b => equal a b = true
  hash_eq : ∀ a b, equal a b = true → hash a = hash b

open HashEqual (hash equal)

/-- A slot of `keys` or `vals` is `none` while its value is moved out or not yet stored. -/
structure Map (K V : Type) where
  ctrl : Nat → Nat
  keys : Nat → Option K
  vals : Nat → Option V
  len : Nat
  cap : Nat
  shift : Nat

namespace Map

variable {K V : Type}

/-- `Map(K, V) m = {}` -/
def empty : Map K V := ⟨fun _ => 0, fun _ => none, fun _ => none, 0, 0, 0⟩

instance : Inhabited (Map K V) := ⟨empty⟩

def isEmpty (m : Map K V) : Bool := m.len == 0

/-- The body of `_home`; the result of the shift is cast to `int`. -/
def scatter (shift : Nat) (h : UInt64) : Nat :=
  (i32 ((h * 11400714819323198485) >>> UInt64.ofNat shift).toNat).toNat

def home (m : Map K V) (h : UInt64) : Nat := scatter m.shift h

def mask (m : Map K V) : Nat := m.cap - 1

/-- `(idx + 1) & mask` -/
def next (m : Map K V) (idx : Nat) : Nat := (idx + 1) &&& m.mask

/-- `(p - 1) & mask`, where `p - 1` may be the `int` -1 -/
def prev (m : Map K V) (p : Nat) : Nat := (((p : Int) - 1) % 2 ^ 32).toNat &&& m.mask

/-! Every loop takes fuel. A result `none` is a loop that does not end, or a read of
a slot whose value is moved out. -/

section Probe

variable [HashEqual K]

/-- The loop of `_find`; it ends by `psl = 255`, as no byte of a live slot reaches that. -/
def findLoop (m : Map K V) (k : K) : Nat → Nat → Nat → Option (Option Nat)
  | 0, _, _ => none
  | fuel + 1, idx, psl =>
    if m.ctrl idx = 255 then some none
    else if m.ctrl idx < psl then some none
    else do
      let existing ← m.keys idx
      if equal existing k then some (some idx) else m.findLoop k fuel (m.next idx) (psl + 1)

/-- `_find`; the index -1 is `none`. -/
def find (m : Map K V) (k : K) (h : UInt64) : Option (Option Nat) :=
  if m.cap = 0 then some none else m.findLoop k 256 (m.home h) 0

/-- How phase 1 of `_insert_no_grow` ends: on the key itself, or on the insertion slot. -/
inductive Spot
  | update (idx : Nat)
  | place (idx psl : Nat)
  deriving DecidableEq

/-- Phase 1 of `_insert_no_grow`. The key is compared before the probe lengths are. -/
def scan (m : Map K V) (k : K) : Nat → Nat → Nat → Option Spot
  | 0, _, _ => none
  | fuel + 1, idx, psl =>
    if m.ctrl idx = 255 then some (.place idx psl)
    else do
      let existing ← m.keys idx
      if equal existing k then some (.update idx)
      else if m.ctrl idx < psl then some (.place idx psl)
      else m.scan k fuel (m.next idx) (psl + 1)

end Probe

/-- The first empty slot from `tail` on. -/
def tailLoop (m : Map K V) : Nat → Nat → Option Nat
  | 0, _ => none
  | fuel + 1, tail => if m.ctrl tail = 255 then some tail else m.tailLoop fuel (m.next tail)

/-- One turn of the forward shift: the entry of slot `prev` moves to slot `p`. -/
def shiftUp (m : Map K V) (p : Nat) : Option (Map K V) := do
  let mk ← m.keys (m.prev p)
  let mv ← m.vals (m.prev p)
  some { m with
    keys := update (update m.keys (m.prev p) none) p (some mk)
    vals := update (update m.vals (m.prev p) none) p (some mv)
    ctrl := update m.ctrl p (u8 (m.ctrl (m.prev p) + 1)) }

def shiftLoop (idx : Nat) : Nat → Nat → Map K V → Option (Map K V)
  | 0, _, _ => none
  | fuel + 1, p, m =>
    if p = idx then some m else do
      let m' ← m.shiftUp p
      shiftLoop idx fuel (m.prev p) m'

/-- Phase 2 of `_insert_no_grow`. -/
def openSlot (m : Map K V) (idx : Nat) : Option (Map K V) :=
  if m.ctrl idx ≠ 255 then do
    let tail ← m.tailLoop (m.cap + 1) idx
    shiftLoop idx (m.cap + 1) tail m
  else some m

def place (m : Map K V) (idx psl : Nat) (k : K) (v : V) : Map K V :=
  { m with
    keys := update m.keys idx (some k)
    vals := update m.vals idx (some v)
    ctrl := update m.ctrl idx (u8 psl)
    len := m.len + 1 }

/-- The capacity and the shift `_grow` takes. -/
def newcap (m : Map K V) : Nat := if 0 < m.cap then (i32 (m.cap * 2)).toNat else 8

def newshift (m : Map K V) : Nat := if 0 < m.cap then m.shift - 1 else 61

/-- The table of `newcap` empty slots that `_grow` fills again. -/
def fresh (m : Map K V) : Map K V :=
  { ctrl := fun _ => 255, keys := fun _ => none, vals := fun _ => none, len := 0,
    cap := m.newcap, shift := m.newshift }

/-- The check of `set` and `upsert`: grow when empty, or when the load would exceed 7/8. -/
def needsGrow (m : Map K V) : Bool :=
  m.cap = 0 || i32 (m.cap * 7) < i32 ((m.len + 1) * 8)

section Ops

variable [HashEqual K]

def insertNoGrow (m : Map K V) (k : K) (v : V) (h : UInt64) : Option (Map K V) := do
  match ← m.scan k 256 (m.home h) 0 with
  | .update idx => some { m with vals := update m.vals idx (some v) }
  | .place idx psl => do
    let m' ← m.openSlot idx
    some (m'.place idx psl k v)

/-- The rehash loop of `_grow` over the slots `is` of the old table. -/
def rehash (old : Map K V) : List Nat → Map K V → Option (Map K V)
  | [], m => some m
  | i :: is, m =>
    if old.ctrl i ≠ 255 then do
      let k ← old.keys i
      let v ← old.vals i
      let m' ← m.insertNoGrow k v (hash k)
      rehash old is m'
    else rehash old is m

def grow (m : Map K V) : Option (Map K V) := m.rehash (List.range m.cap) m.fresh

def reserve (m : Map K V) : Option (Map K V) := if m.needsGrow then m.grow else some m

def set (m : Map K V) (k : K) (v : V) : Option (Map K V) := do
  let m' ← m.reserve
  m'.insertNoGrow k v (hash k)

def upsert (m : Map K V) (key : K) (dflt : V) (f : V → V) : Option (Map K V) := do
  match ← m.find key (hash key) with
  | some idx => do
    let old ← m.vals idx
    some { m with vals := update m.vals idx (some (f old)) }
  | none => do
    let m' ← m.reserve
    m'.insertNoGrow key dflt (hash key)

def getOr (m : Map K V) (k : K) (dflt : V) : Option V := do
  match ← m.find k (hash k) with
  | none => some dflt
  | some idx => m.vals idx

def getOrInsert (m : Map K V) (k : K) (dflt : V) : Option (V × Map K V) := do
  match ← m.find k (hash k) with
  | some idx => do
    let v ← m.vals idx
    some (v, m)
  | none => do
    let m' ← m.set k dflt
    some (dflt, m')

/-- The loop of `merge` over the slots `is` of `other`. -/
def mergeLoop (other : Map K V) : List Nat → Map K V → Option (Map K V)
  | [], m => some m
  | i :: is, m =>
    if other.ctrl i ≠ 255 then do
      let k ← other.keys i
      let v ← other.vals i
      let m' ← m.set k v
      mergeLoop other is m'
    else mergeLoop other is m

def merge (m other : Map K V) : Option (Map K V) := mergeLoop other (List.range other.cap) m

def get (m : Map K V) (k : K) : Option (Option V) := do
  match ← m.find k (hash k) with
  | none => some none
  | some idx => do
    let v ← m.vals idx
    some (some v)

/-- `has?` -/
def has (m : Map K V) (k : K) : Option Bool := do
  let idx ← m.find k (hash k)
  some idx.isSome

end Ops

/-- One turn of the backward shift: the entry of slot `nk` moves to slot `j`. -/
def shiftBack (m : Map K V) (j nk : Nat) : Option (Map K V) := do
  let mk ← m.keys nk
  let mv ← m.vals nk
  some { m with
    keys := update (update m.keys nk none) j (some mk)
    vals := update (update m.vals nk none) j (some mv)
    ctrl := update m.ctrl j (u8 (m.ctrl nk - 1)) }

/-- The loop of `remove`. A loop that meets no stop lowers every byte of the table
once a round, so it ends within 256 rounds. -/
def backLoop : Nat → Nat → Map K V → Option (Map K V)
  | 0, _, _ => none
  | fuel + 1, j, m =>
    if m.ctrl (m.next j) = 255 then some { m with ctrl := update m.ctrl j 255 }
    else if m.ctrl (m.next j) = 0 then some { m with ctrl := update m.ctrl j 255 }
    else do
      let m' ← m.shiftBack j (m.next j)
      backLoop fuel (m.next j) m'

def remove [HashEqual K] (m : Map K V) (k : K) : Option (Option V × Map K V) := do
  match ← m.find k (hash k) with
  | none => some (none, m)
  | some i => do
    let out ← m.vals i
    let m' ← backLoop (256 * m.cap + 1) i
      { m with keys := update m.keys i none, vals := update m.vals i none }
    some (some out, { m' with len := m'.len - 1 })

/-- Slot `i` of the loops over all slots is live. -/
def live (m : Map K V) (i : Nat) : Prop := i < m.cap ∧ m.ctrl i ≠ 255

instance (m : Map K V) (i : Nat) : Decidable (m.live i) := inferInstanceAs (Decidable (_ ∧ _))

def clear (m : Map K V) : Map K V :=
  { m with
    ctrl := fun i => if m.live i then 255 else m.ctrl i
    keys := fun i => if m.live i then none else m.keys i
    vals := fun i => if m.live i then none else m.vals i
    len := 0 }

def clone (m : Map K V) : Map K V :=
  if m.cap = 0 then empty
  else
    { ctrl := fun i => if i < m.cap then u8 (m.ctrl i) else 0
      keys := fun i => if m.live i then m.keys i else none
      vals := fun i => if m.live i then m.vals i else none
      len := m.len
      cap := m.cap
      shift := m.shift }

/-- The loop of `each` over the slots `is`, with the effect of the block as a state. -/
def eachLoop {σ : Type} (m : Map K V) (f : σ → K → V → σ) : List Nat → σ → Option σ
  | [], s => some s
  | i :: is, s =>
    if m.ctrl i ≠ 255 then do
      let k ← m.keys i
      let v ← m.vals i
      m.eachLoop f is (f s k v)
    else m.eachLoop f is s

def each {σ : Type} (m : Map K V) (f : σ → K → V → σ) (s : σ) : Option σ :=
  m.eachLoop f (List.range m.cap) s

/-- `keys` and `values` push one array of the live slots. -/
def collectLoop {T : Type} (m : Map K V) (arr : Nat → Option T) : List Nat → List T → Option (List T)
  | [], out => some out
  | i :: is, out =>
    if m.ctrl i ≠ 255 then do
      let x ← arr i
      m.collectLoop arr is (out ++ [x])
    else m.collectLoop arr is out

/-- The method `keys`. -/
def keyList (m : Map K V) : Option (List K) := m.collectLoop m.keys (List.range m.cap) []

/-- The method `values`. -/
def values (m : Map K V) : Option (List V) := m.collectLoop m.vals (List.range m.cap) []

end Map

structure MapIter (K V : Type) where
  ctrl : Nat → Nat
  keys : Nat → Option K
  vals : Nat → Option V
  cap : Nat
  i : Nat

def Map.iter {K V : Type} (m : Map K V) : MapIter K V := ⟨m.ctrl, m.keys, m.vals, m.cap, 0⟩

namespace MapIter

variable {K V : Type}

def nextLoop : Nat → MapIter K V → Option (Option (K × V) × MapIter K V)
  | 0, _ => none
  | fuel + 1, it =>
    if it.i < it.cap then
      let it' := { it with i := it.i + 1 }
      if it.ctrl it.i ≠ 255 then do
        let k ← it.keys it.i
        let v ← it.vals it.i
        some (some (k, v), it')
      else nextLoop fuel it'
    else some (none, it)

def next (it : MapIter K V) : Option (Option (K × V) × MapIter K V) :=
  nextLoop (it.cap - it.i + 1) it

/-- `for e in m`: the entries `next` yields until it returns `None`. -/
def forEach : Nat → MapIter K V → Option (List (K × V))
  | 0, _ => none
  | fuel + 1, it => do
    match ← it.next with
    | (none, _) => some []
    | (some e, it') => do
      let es ← forEach fuel it'
      some (e :: es)

end MapIter

/-! Strings as keys of a map. -/

/-- The loop of `__ls_fxhash_bytes`. -/
def fxhash : Str → UInt64 → UInt64
  | [], h => h
  | b :: s, h =>
    let x := h ^^^ b.toUInt64
    let r := x <<< 5 ||| x >>> 59
    fxhash s (r * 0x517cc1b727220a95)

/-- `Str.hash` and `Str.eq?` -/
instance strHashEqual : HashEqual Str where
  hash s := fxhash s 0
  equal a b := a == b
  equivalence := ⟨fun a => beq_self_eq_true a, fun h => by grind,
    fun h₁ h₂ => by grind⟩
  hash_eq a b h := by rw [eq_of_beq h]

end LsLang.Core
