import LsLang.Core.Growth
import LsLang.Core.Vec

/-! `Deque(T)` of `deque.lls`: a buffer used circularly. The functions keep a record of the clones that they make and of
the elements that they destroy. -/

namespace LsLang.Core

open LsLang.Lib LsLang.Undefined

structure Deque (α : Type) where
  data : Cells α
  cap : ℕ
  head : ℕ
  len : ℕ
  /-- every clone, the last one first -/
  cloned : List α
  /-- every element destroyed, the last one first -/
  gone : List α

/-- The bits of an `int`. -/
def word (x : ℤ) : ℕ := (x % 2 ^ 32).toNat

namespace Deque

variable {α : Type} (clone : ℕ → α → α) (d : Deque α)

/-- `{}` -/
def empty : Deque α := ⟨[], 0, 0, 0, [], []⟩

/-- `x & (cap - 1)` -/
def masked (cap : ℕ) (x : ℤ) : Res ℕ := do
  let x ← asInt x
  pure (word x &&& word ((cap : ℤ) - 1))

/-- `(self.head + i) & (self.cap - 1)` -/
def slot (i : ℕ) : Res ℕ := masked d.cap (d.head + i)

/-- `(self.head + self.len - 1) & (self.cap - 1)` -/
def lastSlot : Res ℕ := do
  let sum ← asInt (d.head + d.len)
  masked d.cap (sum - 1)

def read (i : ℕ) : Res α := do
  let x ← d.data.peek i
  pure (clone d.cloned.length x)

def front : Res (Option α) :=
  if d.len = 0 then .ok none
  else do
    let v ← d.read clone d.head
    pure (some v)

def back : Res (Option α) :=
  if d.len = 0 then .ok none
  else do
    let idx ← d.lastSlot
    let v ← d.read clone idx
    pure (some v)

def get (i : ℤ) : Res (Option α) :=
  if i < 0 ∨ (d.len : ℤ) ≤ i then .ok none
  else do
    let idx ← d.slot i.toNat
    let v ← d.read clone idx
    pure (some v)

/-- One turn of `_grow`, with the new buffer. -/
def growTurn (i : ℕ) (s : Deque α × Cells α) : Res (Deque α × Cells α) := do
  let src ← s.1.slot i
  let (x, b) ← s.1.data.take src
  let nd ← s.2.store i x
  pure ({ s.1 with data := b }, nd)

/-- The turns of `_grow`: the old buffer, and the new one. -/
def relocate (newcap : ℕ) : Res (Deque α × Cells α) := Res.forFrom growTurn 0 d.len (d, Cells.vacant newcap)

/-- `_grow`. The old buffer is freed. -/
def grow : Res (Deque α) := do
  let newcap ← Growth.newcap d.cap
  let s ← d.relocate newcap.toNat
  pure { d with data := s.2, cap := newcap.toNat, head := 0 }

/-- `if self.len == self.cap { self._grow() }` -/
def makeRoom : Res (Deque α) := if d.len = d.cap then d.grow else .ok d

def pushBack (x : α) : Res (Deque α) := do
  let d ← d.makeRoom
  let idx ← d.slot d.len
  let b ← d.data.store idx x
  pure { d with data := b, len := d.len + 1 }

def pushFront (x : α) : Res (Deque α) := do
  let d ← d.makeRoom
  let head ← masked d.cap ((d.head : ℤ) - 1)
  let b ← d.data.store head x
  pure { d with data := b, head := head, len := d.len + 1 }

def popFront : Res (Option α × Deque α) :=
  if d.len = 0 then .ok (none, d)
  else do
    let (out, b) ← d.data.take d.head
    let head ← d.slot 1
    pure (some out, { d with data := b, head := head, len := d.len - 1 })

def popBack : Res (Option α × Deque α) :=
  if d.len = 0 then .ok (none, d)
  else do
    let idx ← d.lastSlot
    let (out, b) ← d.data.take idx
    pure (some out, { d with data := b, len := d.len - 1 })

/-- `@dispose(self.data[idx])` -/
def disposeTurn (i : ℕ) (d : Deque α) : Res (Deque α) := do
  let idx ← d.slot i
  let (x, b) ← d.data.take idx
  pure { d with data := b, gone := x :: d.gone }

def clear : Res (Deque α) := do
  let d ← Res.forFrom disposeTurn 0 d.len d
  pure { d with len := 0, head := 0 }

/-- One turn of `to_vec`. -/
def toVecTurn (i : ℕ) (out : Vec α) : Res (Vec α) := do
  let idx ← d.slot i
  let x ← d.data.peek idx
  let (v, out) := out.dup clone x
  out.push v

def toVec : Res (Vec α) := do
  let out ← Vec.empty.reserve d.len
  Res.forFrom (d.toVecTurn clone) 0 d.len out

/-- One turn of `clone`. -/
def cloneTurn (i : ℕ) (out : Deque α) : Res (Deque α) := do
  let idx ← d.slot i
  let x ← d.data.peek idx
  let v := clone out.cloned.length x
  let b ← out.data.store i v
  pure { out with data := b, cloned := v :: out.cloned }

/-- `clone`. The record goes on in the copy. -/
def copy : Res (Deque α) :=
  let out : Deque α := { empty with cloned := d.cloned, gone := d.gone }
  if d.cap = 0 then .ok out
  else
    Res.forFrom (d.cloneTurn clone) 0 d.len { out with data := Cells.vacant d.cap, cap := d.cap, len := d.len }

end Deque

/-- A borrow of a `Deque`, and the place of the next element. -/
structure DequeIter (α : Type) where
  deque : Deque α
  i : ℕ

namespace DequeIter

variable {α : Type} (clone : ℕ → α → α)

/-- `d.iter()` -/
def iter (d : Deque α) : DequeIter α := ⟨d, 0⟩

/-- `next`. The clones of a loop come after each other. -/
def next (s : DequeIter α) : Res (Option α × DequeIter α) :=
  if s.deque.len ≤ s.i then .ok (none, s)
  else do
    let idx ← s.deque.slot s.i
    let x ← s.deque.data.peek idx
    pure (some (clone (s.deque.cloned.length + s.i) x), { s with i := s.i + 1 })

/-- What `for x in d` goes over. -/
def collect : ℕ → DequeIter α → Res (List α)
  | 0, _ => .stuck
  | fuel + 1, s => do
    let (x, s) ← s.next clone
    match x with
    | none => pure []
    | some x => do
      let l ← collect fuel s
      pure (x :: l)

end DequeIter

end LsLang.Core
