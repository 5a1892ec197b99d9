import LsLang.Core.Growth
import LsLang.Lib.Cells
import LsLang.Lib.RowMajor

/-! `Tensor(T)` of `std.sci.tensor`. The ints that count elements or measure offsets are not negative. A load from
outside of a buffer has no meaning, and neither has a second store where the source stores once. -/

namespace LsLang.Sci

open LsLang.Core LsLang.Lib LsLang.Undefined LsLang.Undefined.Res

structure Tensor (T : Type) where
  data : List T
  shape : List ℕ
  strides : List ℕ
  size : ℕ

section Ints

/-- An `int` that is not negative. -/
def asCount (n : ℕ) : Res ℕ := if n < 2 ^ 31 then .ok n else .stuck

/-- `get!`, and a load through a pointer. -/
def load {α : Type} (xs : List α) (k : ℕ) : Res α :=
  match xs[k]? with
  | some x => .ok x
  | none => .stuck

/-- `set` of a `Vec`, which aborts outside of it. -/
def setAt {α : Type} (xs : List α) (k : ℕ) (x : α) : Res (List α) :=
  if k < xs.length then .ok (xs.set k x) else .fail

def overwrite {α : Type} (p : Cells α) (k : ℕ) (x : α) : Res (Cells α) :=
  if k < p.length then .ok (p.set k (some x)) else .stuck

/-- `off = off + idx * w` -/
def addOffset (w idx off : ℕ) : Res ℕ := do
  let x ← asCount (idx * w)
  asCount (off + x)

end Ints

section Setup

/-- `r` pushes of 0. -/
def zeros (r : ℕ) : Res (List ℕ) := forFrom (fun _ st => vecPush 0 st) 0 r []

def countOf (shape : List ℕ) : Res ℕ :=
  forFrom (fun k n => do
    let d ← load shape k
    asCount (n * d)) 0 shape.length 1

def stridesOf (shape st : List ℕ) : Res (List ℕ × ℕ) :=
  forDown (fun q (st, acc) => do
    let st ← setAt st q acc
    let d ← load shape q
    let acc ← asCount (acc * d)
    pure (st, acc)) 0 shape.length (st, 1)

/-- `_setup` of an empty tensor. -/
def setup {T : Type} (shape : List ℕ) : Res (Tensor T) := do
  let n ← countOf shape
  let st ← zeros shape.length
  let (st, _) ← stridesOf shape st
  pure { data := [], shape, strides := st, size := n }

/-- The inner loop of the operations: a flat offset is taken apart by division and remainder, from the last axis on, and
`add` sees every coordinate. -/
def decode {σ : Type} (dims : List ℕ) (add : ℕ → ℕ → σ → Res σ) (i : ℕ) (s : σ) : Res σ := do
  let (_, s) ← forDown (fun k (rem, s) => do
    let d ← load dims k
    if d = 0 then .stuck
    else do
      let s ← add k (rem % d) s
      pure (rem / d, s)) 0 dims.length (i, s)
  pure s

end Setup

section Broadcast

structure BCast where
  shape : List ℕ
  sa : List ℕ
  sb : List ℕ
  size : ℕ

variable {T : Type} (a b : Tensor T)

/-- The state of the loop of `_bcast_plan`. -/
structure PlanState where
  ax : ℤ
  bx : ℤ
  osh : List ℕ
  sa : List ℕ
  sb : List ℕ

def axisOf (t : Tensor T) (ax : ℤ) : Res (ℕ × ℕ) :=
  if 0 ≤ ax then do
    let d ← load t.shape ax.toNat
    let str ← load t.strides ax.toNat
    pure (d, str)
  else pure (1, 0)

/-- `dr` -/
def resultDim (da db : ℕ) : Res ℕ :=
  if da ≠ db then
    if da = 1 then .ok db
    else if db = 1 then .ok da
    else .fail
  else .ok da

def planAxis (rk : ℕ) (s : PlanState) : Res PlanState := do
  let (da, stra) ← axisOf a s.ax
  let (db, strb) ← axisOf b s.bx
  let dr ← resultDim da db
  let osh ← setAt s.osh rk dr
  let sa ← setAt s.sa rk (if da = 1 then 0 else stra)
  let sb ← setAt s.sb rk (if db = 1 then 0 else strb)
  pure ⟨s.ax - 1, s.bx - 1, osh, sa, sb⟩

/-- `_bcast_plan` -/
def bcastPlan : Res BCast := do
  let rr := max a.shape.length b.shape.length
  let osh ← zeros rr
  let sa ← zeros rr
  let sb ← zeros rr
  let s ← forDown (planAxis a b) 0 rr ⟨a.shape.length - 1, b.shape.length - 1, osh, sa, sb⟩
  let size ← countOf s.osh
  pure ⟨s.osh, s.sa, s.sb, size⟩

variable [Zero T] [Add T] [Sub T] [Mul T] [Div T]

def opOf (opcode : ℤ) (av bv : T) : T :=
  if opcode = 0 then av + bv
  else if opcode = 1 then av - bv
  else if opcode = 2 then av * bv
  else if opcode = 3 then av / bv
  else 0

def bcastOffsets (bc : BCast) (i : ℕ) : Res (ℕ × ℕ) :=
  decode bc.shape (fun k idx (oa, ob) => do
    let wa ← load bc.sa k
    let oa ← addOffset wa idx oa
    let wb ← load bc.sb k
    let ob ← addOffset wb idx ob
    pure (oa, ob)) i (0, 0)

def bcastSlot (bc : BCast) (opcode : ℤ) (i : ℕ) (p : Cells T) : Res (Cells T) := do
  let (oa, ob) ← bcastOffsets bc i
  let av ← load a.data oa
  let bv ← load b.data ob
  p.store i (opOf opcode av bv)

/-- `_bcast`. A slot that is never written holds no element in the end. -/
def bcast (opcode : ℤ) : Res (Tensor T) := do
  let bc ← bcastPlan a b
  let out : Tensor T ← setup bc.shape
  let p ← forFrom (bcastSlot a b bc opcode) 0 out.size (Cells.vacant out.size)
  pure { out with data := p.elems }

end Broadcast

section Axes

variable {T : Type} (t : Tensor T)

def dropAxis (shape : List ℕ) (axis : ℕ) : Res (List ℕ) :=
  forFrom (fun k osh =>
    if k ≠ axis then do
      let d ← load shape k
      vecPush d osh
    else pure osh) 0 shape.length []

/-- The slot of `out` that the element at `i` belongs to. -/
def outflat (out : Tensor T) (axis i : ℕ) : Res ℕ :=
  decode t.shape (fun kk idx off =>
    if kk ≠ axis then do
      let oaxis := if kk > axis then kk - 1 else kk
      let w ← load out.strides oaxis
      addOffset w idx off
    else pure off) i 0

section Sum

variable [Zero T] [Add T]

def sumSlot (out : Tensor T) (axis i : ℕ) (p : Cells T) : Res (Cells T) := do
  let o ← outflat t out axis i
  let acc ← p.peek o
  let v ← load t.data i
  overwrite p o (acc + v)

def sumAxis (axis : ℤ) : Res (Tensor T) :=
  if axis < 0 ∨ t.shape.length ≤ axis then .fail
  else do
    let osh ← dropAxis t.shape axis.toNat
    let out : Tensor T ← setup osh
    let p ← forFrom (fun zz p => p.store zz 0) 0 out.size (Cells.vacant out.size)
    let p ← forFrom (sumSlot t out axis.toNat) 0 t.size p
    pure { out with data := p.elems }

end Sum

section Max

variable [Zero T] [LT T] [DecidableLT T]

/-- The state of the loop of `max_axis`. -/
structure MaxState (T : Type) where
  seen : List Bool
  p : Cells T

def maxSlot (out : Tensor T) (axis i : ℕ) (s : MaxState T) : Res (MaxState T) := do
  let o ← outflat t out axis i
  let v ← load t.data i
  let seen ← load s.seen o
  if seen then do
    let m ← s.p.peek o
    if v > m then do
      let p ← overwrite s.p o v
      pure { s with p }
    else pure s
  else do
    let p ← overwrite s.p o v
    pure ⟨s.seen.set o true, p⟩

def maxAxis (axis : ℤ) : Res (Tensor T) :=
  if axis < 0 ∨ t.shape.length ≤ axis then .fail
  else do
    let osh ← dropAxis t.shape axis.toNat
    let out : Tensor T ← setup osh
    let s ← forFrom (fun zz (s : MaxState T) => do
      let seen ← vecPush false s.seen
      let p ← s.p.store zz 0
      pure ⟨seen, p⟩) 0 out.size ⟨[], Cells.vacant out.size⟩
    let s ← forFrom (maxSlot t out axis.toNat) 0 t.size s
    pure { out with data := s.p.elems }

end Max

def sliceShape (shape : List ℕ) (axis len : ℕ) : Res (List ℕ) :=
  forFrom (fun k osh =>
    if k = axis then vecPush len osh
    else do
      let d ← load shape k
      vecPush d osh) 0 shape.length []

/-- `inoff` -/
def sliceOffset (osh : List ℕ) (axis lo i : ℕ) : Res ℕ :=
  decode osh (fun kk idx off => do
    let incoord ← asCount (if kk = axis then idx + lo else idx)
    let w ← load t.strides kk
    addOffset w incoord off) i 0

def sliceSlot (osh : List ℕ) (axis lo i : ℕ) (p : Cells T) : Res (Cells T) := do
  let off ← sliceOffset t osh axis lo i
  let v ← load t.data off
  p.store i v

def slice (axis lo hi : ℤ) : Res (Tensor T) :=
  if axis < 0 ∨ t.shape.length ≤ axis then .fail
  else do
    let alen ← load t.shape axis.toNat
    if lo < 0 ∨ (alen : ℤ) < hi ∨ hi ≤ lo then .fail
    else do
      let osh ← sliceShape t.shape axis.toNat (hi - lo).toNat
      let out : Tensor T ← setup osh
      let p ← forFrom (sliceSlot t osh axis.toNat lo.toNat) 0 out.size (Cells.vacant out.size)
      pure { out with data := p.elems }

end Axes

section Matrices

variable {T : Type} (t : Tensor T)

/-- `_ckdim` -/
def ckdim (k i : ℕ) : Res Unit := do
  let d ← load t.shape k
  if i ≥ d then .fail else pure ()

/-- `i * s0 + j * s1` -/
def offset2 (s0 s1 i j : ℕ) : Res ℕ := do
  let x ← asCount (i * s0)
  let y ← asCount (j * s1)
  asCount (x + y)

def at2 (i j : ℕ) : Res T := do
  ckdim t 0 i
  ckdim t 1 j
  let s0 ← load t.strides 0
  let s1 ← load t.strides 1
  let off ← offset2 s0 s1 i j
  load t.data off

def transposeSlot (m i j : ℕ) (p : Cells T) : Res (Cells T) := do
  let v ← at2 t i j
  let x ← asCount (j * m)
  let o ← asCount (x + i)
  p.store o v

def transpose : Res (Tensor T) :=
  if t.shape.length ≠ 2 then .fail
  else do
    let m ← load t.shape 0
    let nn ← load t.shape 1
    let out : Tensor T ← setup [nn, m]
    let p ← forFrom (fun i => forFrom (transposeSlot t m i) 0 nn) 0 m (Cells.vacant out.size)
    pure { out with data := p.elems }

variable (o : Tensor T) [Zero T] [Add T] [Mul T]

/-- The strides that `matmul` reads first. -/
structure MatStrides where
  sa0 : ℕ
  sa1 : ℕ
  sb0 : ℕ
  sb1 : ℕ

/-- One more product of row `r` and column `cc`. -/
def matTerm (s : MatStrides) (r cc k : ℕ) (acc : T) : Res T := do
  let oa ← offset2 s.sa0 s.sa1 r k
  let av ← load t.data oa
  let ob ← offset2 s.sb0 s.sb1 k cc
  let bv ← load o.data ob
  pure (acc + av * bv)

def matSlot (s : MatStrides) (k nn r cc : ℕ) (p : Cells T) : Res (Cells T) := do
  let acc ← forFrom (matTerm t o s r cc) 0 k 0
  let x ← asCount (r * nn)
  let f ← asCount (x + cc)
  p.store f acc

def matmul : Res (Tensor T) :=
  if t.shape.length ≠ 2 ∨ o.shape.length ≠ 2 then .fail
  else do
    let m ← load t.shape 0
    let k ← load t.shape 1
    let k2 ← load o.shape 0
    let nn ← load o.shape 1
    if k ≠ k2 then .fail
    else do
      let sa0 ← load t.strides 0
      let sa1 ← load t.strides 1
      let sb0 ← load o.strides 0
      let sb1 ← load o.strides 1
      let out : Tensor T ← setup [m, nn]
      let p ← forFrom (fun r => forFrom (matSlot t o ⟨sa0, sa1, sb0, sb1⟩ k nn r) 0 nn) 0 m (Cells.vacant out.size)
      pure { out with data := p.elems }

end Matrices

end LsLang.Sci
