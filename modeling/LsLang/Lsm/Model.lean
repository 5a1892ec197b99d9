import LsLang.Core.StrNum

/-! The `.lsm` models of `model.lsm`: declarations, bindings, and what `validate` asks of them. -/

namespace LsLang.Lsm

open LsLang.Core

inductive DeclKind
  | input
  | output
  | param
  | group
  deriving DecidableEq

structure Decl where
  kind : DeclKind
  name : Str
  dims : List ℤ
  members : List Str
  deriving DecidableEq

structure Op where
  dst : Str
  kind : Str
  ins : List Str
  attrKeys : List Str
  attrVals : List Str
  dims : List ℤ
  deriving DecidableEq

instance : Inhabited Op := ⟨⟨[], [], [], [], [], []⟩⟩

structure LsModel where
  decls : List Decl
  ops : List Op
  deriving DecidableEq

/-! The names of the ops. -/

namespace Kind

def gemm : Str := lit ['g', 'e', 'm', 'm']
def matmul : Str := lit ['m', 'a', 't', 'm', 'u', 'l']
def conv1d : Str := lit ['c', 'o', 'n', 'v', '1', 'd']
def conv2d : Str := lit ['c', 'o', 'n', 'v', '2', 'd']
def batchnorm : Str := lit ['b', 'a', 't', 'c', 'h', 'n', 'o', 'r', 'm']
def relu : Str := lit ['r', 'e', 'l', 'u']
def sigmoid : Str := lit ['s', 'i', 'g', 'm', 'o', 'i', 'd']
def tanh : Str := lit ['t', 'a', 'n', 'h']
def silu : Str := lit ['s', 'i', 'l', 'u']
def gelu : Str := lit ['g', 'e', 'l', 'u']
def leakyrelu : Str := lit ['l', 'e', 'a', 'k', 'y', 'r', 'e', 'l', 'u']
def add : Str := lit ['a', 'd', 'd']
def sub : Str := lit ['s', 'u', 'b']
def mul : Str := lit ['m', 'u', 'l']
def div : Str := lit ['d', 'i', 'v']
def reshape : Str := lit ['r', 'e', 's', 'h', 'a', 'p', 'e']
def transpose : Str := lit ['t', 'r', 'a', 'n', 's', 'p', 'o', 's', 'e']
def concat : Str := lit ['c', 'o', 'n', 'c', 'a', 't']
def softmax : Str := lit ['s', 'o', 'f', 't', 'm', 'a', 'x']
def layernorm : Str := lit ['l', 'a', 'y', 'e', 'r', 'n', 'o', 'r', 'm']
def pool : Str := lit ['p', 'o', 'o', 'l']
def maxpool : Str := lit ['m', 'a', 'x', 'p', 'o', 'o', 'l']
def avgpool : Str := lit ['a', 'v', 'g', 'p', 'o', 'o', 'l']
def gap : Str := lit ['g', 'a', 'p']
def clip : Str := lit ['c', 'l', 'i', 'p']
def erf : Str := lit ['e', 'r', 'f']
def attention : Str := lit ['a', 't', 't', 'e', 'n', 't', 'i', 'o', 'n']
def split : Str := lit ['s', 'p', 'l', 'i', 't']
def slice : Str := lit ['s', 'l', 'i', 'c', 'e']
def gather : Str := lit ['g', 'a', 't', 'h', 'e', 'r']
def cast : Str := lit ['c', 'a', 's', 't']
def pow : Str := lit ['p', 'o', 'w']
def reducemean : Str := lit ['r', 'e', 'd', 'u', 'c', 'e', 'm', 'e', 'a', 'n']
def embedding : Str := lit ['e', 'm', 'b', 'e', 'd', 'd', 'i', 'n', 'g']

end Kind

open Kind in
def isKnownOp (k : Str) : Bool :=
  k ∈ [gemm, matmul, conv1d, conv2d, batchnorm, relu, sigmoid, tanh, silu, gelu, leakyrelu, add, sub,
    mul, div, reshape, transpose, concat, softmax, layernorm, pool, maxpool, avgpool, gap, clip, erf,
    attention, split, slice, gather, cast, pow, reducemean, embedding]

def nameIn (names : List Str) (name : Str) : Bool := names.any (· = name)

/-- The first row of a name, from `i` on, or −1. -/
def svgFindRow (names : List Str) (nm : Str) (i : ℤ) : ℤ :=
  match names with
  | [] => -1
  | e :: rest => if e = nm then i else svgFindRow rest nm (i + 1)

/-! What `validate` says. -/

def quoted (name : Str) : Str := 39 :: name ++ [39]

def duplicateDefinition (name : Str) : Str :=
  lit ['d', 'u', 'p', 'l', 'i', 'c', 'a', 't', 'e', ' ', 'd', 'e', 'f', 'i', 'n', 'i', 't', 'i', 'o', 'n',
    ' '] ++ quoted name

def dynamicDim : Str :=
  lit ['d', 'y', 'n', 'a', 'm', 'i', 'c', ' ', 'd', 'i', 'm', ' '] ++ quoted (lit ['?']) ++
    lit [' ', 'o', 'n', 'l', 'y', ' ', 'a', 'l', 'l', 'o', 'w', 'e', 'd', ' ', 'a', 't', ' ', 'b', 'a',
      't', 'c', 'h', ' ', 'p', 'o', 's', 'i', 't', 'i', 'o', 'n', ' ', '(', 'd', 'i', 'm', ' ', '0', ')']

def unknownOp (kind : Str) : Str :=
  lit ['u', 'n', 'k', 'n', 'o', 'w', 'n', ' ', 'o', 'p', ' '] ++ quoted kind

def undefinedReference (name dst : Str) : Str :=
  lit ['u', 'n', 'd', 'e', 'f', 'i', 'n', 'e', 'd', ' ', 'r', 'e', 'f', 'e', 'r', 'e', 'n', 'c', 'e',
    ' '] ++ quoted name ++ lit [' ', 'i', 'n', ' ', 'o', 'p', ' '] ++ quoted dst

def neverProduced (name : Str) : Str :=
  lit ['o', 'u', 't', 'p', 'u', 't', ' '] ++ quoted name ++
    lit [' ', 'i', 's', ' ', 'n', 'e', 'v', 'e', 'r', ' ', 'p', 'r', 'o', 'd', 'u', 'c', 'e', 'd']

def checkDims : List ℤ → ℕ → Except Str Unit
  | [], _ => .ok ()
  | d :: rest, i => if d < 0 ∧ i ≠ 0 then .error dynamicDim else checkDims rest (i + 1)

def define (defined : List Str) (name : Str) : Except Str (List Str) :=
  if nameIn defined name then .error (duplicateDefinition name) else .ok (defined ++ [name])

def validateDecl (defined : List Str) (d : Decl) : Except Str (List Str) :=
  match d.kind with
  | .group => do
    let defined ← d.members.foldlM define defined
    define defined d.name
  | .input | .param => do
    let defined' ← define defined d.name
    checkDims d.dims 0
    pure defined'
  | .output => pure defined

def validateOp (defined : List Str) (o : Op) : Except Str (List Str) :=
  if !isKnownOp o.kind then .error (unknownOp o.kind)
  else do
    o.ins.forM fun name =>
      if !nameIn defined name then .error (undefinedReference name o.dst) else .ok ()
    let defined' ← define defined o.dst
    checkDims o.dims 0
    pure defined'

def validateOut (defined : List Str) (d : Decl) : Except Str Unit :=
  if d.kind = .output ∧ !nameIn defined d.name then .error (neverProduced d.name) else .ok ()

def validate (m : LsModel) : Except Str Unit := do
  let defined ← m.decls.foldlM validateDecl []
  let defined ← m.ops.foldlM validateOp defined
  m.decls.forM (validateOut defined)

/-! Dimensions. A dynamic one counts as one. -/

def static (x : ℤ) : ℤ := if x < 0 then 1 else x

def dimsProd (d : List ℤ) : ℤ := d.foldl (fun p x => i32 (p * static x)) 1

def dimsLast (d : List ℤ) : ℤ := (d.getLast?.map static).getD 1

def dimsFirst (d : List ℤ) : ℤ := (d.head?.map static).getD 1

def findDims (m : LsModel) (name : Str) : List ℤ :=
  match m.decls.find? fun d => d.name = name ∨ d.kind = .group ∧ name ∈ d.members with
  | some d => d.dims
  | none => match m.ops.find? fun o => o.dst = name with
    | some o => o.dims
    | none => []

def nameIsParam (m : LsModel) (nm : Str) : Bool :=
  m.decls.any fun d => match d.kind with
    | .param => d.name = nm
    | .group => d.members.any (· = nm)
    | _ => false

def opAttrInt (o : Op) (key : Str) (dflt : ℤ) : Option ℤ :=
  match o.attrKeys.findIdx? (· = key) with
  | some a => o.attrVals[a]?.bind fun v => v.toInt.toOption.map Int32.toInt
  | none => some dflt

/-! The liveness planner of `model.lsm`, and the live ranges that it is to keep apart. -/

/-- The floats an output takes up, a multiple of 16. -/
def needOf (o : Op) : ℤ := i32 ((i32 (dimsProd o.dims + 15)).tdiv 16 * 16)

def outNames (m : LsModel) : List Str := (m.decls.filter (·.kind = .output)).map (·.name)

/-- Op `j` reads these. -/
def noteReads (dname : List Str) (j : ℕ) (ins : List Str) (lastuse : List ℕ) : List ℕ :=
  ins.foldl (fun lastuse inm =>
    let bi := svgFindRow dname inm 0
    if bi ≥ 0 ∧ lastuse.getD bi.toNat 0 < j then lastuse.set bi.toNat j else lastuse) lastuse

/-- The last op that reads each output, the number of all ops for a declared output. -/
def lastUses (m : LsModel) : List ℕ :=
  let dname := m.ops.map (·.dst)
  let lastuse := m.ops.zipIdx.foldl (fun lastuse x => noteReads dname x.2 x.1.ins lastuse)
    (List.range m.ops.length)
  (dname.zip lastuse).map fun x => if nameIn (outNames m) x.1 then m.ops.length else x.2

section Order

variable (need : List ℤ) (lastuse : List ℕ)

def lessThan (a b : ℕ) : Bool :=
  if need.getD a 0 < need.getD b 0 then true
  else if need.getD a 0 = need.getD b 0 then
    decide ((lastuse.getD a 0 : ℤ) - a < (lastuse.getD b 0 : ℤ) - b)
  else false

/-- Insertion of `cur`, with everything in front of position `sj` still to compare. -/
def sink (cur : ℕ) : ℕ → List ℕ → List ℕ
  | 0, order => order.set 0 cur
  | sj + 1, order =>
    let o0 := order.getD sj 0
    if lessThan need lastuse o0 cur then sink cur sj (order.set (sj + 1) o0)
    else order.set (sj + 1) cur

def sizeOrder (n : ℕ) : List ℕ :=
  (List.range' 1 (n - 1)).foldl
    (fun order si => sink need lastuse (order.getD si 0) si order) (List.range n)

end Order

def bump (need : ℤ) (s : ℤ × Bool) (iv : ℤ × ℤ) : ℤ × Bool :=
  if s.1 < iv.2 ∧ iv.1 < i32 (s.1 + need) then (if iv.2 > s.1 then iv.2 else s.1, true) else s

/-- `while changed`, for as many passes. -/
def findPlace (need : ℤ) (ivs : List (ℤ × ℤ)) : ℕ → ℤ → Option ℤ
  | 0, _ => none
  | passes + 1, place =>
    let (place, changed) := ivs.foldl (bump need) (place, false)
    if changed then findPlace need ivs passes place else some place

/-- What is placed and is in use when `b` is. -/
def intervals (need : List ℤ) (lastuse : List ℕ) (offset : List ℤ) (b : ℕ) : List (ℤ × ℤ) :=
  ((List.range offset.length).filter fun p =>
    offset.getD p 0 ≥ 0 ∧ p ≤ lastuse.getD b 0 ∧ b ≤ lastuse.getD p 0).map fun p =>
      (offset.getD p 0, i32 (offset.getD p 0 + need.getD p 0))

def placeOne (need : List ℤ) (lastuse : List ℕ) (passes : ℕ) (s : List ℤ × ℤ) (b : ℕ) :
    Option (List ℤ × ℤ) := do
  let place ← findPlace (need.getD b 0) (intervals need lastuse s.1 b) passes 0
  let top := i32 (place + need.getD b 0)
  pure (s.1.set b place, if top > s.2 then top else s.2)

/-- The offsets and the peak. Only the passes of `findPlace` are counted: all other loops are bounded. -/
def assignPoolSlots (passes : ℕ) (m : LsModel) : Option (List ℤ × ℤ) :=
  let need := m.ops.map needOf
  let lastuse := lastUses m
  (sizeOrder need lastuse m.ops.length).foldlM (placeOne need lastuse passes)
    (List.replicate m.ops.length (-1), 0)

/-! What the planner is for. -/

/-- The elements of a shape. -/
def elements (dims : List ℤ) : ℤ := (dims.map static).prod

/-- The elements of an output, filled up to a multiple of 16. -/
def padded (o : Op) : ℤ := (elements o.dims + 15) / 16 * 16

section LiveRanges

variable (m : LsModel)

def LsModel.op (k : ℕ) : Op := m.ops.getD k default

/-- Op `j` reads the output of op `b`. -/
def ReadsOutput (j b : ℕ) : Prop := j < m.ops.length ∧ (m.op b).dst ∈ (m.op j).ins

/-- The output of op `b` is made there and is in use until the last op that reads it, or to the end if
the model declares it as an output. -/
def LiveAt (b t : ℕ) : Prop :=
  b ≤ t ∧ (t = b ∨ (∃ j, t ≤ j ∧ ReadsOutput m j b) ∨
    t ≤ m.ops.length ∧ (m.op b).dst ∈ outNames m)

end LiveRanges

end LsLang.Lsm
