import LsLang.Lsm.Model
import LsLang.Lsm.Placement

/-! The program that `build_forward_transformer` emits, as far as it concerns the activation pool: where
each output is taken from the pool and what writes it. -/

namespace LsLang.Lsm

open LsLang.Core

/-- The kernels of `std.sci.nn`, and the two loops that the program brings along, with the arguments that
say how much they write. -/
inductive Kernel
  | sgemm (M N K : ℤ)
  | biasAddRows (M N : ℤ)
  | transpose (rows cols : ℤ)
  | vcopy (n : ℤ)
  | softmaxRows (rows cols : ℤ)
  | layernormRows (rows cols : ℤ)
  | geluInplace (n : ℤ)
  | reluInplace (n : ℤ)
  | addInplace (n : ℤ)
  | conv2dDirect (Cin Cout H W Kh Kw pad : ℤ)
  | gap (C H W : ℤ)
  | avgpool2d (C H W k s : ℤ)
  | maxpool2d (C H W k s : ℤ)
  deriving DecidableEq

/-- One side of a convolution's output, `side + 2 * pad - kernel + 1`. -/
def convSide (side pad kernel : ℤ) : ℤ := i32 (side + 2 * pad - kernel + 1)

def poolSide (side k s : ℤ) : ℤ := i32 ((i32 (side - k)).tdiv s + 1)

/-- The elements from the start of its output that a kernel writes. A loop to a negative bound does
nothing. -/
def Kernel.extent : Kernel → ℤ
  | .sgemm M N _ => M.toNat * N.toNat
  | .biasAddRows M N => M.toNat * N.toNat
  | .transpose rows cols => rows.toNat * cols.toNat
  | .vcopy n => n.toNat
  | .softmaxRows rows cols => rows.toNat * cols.toNat
  | .layernormRows rows cols => rows.toNat * cols.toNat
  | .geluInplace n => n.toNat
  | .reluInplace n => n.toNat
  | .addInplace n => n.toNat
  | .conv2dDirect _ Cout H W Kh Kw pad =>
    Cout.toNat * (convSide H pad Kh).toNat * (convSide W pad Kw).toNat
  | .gap C _ _ => C.toNat
  | .avgpool2d C H W k s => C.toNat * (poolSide H k s).toNat * (poolSide W k s).toNat
  | .maxpool2d C H W k s => C.toNat * (poolSide H k s).toNat * (poolSide W k s).toNat

/-- `*f32 dst = pool.at(off, n)`, and a kernel that writes `dst` from its sources. -/
inductive Stmt
  | poolAt (dst : Str) (off n : ℤ)
  | call (fn : Kernel) (dst : Str) (srcs : List Str)
  deriving DecidableEq

section Ops

variable (m : LsModel) (o : Op)

def suffixed (s : List Char) : Str := o.dst ++ lit ('_' :: s)

/-- The calls of each kind of op, none where the emitter aborts: an input, a dimension or a number that is
not there, or no heads. The buffers of an attention that are not its output do not come from the pool. -/
def opCalls : Option (List (Kernel × List Str)) :=
  let outE := dimsProd o.dims
  let M := dimsFirst o.dims
  let Ncol := dimsLast o.dims
  if o.kind = Kind.matmul then do
    let in0 ← o.ins[0]?
    let in1 ← o.ins[1]?
    let K := dimsLast (findDims m in0)
    let Bbuf := if nameIsParam m in1 then suffixed o ['W'] else in1
    pure [(.sgemm M Ncol K, [in0, Bbuf])]
  else if o.kind = Kind.gemm then do
    let in0 ← o.ins[0]?
    let _wnm ← o.ins[1]?
    let K := dimsLast (findDims m in0)
    pure ((.sgemm M Ncol K, [in0, suffixed o ['W']]) ::
      if o.ins.length ≥ 3 then [(.biasAddRows M Ncol, [suffixed o ['b']])] else [])
  else if o.kind = Kind.transpose then do
    let in0 ← o.ins[0]?
    let ad := findDims m in0
    pure [(.transpose (dimsFirst ad) (dimsLast ad), [in0])]
  else if o.kind = Kind.softmax then do
    let in0 ← o.ins[0]?
    let ad := findDims m in0
    pure [(.vcopy outE, [in0]), (.softmaxRows (dimsFirst ad) (dimsLast ad), [])]
  else if o.kind = Kind.layernorm then do
    let in0 ← o.ins[0]?
    let _gnm ← o.ins[1]?
    let _bnm ← o.ins[2]?
    let ad := findDims m in0
    pure [(.vcopy outE, [in0]),
      (.layernormRows (dimsFirst ad) (dimsLast ad), [suffixed o ['g'], suffixed o ['b', 'e']])]
  else if o.kind = Kind.gelu then do
    let in0 ← o.ins[0]?
    pure [(.vcopy outE, [in0]), (.geluInplace outE, [])]
  else if o.kind = Kind.relu then do
    let in0 ← o.ins[0]?
    pure [(.vcopy outE, [in0]), (.reluInplace outE, [])]
  else if o.kind = Kind.add then do
    let in0 ← o.ins[0]?
    let in1 ← o.ins[1]?
    pure [(.vcopy outE, [in0]), (.addInplace outE, [in1])]
  else if o.kind = Kind.attention then do
    let _xin ← o.ins[0]?
    let _wo ← o.ins[4]?
    let H ← opAttrInt o (lit ['h', 'e', 'a', 'd', 's']) 1
    if H = 0 then none
    else pure [(.sgemm M Ncol Ncol, [suffixed o ['c', 't', 'x'], suffixed o ['W', 'o']])]
  else if o.kind = Kind.conv2d then do
    let xin ← o.ins[0]?
    let wnm ← o.ins[1]?
    let _bnm ← o.ins[2]?
    let cpad ← opAttrInt o (lit ['p', 'a', 'd']) 0
    let xd := findDims m xin
    let Cin ← xd[0]?
    let Hh ← xd[1]?
    let Ww ← xd[2]?
    let wd := findDims m wnm
    let Cout ← wd[0]?
    let Kh ← wd[2]?
    let Kw ← wd[3]?
    pure [(.conv2dDirect Cin Cout Hh Ww Kh Kw cpad,
      [xin, suffixed o ['W'], suffixed o ['b'], suffixed o ['p', 'b']])]
  else if o.kind = Kind.gap then do
    let xin ← o.ins[0]?
    let xd := findDims m xin
    let C ← xd[0]?
    let Hh ← xd[1]?
    let Ww ← xd[2]?
    pure [(.gap C Hh Ww, [xin])]
  else if o.kind = Kind.maxpool ∨ o.kind = Kind.avgpool ∨ o.kind = Kind.pool then do
    let xin ← o.ins[0]?
    let pk ← opAttrInt o (lit ['k', 'e', 'r', 'n', 'e', 'l']) 2
    let ps ← opAttrInt o (lit ['s', 't', 'r', 'i', 'd', 'e']) pk
    let xd := findDims m xin
    let C ← xd[0]?
    let Hh ← xd[1]?
    let Ww ← xd[2]?
    if o.kind = Kind.avgpool then pure [(.avgpool2d C Hh Ww pk ps, [xin])]
    else pure [(.maxpool2d C Hh Ww pk ps, [xin])]
  else if o.kind = Kind.reshape then do
    let xin ← o.ins[0]?
    pure [(.vcopy outE, [xin])]
  else some []

def emitOp (off : ℤ) : Option (List Stmt) := do
  let calls ← opCalls m o
  if calls = [] then pure []
  else pure (.poolAt o.dst off (dimsProd o.dims) :: calls.map fun x => .call x.1 o.dst x.2)

end Ops

/-- The floats that the pool reserves, and the statements of each op. -/
structure Program where
  reserve : ℤ
  ops : List (List Stmt)
  deriving DecidableEq

def buildForwardTransformer (passes : ℕ) (m : LsModel) : Option Program := do
  let (offsets, pk) ← assignPoolSlots passes m
  let ops ← (m.ops.zip offsets).mapM fun x => emitOp m x.1 x.2
  pure ⟨i32 (pk + 16), ops⟩

/-! A run of the program. What a kernel computes is left open, where it writes is not. -/

section Runs

variable {V : Type}

/-- The variables that point into the pool, and its floats. -/
structure State (V : Type) where
  env : Str → Option ℤ
  mem : ℤ → V

/-- `pool.at` aborts when the range ends behind what is reserved. -/
inductive Exec (reserve : ℤ) : State V → Stmt → State V → Prop
  | poolAt (s : State V) (dst : Str) (off n : ℤ) (h : off + n ≤ reserve) :
    Exec reserve s (.poolAt dst off n) { s with env := fun x => if x = dst then some off else s.env x }
  | call (s : State V) (fn : Kernel) (dst : Str) (srcs : List Str) (off : ℤ) (mem : ℤ → V)
    (hdst : s.env dst = some off)
    (hmem : ∀ a, a < off ∨ off + fn.extent ≤ a → mem a = s.mem a) :
    Exec reserve s (.call fn dst srcs) { s with mem }

inductive Runs (reserve : ℤ) : State V → List Stmt → State V → Prop
  | nil (s : State V) : Runs reserve s [] s
  | cons {s s' s'' : State V} {stmt : Stmt} {rest : List Stmt} (h : Exec reserve s stmt s')
    (hrest : Runs reserve s' rest s'') : Runs reserve s (stmt :: rest) s''

/-- The first `n` ops run, one after the other: state `k` is that in front of op `k`. -/
def Program.RunsTo (p : Program) (n : ℕ) (st : ℕ → State V) : Prop :=
  ∀ k < n, Runs p.reserve (st k) (p.ops.getD k []) (st (k + 1))

end Runs

def Program.Fits (p : Program) (m : LsModel) : Prop :=
  ∀ k < m.ops.length, ∀ fn dst srcs, Stmt.call fn dst srcs ∈ p.ops.getD k [] →
    fn.extent ≤ elements (m.op k).dims

/-! What the plan is good for: outputs that are live together are apart, the peak is what they take up, and
the emitted program leaves every value alone that is still to be read. -/

open LsLang.Core LsLang.Lib

section Plan

instance (m : LsModel) (b t : ℕ) : Decidable (LiveAt m b t) :=
  decidable_of_iff (b ≤ t ∧ (t = b ∨
    (∃ j < m.ops.length, t ≤ j ∧ (m.op j).ins.contains (m.op b).dst = true) ∨
    t ≤ m.ops.length ∧ (outNames m).contains (m.op b).dst = true)) (by
      unfold LiveAt ReadsOutput
      grind)

/-- A range of the pool for each output. -/
structure SoundPlan (m : LsModel) (offs : List ℤ) (peak : ℤ) : Prop where
  length : offs.length = m.ops.length
  nonneg : ∀ b < m.ops.length, 0 ≤ offs.getD b 0
  aligned : ∀ b < m.ops.length, 16 ∣ offs.getD b 0
  disjoint : ∀ b < m.ops.length, ∀ p < m.ops.length, b ≠ p →
    (∃ t, LiveAt m b t ∧ LiveAt m p t) →
    Disjoint (Finset.Ico (offs.getD b 0) (offs.getD b 0 + padded (m.op b)))
      (Finset.Ico (offs.getD p 0) (offs.getD p 0 + padded (m.op p)))
  le_peak : ∀ b < m.ops.length, offs.getD b 0 + padded (m.op b) ≤ peak
  peak_attained : m.ops = [] ∧ peak = 0 ∨
    ∃ b < m.ops.length, peak = offs.getD b 0 + padded (m.op b)
  live_le_peak : ∀ t, ∑ b ∈ (Finset.range m.ops.length).filter (LiveAt m · t),
    padded (m.op b) ≤ peak

variable {m : LsModel}

end Plan

section Calls

variable {m : LsModel} {V : Type} {s s' : State V} {reserve off n : ℤ}

theorem Exec.call_inv {fn : Kernel} {dst : Str} {srcs : List Str}
    (h : Exec reserve s (.call fn dst srcs) s') :
    ∃ off, s.env dst = some off ∧ s'.env = s.env ∧
      ∀ a, a < off ∨ off + fn.extent ≤ a → s'.mem a = s.mem a := by
  cases h
  grind

theorem runs_calls {dst : Str} (calls : List (Kernel × List Str)) : ∀ s s' : State V,
    Runs reserve s (calls.map fun x => .call x.1 dst x.2) s' → s.env dst = some off →
    (∀ x ∈ calls, x.1.extent ≤ n) →
    ∀ a, a < off ∨ off + n ≤ a → s'.mem a = s.mem a := by
  induction calls with
  | nil =>
    intro s s' h _ _ a _
    cases h
    rfl
  | cons x calls ih =>
    intro s s' h henv hext a ha
    obtain ⟨hx, hext⟩ := List.forall_mem_cons.1 hext
    cases h with
    | cons h hrest =>
      obtain ⟨off', hdst, henv', hmem⟩ := h.call_inv
      grind

theorem emitOp_cases {o : Op} {stmts : List Stmt} (h : emitOp m o off = some stmts) :
    stmts = [] ∨ ∃ calls : List (Kernel × List Str), stmts = .poolAt o.dst off (dimsProd o.dims) ::
      calls.map fun x : Kernel × List Str => .call x.1 o.dst x.2 := by
  unfold emitOp at h
  obtain ⟨calls, -, h⟩ := Option.bind_eq_some_iff.1 h
  grind

theorem runs_emitOp {o : Op} {stmts : List Stmt} (h : emitOp m o off = some stmts)
    (hfits : ∀ fn dst srcs, Stmt.call fn dst srcs ∈ stmts → fn.extent ≤ n)
    (hrun : Runs reserve s stmts s') (a : ℤ) (ha : a < off ∨ off + n ≤ a) :
    s'.mem a = s.mem a := by
  rcases emitOp_cases h with rfl | ⟨calls, rfl⟩
  · cases hrun
    rfl
  · cases hrun with
    | cons h hrest =>
      cases h
      exact runs_calls calls _ s' hrest (if_pos rfl) (fun x hx => hfits x.1 o.dst x.2
        (List.mem_cons_of_mem _ (List.mem_map_of_mem hx))) a ha

end Calls

section Program

variable {m : LsModel} {offs : List ℤ} {peak : ℤ} {p : Program}

theorem mapM_getD {α β : Type} {f : α → Option β} (l : List α) : ∀ {l' : List β},
    l.mapM f = some l' → ∀ (k : ℕ) (x : α), l[k]? = some x → ∃ y, l'[k]? = some y ∧ f x = some y := by
  induction l with
  | nil => simp
  | cons z l ih =>
    intro l' h k x hk
    rw [List.mapM_cons] at h
    obtain ⟨y, hy, h⟩ := Option.bind_eq_some_iff.1 h
    obtain ⟨ys, hys, h⟩ := Option.bind_eq_some_iff.1 h
    obtain rfl := Option.some.inj h
    cases k with
    | zero =>
      grind
    | succ k => grind

theorem emitted {passes k : ℕ} (hoffs : offs.length = m.ops.length)
    (hplan : assignPoolSlots passes m = some (offs, peak))
    (h : buildForwardTransformer passes m = some p) (hk : k < m.ops.length) :
    emitOp m (m.op k) (offs.getD k 0) = some (p.ops.getD k []) := by
  unfold buildForwardTransformer at h
  rw [hplan] at h
  obtain ⟨plan, heq, h⟩ := Option.bind_eq_some_iff.1 h
  obtain rfl := Option.some.inj heq
  obtain ⟨ops, hops, h⟩ := Option.bind_eq_some_iff.1 h
  obtain rfl := Option.some.inj h
  have hoff : offs[k]? = some (offs.getD k 0) := by grind
  obtain ⟨stmts, hstmts, hemit⟩ := mapM_getD _ hops k (m.op k, offs.getD k 0)
    (List.getElem?_zip_eq_some.2 ⟨op_eq hk, hoff⟩)
  grind

theorem SoundPlan.step {V : Type} {reserve : ℤ} {s s' : State V} {stmts : List Stmt} {b k : ℕ}
    (h : SoundPlan m offs peak) (hb : b < m.ops.length) (hk : k < m.ops.length) (hne : b ≠ k)
    (hlive : LiveAt m b k) (hemit : emitOp m (m.op k) (offs.getD k 0) = some stmts)
    (hfits : ∀ fn dst srcs, Stmt.call fn dst srcs ∈ stmts → fn.extent ≤ elements (m.op k).dims)
    (hrun : Runs reserve s stmts s') (a : ℤ) (hlo : offs.getD b 0 ≤ a)
    (hhi : a < offs.getD b 0 + elements (m.op b).dims) : s'.mem a = s.mem a := by
  have hdisj := h.disjoint b hb k hk hne ⟨k, hlive, le_rfl, .inl rfl⟩
  have hb' := padded_bounds (m.op b)
  have hk' := padded_bounds (m.op k)
  have hout : a < offs.getD k 0 ∨ offs.getD k 0 + padded (m.op k) ≤ a := by
    by_contra hin
    rw [Finset.disjoint_left] at hdisj
    exact hdisj (Finset.mem_Ico.2 ⟨hlo, by omega⟩) (Finset.mem_Ico.2 ⟨by omega, by omega⟩)
  exact runs_emitOp hemit hfits hrun a (by omega)

theorem SoundPlan.run {V : Type} {passes n : ℕ} {st : ℕ → State V} (h : SoundPlan m offs peak)
    (hplan : assignPoolSlots passes m = some (offs, peak))
    (hp : buildForwardTransformer passes m = some p) (hfits : p.Fits m)
    (hn : n ≤ m.ops.length) (hrun : p.RunsTo n st) {b t : ℕ} (hlive : LiveAt m b t) (ht : t < n)
    (a : ℤ) (hlo : offs.getD b 0 ≤ a) (hhi : a < offs.getD b 0 + elements (m.op b).dims) :
    (st (t + 1)).mem a = (st (b + 1)).mem a := by
  induction t with
  | zero =>
    obtain rfl : b = 0 := by have := hlive.1; omega
    rfl
  | succ t ih =>
    by_cases hself : b = t + 1
    · rw [hself]
    have hbt := hlive.1
    have hbefore : LiveAt m b t := by
      refine ⟨by omega, .inr ?_⟩
      rcases hlive.2 with heq | ⟨j, hj, hreads⟩ | ⟨hend, hout⟩
      · omega
      · grind
      grind
    rw [← ih hbefore (by omega)]
    exact h.step (by omega) (by omega) hself hlive (emitted h.length hplan hp (by omega))
      (hfits (t + 1) (by omega)) (hrun (t + 1) ht) a hlo hhi

end Program

end LsLang.Lsm
