import LsLang.Comptime.Eval
import LsLang.Lib.IntWord

/-! The same code at run time: the types that `checker_expr.c` and `checker_stmt.c` give it,
results at the width of their type, and names that live as long as their block. A run may be
watched: it then goes on only as long as the evaluator of constants can follow it. -/

namespace LsLang.Comptime
open LsLang.Core LsLang.Lib LsLang.Types

/-- `type_numeric_common` -/
def common (a b : IntTy) : Option IntTy :=
  match a.1.numericCommon b.1 with
  | none => none
  | some t => if h : t.isFloat = false then some ⟨t, h⟩ else none

inductive OpClass
  | arith | shift | order | equality | logical

def BinaryOp.cls : BinaryOp → OpClass
  | .plus | .minus | .star | .slash | .percent | .amp | .pipe | .caret => .arith
  | .lshift | .rshift => .shift
  | .lt | .gt | .leq | .geq => .order
  | .eq | .neq => .equality
  | .and | .or => .logical

/-- The type of a binary expression (`check_expr_binary`). -/
def BinaryOp.resultTy (op : BinaryOp) (a b : IntTy) : Option IntTy :=
  match op.cls with
  | .arith => common a b
  | .shift => if a.1.isInteger && b.1.isInteger then some a else none
  | .order => if (common a b).isSome then some .bool else none
  | .equality => if a = b ∨ (common a b).isSome then some .bool else none
  | .logical => if a = .bool ∧ b = .bool then some .bool else none

def truth (b : Bool) : Int := if b then 1 else 0

/-- The result of a binary operator before it is brought to a width; `width` is that of the left
operand. -/
def BinaryOp.exact (op : BinaryOp) (width : Nat) (x y : Int) : Option Int :=
  match op with
  | .plus => some (x + y)
  | .minus => some (x - y)
  | .star => some (x * y)
  | .slash => if y = 0 then none else some (x.tdiv y)
  | .percent => if y = 0 then none else some (x.tmod y)
  | .amp => some (Int.land x y)
  | .pipe => some (Int.lor x y)
  | .caret => some (Int.xor x y)
  | .lshift => if 0 ≤ y ∧ y < width then some (x * 2 ^ y.toNat) else none
  | .rshift => if 0 ≤ y ∧ y < width then some (x >>> y.toNat) else none
  | .lt => some (truth (x < y))
  | .gt => some (truth (x > y))
  | .leq => some (truth (x ≤ y))
  | .geq => some (truth (x ≥ y))
  | .eq => some (truth (x = y))
  | .neq => some (truth (x ≠ y))
  | .and => some (truth (x ≠ 0 ∧ y ≠ 0))
  | .or => some (truth (x ≠ 0 ∨ y ≠ 0))

/-- The evaluator's `long long` holds the bits of `v` at the type without a change: it is in
the type's range, or the type is as wide. -/
def Fits (t : IntTy) (v : Int) : Prop := t.1.InRange v ∨ t.1.width = 64

instance (t : IntTy) (v : Int) : Decidable (Fits t v) := by
  unfold Fits
  infer_instance

/-- Both are in the range of `long long`. -/
def InLong (x y : Int) : Prop := FitsWord 64 x ∧ FitsWord 64 y

instance (x y : Int) : Decidable (InLong x y) := by
  unfold InLong
  infer_instance

def ToldApart (x y : Int) : Prop := x = y ∨ InLong x y ∧ roundInt 53 x ≠ roundInt 53 y

instance (x y : Int) : Decidable (ToldApart x y) := by
  unfold ToldApart
  infer_instance

def BinaryOp.Follows (op : BinaryOp) (x y : Int) : Prop :=
  match op with
  | .slash | .percent | .rshift => InLong x y
  | .lt | .gt | .leq | .geq | .eq | .neq => ToldApart x y
  | _ => True

instance (op : BinaryOp) (x y : Int) : Decidable (op.Follows x y) := by
  unfold BinaryOp.Follows
  cases op <;> infer_instance

/-- The value that has the bits of `v` at the type; a watched run stops where the bits of `v`
that are cut off matter. -/
def narrow (watch : Bool) (t : IntTy) (v : Int) : Option Value :=
  if watch = true ∧ ¬Fits t v then none else some (Value.wrap t v)

def rtBinary (watch : Bool) (op : BinaryOp) (a b : Value) : Option Value := do
  let t ← op.resultTy a.ty b.ty
  let v ← op.exact a.ty.1.width a.val b.val
  if watch = true ∧ ¬op.Follows a.val b.val then none else narrow watch t v

/-- The unary operators, with the types that `check_expr` gives them. -/
def rtUnary (watch : Bool) (op : UnaryOp) (a : Value) : Option Value :=
  match op with
  | .minus => if a.ty.1.isInteger then narrow watch a.ty (-a.val) else none
  | .bang => if a.ty = .bool then narrow watch .bool (truth (a.val = 0)) else none
  | .tilde => if a.ty.1.isInteger then narrow watch a.ty (Int.lnot a.val) else none

/-- The left operand decides alone: `false && ..`, `true || ..`. -/
def BinaryOp.decided (op : BinaryOp) (a : Value) : Bool :=
  match op with
  | .and => decide (a.ty = .bool ∧ a.val = 0)
  | .or => decide (a.ty = .bool ∧ a.val ≠ 0)
  | _ => false

def litTy (v : LongLong) (isChar : Bool) : IntTy :=
  if isChar then .char
  else if v.toInt > 2147483647 ∨ v.toInt < -2147483648 then .i64 else .int

abbrev Locals : Type := List (Str × Value)

def rtEval (watch : Bool) (cs : Consts) (σ : Locals) : Expr → Option Value
  | .intLit v isChar => narrow watch (litTy v isChar) v.toInt
  | .boolLit b => narrow watch .bool (truth b)
  | .ident name => (σ.lookup name).or (cs name)
  | .cast e t => do
    let a ← rtEval watch cs σ e
    if a.ty.1.isInteger && t.1.isInteger then narrow watch t a.val else none
  | .unary op e => do
    let a ← rtEval watch cs σ e
    rtUnary watch op a
  | .binary op l r => do
    let a ← rtEval watch cs σ l
    -- `&&` and `||` stop at an operand that decides
    if op.decided a then some a
    else
      let b ← rtEval watch cs σ r
      rtBinary watch op a b

def convert (watch : Bool) (t : IntTy) (a : Value) : Option Value :=
  if t.1.isInteger = a.ty.1.isInteger then narrow watch t a.val else none

/-- The value that a variable starts with; with no type it has that of the value. -/
def initial (watch : Bool) (varType : Option IntTy) (a : Value) : Option Value :=
  match varType with
  | none => some a
  | some t => convert watch t a

/-- A bound of a range as an `int`. -/
def bound (watch : Bool) (a : Value) : Option Value :=
  if a.ty.1.isInteger then narrow watch .int a.val else none

/-- The value that an assignment stores; `cur` is the variable's. -/
def rtAssigned (watch : Bool) (op : AssignOp) (cur rhs : Value) : Option Value := do
  let a ← convert watch cur.ty rhs
  match op.binary with
  | none => some a
  | some b => rtBinary watch b cur a

inductive Flow
  | normal (σ : Locals)
  | returned (v : Value)

def Flow.andThen (f : Flow) (k : Locals → Option Flow) : Option Flow :=
  match f with
  | .normal σ => k σ
  | .returned v => some (.returned v)

def declare (watch : Bool) (name : Str) (v : Value) (σ : Locals) : Option Locals :=
  if watch = true ∧ (σ.lookup name).isSome then none
  else some ((name, v) :: σ)

def namesConst (cs : Consts) (ended : Locals) : Bool := ended.any fun b => (cs b.1).isSome

/-- A block of its own: `run` gets the number of names outside, and those of the block end
with it. A watched run stops where a constant comes into sight again. -/
def inScope (watch : Bool) (cs : Consts) (run : Nat → Locals → Option Flow) (σ : Locals) : Option Flow := do
  let f ← run σ.length σ
  f.andThen fun σ' =>
    if watch = true ∧ namesConst cs (σ'.take (σ'.length - σ.length)) then none
    else some (.normal (unwind σ.length σ'))

/-- The rounds of a `for`. Its variable is the counter, so a body may change it; a watched run
stops there, and where it has the name of a constant and ends. -/
def rtRounds (watch : Bool) (cs : Consts) (body : Locals → Option Flow) (var : Str) (hi : Int) :
    Nat → Value → Locals → Option Flow
  | 0, _, _ => none
  | fuel + 1, i, σ =>
    if i.val < hi then do
      let f ← body ((var, i) :: σ)
      f.andThen fun σ' =>
        match σ' with
        | [] => none
        | b :: σ' =>
          if watch = true ∧ (b.2.val ≠ i.val ∨ namesConst cs [b]) then none
          else rtRounds watch cs body var hi fuel (Value.wrap .int (b.2.val + 1)) σ'
    else some (.normal σ)

mutual

/-- A statement in a block with `base` names outside of it. A `for` runs at most `fuel` rounds. -/
def rtStmt (watch : Bool) (cs : Consts) (fuel : Nat) : Stmt → Nat → Locals → Option Flow
  | .varDecl varType name init, base, σ => do
    let a ← rtEval watch cs σ init
    let v ← initial watch varType a
    if ((σ.take (σ.length - base)).lookup name).isSome then none
    else (declare watch name v σ).map .normal
  | .assign op name value, _, σ => do
    let cur ← σ.lookup name
    let rhs ← rtEval watch cs σ value
    let v ← rtAssigned watch op cur rhs
    some (.normal (rebind name v σ))
  | .ifStmt cond thenBlock elseBlock, _, σ => do
    let c ← rtEval watch cs σ cond
    if c.ty ≠ .bool then none
    else if c.val ≠ 0 then inScope watch cs (rtBlock watch cs fuel thenBlock) σ
    else inScope watch cs (rtBlock watch cs fuel elseBlock) σ
  | .forStmt var start stop body, _, σ => do
    let lo ← rtEval watch cs σ start
    let hi ← rtEval watch cs σ stop
    let lo ← bound watch lo
    let hi ← bound watch hi
    let _ ← declare watch var lo σ
    rtRounds watch cs (inScope watch cs (rtBlock watch cs fuel body)) var hi.val fuel lo σ
  | .block b, _, σ => inScope watch cs (rtBlock watch cs fuel b) σ
  | .exprStmt e, _, σ => do
    let _ ← rtEval watch cs σ e
    some (.normal σ)
  | .ret e, _, σ => do
    let v ← rtEval watch cs σ e
    some (.returned v)

def rtBlock (watch : Bool) (cs : Consts) (fuel : Nat) : Block → Nat → Locals → Option Flow
  | .nil, _, σ => some (.normal σ)
  | .cons s rest, base, σ => do
    let f ← rtStmt watch cs fuel s base σ
    f.andThen (rtBlock watch cs fuel rest base)

end

def Flow.value : Flow → Option Value
  | .normal _ => none
  | .returned v => some v

def rtRun (watch : Bool) (cs : Consts) (fuel : Nat) : Code → Option Value
  | .expr e => rtEval watch cs [] e
  | .block b => (rtBlock watch cs fuel b 0 []).bind Flow.value

end LsLang.Comptime

/-! A run that is watched less, or has more fuel, does the same: a run watched to its end is a
run, and the value that code computes does not depend on the fuel. -/

namespace LsLang.Comptime
open LsLang.Core LsLang.Lib LsLang.Types
variable {cs : Consts} {w w' : Bool}

theorem narrow_mono (hw : w' = true → w = true) {t : IntTy} {z : Int} {v : Value}
    (h : narrow w t z = some v) : narrow w' t z = some v := by
  unfold narrow at h ⊢
  grind

theorem rtBinary_some {watch : Bool} {op : BinaryOp} {a b v : Value}
    (h : rtBinary watch op a b = some v) : ∃ t z, op.resultTy a.ty b.ty = some t ∧
      op.exact a.ty.1.width a.val b.val = some z ∧ (watch = true → op.Follows a.val b.val) ∧
      narrow watch t z = some v := by
  unfold rtBinary at h
  grind [Option.bind_eq_bind, Option.bind_eq_some_iff]

theorem rtBinary_mono (hw : w' = true → w = true) {op : BinaryOp} {a b v : Value}
    (h : rtBinary w op a b = some v) : rtBinary w' op a b = some v := by
  obtain ⟨t, z, ht, hz, hf, hn⟩ := rtBinary_some h
  unfold rtBinary
  simp only [ht, hz, Option.bind_eq_bind, Option.bind_some]
  rw [if_neg (fun hc => hc.2 (hf (hw hc.1))), narrow_mono hw hn]

theorem rtUnary_mono (hw : w' = true → w = true) {op : UnaryOp} {a v : Value}
    (h : rtUnary w op a = some v) : rtUnary w' op a = some v := by
  cases op <;> simp only [rtUnary] at h ⊢ <;> split_ifs at h ⊢ <;> exact narrow_mono hw h

theorem rtEval_mono (hw : w' = true → w = true) {σ : Locals} {e : Expr} {v : Value}
    (h : rtEval w cs σ e = some v) : rtEval w' cs σ e = some v := by
  induction e generalizing v with
  | intLit z isChar =>
    rw [rtEval] at h ⊢
    exact narrow_mono hw h
  | boolLit b =>
    rw [rtEval] at h ⊢
    exact narrow_mono hw h
  | ident n =>
    rw [rtEval] at h ⊢
    exact h
  | cast e t ih =>
    simp only [rtEval, Option.bind_eq_bind, Option.bind_eq_some_iff] at h ⊢
    grind [narrow_mono]
  | unary op e ih =>
    simp only [rtEval, Option.bind_eq_bind, Option.bind_eq_some_iff] at h ⊢
    grind [rtUnary_mono]
  | binary op l r ihl ihr =>
    simp only [rtEval, Option.bind_eq_bind, Option.bind_eq_some_iff] at h ⊢
    obtain ⟨a, ha, h⟩ := h
    refine ⟨a, ihl ha, ?_⟩
    split_ifs at h ⊢
    · exact h
    · obtain ⟨b, hb, h⟩ := Option.bind_eq_some_iff.mp h
      grind [rtBinary_mono]

theorem convert_mono (hw : w' = true → w = true) {t : IntTy} {a v : Value}
    (h : convert w t a = some v) : convert w' t a = some v := by
  unfold convert at h ⊢
  split_ifs at h ⊢
  exact narrow_mono hw h

theorem initial_mono (hw : w' = true → w = true) {ty : Option IntTy} {a v : Value}
    (h : initial w ty a = some v) : initial w' ty a = some v := by
  cases ty with
  | none => exact h
  | some t => exact convert_mono hw h

theorem bound_mono (hw : w' = true → w = true) {a v : Value} (h : bound w a = some v) :
    bound w' a = some v := by
  unfold bound at h ⊢
  split_ifs at h ⊢
  exact narrow_mono hw h

theorem rtAssigned_mono (hw : w' = true → w = true) {op : AssignOp} {cur rhs v : Value}
    (h : rtAssigned w op cur rhs = some v) : rtAssigned w' op cur rhs = some v := by
  unfold rtAssigned at h ⊢
  obtain ⟨a, ha, h⟩ := Option.bind_eq_some_iff.mp h
  grind [rtBinary_mono, convert_mono]

theorem declare_mono (hw : w' = true → w = true) {n : Str} {v : Value} {σ σ' : Locals}
    (h : declare w n v σ = some σ') : declare w' n v σ = some σ' := by
  unfold declare at h ⊢
  grind

theorem andThen_mono {f g : Flow} {k k' : Locals → Option Flow}
    (hk : ∀ σ g, k σ = some g → k' σ = some g) (h : f.andThen k = some g) :
    f.andThen k' = some g := by
  cases f with
  | normal σ => exact hk σ g h
  | returned v => exact h

theorem inScope_mono (hw : w' = true → w = true) {run run' : Nat → Locals → Option Flow}
    (hr : ∀ n σ f, run n σ = some f → run' n σ = some f) {σ : Locals} {f : Flow}
    (h : inScope w cs run σ = some f) : inScope w' cs run' σ = some f := by
  unfold inScope at h ⊢
  obtain ⟨g, hg, h⟩ := Option.bind_eq_some_iff.mp h
  refine Option.bind_eq_some_iff.mpr ⟨g, hr _ _ _ hg, andThen_mono (fun σ' g hσ => ?_) h⟩
  split_ifs at hσ with hends
  rw [if_neg fun hc => hends ⟨hw hc.1, hc.2⟩]
  exact hσ

theorem rtRounds_mono (hw : w' = true → w = true) {body body' : Locals → Option Flow}
    (hb : ∀ σ f, body σ = some f → body' σ = some f) {n : Str} {hi : Int} {k k' : Nat}
    (hk : k ≤ k') {i : Value} {σ : Locals} {f : Flow}
    (h : rtRounds w cs body n hi k i σ = some f) :
    rtRounds w' cs body' n hi k' i σ = some f := by
  induction k generalizing k' i σ f with
  | zero => cases h
  | succ k ih =>
    obtain ⟨k', rfl⟩ := Nat.exists_eq_add_of_le' (Nat.one_le_of_lt hk)
    rw [rtRounds] at h ⊢
    split_ifs at h ⊢ with hlt
    · obtain ⟨g, hg, h⟩ := Option.bind_eq_some_iff.mp h
      refine Option.bind_eq_some_iff.mpr ⟨g, hb _ _ hg, andThen_mono (fun σ' g hσ => ?_) h⟩
      grind
    · exact h

mutual

theorem rtStmt_mono (hw : w' = true → w = true) {k k' : Nat} (hk : k ≤ k') (s : Stmt) (base : Nat)
    (σ : Locals) (f : Flow) (h : rtStmt w cs k s base σ = some f) :
    rtStmt w' cs k' s base σ = some f := by
  cases s with
  | varDecl ty n init =>
    simp only [rtStmt, Option.bind_eq_bind, Option.bind_eq_some_iff] at h ⊢
    obtain ⟨a, ha, v, hv, h⟩ := h
    refine ⟨a, rtEval_mono hw ha, v, initial_mono hw hv, ?_⟩
    split_ifs at h ⊢
    obtain ⟨σ', hσ, h⟩ := Option.map_eq_some_iff.mp h
    rw [declare_mono hw hσ, ← h]
    rfl
  | assign op n e =>
    simp only [rtStmt, Option.bind_eq_bind, Option.bind_eq_some_iff] at h ⊢
    grind [rtEval_mono, rtAssigned_mono]
  | ifStmt c t e =>
    simp only [rtStmt, Option.bind_eq_bind, Option.bind_eq_some_iff] at h ⊢
    obtain ⟨a, ha, h⟩ := h
    refine ⟨a, rtEval_mono hw ha, ?_⟩
    split_ifs at h ⊢
    · exact inScope_mono hw (rtBlock_mono hw hk t) h
    · exact inScope_mono hw (rtBlock_mono hw hk e) h
  | forStmt n lo hi b =>
    simp only [rtStmt, Option.bind_eq_bind, Option.bind_eq_some_iff] at h ⊢
    obtain ⟨l, hl, u, hu, i, hi, j, hj, σ', hσ, h⟩ := h
    refine ⟨l, rtEval_mono hw hl, u, rtEval_mono hw hu, i, bound_mono hw hi, j, bound_mono hw hj,
      σ', declare_mono hw hσ, ?_⟩
    exact rtRounds_mono hw (fun σ f => inScope_mono hw (rtBlock_mono hw hk b)) hk h
  | block b =>
    rw [rtStmt] at h ⊢
    exact inScope_mono hw (rtBlock_mono hw hk b) h
  | exprStmt e =>
    simp only [rtStmt, Option.bind_eq_bind, Option.bind_eq_some_iff] at h ⊢
    grind [rtEval_mono]
  | ret e =>
    simp only [rtStmt, Option.bind_eq_bind, Option.bind_eq_some_iff] at h ⊢
    grind [rtEval_mono]

theorem rtBlock_mono (hw : w' = true → w = true) {k k' : Nat} (hk : k ≤ k') (b : Block) (base : Nat)
    (σ : Locals) (f : Flow) (h : rtBlock w cs k b base σ = some f) :
    rtBlock w' cs k' b base σ = some f := by
  cases b with
  | nil =>
    rw [rtBlock] at h ⊢
    exact h
  | cons s rest =>
    simp only [rtBlock, Option.bind_eq_bind, Option.bind_eq_some_iff] at h ⊢
    obtain ⟨g, hg, h⟩ := h
    exact ⟨g, rtStmt_mono hw hk s base σ g hg, andThen_mono (rtBlock_mono hw hk rest base) h⟩

end

theorem rtRun_mono (hw : w' = true → w = true) {k k' : Nat} (hk : k ≤ k') {code : Code} {v : Value}
    (h : rtRun w cs k code = some v) : rtRun w' cs k' code = some v := by
  cases code with
  | expr e => exact rtEval_mono hw h
  | block b =>
    obtain ⟨f, hf, h⟩ := Option.bind_eq_some_iff.mp h
    exact Option.bind_eq_some_iff.mpr ⟨f, rtBlock_mono hw hk b 0 [] f hf, h⟩

def Computes (cs : Consts) (code : Code) (v : Value) : Prop :=
  ∃ fuel, rtRun false cs fuel code = some v

theorem Computes.unique {code : Code} {v v' : Value} (h : Computes cs code v)
    (h' : Computes cs code v') : v = v' := by
  obtain ⟨k, hk⟩ := h
  obtain ⟨k', hk'⟩ := h'
  have h₁ := rtRun_mono (w := false) id (le_max_left k k') hk
  grind [Option.some.inj, rtRun_mono, le_max_right]

end LsLang.Comptime

/-! On what a watched run takes, the evaluator's `long long` has the bits of the run-time value
after every operator; and a watched run is a run. -/

namespace LsLang.Comptime
open LsLang.Core LsLang.Lib LsLang.Types

theorem wrap_of_inRange {t : Scalar} {v : Int} (h : t.InRange v) : t.wrap v = v :=
  Scalar.InRange.eq_of_emod (t.wrap_inRange v) h (t.wrap_emod v)

theorem ofInt_wrap {t : IntTy} {v : Int} (h : Fits t v) :
    BitVec.ofInt 64 (t.1.wrap v) = BitVec.ofInt 64 v := by
  rcases h with h | h
  · rw [wrap_of_inRange h]
  · apply ofInt_eq_of_emod
    have := t.1.wrap_emod v
    rwa [h] at this

theorem wrap_fitsWord {t : Scalar} (h : t.width ≠ 64) (v : Int) : FitsWord 64 (t.wrap v) := by
  have hrange := t.wrap_inRange v
  unfold Scalar.InRange at hrange
  unfold FitsWord
  cases t <;> simp_all [Scalar.isSigned, Scalar.width, Scalar.intBits] <;> omega

/-- No more is asked than that the evaluator's value is the one at the type. -/
theorem ofInt_wrap_iff {t : IntTy} {v : Int} (hv : FitsWord 64 v) :
    BitVec.ofInt 64 (t.1.wrap v) = BitVec.ofInt 64 v ↔ Fits t v := by
  refine ⟨fun h => ?_, ofInt_wrap⟩
  by_cases hw : t.1.width = 64
  · exact .inr hw
  have hsame := congrArg BitVec.toInt h
  rw [(wrap_fitsWord hw v).toInt_ofInt (by decide), hv.toInt_ofInt (by decide)] at hsame
  exact .inl (hsame ▸ t.1.wrap_inRange v)

theorem narrow_ctI {t : IntTy} {v : Int} {a : Value} (h : narrow true t v = some a) :
    a.ctI = BitVec.ofInt 64 v := by
  unfold narrow at h
  split_ifs at h with hw
  cases h
  exact ofInt_wrap (by simpa using hw)

theorem narrow_ty {w : Bool} {t : IntTy} {v : Int} {a : Value} (h : narrow w t v = some a) :
    a.ty = t := by
  unfold narrow at h
  split_ifs at h
  cases h
  rfl

theorem bool_val {a : Value} (h : a.ty = .bool) : a.val = 0 ∨ a.val = 1 := by
  have := a.inRange
  rw [h] at this
  unfold Scalar.InRange at this
  simp [Scalar.isSigned, Scalar.width] at this
  omega

theorem int_fits {a : Value} (h : a.ty = .int) : FitsWord 64 a.val := by
  have := a.inRange
  rw [h] at this
  unfold Scalar.InRange at this
  simp [Scalar.isSigned, Scalar.width, Scalar.intBits] at this
  unfold FitsWord
  omega

section double
variable {x y : Int}

theorem ctsToF_ofInt (h : FitsWord 64 x) : ctsToF (BitVec.ofInt 64 x) = roundInt 53 x := by
  unfold ctsToF
  rw [h.toInt_ofInt (by decide)]

theorem ToldApart.lt_iff (h : ToldApart x y) :
    ctsToF (BitVec.ofInt 64 x) < ctsToF (BitVec.ofInt 64 y) ↔ x < y := by
  rcases h with rfl | ⟨⟨hx, hy⟩, hne⟩
  · simp
  grind [ctsToF_ofInt, roundInt_lt_iff]

theorem ToldApart.eq_iff (h : ToldApart x y) :
    ctsToF (BitVec.ofInt 64 x) = ctsToF (BitVec.ofInt 64 y) ↔ x = y := by
  rcases h with rfl | ⟨⟨hx, hy⟩, hne⟩
  · simp
  grind [ctsToF_ofInt]

/-- Nor is more asked of two integers that are compared. -/
theorem eq_seen_iff (h : InLong x y) :
    (ctsToF (BitVec.ofInt 64 x) = ctsToF (BitVec.ofInt 64 y) ↔ x = y) ↔ ToldApart x y := by
  refine ⟨fun hseen => ?_, ToldApart.eq_iff⟩
  by_cases hxy : x = y
  · exact .inl hxy
  · rw [ctsToF_ofInt h.1, ctsToF_ofInt h.2] at hseen
    exact .inr ⟨h, mt hseen.1 hxy⟩

theorem ToldApart.symm (h : ToldApart x y) : ToldApart y x := by
  rcases h with rfl | ⟨⟨hx, hy⟩, hne⟩
  · exact Or.inl rfl
  · exact Or.inr ⟨⟨hy, hx⟩, hne.symm⟩

end double

theorem ofBool_eq (b : Bool) : ofBool b = BitVec.ofInt 64 (truth b) := by
  cases b <;> rfl

theorem ofBool_congr {p q : Prop} [Decidable p] [Decidable q] (h : p ↔ q) :
    ofBool (decide p) = BitVec.ofInt 64 (truth (decide q)) := by
  rw [← ofBool_eq, decide_eq_decide.mpr h]

theorem toNat_count {y : Int} {w : Nat} (h : 0 ≤ y ∧ y < w) (hw : w ≤ 64) :
    (BitVec.ofInt 64 y).toNat = y.toNat := by grind

theorem bool_truth {x : Int} (h : x = 0 ∨ x = 1) : ctsToF (BitVec.ofInt 64 x) ≠ 0 ↔ x ≠ 0 := by
  rcases h with rfl | rfl <;> decide

theorem bool_cond {a : Value} (h : a.ty = .bool) : ctsToF a.ctI ≠ 0 ↔ a.val ≠ 0 :=
  bool_truth (bool_val h)

theorem ctBinary_eq {op : BinaryOp} {w : Nat} {x y v : Int} {r : LongLong} (hw : w ≤ 64)
    (hv : op.exact w x y = some v) (hf : op.Follows x y)
    (hb : op.cls = .logical → (x = 0 ∨ x = 1) ∧ (y = 0 ∨ y = 1))
    (hr : ctBinary op (BitVec.ofInt 64 x) (BitVec.ofInt 64 y) = some r) :
    r = BitVec.ofInt 64 v := by
  cases op with
  | plus =>
    cases hv
    cases hr
    exact (BitVec.ofInt_add x y).symm
  | minus =>
    cases hv
    cases hr
    exact (ofInt_sub x y).symm
  | star =>
    cases hv
    cases hr
    exact (BitVec.ofInt_mul x y).symm
  | slash =>
    -- a quotient of 64 bits is the exact one only where both operands are in range
    simp only [BinaryOp.exact, ctBinary] at hv hr
    split_ifs at hv hr
    cases hv
    cases hr
    exact (ofInt_tdiv (by decide) hf.1 hf.2).symm
  | percent =>
    simp only [BinaryOp.exact, ctBinary] at hv hr
    split_ifs at hv hr
    cases hv
    cases hr
    exact (ofInt_tmod (by decide) hf.1 hf.2).symm
  | amp =>
    cases hv
    cases hr
    exact (ofInt_land x y).symm
  | pipe =>
    cases hv
    cases hr
    exact (ofInt_lor x y).symm
  | caret =>
    cases hv
    cases hr
    exact (ofInt_xor x y).symm
  | lshift =>
    simp only [BinaryOp.exact, ctBinary] at hv hr
    split_ifs at hv hr with hc
    cases hv
    cases hr
    rw [toNat_count hc hw, ofInt_shl]
  | rshift =>
    simp only [BinaryOp.exact, ctBinary] at hv hr
    split_ifs at hv hr with hc
    cases hv
    cases hr
    rw [toNat_count hc hw, ofInt_sar (by decide) hf.1]
  | lt =>
    cases hv
    cases hr
    -- compared as doubles: `hf` says that these tell the two apart
    exact ofBool_congr (ToldApart.lt_iff hf)
  | gt =>
    cases hv
    cases hr
    exact ofBool_congr (ToldApart.symm hf).lt_iff
  | leq =>
    cases hv
    cases hr
    exact ofBool_congr (by rw [← not_lt, (ToldApart.symm hf).lt_iff, not_lt])
  | geq =>
    cases hv
    cases hr
    exact ofBool_congr (by rw [ge_iff_le, ← not_lt, ToldApart.lt_iff hf, not_lt])
  | eq =>
    cases hv
    cases hr
    exact ofBool_congr (ToldApart.eq_iff hf)
  | neq =>
    cases hv
    cases hr
    exact ofBool_congr (not_congr (ToldApart.eq_iff hf))
  | and =>
    cases hv
    cases hr
    exact ofBool_congr (and_congr (bool_truth (hb rfl).1) (bool_truth (hb rfl).2))
  | or =>
    cases hv
    cases hr
    exact ofBool_congr (or_congr (bool_truth (hb rfl).1) (bool_truth (hb rfl).2))

theorem width_le (t : IntTy) : t.1.width ≤ 64 := by
  unfold Scalar.width
  cases t.1 <;> decide

theorem resultTy_logical {op : BinaryOp} {a b t : IntTy} (h : op.resultTy a b = some t)
    (hc : op.cls = .logical) : a = .bool ∧ b = .bool := by
  unfold BinaryOp.resultTy at h
  grind

theorem rtBinary_follow {op : BinaryOp} {a b v : Value} {r : LongLong}
    (h : rtBinary true op a b = some v) (hr : ctBinary op a.ctI b.ctI = some r) : r = v.ctI := by
  obtain ⟨t, z, ht, hz, hf, hn⟩ := rtBinary_some h
  rw [narrow_ctI hn]
  refine ctBinary_eq (width_le a.ty) hz (hf rfl) ?_ hr
  grind [bool_val, resultTy_logical]

theorem rtUnary_follow {op : UnaryOp} {a v : Value} (h : rtUnary true op a = some v) :
    ctUnary op a.ctI = v.ctI := by
  cases op <;> simp only [rtUnary] at h <;> split_ifs at h with ht <;> rw [narrow_ctI h]
  · exact BitVec.ofInt_neg.symm
  · refine ofBool_congr ?_
    have := bool_cond ht
    tauto
  · exact (ofInt_lnot a.val).symm

theorem decided_follow {op : BinaryOp} {a : Value} {b r : LongLong} (h : op.decided a = true)
    (hr : ctBinary op a.ctI b = some r) : r = a.ctI := by
  unfold Value.ctI at hr ⊢
  cases op with
  | and =>
    cases hr
    rw [(of_decide_eq_true h).2]
    have hz : ctsToF (BitVec.ofInt 64 0) = 0 := by decide
    exact ofBool_congr (iff_false_intro fun hc => hc.1 hz)
  | or =>
    cases hr
    obtain ⟨ht, hz⟩ := of_decide_eq_true h
    rw [(bool_val ht).resolve_left hz]
    exact ofBool_congr (iff_true_intro (Or.inl (by decide)))
  | _ => cases h

variable {cs : Consts} {σ : Locals} {env : Env}

/-- The bindings of the evaluator have the values of the names in scope, and none of a constant in sight. -/
structure Agrees (cs : Consts) (σ : Locals) (env : Env) : Prop where
  distinct : (σ.map Prod.fst).Nodup
  values : ∀ (n : Str) (v : Value), (n, v) ∈ σ → env.get n = some v.ctI
  consts : ∀ n : Str, (cs n).isSome = true → n ∉ σ.map Prod.fst → env.get n = none

theorem Agrees.ident (h : Agrees cs σ env) {n : Str} {v : Value}
    (hv : (σ.lookup n).or (cs n) = some v) :
    (env.get n).or ((cs n).map Value.ctI) = some v.ctI := by
  rcases Option.or_eq_some_iff.mp hv with hl | ⟨hl, hc⟩
  · rw [h.values n v (mem_of_lookup hl)]
    rfl
  · have hout : n ∉ σ.map Prod.fst := by
      rw [← lookup_isSome_iff_mem, hl]
      exact Bool.false_ne_true
    rw [h.consts n (by rw [hc]; rfl) hout, hc]
    rfl

theorem convert_ctI {t : IntTy} {a v : Value} (h : convert true t a = some v) :
    v.ctI = a.ctI ∧ v.ty = t := by
  unfold convert at h
  split_ifs at h
  exact ⟨narrow_ctI h, narrow_ty h⟩

theorem ctCast_follow {t : IntTy} {a : Value} (h : t.1.isInteger = true) :
    ctCast t a.ctI = a.ctI := if_pos h

theorem rtEval_follow (h : Agrees cs σ env) {e : Expr} {v : Value} {r : LongLong}
    (hv : rtEval true cs σ e = some v) (hr : ctEvalScalar cs env e = some r) : r = v.ctI := by
  induction e generalizing v r with
  | intLit z isChar =>
    cases hr
    rw [rtEval] at hv
    rw [narrow_ctI hv, BitVec.ofInt_toInt]
  | boolLit b =>
    cases hr
    rw [rtEval] at hv
    rw [narrow_ctI hv, ofBool_eq]
  | ident n =>
    rw [rtEval] at hv
    rw [ctEvalScalar, h.ident hv] at hr
    grind
  | cast e t ih =>
    simp only [rtEval, Option.bind_eq_bind, Option.bind_eq_some_iff] at hv
    obtain ⟨a, ha, hv⟩ := hv
    split_ifs at hv with ht
    rw [Bool.and_eq_true] at ht
    simp only [ctEvalScalar, Option.map_eq_some_iff] at hr
    obtain ⟨r', hr', rfl⟩ := hr
    rw [ih ha hr', ctCast_follow ht.2, narrow_ctI hv]
    rfl
  | unary op e ih =>
    simp only [rtEval, Option.bind_eq_bind, Option.bind_eq_some_iff] at hv
    obtain ⟨a, ha, hv⟩ := hv
    simp only [ctEvalScalar, Option.map_eq_some_iff] at hr
    grind [rtUnary_follow]
  | binary op l r ihl ihr =>
    simp only [rtEval, Option.bind_eq_bind, Option.bind_eq_some_iff] at hv
    obtain ⟨a, ha, hv⟩ := hv
    simp only [ctEvalScalar, Option.bind_eq_bind, Option.bind_eq_some_iff] at hr
    obtain ⟨a', ha', b', hb', hr⟩ := hr
    rw [ihl ha ha'] at hr
    split_ifs at hv with hd
    · cases hv
      exact decided_follow hd hr
    · obtain ⟨b, hb, hv⟩ := Option.bind_eq_some_iff.mp hv
      rw [ihr hb hb'] at hr
      exact rtBinary_follow hv hr

end LsLang.Comptime
