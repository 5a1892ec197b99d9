import LsLang.Core.Str
import LsLang.Lib.Binding
import LsLang.Lib.IntWord
import LsLang.Types.Scalar

/-! The evaluator of compile-time constants (`checker_comptime.c`) on integers, characters and
booleans: scalar expressions, and blocks with locals, `if` and bounded `for`. -/

namespace LsLang.Comptime
open LsLang.Core LsLang.Lib LsLang.Types

abbrev IntTy : Type := { t : Scalar // t.isFloat = false }

namespace IntTy

abbrev int : IntTy := ⟨.int, rfl⟩
abbrev i64 : IntTy := ⟨.i64, rfl⟩
abbrev bool : IntTy := ⟨.bool, rfl⟩
abbrev char : IntTy := ⟨.char, rfl⟩

end IntTy

/-- `TOKEN_MINUS`, `TOKEN_BANG` and `TOKEN_TILDE` as unary operators. -/
inductive UnaryOp
  | minus | bang | tilde

inductive BinaryOp
  | plus | minus | star | slash | percent
  | amp | pipe | caret | lshift | rshift
  | lt | gt | leq | geq | eq | neq
  | and | or

/-- `TOKEN_ASSIGN` to `TOKEN_SLASH_ASSIGN` -/
inductive AssignOp
  | assign | plus | minus | star | slash

abbrev LongLong : Type := BitVec 64

/-- `AST_INT_LIT`, with `is_char`, to `AST_BINARY`. -/
inductive Expr
  | intLit (value : LongLong) (isChar : Bool)
  | boolLit (value : Bool)
  | ident (name : Str)
  | cast (e : Expr) (target : IntTy)
  | unary (op : UnaryOp) (operand : Expr)
  | binary (op : BinaryOp) (left right : Expr)

mutual

/-- The statements that the evaluator runs. An `if` without an `else` has an empty one, and a
single statement in the place of a block is the block of it. -/
inductive Stmt
  | varDecl (varType : Option IntTy) (name : Str) (init : Expr)
  | assign (op : AssignOp) (target : Str) (value : Expr)
  | ifStmt (cond : Expr) (thenBlock elseBlock : Block)
  | forStmt (var : Str) (start stop : Expr) (body : Block)
  | block (stmts : Block)
  | exprStmt (e : Expr)
  | ret (value : Expr)

inductive Block
  | nil
  | cons (s : Stmt) (rest : Block)

end

inductive Code
  | expr (e : Expr)
  | block (b : Block)

/-- A value at run time: `true` is 1. -/
structure Value where
  ty : IntTy
  val : Int
  inRange : ty.1.InRange val

/-- The value of the type that has the low bits of `v`. -/
def Value.wrap (t : IntTy) (v : Int) : Value := ⟨t, t.1.wrap v, t.1.wrap_inRange v⟩

abbrev Consts : Type := Str → Option Value

/-- The field `ct_i` of a constant. -/
def Value.ctI (v : Value) : LongLong := BitVec.ofInt 64 v.val

/-- `cts_to_f`; a double that an integer converts to is an integer. -/
def ctsToF (v : LongLong) : Int := roundInt 53 v.toInt

def ofBool (b : Bool) : LongLong := if b then 1 else 0

/-- The bindings of `CtEval`, the newest first. -/
abbrev Env : Type := List (Str × LongLong)

/-- `ct_env_get` -/
def Env.get (ev : Env) (name : Str) : Option LongLong := ev.lookup name

/-- `ct_env_set` -/
def Env.set (ev : Env) (name : Str) (v : LongLong) : Env :=
  if (ev.get name).isSome then rebind name v ev else (name, v) :: ev

/-- The unary operators of `ct_eval_scalar`. -/
def ctUnary (op : UnaryOp) (v : LongLong) : LongLong :=
  match op with
  | .minus => -v
  | .bang => ofBool (ctsToF v = 0)
  | .tilde => ~~~v

/-- The binary operators of `ct_eval_scalar`. Overflow wraps; the quotient of the least number
and -1 traps, and a shift has no value when its count is out of range. -/
def ctBinary (op : BinaryOp) (a b : LongLong) : Option LongLong :=
  match op with
  -- both sides are compared as doubles
  | .lt => some (ofBool (ctsToF a < ctsToF b))
  | .gt => some (ofBool (ctsToF a > ctsToF b))
  | .leq => some (ofBool (ctsToF a ≤ ctsToF b))
  | .geq => some (ofBool (ctsToF a ≥ ctsToF b))
  | .eq => some (ofBool (ctsToF a = ctsToF b))
  | .neq => some (ofBool (ctsToF a ≠ ctsToF b))
  | .and => some (ofBool (ctsToF a ≠ 0 ∧ ctsToF b ≠ 0))
  | .or => some (ofBool (ctsToF a ≠ 0 ∨ ctsToF b ≠ 0))
  | .plus => some (a + b)
  | .minus => some (a - b)
  | .star => some (a * b)
  | .slash => if b = 0 ∨ a = BitVec.intMin 64 ∧ b = -1 then none else some (a.sdiv b)
  | .percent => if b = 0 ∨ a = BitVec.intMin 64 ∧ b = -1 then none else some (a.srem b)
  | .amp => some (a &&& b)
  | .pipe => some (a ||| b)
  | .caret => some (a ^^^ b)
  | .lshift => if b.toNat < 64 then some (a <<< b.toNat) else none
  | .rshift => if b.toNat < 64 then some (a.sshiftRight b.toNat) else none

/-- `AST_CAST` to a type that is no float. -/
def ctCast (t : IntTy) (v : LongLong) : LongLong :=
  if t.1.isInteger then v else ofBool (ctsToF v ≠ 0)

/-- `ct_eval_scalar` -/
def ctEvalScalar (cs : Consts) (ev : Env) : Expr → Option LongLong
  | .intLit v _ => some v
  | .boolLit b => some (ofBool b)
  | .ident name => (ev.get name).or ((cs name).map Value.ctI)
  | .cast e t => (ctEvalScalar cs ev e).map (ctCast t)
  | .unary op e => (ctEvalScalar cs ev e).map (ctUnary op)
  | .binary op l r => do
    let a ← ctEvalScalar cs ev l
    let b ← ctEvalScalar cs ev r
    ctBinary op a b

/-- `CtEval`: the bindings and the steps left. -/
structure CtEval where
  env : Env
  budget : Int

/-- `CT_NORMAL`, or `CT_RETURNED` with the value; `CT_FAIL` is `none`. -/
inductive CtFlow
  | normal (ev : CtEval)
  | returned (v : LongLong)

/-- `--ev->budget <= 0` -/
def CtEval.tick (ev : CtEval) : Option CtEval :=
  if ev.budget - 1 ≤ 0 then none else some { ev with budget := ev.budget - 1 }

def CtEval.set (ev : CtEval) (name : Str) (v : LongLong) : CtEval :=
  { ev with env := ev.env.set name v }

def AssignOp.binary : AssignOp → Option BinaryOp
  | .assign => none
  | .plus => some .plus
  | .minus => some .minus
  | .star => some .star
  | .slash => some .slash

def ctAssigned (ev : Env) (op : AssignOp) (name : Str) (rhs : LongLong) : Option LongLong :=
  match op.binary with
  | none => some rhs
  | some b => (ev.get name).bind fun cur => ctBinary b cur rhs

def CtFlow.andThen (f : CtFlow) (k : CtEval → Option CtFlow) : Option CtFlow :=
  match f with
  | .normal ev => k ev
  | .returned v => some (.returned v)

/-- The rounds of a `for`, of which `n` are left. -/
def ctRounds (body : CtEval → Option CtFlow) (var : Str) : Nat → Int → CtEval → Option CtFlow
  | 0, _, ev => some (.normal ev)
  | n + 1, iv, ev => do
    let ev ← ev.tick
    let f ← body (ev.set var (BitVec.ofInt 64 iv))
    f.andThen (ctRounds body var n (iv + 1))

mutual

/-- `ct_exec_stmt` -/
def ctExecStmt (cs : Consts) : Stmt → CtEval → Option CtFlow
  | .varDecl _ name init, ev => do
    let ev ← ev.tick
    let v ← ctEvalScalar cs ev.env init
    -- the one environment has no scopes: a variable of the name outside is overwritten
    some (.normal (ev.set name v))
  | .assign op name value, ev => do
    let ev ← ev.tick
    let rhs ← ctEvalScalar cs ev.env value
    let v ← ctAssigned ev.env op name rhs
    some (.normal (ev.set name v))
  | .ifStmt cond thenBlock elseBlock, ev => do
    let ev ← ev.tick
    let c ← ctEvalScalar cs ev.env cond
    if ctsToF c ≠ 0 then ctExecBlock cs thenBlock ev else ctExecBlock cs elseBlock ev
  | .forStmt var start stop body, ev => do
    let ev ← ev.tick
    let lo ← ctEvalScalar cs ev.env start
    let hi ← ctEvalScalar cs ev.env stop
    ctRounds (ctExecBlock cs body) var (hi.toInt - lo.toInt).toNat lo.toInt ev
  | .block b, ev => do
    let ev ← ev.tick
    ctExecBlock cs b ev
  | .exprStmt e, ev => do
    let ev ← ev.tick
    let _ ← ctEvalScalar cs ev.env e
    some (.normal ev)
  | .ret e, ev => do
    let ev ← ev.tick
    let v ← ctEvalScalar cs ev.env e
    some (.returned v)

/-- `ct_exec_block` -/
def ctExecBlock (cs : Consts) : Block → CtEval → Option CtFlow
  | .nil, ev => some (.normal ev)
  | .cons s rest, ev => do
    let f ← ctExecStmt cs s ev
    f.andThen (ctExecBlock cs rest)

end

def CtFlow.value : CtFlow → Option LongLong
  | .normal _ => none
  | .returned v => some v

end LsLang.Comptime
