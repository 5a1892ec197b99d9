import LsLang.Comptime.Eval
import LsLang.Lib.Total
import LsLang.Scan.Scanner

/-! The evaluator of compile-time constants (`checker_comptime.c`) with its floats, `math` calls and
array locals. The integers it computes with are a parameter: `long long` with what C says of it, or
the numbers themselves. -/

namespace LsLang.Comptime.Host

open LsLang.Core LsLang.Lib LsLang.Types LsLang.Undefined

/-- The doubles of the host and its `libm`. -/
structure Floats where
  Double : Type
  ofInt : Int → Double
  add : Double → Double → Double
  sub : Double → Double → Double
  mul : Double → Double → Double
  div : Double → Double → Double
  neg : Double → Double
  abs : Double → Double
  lt : Double → Double → Bool
  eq : Double → Double → Bool
  /-- Toward zero; nothing for infinities and NaN. -/
  trunc : Double → Option Int
  pi : Double
  e : Double
  tau : Double
  inf : Double
  nan : Double
  libm : Str → Double → Double → Double

structure Arith (fl : Floats) (I : Type) (R : Type → Type) where
  fail : {α : Type} → R α
  ofBits : LongLong → I
  toInt : I → Int
  /-- `(long long)x` -/
  ofDouble : fl.Double → R I
  neg : I → R I
  abs : I → R I
  compl : I → I
  /-- `iv++` -/
  succ : I → R I
  add : I → I → R I
  sub : I → I → R I
  mul : I → I → R I
  div : I → I → R I
  mod : I → I → R I
  shl : I → I → R I
  shr : I → I → R I
  and : I → I → I
  or : I → I → I
  xor : I → I → I

/-- The expressions; `other` is anything else. -/
inductive Expr (fl : Floats)
  | intLit (value : LongLong)
  | floatLit (value : fl.Double)
  | boolLit (value : Bool)
  | ident (name : Str)
  | mathConst (name : Str)
  | index (object : Str) (index : Expr fl)
  | mathCall (fn : Str) (args : List (Expr fl))
  | cast (e : Expr fl) (target : Option Scalar)
  | unary (op : Option UnaryOp) (operand : Expr fl)
  | binary (op : Option BinaryOp) (left right : Expr fl)
  | other

/-- The type of a local: an array of scalars or of something else, a scalar, another type. -/
inductive DeclType
  | array (size : Int) (elem : Option Scalar)
  | scalar (t : Scalar)
  | other

inductive Target (fl : Floats)
  | ident (name : Str)
  | index (object : Str) (index : Expr fl)
  | other

mutual

inductive Stmt (fl : Floats)
  | varDecl (type : Option DeclType) (name : Str) (init : Option (Expr fl))
  | assign (op : Option AssignOp) (target : Target fl) (value : Expr fl)
  | ifStmt (cond : Expr fl) (thenBlock : Block fl) (elseBlock : Block fl)
  | forStmt (var : Str) (range : Option (Expr fl × Expr fl)) (body : Block fl)
  | block (stmts : Block fl)
  | exprStmt (e : Expr fl)
  | ret (value : Option (Expr fl))
  | other

inductive Block (fl : Floats)
  | nil
  | cons (s : Stmt fl) (rest : Block fl)

end

/-- `CtScalar` -/
inductive CtScalar (fl : Floats) (I : Type)
  | int (i : I)
  | flt (f : fl.Double)

structure CtArray (fl : Floats) (I : Type) where
  isFloat : Bool
  elems : List (CtScalar fl I)

/-- `CtEval`, its bindings with the newest first. -/
structure CtEval (fl : Floats) (I : Type) where
  vals : List (Str × CtScalar fl I)
  arrs : List (Str × CtArray fl I)
  budget : Int

/-- `CT_NORMAL`, or `CT_RETURNED` with a value or with the name of an array. -/
inductive CtFlow (fl : Floats) (I : Type)
  | normal (ev : CtEval fl I)
  | returned (v : CtScalar fl I)
  | returnedArray (name : Str)

abbrev Consts (fl : Floats) : Type := Str → Option (CtScalar fl LongLong)

/-- `MATH_FUNCS`: the names with their arities. -/
def mathFuncs : List (Str × Nat) :=
  [(lit ['a', 'b', 's'], 1), (lit ['m', 'i', 'n'], 2), (lit ['m', 'a', 'x'], 2),
    (lit ['f', 'l', 'o', 'o', 'r'], 1), (lit ['c', 'e', 'i', 'l'], 1),
    (lit ['r', 'o', 'u', 'n', 'd'], 1), (lit ['t', 'r', 'u', 'n', 'c'], 1),
    (lit ['s', 'q', 'r', 't'], 1), (lit ['p', 'o', 'w'], 2), (lit ['e', 'x', 'p'], 1),
    (lit ['e', 'x', 'p', '2'], 1), (lit ['l', 'o', 'g'], 1), (lit ['l', 'o', 'g', '2'], 1),
    (lit ['l', 'o', 'g', '1', '0'], 1), (lit ['s', 'i', 'n'], 1), (lit ['c', 'o', 's'], 1),
    (lit ['t', 'a', 'n'], 1), (lit ['a', 's', 'i', 'n'], 1), (lit ['a', 'c', 'o', 's'], 1),
    (lit ['a', 't', 'a', 'n'], 1), (lit ['a', 't', 'a', 'n', '2'], 2),
    (lit ['s', 'i', 'n', 'h'], 1), (lit ['c', 'o', 's', 'h'], 1), (lit ['t', 'a', 'n', 'h'], 1)]

def notYet : List Str :=
  [lit ['r', 'o', 'u', 'n', 'd'], lit ['t', 'r', 'u', 'n', 'c'], lit ['e', 'x', 'p', '2'],
    lit ['s', 'i', 'n', 'h'], lit ['c', 'o', 's', 'h'], lit ['t', 'a', 'n', 'h']]

/-- `builtin_math_lookup_const` -/
def mathConst (fl : Floats) (name : Str) : Option fl.Double :=
  if name = lit ['P', 'I'] then some fl.pi
  else if name = lit ['E'] then some fl.e
  else if name = lit ['T', 'A', 'U'] then some fl.tau
  else if name = lit ['I', 'N', 'F'] then some fl.inf
  else if name = lit ['N', 'A', 'N'] then some fl.nan
  else none

section Eval

variable {fl : Floats} {I : Type} {R : Type → Type} [Monad R] (A : Arith fl I R) (cs : Consts fl)

/-- `cts_to_f` -/
def ctsToF : CtScalar fl I → fl.Double
  | .int i => fl.ofInt (A.toInt i)
  | .flt f => f

def ofBool (b : Bool) : CtScalar fl I := .int (A.ofBits (if b then 1 else 0))

/-- `cts_to_f(&v) != 0.0` -/
def isTrue (v : CtScalar fl I) : Bool := !fl.eq (ctsToF A v) (fl.ofInt 0)

def ofConst : CtScalar fl LongLong → CtScalar fl I
  | .int i => .int (A.ofBits i)
  | .flt f => .flt f

def orFail {α : Type} : Option α → R α
  | some a => pure a
  | none => A.fail

def integer (r : R I) : R (CtScalar fl I) := do
  let i ← r
  return .int i

/-- `idx.i` as the index of an array of `len` elements. -/
def asIndex (len : Nat) : CtScalar fl I → R Nat
  | .int i => if A.toInt i < 0 ∨ len ≤ A.toInt i then A.fail else return (A.toInt i).toNat
  | .flt _ => A.fail

def ctUnary (op : Option UnaryOp) (v : CtScalar fl I) : R (CtScalar fl I) :=
  match op, v with
  | some .minus, .flt f => return .flt (fl.neg f)
  | some .minus, .int i => integer (A.neg i)
  | some .bang, v => return ofBool A (!isTrue A v)
  | some .tilde, .int i => return .int (A.compl i)
  | some .tilde, .flt _ => A.fail
  | none, _ => A.fail

/-- `AST_CAST` -/
def ctCast (target : Option Scalar) (v : CtScalar fl I) : R (CtScalar fl I) :=
  match target with
  | none => A.fail
  | some t =>
    if t.isFloat then return .flt (ctsToF A v)
    else if t.isInteger then
      match v with
      | .int i => return .int i
      | .flt f => integer (A.ofDouble f)
    else return ofBool A (isTrue A v)

def ctCompare (op : BinaryOp) (x y : fl.Double) : Option Bool :=
  match op with
  | .lt => some (fl.lt x y)
  | .gt => some (fl.lt y x)
  | .leq => some (fl.lt x y || fl.eq x y)
  | .geq => some (fl.lt y x || fl.eq y x)
  | .eq => some (fl.eq x y)
  | .neq => some (!fl.eq x y)
  | .and => some (!fl.eq x (fl.ofInt 0) && !fl.eq y (fl.ofInt 0))
  | .or => some (!fl.eq x (fl.ofInt 0) || !fl.eq y (fl.ofInt 0))
  | _ => none

def ctFloatOp (op : BinaryOp) (x y : fl.Double) : Option fl.Double :=
  match op with
  | .plus => some (fl.add x y)
  | .minus => some (fl.sub x y)
  | .star => some (fl.mul x y)
  | .slash => if fl.eq y (fl.ofInt 0) then none else some (fl.div x y)
  | _ => none

def ctIntOp (op : BinaryOp) (a b : I) : R I :=
  match op with
  | .plus => A.add a b
  | .minus => A.sub a b
  | .star => A.mul a b
  | .slash => if A.toInt b = 0 then A.fail else A.div a b
  | .percent => if A.toInt b = 0 then A.fail else A.mod a b
  | .amp => return A.and a b
  | .pipe => return A.or a b
  | .caret => return A.xor a b
  | .lshift => A.shl a b
  | .rshift => A.shr a b
  | _ => A.fail

/-- The arithmetic of `AST_BINARY` and of a compound assignment. -/
def ctArith (op : BinaryOp) (l r : CtScalar fl I) : R (CtScalar fl I) :=
  match l, r with
  | .int a, .int b => integer (ctIntOp A op a b)
  | l, r => orFail A ((ctFloatOp op (ctsToF A l) (ctsToF A r)).map .flt)

/-- `AST_BINARY` -/
def ctBinary (op : Option BinaryOp) (l r : CtScalar fl I) : R (CtScalar fl I) :=
  match op with
  | none => A.fail
  | some op =>
    match ctCompare op (ctsToF A l) (ctsToF A r) with
    | some b => return ofBool A b
    | none => ctArith A op l r

/-- `min` and `max` -/
def ctMinMax (isMin : Bool) : CtScalar fl I → CtScalar fl I → CtScalar fl I
  | .int a, .int b =>
    .int (if isMin then if A.toInt a < A.toInt b then a else b
      else if A.toInt b < A.toInt a then a else b)
  | l, r =>
    let x := ctsToF A l
    let y := ctsToF A r
    .flt (if isMin then if fl.lt x y then x else y else if fl.lt y x then x else y)

def ctMathFn (fn : Str) (args : List (CtScalar fl I)) : R (CtScalar fl I) :=
  match args with
  | [a] =>
    if fn = lit ['a', 'b', 's'] then
      match a with
      | .int i => integer (A.abs i)
      | .flt f => return .flt (fl.abs f)
    else if notYet.contains fn then A.fail
    else return .flt (fl.libm fn (ctsToF A a) (fl.ofInt 0))
  | [a, b] =>
    if fn = lit ['m', 'i', 'n'] then return ctMinMax A true a b
    else if fn = lit ['m', 'a', 'x'] then return ctMinMax A false a b
    else return .flt (fl.libm fn (ctsToF A a) (ctsToF A b))
  | _ => A.fail

mutual

/-- `ct_eval_scalar` -/
def ctEvalScalar (ev : CtEval fl I) : Expr fl → R (CtScalar fl I)
  | .intLit v => return .int (A.ofBits v)
  | .floatLit f => return .flt f
  | .boolLit b => return ofBool A b
  | .ident name => orFail A ((ev.vals.lookup name).or ((cs name).map (ofConst A)))
  | .mathConst name => orFail A ((mathConst fl name).map .flt)
  | .index object index => do
    let arr ← orFail A (ev.arrs.lookup object)
    let idx ← ctEvalScalar ev index
    let i ← asIndex A arr.elems.length idx
    orFail A arr.elems[i]?
  -- `ct_eval_math_call`
  | .mathCall fn args =>
    if mathFuncs.lookup fn = some args.length then do
      let vals ← ctEvalArgs ev args
      ctMathFn A fn vals
    else A.fail
  | .cast e target => do
    let v ← ctEvalScalar ev e
    ctCast A target v
  | .unary op e => do
    let v ← ctEvalScalar ev e
    ctUnary A op v
  | .binary op left right => do
    let l ← ctEvalScalar ev left
    let r ← ctEvalScalar ev right
    ctBinary A op l r
  | .other => A.fail

def ctEvalArgs (ev : CtEval fl I) : List (Expr fl) → R (List (CtScalar fl I))
  | [] => return []
  | e :: es => do
    let v ← ctEvalScalar ev e
    let vs ← ctEvalArgs ev es
    return v :: vs

end

/-- `--ev->budget <= 0` -/
def CtEval.tick (ev : CtEval fl I) : Option (CtEval fl I) :=
  if ev.budget - 1 ≤ 0 then none else some { ev with budget := ev.budget - 1 }

/-- `ct_env_set` -/
def CtEval.set (ev : CtEval fl I) (name : Str) (v : CtScalar fl I) : CtEval fl I :=
  { ev with vals := if (ev.vals.lookup name).isSome then rebind name v ev.vals else (name, v) :: ev.vals }

/-- `ct_aenv_decl`: zeros. -/
def CtEval.declare (ev : CtEval fl I) (name : Str) (len : Nat) (isFloat : Bool) : CtEval fl I :=
  { ev with arrs := (name, ⟨isFloat, List.replicate len
      (if isFloat then .flt (fl.ofInt 0) else .int (A.ofBits 0))⟩) :: ev.arrs }

def coerce (isFloat : Bool) (v : CtScalar fl I) : R (CtScalar fl I) :=
  if isFloat then return .flt (ctsToF A v)
  else
    match v with
    | .int i => return .int i
    | .flt _ => A.fail

def CtFlow.andThen (f : CtFlow fl I) (k : CtEval fl I → R (CtFlow fl I)) : R (CtFlow fl I) :=
  match f with
  | .normal ev => k ev
  | .returned v => return .returned v
  | .returnedArray name => return .returnedArray name

def ctDeclared (type : Option DeclType) (v : CtScalar fl I) : R (CtScalar fl I) :=
  match type with
  | some (.scalar t) => coerce A t.isFloat v
  | some _ => coerce A false v
  | none => return v

/-- `AST_VAR_DECL` -/
def ctVarDecl (type : Option DeclType) (name : Str) (init : Option (Expr fl)) (ev : CtEval fl I) :
    R (CtFlow fl I) :=
  match type with
  | some (.array size elem) =>
    match elem with
    | some t => if size ≤ 0 then A.fail else return .normal (ev.declare A name size.toNat t.isFloat)
    | none => A.fail
  | type =>
    match init with
    | none => A.fail
    | some e => do
      let v ← ctEvalScalar A cs ev e
      let v ← ctDeclared A type v
      return .normal (ev.set name v)

/-- `AST_ASSIGN` to an element. -/
def ctAssignIndex (op : Option AssignOp) (object : Str) (index value : Expr fl) (ev : CtEval fl I) :
    R (CtFlow fl I) :=
  match op with
  | some .assign => do
    let arr ← orFail A (ev.arrs.lookup object)
    let idx ← ctEvalScalar A cs ev index
    let i ← asIndex A arr.elems.length idx
    let v ← ctEvalScalar A cs ev value
    let v ← coerce A arr.isFloat v
    return .normal { ev with arrs := rebind object { arr with elems := arr.elems.set i v } ev.arrs }
  | _ => A.fail

def ctAssigned (op : Option AssignOp) (name : Str) (ev : CtEval fl I) (rhs : CtScalar fl I) :
    R (CtScalar fl I) :=
  match op with
  | some .assign => return rhs
  | op => do
    let cur ← orFail A (ev.vals.lookup name)
    match op.bind AssignOp.binary with
    | some b => ctArith A b cur rhs
    | none => A.fail

/-- `AST_ASSIGN` to a local. -/
def ctAssignIdent (op : Option AssignOp) (name : Str) (value : Expr fl) (ev : CtEval fl I) :
    R (CtFlow fl I) := do
  let rhs ← ctEvalScalar A cs ev value
  let v ← ctAssigned A op name ev rhs
  return .normal (ev.set name v)

/-- The loop of `AST_FOR`, of at most `n` rounds. -/
def ctRounds (body : CtEval fl I → R (CtFlow fl I)) (var : Str) (hi : I) :
    Nat → I → CtEval fl I → R (CtFlow fl I)
  | 0, _, ev => return .normal ev
  | n + 1, iv, ev =>
    if A.toInt iv < A.toInt hi then do
      let ev ← orFail A ev.tick
      let f ← body (ev.set var (.int iv))
      f.andThen fun ev => do
        let iv ← A.succ iv
        ctRounds body var hi n iv ev
    else return .normal ev

def asBounds (lo hi : CtScalar fl I) : R (I × I) :=
  match lo, hi with
  | .int a, .int b => return (a, b)
  | _, _ => A.fail

/-- `AST_RETURN` -/
def ctReturn (value : Option (Expr fl)) (ev : CtEval fl I) : R (CtFlow fl I) :=
  match value with
  | none => A.fail
  | some (.ident name) =>
    if (ev.arrs.lookup name).isSome then return .returnedArray name
    else do
      let v ← ctEvalScalar A cs ev (.ident name)
      return .returned v
  | some e => do
    let v ← ctEvalScalar A cs ev e
    return .returned v

mutual

/-- `ct_exec_stmt` -/
def ctExecStmt : Stmt fl → CtEval fl I → R (CtFlow fl I)
  | .varDecl type name init, ev => do
    let ev ← orFail A ev.tick
    ctVarDecl A cs type name init ev
  | .assign op (.ident name) value, ev => do
    let ev ← orFail A ev.tick
    ctAssignIdent A cs op name value ev
  | .assign op (.index object index) value, ev => do
    let ev ← orFail A ev.tick
    ctAssignIndex A cs op object index value ev
  | .assign _ .other _, _ => A.fail
  | .ifStmt cond thenBlock elseBlock, ev => do
    let ev ← orFail A ev.tick
    let c ← ctEvalScalar A cs ev cond
    if isTrue A c = true then ctExecBlock thenBlock ev else ctExecBlock elseBlock ev
  | .forStmt var (some (start, stop)) body, ev => do
    let ev ← orFail A ev.tick
    let lo ← ctEvalScalar A cs ev start
    let hi ← ctEvalScalar A cs ev stop
    let bounds ← asBounds A lo hi
    ctRounds A (ctExecBlock body) var bounds.2 (A.toInt bounds.2 - A.toInt bounds.1).toNat bounds.1 ev
  | .forStmt _ none _, _ => A.fail
  | .block b, ev => do
    let ev ← orFail A ev.tick
    ctExecBlock b ev
  | .exprStmt e, ev => do
    let ev ← orFail A ev.tick
    let _ ← ctEvalScalar A cs ev e
    return .normal ev
  | .ret value, ev => do
    let ev ← orFail A ev.tick
    ctReturn A cs value ev
  | .other, _ => A.fail

/-- `ct_exec_block` -/
def ctExecBlock : Block fl → CtEval fl I → R (CtFlow fl I)
  | .nil, ev => return .normal ev
  | .cons s rest, ev => do
    let f ← ctExecStmt s ev
    f.andThen (ctExecBlock rest)

end

end Eval

end LsLang.Comptime.Host
