import LsLang.Comptime.Host

/-! When every arithmetic step of the evaluator has a meaning in C. -/

namespace LsLang.Comptime.Host

open LsLang.Core LsLang.Lib LsLang.Types LsLang.Undefined

/-- The values of `long long`. -/
def InLongLong (z : Int) : Prop := -2 ^ 63 ≤ z ∧ z < 2 ^ 63

instance (z : Int) : Decidable (InLongLong z) := inferInstanceAs (Decidable (_ ∧ _))

def okIf {α : Type} (p : Prop) [Decidable p] (a : α) : Res α := if p then .ok a else .stuck

/-- `long long`, as C defines its operations. -/
def machine (fl : Floats) : Arith fl LongLong Res where
  fail := .fail
  ofBits := id
  toInt := BitVec.toInt
  ofDouble f := match fl.trunc f with
    | some z => okIf (InLongLong z) (BitVec.ofInt 64 z)
    | none => .stuck
  neg a := okIf (a.negOverflow = false) (-a)
  abs a := okIf (a.negOverflow = false) (if a.toInt < 0 then -a else a)
  compl a := ~~~a
  succ a := okIf (a.saddOverflow 1 = false) (a + 1)
  add a b := okIf (a.saddOverflow b = false) (a + b)
  sub a b := okIf (a.ssubOverflow b = false) (a - b)
  mul a b := okIf (a.smulOverflow b = false) (a * b)
  div a b := okIf (¬ (a = BitVec.intMin 64 ∧ b = -1)) (a.sdiv b)
  mod a b := okIf (¬ (a = BitVec.intMin 64 ∧ b = -1)) (a.srem b)
  shl a b := okIf (b.toNat < 64 ∧ 0 ≤ a.toInt ∧ a.toInt * 2 ^ b.toNat < 2 ^ 63) (a <<< b.toNat)
  shr a b := okIf (b.toNat < 64) (a.sshiftRight b.toNat)
  and a b := a &&& b
  or a b := a ||| b
  xor a b := a ^^^ b

/-- A number, and what has to hold for `long long` to have it. -/
def relyOn (p : Prop) (z : Int) : Exact Int := ⟨p, some z⟩

def bitwise (f : LongLong → LongLong → LongLong) (a b : Int) : Int :=
  (f (BitVec.ofInt 64 a) (BitVec.ofInt 64 b)).toInt

/-- The numbers, and what the steps on them rely on. -/
def numbers (fl : Floats) : Arith fl Int Exact where
  fail := ⟨True, none⟩
  ofBits := BitVec.toInt
  toInt := id
  ofDouble f := relyOn (∃ z, fl.trunc f = some z ∧ InLongLong z) ((fl.trunc f).getD 0)
  neg a := relyOn (InLongLong (-a)) (-a)
  abs a := relyOn (InLongLong |a|) |a|
  compl a := -a - 1
  succ a := relyOn True (a + 1)
  add a b := relyOn (InLongLong (a + b)) (a + b)
  sub a b := relyOn (InLongLong (a - b)) (a - b)
  mul a b := relyOn (InLongLong (a * b)) (a * b)
  div a b := relyOn (¬ (a = -2 ^ 63 ∧ b = -1)) (a.tdiv b)
  mod a b := relyOn (¬ (a = -2 ^ 63 ∧ b = -1)) (a.tmod b)
  shl a b := relyOn (0 ≤ b ∧ b < 64 ∧ 0 ≤ a ∧ InLongLong (a * 2 ^ b.toNat)) (a * 2 ^ b.toNat)
  shr a b := relyOn (0 ≤ b ∧ b < 64) (a >>> b.toNat)
  and := bitwise (· &&& ·)
  or := bitwise (· ||| ·)
  xor := bitwise (· ^^^ ·)

theorem follows_okIf {p q : Prop} [Decidable p] {a : LongLong} {z : Int} (hpq : p ↔ q)
    (hview : p → a.toInt = z) : Follows BitVec.toInt (okIf p a) (relyOn q z) :=
  Follows.guard hpq hview

theorem inLongLong_toInt (a : LongLong) : InLongLong a.toInt := by
  have h1 := BitVec.le_toInt a
  have h2 := @BitVec.toInt_lt 64 a
  exact ⟨by simpa using h1, by simpa using h2⟩

section Step

variable (fl : Floats) (a b : LongLong)

theorem not_negOverflow : a.negOverflow = false ↔ InLongLong (-a.toInt) := by
  have ha := inLongLong_toInt a
  unfold InLongLong at *
  rw [BitVec.negOverflow, beq_eq_false_iff_ne]
  norm_num
  omega

theorem follows_neg : Follows BitVec.toInt ((machine fl).neg a) ((numbers fl).neg a.toInt) := by
  apply follows_okIf (not_negOverflow a)
  intro h
  rw [BitVec.toInt_neg_of_not_negOverflow (by simp [h])]

theorem follows_abs : Follows BitVec.toInt ((machine fl).abs a) ((numbers fl).abs a.toInt) := by
  have ha := inLongLong_toInt a
  apply follows_okIf
  · rw [not_negOverflow]
    unfold InLongLong at *
    grind
  · intro h
    by_cases hsign : a.toInt < 0
    · rw [if_pos hsign, BitVec.toInt_neg_of_not_negOverflow (by simp [h]), abs_of_neg hsign]
    grind

theorem follows_add : Follows BitVec.toInt ((machine fl).add a b) ((numbers fl).add a.toInt b.toInt) := by
  apply follows_okIf
  · unfold BitVec.saddOverflow InLongLong
    norm_num
    omega
  · intro h
    exact BitVec.toInt_add_of_not_saddOverflow (by simp [h])

theorem follows_sub : Follows BitVec.toInt ((machine fl).sub a b) ((numbers fl).sub a.toInt b.toInt) := by
  apply follows_okIf
  · unfold BitVec.ssubOverflow InLongLong
    norm_num
    omega
  · intro h
    exact BitVec.toInt_sub_of_not_ssubOverflow (by simp [h])

theorem follows_mul : Follows BitVec.toInt ((machine fl).mul a b) ((numbers fl).mul a.toInt b.toInt) := by
  apply follows_okIf
  · unfold BitVec.smulOverflow InLongLong
    norm_num
    omega
  · intro h
    exact BitVec.toInt_mul_of_not_smulOverflow (by simp [h])

theorem least_and_minus_one :
    a = BitVec.intMin 64 ∧ b = -1 ↔ a.toInt = -2 ^ 63 ∧ b.toInt = -1 := by
  rw [← BitVec.toInt_inj, ← BitVec.toInt_inj]
  rfl

theorem follows_div : Follows BitVec.toInt ((machine fl).div a b) ((numbers fl).div a.toInt b.toInt) := by
  apply follows_okIf
  · rw [least_and_minus_one]
  · intro h
    rw [BitVec.toInt_sdiv_of_ne_or_ne]
    grind

theorem follows_mod : Follows BitVec.toInt ((machine fl).mod a b) ((numbers fl).mod a.toInt b.toInt) := by
  apply follows_okIf
  · rw [least_and_minus_one]
  · intro h
    exact BitVec.toInt_srem a b

theorem count_iff : b.toNat < 64 ↔ 0 ≤ b.toInt ∧ b.toInt < 64 := by
  have hb := b.isLt
  grind

theorem toNat_of_nonneg (h : 0 ≤ a.toInt) : (a.toNat : Int) = a.toInt := by
  have ha := a.isLt
  grind

theorem toNat_count (h : b.toNat < 64) : b.toInt.toNat = b.toNat := by grind

theorem follows_shl : Follows BitVec.toInt ((machine fl).shl a b) ((numbers fl).shl a.toInt b.toInt) := by
  apply follows_okIf
  · rw [count_iff, and_assoc]
    refine and_congr_right fun h0 => and_congr_right fun h64 => and_congr_right fun ha => ?_
    rw [toNat_count b ((count_iff b).2 ⟨h0, h64⟩)]
    unfold InLongLong
    have hpos : 0 ≤ a.toInt * 2 ^ b.toNat := by positivity
    grind
  · rintro ⟨hcount, ha, hfits⟩
    rw [toNat_count b hcount, BitVec.toInt_shiftLeft, Int.natCast_shiftLeft, Int.shiftLeft_eq,
      toNat_of_nonneg a ha]
    have hpos : 0 ≤ a.toInt * 2 ^ b.toNat := by positivity
    grind

theorem follows_shr : Follows BitVec.toInt ((machine fl).shr a b) ((numbers fl).shr a.toInt b.toInt) := by
  apply follows_okIf (count_iff b)
  intro hcount
  rw [toNat_count b hcount, BitVec.toInt_sshiftRight]

theorem follows_ofDouble (f : fl.Double) :
    Follows BitVec.toInt ((machine fl).ofDouble f) ((numbers fl).ofDouble f) := by
  unfold machine numbers
  simp only
  cases hz : fl.trunc f with
  | none =>
    rintro ⟨z, hsome, -⟩
    cases hsome
  | some z =>
    apply follows_okIf
    · simp
    · intro hfits
      rw [BitVec.toInt_ofInt]
      unfold InLongLong at hfits
      grind

theorem toInt_compl : (~~~a).toInt = -a.toInt - 1 := by grind

theorem follows_succ (h : a.toInt < b.toInt) :
    Follows BitVec.toInt ((machine fl).succ a) ((numbers fl).succ a.toInt) := by
  have hb := inLongLong_toInt b
  have ha := inLongLong_toInt a
  unfold InLongLong at ha hb
  have hone : (1 : LongLong).toInt = 1 := rfl
  have hover : a.saddOverflow 1 = false := by
    unfold BitVec.saddOverflow
    grind
  apply follows_okIf
  · grind
  grind

end Step

section View

variable {fl : Floats}

def CtScalar.view : CtScalar fl LongLong → CtScalar fl Int
  | int i => int i.toInt
  | flt f => flt f

def CtArray.view (arr : CtArray fl LongLong) : CtArray fl Int :=
  ⟨arr.isFloat, arr.elems.map CtScalar.view⟩

/-- The state with the numbers that its integers are. -/
def CtEval.view (ev : CtEval fl LongLong) : CtEval fl Int where
  vals := ev.vals.map fun b => (b.1, b.2.view)
  arrs := ev.arrs.map fun b => (b.1, b.2.view)
  budget := ev.budget

def CtFlow.view : CtFlow fl LongLong → CtFlow fl Int
  | normal ev => normal ev.view
  | returned v => returned v.view
  | returnedArray name => returnedArray name

theorem ctsToF_view (v : CtScalar fl LongLong) : ctsToF (numbers fl) v.view = ctsToF (machine fl) v := by
  cases v <;> rfl

theorem isTrue_view (v : CtScalar fl LongLong) : isTrue (numbers fl) v.view = isTrue (machine fl) v := by
  unfold isTrue
  rw [ctsToF_view]

theorem ofConst_view (v : CtScalar fl LongLong) :
    (ofConst (machine fl) v).view = ofConst (numbers fl) v := by
  cases v <;> rfl

theorem lookup_map {α β : Type} (f : α → β) (name : Str) (l : List (Str × α)) :
    (l.map fun b => (b.1, f b.2)).lookup name = (l.lookup name).map f := by
  induction l with
  | nil => rfl
  | cons b l ih =>
    grind

theorem rebind_map {α β : Type} (f : α → β) (name : Str) (v : α) (l : List (Str × α)) :
    (rebind name v l).map (fun b => (b.1, f b.2)) = rebind name (f v) (l.map fun b => (b.1, f b.2)) := by
  induction l with
  | nil => rfl
  | cons b l ih =>
    rw [rebind, List.map_cons, rebind]
    grind

theorem set_view (ev : CtEval fl LongLong) (name : Str) (v : CtScalar fl LongLong) :
    (ev.set name v).view = ev.view.set name v.view := by
  unfold CtEval.set CtEval.view
  rw [lookup_map, Option.isSome_map, apply_ite (List.map _), rebind_map]
  rfl

theorem declare_view (ev : CtEval fl LongLong) (name : Str) (len : Nat) (isFloat : Bool) :
    (ev.declare (machine fl) name len isFloat).view = ev.view.declare (numbers fl) name len isFloat := by
  unfold CtEval.declare CtEval.view CtArray.view
  cases isFloat
  · simp only [List.map_cons, List.map_replicate]
    rfl
  · simp only [List.map_cons, List.map_replicate]
    rfl

theorem tick_view (ev : CtEval fl LongLong) : ev.view.tick = ev.tick.map CtEval.view := by
  unfold CtEval.tick
  rw [apply_ite (Option.map CtEval.view)]
  rfl

theorem follows_orFail {α β : Type} (view : α → β) (o : Option α) :
    Follows view (orFail (machine fl) o) (orFail (numbers fl) (o.map view)) := by
  cases o with
  | none => exact Follows.fail
  | some a => exact Follows.pure a

theorem follows_arr (ev : CtEval fl LongLong) (name : Str) :
    Follows CtArray.view (orFail (machine fl) (ev.arrs.lookup name))
      (orFail (numbers fl) (ev.view.arrs.lookup name)) := by
  rw [show ev.view.arrs.lookup name = (ev.arrs.lookup name).map CtArray.view from
    lookup_map CtArray.view name ev.arrs]
  exact follows_orFail CtArray.view _

theorem follows_integer {r : Res LongLong} {x : Exact Int} (h : Follows BitVec.toInt r x) :
    Follows (@CtScalar.view fl) (integer r) (integer x) :=
  h.bind fun a => Follows.pure (CtScalar.int a)

theorem follows_asIndex (len : Nat) (v : CtScalar fl LongLong) :
    Follows id (asIndex (machine fl) len v) (asIndex (numbers fl) len v.view) := by
  cases v with
  | flt f => exact Follows.fail
  | int i =>
    apply Follows.ite Iff.rfl
    · intro _
      exact Follows.fail
    · intro _
      exact (Follows.pure i.toInt.toNat : Follows id _ _)

theorem follows_ctUnary (op : Option UnaryOp) (v : CtScalar fl LongLong) :
    Follows CtScalar.view (ctUnary (machine fl) op v) (ctUnary (numbers fl) op v.view) := by
  cases op with
  | none => exact Follows.fail
  | some op =>
    cases op with
    | minus =>
      cases v with
      | int i => exact follows_integer (follows_neg fl i)
      | flt f => exact Follows.pure (CtScalar.flt (fl.neg f))
    | bang =>
      unfold ctUnary
      simp only [isTrue_view]
      exact Follows.pure (ofBool (machine fl) _)
    | tilde =>
      cases v with
      | int i =>
        have h : Follows (@CtScalar.view fl) (pure (.int (~~~i))) (pure (.int (~~~i).toInt)) :=
          Follows.pure _
        rwa [toInt_compl] at h
      | flt f => exact Follows.fail

theorem follows_ctCast (target : Option Scalar) (v : CtScalar fl LongLong) :
    Follows CtScalar.view (ctCast (machine fl) target v) (ctCast (numbers fl) target v.view) := by
  cases target with
  | none => exact Follows.fail
  | some t =>
    unfold ctCast
    simp only [ctsToF_view, isTrue_view]
    by_cases hfloat : t.isFloat = true
    · rw [if_pos hfloat, if_pos hfloat]
      exact Follows.pure (CtScalar.flt _)
    rw [if_neg hfloat, if_neg hfloat]
    by_cases hint : t.isInteger = true
    · rw [if_pos hint, if_pos hint]
      cases v with
      | int i => exact Follows.pure (CtScalar.int i)
      | flt f => exact follows_integer (follows_ofDouble fl f)
    · rw [if_neg hint, if_neg hint]
      exact Follows.pure (ofBool (machine fl) _)

theorem follows_bitwise (f : LongLong → LongLong → LongLong) (a b : LongLong) :
    Follows BitVec.toInt (pure (f a b)) (pure (bitwise f a.toInt b.toInt)) := by
  unfold bitwise
  rw [BitVec.ofInt_toInt, BitVec.ofInt_toInt]
  exact Follows.pure _

theorem follows_ctIntOp (op : BinaryOp) (a b : LongLong) :
    Follows BitVec.toInt (ctIntOp (machine fl) op a b) (ctIntOp (numbers fl) op a.toInt b.toInt) := by
  cases op with
  | plus => exact follows_add fl a b
  | minus => exact follows_sub fl a b
  | star => exact follows_mul fl a b
  | slash =>
    apply Follows.ite Iff.rfl
    · intro _
      exact Follows.fail
    · intro _
      exact follows_div fl a b
  | percent =>
    apply Follows.ite Iff.rfl
    · intro _
      exact Follows.fail
    · intro _
      exact follows_mod fl a b
  | amp => exact follows_bitwise (· &&& ·) a b
  | pipe => exact follows_bitwise (· ||| ·) a b
  | caret => exact follows_bitwise (· ^^^ ·) a b
  | lshift => exact follows_shl fl a b
  | rshift => exact follows_shr fl a b
  | lt | gt | leq | geq | eq | neq | and | or => exact Follows.fail

theorem follows_float (o : Option fl.Double) : Follows CtScalar.view
    (orFail (machine fl) (o.map CtScalar.flt)) (orFail (numbers fl) (o.map CtScalar.flt)) := by
  cases o with
  | none => exact Follows.fail
  | some f => exact Follows.pure (CtScalar.flt f)

theorem follows_ctArith (op : BinaryOp) (l r : CtScalar fl LongLong) :
    Follows CtScalar.view (ctArith (machine fl) op l r) (ctArith (numbers fl) op l.view r.view) := by
  cases l with
  | int a =>
    cases r with
    | int b => exact follows_integer (follows_ctIntOp op a b)
    | flt g => exact follows_float _
  | flt f =>
    cases r with
    | int b => exact follows_float _
    | flt g => exact follows_float _

theorem follows_ctBinary (op : Option BinaryOp) (l r : CtScalar fl LongLong) :
    Follows CtScalar.view (ctBinary (machine fl) op l r) (ctBinary (numbers fl) op l.view r.view) := by
  cases op with
  | none => exact Follows.fail
  | some op =>
    unfold ctBinary
    simp only [ctsToF_view]
    cases ctCompare op (ctsToF (machine fl) l) (ctsToF (machine fl) r) with
    | none => exact follows_ctArith op l r
    | some b => exact Follows.pure (ofBool (machine fl) b)

theorem ctMinMax_view (isMin : Bool) (l r : CtScalar fl LongLong) :
    (ctMinMax (machine fl) isMin l r).view = ctMinMax (numbers fl) isMin l.view r.view := by
  cases l with
  | int a =>
    cases r with
    | int b =>
      apply congrArg CtScalar.int
      cases isMin with
      | true => exact apply_ite BitVec.toInt (a.toInt < b.toInt) a b
      | false => exact apply_ite BitVec.toInt (b.toInt < a.toInt) a b
    | flt g => rfl
  | flt f =>
    cases r with
    | int b => rfl
    | flt g => rfl

theorem follows_ctMathFn (fn : Str) (args : List (CtScalar fl LongLong)) :
    Follows CtScalar.view (ctMathFn (machine fl) fn args)
      (ctMathFn (numbers fl) fn (args.map CtScalar.view)) := by
  match args with
  | [] => exact Follows.fail
  | [a] =>
    simp only [ctMathFn, List.map_cons, List.map_nil, ctsToF_view]
    split_ifs
    · cases a with
      | int i => exact follows_integer (follows_abs fl i)
      | flt f => exact Follows.pure (CtScalar.flt (fl.abs f))
    · exact Follows.fail
    · exact Follows.pure (CtScalar.flt _)
  | [a, b] =>
    simp only [ctMathFn, List.map_cons, List.map_nil, ctsToF_view, ← ctMinMax_view]
    split_ifs
    · exact Follows.pure _
    · exact Follows.pure _
    · exact Follows.pure (CtScalar.flt _)
  | _ :: _ :: _ :: _ => exact Follows.fail

section Run

variable (cs : Consts fl)

mutual

theorem follows_ctEvalScalar (ev : CtEval fl LongLong) : ∀ e : Expr fl,
    Follows CtScalar.view (ctEvalScalar (machine fl) cs ev e) (ctEvalScalar (numbers fl) cs ev.view e)
  | .intLit v => by
    rw [ctEvalScalar, ctEvalScalar]
    exact Follows.pure (CtScalar.int v)
  | .floatLit f => by
    rw [ctEvalScalar, ctEvalScalar]
    exact Follows.pure (CtScalar.flt f)
  | .boolLit b => by
    rw [ctEvalScalar, ctEvalScalar]
    exact Follows.pure (ofBool (machine fl) b)
  | .ident name => by
    rw [ctEvalScalar, ctEvalScalar]
    rw [show ev.view.vals.lookup name = (ev.vals.lookup name).map CtScalar.view from
      lookup_map CtScalar.view name ev.vals]
    have hconst : (cs name).map (ofConst (numbers fl)) =
        ((cs name).map (ofConst (machine fl))).map CtScalar.view := by
      rw [Option.map_map]
      exact congrArg (fun f => (cs name).map f) (funext fun v => (ofConst_view v).symm)
    rw [hconst, ← Option.map_or]
    exact follows_orFail CtScalar.view _
  | .mathConst name => by
    rw [ctEvalScalar, ctEvalScalar]
    exact follows_float _
  | .index object index => by
    rw [ctEvalScalar, ctEvalScalar]
    apply (follows_arr ev object).bind
    intro arr
    apply (follows_ctEvalScalar ev index).bind
    intro idx
    have hlength : arr.view.elems.length = arr.elems.length := List.length_map CtScalar.view
    rw [hlength]
    apply (follows_asIndex arr.elems.length idx).bind
    intro i
    have hget : arr.view.elems[i]? = (arr.elems[i]?).map CtScalar.view := List.getElem?_map
    rw [id_eq, hget]
    exact follows_orFail CtScalar.view _
  | .mathCall fn args => by
    rw [ctEvalScalar, ctEvalScalar]
    split_ifs
    · exact (follows_ctEvalArgs ev args).bind fun vals => follows_ctMathFn fn vals
    · exact Follows.fail
  | .cast e target => by
    rw [ctEvalScalar, ctEvalScalar]
    exact (follows_ctEvalScalar ev e).bind fun v => follows_ctCast target v
  | .unary op e => by
    rw [ctEvalScalar, ctEvalScalar]
    exact (follows_ctEvalScalar ev e).bind fun v => follows_ctUnary op v
  | .binary op left right => by
    rw [ctEvalScalar, ctEvalScalar]
    exact (follows_ctEvalScalar ev left).bind fun l =>
      (follows_ctEvalScalar ev right).bind fun r => follows_ctBinary op l r
  | .other => by
    rw [ctEvalScalar, ctEvalScalar]
    exact Follows.fail

theorem follows_ctEvalArgs (ev : CtEval fl LongLong) : ∀ es : List (Expr fl),
    Follows (List.map CtScalar.view) (ctEvalArgs (machine fl) cs ev es)
      (ctEvalArgs (numbers fl) cs ev.view es)
  | [] => by
    rw [ctEvalArgs, ctEvalArgs]
    exact Follows.pure []
  | e :: es => by
    rw [ctEvalArgs, ctEvalArgs]
    exact (follows_ctEvalScalar ev e).bind fun v => (follows_ctEvalArgs ev es).bind fun vs =>
      Follows.pure (v :: vs)

end

theorem follows_coerce (isFloat : Bool) (v : CtScalar fl LongLong) :
    Follows CtScalar.view (coerce (machine fl) isFloat v) (coerce (numbers fl) isFloat v.view) := by
  unfold coerce
  rw [ctsToF_view]
  apply Follows.ite Iff.rfl
  · intro _
    exact Follows.pure (CtScalar.flt _)
  · intro _
    cases v with
    | int i => exact Follows.pure (CtScalar.int i)
    | flt f => exact Follows.fail

theorem follows_ctDeclared (type : Option DeclType) (v : CtScalar fl LongLong) :
    Follows CtScalar.view (ctDeclared (machine fl) type v) (ctDeclared (numbers fl) type v.view) := by
  cases type with
  | none => exact Follows.pure v
  | some type =>
    cases type with
    | array size elem => exact follows_coerce false v
    | scalar t => exact follows_coerce t.isFloat v
    | other => exact follows_coerce false v

theorem follows_normal (ev : CtEval fl LongLong) :
    Follows CtFlow.view (pure (.normal ev)) (pure (.normal ev.view)) :=
  Follows.pure (CtFlow.normal ev)

theorem follows_init (type : Option DeclType) (name : Str) (init : Option (Expr fl))
    (ev : CtEval fl LongLong) : Follows CtFlow.view
      (match init with
        | none => (machine fl).fail
        | some e => do
          let v ← ctEvalScalar (machine fl) cs ev e
          let v ← ctDeclared (machine fl) type v
          return .normal (ev.set name v))
      (match init with
        | none => (numbers fl).fail
        | some e => do
          let v ← ctEvalScalar (numbers fl) cs ev.view e
          let v ← ctDeclared (numbers fl) type v
          return .normal (ev.view.set name v)) := by
  cases init with
  | none => exact Follows.fail
  | some e =>
    apply (follows_ctEvalScalar cs ev e).bind
    intro v
    apply (follows_ctDeclared type v).bind
    intro v
    rw [← set_view]
    exact follows_normal _

theorem follows_ctVarDecl (type : Option DeclType) (name : Str) (init : Option (Expr fl))
    (ev : CtEval fl LongLong) : Follows CtFlow.view (ctVarDecl (machine fl) cs type name init ev)
      (ctVarDecl (numbers fl) cs type name init ev.view) := by
  cases type with
  | none => exact follows_init cs none name init ev
  | some type =>
    cases type with
    | array size elem =>
      cases elem with
      | none => exact Follows.fail
      | some t =>
        apply Follows.ite Iff.rfl
        · intro _
          exact Follows.fail
        · intro _
          rw [← declare_view]
          exact follows_normal _
    | scalar t => exact follows_init cs (some (.scalar t)) name init ev
    | other => exact follows_init cs (some .other) name init ev

theorem store_view (ev : CtEval fl LongLong) (object : Str) (arr : CtArray fl LongLong) (i : Nat)
    (v : CtScalar fl LongLong) :
    ({ ev with arrs := rebind object { arr with elems := arr.elems.set i v } ev.arrs } :
        CtEval fl LongLong).view =
      { ev.view with
        arrs := rebind object { arr.view with elems := arr.view.elems.set i v.view } ev.view.arrs } := by
  have hset : CtArray.view { arr with elems := arr.elems.set i v } =
      { arr.view with elems := arr.view.elems.set i v.view } := by
    unfold CtArray.view
    rw [List.map_set]
  rw [← hset]
  exact congrArg (fun arrs => ({ ev.view with arrs := arrs } : CtEval fl Int))
    (rebind_map CtArray.view object _ ev.arrs)

theorem follows_ctAssignIndex (op : Option AssignOp) (object : Str) (index value : Expr fl)
    (ev : CtEval fl LongLong) :
    Follows CtFlow.view (ctAssignIndex (machine fl) cs op object index value ev)
      (ctAssignIndex (numbers fl) cs op object index value ev.view) := by
  have hstore : Follows CtFlow.view
      (ctAssignIndex (machine fl) cs (some .assign) object index value ev)
      (ctAssignIndex (numbers fl) cs (some .assign) object index value ev.view) := by
    unfold ctAssignIndex
    apply (follows_arr ev object).bind
    intro arr
    apply (follows_ctEvalScalar cs ev index).bind
    intro idx
    rw [show arr.view.elems.length = arr.elems.length from List.length_map CtScalar.view]
    apply (follows_asIndex arr.elems.length idx).bind
    intro i
    apply (follows_ctEvalScalar cs ev value).bind
    intro v
    apply (follows_coerce arr.isFloat v).bind
    intro v
    rw [id_eq, ← store_view]
    exact follows_normal _
  cases op with
  | none => exact Follows.fail
  | some op =>
    cases op with
    | assign => exact hstore
    | plus | minus | star | slash => exact Follows.fail

theorem follows_val (ev : CtEval fl LongLong) (name : Str) :
    Follows CtScalar.view (orFail (machine fl) (ev.vals.lookup name))
      (orFail (numbers fl) (ev.view.vals.lookup name)) := by
  rw [show ev.view.vals.lookup name = (ev.vals.lookup name).map CtScalar.view from
    lookup_map CtScalar.view name ev.vals]
  exact follows_orFail CtScalar.view _

theorem follows_compound (op : Option AssignOp) (cur rhs : CtScalar fl LongLong) :
    Follows CtScalar.view
      (match op.bind AssignOp.binary with
        | some b => ctArith (machine fl) b cur rhs
        | none => (machine fl).fail)
      (match op.bind AssignOp.binary with
        | some b => ctArith (numbers fl) b cur.view rhs.view
        | none => (numbers fl).fail) := by
  cases op.bind AssignOp.binary with
  | none => exact Follows.fail
  | some b => exact follows_ctArith b cur rhs

theorem follows_ctAssigned (op : Option AssignOp) (name : Str) (ev : CtEval fl LongLong)
    (rhs : CtScalar fl LongLong) : Follows CtScalar.view (ctAssigned (machine fl) op name ev rhs)
      (ctAssigned (numbers fl) op name ev.view rhs.view) := by
  cases op with
  | none => exact (follows_val ev name).bind fun cur => follows_compound none cur rhs
  | some op =>
    cases op with
    | assign => exact Follows.pure rhs
    | plus => exact (follows_val ev name).bind fun cur => follows_compound (some .plus) cur rhs
    | minus => exact (follows_val ev name).bind fun cur => follows_compound (some .minus) cur rhs
    | star => exact (follows_val ev name).bind fun cur => follows_compound (some .star) cur rhs
    | slash => exact (follows_val ev name).bind fun cur => follows_compound (some .slash) cur rhs

theorem follows_ctAssignIdent (op : Option AssignOp) (name : Str) (value : Expr fl)
    (ev : CtEval fl LongLong) :
    Follows CtFlow.view (ctAssignIdent (machine fl) cs op name value ev)
      (ctAssignIdent (numbers fl) cs op name value ev.view) := by
  unfold ctAssignIdent
  apply (follows_ctEvalScalar cs ev value).bind
  intro rhs
  apply (follows_ctAssigned op name ev rhs).bind
  intro v
  rw [← set_view]
  exact follows_normal _

theorem follows_andThen {k : CtEval fl LongLong → Res (CtFlow fl LongLong)}
    {k' : CtEval fl Int → Exact (CtFlow fl Int)}
    (hnext : ∀ ev, Follows CtFlow.view (k ev) (k' ev.view)) (f : CtFlow fl LongLong) :
    Follows CtFlow.view (f.andThen k) (f.view.andThen k') := by
  cases f with
  | normal ev => exact hnext ev
  | returned v => exact Follows.pure (CtFlow.returned v)
  | returnedArray name => exact Follows.pure (CtFlow.returnedArray name)

theorem follows_tick (ev : CtEval fl LongLong) :
    Follows CtEval.view (orFail (machine fl) ev.tick) (orFail (numbers fl) ev.view.tick) := by
  rw [tick_view]
  exact follows_orFail CtEval.view _

theorem follows_ctRounds {body : CtEval fl LongLong → Res (CtFlow fl LongLong)}
    {body' : CtEval fl Int → Exact (CtFlow fl Int)}
    (hbody : ∀ ev, Follows CtFlow.view (body ev) (body' ev.view)) (var : Str) (hi : LongLong)
    (n : Nat) : ∀ (iv : LongLong) (ev : CtEval fl LongLong),
      Follows CtFlow.view (ctRounds (machine fl) body var hi n iv ev)
        (ctRounds (numbers fl) body' var hi.toInt n iv.toInt ev.view) := by
  induction n with
  | zero => exact fun _ ev => follows_normal ev
  | succ n ih =>
    intro iv ev
    unfold ctRounds
    apply Follows.ite Iff.rfl
    · intro hlt
      apply (follows_tick ev).bind
      intro ev
      rw [show CtScalar.int iv.toInt = (CtScalar.int iv : CtScalar fl LongLong).view from rfl,
        ← set_view]
      apply (hbody _).bind
      apply follows_andThen
      intro ev
      -- the counter is below the bound here
      exact (follows_succ fl iv hi hlt).bind fun iv => ih iv ev
    · intro _
      exact follows_normal ev

theorem follows_asBounds (lo hi : CtScalar fl LongLong) :
    Follows (Prod.map BitVec.toInt BitVec.toInt) (asBounds (machine fl) lo hi)
      (asBounds (numbers fl) lo.view hi.view) := by
  cases lo with
  | flt f => cases hi <;> exact Follows.fail
  | int a =>
    cases hi with
    | flt f => exact Follows.fail
    | int b => exact Follows.pure (a, b)

theorem follows_returned (ev : CtEval fl LongLong) (e : Expr fl) :
    Follows CtFlow.view
      (do
        let v ← ctEvalScalar (machine fl) cs ev e
        return .returned v)
      (do
        let v ← ctEvalScalar (numbers fl) cs ev.view e
        return .returned v) :=
  (follows_ctEvalScalar cs ev e).bind fun v => Follows.pure (CtFlow.returned v)

theorem follows_ctReturn (value : Option (Expr fl)) (ev : CtEval fl LongLong) :
    Follows CtFlow.view (ctReturn (machine fl) cs value ev)
      (ctReturn (numbers fl) cs value ev.view) := by
  cases value with
  | none => exact Follows.fail
  | some e =>
    cases e with
    | ident name =>
      apply Follows.ite
      · rw [show ev.view.arrs.lookup name = (ev.arrs.lookup name).map CtArray.view from
          lookup_map CtArray.view name ev.arrs, Option.isSome_map]
      · intro _
        exact Follows.pure (CtFlow.returnedArray name)
      · intro _
        exact follows_returned cs ev (.ident name)
    | intLit | floatLit | boolLit | mathConst | index | mathCall | cast | unary | binary | other =>
      exact follows_returned cs ev _

mutual

theorem follows_ctExecStmt : ∀ (s : Stmt fl) (ev : CtEval fl LongLong),
    Follows CtFlow.view (ctExecStmt (machine fl) cs s ev) (ctExecStmt (numbers fl) cs s ev.view)
  | .varDecl type name init, ev => by
    rw [ctExecStmt, ctExecStmt]
    exact (follows_tick ev).bind fun ev => follows_ctVarDecl cs type name init ev
  | .assign op (.ident name) value, ev => by
    rw [ctExecStmt, ctExecStmt]
    exact (follows_tick ev).bind fun ev => follows_ctAssignIdent cs op name value ev
  | .assign op (.index object index) value, ev => by
    rw [ctExecStmt, ctExecStmt]
    exact (follows_tick ev).bind fun ev => follows_ctAssignIndex cs op object index value ev
  | .assign op .other value, ev => by
    rw [ctExecStmt, ctExecStmt]
    exact Follows.fail
  | .ifStmt cond thenBlock elseBlock, ev => by
    rw [ctExecStmt, ctExecStmt]
    apply (follows_tick ev).bind
    intro ev
    apply (follows_ctEvalScalar cs ev cond).bind
    intro c
    rw [isTrue_view]
    apply Follows.ite Iff.rfl
    · exact fun _ => follows_ctExecBlock thenBlock ev
    · exact fun _ => follows_ctExecBlock elseBlock ev
  | .forStmt var (some (start, stop)) body, ev => by
    rw [ctExecStmt, ctExecStmt]
    apply (follows_tick ev).bind
    intro ev
    apply (follows_ctEvalScalar cs ev start).bind
    intro lo
    apply (follows_ctEvalScalar cs ev stop).bind
    intro hi
    apply (follows_asBounds lo hi).bind
    rintro ⟨a, b⟩
    exact follows_ctRounds (follows_ctExecBlock body) var b _ a ev
  | .forStmt var none body, ev => by
    rw [ctExecStmt, ctExecStmt]
    exact Follows.fail
  | .block b, ev => by
    rw [ctExecStmt, ctExecStmt]
    exact (follows_tick ev).bind fun ev => follows_ctExecBlock b ev
  | .exprStmt e, ev => by
    rw [ctExecStmt, ctExecStmt]
    apply (follows_tick ev).bind
    intro ev
    exact (follows_ctEvalScalar cs ev e).bind fun _ => follows_normal ev
  | .ret value, ev => by
    rw [ctExecStmt, ctExecStmt]
    exact (follows_tick ev).bind fun ev => follows_ctReturn cs value ev
  | .other, ev => by
    rw [ctExecStmt, ctExecStmt]
    exact Follows.fail

theorem follows_ctExecBlock : ∀ (b : Block fl) (ev : CtEval fl LongLong),
    Follows CtFlow.view (ctExecBlock (machine fl) cs b ev) (ctExecBlock (numbers fl) cs b ev.view)
  | .nil, ev => by
    rw [ctExecBlock, ctExecBlock]
    exact follows_normal ev
  | .cons s rest, ev => by
    rw [ctExecBlock, ctExecBlock]
    exact (follows_ctExecStmt s ev).bind (follows_andThen (follows_ctExecBlock rest))

end

end Run

end View

/-- No step of an expression or of a block is undefined if and only if the same run on the numbers
themselves meets no operation that `long long` does not have. -/
theorem ct_arith_defined_iff {fl : Floats} (cs : Consts fl) (ev : CtEval fl LongLong) :
    (∀ e, ctEvalScalar (machine fl) cs ev e ≠ .stuck ↔
      (ctEvalScalar (numbers fl) cs ev.view e).relies) ∧
    (∀ b, ctExecBlock (machine fl) cs b ev ≠ .stuck ↔
      (ctExecBlock (numbers fl) cs b ev.view).relies) := by
  constructor
  · intro e
    rw [Ne, (follows_ctEvalScalar cs ev e).stuck_iff, not_not]
  · intro b
    rw [Ne, (follows_ctExecBlock cs b ev).stuck_iff, not_not]

def wholeFloats : Floats where
  Double := Int
  ofInt := id
  add := Int.add
  sub := Int.sub
  mul := Int.mul
  div := Int.tdiv
  neg := Int.neg
  abs x := |x|
  lt x y := decide (x < y)
  eq x y := decide (x = y)
  trunc := some
  pi := 3
  e := 3
  tau := 6
  inf := 2 ^ 1024
  nan := 0
  libm _ x _ := x

/-- `(-9223372036854775807 - 1) / -1` -/
def leastByMinusOne : Expr wholeFloats :=
  .binary (some .slash)
    (.binary (some .minus) (.unary (some .minus) (.intLit (BitVec.intMax 64))) (.intLit 1))
    (.unary (some .minus) (.intLit 1))

/-- `9223372036854775807 + 1` -/
def largestAndOne : Expr wholeFloats :=
  .binary (some .plus) (.intLit (BitVec.intMax 64)) (.intLit 1)

theorem ct_arith_undefined :
    ctEvalScalar (machine wholeFloats) (fun _ => none) ⟨[], [], 1⟩ leastByMinusOne = .stuck ∧
    ctEvalScalar (machine wholeFloats) (fun _ => none) ⟨[], [], 1⟩ largestAndOne = .stuck :=
  ⟨rfl, rfl⟩

end LsLang.Comptime.Host
