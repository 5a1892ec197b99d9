import LsLang.Scan.Scanner

/-! Place expressions, and the guards with which the checker keeps a read-only borrow from being
written (`checker_stmt.c`, `checker_expr.c`, `checker_call.c`). -/

namespace LsLang.Borrow
open LsLang.Core LsLang.Scan

/-- A type, as far as places go; a borrow variable has the type of what it borrows, except for
a parameter of a generic method, which keeps its `TYPE_REFERENCE`. -/
inductive Ty
  | struct (name : Str)
  | enum (name : Str)
  | array (elem : Ty)
  | slice (elem : Ty) (isMut : Bool)
  | pointer (pointee : Ty)
  | reference (pointee : Ty) (isMut : Bool)
  | block
  | other (name : Str)
  deriving DecidableEq

namespace Ty

def isStruct : Ty → Bool
  | struct _ => true
  | _ => false

def isAggregate : Ty → Bool
  | struct _ | enum _ => true
  | _ => false

/-- The receiver's type of a method call: what leads to a struct or an enum is followed. -/
def deref : Ty → Ty
  | pointer t => if t.isAggregate then t else pointer t
  | reference t m => if t.isAggregate then t else reference t m
  | t => t

end Ty

/-- `is_borrow`, `is_mut_borrow` or neither. -/
inductive Hold
  | owned | borrow | mutBorrow
  deriving DecidableEq

structure Symbol where
  ty : Ty
  hold : Hold

/-- `is_borrow` -/
def Symbol.isBorrow (s : Symbol) : Bool := decide (s.hold = .borrow)

/-- `method_self_borrow_kind`: a bare `self`, `&self`, `&!self`. -/
inductive SelfBorrow
  | implicit | shared | unique
  deriving DecidableEq

/-- What the checker knows of the types of the program. -/
structure Decls where
  /-- The type of a field of a struct. -/
  field : Str → Str → Option Ty
  /-- The instance methods of a type. -/
  method : Ty → Str → Option SelfBorrow
  /-- The element of the structs that can be sliced, `Vec(T)` and `Str`. -/
  sliceElem : Str → Option Ty
  hasDrop : Ty → Bool

abbrev Scope : Type := List (Str × Symbol)

/-- A variable, a field of a place, an element of one. An index on a struct is a call of
`__index` and no place. -/
inductive Place
  | ident (name : Str)
  | field (obj : Place) (name : Str)
  | index (obj : Place)

variable (D : Decls) (Γ : Scope)

def fieldTy (t : Ty) (f : Str) : Option Ty :=
  match t with
  | .struct s => D.field s f
  | .pointer (.struct s) => D.field s f
  | .reference (.struct s) _ => D.field s f
  | _ => none

def elemTy (t : Ty) : Option Ty :=
  match t with
  | .array e => some e
  | .slice e _ => some e
  | .pointer e => some e
  | _ => none

def typeOf : Place → Option Ty
  | .ident n => (Γ.lookup n).map Symbol.ty
  | .field p f => (typeOf p).bind fun t => fieldTy D t f
  | .index p => (typeOf p).bind elemTy

/-- `checker_place_root_symbol` -/
def Place.root : Place → Str
  | .ident n => n
  | .field p _ => p.root
  | .index p => p.root

/-- The root that `check_expr_mut_borrow` comes to: it follows fields only. -/
def Place.fieldRoot : Place → Option Str
  | .ident n => some n
  | .field p _ => p.fieldRoot
  | .index _ => none

inductive Form
  /-- An assignment, compound or not. -/
  | assign (target : Place)
  /-- `&!place` -/
  | mutBorrow (operand : Place)
  /-- `place[a..b]` where a writable slice is expected. -/
  | writableSlice (source : Place)
  /-- A method call; `place[i, j] = v` is one of `__index_set2`. -/
  | call (recv : Place) (method : Str)

/-- `checker_error`, or `checker_move_error`, which is silent in the first pass over a loop. -/
inductive Verdict
  | ok | error | moveError
  deriving DecidableEq

def borrows (n : Str) : Bool := ((Γ.lookup n).map Symbol.isBorrow).getD false

/-- The gate of `check_expr_call` on a method call of the variable `s`. -/
def Symbol.gate (s : Symbol) (kind : SelfBorrow) : Verdict :=
  match s.hold, kind with
  | .owned, _ => .ok
  | _, .implicit => .moveError
  | .borrow, .unique => .moveError
  | _, _ => .ok

/-- `check_expr_call` on the receiver of a method call. -/
def checkCall (p : Place) (m : Str) : Verdict :=
  match typeOf D Γ p with
  | none => .error
  | some t =>
    match D.method t.deref m with
    | none => .error
    | some kind =>
      match p with
      | .ident n =>
        -- only a variable of an aggregate type is asked whether it may be written
        if t.deref.isAggregate then
          match Γ.lookup n with
          | none => .error
          | some s => s.gate kind
        else .ok
      | _ => .ok

/-- `__index` -/
def indexGet : Str := lit ['_', '_', 'i', 'n', 'd', 'e', 'x']

/-- `__index_set`, the method that an assignment to an element of a struct calls. -/
def indexSet : Str := indexGet ++ lit ['_', 's', 'e', 't']

/-- The guard of `check_stmt_assign` on a field: it looks at a variable only. -/
def checkFieldBase : Place → Verdict
  | .ident n =>
    match Γ.lookup n with
    | none => .error
    | some s => if s.isBorrow && s.ty.isStruct then .moveError else .ok
  | _ => .ok

/-- `check_stmt_assign` on the target. -/
def checkAssign : Place → Verdict
  | .ident n =>
    match Γ.lookup n with
    | none => .error
    | some s => if s.isBorrow then .moveError else .ok
  | .field p f => if (typeOf D Γ (.field p f)).isSome then checkFieldBase Γ p else .error
  | .index p =>
    match typeOf D Γ p with
    | none => .error
    | some (.slice _ isMut) => if isMut then .ok else .error
    | some (.struct s) =>
      if (D.method (.struct s) indexSet).isSome then checkCall D Γ p indexSet
      else if (D.method (.struct s) indexGet).isSome then .ok else .error
    | some t => if (elemTy t).isSome then .ok else .error

/-- `check_expr_mut_borrow` -/
def checkMutBorrow : Place → Verdict
  | .ident n =>
    match Γ.lookup n with
    | none => .error
    | some s => if s.ty.isStruct && !s.isBorrow then .ok else .error
  | .field p f =>
    if (typeOf D Γ (.field p f)).isNone then .error
    else if p.fieldRoot.any (borrows Γ) then .error else .ok
  | .index _ => .error

def sliceElem : Ty → Option Ty
  | .struct s => D.sliceElem s
  | .slice e _ => some e
  | _ => none

/-- `check_expr_index` on a slice that has to be writable. -/
def checkWritableSlice (p : Place) : Verdict :=
  if ((typeOf D Γ p).bind (sliceElem D)).isNone then .error
  else if borrows Γ p.root then .error else .ok

def Form.check : Form → Verdict
  | .assign t => checkAssign D Γ t
  | .mutBorrow p => checkMutBorrow D Γ p
  | .writableSlice p => checkWritableSlice D Γ p
  | .call p m => checkCall D Γ p m

def IsRef (p : Place) : Prop := ∃ t, typeOf D Γ p = some (.reference t false)

/-- The place is reached from a read-only borrow: the variable of one, a field or an element in
a value that is reached so, or an element of a read-only slice. -/
def ReadOnly : Place → Prop
  | .ident n => borrows Γ n = true ∨ IsRef D Γ (.ident n)
  | .field p _ => ((∃ s, typeOf D Γ p = some (.struct s)) ∨ IsRef D Γ p) ∧ ReadOnly p
  | .index p => (∃ e, typeOf D Γ p = some (.array e)) ∧ ReadOnly p ∨
      ∃ e, typeOf D Γ p = some (.slice e false)

/-- An `&!self` method is called on the place, which is no pointer. -/
def CallWrites (p : Place) (m : Str) : Prop :=
  ∃ t, typeOf D Γ p = some t ∧ (∀ u, t ≠ .pointer u) ∧ D.method t.deref m = some .unique ∧
    ReadOnly D Γ p

def Form.WritesReadOnly : Form → Prop
  | .assign (.index p) =>
    ReadOnly D Γ (.index p) ∨
      (∃ s, typeOf D Γ p = some (.struct s)) ∧ CallWrites D Γ p indexSet
  | .assign t => ReadOnly D Γ t
  | .mutBorrow p => ReadOnly D Γ p
  | .writableSlice p =>
    (∃ s, typeOf D Γ p = some (.struct s)) ∧ ReadOnly D Γ p ∨
      ∃ e, typeOf D Γ p = some (.slice e false)
  | .call p m => CallWrites D Γ p m

def Marked (p : Place) : Prop := ∃ n, p = .ident n ∧ borrows Γ n = true

def CallLooked (p : Place) : Prop :=
  Marked Γ p ∧ ∃ t, typeOf D Γ p = some t ∧ t.deref.isAggregate = true

/-- The guard of the form looks at the variable that is borrowed, and sees it marked. -/
def Form.Looked : Form → Prop
  | .assign (.ident n) => Marked Γ (.ident n)
  | .assign (.field p _) => (∃ s, typeOf D Γ p = some (.struct s)) ∧ Marked Γ p
  | .assign (.index p) =>
    (∃ e m, typeOf D Γ p = some (.slice e m)) ∨
      (∃ s, typeOf D Γ p = some (.struct s)) ∧ Marked Γ p
  | .mutBorrow (.field p _) => ∃ n, p.fieldRoot = some n ∧ borrows Γ n = true
  | .mutBorrow _ => True
  | .writableSlice p => borrows Γ p.root = true
  | .call p _ => CallLooked D Γ p

end LsLang.Borrow

/-! Which of the writes through a read-only borrow the guards refuse: those whose place they
look at. -/

namespace LsLang.Borrow
open LsLang.Core
variable {D : Decls} {Γ : Scope}

theorem borrows_iff {n : Str} :
    borrows Γ n = true ↔ ∃ s, Γ.lookup n = some s ∧ s.hold = .borrow := by
  unfold borrows
  cases Γ.lookup n with
  | none => simp
  | some s => simp [Symbol.isBorrow]

theorem isBorrow_iff {s : Symbol} : s.isBorrow = true ↔ s.hold = .borrow := decide_eq_true_iff

theorem marked_ident {n : Str} : Marked Γ (.ident n) ↔ borrows Γ n = true := by
  constructor
  · rintro ⟨m, hm, hb⟩
    cases hm
    exact hb
  · exact fun h => ⟨n, rfl, h⟩

theorem Symbol.gate_unique {s : Symbol} : s.gate .unique = .ok ↔ s.hold ≠ .borrow := by
  unfold Symbol.gate
  cases s.hold <;> decide

theorem typeOf_ident {n : Str} {t : Ty} (h : typeOf D Γ (.ident n) = some t) :
    ∃ s, Γ.lookup n = some s ∧ s.ty = t := Option.map_eq_some_iff.mp h

theorem checkCall_ok_iff {p : Place} {m : Str} (h : CallWrites D Γ p m) :
    checkCall D Γ p m = .ok ↔ ¬CallLooked D Γ p := by
  obtain ⟨t, ht, -, hm, -⟩ := h
  have hl : CallLooked D Γ p ↔ Marked Γ p ∧ t.deref.isAggregate = true := by
    unfold CallLooked
    rw [ht]
    simp
  rw [hl]
  unfold checkCall
  rw [ht]
  dsimp only
  rw [hm]
  cases p with
  | ident n =>
    grind [Symbol.gate_unique, marked_ident, borrows_iff, typeOf_ident]
  | field q f => simp [Marked]
  | index q => simp [Marked]

theorem checkFieldBase_ok_iff {p : Place} (h : (typeOf D Γ p).isSome = true) :
    checkFieldBase Γ p = .ok ↔ ¬((∃ s, typeOf D Γ p = some (.struct s)) ∧ Marked Γ p) := by
  cases p with
  | ident n =>
    obtain ⟨t, ht⟩ := Option.isSome_iff_exists.mp h
    obtain ⟨y, hy, hyt⟩ := typeOf_ident ht
    rw [marked_ident, borrows_iff, ht, hy]
    dsimp only [checkFieldBase]
    rw [hy]
    dsimp only
    rw [← hyt]
    cases y.ty <;> by_cases hb : y.hold = .borrow <;> simp [Symbol.isBorrow, hb, Ty.isStruct]
  | field q f => simp [checkFieldBase, Marked]
  | index q => simp [checkFieldBase, Marked]

theorem checkAssign_struct {p : Place} {s : Str} (ht : typeOf D Γ p = some (.struct s))
    (hm : (D.method (.struct s) indexSet).isSome = true) :
    checkAssign D Γ (.index p) = checkCall D Γ p indexSet := by
  dsimp only [checkAssign]
  rw [ht]
  exact if_pos hm

theorem checkAssign_call {p : Place} {s : Str} (ht : typeOf D Γ p = some (.struct s))
    (hc : CallWrites D Γ p indexSet) :
    checkAssign D Γ (.index p) = .ok ↔ ¬Marked Γ p := by
  have hm : (D.method (.struct s) indexSet).isSome = true := by
    obtain ⟨t, ht', -, hm, -⟩ := hc
    rw [ht] at ht'
    cases ht'
    exact Option.isSome_iff_exists.mpr ⟨_, hm⟩
  rw [checkAssign_struct ht hm, checkCall_ok_iff hc]
  unfold CallLooked
  rw [ht]
  simp [Ty.deref, Ty.isAggregate]

theorem checkMutBorrow_ident {n : Str} (h : ReadOnly D Γ (.ident n)) :
    checkMutBorrow D Γ (.ident n) ≠ .ok := by
  dsimp only [checkMutBorrow]
  rcases h with h | ⟨t, ht⟩
  · obtain ⟨s, hs, hb⟩ := borrows_iff.mp h
    rw [hs]
    dsimp only
    rw [if_neg (by simp [isBorrow_iff.mpr hb])]
    decide
  · obtain ⟨s, hs, hst⟩ := typeOf_ident ht
    rw [hs]
    dsimp only
    rw [if_neg (by simp [hst, Ty.isStruct])]
    decide

theorem check_ne_ok {f : Form} (h : f.WritesReadOnly D Γ) (hl : f.Looked D Γ) :
    f.check D Γ ≠ .ok := by
  cases f with
  | assign t =>
    dsimp only [Form.check]
    cases t with
    | ident n =>
      obtain ⟨s, hs, hb⟩ := borrows_iff.mp (marked_ident.mp hl)
      dsimp only [checkAssign]
      rw [hs]
      dsimp only
      rw [if_pos (isBorrow_iff.mpr hb)]
      decide
    | field p g =>
      dsimp only [checkAssign]
      split_ifs
      · obtain ⟨s, hs⟩ := hl.1
        exact fun ho => (checkFieldBase_ok_iff (Option.isSome_iff_exists.mpr ⟨_, hs⟩)).mp ho hl
      · decide
    | index p =>
      rcases hl with ⟨e, m, ht⟩ | ⟨⟨s, ht⟩, hk⟩
      · have hm : m = false := by
          rcases h with (⟨⟨e', ht'⟩, -⟩ | ⟨e', ht'⟩) | ⟨⟨s, ht'⟩, -⟩ <;> rw [ht] at ht' <;>
            cases ht'
          rfl
        dsimp only [checkAssign]
        grind
      · rcases h with (⟨⟨e', ht'⟩, -⟩ | ⟨e', ht'⟩) | ⟨-, hc⟩
        · grind
        · grind
        · exact fun ho => (checkAssign_call ht hc).mp ho hk
  | mutBorrow p =>
    dsimp only [Form.check]
    cases p with
    | ident n => exact checkMutBorrow_ident h
    | field p g =>
      obtain ⟨n, hn, hb⟩ := hl
      dsimp only [checkMutBorrow]
      grind
    | index p =>
      intro hc
      cases hc
  | writableSlice p =>
    dsimp only [Form.check, checkWritableSlice]
    split_ifs with h₁ h₂
    · decide
    · decide
    · exact absurd hl h₂
  | call p m => exact fun ho => (checkCall_ok_iff h).mp ho hl

end LsLang.Borrow

/-! The walk of the checker over a function body, as far as it reports what the guards find.
The body of a loop is checked twice, the first time without move errors, and a binary
expression that has got a type is not checked again. -/

namespace LsLang.Borrow
open LsLang.Core

mutual

inductive Expr
  /-- No form inside. -/
  | plain
  /-- Two operands; a strict one has a type only when they do. -/
  | seq (strict : Bool) (l r : Expr)
  /-- `AST_BINARY` -/
  | binary (l r : Expr)
  /-- A form: what is checked before its guard, and what only when that passes. -/
  | form (f : Form) (pre : Expr) (strict : Bool) (post : Expr)
  | block (s : Stmt) (value : Expr)

/-- The initializer of a named local borrow: `&x`, `&!x`, another borrow, or a call whose result
is a borrow from a place. -/
inductive BorrowSource
  | amp (src : Str)
  | mutAmp (src : Str)
  | reborrow (src : Str)
  | call (e : Expr) (resultMut : Bool) (provenance : Place)

/-- A statement. The parts of a branch, an arm or a loop that are checked once stand before it. -/
inductive Stmt
  | skip
  | seq (s t : Stmt)
  | eval (e : Expr)
  /-- A local variable or the variable of a loop. -/
  | declare (name : Str) (ty : Ty) (init : Expr)
  /-- `&T r = ..` and `&!T r = ..` with a struct `T` -/
  | localBorrow (name : Str) (isMut : Bool) (pointee : Str) (init : BorrowSource)
  /-- An arm of a `match` on an enum; the subject may be a variable. -/
  | arm (subject : Option Str) (binders : List (Str × Ty)) (body : Stmt)
  | scope (body : Stmt)
  | loop (body : Stmt)

end

/-- A parameter: by value, `&T` or `&!T`. -/
inductive Param
  | value (t : Ty)
  | ref (t : Ty)
  | mutRef (t : Ty)

/-- The symbol of a parameter; a `Block` is held as a borrow. -/
def Param.symbol : Param → Symbol
  | value t => ⟨t, if t = .block then .borrow else .owned⟩
  | ref t => ⟨t, .borrow⟩
  | mutRef t => ⟨t, .mutBorrow⟩

/-- The symbol of a parameter in the body of a method with type parameters of its own: it is not
marked. -/
def Param.symbolUnmarked : Param → Symbol
  | value t => ⟨t, .owned⟩
  | ref t => ⟨.reference t false, .owned⟩
  | mutRef t => ⟨.reference t true, .owned⟩

/-- The symbol of `self`; without `&` it is a pointer. -/
def selfSymbol (t : Ty) : SelfBorrow → Symbol
  | .implicit => ⟨.pointer t, .owned⟩
  | .shared => ⟨t, .borrow⟩
  | .unique => ⟨t, .mutBorrow⟩

structure Function where
  self : Option (Ty × SelfBorrow)
  params : List (Str × Param)
  /-- A method with type parameters of its own. -/
  methodGeneric : Bool
  /-- The body of an instance is checked where it is first needed, which may be in the first pass
  over a loop. -/
  silent : Bool
  body : Stmt

def selfName : Str := [115, 101, 108, 102]

def Function.scope (f : Function) : Scope :=
  (f.params.map fun p => (p.1, if f.methodGeneric then p.2.symbolUnmarked else p.2.symbol)).reverse ++
    (f.self.map fun s => (selfName, selfSymbol s.1 s.2)).toList

variable (D : Decls)

/-- The symbol of a binder: the payload of a borrowed enum is borrowed where it owns something. -/
def binderSymbol (Γ : Scope) (subject : Option Str) (t : Ty) : Symbol :=
  ⟨t, if subject.any (borrows Γ) && t.isAggregate && D.hasDrop t then .borrow else .owned⟩

def armScope (Γ : Scope) (subject : Option Str) (binders : List (Str × Ty)) : Scope :=
  (binders.map fun b => (b.1, binderSymbol D Γ subject b.2)).reverse ++ Γ

def pointsTo (Γ : Scope) (src pointee : Str) : Bool :=
  decide ((Γ.lookup src).map Symbol.ty = some (.struct pointee))

/-- `check_local_borrow_decl` finds an error in the source, other than in the call that it is. -/
def sourceError (Γ : Scope) (isMut : Bool) (pointee : Str) : BorrowSource → Bool
  | .amp src => !pointsTo Γ src pointee || isMut
  | .mutAmp src => decide (checkMutBorrow D Γ (.ident src) ≠ .ok) || !pointsTo Γ src pointee
  | .reborrow src => decide ((Γ.lookup src).map Symbol.hold = some .owned) ||
      !pointsTo Γ src pointee || isMut && borrows Γ src
  | .call _ resultMut provenance =>
    isMut && !resultMut || (Γ.lookup provenance.root).isNone

def sourceForm (isMut : Bool) : BorrowSource → Option Form
  | .mutAmp src => some (.mutBorrow (.ident src))
  | .reborrow src => if isMut then some (.mutBorrow (.ident src)) else none
  | _ => none

mutual

/-- `check_expr` gives no type. -/
def Expr.null (Γ : Scope) : Expr → Bool
  | .plain => false
  | .seq strict l r => strict && (l.null Γ || r.null Γ)
  | .binary l r => l.null Γ || r.null Γ
  | .form f pre strict post =>
    pre.null Γ || decide (f.check D Γ ≠ .ok) || strict && post.null Γ
  | .block s value => value.null (s.after Γ)

def Stmt.after (Γ : Scope) : Stmt → Scope
  | .seq s t => t.after (s.after Γ)
  | .declare name t _ => (name, ⟨t, .owned⟩) :: Γ
  | .localBorrow name isMut pointee init =>
    if sourceError D Γ isMut pointee init then Γ
    else (name, ⟨.struct pointee, if isMut then .mutBorrow else .borrow⟩) :: Γ
  | _ => Γ

end

def Verdict.reports (silent : Bool) : Verdict → Bool
  | .ok => false
  | .error => true
  | .moveError => !silent

mutual

/-- The check reports an error. `silent` is `silent_move_errors`; with `seen` the expression has
been checked before, and what got a type has it. -/
def Expr.reports (silent seen : Bool) (Γ : Scope) : Expr → Bool
  | .plain => false
  | .seq _ l r => l.reports silent seen Γ || r.reports silent seen Γ
  | .binary l r =>
    if seen && !(l.null D Γ || r.null D Γ) then false
    else l.reports silent seen Γ || r.reports silent seen Γ
  | .form f pre _ post =>
    pre.reports silent seen Γ || !pre.null D Γ &&
      ((f.check D Γ).reports silent ||
        decide (f.check D Γ = .ok) && post.reports silent seen Γ)
  | .block s value => s.reports silent seen Γ || value.reports silent seen (s.after D Γ)

def BorrowSource.reports (silent seen : Bool) (Γ : Scope) : BorrowSource → Bool
  | .call e _ _ => e.reports silent seen Γ || e.null D Γ
  | _ => false

def Stmt.reports (silent seen : Bool) (Γ : Scope) : Stmt → Bool
  | .skip => false
  | .seq s t => s.reports silent seen Γ || t.reports silent seen (s.after D Γ)
  | .eval e => e.reports silent seen Γ
  | .declare _ _ init => init.reports silent seen Γ
  | .localBorrow _ isMut pointee init =>
    init.reports silent seen Γ || sourceError D Γ isMut pointee init
  | .arm subject binders body => body.reports silent seen (armScope D Γ subject binders)
  | .scope body => body.reports silent seen Γ
  | .loop body => body.reports true seen Γ || body.reports silent true Γ

end

def Function.accepted (f : Function) : Bool := !f.body.reports D f.silent false f.scope

mutual

/-- Every form has the property, given its scope and whether its move errors are hidden: it is
in an operand of a binary expression in a loop. -/
def Expr.Every (P : Scope → Bool → Form → Prop) (inLoop hidden : Bool) (Γ : Scope) : Expr → Prop
  | .plain => True
  | .seq _ l r => l.Every P inLoop hidden Γ ∧ r.Every P inLoop hidden Γ
  | .binary l r => l.Every P inLoop (hidden || inLoop) Γ ∧ r.Every P inLoop (hidden || inLoop) Γ
  | .form f pre _ post =>
    P Γ hidden f ∧ pre.Every P inLoop hidden Γ ∧ post.Every P inLoop hidden Γ
  | .block s value =>
    s.Every P inLoop hidden Γ ∧ value.Every P inLoop hidden (s.after D Γ)

def BorrowSource.Every (P : Scope → Bool → Form → Prop) (inLoop hidden : Bool) (Γ : Scope) :
    BorrowSource → Prop
  | .call e _ _ => e.Every P inLoop hidden Γ
  | _ => True

def Stmt.Every (P : Scope → Bool → Form → Prop) (inLoop hidden : Bool) (Γ : Scope) : Stmt → Prop
  | .skip => True
  | .seq s t => s.Every P inLoop hidden Γ ∧ t.Every P inLoop hidden (s.after D Γ)
  | .eval e => e.Every P inLoop hidden Γ
  | .declare _ _ init => init.Every P inLoop hidden Γ
  | .localBorrow _ isMut _ init =>
    init.Every P inLoop hidden Γ ∧ ∀ f ∈ sourceForm isMut init, P Γ hidden f
  | .arm subject binders body => body.Every P inLoop hidden (armScope D Γ subject binders)
  | .scope body => body.Every P inLoop hidden Γ
  | .loop body => body.Every P true hidden Γ

end

/-- No form of the body writes to a place that is reached from a read-only borrow. -/
def Function.NoWrite (f : Function) : Prop :=
  f.body.Every D (fun Γ _ g => ¬g.WritesReadOnly D Γ) false f.silent f.scope

/-- The guard of every form that would write looks at its place, and its errors are not hidden:
the form is not in an operand of a binary expression in a loop, nor in a body that is checked
in the first pass over one. -/
def Function.Guarded (f : Function) : Prop :=
  f.body.Every D (fun Γ hidden g => g.WritesReadOnly D Γ → g.Looked D Γ ∧ hidden = false)
    false f.silent f.scope

end LsLang.Borrow
