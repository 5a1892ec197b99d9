import LsLang.Ast.Node

/-! `ast_clone_deep` and `ast_free` (`ast.c`), each as the table of what its switch does with the slots
of a kind. -/

namespace LsLang.Ast

open LsLang.Core LsLang.Fresh LsLang.Symbols

/-- What the clone does with a slot behind `*n = *src`: it has a copy made by the function for the
slot's type, it leaves what was assigned, or it sets NULL or false. -/
inductive Act
  | copy | share | null | zero
  deriving DecidableEq

/-- What `ast_clone_deep` does before its switch. -/
def cloneHeader : Group → List (Slot × Act)
  | .ast => [(.resolvedType, .null), (.coerceBlockType, .copy)]
  | .typeNode | .inline => []

/-- The cases of `ast_clone_deep` and of `type_node_clone`, and the bodies of their loops over arrays
of structs. -/
def cloneCase : Kind → List (Slot × Act)
  | .intLit | .floatLit | .boolLit | .nilLit | .breakStmt | .continueStmt => []
  | .stringLit => [(.value, .copy)]
  | .ident => [(.name, .copy), (.typeArgs, .copy)]
  | .unary => [(.operand, .copy)]
  | .mutBorrow => [(.operand, .copy)]
  | .binary => [(.left, .copy), (.right, .copy), (.lowered, .null)]
  | .call => [(.callee, .copy), (.args, .copy), (.typeArgs, .copy), (.resolvedTypeArgs, .copy),
      (.qualifiedIface, .copy)]
  | .indexMany => [(.object, .copy), (.indices, .copy)]
  | .indexExpr => [(.object, .copy), (.index, .copy)]
  | .fieldAccess => [(.object, .copy), (.field, .copy)]
  | .returnStmt => [(.value, .copy)]
  | .exprStmt => [(.expr, .copy)]
  | .block => [(.stmts, .copy)]
  | .varDecl => [(.name, .copy), (.varType, .copy), (.init, .copy), (.isReplExtern, .share)]
  | .assign => [(.target, .copy), (.value, .copy)]
  | .ifStmt => [(.cond, .copy), (.thenBlock, .copy), (.elseBlock, .copy)]
  | .whileStmt => [(.cond, .copy), (.body, .copy)]
  | .forStmt => [(.var, .copy), (.iter, .copy), (.body, .copy), (.desugared, .null)]
  | .forCStmt => [(.init, .copy), (.cond, .copy), (.update, .copy), (.body, .copy)]
  | .comptimeFor => [(.var, .copy), (.overType, .copy), (.body, .copy), (.overVariants, .share)]
  | .comptimeIf => [(.cond, .copy), (.thenBlock, .copy), (.elseBlock, .copy)]
  | .comptimeField => [(.object, .copy), (.handle, .copy)]
  | .comptimeMatch => [(.subject, .copy), (.handle, .copy), (.binder, .copy), (.body, .copy)]
  | .comptimeConst => [(.declType, .copy), (.name, .copy), (.value, .copy), (.isGlobal, .share)]
  | .comptimeBlock => [(.block, .copy)]
  | .cast => [(.expr, .copy), (.targetType, .copy)]
  | .sizeofExpr => [(.typeNode, .copy), (.sizedType, .null)]
  | .typenameExpr => [(.typeNode, .copy), (.namedType, .null)]
  | .tryExpr => [(.expr, .copy)]
  | .forceUnwrap => [(.expr, .copy), (.message, .copy)]
  | .range => [(.start, .copy), (.stop, .copy)]
  | .formatString => [(.parts, .copy), (.exprs, .copy), (.specs, .copy)]
  | .arrayLit => [(.elements, .copy)]
  | .mapLit => [(.keys, .copy), (.vals, .copy)]
  | .newExpr => [(.structName, .copy), (.module, .copy), (.fieldInits, .copy), (.typeArgs, .copy)]
  | .fieldInit => [(.name, .copy), (.value, .copy)]
  | .matchExpr => [(.subject, .copy), (.arms, .copy)]
  | .matchArm => [(.pattern, .copy), (.body, .copy)]
  | .fnDecl => [(.name, .copy), (.typeParams, .copy), (.typeParamBounds, .copy),
      (.whereBounds, .copy), (.paramTypes, .copy), (.paramNames, .copy), (.paramDefaults, .copy),
      (.returnType, .copy), (.body, .copy), (.ifaceSigTypesChecked, .zero)]
  | .typeParamBound => [(.traitNames, .copy)]
  | .whereBound => [(.typeParamName, .copy), (.traitNames, .copy)]
  | .closure => [(.paramTypes, .copy), (.paramNames, .copy), (.returnType, .copy), (.body, .copy),
      (.captures, .null), (.moveNames, .copy)]
  -- the array of the captures is dropped as a whole
  | .capture => []
  | .orPattern => [(.left, .copy), (.right, .copy)]
  | .bitPattern => [(.name, .copy)]
  | .bitPatternSeq => [(.items, .copy)]
  | .atTime => [(.expr, .copy)]
  | .atBench => [(.expr, .copy)]
  | .loadLib => [(.varName, .copy), (.libPath, .copy)]
  | .ffiCall => [(.libExpr, .copy), (.fnName, .copy), (.args, .copy)]
  | .typePrimitive => []
  | .typePointer | .typeReference => [(.pointee, .copy)]
  | .typeArray | .typeSimd | .typeSlice => [(.elem, .copy)]
  | .typeVector => [(.elem, .copy)]
  | .typeMap => [(.key, .copy), (.val, .copy)]
  | .typeFn | .typeBlock => [(.params, .copy), (.ret, .copy)]
  | .typeNamed => [(.name, .copy), (.module, .copy), (.args, .copy)]

/-- What `ast_free` does before its switch. -/
def freeHeader : Group → List Slot
  | .ast => [.coerceBlockType]
  | .typeNode | .inline => []

/-- The cases of `ast_free` and of `type_node_free`, and the bodies of their loops over arrays of
structs. -/
def freeCase : Kind → List Slot
  | .intLit | .floatLit | .boolLit | .nilLit => []
  | .stringLit => [.value]
  | .formatString => [.parts, .exprs, .specs]
  | .arrayLit => [.elements]
  | .mapLit => [.keys, .vals]
  | .ident => [.name, .typeArgs]
  | .unary => [.operand]
  | .mutBorrow => [.operand]
  | .binary => [.left, .right, .lowered]
  | .call => [.callee, .args, .typeArgs, .resolvedTypeArgs, .qualifiedIface]
  | .indexMany => [.object, .indices]
  | .indexExpr => [.object, .index]
  | .fieldAccess => [.object, .field]
  | .closure => [.paramTypes, .paramNames, .returnType, .body, .captures, .moveNames]
  | .capture => [.name]
  | .matchExpr => [.subject, .arms]
  | .matchArm => [.pattern, .body]
  | .orPattern => [.left, .right]
  | .bitPattern => [.name]
  | .bitPatternSeq => [.items]
  | .cast => [.expr, .targetType]
  | .sizeofExpr => [.typeNode]
  | .typenameExpr => [.typeNode]
  | .tryExpr => [.expr]
  | .forceUnwrap => [.expr, .message]
  | .range => [.start, .stop]
  | .varDecl => [.varType, .name, .init]
  | .assign => [.target, .value]
  | .returnStmt => [.value]
  | .breakStmt | .continueStmt => []
  | .ifStmt => [.cond, .thenBlock, .elseBlock]
  | .whileStmt => [.cond, .body]
  | .forStmt => [.var, .iter, .body, .desugared]
  | .forCStmt => [.init, .cond, .update, .body]
  | .comptimeFor => [.var, .overType, .body]
  | .comptimeIf => [.cond, .thenBlock, .elseBlock]
  | .comptimeField => [.object, .handle]
  | .comptimeMatch => [.subject, .handle, .binder, .body]
  | .comptimeConst => [.declType, .name, .value]
  | .comptimeBlock => [.block]
  | .block => [.stmts]
  | .exprStmt => [.expr]
  | .fnDecl => [.name, .typeParams, .typeParamBounds, .whereBounds, .paramTypes, .paramNames,
      .paramDefaults, .returnType, .body]
  | .typeParamBound => [.traitNames]
  | .whereBound => [.typeParamName, .traitNames]
  | .newExpr => [.structName, .module, .fieldInits, .typeArgs]
  | .fieldInit => [.name, .value]
  | .atTime => [.expr]
  | .atBench => [.expr]
  | .loadLib => [.varName, .libPath]
  | .ffiCall => [.libExpr, .fnName, .args]
  | .typePrimitive => []
  | .typePointer | .typeReference => [.pointee]
  | .typeArray | .typeSimd | .typeSlice => [.elem]
  | .typeVector => [.elem]
  | .typeMap => [.key, .val]
  | .typeFn | .typeBlock => [.params, .ret]
  | .typeNamed => [.name, .module, .args]

def Kind.act (k : Kind) (slot : Slot) : Act :=
  ((cloneHeader k.group ++ cloneCase k).lookup slot).getD .share

def Kind.acts (k : Kind) : List Act := k.layout.map fun slot => k.act slot.1

/-- Which slots `ast_free` frees. -/
def Kind.frees (k : Kind) : List Bool :=
  k.layout.map fun slot => (freeHeader k.group ++ freeCase k).contains slot.1

def Shape.owned : Shape → Bool
  | scalar | borrowed => false
  | _ => true

def Kind.owns (k : Kind) : List Bool := k.layout.map fun slot => slot.2.owned

mutual

/-- `ast_clone_deep`, with `type_node_clone`, `ast_strdup` and the loops over the arrays. -/
def astCloneDeep : Mem → StateM Addr Mem
  | .null => return .null
  | .scalar v => return .scalar v
  | .borrowed p => return .borrowed p
  | .chars s => return .chars s
  | .ownedType t => do
    let t' ← typeClone t
    return .ownedType t'
  | .array first rest => do
    let first' ← astCloneDeep first
    let rest' ← cloneAll rest
    return .array first' rest'
  | .struct kind slots => do
    let slots' ← cloneSlots kind.acts slots
    return .struct kind slots'
  | .ptr _ content => do
    let self ← malloc
    let content' ← astCloneDeep content
    return .ptr self content'

def cloneAll : List Mem → StateM Addr (List Mem)
  | [] => return []
  | m :: ms => do
    let m' ← astCloneDeep m
    let ms' ← cloneAll ms
    return m' :: ms'

def cloneSlots : List Act → List Mem → StateM Addr (List Mem)
  | .copy :: acts, m :: ms => do
    let m' ← astCloneDeep m
    let ms' ← cloneSlots acts ms
    return m' :: ms'
  | .share :: acts, m :: ms => do
    let ms' ← cloneSlots acts ms
    return m :: ms'
  | .null :: acts, _ :: ms => do
    let ms' ← cloneSlots acts ms
    return .null :: ms'
  | .zero :: acts, _ :: ms => do
    let ms' ← cloneSlots acts ms
    return .scalar 0 :: ms'
  | _, ms => return ms

end

section Collect

variable (which : Kind → List Bool)

mutual

/-- The addresses of all allocations that are found through the given slots, the parts of an
allocation in front of it. -/
def collect : Mem → List Addr
  | .null | .scalar _ | .borrowed _ | .chars _ => []
  | .ownedType t => typeFree t
  | .array first rest => collect first ++ collectAll rest
  | .struct kind slots => collectSlots (which kind) slots
  | .ptr self content => collect content ++ [self]

def collectAll : List Mem → List Addr
  | [] => []
  | m :: ms => collect m ++ collectAll ms

def collectSlots : List Bool → List Mem → List Addr
  | true :: flags, m :: ms => collect m ++ collectSlots flags ms
  | false :: flags, _ :: ms => collectSlots flags ms
  | _, _ => []

end

end Collect

/-- The addresses that `ast_free` passes to `free`. -/
def astFree : Mem → List Addr := collect Kind.frees

def allocations : Mem → List Addr := collect Kind.owns

theorem frees_eq_owns : Kind.frees = Kind.owns := by
  funext k
  cases k <;> rfl

theorem astFree_eq : astFree = allocations := by
  unfold astFree allocations
  rw [frees_eq_owns]

def Slot.rechecked : Slot → Bool
  | resolvedType | lowered | desugared | captures | sizedType | namedType | ifaceSigTypesChecked => true
  | _ => false

namespace Tree

def cleared : Shape → Tree
  | .scalar => .scalar 0
  | _ => .null

section Reset

variable (which : Slot → Bool)

mutual

def reset : Tree → Tree
  | null => null
  | scalar v => scalar v
  | borrowed p => borrowed p
  | text s => text s
  | type t => type t
  | array elems => array (resetAll elems)
  | struct kind slots => struct kind (resetSlots kind.layout slots)

def resetAll : List Tree → List Tree
  | [] => []
  | t :: ts => reset t :: resetAll ts

def resetSlots : List (Slot × Shape) → List Tree → List Tree
  | slot :: slots, t :: ts =>
    (if which slot.1 then cleared slot.2 else reset t) :: resetSlots slots ts
  | _, ts => ts

end

end Reset

end Tree

def Shape.reached : Shape → Bool
  | array elem => elem.reached
  | struct group => group ≠ .inline
  | inline kind => kind ≠ .capture
  | ptr content => content.reached
  | _ => true

/-- What belongs to the node is copied or reset, and what does not is left or reset. -/
def Kind.slotOk (k : Kind) (slot : Slot × Shape) : Bool :=
  match k.act slot.1 with
  | .copy => slot.2.owned && slot.2.reached && !slot.1.rechecked
  | .share => !slot.2.owned && !slot.1.rechecked
  | .null => slot.1.rechecked && slot.2 ≠ .scalar
  | .zero => slot.1.rechecked && slot.2 = .scalar

theorem slotOk_layout (k : Kind) (hk : k ≠ .capture) : k.layout.all k.slotOk = true := by
  cases k <;> first | rfl | exact absurd rfl hk

theorem ne_capture_of_group {group : Group} {kind : Kind} (hs : (Shape.struct group).reached = true)
    (hkind : kind.group = group) : kind ≠ .capture := by
  rintro rfl
  subst hkind
  cases hs

theorem ne_capture_of_eq {k kind : Kind} (hs : (Shape.inline k).reached = true) (hkind : kind = k) :
    kind ≠ .capture := by
  rintro rfl
  subst hkind
  cases hs

section Slot

variable {slot : Slot × Shape} {kind : Kind}

theorem slotOk_share (hok : kind.slotOk slot = true) (hact : kind.act slot.1 = .share) :
    slot.2.owned = false ∧ slot.1.rechecked = false := by
  unfold Kind.slotOk at hok
  grind

theorem slotOk_copy (hok : kind.slotOk slot = true) (hact : kind.act slot.1 = .copy) :
    slot.2.owned = true ∧ slot.2.reached = true ∧ slot.1.rechecked = false := by
  unfold Kind.slotOk at hok
  grind

theorem slotOk_null (hok : kind.slotOk slot = true) (hact : kind.act slot.1 = .null) :
    slot.1.rechecked = true ∧ Tree.cleared slot.2 = .null := by
  unfold Kind.slotOk at hok
  rw [hact] at hok
  simp only [Bool.and_eq_true, decide_eq_true_eq] at hok
  refine ⟨hok.1, ?_⟩
  cases hshape : slot.2 <;> first | rfl | exact absurd hshape hok.2

theorem slotOk_zero (hok : kind.slotOk slot = true) (hact : kind.act slot.1 = .zero) :
    slot.1.rechecked = true ∧ slot.2 = .scalar := by
  unfold Kind.slotOk at hok
  grind

end Slot

theorem reset_of_not_owned {s : Shape} {m : Mem} (hs : s.owned = false) (hfits : m.Fits s) :
    m.tree.reset Slot.rechecked = m.tree := by
  cases s <;> cases hs <;> cases m <;> first | rfl | exact absurd hfits (by simp [Mem.Fits])

mutual

theorem tree_clone : ∀ (s : Shape) (m : Mem) (n : Addr), s.reached = true → m.Fits s →
    (astCloneDeep m n).1.tree = m.tree.reset Slot.rechecked
  | _, .null, n, _, _ => rfl
  | _, .scalar v, n, _, _ => rfl
  | _, .borrowed p, n, _, _ => rfl
  | _, .chars c, n, _, _ => rfl
  | _, .ownedType t, n, _, _ => by
    change Tree.type (shape (typeClone t n).1).unprefixed = Tree.type (shape t).unprefixed
    rw [shape_clone, Ty.unprefixed_unprefixed]
  | .array s, .array first rest, n, hs, hfits => by
    rw [Mem.Fits] at hfits
    rw [Mem.tree, Tree.reset, Tree.resetAll, ← tree_clone s first n hs hfits.1,
      ← trees_clone s rest _ hs hfits.2]
    rfl
  | .struct group, .struct kind slots, n, hs, hfits => by
    rw [Mem.Fits] at hfits
    have hok := slotOk_layout kind (ne_capture_of_group hs hfits.1)
    rw [Mem.tree, Tree.reset, ← slots_clone kind kind.layout slots n hok hfits.2]
    rfl
  | .inline k, .struct kind slots, n, hs, hfits => by
    rw [Mem.Fits] at hfits
    have hok := slotOk_layout kind (ne_capture_of_eq hs hfits.1)
    rw [Mem.tree, Tree.reset, ← slots_clone kind kind.layout slots n hok hfits.2]
    rfl
  | .ptr s, .ptr _ content, n, hs, hfits => by
    rw [Mem.Fits] at hfits
    rw [Mem.tree, ← tree_clone s content (n + 1) hs hfits]
    rfl

theorem trees_clone : ∀ (s : Shape) (ms : List Mem) (n : Addr), s.reached = true → Mem.FitAll s ms →
    Mem.trees (cloneAll ms n).1 = Tree.resetAll Slot.rechecked (Mem.trees ms)
  | _, [], n, _, _ => rfl
  | s, m :: ms, n, hs, hfits => by
    rw [Mem.FitAll] at hfits
    rw [Mem.trees, Tree.resetAll, ← tree_clone s m n hs hfits.1, ← trees_clone s ms _ hs hfits.2]
    rfl

theorem slots_clone (kind : Kind) : ∀ (slots : List (Slot × Shape)) (ms : List Mem) (n : Addr),
    slots.all kind.slotOk = true → Mem.FitSlots slots ms →
    Mem.trees (cloneSlots (slots.map fun slot => kind.act slot.1) ms n).1 =
      Tree.resetSlots Slot.rechecked slots (Mem.trees ms)
  | [], [], n, _, _ => rfl
  | slot :: slots, m :: ms, n, hok, hfits => by
    rw [Mem.FitSlots] at hfits
    rw [List.all_cons, Bool.and_eq_true] at hok
    have hrest := fun n => slots_clone kind slots ms n hok.2 hfits.2
    rw [List.map_cons, Mem.trees, Tree.resetSlots]
    cases hact : kind.act slot.1 with
    | copy =>
      obtain ⟨-, hreached, hslot⟩ := slotOk_copy hok.1 hact
      rw [hslot, ← tree_clone slot.2 m n hreached hfits.1, ← hrest]
      rfl
    | share =>
      obtain ⟨howned, hslot⟩ := slotOk_share hok.1 hact
      rw [hslot, if_neg Bool.false_ne_true, reset_of_not_owned howned hfits.1, ← hrest n]
      rfl
    | null =>
      obtain ⟨hslot, hcleared⟩ := slotOk_null hok.1 hact
      rw [hslot, if_pos rfl, hcleared, ← hrest n]
      rfl
    | zero =>
      obtain ⟨hslot, hshape⟩ := slotOk_zero hok.1 hact
      rw [hslot, if_pos rfl, hshape, ← hrest n]
      rfl

end

mutual

theorem clone_makes : ∀ (s : Shape) (m : Mem), s.reached = true → m.Fits s →
    Makes allocations (astCloneDeep m)
  | _, .null, _, _ => makes_pure rfl
  | _, .scalar v, _, _ => makes_pure rfl
  | _, .borrowed p, _, _ => makes_pure rfl
  | _, .chars c, _, _ => makes_pure rfl
  | _, .ownedType t, _, _ => typeClone_makes t
  | .array s, .array first rest, hs, hfits => by
    rw [Mem.Fits] at hfits
    exact .of_after ((clone_makes s first hs hfits.1).after fun first' =>
      (cloneAll_makes s rest hs hfits.2).after fun rest' => makesAfter_pure fun x => le_rfl)
  | .struct group, .struct kind slots, hs, hfits => by
    rw [Mem.Fits] at hfits
    have hok := slotOk_layout kind (ne_capture_of_group hs hfits.1)
    exact .of_after ((cloneSlots_makes kind kind.layout slots hok hfits.2).after fun slots' =>
      makesAfter_pure fun x => le_rfl)
  | .inline k, .struct kind slots, hs, hfits => by
    rw [Mem.Fits] at hfits
    have hok := slotOk_layout kind (ne_capture_of_eq hs hfits.1)
    exact .of_after ((cloneSlots_makes kind kind.layout slots hok hfits.2).after fun slots' =>
      makesAfter_pure fun x => le_rfl)
  | .ptr s, .ptr _ content, hs, hfits => by
    rw [Mem.Fits] at hfits
    refine .of_after (makes_malloc.after fun self => (clone_makes s content hs hfits).after
      fun content' => makesAfter_pure fun x => ?_)
    unfold allocations
    rw [collect]
    grind

theorem cloneAll_makes : ∀ (s : Shape) (ms : List Mem), s.reached = true → Mem.FitAll s ms →
    Makes (collectAll Kind.owns) (cloneAll ms)
  | _, [], _, _ => makes_pure rfl
  | s, m :: ms, hs, hfits => by
    rw [Mem.FitAll] at hfits
    exact .of_after ((clone_makes s m hs hfits.1).after fun m' =>
      (cloneAll_makes s ms hs hfits.2).after fun ms' => makesAfter_pure fun x => le_rfl)

theorem cloneSlots_makes (kind : Kind) : ∀ (slots : List (Slot × Shape)) (ms : List Mem),
    slots.all kind.slotOk = true → Mem.FitSlots slots ms →
    Makes (collectSlots Kind.owns (slots.map fun slot => slot.2.owned))
      (cloneSlots (slots.map fun slot => kind.act slot.1) ms)
  | [], [], _, _ => makes_pure rfl
  | slot :: slots, m :: ms, hok, hfits => by
    rw [Mem.FitSlots] at hfits
    rw [List.all_cons, Bool.and_eq_true] at hok
    have hrest := cloneSlots_makes kind slots ms hok.2 hfits.2
    rw [List.map_cons, List.map_cons]
    cases hact : kind.act slot.1 with
    | copy =>
      obtain ⟨howned, hreached, -⟩ := slotOk_copy hok.1 hact
      rw [howned]
      exact .of_after ((clone_makes slot.2 m hreached hfits.1).after fun m' =>
        hrest.after fun ms' => makesAfter_pure fun x => le_rfl)
    | share =>
      obtain ⟨howned, -⟩ := slotOk_share hok.1 hact
      rw [howned]
      exact .of_after (hrest.after fun ms' => makesAfter_pure fun x => le_rfl)
    | null =>
      exact .of_after (hrest.after fun ms' => makesAfter_pure fun x => by
        cases slot.2.owned <;> exact le_rfl)
    | zero =>
      exact .of_after (hrest.after fun ms' => makesAfter_pure fun x => by
        cases slot.2.owned <;> exact le_rfl)

end

structure SyntaxTree where
  root : Mem
  fits : root.Fits .node
  nodup : (allocations root).Nodup

structure FreesOnce (freed owned : List Addr) : Prop where
  nodup : freed.Nodup
  all : ∀ a, a ∈ freed ↔ a ∈ owned

/-- The clone is the original with the slots reset, nothing of it is part of the original, and both
can be freed in either order. -/
structure Twins (t c : Mem) (which : Slot → Bool) : Prop where
  same : c.tree = t.tree.reset which
  apart : List.Disjoint (allocations t) (allocations c)
  first : FreesOnce (astFree t ++ astFree c) (allocations t ++ allocations c)
  second : FreesOnce (astFree c ++ astFree t) (allocations t ++ allocations c)

/-- The slots that the checker fills, by the comments in `ast.h`. -/
def Slot.checkerFilled : Slot → Bool
  | resolvedType | movedOut | coerceFnToBlock | coerceBlockType | lowered | resolvedTypeArgs
  | qualifiedIface | captures | lsbShift | totalWidth | sizedType | namedType | fnReturnType
  | desugared | isGlobal | ifaceMethodContended | originIface | ifaceSigTypesChecked => true
  | _ => false

theorem Slot.checkerFilled_of_rechecked {slot : Slot} (h : slot.rechecked = true) : slot.checkerFilled = true := by
  cases slot <;> first | rfl | cases h

namespace Tree

mutual

/-- In no node that the clone has a counterpart of is a slot set that the checker fills and the clone carries over. -/
def Unmarked : Tree → Prop
  | array elems => UnmarkedAll elems
  | struct kind slots => UnmarkedSlots kind.layout slots
  | _ => True

def UnmarkedAll : List Tree → Prop
  | [] => True
  | t :: ts => Unmarked t ∧ UnmarkedAll ts

def UnmarkedSlots : List (Slot × Shape) → List Tree → Prop
  | slot :: slots, t :: ts =>
    (if slot.1.rechecked then True
      else if slot.1.checkerFilled then t = cleared slot.2
      else Unmarked t) ∧ UnmarkedSlots slots ts
  | _, _ => True

end

theorem reset_eq_cleared {which : Slot → Bool} {t : Tree} {s : Shape} :
    t.reset which = cleared s ↔ t = cleared s := by
  cases s <;> cases t <;> simp [cleared, reset]

mutual

theorem reset_eq_iff : ∀ t : Tree, t.reset Slot.rechecked = t.reset Slot.checkerFilled ↔ t.Unmarked
  | null => iff_of_true rfl trivial
  | scalar _ => iff_of_true rfl trivial
  | borrowed _ => iff_of_true rfl trivial
  | text _ => iff_of_true rfl trivial
  | type _ => iff_of_true rfl trivial
  | array elems => by
    rw [reset, reset, Unmarked, ← resetAll_eq_iff elems]
    exact Tree.array.injEq _ _ ▸ Iff.rfl
  | struct kind slots => by
    rw [reset, reset, Unmarked, ← resetSlots_eq_iff kind.layout slots, Tree.struct.injEq]
    exact and_iff_right rfl

theorem resetAll_eq_iff : ∀ ts : List Tree,
    resetAll Slot.rechecked ts = resetAll Slot.checkerFilled ts ↔ UnmarkedAll ts
  | [] => iff_of_true rfl trivial
  | t :: ts => by
    rw [resetAll, resetAll, UnmarkedAll, List.cons.injEq, reset_eq_iff t, resetAll_eq_iff ts]

theorem resetSlots_eq_iff : ∀ (slots : List (Slot × Shape)) (ts : List Tree),
    resetSlots Slot.rechecked slots ts = resetSlots Slot.checkerFilled slots ts ↔ UnmarkedSlots slots ts
  | [], [] => iff_of_true rfl trivial
  | [], _ :: _ => iff_of_true rfl trivial
  | _ :: _, [] => iff_of_true rfl trivial
  | slot :: slots, t :: ts => by
    rw [resetSlots, resetSlots, UnmarkedSlots, List.cons.injEq, resetSlots_eq_iff slots ts]
    refine and_congr_left' ?_
    by_cases hslot : slot.1.rechecked = true
    · rw [if_pos hslot, if_pos hslot, if_pos (Slot.checkerFilled_of_rechecked hslot)]
      exact iff_of_true rfl trivial
    · rw [if_neg hslot, if_neg hslot]
      by_cases hfilled : slot.1.checkerFilled = true
      · rw [if_pos hfilled, if_pos hfilled]
        exact reset_eq_cleared
      · rw [if_neg hfilled, if_neg hfilled]
        exact reset_eq_iff t

end

end Tree

theorem twins_rechecked (t : SyntaxTree) (next : Addr) (hnext : ∀ a ∈ allocations t.root, a < next) :
    Twins t.root (astCloneDeep t.root next).1 Slot.rechecked := by
  have hmade := clone_makes .node t.root rfl t.fits next
  have hapart := hmade.disjoint hnext
  refine ⟨tree_clone .node t.root next rfl t.fits, hapart, ⟨?_, fun a => ?_⟩, ⟨?_, fun a => ?_⟩⟩
  · rw [astFree_eq]
    exact t.nodup.append hmade.nodup hapart
  · rw [astFree_eq]
  · rw [astFree_eq]
    exact hmade.nodup.append t.nodup hapart.symm
  · rw [astFree_eq, List.mem_append, List.mem_append, or_comm]

/-- Clone and free are twins, and the clone is the original with what the checker fills reset exactly if nothing is set
of what the clone carries over. -/
theorem ast_clone_twins_iff (t : SyntaxTree) (next : Addr) (hnext : ∀ a ∈ allocations t.root, a < next) :
    Twins t.root (astCloneDeep t.root next).1 Slot.rechecked ∧
      (Twins t.root (astCloneDeep t.root next).1 Slot.checkerFilled ↔ t.root.tree.Unmarked) := by
  have htwins := twins_rechecked t next hnext
  refine ⟨htwins, ?_⟩
  rw [← Tree.reset_eq_iff, ← htwins.same]
  exact ⟨fun h => h.same, fun h => ⟨h, htwins.apart, htwins.first, htwins.second⟩⟩

def checkedHeader (movedOut : Int) : List Mem :=
  [.scalar 1, .scalar 1, .borrowed 90, .scalar movedOut, .scalar 0, .null]

def identAt (self : Addr) (movedOut : Int) (c : Char) : Mem :=
  .ptr self (.struct .ident (checkedHeader movedOut ++ [.ptr (self + 1) (.chars (lit [c])), .null]))

/-- `f(int)(x) + 1`, for which the checker has put `y` in the place. -/
def sum : SyntaxTree where
  root := .ptr 0 (.struct .binary (checkedHeader 0 ++ [.scalar 0,
    .ptr 1 (.struct .call (checkedHeader 0 ++ [identAt 2 0 'f', .ptr 4 (.array (identAt 5 0 'x') []),
      .ptr 7 (.array (.ptr 8 (.struct .typePrimitive [.scalar 1, .scalar 1, .scalar 0, .scalar 3])) []),
      .null, .null])),
    .ptr 9 (.struct .intLit (checkedHeader 0 ++ [.scalar 1, .scalar 0])), identAt 10 1 'y']))
  fits := by
    simp [Shape.node, Shape.nodes, Shape.typeNode, Shape.typeNodes, Shape.string, Mem.Fits, Mem.FitAll, Mem.FitSlots,
      Kind.layout, Kind.group, header, Kind.part, checkedHeader, identAt]
  nodup := by decide +kernel

theorem ast_clone_twins_sum :
    Twins sum.root (astCloneDeep sum.root 12).1 Slot.rechecked ∧
      Twins sum.root (astCloneDeep sum.root 12).1 Slot.checkerFilled := by
  obtain ⟨htwins, hiff⟩ := ast_clone_twins_iff sum 12 (by decide +kernel)
  refine ⟨htwins, hiff.2 ?_⟩
  simp [sum, identAt, checkedHeader, Mem.tree, Mem.trees, Tree.Unmarked, Tree.UnmarkedAll, Tree.UnmarkedSlots,
    Kind.layout, Kind.group, header, Kind.part, Slot.rechecked, Slot.checkerFilled, Tree.cleared, Shape.string]

/-- The identifier `x`, whose value has been moved. -/
def movedIdent : SyntaxTree where
  root := identAt 0 1 'x'
  fits := by simp [Shape.node, Mem.Fits, Kind.layout, Kind.group, header, Kind.part, Mem.FitSlots,
    Shape.string, Shape.typeNodes, identAt, checkedHeader]
  nodup := by decide

theorem ast_clone_not_reset :
    ¬ Twins movedIdent.root (astCloneDeep movedIdent.root 2).1 Slot.checkerFilled := by
  intro h
  have hsame := h.same
  change Tree.struct .ident [.scalar 1, .scalar 1, .null, .scalar 1, .scalar 0, .null,
    .text (lit ['x']), .null] = Tree.struct .ident [.scalar 1, .scalar 1, .null, .scalar 0, .scalar 0,
    .null, .text (lit ['x']), .null] at hsame
  simp at hsame

end LsLang.Ast
