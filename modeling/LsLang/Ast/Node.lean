import LsLang.Symbols.TypeClone

/-! The nodes of a syntax tree and what is in their slots (`ast.h`), as allocations and as a tree. -/

namespace LsLang.Ast

open LsLang.Core LsLang.Fresh LsLang.Symbols

/-- The kinds of a statement or an expression and of a nested `def`; `indexExpr` has one subscript and
`indexMany` several. Behind them the kinds of a type node and the structs that stand in arrays. -/
inductive Kind
  | intLit | floatLit | stringLit | boolLit | nilLit | formatString | arrayLit | mapLit
  | ident | unary | mutBorrow | binary | call | indexExpr | indexMany | fieldAccess | closure
  | matchExpr | orPattern | bitPattern | bitPatternSeq | tryExpr | forceUnwrap | cast | sizeofExpr
  | typenameExpr | range
  | varDecl | assign | returnStmt | breakStmt | continueStmt | ifStmt | whileStmt | forStmt | forCStmt
  | comptimeFor | comptimeIf | comptimeField | comptimeMatch | comptimeConst | comptimeBlock
  | block | exprStmt | fnDecl | newExpr | atTime | atBench | loadLib | ffiCall
  | typePrimitive | typePointer | typeReference | typeArray | typeSimd | typeSlice | typeVector
  | typeMap | typeFn | typeBlock | typeNamed
  | matchArm | fieldInit | capture | typeParamBound | whereBound
  deriving DecidableEq

inductive Slot
  | line | column | resolvedType | movedOut | coerceFnToBlock | coerceBlockType
  | value | isChar | length | parts | exprs | specs | elements | keys | vals | name | typeArgs
  | op | operand | left | right | lowered | callee | args | resolvedTypeArgs | qualifiedIface
  | object | index | indices | field | paramTypes | paramNames | returnType | body | isRubyForm
  | captures | moveNames | subject | arms | width | matchVal | matchValueSet | lsbShift | items
  | totalWidth | expr | targetType | typeNode | sizedType | namedType | fnReturnType | message
  | start | stop | varType | init | isReplExtern | target | cond | thenBlock | elseBlock | var | iter
  | desugared | update | overType | overVariants | handle | binder | declType | isGlobal | block
  | stmts | typeParams | typeParamBounds | whereBounds | paramDefaults | isStatic | implStructName
  | selfBorrowKind | ifaceMethodContended | originIface | ifaceSigTypesChecked | structName | module
  | fieldInits | onStack | iterations | varName | libPath | libExpr | fnName
  | pattern | type | isExplicitMove | traitNames | typeParamName
  | isMut | primitive | pointee | elem | size | key | val | params | ret
  deriving DecidableEq

inductive Group
  | ast | typeNode | inline
  deriving DecidableEq

def Kind.group : Kind → Group
  | typePrimitive | typePointer | typeReference | typeArray | typeSimd | typeSlice | typeVector
  | typeMap | typeFn | typeBlock | typeNamed => .typeNode
  | matchArm | fieldInit | capture | typeParamBound | whereBound => .inline
  | _ => .ast

/-- The type of a slot: a number, a pointer that is not owned, the bytes of a string, a `Type` that
is owned, the elements of an array, a struct, a pointer. -/
inductive Shape
  | scalar | borrowed | chars | ownedType
  | array (elem : Shape)
  | struct (group : Group)
  | inline (kind : Kind)
  | ptr (content : Shape)
  deriving DecidableEq

namespace Shape

/-- `char *` -/
def string : Shape := ptr chars

/-- `char **` with its count -/
def strings : Shape := ptr (array string)

/-- `AstNode *` -/
def node : Shape := ptr (struct .ast)

/-- `AstNode **` with its count -/
def nodes : Shape := ptr (array node)

/-- `TypeNode *` -/
def typeNode : Shape := ptr (struct .typeNode)

/-- `TypeNode **` with its count -/
def typeNodes : Shape := ptr (array typeNode)

def structs (kind : Kind) : Shape := ptr (array (inline kind))

end Shape

def header : Group → List (Slot × Shape)
  | .ast => [(.line, .scalar), (.column, .scalar), (.resolvedType, .borrowed), (.movedOut, .scalar),
      (.coerceFnToBlock, .scalar), (.coerceBlockType, .ownedType)]
  | .typeNode => [(.line, .scalar), (.column, .scalar), (.isMut, .scalar)]
  | .inline => []

def Kind.part : Kind → List (Slot × Shape)
  | intLit => [(.value, .scalar), (.isChar, .scalar)]
  | floatLit => [(.value, .scalar)]
  | stringLit => [(.value, .string), (.length, .scalar)]
  | boolLit => [(.value, .scalar)]
  | nilLit => []
  | formatString => [(.parts, .strings), (.exprs, .nodes), (.specs, .strings)]
  | arrayLit => [(.elements, .nodes)]
  | mapLit => [(.keys, .nodes), (.vals, .nodes)]
  | ident => [(.name, .string), (.typeArgs, .typeNodes)]
  | unary => [(.op, .scalar), (.operand, .node)]
  | mutBorrow => [(.operand, .node)]
  | binary => [(.op, .scalar), (.left, .node), (.right, .node), (.lowered, .node)]
  | call => [(.callee, .node), (.args, .nodes), (.typeArgs, .typeNodes),
      (.resolvedTypeArgs, .string), (.qualifiedIface, .string)]
  | indexExpr => [(.object, .node), (.index, .node)]
  | indexMany => [(.object, .node), (.indices, .nodes)]
  | fieldAccess => [(.object, .node), (.field, .string)]
  | closure => [(.paramTypes, .typeNodes), (.paramNames, .strings), (.returnType, .typeNode),
      (.body, .node), (.isRubyForm, .scalar), (.captures, .structs capture), (.moveNames, .strings)]
  | matchExpr => [(.subject, .node), (.arms, .structs matchArm)]
  | orPattern => [(.left, .node), (.right, .node)]
  | bitPattern => [(.width, .scalar), (.name, .string), (.matchVal, .scalar),
      (.matchValueSet, .scalar), (.lsbShift, .scalar)]
  | bitPatternSeq => [(.items, .nodes), (.totalWidth, .scalar)]
  | cast => [(.expr, .node), (.targetType, .typeNode)]
  | sizeofExpr => [(.typeNode, .typeNode), (.sizedType, .borrowed)]
  | typenameExpr => [(.typeNode, .typeNode), (.namedType, .borrowed)]
  | tryExpr => [(.expr, .node), (.fnReturnType, .borrowed)]
  | forceUnwrap => [(.expr, .node), (.message, .node)]
  | range => [(.start, .node), (.stop, .node)]
  | varDecl => [(.varType, .typeNode), (.name, .string), (.init, .node), (.isReplExtern, .scalar)]
  | assign => [(.target, .node), (.op, .scalar), (.value, .node)]
  | returnStmt => [(.value, .node)]
  | breakStmt | continueStmt => []
  | ifStmt => [(.cond, .node), (.thenBlock, .node), (.elseBlock, .node)]
  | whileStmt => [(.cond, .node), (.body, .node)]
  | forStmt => [(.var, .string), (.iter, .node), (.body, .node), (.desugared, .node)]
  | forCStmt => [(.init, .node), (.cond, .node), (.update, .node), (.body, .node)]
  | comptimeFor => [(.var, .string), (.overType, .typeNode), (.body, .node), (.overVariants, .scalar)]
  | comptimeIf => [(.cond, .node), (.thenBlock, .node), (.elseBlock, .node)]
  | comptimeField => [(.object, .node), (.handle, .string)]
  | comptimeMatch => [(.subject, .node), (.handle, .string), (.binder, .string), (.body, .node)]
  | comptimeConst => [(.declType, .typeNode), (.name, .string), (.value, .node), (.isGlobal, .scalar)]
  | comptimeBlock => [(.block, .node)]
  | block => [(.stmts, .nodes)]
  | exprStmt => [(.expr, .node)]
  | fnDecl => [(.name, .string), (.typeParams, .strings), (.typeParamBounds, .structs typeParamBound),
      (.whereBounds, .structs whereBound), (.paramTypes, .typeNodes), (.paramNames, .strings),
      (.paramDefaults, .nodes), (.returnType, .typeNode), (.body, .node), (.isStatic, .scalar),
      (.implStructName, .borrowed), (.selfBorrowKind, .scalar), (.ifaceMethodContended, .scalar),
      (.originIface, .borrowed), (.ifaceSigTypesChecked, .scalar)]
  | newExpr => [(.structName, .string), (.module, .string), (.fieldInits, .structs fieldInit),
      (.onStack, .scalar), (.typeArgs, .typeNodes)]
  | atTime => [(.expr, .node)]
  | atBench => [(.expr, .node), (.iterations, .scalar)]
  | loadLib => [(.varName, .string), (.libPath, .string)]
  | ffiCall => [(.libExpr, .node), (.fnName, .string), (.args, .nodes)]
  | typePrimitive => [(.primitive, .scalar)]
  | typePointer | typeReference => [(.pointee, .typeNode)]
  | typeArray | typeSimd | typeSlice => [(.elem, .typeNode), (.size, .scalar)]
  | typeVector => [(.elem, .typeNode)]
  | typeMap => [(.key, .typeNode), (.val, .typeNode)]
  | typeFn | typeBlock => [(.params, .typeNodes), (.ret, .typeNode)]
  | typeNamed => [(.name, .string), (.module, .string), (.args, .typeNodes)]
  | matchArm => [(.pattern, .node), (.body, .node)]
  | fieldInit => [(.name, .string), (.value, .node)]
  | capture => [(.name, .string), (.type, .borrowed), (.isExplicitMove, .scalar)]
  | typeParamBound => [(.traitNames, .strings)]
  | whereBound => [(.typeParamName, .string), (.traitNames, .strings)]

def Kind.layout (k : Kind) : List (Slot × Shape) := header k.group ++ k.part

/-- What stands in memory: a pointer with its address and with what it points to. A float is there by
its bits, the count of an array is its length, and an array without elements is `null`. -/
inductive Mem
  | null
  | scalar (v : Int)
  | borrowed (p : Addr)
  | chars (s : Str)
  | ownedType (t : TypeTree)
  | array (first : Mem) (rest : List Mem)
  | struct (kind : Kind) (slots : List Mem)
  | ptr (self : Addr) (content : Mem)

namespace Mem

mutual

def Fits : Shape → Mem → Prop
  | .scalar, scalar _ => True
  | .borrowed, null | .borrowed, borrowed _ => True
  | .chars, chars _ => True
  | .ownedType, null | .ownedType, ownedType _ => True
  | .array s, array first rest => Fits s first ∧ FitAll s rest
  | .struct group, struct kind slots => kind.group = group ∧ FitSlots kind.layout slots
  | .inline k, struct kind slots => kind = k ∧ FitSlots kind.layout slots
  | .ptr _, null => True
  | .ptr s, ptr _ content => Fits s content
  | _, _ => False

def FitAll (s : Shape) : List Mem → Prop
  | [] => True
  | m :: ms => Fits s m ∧ FitAll s ms

def FitSlots : List (Slot × Shape) → List Mem → Prop
  | [], [] => True
  | slot :: slots, m :: ms => Fits slot.2 m ∧ FitSlots slots ms
  | _, _ => False

end

end Mem

inductive Tree
  | null
  | scalar (v : Int)
  | borrowed (p : Addr)
  | text (s : Str)
  | type (t : Ty)
  | array (elems : List Tree)
  | struct (kind : Kind) (slots : List Tree)

mutual

/-- The tree in memory; of an owned `Type` it keeps what `type_equals` reads. -/
def Mem.tree : Mem → Tree
  | .null => .null
  | .scalar v => .scalar v
  | .borrowed p => .borrowed p
  | .chars s => .text s
  | .ownedType t => .type (shape t).unprefixed
  | .array first rest => .array (Mem.tree first :: Mem.trees rest)
  | .struct kind slots => .struct kind (Mem.trees slots)
  | .ptr _ content => Mem.tree content

def Mem.trees : List Mem → List Tree
  | [] => []
  | m :: ms => Mem.tree m :: Mem.trees ms

end

end LsLang.Ast
