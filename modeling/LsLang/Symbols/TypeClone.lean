import LsLang.Lib.Binding
import LsLang.Symbols.TypeName

/-! `type_clone` and `type_free` on the tree of allocations that a `Type` is, and what the copy of a
type still has in common with it. -/

namespace LsLang.Symbols

open LsLang.Core LsLang.Fresh

structure Text where
  self : Addr
  chars : Str

structure Ownership where
  hasDrop : Bool
  hasUserDrop : Bool
  hasUserClone : Bool
  isExternC : Bool
  deriving DecidableEq

/-- The flags of a node that `memset` has cleared. -/
def Ownership.clear : Ownership := ⟨false, false, false, false⟩

mutual

/-- A `Type`: `interned` is a singleton, each other node an allocation with its address `self`. The
arrays are allocations of their own; expressions of the syntax tree are only pointed to. -/
inductive TypeTree
  | interned (b : Basic)
  | basic (self : Addr) (b : Basic)
  | pointer (self : Addr) (target : TypeTree)
  | reference (self : Addr) (isMut : Bool) (target : TypeTree)
  | array (self : Addr) (elem : TypeTree) (size : Int)
  | simd (self : Addr) (elem : TypeTree) (lanes : Int)
  | slice (self : Addr) (isMut : Bool) (elem : TypeTree)
  | function (self : Addr) (isBlock : Bool) (paramsAt : Option Addr) (params : List TypeTree)
      (paramDefaults : Option (Addr × List (Option Addr))) (isVararg : Bool) (ret : TypeTree)
  | strukt (self : Addr) (name : Text) (llvmName : Option Str) (flags : Ownership)
      (fieldsAt : Option Addr) (fields : List Field)
  | enom (self : Addr) (name : Text) (llvmName : Option Str) (hasDrop : Bool)
      (variantsAt : Option Addr) (variants : List Variant)

inductive Field
  | mk (name : Option Text) (type : TypeTree) (defaultExpr : Option Addr) (isPrivate : Bool)

inductive Variant
  | mk (name : Option Text) (payloadAt : Option Addr) (payloadTypes : List TypeTree)

end

/-- An array of `n` elements, NULL for none. -/
def mallocArray (n : Nat) : StateM Addr (Option Addr) := fun next =>
  if 0 < n then (some next, next + 1) else (none, next)

def copyText (t : Text) : StateM Addr Text := do
  let self ← malloc
  return { self, chars := t.chars }

/-- `if (fn) { fn_copy = ... }` -/
def copyName : Option Text → StateM Addr (Option Text)
  | none => return none
  | some t => do
    let copy ← copyText t
    return some copy

def copyDefaults (n : Nat) (defaults : Option (Addr × List (Option Addr))) :
    StateM Addr (Option (Addr × List (Option Addr))) :=
  match defaults with
  | none => return none
  | some (_, exprs) =>
    if 0 < n then do
      let self ← malloc
      return some (self, exprs)
    else return none

mutual

/-- `type_clone` -/
def typeClone : TypeTree → StateM Addr TypeTree
  | .interned b => return .interned b
  | .basic _ b => do
    let self ← malloc
    return .basic self b
  | .pointer _ target => do
    let self ← malloc
    let target ← typeClone target
    return .pointer self target
  | .reference _ isMut target => do
    let self ← malloc
    let target ← typeClone target
    return .reference self isMut target
  | .array _ elem size => do
    let self ← malloc
    let elem ← typeClone elem
    return .array self elem size
  | .simd _ elem lanes => do
    let self ← malloc
    let elem ← typeClone elem
    return .simd self elem lanes
  | .slice _ isMut elem => do
    let self ← malloc
    let elem ← typeClone elem
    return .slice self isMut elem
  | .function _ isBlock _ params defaults isVararg ret => do
    let self ← malloc
    let paramsAt ← mallocArray params.length
    let params' ← cloneTypes params
    let defaults' ← copyDefaults params.length defaults
    let ret' ← typeClone ret
    return .function self isBlock paramsAt params' defaults' isVararg ret'
  | .strukt _ name _ _ _ fields => do
    let self ← malloc
    let name' ← copyText name
    let fieldsAt ← mallocArray fields.length
    let fields' ← cloneFields fields
    -- neither the prefixed name nor the flags of ownership are copied
    return .strukt self name' none Ownership.clear fieldsAt fields'
  | .enom _ name _ hasDrop _ variants => do
    let self ← malloc
    let name' ← copyText name
    let variantsAt ← mallocArray variants.length
    let variants' ← cloneVariants variants
    return .enom self name' none hasDrop variantsAt variants'

def cloneTypes : List TypeTree → StateM Addr (List TypeTree)
  | [] => return []
  | t :: ts => do
    let t' ← typeClone t
    let ts' ← cloneTypes ts
    return t' :: ts'

def cloneField : Field → StateM Addr Field
  | .mk name type defaultExpr isPrivate => do
    let name' ← copyName name
    let type' ← typeClone type
    return .mk name' type' defaultExpr isPrivate

def cloneFields : List Field → StateM Addr (List Field)
  | [] => return []
  | f :: fs => do
    let f' ← cloneField f
    let fs' ← cloneFields fs
    return f' :: fs'

def cloneVariant : Variant → StateM Addr Variant
  | .mk name _ payloadTypes => do
    let name' ← copyName name
    let payloadAt ← mallocArray payloadTypes.length
    let payloadTypes' ← cloneTypes payloadTypes
    return .mk name' payloadAt payloadTypes'

def cloneVariants : List Variant → StateM Addr (List Variant)
  | [] => return []
  | v :: vs => do
    let v' ← cloneVariant v
    let vs' ← cloneVariants vs
    return v' :: vs'

end

/-- `free` of a string that may be NULL. -/
def freeName (name : Option Text) : List Addr := (name.map Text.self).toList

mutual

/-- The addresses that `type_free` passes to `free`, in order. -/
def typeFree : TypeTree → List Addr
  | .interned _ => []
  | .basic self _ => [self]
  | .pointer self target => typeFree target ++ [self]
  | .reference self _ target => typeFree target ++ [self]
  | .array self elem _ => typeFree elem ++ [self]
  | .simd self elem _ => typeFree elem ++ [self]
  | .slice self _ elem => typeFree elem ++ [self]
  | .function self _ paramsAt params _ _ ret =>
    freeTypes params ++ paramsAt.toList ++ typeFree ret ++ [self]
  | .strukt self name _ _ fieldsAt fields =>
    freeFields fields ++ fieldsAt.toList ++ [name.self] ++ [self]
  | .enom self name _ _ variantsAt variants =>
    freeVariants variants ++ variantsAt.toList ++ [name.self] ++ [self]

def freeTypes : List TypeTree → List Addr
  | [] => []
  | t :: ts => typeFree t ++ freeTypes ts

def freeField : Field → List Addr
  | .mk name type _ _ => freeName name ++ typeFree type

def freeFields : List Field → List Addr
  | [] => []
  | f :: fs => freeField f ++ freeFields fs

def freeVariant : Variant → List Addr
  | .mk name payloadAt payloadTypes => freeName name ++ freeTypes payloadTypes ++ payloadAt.toList

def freeVariants : List Variant → List Addr
  | [] => []
  | v :: vs => freeVariant v ++ freeVariants vs

end

mutual

/-- What `type_equals` and `type_name` read of a type. -/
def shape : TypeTree → Ty
  | .interned b => .basic b
  | .basic _ b => .basic b
  | .pointer _ target => .pointer (shape target)
  | .reference _ isMut target => .reference isMut (shape target)
  | .array _ elem size => .array (shape elem) size
  | .simd _ elem lanes => .simd (shape elem) lanes
  | .slice _ isMut elem => .slice isMut (shape elem)
  | .function _ isBlock _ params _ isVararg ret => .function isBlock (shapes params) isVararg (shape ret)
  | .strukt _ name llvmName _ _ _ => .nominal false name.chars llvmName
  | .enom _ name llvmName _ _ _ => .nominal true name.chars llvmName

def shapes : List TypeTree → List Ty
  | [] => []
  | t :: ts => shape t :: shapes ts

end

/-- The flags of a node: those of a struct, or `has_drop` of an enum. -/
inductive NodeFlags
  | strukt (flags : Ownership)
  | enom (hasDrop : Bool)
  deriving DecidableEq

mutual

def nodeFlags : TypeTree → List NodeFlags
  | .interned _ | .basic _ _ => []
  | .pointer _ target | .reference _ _ target => nodeFlags target
  | .array _ elem _ | .simd _ elem _ | .slice _ _ elem => nodeFlags elem
  | .function _ _ _ params _ _ ret => typesFlags params ++ nodeFlags ret
  | .strukt _ _ _ flags _ fields => .strukt flags :: fieldsFlags fields
  | .enom _ _ _ hasDrop _ variants => .enom hasDrop :: variantsFlags variants

def typesFlags : List TypeTree → List NodeFlags
  | [] => []
  | t :: ts => nodeFlags t ++ typesFlags ts

def fieldFlags : Field → List NodeFlags
  | .mk _ type _ _ => nodeFlags type

def fieldsFlags : List Field → List NodeFlags
  | [] => []
  | f :: fs => fieldFlags f ++ fieldsFlags fs

def variantFlags : Variant → List NodeFlags
  | .mk _ _ payloadTypes => typesFlags payloadTypes

def variantsFlags : List Variant → List NodeFlags
  | [] => []
  | v :: vs => variantFlags v ++ variantsFlags vs

end

/-- The copy of a struct starts from cleared flags, and that of an enum copies its one. -/
def NodeFlags.cloned : NodeFlags → NodeFlags
  | strukt _ => strukt Ownership.clear
  | enom hasDrop => enom hasDrop

namespace Ty

mutual

def unprefixed : Ty → Ty
  | basic b => basic b
  | nominal isEnum name _ => nominal isEnum name none
  | pointer target => pointer (unprefixed target)
  | reference isMut target => reference isMut (unprefixed target)
  | array elem size => array (unprefixed elem) size
  | simd elem lanes => simd (unprefixed elem) lanes
  | slice isMut elem => slice isMut (unprefixed elem)
  | function isBlock params isVararg ret =>
    function isBlock (allUnprefixed params) isVararg (unprefixed ret)

def allUnprefixed : List Ty → List Ty
  | [] => []
  | p :: ps => unprefixed p :: allUnprefixed ps

end

theorem length_allUnprefixed (ps : List Ty) : (allUnprefixed ps).length = ps.length := by
  induction ps with
  | nil => rfl
  | cons p ps ih => rw [allUnprefixed, List.length_cons, List.length_cons, ih]

mutual

theorem unprefixed_unprefixed : ∀ t : Ty, t.unprefixed.unprefixed = t.unprefixed
  | basic b => by rw [unprefixed, unprefixed]
  | nominal isEnum name llvmName => by rw [unprefixed, unprefixed]
  | pointer target => by rw [unprefixed, unprefixed, unprefixed_unprefixed target]
  | reference isMut target => by rw [unprefixed, unprefixed, unprefixed_unprefixed target]
  | array elem size => by rw [unprefixed, unprefixed, unprefixed_unprefixed elem]
  | simd elem lanes => by rw [unprefixed, unprefixed, unprefixed_unprefixed elem]
  | slice isMut elem => by rw [unprefixed, unprefixed, unprefixed_unprefixed elem]
  | function isBlock params isVararg ret => by
    rw [unprefixed, unprefixed, unprefixed_unprefixed ret, allUnprefixed_twice params]

theorem allUnprefixed_twice : ∀ ps : List Ty, allUnprefixed (allUnprefixed ps) = allUnprefixed ps
  | [] => by rw [allUnprefixed, allUnprefixed]
  | p :: ps => by
    rw [allUnprefixed, allUnprefixed, unprefixed_unprefixed p, allUnprefixed_twice ps]

end

mutual

theorem typeEquals_unprefixed : ∀ t : Ty, typeEquals t t.unprefixed = true
  | basic b => by simp [unprefixed, typeEquals]
  | nominal isEnum name llvmName => by simp [unprefixed, typeEquals]
  | pointer target => by simp [unprefixed, typeEquals, typeEquals_unprefixed target]
  | reference isMut target => by simp [unprefixed, typeEquals, typeEquals_unprefixed target]
  | array elem size => by simp [unprefixed, typeEquals, typeEquals_unprefixed elem]
  | simd elem lanes => by simp [unprefixed, typeEquals, typeEquals_unprefixed elem]
  | slice isMut elem => by simp [unprefixed, typeEquals, typeEquals_unprefixed elem]
  | function isBlock params isVararg ret => by
    simp [unprefixed, typeEquals, length_allUnprefixed, typeEquals_unprefixed ret,
      paramsEqual_unprefixed params]

theorem paramsEqual_unprefixed : ∀ ps : List Ty, paramsEqual ps (allUnprefixed ps) = true
  | [] => by simp [paramsEqual]
  | p :: ps => by
    rw [allUnprefixed, paramsEqual, typeEquals_unprefixed p, paramsEqual_unprefixed ps]
    rfl

end

mutual

theorem typeName_unprefixed : ∀ t : Ty, t.unprefixed.typeName = t.typeName
  | basic b => by rw [unprefixed]
  | nominal isEnum name llvmName => by rw [unprefixed, typeName, typeName]
  | pointer target => by rw [unprefixed, typeName, typeName, typeName_unprefixed target]
  | reference isMut target => by rw [unprefixed, typeName, typeName, typeName_unprefixed target]
  | array elem size => by rw [unprefixed, typeName, typeName, typeName_unprefixed elem]
  | simd elem lanes => by rw [unprefixed, typeName, typeName, typeName_unprefixed elem]
  | slice isMut elem => by rw [unprefixed, typeName, typeName, typeName_unprefixed elem]
  | function isBlock params isVararg ret => by
    rw [unprefixed, typeName, typeName, paramNames_unprefixed _ true params,
      typeName_unprefixed ret]

theorem paramNames_unprefixed : ∀ (text : Str) (first : Bool) (ps : List Ty),
    paramNames text first (allUnprefixed ps) = paramNames text first ps
  | text, first, [] => by rw [allUnprefixed]
  | text, first, p :: ps => by
    rw [allUnprefixed, paramNames, paramNames, typeName_unprefixed p]
    simp only [fun text => paramNames_unprefixed text false ps]

end

end Ty

mutual

theorem shape_clone : ∀ (t : TypeTree) (n : Addr), shape (typeClone t n).1 = (shape t).unprefixed
  | .interned b, n => by
    rw [shape, Ty.unprefixed]
    rfl
  | .basic _ b, n => by
    rw [shape, Ty.unprefixed]
    rfl
  | .pointer _ target, n => by
    rw [shape, Ty.unprefixed, ← shape_clone target]
    rfl
  | .reference _ isMut target, n => by
    rw [shape, Ty.unprefixed, ← shape_clone target]
    rfl
  | .array _ elem size, n => by
    rw [shape, Ty.unprefixed, ← shape_clone elem]
    rfl
  | .simd _ elem lanes, n => by
    rw [shape, Ty.unprefixed, ← shape_clone elem]
    rfl
  | .slice _ isMut elem, n => by
    rw [shape, Ty.unprefixed, ← shape_clone elem]
    rfl
  | .function _ isBlock _ params defaults isVararg ret, n => by
    rw [shape, Ty.unprefixed, ← shape_clone ret, ← shapes_clone params]
    rfl
  | .strukt _ name _ _ _ fields, n => by
    rw [shape, Ty.unprefixed]
    rfl
  | .enom _ name _ hasDrop _ variants, n => by
    rw [shape, Ty.unprefixed]
    rfl

theorem shapes_clone : ∀ (ts : List TypeTree) (n : Addr),
    shapes (cloneTypes ts n).1 = Ty.allUnprefixed (shapes ts)
  | [], n => by
    rw [shapes, Ty.allUnprefixed]
    rfl
  | t :: ts, n => by
    rw [shapes, Ty.allUnprefixed, ← shape_clone t, ← shapes_clone ts]
    rfl

end

mutual

theorem nodeFlags_clone : ∀ (t : TypeTree) (n : Addr),
    nodeFlags (typeClone t n).1 = (nodeFlags t).map NodeFlags.cloned
  | .interned b, n => by
    rw [nodeFlags]
    rfl
  | .basic _ b, n => by
    rw [nodeFlags]
    rfl
  | .pointer _ target, n => by
    rw [nodeFlags, ← nodeFlags_clone target]
    rfl
  | .reference _ isMut target, n => by
    rw [nodeFlags, ← nodeFlags_clone target]
    rfl
  | .array _ elem size, n => by
    rw [nodeFlags, ← nodeFlags_clone elem]
    rfl
  | .simd _ elem lanes, n => by
    rw [nodeFlags, ← nodeFlags_clone elem]
    rfl
  | .slice _ isMut elem, n => by
    rw [nodeFlags, ← nodeFlags_clone elem]
    rfl
  | .function _ isBlock _ params defaults isVararg ret, n => by
    rw [nodeFlags, List.map_append, ← typesFlags_clone params, ← nodeFlags_clone ret]
    rfl
  | .strukt _ name _ _ _ fields, n => by
    rw [nodeFlags, List.map_cons, ← fieldsFlags_clone fields]
    rfl
  | .enom _ name _ hasDrop _ variants, n => by
    rw [nodeFlags, List.map_cons, ← variantsFlags_clone variants]
    rfl

theorem typesFlags_clone : ∀ (ts : List TypeTree) (n : Addr),
    typesFlags (cloneTypes ts n).1 = (typesFlags ts).map NodeFlags.cloned
  | [], n => by
    rw [typesFlags]
    rfl
  | t :: ts, n => by
    rw [typesFlags, List.map_append, ← nodeFlags_clone t, ← typesFlags_clone ts]
    rfl

theorem fieldFlags_clone : ∀ (f : Field) (n : Addr),
    fieldFlags (cloneField f n).1 = (fieldFlags f).map NodeFlags.cloned
  | .mk name type _ _, n => by
    rw [fieldFlags, ← nodeFlags_clone type]
    rfl

theorem fieldsFlags_clone : ∀ (fs : List Field) (n : Addr),
    fieldsFlags (cloneFields fs n).1 = (fieldsFlags fs).map NodeFlags.cloned
  | [], n => by
    rw [fieldsFlags]
    rfl
  | f :: fs, n => by
    rw [fieldsFlags, List.map_append, ← fieldFlags_clone f, ← fieldsFlags_clone fs]
    rfl

theorem variantFlags_clone : ∀ (v : Variant) (n : Addr),
    variantFlags (cloneVariant v n).1 = (variantFlags v).map NodeFlags.cloned
  | .mk name _ payloadTypes, n => by
    rw [variantFlags, ← typesFlags_clone payloadTypes]
    rfl

theorem variantsFlags_clone : ∀ (vs : List Variant) (n : Addr),
    variantsFlags (cloneVariants vs n).1 = (variantsFlags vs).map NodeFlags.cloned
  | [], n => by
    rw [variantsFlags]
    rfl
  | v :: vs, n => by
    rw [variantsFlags, List.map_append, ← variantFlags_clone v, ← variantsFlags_clone vs]
    rfl

end

theorem mallocArray_makes (k : Nat) : Makes Option.toList (mallocArray k) := by
  intro n
  unfold mallocArray
  by_cases hk : 0 < k
  · rw [if_pos hk]
    exact Within.malloc n
  · rw [if_neg hk]
    exact Within.nil n

theorem copyText_makes (t : Text) : Makes (fun c => [c.self]) (copyText t) := Within.malloc

theorem copyName_makes (name : Option Text) : Makes freeName (copyName name) := by
  cases name with
  | none => exact Within.nil
  | some t => exact Within.malloc

theorem copyDefaults_makes (k : Nat) (defaults : Option (Addr × List (Option Addr))) :
    Makes (fun _ => []) (copyDefaults k defaults) := by
  intro n
  cases defaults with
  | none => exact Within.nil n
  | some d =>
    unfold copyDefaults
    by_cases hk : 0 < k
    · simp only [if_pos hk]
      exact (Within.malloc n).of_count fun a => Nat.zero_le _
    · simp only [if_neg hk]
      exact Within.nil n

theorem makes_node {run : StateM Addr TypeTree} {node : Addr → TypeTree → TypeTree}
    (h : Makes typeFree run) (hnode : ∀ self a, typeFree (node self a) = typeFree a ++ [self]) :
    Makes typeFree (do
      let self ← malloc
      let a ← run
      return node self a) := by
  refine .of_after (makes_malloc.after fun self => h.after fun a => makesAfter_pure fun x => ?_)
  grind

mutual

theorem typeClone_makes : ∀ t : TypeTree, Makes typeFree (typeClone t)
  | .interned b => makes_pure (by rw [typeFree])
  | .basic _ b => by
    refine .of_after (makes_malloc.after fun self => makesAfter_pure fun x => ?_)
    rw [typeFree, List.nil_append]
  | .pointer _ target => makes_node (typeClone_makes target) fun _ _ => by rw [typeFree]
  | .reference _ isMut target => makes_node (typeClone_makes target) fun _ _ => by rw [typeFree]
  | .array _ elem size => makes_node (typeClone_makes elem) fun _ _ => by rw [typeFree]
  | .simd _ elem lanes => makes_node (typeClone_makes elem) fun _ _ => by rw [typeFree]
  | .slice _ isMut elem => makes_node (typeClone_makes elem) fun _ _ => by rw [typeFree]
  | .function _ isBlock _ params defaults isVararg ret => by
    refine .of_after (makes_malloc.after fun self =>
      (mallocArray_makes params.length).after fun paramsAt =>
      (cloneTypes_makes params).after fun params' =>
      (copyDefaults_makes params.length defaults).after fun defaults' =>
      (typeClone_makes ret).after fun ret' => makesAfter_pure fun x => ?_)
    rw [typeFree]
    grind
  | .strukt _ name _ _ _ fields => by
    refine .of_after (makes_malloc.after fun self => (copyText_makes name).after fun name' =>
      (mallocArray_makes fields.length).after fun fieldsAt =>
      (cloneFields_makes fields).after fun fields' => makesAfter_pure fun x => ?_)
    rw [typeFree]
    grind
  | .enom _ name _ hasDrop _ variants => by
    refine .of_after (makes_malloc.after fun self => (copyText_makes name).after fun name' =>
      (mallocArray_makes variants.length).after fun variantsAt =>
      (cloneVariants_makes variants).after fun variants' => makesAfter_pure fun x => ?_)
    rw [typeFree]
    grind

theorem cloneTypes_makes : ∀ ts : List TypeTree, Makes freeTypes (cloneTypes ts)
  | [] => makes_pure (by rw [freeTypes])
  | t :: ts => by
    refine .of_after ((typeClone_makes t).after fun t' => (cloneTypes_makes ts).after fun ts' =>
      makesAfter_pure fun x => ?_)
    rw [freeTypes, List.nil_append]

theorem cloneField_makes : ∀ f : Field, Makes freeField (cloneField f)
  | .mk name type _ _ => by
    refine .of_after ((copyName_makes name).after fun name' => (typeClone_makes type).after fun type' =>
      makesAfter_pure fun x => ?_)
    rw [freeField, List.nil_append]

theorem cloneFields_makes : ∀ fs : List Field, Makes freeFields (cloneFields fs)
  | [] => makes_pure (by rw [freeFields])
  | f :: fs => by
    refine .of_after ((cloneField_makes f).after fun f' => (cloneFields_makes fs).after fun fs' =>
      makesAfter_pure fun x => ?_)
    rw [freeFields, List.nil_append]

theorem cloneVariant_makes : ∀ v : Variant, Makes freeVariant (cloneVariant v)
  | .mk name _ payloadTypes => by
    refine .of_after ((copyName_makes name).after fun name' =>
      (mallocArray_makes payloadTypes.length).after fun payloadAt =>
      (cloneTypes_makes payloadTypes).after fun payloadTypes' => makesAfter_pure fun x => ?_)
    rw [freeVariant]
    grind

theorem cloneVariants_makes : ∀ vs : List Variant, Makes freeVariants (cloneVariants vs)
  | [] => makes_pure (by rw [freeVariants])
  | v :: vs => by
    refine .of_after ((cloneVariant_makes v).after fun v' => (cloneVariants_makes vs).after fun vs' =>
      makesAfter_pure fun x => ?_)
    rw [freeVariants, List.nil_append]

end

/-- The copy has the type, the names and the flags of the original, and `type_free` of both releases
nothing twice. -/
structure Alike (t c : TypeTree) : Prop where
  equal : (shape t).typeEquals (shape c) = true
  name : (shape t).typeName = (shape c).typeName
  argName : (shape t).mangleTypeArgName = (shape c).mangleTypeArgName
  flags : nodeFlags t = nodeFlags c
  nodup : (typeFree c).Nodup
  disjoint : List.Disjoint (typeFree t) (typeFree c)

/-- No struct has a flag set, and a struct or an enum at the root has no prefixed name. -/
structure Plain (t : TypeTree) : Prop where
  flags : ∀ flags, .strukt flags ∈ nodeFlags t → flags = Ownership.clear
  root : ∀ isEnum name llvmName, shape t = .nominal isEnum name (some llvmName) → llvmName = name

theorem argName_unprefixed (t : Ty) : t.mangleTypeArgName = t.unprefixed.mangleTypeArgName ↔
    ∀ isEnum name llvmName, t = .nominal isEnum name (some llvmName) → llvmName = name := by
  have hplain : t.unprefixed.mangleTypeArgName = t.unprefixed.typeName := by cases t <;> rfl
  rw [hplain, Ty.typeName_unprefixed]
  constructor
  · intro h isEnum name llvmName ht
    rw [ht, Ty.mangleTypeArgName, Ty.typeName] at h
    exact Option.some.inj h
  · intro h
    unfold Ty.mangleTypeArgName
    split
    · rename_i isEnum name llvmName
      rw [Ty.typeName, h isEnum name llvmName rfl]
    · rfl

theorem flags_cloned (flags : List NodeFlags) : flags = flags.map NodeFlags.cloned ↔
    ∀ f, .strukt f ∈ flags → f = Ownership.clear := by
  constructor
  · intro h f hf
    rw [h] at hf
    obtain ⟨g, -, hg⟩ := List.mem_map.1 hf
    cases g with
    | strukt g => exact (NodeFlags.strukt.inj hg).symm
    | enom hasDrop => cases hg
  · intro h
    have hid : flags.map NodeFlags.cloned = flags.map id := by
      apply List.map_congr_left
      intro f hf
      cases f with
      | strukt f => rw [h f hf]; rfl
      | enom hasDrop => rfl
    rw [hid, List.map_id]

theorem type_clone_alike_iff (t : TypeTree) (next : Addr) (hnext : ∀ a ∈ typeFree t, a < next) :
    Alike t (typeClone t next).1 ↔ Plain t := by
  have hmade := typeClone_makes t next
  constructor
  · intro h
    have hflags := h.flags
    have hargName := h.argName
    rw [nodeFlags_clone] at hflags
    rw [shape_clone] at hargName
    exact ⟨(flags_cloned _).1 hflags, (argName_unprefixed _).1 hargName⟩
  · intro h
    refine ⟨?_, ?_, ?_, ?_, hmade.nodup, hmade.disjoint hnext⟩
    · rw [shape_clone]
      exact Ty.typeEquals_unprefixed _
    · rw [shape_clone]
      exact (Ty.typeName_unprefixed _).symm
    · rw [shape_clone]
      exact (argName_unprefixed _).2 h.root
    · rw [nodeFlags_clone]
      exact (flags_cloned _).2 h.flags

/-- `*File`, with a struct `File` that has a destructor of its own. -/
def pointerToFile : TypeTree :=
  .pointer 0 (.strukt 1 ⟨2, lit ['F', 'i', 'l', 'e']⟩ none ⟨true, true, false, false⟩ none [])

/-- `*Point`, with a struct `Point` without destructor. -/
def pointerToPoint : TypeTree :=
  .pointer 0 (.strukt 1 ⟨2, lit ['P', 'o', 'i', 'n', 't']⟩ none Ownership.clear none [])

theorem type_clone_alike_pointer : Alike pointerToPoint (typeClone pointerToPoint 3).1 := by
  refine (type_clone_alike_iff pointerToPoint 3 ?_).2 ⟨?_, ?_⟩
  · intro a ha
    rw [show typeFree pointerToPoint = [2, 1, 0] from rfl] at ha
    revert a
    decide
  · intro flags hflags
    rw [show nodeFlags pointerToPoint = [.strukt Ownership.clear] from rfl,
      List.mem_singleton] at hflags
    exact NodeFlags.strukt.inj hflags
  · intro isEnum name llvmName h
    cases h

theorem type_clone_not_alike : ¬ Alike pointerToFile (typeClone pointerToFile 3).1 := by
  intro h
  have hflags := h.flags
  rw [nodeFlags_clone, flags_cloned] at hflags
  have hclear : (⟨true, true, false, false⟩ : Ownership) = Ownership.clear :=
    hflags _ (List.mem_singleton.2 rfl)
  exact absurd hclear (by decide)

end LsLang.Symbols
