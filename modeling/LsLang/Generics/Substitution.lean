import LsLang.Symbols.TypeName

/-! How the checker finds the type that a type node stands for (`checker_generics.c`): `resolve_type_node` and
`resolve_type_node_with_substitution`. An error that is reported is `none`, also where the code goes on after it. -/

namespace LsLang.Generics

open LsLang.Symbols LsLang.Types

section Types

/-- A generic struct: the module that owns it (none for the root file), and the interfaces that each parameter asks for. -/
structure Template where
  owner : Option String
  name : String
  bounds : List (List String)
  deriving DecidableEq

/-- `Option`, `Result` and the like. -/
structure EnumTemplate where
  name : String
  params : ℕ
  deriving DecidableEq

inductive Generic
  | struct (t : Template)
  | enum (t : EnumTemplate)
  deriving DecidableEq

/-- A type. The struct and enum types without parameters are told apart by `id`, the instances by their arguments. -/
inductive Ty
  | basic (b : Basic)
  | nominal (id : ℕ)
  | inst (g : Generic) (args : List Ty)
  | pointer (target : Ty)
  | reference (isMut : Bool) (target : Ty)
  | array (elem : Ty) (size : ℤ)
  | simd (elem : Ty) (lanes : ℤ)
  | slice (isMut : Bool) (elem : Ty)
  | function (isBlock : Bool) (params : List Ty) (ret : Ty)

namespace Ty

def isNominal : Ty → Bool
  | nominal _ | inst .. => true
  | _ => false

def isNumeric : Ty → Bool
  | basic (.scalar s) => s.isNumeric
  | _ => false

def isReference : Ty → Bool
  | reference .. => true
  | _ => false

end Ty

/-- A `TypeNode`; `null` is the NULL pointer, which stands for `void`. -/
inductive TypeNode
  | null
  | primitive (b : Basic)
  | pointer (target : TypeNode)
  | reference (isMut : Bool) (target : TypeNode)
  | array (elem : TypeNode) (size : ℤ)
  | simd (elem : TypeNode) (lanes : ℤ)
  | slice (isMut : Bool) (elem : TypeNode)
  | function (isBlock : Bool) (params : List TypeNode) (ret : TypeNode)
  | named (module : Option String) (name : String) (args : List TypeNode)

end Types

section Checker

structure Module where
  path : String
  exports : List (String × Ty)

/-- What the checker knows of types while it resolves. -/
structure Checker where
  modules : List (String × Module)
  /-- `current_impl_struct_type`, or else `current_impl_enum_type` -/
  implType : Option Ty
  /-- The type aliases, the latest first. -/
  aliases : List (String × Ty)
  ambiguous : List String
  structs : List (String × Ty)
  enums : List (String × Ty)
  templates : List Template
  /-- The generic structs of all the modules that are checked. -/
  loaded : List Template
  enumTemplates : List EnumTemplate
  /-- The struct and enum instances that are registered under `base(args)`. -/
  instances : String → List Ty → Option Ty
  satisfies : Ty → String → Bool
  /-- Only instantiation registers a name with parentheses, and no template is ever removed. -/
  instances_known : ∀ base args t, instances base args = some t →
    (∃ g ∈ templates, g.name = base) ∨ ∃ g ∈ enumTemplates, g.name = base

variable (c : Checker)

namespace Checker

/-- `find_struct_template_idx` -/
def findStructTemplate (base : String) : Option Template := c.templates.find? (·.name = base)

/-- `find_struct_template_idx_pull` -/
def findStructTemplatePull (base : String) : Option Template :=
  (c.findStructTemplate base).or (c.loaded.find? (·.name = base))

/-- `find_template_idx` -/
def findTemplate (base : String) : Option EnumTemplate := c.enumTemplates.find? (·.name = base)

def boundsOk : List (List String) → List Ty → Bool
  | b :: bs, t :: ts => b.all (c.satisfies t) && boundsOk bs ts
  | _, _ => true

/-- `checker_instantiate_struct` -/
def instantiateStruct (base : String) (args : List Ty) : Option Ty := do
  let g ← c.findStructTemplatePull base
  if args.length = g.bounds.length ∧ c.boundsOk g.bounds args = true then some (.inst (.struct g) args) else none

end Checker

/-- `instantiate_template` -/
def instantiateTemplate (g : EnumTemplate) (args : List Ty) : Option Ty :=
  if args.length = g.params then some (.inst (.enum g) args) else none

namespace Checker

/-- `type_module_find_export`, for a struct or an enum. -/
def exported (module name : String) : Option Ty := do
  let m ← c.modules.lookup module
  let t ← m.exports.lookup name
  if t.isNominal then some t else none

/-- A plain name: `Self`, then an alias, then a struct, then an enum. -/
def plain (name : String) : Option Ty :=
  if name = "Self" ∧ c.implType.isSome then c.implType
  else
    match c.aliases.lookup name with
    | some t => some t
    | none =>
      if name ∈ c.ambiguous then none
      else (c.structs.lookup name).or (c.enums.lookup name)

/-- The checks of a qualified generic name: the template has to be the one that the module owns. -/
def qualifiedTemplate (module name : String) : Option Template := do
  let m ← c.modules.lookup module
  if name ∈ c.ambiguous then none
  else do
    let g ← c.findStructTemplate name
    if g.owner.all (· = m.path) then some g else none

def instantiate (base : String) (args : List Ty) : Option Ty :=
  match c.instances base args with
  | some t => some t
  | none =>
    if base ∈ c.ambiguous then none
    else if args.any Ty.isReference then none
    else
      match c.findStructTemplatePull base with
      | some _ => c.instantiateStruct base args
      | none => do
        let g ← c.findTemplate base
        instantiateTemplate g args

mutual

/-- `resolve_type_node` -/
def resolve : TypeNode → Option Ty
  | .null => some (.basic .void)
  | .primitive b => some (.basic b)
  | .pointer target => do
    let t ← resolve target
    some (.pointer t)
  | .reference isMut target => do
    let t ← resolve target
    if t.isNominal then some (.reference isMut t) else none
  | .array elem size => do
    let t ← resolve elem
    some (.array t size)
  | .simd elem lanes => do
    let t ← resolve elem
    if t.isNumeric then some (.simd t lanes) else none
  | .slice isMut elem => do
    let t ← resolve elem
    some (.slice isMut t)
  | .function isBlock params ret => do
    let ps ← resolveAll params
    let r ← resolve ret
    some (.function isBlock ps r)
  | .named (some module) name [] => c.exported module name
  | .named (some module) name (a :: as) => do
    let _ ← c.qualifiedTemplate module name
    let t ← resolve a
    let ts ← resolveAll as
    c.instantiateStruct name (t :: ts)
  | .named none name [] => c.plain name
  | .named none name (a :: as) => do
    let t ← resolve a
    let ts ← resolveAll as
    c.instantiate name (t :: ts)

def resolveAll : List TypeNode → Option (List Ty)
  | [] => some []
  | n :: ns => do
    let t ← resolve n
    let ts ← resolveAll ns
    some (t :: ts)

end

/-- What the substitution does with a generic name. An instance that fails is reported, and what the code tries after it
does not take the report back. -/
def substituteGeneric (node : TypeNode) (name : String) (args : List Ty) : Option Ty :=
  match c.findStructTemplatePull name with
  | some _ => c.instantiateStruct name args
  | none =>
    match c.findTemplate name with
    | some g => instantiateTemplate g args
    | none => c.resolve node

mutual

/-- `resolve_type_node_with_substitution`, for the parameters and their types. -/
def substitute (params : List (String × Ty)) : TypeNode → Option Ty
  | .null => some (.basic .void)
  | .primitive b => c.resolve (.primitive b)
  | .pointer target => do
    let t ← substitute params target
    some (.pointer t)
  | .reference isMut target => do
    let t ← substitute params target
    some (.reference isMut t)
  | .array elem size => do
    let t ← substitute params elem
    some (.array t size)
  | .simd elem lanes => do
    let t ← substitute params elem
    if t.isNumeric then some (.simd t lanes) else none
  | .slice isMut elem => do
    let t ← substitute params elem
    some (.slice isMut t)
  | .function isBlock ps ret => do
    let ts ← substituteAll params ps
    let r ← substitute params ret
    some (.function isBlock ts r)
  | .named module name [] =>
    match params.lookup name with
    | some t => some t
    | none => c.resolve (.named module name [])
  | .named module name (a :: as) =>
    match params.lookup name with
    | some _ => none
    | none => do
      let t ← substitute params a
      let ts ← substituteAll params as
      c.substituteGeneric (.named module name (a :: as)) name (t :: ts)

def substituteAll (params : List (String × Ty)) : List TypeNode → Option (List Ty)
  | [] => some []
  | n :: ns => do
    let t ← substitute params n
    let ts ← substituteAll params ns
    some (t :: ts)

end

end Checker

end Checker

/-! What a type node of a generic struct stands for once the parameters are given, and when the substitution finds it. -/

namespace Generic

def params : Generic → ℕ
  | struct g => g.bounds.length
  | enum g => g.params

end Generic

def instanceOf (g : Option Generic) (args : List Ty) : Option Ty := do
  let g ← g
  if args.length = g.params then some (.inst g args) else none

namespace Checker

section Denotation

variable (s : Checker)

def genericOf (name : String) : Option Generic :=
  match s.findStructTemplatePull name with
  | some g => some (.struct g)
  | none => (s.findTemplate name).map .enum

def generic (name : String) : Option Generic := if name ∈ s.ambiguous then none else s.genericOf name

def owned (module name : String) : Option Generic := do
  let m ← s.modules.lookup module
  let g ← (s.templates ++ s.loaded).find? fun g => g.name = name ∧ g.owner = some m.path
  some (.struct g)

mutual

/-- The type that a node stands for in the scope `s`, where each name of `params` without a qualifier stands for its
type. -/
def denote (params : List (String × Ty)) : TypeNode → Option Ty
  | .null => some (.basic .void)
  | .primitive b => some (.basic b)
  | .pointer target => (denote params target).map .pointer
  | .reference isMut target => (denote params target).map (.reference isMut)
  | .array elem size => (denote params elem).map (.array · size)
  | .simd elem lanes => (denote params elem).map (.simd · lanes)
  | .slice isMut elem => (denote params elem).map (.slice isMut)
  | .function isBlock ps ret => do
    let ts ← denoteAll params ps
    let r ← denote params ret
    some (.function isBlock ts r)
  | .named none name [] => (params.lookup name).or (s.plain name)
  | .named (some module) name [] => s.exported module name
  | .named none name (a :: as) => do
    let t ← denote params a
    let ts ← denoteAll params as
    instanceOf (if (params.lookup name).isSome then none else s.generic name) (t :: ts)
  | .named (some module) name (a :: as) => do
    let t ← denote params a
    let ts ← denoteAll params as
    instanceOf (s.owned module name) (t :: ts)

def denoteAll (params : List (String × Ty)) : List TypeNode → Option (List Ty)
  | [] => some []
  | n :: ns => do
    let t ← denote params n
    let ts ← denoteAll params ns
    some (t :: ts)

end

end Denotation

section Agreement

variable (c s : Checker) (params : List (String × Ty))

mutual

/-- Each name of a node means to the checker `c` what it means in the scope `s` of the template. A qualified name is one of
them also when its last part is a parameter or a generic struct that `c` knows. -/
def Agrees : TypeNode → Prop
  | .null => True
  | .primitive _ => True
  | .pointer target => Agrees target
  | .reference _ target => Agrees target
  | .array elem _ => Agrees elem
  | .simd elem _ => Agrees elem
  | .slice _ elem => Agrees elem
  | .function _ ps ret => AgreesAll ps ∧ Agrees ret
  | .named none name [] => (params.lookup name).isSome ∨ s.plain name = c.plain name
  | .named (some module) name [] =>
    s.exported module name = (params.lookup name).or (c.exported module name)
  | .named none name (a :: as) => s.generic name = c.genericOf name ∧ Agrees a ∧ AgreesAll as
  | .named (some module) name (a :: as) => s.owned module name = c.genericOf name ∧ Agrees a ∧ AgreesAll as

def AgreesAll : List TypeNode → Prop
  | [] => True
  | n :: ns => Agrees n ∧ AgreesAll ns

end

end Agreement

section Lemmas

variable {c s : Checker} {params : List (String × Ty)} {name : String} {args : List Ty} {t : Ty}

theorem instantiateStruct_eq {g : Template} (hg : c.findStructTemplatePull name = some g)
    (h : c.instantiateStruct name args = some t) : t = .inst (.struct g) args ∧ args.length = g.bounds.length := by
  unfold instantiateStruct at h
  grind

theorem instantiateTemplate_eq {g : EnumTemplate} (h : instantiateTemplate g args = some t) :
    t = .inst (.enum g) args ∧ args.length = g.params := by
  unfold instantiateTemplate at h
  grind

theorem not_resolve_generic {module : Option String} {a : TypeNode} {as : List TypeNode}
    (hstruct : c.findStructTemplatePull name = none) (henum : c.findTemplate name = none) :
    c.resolve (.named module name (a :: as)) = none := by
  have hlocal : c.findStructTemplate name = none := (Option.or_eq_none_iff.1 hstruct).1
  cases module with
  | some module =>
    have hnone : c.qualifiedTemplate module name = none := by
      unfold qualifiedTemplate
      rw [hlocal]
      cases c.modules.lookup module with
      | none => rfl
      | some m =>
        grind
    rw [resolve, hnone]
    rfl
  | none =>
    have hinstances : ∀ ts, c.instances name ts = none := by
      intro ts
      rw [Option.eq_none_iff_forall_ne_some]
      intro t ht
      obtain ⟨g, hg, rfl⟩ | ⟨g, hg, rfl⟩ := c.instances_known name ts t ht
      · exact List.find?_eq_none.1 hlocal g hg (decide_eq_true rfl)
      · exact List.find?_eq_none.1 henum g hg (decide_eq_true rfl)
    have hnone : ∀ ts, c.instantiate name ts = none := by
      intro ts
      unfold instantiate
      grind
    rw [resolve]
    cases c.resolve a with
    | none => rfl
    | some t =>
      cases c.resolveAll as with
      | none => rfl
      | some ts => exact hnone (t :: ts)

theorem substituteGeneric_eq {module : Option String} {a : TypeNode} {as : List TypeNode}
    (h : c.substituteGeneric (.named module name (a :: as)) name args = some t) :
    ∃ g, c.genericOf name = some g ∧ t = .inst g args ∧ args.length = g.params := by
  unfold substituteGeneric at h
  unfold genericOf
  cases hstruct : c.findStructTemplatePull name with
  | some g =>
    rw [hstruct] at h
    obtain ⟨rfl, hlen⟩ := instantiateStruct_eq hstruct h
    exact ⟨_, rfl, rfl, hlen⟩
  | none =>
    rw [hstruct] at h
    cases henum : c.findTemplate name with
    | some g =>
      rw [henum] at h
      obtain ⟨rfl, hlen⟩ := instantiateTemplate_eq h
      exact ⟨_, rfl, rfl, hlen⟩
    | none =>
      grind [not_resolve_generic]

theorem instanceOf_iff {o : Option Generic} {g : Generic} {x : Option Ty} {xs : Option (List Ty)} {u : Ty} {us : List Ty}
    (hlen : (u :: us).length = g.params) :
    (do
      let t ← x
      let ts ← xs
      instanceOf o (t :: ts)) = some (.inst g (u :: us)) ↔ o = some g ∧ x = some u ∧ xs = some us := by
  constructor
  · intro h
    obtain ⟨t, rfl, ht⟩ := Option.bind_eq_some_iff.1 h
    obtain ⟨ts, rfl, hts⟩ := Option.bind_eq_some_iff.1 ht
    obtain ⟨g', rfl, hinst⟩ := Option.bind_eq_some_iff.1 hts
    grind
  · rintro ⟨rfl, rfl, rfl⟩
    exact if_pos hlen

theorem map_eq_some_of_injective {α β : Type} {f : α → β} (hf : Function.Injective f) {o : Option α} {a : α} :
    o.map f = some (f a) ↔ o = some a := by grind [Option.map_eq_some_iff]

theorem bind_pair_iff {α β γ : Type} {o : Option α} {p : Option β} {f : α → β → γ} (hf : Function.Injective2 f) {a : α}
    {b : β} :
    (do
      let x ← o
      let y ← p
      some (f x y)) = some (f a b) ↔ o = some a ∧ p = some b := by
  constructor
  · intro h
    obtain ⟨x, rfl, hx⟩ := Option.bind_eq_some_iff.1 h
    obtain ⟨y, rfl, hy⟩ := Option.bind_eq_some_iff.1 hx
    obtain ⟨rfl, rfl⟩ := hf (Option.some.inj hy)
    exact ⟨rfl, rfl⟩
  grind

end Lemmas

section Substitution

variable (c s : Checker) (params : List (String × Ty))

theorem substitute_generic {module : Option String} {name : String} {a : TypeNode} {as : List TypeNode} {t : Ty}
    (h : c.substitute params (.named module name (a :: as)) = some t) :
    params.lookup name = none ∧ ∃ u us g, c.substitute params a = some u ∧ c.substituteAll params as = some us ∧
      c.genericOf name = some g ∧ t = .inst g (u :: us) ∧ (u :: us).length = g.params := by
  rw [substitute] at h
  cases hp : params.lookup name with
  | some b =>
    rw [hp] at h
    cases h
  | none =>
    rw [hp] at h
    obtain ⟨u, hu, hrest⟩ := Option.bind_eq_some_iff.1 h
    obtain ⟨us, hus, hinst⟩ := Option.bind_eq_some_iff.1 hrest
    grind [substituteGeneric_eq]

mutual

theorem denote_iff : ∀ (n : TypeNode) (t : Ty), c.substitute params n = some t →
    (s.denote params n = some t ↔ Agrees c s params n)
  | .null, t, h => by
    rw [substitute] at h
    rw [denote, Agrees]
    exact iff_of_true h trivial
  | .primitive b, t, h => by
    rw [substitute, resolve] at h
    rw [denote, Agrees]
    exact iff_of_true h trivial
  | .pointer target, t, h => by
    rw [substitute] at h
    obtain ⟨u, hu, ht⟩ := Option.bind_eq_some_iff.1 h
    cases ht
    rw [denote, Agrees, map_eq_some_of_injective fun a b => Ty.pointer.inj]
    exact denote_iff target u hu
  | .reference isMut target, t, h => by
    rw [substitute] at h
    obtain ⟨u, hu, ht⟩ := Option.bind_eq_some_iff.1 h
    cases ht
    rw [denote, Agrees, map_eq_some_of_injective fun a b heq => (Ty.reference.inj heq).2]
    exact denote_iff target u hu
  | .array elem size, t, h => by
    rw [substitute] at h
    obtain ⟨u, hu, ht⟩ := Option.bind_eq_some_iff.1 h
    cases ht
    rw [denote, Agrees, map_eq_some_of_injective (f := (Ty.array · size)) fun a b heq => (Ty.array.inj heq).1]
    exact denote_iff elem u hu
  | .simd elem lanes, t, h => by
    rw [substitute] at h
    obtain ⟨u, hu, ht⟩ := Option.bind_eq_some_iff.1 h
    split at ht
    · cases ht
      rw [denote, Agrees, map_eq_some_of_injective (f := (Ty.simd · lanes)) fun a b heq => (Ty.simd.inj heq).1]
      exact denote_iff elem u hu
    · cases ht
  | .slice isMut elem, t, h => by
    rw [substitute] at h
    obtain ⟨u, hu, ht⟩ := Option.bind_eq_some_iff.1 h
    cases ht
    rw [denote, Agrees, map_eq_some_of_injective fun a b heq => (Ty.slice.inj heq).2]
    exact denote_iff elem u hu
  | .function isBlock ps ret, t, h => by
    rw [substitute] at h
    obtain ⟨us, hus, hret⟩ := Option.bind_eq_some_iff.1 h
    obtain ⟨u, hu, ht⟩ := Option.bind_eq_some_iff.1 hret
    cases ht
    rw [denote, Agrees, ← denoteAll_iff ps us hus, ← denote_iff ret u hu]
    exact bind_pair_iff fun _ _ _ _ heq => (Ty.function.inj heq).2
  | .named none name [], t, h => by
    rw [substitute] at h
    rw [denote, Agrees]
    cases hp : params.lookup name with
    | some a =>
      grind
    | none =>
      rw [hp] at h
      dsimp only at h
      rw [resolve] at h
      grind
  | .named (some module) name [], t, h => by
    rw [substitute] at h
    rw [denote, Agrees]
    cases hp : params.lookup name with
    | some a =>
      grind
    | none =>
      rw [hp] at h
      dsimp only at h
      rw [resolve] at h
      rw [Option.none_or, ← h]
  | .named none name (a :: as), t, h => by
    obtain ⟨hp, u, us, g, hu, hus, hg, rfl, hlen⟩ := substitute_generic c params h
    rw [denote, Agrees, hp, ← denote_iff a u hu, ← denoteAll_iff as us hus, hg]
    exact instanceOf_iff hlen
  | .named (some module) name (a :: as), t, h => by
    obtain ⟨-, u, us, g, hu, hus, hg, rfl, hlen⟩ := substitute_generic c params h
    rw [denote, Agrees, ← denote_iff a u hu, ← denoteAll_iff as us hus, hg]
    exact instanceOf_iff hlen

theorem denoteAll_iff : ∀ (ns : List TypeNode) (ts : List Ty), c.substituteAll params ns = some ts →
    (s.denoteAll params ns = some ts ↔ AgreesAll c s params ns)
  | [], ts, h => by
    rw [substituteAll] at h
    rw [denoteAll, AgreesAll]
    exact iff_of_true h trivial
  | n :: ns, ts, h => by
    rw [substituteAll] at h
    obtain ⟨u, hu, h'⟩ := Option.bind_eq_some_iff.1 h
    obtain ⟨us, hus, hts⟩ := Option.bind_eq_some_iff.1 h'
    cases hts
    rw [denoteAll, AgreesAll, ← denote_iff n u hu, ← denoteAll_iff ns us hus]
    exact bind_pair_iff fun _ _ _ _ heq => List.cons.inj heq

end

/-- The substitution finds the type that a node stands for exactly if each name means the same to it. -/
theorem substitute_denotes_iff (n : TypeNode) {t : Ty} (h : c.substitute params n = some t) :
    s.denote params n = some t ↔ Agrees c s params n := denote_iff c s params n t h

end Substitution

section Capture

/-- A scope with one module, which exports a struct `T`. -/
def moduleScope : Checker where
  modules := [("m", ⟨"m", [("T", .nominal 0)]⟩)]
  implType := none
  aliases := []
  ambiguous := []
  structs := []
  enums := []
  templates := []
  loaded := []
  enumTemplates := []
  instances _ _ := none
  satisfies _ _ := true
  instances_known _ _ _ h := by cases h

def int : Ty := .basic (.scalar .int)

/-- The generic struct `Box` of the module `m`. -/
def boxTemplate : Template := ⟨some "m", "Box", [[]]⟩

/-- A scope that knows `Box`, and a struct `S` that its module exports. -/
def boxScope : Checker :=
  { moduleScope with
    modules := [("m", ⟨"m", [("S", .nominal 0)]⟩)]
    templates := [boxTemplate]
    instances_known := fun _ _ _ h => by cases h }

/-- The type of functions from `*T` and `Box(m.S)` to `m.Box(T)`. -/
def boxNode : TypeNode :=
  .function false [.pointer (.named none "T" []), .named none "Box" [.named (some "m") "S" []]]
    (.named (some "m") "Box" [.named none "T" []])

/-- With `int` for `T`. -/
def boxType : Ty :=
  .function false [.pointer int, .inst (.struct boxTemplate) [.nominal 0]] (.inst (.struct boxTemplate) [int])

theorem substitute_denotes_iff_box :
    boxScope.denote [("T", int)] boxNode = some boxType ∧ Agrees boxScope boxScope [("T", int)] boxNode := by
  have hiff := substitute_denotes_iff boxScope boxScope [("T", int)] boxNode (t := boxType) rfl
  have hdenote : boxScope.denote [("T", int)] boxNode = some boxType := rfl
  exact ⟨hdenote, hiff.1 hdenote⟩

/-- `m.T`, with `int` for `T`, becomes `int`. -/
theorem not_substitute_denotes : ¬ ∀ (c s : Checker) (params : List (String × Ty)) (n : TypeNode) (t : Ty),
    c.substitute params n = some t → s.denote params n = some t := by
  intro h
  have hint := h moduleScope moduleScope [("T", int)] (.named (some "m") "T" []) int rfl
  have hmodule : moduleScope.denote [("T", int)] (.named (some "m") "T" []) = some (.nominal 0) := rfl
  rw [hmodule] at hint
  cases hint

end Capture

end Checker

end LsLang.Generics
