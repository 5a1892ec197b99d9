import LsLang.Ast.Node

/-! The substitution of a comptime handle (`ct_rewrite` of `checker_comptime.c`): where it goes in a
body, and where the handle occurs free there. -/

namespace LsLang.Ast

open LsLang.Core

/-- `CtRw`: the handle bound to one field (with a payload count of -1) or variant. -/
structure CtRw where
  handle : Str
  name : Str
  index : Int
  typeName : Str
  payloadCount : Int

namespace Tree

/-- `ast_new` with a part of the union filled in. -/
def new (kind : Kind) (line column : Tree) (part : List Tree) : Tree :=
  .struct kind ([line, column, .null, .scalar 0, .scalar 0, .null] ++ part)

def isText (s : Str) : Tree → Bool
  | .text s' => s' == s
  | _ => false

def isIdent (name : Str) : Tree → Bool
  | .struct .ident [_, _, _, _, _, _, n, _] => n.isText name
  | _ => false

def ctStrLit (s : Str) (line column : Tree) : Tree :=
  new .stringLit line column [.text s, .scalar s.length]

def ctIntLit (v : Int) (line column : Tree) : Tree := new .intLit line column [.scalar v, .scalar 0]

def ctBoolLit (v : Bool) (line column : Tree) : Tree :=
  new .boolLit line column [.scalar (if v then 1 else 0)]

def ctIdent (s : Str) (line column : Tree) : Tree := new .ident line column [.text s, .null]

end Tree

namespace CtRw

open Tree

variable (cx : CtRw)

/-- The value of `handle.<m>`. -/
def member (m : Str) (line column : Tree) : Option Tree :=
  if m = lit ['n', 'a', 'm', 'e'] then some (ctStrLit cx.name line column)
  else if m = lit ['i', 'n', 'd', 'e', 'x'] then some (ctIntLit cx.index line column)
  else if m = lit ['t', 'y', 'p', 'e', '_', 'n', 'a', 'm', 'e'] then
    some (ctStrLit cx.typeName line column)
  else if m = lit ['t', 'y', 'p', 'e'] then some (ctIdent cx.typeName line column)
  else if 0 ≤ cx.payloadCount ∧ m = lit ['h', 'a', 's', '_', 'p', 'a', 'y', 'l', 'o', 'a', 'd'] then
    some (ctBoolLit (0 < cx.payloadCount) line column)
  else if 0 ≤ cx.payloadCount ∧
      m = lit ['p', 'a', 'y', 'l', 'o', 'a', 'd', '_', 'c', 'o', 'u', 'n', 't'] then
    some (ctIntLit cx.payloadCount line column)
  else none

/-- What takes the place of a node, given the slots after the rewriting of its parts: a value for
`handle.<m>`, and `v.<name>` for `v.(handle)`. -/
def replacement (kind : Kind) (slots after : List Tree) : Option Tree :=
  match kind, slots with
  | .fieldAccess, [line, column, _, _, _, _, object, .text m] =>
    if object.isIdent cx.handle then cx.member m line column else none
  | .comptimeField, [line, column, _, _, _, _, _, handle] =>
    if handle.isText cx.handle then
      some (new .fieldAccess line column [after.getD 6 .null, .text cx.name])
    else none
  | _, _ => none

/-- The node is a use of the handle. -/
def isUse : Tree → Bool
  | .struct kind slots => (cx.replacement kind slots slots).isSome
  | _ => false

end CtRw

abbrev Guide := Tree → List Bool

section Rewrite

variable (guide : Guide) (cx : CtRw)

mutual

def rewrite : Tree → Tree
  | .null => .null
  | .scalar v => .scalar v
  | .borrowed p => .borrowed p
  | .text s => .text s
  | .type t => .type t
  | .array elems => .array (rewriteParts (guide (.array elems)) elems)
  | .struct kind slots =>
    (cx.replacement kind slots (rewriteParts (guide (.struct kind slots)) slots)).getD
      (.struct kind (rewriteParts (guide (.struct kind slots)) slots))

def rewriteParts : List Bool → List Tree → List Tree
  | _, [] => []
  | enter, t :: ts =>
    (if enter.headD false then rewrite t else t) :: rewriteParts enter.tail ts

end

end Rewrite

def Kind.get (kind : Kind) (slots : List Tree) (slot : Slot) : Tree :=
  (((kind.layout.map Prod.fst).zip slots).lookup slot).getD .null

/-- The cases of the switch of `ct_rewrite`; its default enters nothing. -/
def ctVisits (handle : Str) (kind : Kind) (slots : List Tree) : List Slot :=
  match kind with
  | .unary => [.operand]
  | .mutBorrow => [.operand]
  | .binary => [.left, .right, .lowered]
  | .call => [.callee, .args]
  | .indexMany => [.object, .indices]
  | .indexExpr => [.object, .index]
  | .fieldAccess => [.object]
  | .comptimeField => [.object]
  | .cast => [.expr]
  | .tryExpr => [.expr]
  | .forceUnwrap => [.expr, .message]
  | .range => [.start, .stop]
  | .formatString => [.exprs]
  | .arrayLit => [.elements]
  | .mapLit => [.keys, .vals]
  | .closure => [.body]
  | .matchExpr => [.subject, .arms]
  | .matchArm => [.pattern, .body]
  | .orPattern => [.left, .right]
  | .newExpr => [.fieldInits]
  | .fieldInit => [.value]
  | .varDecl => [.init]
  | .assign => [.target, .value]
  | .returnStmt => [.value]
  | .ifStmt => [.cond, .thenBlock, .elseBlock]
  | .whileStmt => [.cond, .body]
  | .forStmt => [.iter, .body]
  | .forCStmt => [.init, .cond, .update, .body]
  | .block => [.stmts]
  | .exprStmt => [.expr]
  -- the variable of a nested loop may shadow the handle
  | .comptimeFor => if (kind.get slots .var).isText handle then [] else [.body]
  | .comptimeIf => [.cond, .thenBlock, .elseBlock]
  | .comptimeMatch =>
    if (kind.get slots .handle).isText handle || (kind.get slots .binder).isText handle then [.subject]
    else [.subject, .body]
  | _ => []

def ctGuide (handle : Str) : Guide
  | .struct kind slots => kind.layout.map fun slot => (ctVisits handle kind slots).contains slot.1
  | .array elems => elems.map fun _ => true
  | _ => []

/-- `ct_rewrite` -/
def ctRewrite (cx : CtRw) : Tree → Tree := rewrite (ctGuide cx.handle) cx

/-! Where the handle is free: in every slot for nodes but for the scope of a binder of that name. -/

def Shape.holdsNodes : Shape → Bool
  | .ptr (.struct .ast) | .ptr (.array (.ptr (.struct .ast))) | .ptr (.array (.inline _)) => true
  | _ => false

section Scope

variable (handle : Str)

def declares : Tree → Bool
  | .struct .varDecl slots => (Kind.varDecl.get slots .name).isText handle
  | .struct .comptimeConst slots => (Kind.comptimeConst.get slots .name).isText handle
  | .struct .fnDecl slots => (Kind.fnDecl.get slots .name).isText handle
  | .struct .loadLib slots => (Kind.loadLib.get slots .varName).isText handle
  | _ => false

def Tree.elems : Tree → List Tree
  | .array elems => elems
  | _ => []

mutual

/-- A match pattern that binds the name: in the payload of a variant or in a bit field. -/
def patternBinds : Tree → Bool
  | .struct .call slots =>
    handle != lit ['_'] && (Kind.call.get slots .args).elems.any (Tree.isIdent handle)
  | .struct .bitPattern slots => (Kind.bitPattern.get slots .name).isText handle
  | .struct .orPattern slots | .struct .bitPatternSeq slots => anyBinds slots
  | .array elems => anyBinds elems
  | _ => false

def anyBinds : List Tree → Bool
  | [] => false
  | t :: ts => patternBinds t || anyBinds ts

end

/-- The slots in the scope of a binder of the node, if it binds the name. -/
def boundSlots (kind : Kind) (slots : List Tree) : List Slot :=
  match kind with
  | .forStmt => if (kind.get slots .var).isText handle then [.body] else []
  | .forCStmt => if declares handle (kind.get slots .init) then [.cond, .update, .body] else []
  | .closure => if (kind.get slots .paramNames).elems.any (Tree.isText handle) then [.body] else []
  | .fnDecl =>
    if (kind.get slots .name).isText handle ||
        (kind.get slots .paramNames).elems.any (Tree.isText handle) then [.body] else []
  | .matchArm => if patternBinds handle (kind.get slots .pattern) then [.body] else []
  | .comptimeFor => if (kind.get slots .var).isText handle then [.body] else []
  | .comptimeMatch =>
    if (kind.get slots .handle).isText handle || (kind.get slots .binder).isText handle then [.body]
    else []
  | _ => []

def beforeDeclared : List Tree → List Bool
  | [] => []
  | t :: ts => true :: if declares handle t then [] else beforeDeclared ts

def scopeGuide : Guide
  | .struct kind slots => kind.layout.map fun slot =>
      slot.2.holdsNodes && !(boundSlots handle kind slots).contains slot.1
  | .array elems => beforeDeclared handle elems
  | _ => []

end Scope

/-- The parts with nodes in them that the switch of `ct_rewrite` has no case for. -/
def Kind.unvisited : Kind → List Slot
  | .closure => [.captures]
  | .bitPatternSeq => [.items]
  | .forStmt => [.desugared]
  | .comptimeConst => [.value]
  | .comptimeBlock => [.block]
  | .fnDecl => [.typeParamBounds, .whereBounds, .paramDefaults, .body]
  | .atTime | .atBench => [.expr]
  | .ffiCall => [.libExpr, .args]
  | _ => []

/-- The kinds whose binders the switch asks for. -/
def Kind.nests : Kind → Bool
  | .comptimeFor | .comptimeMatch => true
  | _ => false

/-- By the kinds of nodes: where `ct_rewrite` goes. -/
theorem ctGuide_struct (handle : Str) (kind : Kind) (slots : List Tree) : ctGuide handle (.struct kind slots) =
    kind.layout.map fun slot => slot.2.holdsNodes && !kind.unvisited.contains slot.1 &&
      !(kind.nests && (boundSlots handle kind slots).contains slot.1) := by
  cases kind with
  | comptimeFor =>
    unfold ctGuide ctVisits boundSlots
    dsimp only
    split <;> rfl
  | comptimeMatch =>
    unfold ctGuide ctVisits boundSlots
    dsimp only
    split <;> rfl
  | _ => rfl

/-- At a node it goes where the handle is free, unless the node is of a kind that the switch has no case for, or binds
the handle and is no nested comptime `for` or `match`. -/
theorem ctGuide_eq_scopeGuide {handle : Str} {kind : Kind} {slots : List Tree} (hvisited : kind.unvisited = [])
    (hbound : boundSlots handle kind slots = [] ∨ kind.nests = true) :
    ctGuide handle (.struct kind slots) = scopeGuide handle (.struct kind slots) := by
  rw [ctGuide_struct, hvisited]
  unfold scopeGuide
  refine List.map_congr_left fun slot _ => ?_
  rcases hbound with hbound | hnests
  · rw [hbound]
    simp
  · rw [hnests]
    simp

def expand (cx : CtRw) : Tree → Tree := rewrite (scopeGuide cx.handle) cx

/-! When `ct_rewrite` replaces the free uses of a handle and no others. -/

def Tree.parts : Tree → List Tree
  | .array elems => elems
  | .struct _ slots => slots
  | _ => []

/-- A traversal comes to `u` by the path. -/
inductive Leads (guide : Guide) : Tree → List ℕ → Tree → Prop
  | here (t : Tree) : Leads guide t [] t
  | part {t c u : Tree} {i : ℕ} {path : List ℕ} (hpart : t.parts[i]? = some c)
      (henter : (guide t).getD i false = true) (hrest : Leads guide c path u) :
      Leads guide t (i :: path) u

theorem leads_nil {guide : Guide} {t u : Tree} : Leads guide t [] u ↔ u = t := by
  constructor
  · intro h
    cases h
    rfl
  · rintro rfl
    exact .here _

theorem leads_cons {guide : Guide} {t u : Tree} {i : ℕ} {path : List ℕ} :
    Leads guide t (i :: path) u ↔
      ∃ c, t.parts[i]? = some c ∧ (guide t).getD i false = true ∧ Leads guide c path u := by
  constructor
  · intro h
    cases h with
    | part hpart henter hrest => grind
  · rintro ⟨c, hpart, henter, hrest⟩
    exact .part hpart henter hrest

/-- The flags of a node whose first part of the union is entered and whose second one is not. -/
def firstOfTwo (enter : Bool) : List Bool := List.replicate 6 false ++ [enter, false]

structure Guide.Proper (guide : Guide) : Prop where
  ident : ∀ slots, guide (.struct .ident slots) = firstOfTwo false
  field : ∀ slots, guide (.struct .fieldAccess slots) = firstOfTwo true
  handle : ∀ slots, guide (.struct .comptimeField slots) = firstOfTwo true

theorem ctGuide_proper (handle : Str) : (ctGuide handle).Proper :=
  ⟨fun _ => rfl, fun _ => rfl, fun _ => rfl⟩

theorem scopeGuide_proper (handle : Str) : (scopeGuide handle).Proper :=
  ⟨fun _ => rfl, fun _ => rfl, fun _ => rfl⟩

theorem getD_firstOfTwo {enter : Bool} {i : ℕ} (h : (firstOfTwo enter).getD i false = true) :
    enter = true ∧ i = 6 := by
  match i with
  | 0 | 1 | 2 | 3 | 4 | 5 | 7 => cases h
  | 6 => exact ⟨h, rfl⟩
  | _ + 8 => cases h

variable {cx : CtRw}

theorem replacement_isSome (kind : Kind) (slots after after' : List Tree) :
    (cx.replacement kind slots after).isSome = (cx.replacement kind slots after').isSome := by
  unfold CtRw.replacement
  grind

theorem rewriteParts_none (guide : Guide) (ts : List Tree) : rewriteParts guide cx [] ts = ts := by
  induction ts with
  | nil => rw [rewriteParts]
  | cons t ts ih =>
    rw [rewriteParts, List.tail_nil, ih]
    rfl

def rewriteIf (enter : Bool) (guide : Guide) (cx : CtRw) (t : Tree) : Tree :=
  if enter then rewrite guide cx t else t

theorem rewriteIf_array (enter : Bool) (guide : Guide) (elems : List Tree) :
    rewriteIf enter guide cx (.array elems) =
      .array (rewriteParts guide cx (if enter then guide (.array elems) else []) elems) := by
  unfold rewriteIf
  cases enter with
  | true => simp only [if_true, rewrite]
  | false => simp only [Bool.false_eq_true, if_false, rewriteParts_none]

theorem rewriteIf_struct (enter : Bool) (guide : Guide) {kind : Kind} {slots : List Tree}
    (huse : cx.isUse (.struct kind slots) = false) :
    rewriteIf enter guide cx (.struct kind slots) = .struct kind
      (rewriteParts guide cx (if enter then guide (.struct kind slots) else []) slots) := by
  unfold rewriteIf
  cases enter with
  | true =>
    simp only [if_true, rewrite]
    rw [CtRw.isUse, replacement_isSome _ _ _ (rewriteParts guide cx (guide (.struct kind slots)) slots),
      Option.isSome_eq_false_iff, Option.isNone_iff_eq_none] at huse
    rw [huse, Option.getD_none]
  | false => simp only [Bool.false_eq_true, if_false, rewriteParts_none]

def SameUses (cx : CtRw) (enter₁ enter₂ : Bool) (g₁ g₂ : Guide) (t : Tree) : Prop :=
  ∀ path u, cx.isUse u = true →
    (enter₁ = true ∧ Leads g₁ t path u ↔ enter₂ = true ∧ Leads g₂ t path u)

def SameUsesIn (cx : CtRw) (flags₁ flags₂ : List Bool) (g₁ g₂ : Guide) (ts : List Tree) : Prop :=
  ∀ i c, ts[i]? = some c → SameUses cx (flags₁.getD i false) (flags₂.getD i false) g₁ g₂ c

theorem sameUses_of_not_use {enter₁ enter₂ : Bool} {g₁ g₂ : Guide} {t : Tree}
    (huse : cx.isUse t = false) : SameUses cx enter₁ enter₂ g₁ g₂ t ↔
      SameUsesIn cx (if enter₁ then g₁ t else []) (if enter₂ then g₂ t else []) g₁ g₂ t.parts := by
  have hflag : ∀ (enter : Bool) (g : Guide) (i : ℕ) (P : Prop),
      (if enter then g t else []).getD i false = true ∧ P ↔
        enter = true ∧ (g t).getD i false = true ∧ P := by grind
  constructor
  · intro h i c hc path u hu
    have hpath := h (i :: path) u hu
    grind [leads_cons]
  · intro h path u hu
    cases path with
    | nil =>
      grind [leads_nil]
    | cons i path =>
      rw [leads_cons, leads_cons]
      cases hc : t.parts[i]? with
      | none => simp
      | some c =>
        have hpart := h i c hc path u hu
        grind

theorem sameUsesIn_cons {flags₁ flags₂ : List Bool} {g₁ g₂ : Guide} {t : Tree} {ts : List Tree} :
    SameUsesIn cx flags₁ flags₂ g₁ g₂ (t :: ts) ↔
      SameUses cx (flags₁.headD false) (flags₂.headD false) g₁ g₂ t ∧
        SameUsesIn cx flags₁.tail flags₂.tail g₁ g₂ ts := by
  have hhead : ∀ flags : List Bool, flags.getD 0 false = flags.headD false := by
    intro flags
    cases flags <;> rfl
  have htail : ∀ (flags : List Bool) (i : ℕ), flags.getD (i + 1) false = flags.tail.getD i false := by
    grind
  constructor
  · intro h
    refine ⟨?_, fun i c hc => ?_⟩
    · have h0 := h 0 t rfl
      rwa [hhead, hhead] at h0
    · have hi := h (i + 1) c hc
      rwa [htail, htail] at hi
  · rintro ⟨hfirst, hrest⟩ i c hc
    cases i with
    | zero =>
      grind
    | succ i =>
      rw [htail, htail]
      exact hrest i c hc

theorem member_ne {m : Str} {line column v : Tree} (h : cx.member m line column = some v)
    (slots : List Tree) : v ≠ .struct .fieldAccess slots := by
  rintro rfl
  unfold CtRw.member at h
  split_ifs at h <;> cases h

theorem use_cases {kind : Kind} {slots : List Tree} (h : cx.isUse (.struct kind slots) = true) :
    (kind = .fieldAccess ∧ ∃ a b c d e f object m v, slots = [a, b, c, d, e, f, object, .text m] ∧
      object.isIdent cx.handle = true ∧ cx.member m a b = some v) ∨
    (kind = .comptimeField ∧ ∃ a b c d e f object handle,
      slots = [a, b, c, d, e, f, object, handle] ∧ handle.isText cx.handle = true) := by
  rw [CtRw.isUse] at h
  unfold CtRw.replacement at h
  split at h
  · grind [Option.isSome_iff_exists]
  · grind
  · cases h

theorem rewrite_use_ne {guide : Guide} {kind : Kind} {slots : List Tree}
    (h : cx.isUse (.struct kind slots) = true) :
    rewrite guide cx (.struct kind slots) ≠ .struct kind slots := by
  rw [rewrite]
  rcases use_cases h with ⟨rfl, a, b, c, d, e, f, object, m, v, rfl, hobject, hv⟩ |
    ⟨rfl, a, b, c, d, e, f, object, handle, rfl, hhandle⟩
  · rw [CtRw.replacement, if_pos hobject, hv, Option.getD_some]
    exact member_ne hv _
  · rw [CtRw.replacement, if_pos hhandle, Option.getD_some]
    nofun

theorem not_leads_ident {guide : Guide} (hguide : guide.Proper) {name : Str} {t u : Tree}
    (ht : t.isIdent name = true) {path : List ℕ} (hleads : Leads guide t path u) :
    cx.isUse u = false := by
  unfold Tree.isIdent at ht
  split at ht
  · cases path with
    | nil =>
      rw [leads_nil] at hleads
      subst hleads
      rfl
    | cons i path =>
      obtain ⟨c, -, henter, -⟩ := leads_cons.1 hleads
      rw [hguide.ident] at henter
      cases (getD_firstOfTwo henter).1
  · cases ht

theorem rewriteParts_member {guide : Guide} (a b c d e f object last : Tree) :
    rewriteParts guide cx (firstOfTwo true) [a, b, c, d, e, f, object, last] =
      [a, b, c, d, e, f, rewrite guide cx object, last] := by
  simp [rewriteParts, firstOfTwo, List.replicate]

theorem leaf_eq_iff {g₁ g₂ : Guide} {t : Tree} (huse : cx.isUse t = false) (hparts : t.parts = [])
    (hleaf : ∀ g, rewrite g cx t = t) (enter₁ enter₂ : Bool) :
    rewriteIf enter₁ g₁ cx t = rewriteIf enter₂ g₂ cx t ↔ SameUses cx enter₁ enter₂ g₁ g₂ t := by
  constructor
  · intro h
    rw [sameUses_of_not_use huse, hparts]
    intro i c hc
    cases hc
  · intro h
    unfold rewriteIf
    grind

section Compare

variable {g₁ g₂ : Guide} (h₁ : g₁.Proper) (h₂ : g₂.Proper)

include h₁ h₂

theorem field_same {slots : List Tree} {a b c d e f object : Tree} {m : Str}
    (hslots : slots = [a, b, c, d, e, f, object, .text m]) (hobject : object.isIdent cx.handle = true) :
    SameUses cx true true g₁ g₂ (.struct .fieldAccess slots) := by
  intro path u hu
  cases path with
  | nil => rw [leads_nil, leads_nil]
  | cons i path =>
    have hnone : ∀ g : Guide, g.Proper → ¬ Leads g (.struct .fieldAccess slots) (i :: path) u := by
      intro g hg hleads
      obtain ⟨p, hp, henter, hrest⟩ := leads_cons.1 hleads
      rw [hg.field] at henter
      obtain ⟨-, rfl⟩ := getD_firstOfTwo henter
      rw [hslots] at hp
      cases hp
      rw [not_leads_ident hg hobject hrest] at hu
      cases hu
    grind

theorem handle_same {slots : List Tree} :
    SameUses cx true true g₁ g₂ (.struct .comptimeField slots) ↔
      SameUsesIn cx (firstOfTwo true) (firstOfTwo true) g₁ g₂ slots := by
  constructor
  · intro h i c hc path u hu
    have hpath := h (i :: path) u hu
    rw [leads_cons, leads_cons, h₁.handle, h₂.handle] at hpath
    simpa [Tree.parts, hc] using hpath
  · intro h path u hu
    cases path with
    | nil => rw [leads_nil, leads_nil]
    | cons i path =>
      rw [leads_cons, leads_cons, h₁.handle, h₂.handle]
      cases hc : slots[i]? with
      | none => simp [Tree.parts, hc]
      | some c => simpa [Tree.parts, hc] using h i c hc path u hu

theorem use_eq_iff {kind : Kind} {slots : List Tree} (huse : cx.isUse (.struct kind slots) = true)
    (hparts : rewriteParts g₁ cx (firstOfTwo true) slots = rewriteParts g₂ cx (firstOfTwo true) slots ↔
      SameUsesIn cx (firstOfTwo true) (firstOfTwo true) g₁ g₂ slots) (enter₁ enter₂ : Bool) :
    rewriteIf enter₁ g₁ cx (.struct kind slots) = rewriteIf enter₂ g₂ cx (.struct kind slots) ↔
      SameUses cx enter₁ enter₂ g₁ g₂ (.struct kind slots) := by
  -- the use itself is at the empty path
  have hroot : SameUses cx enter₁ enter₂ g₁ g₂ (.struct kind slots) → enter₁ = enter₂ := by
    intro h
    have h0 := h [] _ huse
    rw [leads_nil, leads_nil] at h0
    grind
  by_cases henter : enter₁ = enter₂
  swap
  · refine ⟨fun h => ?_, fun h => absurd (hroot h) henter⟩
    cases enter₁ with
    | true =>
      cases enter₂ with
      | true => exact absurd rfl henter
      | false => exact absurd h (rewrite_use_ne huse)
    | false =>
      cases enter₂ with
      | true => exact absurd h.symm (rewrite_use_ne huse)
      | false => exact absurd rfl henter
  subst henter
  cases enter₁ with
  | false =>
    refine ⟨fun _ path u _ => ?_, fun _ => rfl⟩
    simp
  | true =>
    rcases use_cases huse with ⟨rfl, a, b, c, d, e, f, object, m, v, rfl, hobject, hv⟩ |
      ⟨rfl, a, b, c, d, e, f, object, handle, rfl, hhandle⟩
    · refine ⟨fun _ => field_same h₁ h₂ rfl hobject, fun _ => ?_⟩
      unfold rewriteIf
      rw [if_pos rfl, if_pos rfl, rewrite, rewrite, CtRw.replacement, CtRw.replacement,
        if_pos hobject, hv, Option.getD_some, Option.getD_some]
    · rw [handle_same h₁ h₂, ← hparts, rewriteParts_member, rewriteParts_member]
      unfold rewriteIf
      rw [if_pos rfl, if_pos rfl, rewrite, rewrite, CtRw.replacement, CtRw.replacement,
        if_pos hhandle, if_pos hhandle, Option.getD_some, Option.getD_some, h₁.handle, h₂.handle,
        rewriteParts_member, rewriteParts_member]
      change Tree.struct .fieldAccess [a, b, .null, .scalar 0, .scalar 0, .null, rewrite g₁ cx object,
        .text cx.name] = Tree.struct .fieldAccess [a, b, .null, .scalar 0, .scalar 0, .null,
        rewrite g₂ cx object, .text cx.name] ↔ _
      grind

end Compare

mutual

theorem rewrite_eq_iff {g₁ g₂ : Guide} (h₁ : g₁.Proper) (h₂ : g₂.Proper) : ∀ (t : Tree) (enter₁ enter₂ : Bool),
    rewriteIf enter₁ g₁ cx t = rewriteIf enter₂ g₂ cx t ↔ SameUses cx enter₁ enter₂ g₁ g₂ t
  | .null, enter₁, enter₂ => leaf_eq_iff rfl rfl (fun g => rfl) enter₁ enter₂
  | .scalar v, enter₁, enter₂ => leaf_eq_iff rfl rfl (fun g => rfl) enter₁ enter₂
  | .borrowed p, enter₁, enter₂ => leaf_eq_iff rfl rfl (fun g => rfl) enter₁ enter₂
  | .text s, enter₁, enter₂ => leaf_eq_iff rfl rfl (fun g => rfl) enter₁ enter₂
  | .type t, enter₁, enter₂ => leaf_eq_iff rfl rfl (fun g => rfl) enter₁ enter₂
  | .array elems, enter₁, enter₂ => by
    rw [rewriteIf_array, rewriteIf_array, Tree.array.injEq, rewriteParts_eq_iff h₁ h₂ elems,
      sameUses_of_not_use rfl]
    rfl
  | .struct kind slots, enter₁, enter₂ => by
    cases huse : cx.isUse (.struct kind slots) with
    | false =>
      rw [rewriteIf_struct enter₁ g₁ huse, rewriteIf_struct enter₂ g₂ huse, Tree.struct.injEq,
        rewriteParts_eq_iff h₁ h₂ slots, sameUses_of_not_use huse]
      simp only [true_and]
      rfl
    | true =>
      exact use_eq_iff h₁ h₂ huse (rewriteParts_eq_iff h₁ h₂ slots _ _) enter₁ enter₂

theorem rewriteParts_eq_iff {g₁ g₂ : Guide} (h₁ : g₁.Proper) (h₂ : g₂.Proper) : ∀ (ts : List Tree) (flags₁ flags₂ : List Bool),
    rewriteParts g₁ cx flags₁ ts = rewriteParts g₂ cx flags₂ ts ↔
      SameUsesIn cx flags₁ flags₂ g₁ g₂ ts
  | [], flags₁, flags₂ => by
    rw [rewriteParts, rewriteParts]
    refine ⟨fun _ i c hc => ?_, fun _ => rfl⟩
    cases hc
  | t :: ts, flags₁, flags₂ => by
    rw [rewriteParts, rewriteParts, List.cons.injEq, rewriteParts_eq_iff h₁ h₂ ts, sameUsesIn_cons,
      ← rewrite_eq_iff h₁ h₂ t]
    rfl

end

theorem ct_rewrite_expands_iff (cx : CtRw) (body : Tree) : ctRewrite cx body = expand cx body ↔
    ∀ path u, cx.isUse u = true →
      (Leads (ctGuide cx.handle) body path u ↔ Leads (scopeGuide cx.handle) body path u) := by
  have h : rewriteIf true (ctGuide cx.handle) cx body = rewriteIf true (scopeGuide cx.handle) cx body ↔
      SameUses cx true true (ctGuide cx.handle) (scopeGuide cx.handle) body :=
    rewrite_eq_iff (ctGuide_proper cx.handle) (scopeGuide_proper cx.handle) body true true
  unfold SameUses rewriteIf at h
  unfold ctRewrite expand
  simpa only [if_true, true_and] using h

/-- The handle `f`, bound to the first field `x` of type `int`. -/
def fieldX : CtRw := ⟨lit ['f'], lit ['x'], 0, lit ['i', 'n', 't'], -1⟩

/-- `@time f.index` -/
def timedIndex : Tree :=
  .new .atTime (.scalar 1) (.scalar 1) [.new .fieldAccess (.scalar 1) (.scalar 7)
    [.ctIdent (lit ['f']) (.scalar 1) (.scalar 7), .text (lit ['i', 'n', 'd', 'e', 'x'])]]

theorem ct_rewrite_not_expand : ctRewrite fieldX timedIndex ≠ expand fieldX timedIndex := by
  intro h
  change timedIndex = .new .atTime (.scalar 1) (.scalar 1) [.ctIntLit 0 (.scalar 1) (.scalar 7)] at h
  simp [timedIndex, Tree.new, Tree.ctIntLit] at h

end LsLang.Ast
