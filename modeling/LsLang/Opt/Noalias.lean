import LsLang.Lib.Reaches
import Mathlib.Data.List.Nodup
import Mathlib.Tactic.Common

/-! The recovery of `noalias`: candidate parameters keep it where no operation that could involve
another thread is reachable. -/

namespace LsLang.Opt

/-- `LLVMValueRef` of a function. -/
abbrev FnRef := ℕ

inductive AtomicOrdering where
  | notAtomic | unordered | monotonic | acquire | release | acquireRelease | sequentiallyConsistent
  deriving DecidableEq

inductive CalledValue where
  | inlineAsm
  | function (fn : FnRef)
  /-- A code pointer: a block or a function value. -/
  | pointer
  deriving DecidableEq

inductive Inst where
  | atomicRMW
  | atomicCmpXchg
  | fence
  | load (ordering : AtomicOrdering)
  | store (ordering : AtomicOrdering)
  | call (callee : CalledValue)
  | other
  deriving DecidableEq

inductive Attr where
  | noalias
  | string (key value : String)
  | other (kind value : ℕ)
  deriving DecidableEq

structure Func where
  fn : FnRef
  name : String
  params : List (List Attr)
  blocks : List (List Inst)
  deriving DecidableEq

/-- `LLVMIsDeclaration`: there is no body. -/
def Func.isDeclaration (f : Func) : Bool := f.blocks.isEmpty

def Func.insts (f : Func) : List Inst := f.blocks.flatten

/-- A module: each function is there once, and what is called directly is in it. -/
structure Module where
  functions : List Func
  nodup : (functions.map Func.fn).Nodup
  closed : ∀ f ∈ functions, ∀ g, Inst.call (.function g) ∈ f.insts → g ∈ functions.map Func.fn

def candAttr : String := "ls-noalias-cand"

def naSafeExternals : List String := [
  "malloc", "calloc", "realloc", "free", "memcpy", "memmove", "memset", "memcmp",
  "strlen", "strcmp", "strncmp", "strstr", "sprintf", "snprintf",
  "sqrt", "sin", "cos", "tan", "exp", "log", "log10", "pow", "fmod",
  "floor", "ceil", "round", "trunc", "fabs", "atan2", "sinh", "cosh",
  "tanh", "asin", "acos", "atan", "exp2", "log2",
  "abort", "exit", "printf", "puts", "putchar", "fflush",
  "__ls_proc_exit", "__ls_flush_out", "__ls_printf",
  "__ls_stdout", "__ls_stderr", "__ls_sink_stream", "__ls_sink_set",
  "__ls_str_find", "__ls_fxhash_bytes", "__ls_bytecopy", "__ls_ptr_at",
  "__ls_load_u8", "__ls_load_le_u16", "__ls_load_le_u32", "__ls_load_le_u64",
  "__ls_load_be_u16", "__ls_load_be_u32", "__ls_load_be_u64",
  "__ls_float_fixed_exec", "__ls_float_fixed_ptr",
  "__ls_cpu_count", "__ls_cache_kb", "__ls_cpu_has_avx512",
  "__ls_get_argc", "__ls_get_argv"]

def naSafeExternal (name : String) : Bool :=
  if name = "" then false
  else "llvm.".toList.isPrefixOf name.toList || naSafeExternals.contains name

structure NaNode where
  fn : FnRef
  /-- Indices into the table. -/
  callees : List ℕ
  disq : Bool

def naFind (nodes : List NaNode) (fn : FnRef) : Option ℕ := nodes.findIdx? fun node => node.fn == fn

def naAddCallee (node : NaNode) (callee : ℕ) : NaNode :=
  if callee ∈ node.callees then node else { node with callees := node.callees ++ [callee] }

def naScanInst (m : Module) (nodes : List NaNode) (node : NaNode) : Inst → Except NaNode NaNode
  | .atomicRMW | .atomicCmpXchg | .fence => .error { node with disq := true }
  | .load ordering | .store ordering =>
    if ordering ≠ .notAtomic then .error { node with disq := true } else .ok node
  | .call .inlineAsm => .error { node with disq := true }
  | .call .pointer => .error { node with disq := true }
  | .call (.function g) =>
    match m.functions.find? fun f => f.fn == g with
    | none => .error { node with disq := true }
    | some callee =>
      if callee.isDeclaration then
        if naSafeExternal callee.name then .ok node else .error { node with disq := true }
      else
        match naFind nodes callee.fn with
        | none => .error { node with disq := true }
        | some idx => .ok (naAddCallee node idx)
  | .other => .ok node

def naScanInsts (m : Module) (nodes : List NaNode) (node : NaNode) : List Inst → Except NaNode NaNode
  | [] => .ok node
  | inst :: insts => do
    let node ← naScanInst m nodes node inst
    naScanInsts m nodes node insts

def naScanBlocks (m : Module) (nodes : List NaNode) (node : NaNode) :
    List (List Inst) → Except NaNode NaNode
  | [] => .ok node
  | block :: blocks => do
    let node ← naScanInsts m nodes node block
    naScanBlocks m nodes node blocks

def naScanFn (m : Module) (nodes : List NaNode) (node : NaNode) (f : Func) : NaNode :=
  match naScanBlocks m nodes node f.blocks with
  | .ok node => node
  | .error node => node

/-! ### The fixpoint -/

def disqAt (nodes : List NaNode) (k : ℕ) : Bool := nodes[k]?.any NaNode.disq

def naRemove (st : List NaNode × Bool) (k : ℕ) : List NaNode × Bool :=
  match st.1[k]? with
  | none => st
  | some node =>
    if node.disq then st
    else if node.callees.any (disqAt st.1) then (st.1.set k { node with disq := true }, true)
    else st

def naPass (nodes : List NaNode) : List NaNode × Bool :=
  (List.range nodes.length).foldl naRemove (nodes, false)

def openCount (nodes : List NaNode) : ℕ := nodes.countP fun node => !node.disq

section Pass

variable {nodes : List NaNode} {st : List NaNode × Bool} {k : ℕ}

theorem naRemove_cases (st : List NaNode × Bool) (k : ℕ) :
    (naRemove st k = st ∧ ∀ node, st.1[k]? = some node → node.disq = false →
      ∀ e ∈ node.callees, disqAt st.1 e = false) ∨
    ∃ node, st.1[k]? = some node ∧ node.disq = false ∧ (∃ e ∈ node.callees, disqAt st.1 e = true) ∧
      naRemove st k = (st.1.set k { node with disq := true }, true) := by
  unfold naRemove
  cases hk : st.1[k]? with
  | none => grind
  | some node =>
    dsimp only
    by_cases hd : node.disq = true
    · grind
    · by_cases hc : node.callees.any (disqAt st.1) = true
      · grind
      · grind

theorem openCount_set {node : NaNode} (hk : nodes[k]? = some node) (hd : node.disq = false) :
    openCount (nodes.set k { node with disq := true }) < openCount nodes := by
  induction nodes generalizing k with
  | nil => cases hk
  | cons head tail ih =>
    unfold openCount at ih ⊢
    grind

theorem foldl_naRemove_open (ks : List ℕ) (st : List NaNode × Bool) :
    ks.foldl naRemove st = st ∨
      (ks.foldl naRemove st).2 = true ∧ openCount (ks.foldl naRemove st).1 < openCount st.1 := by
  induction ks generalizing st with
  | nil => exact .inl rfl
  | cons k ks ih =>
    rw [List.foldl_cons]
    rcases naRemove_cases st k with ⟨hsame, -⟩ | ⟨node, hk, hd, -, heq⟩
    · grind
    · have hless : openCount (naRemove st k).1 < openCount st.1 := by
        rw [heq]
        exact openCount_set hk hd
      grind

theorem naPass_open (h : (naPass nodes).2 = true) : openCount (naPass nodes).1 < openCount nodes := by
  rcases foldl_naRemove_open (List.range nodes.length) (nodes, false) with hsame | ⟨-, hless⟩
  · unfold naPass at h
    rw [hsame] at h
    cases h
  · exact hless

end Pass

/-- `while (changed)`: passes until nothing changes. -/
def naPropagate (nodes : List NaNode) : List NaNode :=
  if _h : (naPass nodes).2 = true then naPropagate (naPass nodes).1 else (naPass nodes).1
termination_by openCount nodes
decreasing_by exact naPass_open _h

/-! ### The whole pass -/

def Module.defined (m : Module) : List Func := m.functions.filter fun f => !f.isDeclaration

def naTable (m : Module) : List NaNode := m.defined.map fun f => ⟨f.fn, [], false⟩

def naScan (m : Module) : List NaNode :=
  List.zipWith (naScanFn m (naTable m)) (naTable m) m.defined

def Attr.isMarker : Attr → Bool
  | .string key _ => key == candAttr
  | _ => false

/-- `LLVMGetStringAttributeAtIndex` finds the marker. -/
def isCandidate (attrs : List Attr) : Bool := attrs.any Attr.isMarker

/-- `LLVMRemoveStringAttributeAtIndex` of the marker. -/
def stripMarker (attrs : List Attr) : List Attr := attrs.filter fun a => !a.isMarker

/-- `LLVMAddAttributeAtIndex` of `noalias`. -/
def addNoalias (attrs : List Attr) : List Attr :=
  if .noalias ∈ attrs then attrs else attrs ++ [.noalias]

/-- Strip the markers of one function and stamp it if it survived; `nodes` is absent when disabled. -/
def naStamp (nodes : Option (List NaNode)) (f : Func) : Func :=
  if f.params.length = 0 then f
  else
    let marked := f.params.map isCandidate
    let stripped := f.params.map stripMarker
    let found := marked.count true
    let survives : Bool := nodes.any fun nodes => (naFind nodes f.fn).any fun idx => !disqAt nodes idx
    if found > 0 ∧ f.isDeclaration = false ∧ survives = true then
      { f with params := List.zipWith (fun attrs mark => if mark then addNoalias attrs else attrs) stripped marked }
    else { f with params := stripped }

theorem naStamp_fields (nodes : Option (List NaNode)) (f : Func) :
    (naStamp nodes f).fn = f.fn ∧ (naStamp nodes f).name = f.name ∧ (naStamp nodes f).blocks = f.blocks := by
  unfold naStamp
  grind

theorem map_naStamp_fn (nodes : Option (List NaNode)) (fs : List Func) :
    (fs.map (naStamp nodes)).map Func.fn = fs.map Func.fn := by
  rw [List.map_map]
  exact List.map_congr_left fun f _ => (naStamp_fields nodes f).1

/-- The pass over a module; `disabled` is one of its two environment switches. -/
def lsNoaliasRecover (disabled : Bool) (m : Module) : Module :=
  let nodes := if disabled then none else some (naPropagate (naScan m))
  { functions := m.functions.map (naStamp nodes)
    nodup := by
      rw [map_naStamp_fn]
      exact m.nodup
    closed := by
      intro f hf g hg
      obtain ⟨f₀, hf₀, rfl⟩ := List.mem_map.1 hf
      rw [map_naStamp_fn]
      refine m.closed f₀ hf₀ g ?_
      unfold Func.insts at hg ⊢
      rwa [(naStamp_fields _ f₀).2.2] at hg }

end LsLang.Opt
