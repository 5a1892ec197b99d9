import LsLang.Opt.Noalias

/-! The recovered `noalias` marks are decided by reachability in the call graph. -/

namespace LsLang.Opt

open LsLang.Lib

inductive Disqualifies (m : Module) : Inst → Prop
  | atomicRMW : Disqualifies m .atomicRMW
  | atomicCmpXchg : Disqualifies m .atomicCmpXchg
  | fence : Disqualifies m .fence
  | load {ordering : AtomicOrdering} : ordering ≠ .notAtomic → Disqualifies m (.load ordering)
  | store {ordering : AtomicOrdering} : ordering ≠ .notAtomic → Disqualifies m (.store ordering)
  | inlineAsm : Disqualifies m (.call .inlineAsm)
  | indirect : Disqualifies m (.call .pointer)
  | external {g : Func} : g ∈ m.functions → g.isDeclaration = true → naSafeExternal g.name = false →
    Disqualifies m (.call (.function g.fn))

def Calls (m : Module) (f g : Func) : Prop := g ∈ m.defined ∧ Inst.call (.function g.fn) ∈ f.insts

def Bad (m : Module) (f : Func) : Prop := ∃ inst ∈ f.insts, Disqualifies m inst

def EdgeAt (m : Module) (inst : Inst) (e : ℕ) : Prop :=
  ∃ g, m.defined[e]? = some g ∧ inst = .call (.function g.fn)

section Module

variable {m : Module} {f g : Func} {e : ℕ}

theorem Module.mem_defined : f ∈ m.defined ↔ f ∈ m.functions ∧ f.isDeclaration = false := by
  unfold Module.defined
  grind

theorem Module.eq_of_fn (hf : f ∈ m.functions) (hg : g ∈ m.functions) (h : f.fn = g.fn) : f = g :=
  List.inj_on_of_nodup_map m.nodup hf hg h

theorem Module.find_fn (hf : f ∈ m.functions) :
    (m.functions.find? fun g => g.fn == f.fn) = some f := by
  cases hfind : m.functions.find? fun g => g.fn == f.fn with
  | none =>
    grind
  | some g =>
    have hsame := List.find?_some hfind
    rw [m.eq_of_fn (List.mem_of_find?_eq_some hfind) hf (by simpa using hsame)]

theorem Module.defined_nodup : (m.defined.map Func.fn).Nodup :=
  m.nodup.sublist (List.Sublist.map _ List.filter_sublist)

end Module

def Tables (m : Module) (nodes : List NaNode) : Prop := nodes.map NaNode.fn = m.defined.map Func.fn

namespace Tables

variable {m : Module} {nodes : List NaNode} {f : Func} {e : ℕ}

theorem fn_at (h : Tables m nodes) (he : m.defined[e]? = some f) : nodes[e]?.map NaNode.fn = some f.fn := by
  have hat := congrArg (fun fns : List FnRef => fns[e]?) h
  simpa [he] using hat

theorem find (h : Tables m nodes) (he : m.defined[e]? = some f) : naFind nodes f.fn = some e := by
  have hfn := h.fn_at he
  obtain ⟨node, hnode, hsame⟩ := Option.map_eq_some_iff.1 hfn
  obtain ⟨hlt, hget⟩ := List.getElem?_eq_some_iff.1 hnode
  unfold naFind
  rw [List.findIdx?_eq_some_iff_getElem]
  refine ⟨hlt, by simp [hget, hsame], fun j hj => ?_⟩
  intro heq
  have hnodup : (nodes.map NaNode.fn).Nodup := by
    rw [h]
    exact m.defined_nodup
  have hjlt : j < nodes.length := Nat.lt_trans hj hlt
  have hjmap : j < (nodes.map NaNode.fn).length := by simpa using hjlt
  have hemap : e < (nodes.map NaNode.fn).length := by simpa using hlt
  have hboth : (nodes.map NaNode.fn)[j] = (nodes.map NaNode.fn)[e] := by grind
  exact Nat.ne_of_lt hj ((hnodup.getElem_inj_iff).1 hboth)

theorem index (h : Tables m nodes) (hf : f ∈ m.defined) :
    ∃ e, m.defined[e]? = some f ∧ naFind nodes f.fn = some e := by
  obtain ⟨e, he⟩ := List.mem_iff_getElem?.1 hf
  exact ⟨e, he, h.find he⟩

end Tables

/-! ### The scan -/

structure Scanned (m : Module) (insts : List Inst) (node node' : NaNode) : Prop where
  fn : node'.fn = node.fn
  disq : node'.disq = node.disq
  safe : ∀ inst ∈ insts, ¬ Disqualifies m inst
  callees : ∀ e, e ∈ node'.callees ↔ e ∈ node.callees ∨ ∃ inst ∈ insts, EdgeAt m inst e

structure Stopped (m : Module) (insts : List Inst) (node node' : NaNode) : Prop where
  fn : node'.fn = node.fn
  disq : node'.disq = true
  bad : ∃ inst ∈ insts, Disqualifies m inst

def ScanSpec (m : Module) (insts : List Inst) (node : NaNode) : Except NaNode NaNode → Prop
  | .ok node' => Scanned m insts node node'
  | .error node' => Stopped m insts node node'

namespace ScanSpec

variable {m : Module} {nodes : List NaNode} {node node' : NaNode} {inst : Inst} {xs ys : List Inst}
  {r : Except NaNode NaNode}

theorem nil : ScanSpec m [] node (.ok node) where
  fn := rfl
  disq := rfl
  safe inst h := by cases h
  callees e := by simp

theorem bind {k : NaNode → Except NaNode NaNode} (h : ScanSpec m xs node r)
    (hk : ∀ node', r = .ok node' → ScanSpec m ys node' (k node')) : ScanSpec m (xs ++ ys) node (r >>= k) := by
  cases r with
  | error node' =>
    obtain ⟨inst, hinst, hbad⟩ := h.bad
    exact ⟨h.fn, h.disq, inst, List.mem_append_left _ hinst, hbad⟩
  | ok node' =>
    have hrest := hk node' rfl
    have hbind : ((Except.ok node' : Except NaNode NaNode) >>= k) = k node' := rfl
    rw [hbind]
    cases hend : k node' with
    | error node'' =>
      rw [hend] at hrest
      obtain ⟨inst, hinst, hbad⟩ := hrest.bad
      exact ⟨hrest.fn.trans h.fn, hrest.disq, inst, List.mem_append_right _ hinst, hbad⟩
    | ok node'' =>
      rw [hend] at hrest
      refine ⟨hrest.fn.trans h.fn, hrest.disq.trans h.disq, ?_, ?_⟩
      · intro inst hinst
        rcases List.mem_append.1 hinst with hx | hy
        · exact h.safe inst hx
        · exact hrest.safe inst hy
      · intro e
        rw [hrest.callees e, h.callees e, or_assoc]
        grind

theorem stop (h : Disqualifies m inst) : ScanSpec m [inst] node (.error { node with disq := true }) :=
  ⟨rfl, rfl, inst, List.mem_singleton.2 rfl, h⟩

theorem skip (h : ¬ Disqualifies m inst) (hedge : ∀ e, ¬ EdgeAt m inst e) :
    ScanSpec m [inst] node (.ok node) where
  fn := rfl
  disq := rfl
  safe i hi := by grind
  callees e := by grind

theorem edge {g : Func} {idx : ℕ} (hg : g ∈ m.defined) (hidx : m.defined[idx]? = some g) :
    ScanSpec m [.call (.function g.fn)] node (.ok (naAddCallee node idx)) where
  fn := by
    unfold naAddCallee
    split <;> rfl
  disq := by
    unfold naAddCallee
    split <;> rfl
  safe i hi hbad := by
    rw [List.mem_singleton.1 hi] at hbad
    obtain ⟨hmem, hdefined⟩ := Module.mem_defined.1 hg
    generalize hcall : Inst.call (.function g.fn) = inst at hbad
    cases hbad with
    | @external g' hg' hdecl _ =>
      injection hcall with hcall
      injection hcall with hcall
      rw [m.eq_of_fn hmem hg' hcall, hdecl] at hdefined
      cases hdefined
    | _ => cases hcall
  callees e := by
    have hadd : e ∈ (naAddCallee node idx).callees ↔ e ∈ node.callees ∨ e = idx := by
      unfold naAddCallee
      grind
    rw [hadd]
    refine or_congr_right ⟨?_, ?_⟩
    · rintro rfl
      exact ⟨_, List.mem_singleton.2 rfl, g, hidx, rfl⟩
    · rintro ⟨i, hi, g', he, hcall⟩
      rw [List.mem_singleton.1 hi] at hcall
      injection hcall with hcall
      injection hcall with hcall
      have hsame : m.defined[e]? = m.defined[idx]? := by
        rw [he, hidx, m.eq_of_fn (Module.mem_defined.1 hg).1
          (Module.mem_defined.1 (List.mem_of_getElem? he)).1 hcall]
      have hnodup : m.defined.Nodup := m.defined_nodup.of_map _
      exact (List.getElem?_inj (List.getElem?_eq_some_iff.1 he).1 hnodup).1 hsame

end ScanSpec

section Scan

variable {m : Module} {nodes : List NaNode} {node : NaNode} {inst : Inst} {f : Func}

theorem no_edge_of_other (h : ∀ g, inst ≠ .call (.function g)) (e : ℕ) : ¬ EdgeAt m inst e := by
  rintro ⟨g, -, rfl⟩
  exact h _ rfl

theorem ordered_spec {ordering : AtomicOrdering} (hcall : ∀ g, inst ≠ .call (.function g))
    (hiff : Disqualifies m inst ↔ ordering ≠ .notAtomic) :
    ScanSpec m [inst] node
      (if ordering ≠ .notAtomic then .error { node with disq := true } else .ok node) := by
  by_cases h : ordering ≠ .notAtomic
  · rw [if_pos h]
    exact .stop (hiff.2 h)
  · rw [if_neg h]
    exact .skip (mt hiff.1 h) (no_edge_of_other hcall)

theorem naScanInst_spec (htable : Tables m nodes)
    (hclosed : ∀ g, inst = .call (.function g) → g ∈ m.functions.map Func.fn) :
    ScanSpec m [inst] node (naScanInst m nodes node inst) := by
  cases inst with
  | atomicRMW => exact .stop .atomicRMW
  | atomicCmpXchg => exact .stop .atomicCmpXchg
  | fence => exact .stop .fence
  | load ordering =>
    refine ordered_spec (fun g h => by cases h) ⟨?_, .load⟩
    -- a load stands in the way by its ordering only
    rintro (_ | _ | _ | h)
    exact h
  | store ordering =>
    refine ordered_spec (fun g h => by cases h) ⟨?_, .store⟩
    rintro (_ | _ | _ | _ | h)
    exact h
  | other => exact .skip (fun h => by cases h) (no_edge_of_other fun g h => by cases h)
  | call callee =>
    cases callee with
    | inlineAsm => exact .stop .inlineAsm
    | pointer => exact .stop .indirect
    | function g =>
      obtain ⟨callee, hmem, rfl⟩ := List.mem_map.1 (hclosed g rfl)
      unfold naScanInst
      dsimp only
      rw [m.find_fn hmem]
      dsimp only
      by_cases hdecl : callee.isDeclaration = true
      · rw [if_pos hdecl]
        -- a declaration is no node of the graph
        have hedge : ∀ e, ¬ EdgeAt m (.call (.function callee.fn)) e := by
          rintro e ⟨g, hg, hcall⟩
          injection hcall with hcall
          injection hcall with hcall
          obtain ⟨hgmem, hdef⟩ := Module.mem_defined.1 (List.mem_of_getElem? hg)
          rw [← m.eq_of_fn hmem hgmem hcall, hdecl] at hdef
          cases hdef
        cases hsafe : naSafeExternal callee.name with
        | true =>
          rw [if_pos rfl]
          refine .skip ?_ hedge
          generalize hcall : Inst.call (.function callee.fn) = inst
          intro hbad
          cases hbad with
          | @external g' hg' _ hunsafe =>
            injection hcall with hcall
            injection hcall with hcall
            rw [← m.eq_of_fn hmem hg' hcall, hsafe] at hunsafe
            cases hunsafe
          | _ => cases hcall
        | false =>
          rw [if_neg (by decide)]
          exact .stop (.external hmem hdecl hsafe)
      · rw [if_neg hdecl]
        have hdef : callee ∈ m.defined := Module.mem_defined.2 ⟨hmem, by simpa using hdecl⟩
        obtain ⟨idx, hidx, hfind⟩ := htable.index hdef
        rw [hfind]
        exact .edge hdef hidx

theorem naScanInsts_spec (htable : Tables m nodes) {insts : List Inst}
    (hclosed : ∀ g, Inst.call (.function g) ∈ insts → g ∈ m.functions.map Func.fn) :
    ScanSpec m insts node (naScanInsts m nodes node insts) := by
  induction insts generalizing node with
  | nil => exact .nil
  | cons inst insts ih =>
    unfold naScanInsts
    have hhead : ScanSpec m [inst] node (naScanInst m nodes node inst) := by
      grind [List.mem_cons_self, naScanInst_spec]
    exact hhead.bind fun node' _ => ih fun g hg => hclosed g (List.mem_cons_of_mem _ hg)

theorem naScanBlocks_spec (htable : Tables m nodes) {blocks : List (List Inst)}
    (hclosed : ∀ g, Inst.call (.function g) ∈ blocks.flatten → g ∈ m.functions.map Func.fn) :
    ScanSpec m blocks.flatten node (naScanBlocks m nodes node blocks) := by
  induction blocks generalizing node with
  | nil => exact .nil
  | cons block blocks ih =>
    unfold naScanBlocks
    rw [List.flatten_cons] at hclosed ⊢
    grind [List.mem_append_right, List.mem_append_left, ScanSpec.bind, naScanInsts_spec]

structure Seeded (m : Module) (f : Func) (node : NaNode) : Prop where
  fn : node.fn = f.fn
  disq : node.disq = true ↔ Bad m f
  callees : ¬ Bad m f → ∀ e, e ∈ node.callees ↔ ∃ g, m.defined[e]? = some g ∧ Calls m f g

theorem naScanFn_spec (htable : Tables m nodes) (hf : f ∈ m.functions) :
    Seeded m f (naScanFn m nodes ⟨f.fn, [], false⟩ f) := by
  have hspec : ScanSpec m f.insts ⟨f.fn, [], false⟩ (naScanBlocks m nodes ⟨f.fn, [], false⟩ f.blocks) :=
    naScanBlocks_spec htable (m.closed f hf)
  unfold naScanFn
  cases hscan : naScanBlocks m nodes ⟨f.fn, [], false⟩ f.blocks with
  | error node =>
    rw [hscan] at hspec
    exact ⟨hspec.fn, iff_of_true hspec.disq hspec.bad, fun h => absurd hspec.bad h⟩
  | ok node =>
    rw [hscan] at hspec
    have hgood : ¬ Bad m f := by
      rintro ⟨inst, hinst, hbad⟩
      exact hspec.safe inst hinst hbad
    refine ⟨hspec.fn, iff_of_false ?_ hgood, fun _ e => ?_⟩
    · rw [hspec.disq]
      exact Bool.false_ne_true
    · rw [hspec.callees e]
      constructor
      · rintro (h | ⟨inst, hinst, g, hg, rfl⟩)
        · cases h
        · exact ⟨g, hg, List.mem_of_getElem? hg, hinst⟩
      · rintro ⟨g, hg, -, hcall⟩
        exact .inr ⟨_, hcall, g, hg, rfl⟩

theorem naScan_seeded (m : Module) (e : ℕ) (f : Func) (he : m.defined[e]? = some f) :
    ∃ node, (naScan m)[e]? = some node ∧ Seeded m f node := by
  have hf : f ∈ m.functions := (Module.mem_defined.1 (List.mem_of_getElem? he)).1
  have htable : Tables m (naTable m) := by
    unfold Tables naTable
    rw [List.map_map]
    rfl
  refine ⟨_, ?_, naScanFn_spec htable hf⟩
  unfold naScan
  rw [List.getElem?_zipWith, he]
  unfold naTable
  rw [List.getElem?_map, he]
  rfl

theorem naScan_length (m : Module) : (naScan m).length = m.defined.length := by
  unfold naScan naTable
  simp

theorem naScan_tables (m : Module) : Tables m (naScan m) := by
  refine List.ext_getElem? fun e => ?_
  rw [List.getElem?_map, List.getElem?_map]
  cases he : m.defined[e]? with
  | none =>
    rw [List.getElem?_eq_none_iff] at he
    rw [List.getElem?_eq_none (by rwa [naScan_length])]
    rfl
  | some f =>
    obtain ⟨node, hnode, hseeded⟩ := naScan_seeded m e f he
    rw [hnode]
    exact congrArg some hseeded.fn

end Scan

/-! ### The fixpoint -/

def edge (nodes : List NaNode) (i j : ℕ) : Prop :=
  ∃ callees, (nodes.map NaNode.callees)[i]? = some callees ∧ j ∈ callees

/-- What passes over the table do: rows get disqualified, and only those that reach such a row. -/
structure Grows (a b : List NaNode) : Prop where
  fn : b.map NaNode.fn = a.map NaNode.fn
  callees : b.map NaNode.callees = a.map NaNode.callees
  disq : ∀ i, disqAt a i = true → disqAt b i = true
  sound : ∀ i, disqAt b i = true → Reaches (edge a) (fun i => disqAt a i = true) i

namespace Grows

variable {a b c : List NaNode}

theorem refl (a : List NaNode) : Grows a a := ⟨rfl, rfl, fun _ h => h, fun _ h => .here h⟩

theorem trans (hab : Grows a b) (hbc : Grows b c) : Grows a c where
  fn := hbc.fn.trans hab.fn
  callees := hbc.callees.trans hab.callees
  disq i h := hbc.disq i (hab.disq i h)
  sound i h := by
    have hreach := hbc.sound i h
    have hedge : edge b = edge a := by
      unfold edge
      rw [hab.callees]
    rw [hedge] at hreach
    exact hreach.absorb hab.sound

end Grows

section Fixpoint

variable {nodes : List NaNode} {node : NaNode} {k : ℕ}

theorem map_set_disq {β : Type} (g : NaNode → β) (hk : nodes[k]? = some node)
    (hg : g { node with disq := true } = g node) :
    (nodes.set k { node with disq := true }).map g = nodes.map g := by
  rw [List.map_set, hg]
  refine List.ext_getElem? fun i => ?_
  grind

theorem disqAt_set (hk : nodes[k]? = some node) (i : ℕ) :
    disqAt (nodes.set k { node with disq := true }) i = true ↔ i = k ∨ disqAt nodes i = true := by
  obtain ⟨hlt, -⟩ := List.getElem?_eq_some_iff.1 hk
  unfold disqAt
  grind

theorem naRemove_grows (st : List NaNode × Bool) (k : ℕ) : Grows st.1 (naRemove st k).1 := by
  rcases naRemove_cases st k with ⟨hsame, -⟩ | ⟨node, hk, -, ⟨e, he, hdisq⟩, heq⟩
  · rw [hsame]
    exact .refl st.1
  · rw [heq]
    refine ⟨map_set_disq _ hk rfl, map_set_disq _ hk rfl, ?_, ?_⟩
    · exact fun i h => (disqAt_set hk i).2 (.inr h)
    · intro i h
      rcases (disqAt_set hk i).1 h with rfl | h
      · refine .step (y := e) ⟨node.callees, ?_, he⟩ (.here hdisq)
        grind
      · exact .here h

theorem naPass_grows (nodes : List NaNode) : Grows nodes (naPass nodes).1 := by
  have hall : ∀ (ks : List ℕ) (st : List NaNode × Bool), Grows st.1 (ks.foldl naRemove st).1 := by
    intro ks
    induction ks with
    | nil => exact fun st => .refl st.1
    | cons k ks ih => exact fun st => (naRemove_grows st k).trans (ih _)
  exact hall _ (nodes, false)

def Closed (nodes : List NaNode) : Prop :=
  ∀ i j, edge nodes i j → disqAt nodes j = true → disqAt nodes i = true

theorem foldl_naRemove_quiet (ks : List ℕ) (h : (ks.foldl naRemove (nodes, false)).2 = false) :
    (ks.foldl naRemove (nodes, false)).1 = nodes ∧
      ∀ k ∈ ks, ∀ node, nodes[k]? = some node → node.disq = false →
        ∀ e ∈ node.callees, disqAt nodes e = false := by
  induction ks with
  | nil => grind
  | cons k ks ih =>
    rw [List.foldl_cons] at h ⊢
    rcases naRemove_cases (nodes, false) k with ⟨hsame, hnone⟩ | ⟨node, -, -, -, heq⟩
    · grind
    grind [foldl_naRemove_open]

theorem naPass_closed (h : ¬ (naPass nodes).2 = true) : (naPass nodes).1 = nodes ∧ Closed nodes := by
  obtain ⟨hsame, hall⟩ := foldl_naRemove_quiet (List.range nodes.length) (Bool.eq_false_iff.2 h)
  refine ⟨hsame, ?_⟩
  rintro i j ⟨callees, hi, hj⟩ hdisq
  rw [List.getElem?_map] at hi
  obtain ⟨node, hnode, rfl⟩ := Option.map_eq_some_iff.1 hi
  obtain ⟨hlt, -⟩ := List.getElem?_eq_some_iff.1 hnode
  by_contra hopen
  have hnot : node.disq = false := by
    unfold disqAt at hopen
    grind
  grind

theorem naPropagate_grows (nodes : List NaNode) :
    Grows nodes (naPropagate nodes) ∧ Closed (naPropagate nodes) := by
  induction nodes using naPropagate.induct with
  | case1 nodes h ih =>
    unfold naPropagate
    rw [dif_pos h]
    exact ⟨(naPass_grows nodes).trans ih.1, ih.2⟩
  | case2 nodes h =>
    unfold naPropagate
    rw [dif_neg h]
    obtain ⟨hsame, hclosed⟩ := naPass_closed h
    rw [hsame]
    exact ⟨.refl nodes, hclosed⟩

theorem naPropagate_iff (nodes : List NaNode) (i : ℕ) :
    disqAt (naPropagate nodes) i = true ↔ Reaches (edge nodes) (fun i => disqAt nodes i = true) i := by
  obtain ⟨hgrows, hclosed⟩ := naPropagate_grows nodes
  refine ⟨hgrows.sound i, fun h => h.closed (p := fun i => disqAt (naPropagate nodes) i = true) ?_ ?_⟩
  · exact hgrows.disq
  · intro x y hxy hy
    refine hclosed x y ?_ hy
    unfold edge at hxy ⊢
    rwa [hgrows.callees]

end Fixpoint

section Recover

variable {m : Module} {f : Func} {e : ℕ}

theorem disqAt_scan (he : m.defined[e]? = some f) : disqAt (naScan m) e = true ↔ Bad m f := by
  obtain ⟨node, hnode, hseeded⟩ := naScan_seeded m e f he
  unfold disqAt
  rw [hnode]
  exact hseeded.disq

theorem edge_scan (he : m.defined[e]? = some f) (hgood : ¬ Bad m f) (j : ℕ) :
    edge (naScan m) e j ↔ ∃ g, m.defined[j]? = some g ∧ Calls m f g := by
  obtain ⟨node, hnode, hseeded⟩ := naScan_seeded m e f he
  rw [← hseeded.callees hgood j]
  unfold edge
  grind

theorem disqAt_reaches (he : m.defined[e]? = some f) :
    disqAt (naPropagate (naScan m)) e = true ↔ Reaches (Calls m) (Bad m) f := by
  rw [naPropagate_iff]
  constructor
  · refine Reaches.rename (fun i g => m.defined[i]? = some g) ?_ ?_ he
    · exact fun i g hi hdisq => (disqAt_scan hi).1 hdisq
    grind [edge_scan]
  · refine Reaches.rename (fun g i => m.defined[i]? = some g) ?_ ?_ he
    · exact fun g i hi hbad => (disqAt_scan hi).2 hbad
    · intro g h i hi hopen hcall
      obtain ⟨j, hj⟩ := List.mem_iff_getElem?.1 hcall.1
      exact ⟨j, hj, (edge_scan hi (mt (disqAt_scan hi).2 hopen) j).2 ⟨h, hj, hcall⟩⟩

end Recover

/-! What the recovery does to a module: `noalias` exactly where nothing bad is reachable, no marker
left, the same for every order of the functions, and nothing more in a second run. -/

/-- Whether the candidates of a function get their `noalias`. -/
def stamped (nodes : Option (List NaNode)) (f : Func) : Bool :=
  !f.isDeclaration && nodes.any fun nodes => (naFind nodes f.fn).any fun idx => !disqAt nodes idx

def stampAttrs (stamp : Bool) (attrs : List Attr) : List Attr :=
  if stamp && isCandidate attrs then addNoalias (stripMarker attrs) else stripMarker attrs

section Attrs

variable {attrs : List Attr} {a : Attr} {stamp : Bool}

theorem mem_stripMarker : a ∈ stripMarker attrs ↔ a ∈ attrs ∧ a.isMarker = false := by
  unfold stripMarker
  grind

theorem mem_addNoalias : a ∈ addNoalias attrs ↔ a ∈ attrs ∨ a = .noalias := by
  unfold addNoalias
  grind

theorem mem_stampAttrs : a ∈ stampAttrs stamp attrs ↔
    a ∈ attrs ∧ a.isMarker = false ∨ a = .noalias ∧ stamp = true ∧ isCandidate attrs = true := by
  unfold stampAttrs
  by_cases h : (stamp && isCandidate attrs) = true
  · have hboth : stamp = true ∧ isCandidate attrs = true := Bool.and_eq_true_iff.1 h
    rw [if_pos h, mem_addNoalias, mem_stripMarker, and_iff_left hboth]
  · rw [if_neg h, mem_stripMarker]
    grind

theorem stampAttrs_clean : isCandidate (stampAttrs stamp attrs) = false := by
  unfold isCandidate
  rw [List.any_eq_false]
  intro a ha
  rw [Bool.not_eq_true]
  rcases mem_stampAttrs.1 ha with ⟨-, hmarker⟩ | ⟨rfl, -⟩
  · exact hmarker
  · rfl

theorem stampAttrs_of_clean (h : isCandidate attrs = false) : stampAttrs stamp attrs = attrs := by
  unfold stampAttrs
  rw [h, Bool.and_false, if_neg Bool.false_ne_true]
  unfold stripMarker
  rw [List.filter_eq_self]
  intro a ha
  unfold isCandidate at h
  grind

end Attrs

theorem naStamp_params (nodes : Option (List NaNode)) (f : Func) :
    (naStamp nodes f).params = f.params.map (stampAttrs (stamped nodes f)) := by
  unfold naStamp
  by_cases hnone : f.params.length = 0
  · grind
  · rw [if_neg hnone]
    dsimp only
    split
    · next h =>
      have hstamp : stamped nodes f = true := by
        unfold stamped
        grind
      dsimp only
      rw [hstamp, List.zipWith_map, List.zipWith_self]
      rfl
    · next h =>
      refine List.map_congr_left fun attrs hattrs => ?_
      unfold stampAttrs
      rw [if_neg]
      intro hboth
      obtain ⟨hstamp, hcand⟩ := Bool.and_eq_true_iff.1 hboth
      unfold stamped at hstamp
      obtain ⟨hdef, hsurvives⟩ := Bool.and_eq_true_iff.1 hstamp
      grind [List.count_pos_iff, List.mem_map]

theorem naStamp_eq (nodes : Option (List NaNode)) (f : Func) :
    naStamp nodes f = { f with params := f.params.map (stampAttrs (stamped nodes f)) } := by
  obtain ⟨hfn, hname, hblocks⟩ := naStamp_fields nodes f
  have hparams := naStamp_params nodes f
  cases hout : naStamp nodes f with
  | mk fn name params blocks =>
    grind

/-- `nodes` of a run. -/
def runNodes (disabled : Bool) (m : Module) : Option (List NaNode) :=
  if disabled then none else some (naPropagate (naScan m))

theorem recover_functions (disabled : Bool) (m : Module) :
    (lsNoaliasRecover disabled m).functions = m.functions.map (naStamp (runNodes disabled m)) := rfl

theorem stamped_iff {m : Module} {f : Func} (hf : f ∈ m.functions) (disabled : Bool) :
    stamped (runNodes disabled m) f = true ↔
      disabled = false ∧ f.isDeclaration = false ∧ ¬ Reaches (Calls m) (Bad m) f := by
  cases hdecl : f.isDeclaration with
  | true =>
    unfold stamped
    grind
  | false =>
    cases disabled with
    | true =>
      unfold stamped runNodes
      grind
    | false =>
      obtain ⟨e, he⟩ := List.mem_iff_getElem?.1 (Module.mem_defined.2 ⟨hf, hdecl⟩)
      have htable : Tables m (naPropagate (naScan m)) :=
        (naPropagate_grows (naScan m)).1.fn.trans (naScan_tables m)
      have hsurvives : stamped (runNodes false m) f = !disqAt (naPropagate (naScan m)) e := by
        unfold stamped runNodes
        rw [hdecl, if_neg Bool.false_ne_true, Option.any_some, htable.find he, Option.any_some]
        rfl
      rw [hsurvives, Bool.not_eq_true', ← disqAt_reaches he, Bool.not_eq_true]
      grind

/-- What the recovery does to one function of a module. -/
structure Recovered (m : Module) (disabled : Bool) (f f' : Func) : Prop where
  fn : f'.fn = f.fn
  name : f'.name = f.name
  blocks : f'.blocks = f.blocks
  arity : f'.params.length = f.params.length
  /-- The candidates of a defined function from which nothing bad is reachable. -/
  noalias : ∀ (p : ℕ) (attrs attrs' : List Attr), f.params[p]? = some attrs → f'.params[p]? = some attrs' →
    (Attr.noalias ∈ attrs' ↔ Attr.noalias ∈ attrs ∨
      isCandidate attrs = true ∧ disabled = false ∧ f.isDeclaration = false ∧
        ¬ Reaches (Calls m) (Bad m) f)
  stripped : ∀ attrs' ∈ f'.params, isCandidate attrs' = false
  others : ∀ (p : ℕ) (attrs attrs' : List Attr), f.params[p]? = some attrs → f'.params[p]? = some attrs' →
    ∀ a, a ≠ .noalias → a.isMarker = false → (a ∈ attrs' ↔ a ∈ attrs)

theorem recovered_naStamp {m : Module} {f : Func} (hf : f ∈ m.functions) (disabled : Bool) :
    Recovered m disabled f (naStamp (runNodes disabled m) f) := by
  have hattrs : ∀ (p : ℕ) (attrs attrs' : List Attr), f.params[p]? = some attrs →
      (naStamp (runNodes disabled m) f).params[p]? = some attrs' →
      attrs' = stampAttrs (stamped (runNodes disabled m) f) attrs := by
    intro p attrs attrs' hp hp'
    rw [naStamp_params, List.getElem?_map, hp] at hp'
    grind
  refine ⟨(naStamp_fields _ f).1, (naStamp_fields _ f).2.1, (naStamp_fields _ f).2.2, ?_, ?_, ?_, ?_⟩
  · rw [naStamp_params, List.length_map]
  · intro p attrs attrs' hp hp'
    rw [hattrs p attrs attrs' hp hp', mem_stampAttrs, stamped_iff hf disabled]
    refine or_congr (and_iff_left rfl) ?_
    grind
  · grind [stampAttrs_clean, List.mem_map, naStamp_params]
  · intro p attrs attrs' hp hp' a hne hmarker
    rw [hattrs p attrs attrs' hp hp', mem_stampAttrs, and_iff_left hmarker]
    grind

/-! ### The order of the functions -/

section Order

variable {m m' : Module} {f : Func}

theorem reaches_mono (h : ∀ f, f ∈ m.functions → f ∈ m'.functions) (hr : Reaches (Calls m) (Bad m) f) :
    Reaches (Calls m') (Bad m') f := by
  refine hr.rename (fun f g => f = g) ?_ ?_ rfl
  · rintro f _ rfl ⟨inst, hinst, hbad⟩
    refine ⟨inst, hinst, ?_⟩
    cases hbad with
    | atomicRMW => exact .atomicRMW
    | atomicCmpXchg => exact .atomicCmpXchg
    | fence => exact .fence
    | load ho => exact .load ho
    | store ho => exact .store ho
    | inlineAsm => exact .inlineAsm
    | indirect => exact .indirect
    | external hg hdecl hunsafe => exact .external (h _ hg) hdecl hunsafe
  · rintro f g _ rfl - ⟨hg, hcall⟩
    obtain ⟨hmem, hdef⟩ := Module.mem_defined.1 hg
    exact ⟨g, rfl, Module.mem_defined.2 ⟨h g hmem, hdef⟩, hcall⟩

theorem stamped_perm (h : m.functions.Perm m'.functions) (disabled : Bool) (hf : f ∈ m.functions) :
    stamped (runNodes disabled m) f = stamped (runNodes disabled m') f := by
  have hreach : Reaches (Calls m) (Bad m) f ↔ Reaches (Calls m') (Bad m') f :=
    ⟨reaches_mono fun _ => h.mem_iff.1, reaches_mono fun _ => h.mem_iff.2⟩
  rw [Bool.eq_iff_iff, stamped_iff hf, stamped_iff (h.mem_iff.1 hf), hreach]

theorem recover_perm (h : m.functions.Perm m'.functions) (disabled : Bool) :
    (lsNoaliasRecover disabled m).functions.Perm (lsNoaliasRecover disabled m').functions := by
  rw [recover_functions, recover_functions]
  have hsame : m.functions.map (naStamp (runNodes disabled m)) =
      m.functions.map (naStamp (runNodes disabled m')) := by
    grind [naStamp_eq, stamped_perm, List.map_congr_left]
  rw [hsame]
  exact h.map _

theorem Module.ext_functions (h : m.functions = m'.functions) : m = m' := by
  cases m
  cases m'
  subst h
  rfl

theorem recover_again (m : Module) (disabled again : Bool) :
    lsNoaliasRecover again (lsNoaliasRecover disabled m) = lsNoaliasRecover disabled m := by
  refine Module.ext_functions ?_
  rw [recover_functions]
  refine (List.map_congr_left fun f hf => ?_).trans (List.map_id _)
  rw [recover_functions] at hf
  obtain ⟨f₀, hf₀, rfl⟩ := List.mem_map.1 hf
  have hclean := (recovered_naStamp hf₀ disabled).stripped
  have hparams : (naStamp (runNodes disabled m) f₀).params.map
      (stampAttrs (stamped (runNodes again (lsNoaliasRecover disabled m)) (naStamp (runNodes disabled m) f₀))) =
      (naStamp (runNodes disabled m) f₀).params :=
    (List.map_congr_left fun attrs hattrs => stampAttrs_of_clean (hclean attrs hattrs)).trans (List.map_id _)
  rw [naStamp_eq, hparams]
  rfl

end Order

/-- The recovery computes reachability, for every module. -/
theorem noalias_recover_reachability (m : Module) (disabled : Bool) :
    List.Forall₂ (Recovered m disabled) m.functions (lsNoaliasRecover disabled m).functions ∧
    (∀ m' : Module, m'.functions.Perm m.functions →
      (lsNoaliasRecover disabled m').functions.Perm (lsNoaliasRecover disabled m).functions) ∧
    ∀ again : Bool, lsNoaliasRecover again (lsNoaliasRecover disabled m) = lsNoaliasRecover disabled m := by
  refine ⟨?_, fun m' h => recover_perm h disabled, recover_again m disabled⟩
  rw [recover_functions, List.forall₂_map_right_iff, List.forall₂_same]
  exact fun f hf => recovered_naStamp hf disabled

end LsLang.Opt
