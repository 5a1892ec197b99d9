import LsLang.Core.Str
import LsLang.Sim.CriticalPath

/-! From instructions to uops (`ports.lls`): what comes out is a body in order, with its carried edges inside. -/

namespace LsLang.Sim

open LsLang.Core

/-- The `kind` of an operand. -/
inductive OperandKind
  | reg
  | mem
  | imm
  deriving DecidableEq

structure Operand where
  kind : OperandKind
  text : Str
  isRead : Bool
  isWrite : Bool

structure Inst where
  mnemonic : Str
  ops : List Operand

structure UopSpec where
  masks : List (List ℕ)
  latency : Int
  isLoad : Bool
  isStore : Bool

def spec (ports : List ℕ) (lat : Int) (nuops : ℕ) (ld st : Bool) : UopSpec :=
  ⟨List.replicate nuops ports, lat, ld, st⟩

def specHet2 (a b : List ℕ) (lat : Int) (ld st : Bool) : UopSpec := ⟨[a, b], lat, ld, st⟩

def ps0 : List ℕ := [0]
def ps01235 : List ℕ := [0, 1, 2, 3, 5]
def ps015 : List ℕ := [0, 1, 5]
def ps0156 : List ℕ := [0, 1, 5, 6]
def ps05 : List ℕ := [0, 5]
def ps06 : List ℕ := [0, 6]
def ps1 : List ℕ := [1]
def ps15 : List ℕ := [1, 5]
def ps47 : List ℕ := [4, 7]
def ps5 : List ℕ := [5]
def ps6 : List ℕ := [6]
def ps23 : List ℕ := [2, 3]

def mnemonics : List (Str × UopSpec) :=
  [(lit "vpermw".toList, spec ps5 6 2 false false),
   (lit "vpermb".toList, spec ps5 3 1 false false),
   (lit "vpermd".toList, spec ps5 3 1 false false),
   (lit "vpermq".toList, spec ps5 3 1 false false),
   (lit "vpermi2d".toList, spec ps5 3 1 false false),
   (lit "vpermi2w".toList, spec ps015 7 3 false false),
   (lit "vpshufb".toList, spec ps5 1 1 false false),
   (lit "vpshufd".toList, spec ps5 1 1 false false),
   (lit "vshufi64x2".toList, spec ps5 3 1 false false),
   (lit "vinserti32x4".toList, spec ps5 3 1 false false),
   (lit "vpmovdb".toList, spec ps5 4 2 false false),
   (lit "vpmovwb".toList, spec ps5 4 2 false false),
   (lit "vpunpcklqdq".toList, spec ps5 1 1 false false),
   (lit "vpshldvq".toList, spec ps05 5 1 false false),
   (lit "vpsllvw".toList, spec ps0 1 1 false false),
   (lit "vpsrlvw".toList, spec ps0 1 1 false false),
   (lit "vpsravw".toList, spec ps0 1 1 false false),
   (lit "vpsllvq".toList, spec ps0 1 1 false false),
   (lit "vpsllvd".toList, spec ps0 1 1 false false),
   (lit "vpsrlq".toList, spec ps0 1 1 false false),
   (lit "vpsllq".toList, spec ps0 1 1 false false),
   (lit "vpsraw".toList, specHet2 ps0 ps5 4 false false),
   (lit "vpsllw".toList, spec ps0 1 1 false false),
   (lit "vpsrlw".toList, spec ps0 1 1 false false),
   (lit "vprold".toList, spec ps0 1 1 false false),
   (lit "vprolq".toList, spec ps0 1 1 false false),
   (lit "vfmadd231ps".toList, spec ps0 4 1 false false),
   (lit "vfmadd213ps".toList, spec ps0 4 1 false false),
   (lit "vfmadd132ps".toList, spec ps0 4 1 false false),
   (lit "vfmadd231pd".toList, spec ps0 4 1 false false),
   (lit "vfmadd213pd".toList, spec ps0 4 1 false false),
   (lit "vfmadd132pd".toList, spec ps0 4 1 false false),
   (lit "vaddps".toList, spec ps05 4 1 false false),
   (lit "vsubps".toList, spec ps05 4 1 false false),
   (lit "vmulps".toList, spec ps05 4 1 false false),
   (lit "vmaxps".toList, spec ps05 4 1 false false),
   (lit "vminps".toList, spec ps05 4 1 false false),
   (lit "vaddpd".toList, spec ps05 4 1 false false),
   (lit "vmulpd".toList, spec ps05 4 1 false false),
   (lit "vmaxpd".toList, spec ps05 4 1 false false),
   (lit "vxorps".toList, spec ps05 1 1 false false),
   (lit "vandps".toList, spec ps05 1 1 false false),
   (lit "vorps".toList, spec ps05 1 1 false false),
   (lit "vmovups".toList, spec ps05 1 1 false false),
   (lit "vmovaps".toList, spec ps05 1 1 false false),
   (lit "vmovupd".toList, spec ps05 1 1 false false),
   (lit "vpmaddwd".toList, spec ps05 5 1 false false),
   (lit "vpand".toList, spec ps015 1 1 false false),
   (lit "vpandd".toList, spec ps05 1 1 false false),
   (lit "vpor".toList, spec ps015 1 1 false false),
   (lit "vpord".toList, spec ps05 1 1 false false),
   (lit "vpxor".toList, spec ps015 1 1 false false),
   (lit "vpxord".toList, spec ps05 1 1 false false),
   (lit "vpaddd".toList, spec ps015 1 1 false false),
   (lit "vpsubd".toList, spec ps015 1 1 false false),
   (lit "vpabsw".toList, spec ps0 1 1 false false),
   (lit "vpmaxuw".toList, spec ps0 1 1 false false),
   (lit "vpmaxsw".toList, spec ps0 1 1 false false),
   (lit "vplzcntd".toList, spec ps05 5 1 false false),
   (lit "vpsubusw".toList, spec ps0 1 1 false false),
   (lit "vptestmw".toList, spec ps5 4 1 false false),
   (lit "vpcmpeqw".toList, spec ps5 4 1 false false),
   (lit "vpcmpgtw".toList, spec ps5 4 1 false false),
   (lit "ktestw".toList, spec ps0 3 1 false false),
   (lit "kortestw".toList, spec ps0 3 1 false false),
   (lit "kmovd".toList, spec ps5 1 1 false false),
   (lit "vmovd".toList, spec ps5 1 1 false false),
   (lit "vpbroadcastw".toList, spec ps5 3 1 false false),
   (lit "vpbroadcastd".toList, spec ps5 3 1 false false),
   (lit "vmovdqu64".toList, spec ps01235 8 2 true false),
   (lit "vmovdqu8".toList, spec ps47 1 2 false true),
   (lit "vmovdqu16".toList, spec ps01235 8 2 true false),
   (lit "mov".toList, spec ps0156 1 1 false false),
   (lit "add".toList, spec ps0156 1 1 false false),
   (lit "sub".toList, spec ps0156 1 1 false false),
   (lit "and".toList, spec ps0156 1 1 false false),
   (lit "or".toList, spec ps0156 1 1 false false),
   (lit "xor".toList, spec ps0156 1 1 false false),
   (lit "inc".toList, spec ps0156 1 1 false false),
   (lit "cmp".toList, spec ps0156 1 1 false false),
   (lit "shl".toList, spec ps06 1 1 false false),
   (lit "shr".toList, spec ps06 1 1 false false),
   (lit "pext".toList, spec ps1 3 1 false false),
   (lit "bswap".toList, spec ps0156 2 2 false false),
   (lit "lea".toList, spec ps15 1 1 false false),
   (lit "jnz".toList, spec ps6 1 1 false false),
   (lit "jz".toList, spec ps6 1 1 false false),
   (lit "jl".toList, spec ps6 1 1 false false),
   (lit "jge".toList, spec ps6 1 1 false false),
   (lit "jmp".toList, spec ps6 1 1 false false),
   (lit "jcc".toList, spec ps6 1 1 false false),
   (lit "call".toList, spec ps6 1 1 false false),
   (lit "ret".toList, spec ps6 1 1 false false)]

def lookup (mn : Str) : UopSpec :=
  match mnemonics.lookup mn with
  | some sp => sp
  -- any other jump
  | none => if mn.head? = some (ch 'j') then spec ps6 1 1 false false else spec [0, 1] 1 1 false false

/-- `_is_pure_move` -/
def isPureMove (mn : Str) : Bool :=
  [lit "vmovups".toList, lit "vmovaps".toList, lit "vmovupd".toList, lit "vmovdqu32".toList,
    lit "vmovdqa64".toList].contains mn

def loadLat : Int := 7

def storeLat : Int := 1

/-- `_has_mem` -/
def hasMem (ops : List Operand) (wantRead : Bool) : Bool :=
  ops.any fun op => decide (op.kind = .mem) && if wantRead then op.isRead else op.isWrite

def Operand.readsReg (op : Operand) : Bool := decide (op.kind = .reg) && op.isRead

def Operand.writesReg (op : Operand) : Bool := decide (op.kind = .reg) && op.isWrite

namespace Inst

def emitLoad (ins : Inst) : Bool := hasMem ins.ops true && !(lookup ins.mnemonic).isLoad

def emitStore (ins : Inst) : Bool := hasMem ins.ops false && !(lookup ins.mnemonic).isStore

def emitCompute (ins : Inst) : Bool := !(isPureMove ins.mnemonic && hasMem ins.ops false)

def readRegs (ins : Inst) : List Str := (ins.ops.filter Operand.readsReg).map Operand.text

def writtenRegs (ins : Inst) : List Str := (ins.ops.filter Operand.writesReg).map Operand.text

end Inst

/-- The variables of `build_uops_full`. -/
structure Builder where
  uops : List Uop
  nextId : ℕ
  lastWriter : List (Str × ℕ)
  everWritten : List Str
  cands : List (ℕ × Str)

/-- The loop over the masks of a mnemonic. The first uop gets the sources, any other the one before
it, and the last the latency. -/
def computeLoop (i : ℕ) (lat : Int) : List ℕ → ℕ → List (List ℕ) → List Uop
  | _, _, [] => []
  | srcs, nextId, pm :: pms =>
    ⟨i, pm, if pms.isEmpty then lat else 0, srcs, false, false⟩ ::
      computeLoop i lat [nextId] (nextId + 1) pms

namespace Builder

variable (st : Builder) (i : ℕ) (ins : Inst)

def firstComputeId : ℕ := if ins.emitLoad then st.nextId + 1 else st.nextId

def loadId : Option ℕ := if ins.emitLoad then some st.nextId else none

/-- `srcs` -/
def regSrcs : List ℕ := ins.readRegs.filterMap fun r => st.lastWriter.lookup r

def carriedReads : List (ℕ × Str) :=
  (ins.readRegs.filter fun r => (st.lastWriter.lookup r).isNone).map fun r =>
    (st.firstComputeId ins, r)

def loadUops : List Uop := if ins.emitLoad then [⟨i, ps23, loadLat, [], true, false⟩] else []

def computeUops : List Uop :=
  if ins.emitCompute then
    computeLoop i (lookup ins.mnemonic).latency (st.regSrcs ins ++ (st.loadId ins).toList)
      (st.firstComputeId ins) (lookup ins.mnemonic).masks
  else []

/-- `writer` -/
def writer : Option ℕ :=
  if st.computeUops i ins = [] then st.loadId ins
  else some (st.firstComputeId ins + (st.computeUops i ins).length - 1)

def storeUops : List Uop :=
  if ins.emitStore then [⟨i, ps47, storeLat, (st.writer i ins).toList, false, true⟩] else []

def block : List Uop := loadUops i ins ++ st.computeUops i ins ++ st.storeUops i ins

def step : Builder where
  uops := st.uops ++ st.block i ins
  nextId := st.nextId + (st.block i ins).length
  lastWriter :=
    match st.writer i ins with
    | some w => ins.writtenRegs.map (fun r => (r, w)) ++ st.lastWriter
    | none => st.lastWriter
  everWritten := ins.writtenRegs ++ st.everWritten
  cands := st.cands ++ st.carriedReads ins

end Builder

def walk (prog : List Inst) : Builder :=
  prog.zipIdx.foldl (fun st x => st.step x.2 x.1) ⟨[], 0, [], [], []⟩

def resolve (st : Builder) : List Carried :=
  st.cands.filterMap fun c =>
    if st.everWritten.contains c.2 then (st.lastWriter.lookup c.2).map fun w => ⟨c.1, w⟩ else none

structure UopProgram where
  uops : List Uop
  carried : List Carried

def buildUopsFull (prog : List Inst) : UopProgram := ⟨(walk prog).uops, resolve (walk prog)⟩

/-! A uop is made behind its sources. -/

/-- The sources of the uops of a list that stands from `n` on come before them. -/
def InOrderFrom (n : ℕ) (us : List Uop) : Prop :=
  ∀ (i : ℕ) (u : Uop), us[i]? = some u → ∀ s ∈ u.srcUops, s < n + i

theorem inOrder_iff_from {us : List Uop} : InOrder us ↔ InOrderFrom 0 us := by
  unfold InOrder InOrderFrom
  simp only [Nat.zero_add]

theorem inOrderFrom_nil (n : ℕ) : InOrderFrom n [] := by
  intro i u hu
  rw [List.getElem?_nil] at hu
  cases hu

theorem inOrderFrom_cons {n : ℕ} {u : Uop} {us : List Uop} :
    InOrderFrom n (u :: us) ↔ (∀ s ∈ u.srcUops, s < n) ∧ InOrderFrom (n + 1) us := by
  constructor
  · refine fun h => ⟨h 0 u rfl, fun i v hv s hs => ?_⟩
    have := h (i + 1) v hv s hs
    omega
  · rintro ⟨hu, hus⟩ i v hv s hs
    cases i with
    | zero =>
      obtain rfl : u = v := Option.some.inj hv
      exact hu s hs
    | succ i =>
      have := hus i v hv s hs
      omega

theorem inOrderFrom_append {n : ℕ} {us vs : List Uop} :
    InOrderFrom n (us ++ vs) ↔ InOrderFrom n us ∧ InOrderFrom (n + us.length) vs := by
  induction us generalizing n with
  | nil =>
    rw [List.nil_append, List.length_nil, Nat.add_zero]
    exact ⟨fun h => ⟨inOrderFrom_nil n, h⟩, And.right⟩
  | cons u us ih =>
    rw [List.cons_append, inOrderFrom_cons, inOrderFrom_cons, ih, List.length_cons, and_assoc, Nat.add_assoc,
      Nat.add_comm 1]

structure UopSpec.Proper (sp : UopSpec) : Prop where
  masks : sp.masks ≠ []
  ports : ∀ pm ∈ sp.masks, pm ≠ [] ∧ ∀ p ∈ pm, p < 8
  latency : 0 ≤ sp.latency

theorem lookup_proper (mn : Str) : (lookup mn).Proper := by
  have hall : ∀ e ∈ mnemonics, e.2.masks ≠ [] ∧ (∀ pm ∈ e.2.masks, pm ≠ [] ∧ ∀ p ∈ pm, p < 8) ∧ 0 ≤ e.2.latency := by
    decide
  unfold lookup
  split
  · next sp hsp =>
    obtain ⟨_, _, heq, -⟩ := List.lookup_eq_some_iff.1 hsp
    obtain ⟨hmasks, hports, hlat⟩ := hall (mn, sp) (by rw [heq]; simp)
    exact ⟨hmasks, hports, hlat⟩
  · split
    · exact ⟨by decide, by decide, by decide⟩
    · exact ⟨by decide, by decide, by decide⟩

/-- A move to memory that is no compute uop has a store uop. -/
theorem isStore_pureMove {mn : Str} (h : isPureMove mn = true) : (lookup mn).isStore = false := by
  have hall : ∀ mn ∈ [lit "vmovups".toList, lit "vmovaps".toList, lit "vmovupd".toList, lit "vmovdqu32".toList,
      lit "vmovdqa64".toList], (lookup mn).isStore = false := by decide
  exact hall mn (List.contains_iff_mem.1 h)

theorem length_computeLoop (i : ℕ) (lat : Int) (srcs : List ℕ) (n : ℕ) (pms : List (List ℕ)) :
    (computeLoop i lat srcs n pms).length = pms.length := by
  induction pms generalizing srcs n with
  | nil => rfl
  | cons pm pms ih => rw [computeLoop, List.length_cons, List.length_cons, ih]

theorem inOrder_computeLoop (i : ℕ) (lat : Int) {srcs : List ℕ} {n : ℕ} (pms : List (List ℕ))
    (h : ∀ s ∈ srcs, s < n) : InOrderFrom n (computeLoop i lat srcs n pms) := by
  induction pms generalizing srcs n with
  | nil => exact inOrderFrom_nil n
  | cons pm pms ih =>
    rw [computeLoop, inOrderFrom_cons]
    refine ⟨h, ih fun s hs => ?_⟩
    rw [List.mem_singleton] at hs
    omega

theorem mem_computeLoop {i : ℕ} {lat : Int} {srcs : List ℕ} {n : ℕ} {pms : List (List ℕ)} {u : Uop}
    (h : u ∈ computeLoop i lat srcs n pms) : u.portMask ∈ pms ∧ (u.latency = lat ∨ u.latency = 0) := by
  induction pms generalizing srcs n with
  | nil => cases h
  | cons pm pms ih =>
    rw [computeLoop, List.mem_cons] at h
    rcases h with rfl | h
    · refine ⟨List.mem_cons_self, ?_⟩
      dsimp only
      split
      · exact .inl rfl
      · exact .inr rfl
    · exact ⟨List.mem_cons_of_mem _ (ih h).1, (ih h).2⟩

def Uop.Placeable (u : Uop) : Prop := u.portMask ≠ [] ∧ (∀ p ∈ u.portMask, p < 8) ∧ 0 ≤ u.latency

namespace Builder

variable {st : Builder} {i : ℕ} {ins : Inst}

structure Ok (st : Builder) : Prop where
  nextId : st.nextId = st.uops.length
  inOrder : InOrderFrom 0 st.uops
  placeable : ∀ u ∈ st.uops, u.Placeable
  writers : ∀ p ∈ st.lastWriter, p.2 < st.nextId
  cands : ∀ c ∈ st.cands, c.1 < st.nextId

theorem length_loadUops : (loadUops i ins).length + st.nextId = st.firstComputeId ins := by
  unfold loadUops firstComputeId
  split
  · exact Nat.add_comm 1 _
  · exact Nat.zero_add _

theorem computeUops_pos (h : ins.emitCompute = true) : 0 < (st.computeUops i ins).length := by
  unfold computeUops
  rw [if_pos h, length_computeLoop]
  exact List.length_pos_iff.2 (lookup_proper _).masks

theorem loadId_lt {w : ℕ} (h : w ∈ st.loadId ins) : w < st.firstComputeId ins := by
  unfold loadId at h
  unfold firstComputeId
  split at h
  · next hload =>
    obtain rfl : st.nextId = w := Option.some.inj h
    rw [if_pos hload]
    exact Nat.lt_succ_self _
  · cases h

theorem writer_lt {w : ℕ} (h : w ∈ st.writer i ins) : w < st.firstComputeId ins + (st.computeUops i ins).length := by
  unfold writer at h
  split at h
  · exact (loadId_lt h).trans_le (Nat.le_add_right _ _)
  · next hne =>
    have hpos := List.length_pos_iff.2 hne
    obtain rfl := Option.some.inj h
    omega

theorem length_block : st.nextId + (st.block i ins).length =
    st.firstComputeId ins + (st.computeUops i ins).length + (st.storeUops i ins).length := by
  have hload := @length_loadUops st i ins
  unfold block
  rw [List.length_append, List.length_append]
  omega

/-- The address of the first compute uop is an address of the block. -/
theorem firstComputeId_lt : st.firstComputeId ins < st.nextId + (st.block i ins).length := by
  rw [length_block]
  by_cases hc : ins.emitCompute = true
  · have := @computeUops_pos st i ins hc
    omega
  · have hmove : isPureMove ins.mnemonic = true ∧ hasMem ins.ops false = true := by
      unfold Inst.emitCompute at hc
      grind
    have hstore : ins.emitStore = true := by
      unfold Inst.emitStore
      rw [hmove.2, isStore_pureMove hmove.1]
      rfl
    have hlen : (st.storeUops i ins).length = 1 := by
      unfold storeUops
      rw [if_pos hstore]
      rfl
    omega

theorem Ok.sources (h : st.Ok) : ∀ s ∈ st.regSrcs ins ++ (st.loadId ins).toList, s < st.firstComputeId ins := by
  have hfirst : st.nextId ≤ st.firstComputeId ins := by
    unfold firstComputeId
    split
    · exact Nat.le_succ _
    · exact Nat.le_refl _
  intro s hs
  rcases List.mem_append.1 hs with hs | hs
  · obtain ⟨r, -, hr⟩ := List.mem_filterMap.1 hs
    obtain ⟨l₁, l₂, heq, -⟩ := List.lookup_eq_some_iff.1 hr
    exact (h.writers (r, s) (by rw [heq]; simp)).trans_le hfirst
  · exact loadId_lt (Option.mem_toList.1 hs)

theorem Ok.block_inOrder (h : st.Ok) : InOrderFrom st.nextId (st.block i ins) := by
  have hload : InOrderFrom st.nextId (loadUops i ins) := by
    unfold loadUops
    split
    · exact inOrderFrom_cons.2 ⟨fun s hs => absurd hs List.not_mem_nil, inOrderFrom_nil _⟩
    · exact inOrderFrom_nil _
  have hcompute : InOrderFrom (st.firstComputeId ins) (st.computeUops i ins) := by
    unfold computeUops
    split
    · exact inOrder_computeLoop _ _ _ h.sources
    · exact inOrderFrom_nil _
  have hstore : InOrderFrom (st.firstComputeId ins + (st.computeUops i ins).length) (st.storeUops i ins) := by
    unfold storeUops
    split
    · exact inOrderFrom_cons.2 ⟨fun s hs => writer_lt (Option.mem_toList.1 hs), inOrderFrom_nil _⟩
    · exact inOrderFrom_nil _
  have hlen := @length_loadUops st i ins
  unfold block
  rw [inOrderFrom_append, inOrderFrom_append, List.length_append, ← Nat.add_assoc, Nat.add_comm st.nextId, hlen]
  exact ⟨⟨hload, hcompute⟩, hstore⟩

theorem block_placeable {u : Uop} (h : u ∈ st.block i ins) : u.Placeable := by
  unfold block at h
  rcases List.mem_append.1 h with h | h
  · rcases List.mem_append.1 h with h | h
    · unfold loadUops at h
      split at h
      · rw [List.mem_singleton] at h
        subst h
        exact (by decide : ps23 ≠ [] ∧ (∀ p ∈ ps23, p < 8) ∧ 0 ≤ loadLat)
      · cases h
    · unfold computeUops at h
      split at h
      · obtain ⟨hmask, hlat⟩ := mem_computeLoop h
        obtain ⟨hne, hports⟩ := (lookup_proper ins.mnemonic).ports _ hmask
        have := (lookup_proper ins.mnemonic).latency
        exact ⟨hne, hports, by omega⟩
      · cases h
  · unfold storeUops at h
    split at h
    · rw [List.mem_singleton] at h
      subst h
      exact (by decide : ps47 ≠ [] ∧ (∀ p ∈ ps47, p < 8) ∧ 0 ≤ storeLat)
    · cases h

theorem Ok.step (h : st.Ok) : (st.step i ins).Ok := by
  have hlt := @firstComputeId_lt st i ins
  refine ⟨?_, ?_, ?_, ?_, ?_⟩
  · show st.nextId + (st.block i ins).length = (st.uops ++ st.block i ins).length
    rw [List.length_append, h.nextId]
  · have hblock := @Ok.block_inOrder st i ins h
    rw [h.nextId] at hblock
    exact inOrderFrom_append.2 ⟨h.inOrder, by rwa [Nat.zero_add]⟩
  · intro u hu
    exact (List.mem_append.1 hu).elim (h.placeable u) block_placeable
  · intro p hp
    show p.2 < st.nextId + (st.block i ins).length
    have hold : p ∈ st.lastWriter → p.2 < st.nextId + (st.block i ins).length :=
      fun hp => (h.writers p hp).trans_le (Nat.le_add_right _ _)
    cases hw : st.writer i ins with
    | none =>
      unfold Builder.step at hp
      rw [hw] at hp
      exact hold hp
    | some w =>
      unfold Builder.step at hp
      rw [hw] at hp
      rcases List.mem_append.1 hp with hp | hp
      · obtain ⟨r, -, rfl⟩ := List.mem_map.1 hp
        have hwriter := writer_lt (Option.mem_def.2 hw)
        rw [length_block]
        exact hwriter.trans_le (Nat.le_add_right _ _)
      · exact hold hp
  · intro c hc
    show c.1 < st.nextId + (st.block i ins).length
    rcases List.mem_append.1 hc with hc | hc
    · exact (h.cands c hc).trans_le (Nat.le_add_right _ _)
    · obtain ⟨r, -, rfl⟩ := List.mem_map.1 hc
      exact hlt

end Builder

theorem walk_ok (prog : List Inst) : (walk prog).Ok := by
  have hstart : Builder.Ok ⟨[], 0, [], [], []⟩ :=
    ⟨rfl, inOrderFrom_nil 0, fun u hu => absurd hu List.not_mem_nil, fun p hp => absurd hp List.not_mem_nil,
      fun c hc => absurd hc List.not_mem_nil⟩
  unfold walk
  generalize prog.zipIdx = l
  generalize (⟨[], 0, [], [], []⟩ : Builder) = st at hstart ⊢
  induction l generalizing st with
  | nil => exact hstart
  | cons x l ih => exact ih _ hstart.step

/-- Whatever the program, its uops and edges are a body that the bounds and the scheduler take, on eight ports. -/
theorem buildUopsFull_body (prog : List Inst) : Body (buildUopsFull prog).uops (buildUopsFull prog).carried ∧
    MasksWithin (buildUopsFull prog).uops 8 ∧ ∀ u ∈ (buildUopsFull prog).uops, u.portMask ≠ [] := by
  have hok := walk_ok prog
  refine ⟨⟨inOrder_iff_from.2 hok.inOrder, fun u hu => (hok.placeable u hu).2.2, fun c hc => ?_⟩,
    fun u hu => (hok.placeable u hu).2.1, fun u hu => (hok.placeable u hu).1⟩
  obtain ⟨cand, hcand, hedge⟩ := List.mem_filterMap.1 hc
  have hreader := hok.cands cand hcand
  split at hedge
  · obtain ⟨w, hw, rfl⟩ := Option.map_eq_some_iff.1 hedge
    obtain ⟨l₁, l₂, heq, -⟩ := List.lookup_eq_some_iff.1 hw
    have hwriter := hok.writers (cand.2, w) (by rw [heq]; simp)
    rw [hok.nextId] at hreader hwriter
    exact ⟨hreader, hwriter⟩
  · cases hedge

end LsLang.Sim
