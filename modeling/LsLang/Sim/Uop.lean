import LsLang.Word
import Mathlib.Algebra.BigOperators.Intervals
import Mathlib.Data.Finset.Card
import Mathlib.Tactic.Ring

/-! The micro-operations of the simulator (`ir.lls`) and the bounds of its first engine
(`engine.lls`). A list is read with `get!`, which aborts behind the end; the reads here give a
default there. -/

namespace LsLang.Sim

structure Uop where
  instId : Int
  portMask : List ℕ
  latency : Int
  srcUops : List ℕ
  isLoad : Bool
  isStore : Bool
  deriving DecidableEq

/-- A register that is read in one iteration and written in the one before. -/
structure Carried where
  reader : ℕ
  writer : ℕ
  deriving DecidableEq

def InOrder (uops : List Uop) : Prop :=
  ∀ (i : ℕ) (u : Uop), uops[i]? = some u → ∀ s ∈ u.srcUops, s < i

theorem inOrder_iff {uops : List Uop} :
    InOrder uops ↔ ∀ ui ∈ uops.zipIdx, ∀ s ∈ ui.1.srcUops, s < ui.2 := by
  constructor
  · exact fun h ui hm => h ui.2 ui.1 (List.mem_zipIdx_iff_getElem?.mp hm)
  · exact fun h i u hu => h (u, i) (List.mem_zipIdx_iff_getElem?.mpr hu)

instance (uops : List Uop) : Decidable (InOrder uops) := decidable_of_iff _ inOrder_iff.symm

/-- The ports of the masks are among the first `nports`. -/
def MasksWithin (uops : List Uop) (nports : ℕ) : Prop := ∀ u ∈ uops, ∀ p ∈ u.portMask, p < nports

instance (uops : List Uop) (nports : ℕ) : Decidable (MasksWithin uops nports) :=
  inferInstanceAs (Decidable (∀ u ∈ uops, ∀ p ∈ u.portMask, p < nports))

def scale : Int := 12

/-- `_popcount` -/
def popcount (mask nports : ℕ) : ℕ := (List.range nports).countP fun p => mask.testBit p

def Uop.conf (mask : ℕ) (u : Uop) : Bool :=
  !u.portMask.isEmpty && u.portMask.all fun pid => mask.testBit pid

/-- `best_cnt` and `best_ss`. -/
structure Density where
  cnt : ℕ
  ss : ℕ
  deriving DecidableEq

def density (uops : List Uop) (nports mask : ℕ) : Density :=
  ⟨uops.countP (Uop.conf mask), popcount mask nports⟩

def Density.better (best d : Density) : Density :=
  if i32 (d.cnt * best.ss) > i32 (best.cnt * d.ss) then d else best

/-- The densest set of ports. -/
def bestDensity (uops : List Uop) (nports : ℕ) : Density :=
  (List.range' 1 (2 ^ nports - 1)).foldl (fun best mask => best.better (density uops nports mask))
    ⟨0, 1⟩

def flowPortBound (uops : List Uop) (nports : ℕ) : Int :=
  (i32 ((bestDensity uops nports).cnt * scale)).tdiv (bestDensity uops nports).ss

/-- `cp` of the sources of a uop, the largest. -/
def criticalBase (cp : List Int) (srcUops : List ℕ) : Int :=
  srcUops.foldl (fun base s => if cp.getD s 0 > base then cp.getD s 0 else base) 0

def criticalStep (cp : List Int) (u : Uop) : List Int :=
  cp ++ [i32 (criticalBase cp u.srcUops + u.latency)]

def criticalPathVec (uops : List Uop) : List Int := uops.foldl criticalStep []

def criticalPath (uops : List Uop) : Int :=
  (criticalPathVec uops).foldl (fun best v => if v > best then v else best) 0

/-! The list scheduler of the second engine (`engine2.lls`), cycle by cycle. -/

/-- The stamps of one uop. -/
structure UopTrace where
  uopId : Int
  cycleReady : Int
  cycleIssued : Int
  cycleDone : Int
  portUsed : Int
  deriving DecidableEq, Inhabited

/-- The variables of `simulate_fe`; those of one cycle are `busy` and `feLeft`. The order of issue
is not in the source. -/
structure State where
  done : List Int
  issued : List Bool
  tr : List UopTrace
  remaining : Int
  cyc : Int
  busy : List Bool
  feLeft : Int
  log : List ℕ
  deriving DecidableEq

namespace State

def doneAt (st : State) (i : ℕ) : Int := st.done.getD i (-1)

def isIssued (st : State) (i : ℕ) : Bool := st.issued.getD i false

def trace (st : State) (i : ℕ) : UopTrace := st.tr.getD i default

def isBusy (st : State) (p : ℕ) : Bool := st.busy.getD p true

/-- `ready`: all sources are done. -/
def ready (st : State) (u : Uop) : Bool :=
  u.srcUops.all fun s => decide (0 ≤ st.doneAt s) && decide (st.doneAt s ≤ st.cyc)

/-- `rdyc`: the last cycle of a source. -/
def readyCycle (st : State) (u : Uop) : Int :=
  u.srcUops.foldl (fun r s => if st.doneAt s > r then st.doneAt s else r) 0

/-- `chosen`: the first port of the mask that is free. -/
def chosen (st : State) (u : Uop) : Option ℕ := u.portMask.find? fun p => !st.isBusy p

def issue (st : State) (u : Uop) (i p : ℕ) : State :=
  let fin := i32 (st.cyc + u.latency)
  { st with
    busy := st.busy.set p true
    issued := st.issued.set i true
    done := st.done.set i fin
    remaining := st.remaining - 1
    feLeft := st.feLeft - 1
    tr := st.tr.set i ⟨u.instId, st.readyCycle u, st.cyc, fin, p⟩
    log := st.log ++ [i] }

def port (st : State) (u : Uop) (i : ℕ) : Option ℕ :=
  if st.feLeft > 0 ∧ st.isIssued i = false ∧ st.ready u = true then st.chosen u else none

def tryIssue (st : State) (ui : Uop × ℕ) : State :=
  (st.port ui.1 ui.2).elim st fun p => st.issue ui.1 ui.2 p

def openCycle (st : State) (nports : ℕ) (fePerCycle : Int) : State :=
  { st with busy := List.replicate nports false, feLeft := fePerCycle }

def tryAll (uops : List Uop) (st : State) : State := uops.zipIdx.foldl tryIssue st

def cycle (uops : List Uop) (nports : ℕ) (fePerCycle : Int) (st : State) : State :=
  let st := tryAll uops (st.openCycle nports fePerCycle)
  { st with cyc := st.cyc + 1 }

/-- The loop, which `guard` ends. -/
def loop (uops : List Uop) (nports : ℕ) (fePerCycle : Int) : ℕ → State → State
  | 0, st => st
  | left + 1, st =>
    if st.remaining > 0 then loop uops nports fePerCycle left (cycle uops nports fePerCycle st)
    else st

end State

def initState (uops : List Uop) : State where
  done := uops.map fun _ => -1
  issued := uops.map fun _ => false
  tr := uops.map fun u => ⟨u.instId, 0, 0, 0, -1⟩
  remaining := uops.length
  cyc := 0
  busy := []
  feLeft := 0
  log := []

/-- The state at the end: the loop is left when `guard` passes 200000. -/
def finalState (uops : List Uop) (nports : ℕ) (fePerCycle : Int) : State :=
  (initState uops).loop uops nports fePerCycle 200001

def simulateFe (uops : List Uop) (nports : ℕ) (fePerCycle : Int) : List UopTrace :=
  (finalState uops nports fePerCycle).tr

def simulate (uops : List Uop) (nports : ℕ) : List UopTrace := simulateFe uops nports nports

def totalCycles (tr : List UopTrace) : Int :=
  tr.foldl (fun mx t => if t.cycleDone > mx then t.cycleDone else mx) 0

end LsLang.Sim
