import LsLang.Regex.Program
import LsLang.Text.StrFind

/-! The Pike VM of `ls_regex.c`: `add_thread` and `vm_exec_range`. Every list of threads is
kept in ascending priority, as the source keeps its arrays. -/

namespace LsLang.Regex

structure ReThread where
  pc : Nat
  saved : Nat → Int

/-- `Visited`: an address counts as visited when its generation is the current one. -/
structure Visited where
  gen : Nat → Nat
  current : Nat

namespace Visited

def init : Visited := ⟨fun _ => 0, 0⟩

/-- `visited_clear`; the counter is 32 bits wide, and generation 0 is skipped when it wraps. -/
def clear (v : Visited) (progLen : Nat) : Visited :=
  if (v.current + 1) % 2 ^ 32 = 0 then
    ⟨fun pc => if pc < progLen then 0 else v.gen pc, 1⟩
  else { v with current := (v.current + 1) % 2 ^ 32 }

def test (v : Visited) (pc : Nat) : Bool := v.gen pc == v.current

def set (v : Visited) (pc : Nat) : Visited := { v with gen := Function.update v.gen pc v.current }

end Visited

section Reverse

variable {α : Type}

def swap (l : List α) (i j : Nat) : List α :=
  match l[i]?, l[j]? with
  | some x, some y => (l.set i y).set j x
  | _, _ => l

/-- The loop of `reverse_thread_range`. -/
def reverseLoop : Nat → List α → Nat → Nat → List α
  | 0, l, _, _ => l
  | fuel + 1, l, lo, hi => if lo < hi then reverseLoop fuel (swap l lo hi) (lo + 1) (hi - 1) else l

/-- `reverse_thread_range`: the entries from `lo` to `hi`, both included. -/
def reverseThreadRange (l : List α) (lo hi : Nat) : List α := reverseLoop (hi + 1 - lo) l lo hi

end Reverse

/-- The first `n` slots of `src` over `dst`. -/
def copySlots (n : Nat) (src dst : Nat → Int) : Nat → Int := fun k => if k < n then src k else dst k

/-- What `add_thread` writes: the list under construction, the visited set and the captures
of a match. `dropped` is no variable of the source: it records that a thread was left out
because the list was full. -/
structure AddState where
  next : List ReThread
  vis : Visited
  matchSaved : Nat → Int
  dropped : Bool

section AddThread

variable (re : ReHandle) (text : List UInt8) (look : Nat → Nat → Option Bool) (pos : Nat)

/-- The block reversal after both branches of an `OP_SPLIT` have been explored. -/
def splitOrder (next : List ReThread) (base lenA lenB : Nat) : List ReThread :=
  if 0 < lenA ∧ 0 < lenB then
    -- reversed as a whole and then block by block, so that the threads of the second branch come first
    let next := reverseThreadRange next base (base + lenA + lenB - 1)
    let next := reverseThreadRange next base (base + lenB - 1)
    reverseThreadRange next (base + lenB) (base + lenA + lenB - 1)
  else next

/-- `add_thread`, with the nested run of `OP_LOOKAHEAD` as `look`. Each turn of its loop and
each recursive call takes fuel; a result `none` is a run that does not end. The flag tells
whether `OP_MATCH` was hit. -/
def addThread : Nat → AddState → ReThread → Option (AddState × Bool)
  | 0, _, _ => none
  | fuel + 1, st, t =>
    match re.prog[t.pc]? with
    | none => some (st, false)
    | some ins =>
      if st.vis.test t.pc then some (st, false)
      else
        let st := { st with vis := st.vis.set t.pc }
        match ins with
        | .save slot =>
          addThread fuel st { pc := t.pc + 1, saved := Function.update t.saved slot pos }
        | .split a b => do
          let base := st.next.length
          let (stA, foundA) ← addThread fuel st { t with pc := a }
          let lenA := stA.next.length - base
          let (stB, foundB) ←
            if foundA then some (stA, false) else addThread fuel stA { t with pc := b }
          let lenB := stB.next.length - stA.next.length
          some ({ stB with next := splitOrder stB.next base lenA lenB }, foundA || foundB)
        | .jump a => addThread fuel st { t with pc := a }
        | .lookahead subEnd isNeg => do
          let ok ← look (t.pc + 1) pos
          if ok != isNeg then addThread fuel st { t with pc := subEnd } else some (st, false)
        | .matched =>
          some ({ st with matchSaved := copySlots re.slotCount t.saved st.matchSaved }, true)
        | ins =>
          if ins.consuming then
            if st.next.length < maxThreads then some ({ st with next := st.next ++ [t] }, false)
            else some ({ st with dropped := true }, false)
          else if re.anchorHolds text pos ins then addThread fuel st { t with pc := t.pc + 1 }
          else some (st, false)

end AddThread

/-- The variables of the loop over positions, and the `found_saved` of a run. -/
structure RangeState where
  cur : List ReThread
  vis : Visited
  foundSaved : Nat → Int
  found : Bool
  dropped : Bool

section Range

variable (re : ReHandle) (text : List UInt8) (look : Nat → Nat → Option Bool)

/-- The loop over the threads of one position, highest priority first, with the blocks
`(blk_start, blk_len)` each thread added. The flag tells whether a thread matched. -/
def threadLoop (pos : Nat) : List ReThread → AddState → List (Nat × Nat) →
    Option (AddState × List (Nat × Nat) × Bool)
  | [], st, blocks => some (st, blocks, false)
  | t :: ts, st, blocks =>
    if pos = text.length then threadLoop pos ts st blocks
    else if re.matchChar (re.prog.getD t.pc .matched) (byteAt text pos) then do
      let before := st.next.length
      let (st', got) ←
        addThread re text look (pos + 1) (re.prog.length + 1) st { t with pc := t.pc + 1 }
      let contributed := st'.next.length - before
      let blocks' :=
        if 0 < contributed ∧ blocks.length < maxThreads then blocks ++ [(before, contributed)]
        else blocks
      if got then some (st', blocks', true)
      else threadLoop pos ts { st' with matchSaved := st.matchSaved } blocks'
    else threadLoop pos ts st blocks

def restoreBlock (total : Nat) (l : List ReThread) (blk : Nat × Nat) : List ReThread :=
  reverseThreadRange l (total - (blk.1 + blk.2)) (total - blk.1 - 1)

def restoreOrder (next : List ReThread) (blocks : List (Nat × Nat)) : List ReThread :=
  if 1 < blocks.length then
    blocks.foldl (restoreBlock next.length) (reverseThreadRange next 0 (next.length - 1))
  else next

/-- The loop over the positions `pos`, `pos + 1`, ..., as many as the first argument says. -/
def posLoop : Nat → Nat → RangeState → Option RangeState
  | 0, _, s => some s
  | n + 1, pos, s =>
    if s.cur.length = 0 then some s
    else do
      let st : AddState := ⟨[], s.vis.clear re.prog.length, s.foundSaved, s.dropped⟩
      let (st', blocks, got) ← threadLoop re text look pos s.cur.reverse st []
      posLoop n (pos + 1)
        { cur := restoreOrder st'.next blocks, vis := st'.vis, foundSaved := st'.matchSaved,
          found := s.found || got, dropped := st'.dropped }

/-- `vm_exec_range` from `start` and `pcStart`. -/
def vmExecRange (start pcStart : Nat) (vis : Visited) : Option RangeState := do
  let st : AddState := ⟨[], vis.clear re.prog.length, fun _ => -1, false⟩
  let (st', _) ←
    addThread re text look start (re.prog.length + 1) st { pc := pcStart, saved := fun _ => -1 }
  let found := decide (0 ≤ st'.matchSaved 0) && decide (0 ≤ st'.matchSaved 1)
  posLoop re text look (text.length + 1 - start) start
    { cur := st'.next, vis := st'.vis, foundSaved := st'.matchSaved, found := found,
      dropped := st'.dropped }

end Range

/-- `vm_exec_lookahead` with lookaheads nested at most so deep. -/
def vmExecLookahead (re : ReHandle) (text : List UInt8) : Nat → Nat → Nat → Option Bool
  | 0, _, _ => none
  | n + 1, pcStart, start =>
    (vmExecRange re text (vmExecLookahead re text n) start pcStart Visited.init).map (·.found)

/-! `re_exec_vm_general` of `ls_regex.c` with its ways to pass over start positions, and the whole-literal answer of
`__ls_regex_exec`. A text is searched from a start inside it. -/

open LsLang.Text (strFind)

/-- The nested runs of a compiled pattern, with as many levels as it has instructions. -/
def nestedRuns (re : ReHandle) (text : List UInt8) : Nat → Nat → Option Bool := vmExecLookahead re text re.prog.length

namespace ReHandle

def noMatch (re : ReHandle) : ReHandle × Nat :=
  ({ re with saved := fun k => if k < maxGroups * 2 then -1 else re.saved k }, 0)

def hasMatch (re : ReHandle) (ms : Nat → Int) : ReHandle × Nat :=
  ({ re with saved := copySlots re.slotCount ms re.saved }, re.nGroups + 1)

end ReHandle

/-- A loop `while (s < text_len && ...) s++`, with the bytes left as its fuel. -/
def skipTo (stop : Nat → Bool) : Nat → Nat → Nat
  | 0, s => s
  | n + 1, s => if stop s then s else skipTo stop n (s + 1)

section Tiers

variable (re : ReHandle) (text : List UInt8)

def lineStart (s : Nat) : Nat := skipTo (fun s => byteAt text (s - 1) == byte '\n') (text.length - s) s

/-- The next position with a byte of `first_bytes`, or the end of the text. -/
def firstByteFrom (s : Nat) : Nat :=
  skipTo (fun s => decide (byteAt text s < 128) && re.firstBytes (byteAt text s).toNat) (text.length - s) s

/-- The position that is tried next from `s` on, by the literal or the first bytes; `none` when the literal does not
occur any more. -/
def candidate (s : Nat) : Option Nat :=
  if re.lit ≠ [] then strFind text re.lit s
  else if re.hasFirstBytes then
    let s := firstByteFrom re text s
    some (if text.length ≤ s ∧ 0 < text.length then text.length else s)
  else some s

/-- The loop of `re_exec_vm_general` over start positions. It ends behind the text, so the fuel is the number of
positions left and one. -/
def searchLoop : Nat → Nat → Visited → Option (ReHandle × Nat)
  | 0, _, _ => none
  | fuel + 1, s, vis =>
    if text.length < s then some re.noMatch
    else
      match candidate re text s with
      | none => some re.noMatch
      | some s => do
        let r ← vmExecRange re text (nestedRuns re text) s 0 vis
        if r.found then some (re.hasMatch r.foundSaved) else searchLoop fuel (s + 1) r.vis

/-- The loop over the starts of lines, for a pattern that starts with `^` under `MULTILINE`. -/
def lineLoop : Nat → Nat → Visited → Option (ReHandle × Nat)
  | 0, _, _ => none
  | fuel + 1, s, vis =>
    if text.length < s then some re.noMatch
    else do
      let r ← vmExecRange re text (nestedRuns re text) s 0 vis
      if r.found then some (re.hasMatch r.foundSaved)
      else if text.length ≤ s then some re.noMatch
      else lineLoop fuel (lineStart text (s + 1)) r.vis

/-- `re_exec_vm_general` -/
def reExecVmGeneral (start : Nat) : Option (ReHandle × Nat) :=
  if re.anchorMode = 1 then
    if 0 < start then some re.noMatch
    else do
      let r ← vmExecRange re text (nestedRuns re text) 0 0 Visited.init
      some (if r.found then re.hasMatch r.foundSaved else re.noMatch)
  else if re.anchorMode = 2 then
    let s := if start ≠ 0 then lineStart text start else start
    lineLoop re text (text.length + 2 - s) s Visited.init
  else searchLoop re text (text.length + 2 - start) start Visited.init

/-- The answer of `__ls_regex_exec` for a pattern that is nothing but a literal. -/
def wholeLiteral (start : Nat) : ReHandle × Nat :=
  match strFind text re.lit start with
  | none => re.noMatch
  | some i =>
    let saved := (re.noMatch).1.saved
    ({ re with saved := Function.update (Function.update saved 0 i) 1 (i + re.lit.length) }, re.nGroups + 1)

/-- `__ls_regex_exec`; the one-pass executor is a parameter. -/
def regexExec (onepass : ReHandle → List UInt8 → Nat → Option (ReHandle × Nat)) (start : Nat) :
    Option (ReHandle × Nat) :=
  let re := { re with dfaOnly := none }
  if re.litIsWhole && !re.ignorecase then some (wholeLiteral re text start)
  else if re.onepass then onepass re text start
  else reExecVmGeneral re text start

/-- What `vm_exec_range` finds from address 0 at `s`: the captures, if it succeeds. -/
def matchFrom (s : Nat) : Option (Nat → Int) :=
  (vmExecRange re text (nestedRuns re text) s 0 Visited.init).bind fun r =>
    if r.found then some r.foundSaved else none

end Tiers

/-! The readers of the captures, on a handle whose last exec was no `__ls_regex_exec_dfa`. -/

section Readers

variable (re : ReHandle) (group : Int)

/-- `__ls_regex_cap_start` -/
def capStart : Int := if group < 0 ∨ (maxGroups : Int) ≤ group then -1 else re.saved (group.toNat * 2)

/-- `__ls_regex_cap_len` -/
def capLen : Int :=
  if group < 0 ∨ (maxGroups : Int) ≤ group then -1
  else
    let s := re.saved (group.toNat * 2)
    let e := re.saved (group.toNat * 2 + 1)
    if s < 0 ∨ e < 0 then -1 else e - s

/-- The start and the length that `_cap_str` takes of the text, unless it returns an empty string. -/
def capStrRange : Option (Int × Int) :=
  if capStart re group < 0 then none else some (capStart re group, capLen re group)

/-- `group_span` and `Caps.span`; `group`, `group_slice` and `Caps.slice` take the same range, and check its end. -/
def groupSpan : Option (Int × Int) :=
  if group < 0 ∨ (re.nGroups : Int) < group then none
  else if capStart re group < 0 ∨ capLen re group < 0 then none
  else some (capStart re group, capLen re group)

end Readers

end LsLang.Regex
