import LsLang.Regex.VmStep

/-! A run that stops at a test that another run could answer differently. As far as it gets, both runs do the same. -/

namespace LsLang.Regex

def Instr.lower {α : Type} : Instr α → Instr α
  | .char c => .char (tolower c)
  | ins => ins

theorem Instr.lower_map {α β : Type} (f : α → β) (ins : Instr α) : (ins.map f).lower = ins.lower.map f := by
  cases ins <;> rfl

theorem Instr.eq_of_lower {α : Type} {ins ins' : Instr α} (h : ins'.lower = ins.lower) :
    ins' = ins ∨ ∃ c c', ins = .char c ∧ ins' = .char c' ∧ tolower c' = tolower c := by
  cases ins with
  | char c =>
    cases ins' with
    | char c' => exact .inr ⟨c, c', rfl, rfl, Instr.char.inj h⟩
    | _ => cases h
  | _ =>
    left
    cases ins' with
    | char c' => cases h
    | _ => exact h

/-- The handles hold one program up to the case of its literals, and on the texts a test that is agreed on has one
answer. -/
structure Twins (agree : Nat → UInt8 → Bool) (re re' : ReHandle) (text text' : List UInt8) : Prop where
  prog : re'.prog.map Instr.lower = re.prog.map Instr.lower
  slots : re'.slotCount = re.slotCount
  length : text'.length = text.length
  anchor : ∀ pos ins, re'.anchorHolds text' pos ins = re.anchorHolds text pos ins
  eats : ∀ pc pos, pos < text.length → agree pc (byteAt text pos) = true →
    re'.matchChar (re'.prog.getD pc .matched) (byteAt text' pos) = re.matchChar (re.prog.getD pc .matched) (byteAt text pos)

section Agreed

variable (re : ReHandle) (text : List UInt8) (look : Nat → Nat → Option Bool) (agree : Nat → UInt8 → Bool)

/-- `threadLoop`, turn by turn, until a test that is not agreed on. -/
def agreedThreads (pos : Nat) : List ReThread → AddState → List (Nat × Nat) →
    Option (AddState × List (Nat × Nat) × Bool)
  | [], st, blocks => some (st, blocks, false)
  | t :: ts, st, blocks =>
    if pos < text.length ∧ agree t.pc (byteAt text pos) = false then none
    else do
      let (st, blocks, got) ← threadLoop re text look pos [t] st blocks
      if got then some (st, blocks, true) else agreedThreads pos ts st blocks

def agreedPositions : Nat → Nat → RangeState → Option RangeState
  | 0, _, s => some s
  | n + 1, pos, s =>
    if s.cur.length = 0 then some s
    else do
      let st : AddState := ⟨[], s.vis.clear re.prog.length, s.foundSaved, s.dropped⟩
      let (st', blocks, got) ← agreedThreads re text look agree pos s.cur.reverse st []
      agreedPositions n (pos + 1)
        { cur := restoreOrder st'.next blocks, vis := st'.vis, foundSaved := st'.matchSaved,
          found := s.found || got, dropped := st'.dropped }

/-- `vmExecRange` in the same way. -/
def agreedRange (start pcStart : Nat) (vis : Visited) : Option RangeState := do
  let st : AddState := ⟨[], vis.clear re.prog.length, fun _ => -1, false⟩
  let (st', _) ←
    addThread re text look start (re.prog.length + 1) st { pc := pcStart, saved := fun _ => -1 }
  let found := decide (0 ≤ st'.matchSaved 0) && decide (0 ≤ st'.matchSaved 1)
  agreedPositions re text look agree (text.length + 1 - start) start
    { cur := st'.next, vis := st'.vis, foundSaved := st'.matchSaved, found := found,
      dropped := st'.dropped }

end Agreed

/-- `vmExecLookahead` in the same way. -/
def agreedLookahead (re : ReHandle) (text : List UInt8) (agree : Nat → UInt8 → Bool) : Nat → Nat → Nat → Option Bool
  | 0, _, _ => none
  | n + 1, pcStart, start =>
    (agreedRange re text (agreedLookahead re text agree n) agree start pcStart Visited.init).map (·.found)

/-- The run from address 0 with its nested runs. -/
def agreedRun (re : ReHandle) (text : List UInt8) (agree : Nat → UInt8 → Bool) (start : Nat) (vis : Visited) :
    Option RangeState :=
  agreedRange re text (agreedLookahead re text agree re.prog.length) agree start 0 vis

section Runs

variable {agree : Nat → UInt8 → Bool} {re re' : ReHandle} {text text' : List UInt8} {look look' : Nat → Nat → Option Bool}

theorem Twins.progLength (h : Twins agree re re' text text') : re'.prog.length = re.prog.length := by
  have := congrArg List.length h.prog
  grind

theorem Twins.instr (h : Twins agree re re' text text') (pc : Nat) :
    re'.prog[pc]? = re.prog[pc]? ∨ ∃ c c', re.prog[pc]? = some (.char c) ∧ re'.prog[pc]? = some (.char c') := by
  have hpc : (re'.prog.map Instr.lower)[pc]? = (re.prog.map Instr.lower)[pc]? := by rw [h.prog]
  rw [List.getElem?_map, List.getElem?_map] at hpc
  cases hre : re.prog[pc]? with
  | none =>
    grind
  | some ins =>
    grind [Instr.eq_of_lower, Option.map_eq_some_iff]

theorem addThread_twins (h : Twins agree re re' text text') (pos fuel : Nat) (st : AddState) (t : ReThread) :
    addThread re' text' look pos fuel st t = addThread re text look pos fuel st t := by
  induction fuel generalizing st t with
  | zero => rfl
  | succ fuel ih =>
    unfold addThread
    rcases h.instr t.pc with heq | ⟨c, c', hc, hc'⟩
    · rw [heq]
      cases re.prog[t.pc]? with
      | none => rfl
      | some ins =>
        dsimp only
        by_cases hv : st.vis.test t.pc = true
        · rw [if_pos hv, if_pos hv]
        · rw [if_neg hv, if_neg hv]
          cases ins <;> simp only [ih, h.anchor, h.slots]
    · rw [hc, hc']
      rfl

def Carries (look look' : Nat → Nat → Option Bool) : Prop := ∀ pc pos b, look pc pos = some b → look' pc pos = some b

theorem addThread_carries (hlook : Carries look look') {pos fuel : Nat} {st : AddState} {t : ReThread} {r : AddState × Bool}
    (h : addThread re text look pos fuel st t = some r) : addThread re text look' pos fuel st t = some r := by
  induction fuel generalizing st t r with
  | zero => cases h
  | succ fuel ih =>
    cases hi : re.prog[t.pc]? with
    | none =>
      unfold addThread at h ⊢
      rw [hi] at h ⊢
      exact h
    | some ins =>
      by_cases hv : st.vis.test t.pc = true
      · unfold addThread at h ⊢
        rw [hi] at h ⊢
        simp only [hv, if_true] at h ⊢
        exact h
      · rw [Bool.not_eq_true] at hv
        -- only a lookahead asks `look`; the other instructions are the same step on both sides
        cases ins.kind with
        | save slot =>
          unfold addThread at h ⊢
          rw [hi] at h ⊢
          simp only [hv] at h ⊢
          exact ih h
        | split a b =>
          rw [addThread_split hi hv] at h ⊢
          obtain ⟨⟨stA, foundA⟩, hA, h⟩ := Option.bind_eq_some_iff.1 h
          obtain ⟨rB, hB, h⟩ := Option.bind_eq_some_iff.1 h
          refine Option.bind_eq_some_iff.2 ⟨_, ih hA, Option.bind_eq_some_iff.2 ⟨rB, ?_, h⟩⟩
          cases foundA with
          | true => exact hB
          | false => exact ih hB
        | jump a =>
          unfold addThread at h ⊢
          rw [hi] at h ⊢
          simp only [hv] at h ⊢
          exact ih h
        | lookahead a isNeg =>
          unfold addThread at h ⊢
          rw [hi] at h ⊢
          simp only [hv] at h ⊢
          obtain ⟨ok, hok, h⟩ := Option.bind_eq_some_iff.1 h
          refine Option.bind_eq_some_iff.2 ⟨ok, hlook _ _ _ hok, ?_⟩
          split at h
          · next hne =>
            rw [if_pos hne]
            exact ih h
          · next heq =>
            rw [if_neg heq]
            exact h
        | matched =>
          unfold addThread at h ⊢
          rw [hi] at h ⊢
          exact h
        | consuming hc =>
          rw [addThread_consuming hi hv hc] at h ⊢
          exact h
        | anchor ha =>
          rw [addThread_anchor hi hv ha] at h ⊢
          split at h
          · next hp =>
            rw [if_pos hp]
            exact ih h
          · next hp =>
            rw [if_neg hp]
            exact h

/-- One turn of the loop, and the rest of it. -/
theorem threadLoop_cons {pos : Nat} (t : ReThread) (ts : List ReThread) (st : AddState) (blocks : List (Nat × Nat)) :
    threadLoop re text look pos (t :: ts) st blocks = (threadLoop re text look pos [t] st blocks).bind fun r =>
      if r.2.2 then some r else threadLoop re text look pos ts r.1 r.2.1 := by
  rw [threadLoop, threadLoop]
  by_cases hend : pos = text.length
  · rw [if_pos hend, if_pos hend]
    rfl
  rw [if_neg hend, if_neg hend]
  by_cases hm : re.matchChar (re.prog.getD t.pc .matched) (byteAt text pos) = true
  · rw [if_pos hm, if_pos hm]
    cases addThread re text look (pos + 1) (re.prog.length + 1) st { t with pc := t.pc + 1 } with
    | none => rfl
    | some r =>
      obtain ⟨st', got⟩ := r
      cases got <;> rfl
  · rw [if_neg hm, if_neg hm]
    rfl

/-! Where every test is agreed on, nothing stops. -/

section All

variable (hall : ∀ pc pos, pos < text.length → agree pc (byteAt text pos) = true)

include hall

theorem agreedThreads_eq {pos : Nat} (ts : List ReThread) (st : AddState) (blocks : List (Nat × Nat)) :
    agreedThreads re text look agree pos ts st blocks = threadLoop re text look pos ts st blocks := by
  induction ts generalizing st blocks with
  | nil => rfl
  | cons t ts ih =>
    have hgo : ¬(pos < text.length ∧ agree t.pc (byteAt text pos) = false) := by grind
    unfold agreedThreads
    rw [if_neg hgo, threadLoop_cons t ts]
    refine congrArg (threadLoop re text look pos [t] st blocks).bind (funext fun r => ?_)
    obtain ⟨st', blocks', got⟩ := r
    cases got with
    | true => rfl
    | false => exact ih st' blocks'

theorem agreedPositions_eq {n pos : Nat} {s : RangeState} :
    agreedPositions re text look agree n pos s = posLoop re text look n pos s := by
  induction n generalizing pos s with
  | zero => rfl
  | succ n ih =>
    unfold agreedPositions posLoop
    simp only [ih, agreedThreads_eq hall]

theorem agreedLookahead_eq (n : Nat) : agreedLookahead re text agree n = vmExecLookahead re text n := by
  induction n with
  | zero => rfl
  | succ n ih =>
    funext pc pos
    unfold agreedLookahead vmExecLookahead agreedRange vmExecRange
    simp only [ih, agreedPositions_eq hall]

theorem agreedRun_eq (start : Nat) (vis : Visited) :
    agreedRun re text agree start vis = vmExecRange re text (nestedRuns re text) start 0 vis := by
  unfold agreedRun agreedRange vmExecRange nestedRuns
  simp only [agreedLookahead_eq hall, agreedPositions_eq hall]

end All

/-! Twins. -/

variable (h : Twins agree re re' text text') (hlook : Carries look look')

include h hlook

theorem threadLoop_turn {pos : Nat} {t : ReThread} {st : AddState} {blocks : List (Nat × Nat)}
    {r : AddState × List (Nat × Nat) × Bool} (hpos : pos ≤ text.length)
    (hagree : pos < text.length → agree t.pc (byteAt text pos) = true)
    (hr : threadLoop re text look pos [t] st blocks = some r) : threadLoop re' text' look' pos [t] st blocks = some r := by
  unfold threadLoop at hr ⊢
  rw [h.length, h.progLength]
  by_cases hend : pos = text.length
  · rw [if_pos hend] at hr ⊢
    exact hr
  have hlt : pos < text.length := Nat.lt_of_le_of_ne hpos hend
  rw [if_neg hend] at hr ⊢
  rw [h.eats t.pc pos hlt (hagree hlt)]
  split at hr
  · next hm =>
    rw [if_pos hm]
    obtain ⟨⟨st', got⟩, hadd, hr⟩ := Option.bind_eq_some_iff.1 hr
    have hadd' := addThread_carries hlook hadd
    rw [← addThread_twins h] at hadd'
    exact Option.bind_eq_some_iff.2 ⟨_, hadd', hr⟩
  · next hm =>
    rw [if_neg hm]
    exact hr

theorem agreedThreads_both {pos : Nat} {ts : List ReThread} {st : AddState} {blocks : List (Nat × Nat)}
    {r : AddState × List (Nat × Nat) × Bool} (hpos : pos ≤ text.length)
    (hr : agreedThreads re text look agree pos ts st blocks = some r) :
    threadLoop re' text' look' pos ts st blocks = some r := by
  induction ts generalizing st blocks with
  | nil => exact hr
  | cons t ts ih =>
    unfold agreedThreads at hr
    split at hr
    · cases hr
    next hstop =>
    obtain ⟨⟨st₁, blocks₁, got⟩, hturn, hr⟩ := Option.bind_eq_some_iff.1 hr
    have hagree : pos < text.length → agree t.pc (byteAt text pos) = true := by grind
    rw [threadLoop_cons, threadLoop_turn h hlook hpos hagree hturn, Option.bind_some]
    cases got with
    | true => exact hr
    | false => exact ih hr

theorem agreedPositions_both {n pos : Nat} {s r : RangeState} (hend : pos + n ≤ text.length + 1)
    (hr : agreedPositions re text look agree n pos s = some r) : posLoop re' text' look' n pos s = some r := by
  induction n generalizing pos s with
  | zero => exact hr
  | succ n ih =>
    unfold agreedPositions at hr
    unfold posLoop
    rw [h.progLength]
    split at hr
    · next hz =>
      rw [if_pos hz]
      exact hr
    · next hz =>
      rw [if_neg hz]
      obtain ⟨⟨st', blocks, got⟩, hthreads, hr⟩ := Option.bind_eq_some_iff.1 hr
      exact Option.bind_eq_some_iff.2 ⟨_, agreedThreads_both h hlook (by omega) hthreads, ih (by omega) hr⟩

theorem agreedRange_both {start pcStart : Nat} {vis : Visited} {r : RangeState}
    (hr : agreedRange re text look agree start pcStart vis = some r) :
    vmExecRange re' text' look' start pcStart vis = some r := by
  obtain ⟨⟨st', found⟩, hadd, hr⟩ := Option.bind_eq_some_iff.1 hr
  unfold vmExecRange
  rw [h.progLength, h.length]
  have hadd' := addThread_carries hlook hadd
  rw [← addThread_twins h] at hadd'
  refine Option.bind_eq_some_iff.2 ⟨_, hadd', ?_⟩
  rcases Nat.lt_or_ge text.length start with hlt | hge
  · have hzero : text.length + 1 - start = 0 := by omega
    rw [hzero] at hr ⊢
    exact hr
  · exact agreedPositions_both h hlook (by omega) hr

omit hlook in
theorem agreedLookahead_both (n : Nat) : Carries (agreedLookahead re text agree n) (vmExecLookahead re' text' n) := by
  induction n with
  | zero =>
    intro pc pos b hb
    cases hb
  | succ n ih =>
    intro pc pos b hb
    obtain ⟨r, hr, rfl⟩ := Option.map_eq_some_iff.1 hb
    exact Option.map_eq_some_iff.2 ⟨r, agreedRange_both h ih hr, rfl⟩

omit hlook in
theorem agreedRun_both {start : Nat} {vis : Visited} {r : RangeState} (hr : agreedRun re text agree start vis = some r) :
    vmExecRange re' text' (nestedRuns re' text') start 0 vis = some r := by
  unfold nestedRuns
  rw [h.progLength]
  exact agreedRange_both h (agreedLookahead_both h _) hr

end Runs

end LsLang.Regex
