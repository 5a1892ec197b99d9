import LsLang.Regex.Vm
import LsLang.Regex.Lookahead
import LsLang.Regex.VmVisited
import Mathlib.Data.Bool.AllAny

/-! The ways to pass over start positions, and the whole-literal answer, give what a run from every position gives. -/

namespace LsLang.Regex

open LsLang.Lib (FirstFrom)
open LsLang.Text (OccursAt strFind strFind_first occursAt_iff_getElem?)

structure Prefiltered (re : ReHandle) : Prop where
  first : re.prog[0]? = some (.save 0)
  lit : ∀ k c, re.lit[k]? = some c → re.prog[k + 1]? = some (.char c)
  cased : re.lit ≠ [] ∨ re.hasFirstBytes = true → re.ignorecase = false
  whole : re.litIsWhole = true → re.lit ≠ [] ∧ re.prog[re.lit.length + 1]? = some (.save 1) ∧
    re.prog[re.lit.length + 2]? = some .matched
  bytes : re.hasFirstBytes = true → ∃ id, re.prog[1]? = some (.cls id) ∧
    re.firstBytes = fun i => re.classBit (id * 128 + i)
  anchor : re.anchorMode = 1 → re.prog[1]? = some .bos ∨ (re.prog[1]? = some .bol ∧ re.multiline = false)
  line : re.anchorMode = 2 → re.prog[1]? = some .bol ∧ re.multiline = true

section Prefilter

theorem literalPrefix_get {prog : List ReInstr} {k : Nat} {c : UInt8} (h : (literalPrefix prog)[k]? = some c) :
    prog[k]? = some (.char c) := by
  induction prog generalizing k with
  | nil => cases h
  | cons ins prog ih =>
    cases ins with
    | char d =>
      cases k with
      | zero =>
        cases h
        rfl
      | succ k => exact ih h
    | _ => cases h

theorem detectAnchor_spec (re : ReHandle) :
    (detectAnchor re = 1 → re.prog[1]? = some .bos ∨ (re.prog[1]? = some .bol ∧ re.multiline = false)) ∧
      (detectAnchor re = 2 → re.prog[1]? = some .bol ∧ re.multiline = true) := by
  unfold detectAnchor
  split
  · exact ⟨nofun, nofun⟩
  split
  · exact ⟨nofun, nofun⟩
  grind

theorem buildPrefilter_spec {re b : ReHandle} (h : re.prog[0]? = some (.save 0)) (hb : buildPrefilter re = b) :
    (∀ k c, b.lit[k]? = some c → re.prog[k + 1]? = some (.char c)) ∧
      (b.lit ≠ [] ∨ b.hasFirstBytes = true → re.ignorecase = false) ∧
      (b.litIsWhole = true → b.lit ≠ [] ∧ re.prog[b.lit.length + 1]? = some (.save 1) ∧
        re.prog[b.lit.length + 2]? = some .matched) ∧
      (b.hasFirstBytes = true → ∃ id, re.prog[1]? = some (.cls id) ∧
        b.firstBytes = fun i => re.classBit (id * 128 + i)) := by
  have hhead : re.prog.head? = some (.save 0) := by rw [List.head?_eq_getElem?, h]
  unfold buildPrefilter at hb
  dsimp only at hb
  rw [if_pos hhead] at hb
  split at hb
  · grind
  next hcase =>
  have hcased : re.ignorecase = false := Bool.eq_false_of_not_eq_true hcase
  split at hb
  · next hlit =>
    subst hb
    refine ⟨fun k c hk => ?_, fun _ => hcased, fun hw => ?_, nofun⟩
    · rw [List.getElem?_take] at hk
      split at hk
      · have := literalPrefix_get hk
        grind
      · cases hk
    grind
  · split at hb
    · next id hid =>
      split at hb
      · subst hb
        exact ⟨nofun, fun _ => hcased, nofun, fun _ => ⟨id, hid, rfl⟩⟩
      grind
    grind

theorem name0_buildPrefilter (re : ReHandle) : (buildPrefilter re).name0 = re.name0 := by
  unfold buildPrefilter
  dsimp only
  generalize (if re.prog.head? = some (.save 0) then 1 else 0 : Nat) = pc
  split
  · rfl
  split
  · rfl
  split
  · split <;> rfl
  · rfl

/-- `re'` is `re` with what the analyses found out about its start. -/
structure Analysed (re re' : ReHandle) : Prop where
  same : SameCode re re'
  name0 : re'.name0 = re.name0
  lit : re'.lit = (buildPrefilter re).lit
  whole : re'.litIsWhole = (buildPrefilter re).litIsWhole
  hasFirst : re'.hasFirstBytes = (buildPrefilter re).hasFirstBytes
  first : re'.firstBytes = (buildPrefilter re).firstBytes
  anchor : re'.anchorMode = detectAnchor (buildPrefilter re)

theorem analysed_compileFinish (c : Compiler) :
    Analysed { (emit (emit c.re (.save 1)).1 .matched).1 with nGroups := c.groupCounter } (compileFinish c) := by
  unfold compileFinish
  dsimp only
  generalize { (emit (emit c.re (.save 1)).1 .matched).1 with nGroups := c.groupCounter } = re
  have h := sameCode_buildPrefilter re
  have hname := name0_buildPrefilter re
  split <;> split <;>
    exact ⟨⟨h.prog, h.flags, h.nGroups, h.classes, h.nClasses⟩, hname, rfl, rfl, rfl, rfl, rfl⟩

theorem Analysed.prefiltered {re re' : ReHandle} (h : Analysed re re') (h0 : re'.prog[0]? = some (.save 0)) :
    Prefiltered re' := by
  have hcase : re'.ignorecase = re.ignorecase := by
    unfold ReHandle.ignorecase
    rw [h.same.flags]
  have hbits : re'.classBit = re.classBit := by
    unfold ReHandle.classBit
    rw [h.same.classes, h.same.nClasses, h.name0]
  have hmulti : re'.multiline = (buildPrefilter re).multiline := by
    unfold ReHandle.multiline
    rw [h.same.flags, (sameCode_buildPrefilter re).flags]
  obtain ⟨hlit, hcased, hwhole, hbytes⟩ := buildPrefilter_spec (h.same.prog ▸ h0) rfl
  obtain ⟨hanchor, hline⟩ := detectAnchor_spec (buildPrefilter re)
  rw [← h.anchor, ← hmulti, (sameCode_buildPrefilter re).prog, ← h.same.prog] at hanchor hline
  rw [← h.lit, ← h.same.prog] at hlit
  rw [← h.lit, ← h.hasFirst, ← hcase] at hcased
  rw [← h.whole, ← h.lit, ← h.same.prog] at hwhole
  rw [← h.hasFirst, ← h.first, ← h.same.prog, ← hbits] at hbytes
  exact ⟨h0, hlit, hcased, hwhole, hbytes, hanchor, hline⟩

end Prefilter

theorem compile_prefiltered {pattern : List UInt8} {flags : Nat} {re : ReHandle} (h : compile pattern flags = .ok re) :
    Prefiltered re := by
  obtain ⟨t, r, tail, -, hholds⟩ := compile_holds h
  have hfirst : re.prog[0]? = some (.save 0) := by
    rw [hholds.prog, progCode, place_cons]
    rfl
  unfold compile at h
  dsimp only at h
  obtain ⟨c, -, h⟩ := bind_ok h
  obtain ⟨-, h⟩ := guard_ok h
  cases h
  exact (analysed_compileFinish c).prefiltered hfirst

/-! Starts at which a run finds nothing. -/

section Fails

variable {re : ReHandle} {text : List UInt8} {s : Nat}

theorem matchFrom_eq_none {I : Nat → ReThread → Prop} (hinv : Stable re text (nestedRuns re text) s I)
    (hs : s ≤ text.length) (h₀ : I s ⟨0, fun _ => -1⟩)
    (hno : ∀ pos t, I pos t → re.prog[t.pc]? ≠ some .matched) : matchFrom re text s = none := by
  unfold matchFrom
  cases h : vmExecRange re text (nestedRuns re text) s 0 Visited.init with
  | none => rfl
  | some r =>
    rw [Option.bind_some, if_neg]
    intro hf
    obtain ⟨pos, m, -, -, hm, hmatch, -⟩ := vmExecRange_kept hinv hs h₀ h hf
    exact hno pos m hm hmatch

/-- The thread cannot pass the instruction behind `SAVE 0`. -/
def Blocked (re : ReHandle) (text : List UInt8) (s : Nat) (ins : ReInstr) : Prop :=
  (ins.isAnchor = true ∧ re.anchorHolds text s ins = false) ∨
    (ins.consuming = true ∧ (s < text.length → re.matchChar ins (byteAt text s) = false))

theorem Eps.instr {look : Nat → Nat → Option Bool} {pos : Nat} {t t' : ReThread} (h : Eps re text look pos t t') :
    ∃ ins, re.prog[t.pc]? = some ins ∧ ins.consuming = false ∧
      (ins.isAnchor = true → re.anchorHolds text pos ins = true) := by
  cases h with
  | save hi => exact ⟨_, hi, rfl, nofun⟩
  | left hi => exact ⟨_, hi, rfl, nofun⟩
  | right hi => exact ⟨_, hi, rfl, nofun⟩
  | jump hi => exact ⟨_, hi, rfl, nofun⟩
  | ahead hi => exact ⟨_, hi, rfl, nofun⟩
  | anchor hi ha hp => exact ⟨_, hi, consuming_of_isAnchor ha, fun _ => hp⟩

theorem matchFrom_blocked {ins : ReInstr} (h0 : re.prog[0]? = some (.save 0)) (h1 : re.prog[1]? = some ins)
    (hs : s ≤ text.length) (hb : Blocked re text s ins) : matchFrom re text s = none := by
  refine matchFrom_eq_none (I := fun pos t => t.pc ≤ 1 ∧ pos = s) ⟨?_, ?_⟩ hs ⟨Nat.zero_le 1, rfl⟩ ?_
  · rintro pos t t' - - ⟨hpc, rfl⟩ he
    rcases Nat.le_one_iff_eq_zero_or_eq_one.1 hpc with hz | hone
    · cases he with
      | save => exact ⟨by rw [hz], rfl⟩
      | left hi | right hi | jump hi | ahead hi =>
        grind
      | anchor hi ha =>
        grind
    · obtain ⟨ins', hi, hc, ha⟩ := he.instr
      rw [hone, h1] at hi
      cases hi
      rcases hb with ⟨hanchor, hno⟩ | ⟨hcons, -⟩
      · grind
      grind
  · rintro pos t - ⟨hpc, rfl⟩ he
    obtain ⟨ins', hi, hc, hm⟩ := he.consuming
    rcases Nat.le_one_iff_eq_zero_or_eq_one.1 hpc with hz | hone
    · rw [hz, h0] at hi
      cases hi
      cases hc
    · rw [hone, h1] at hi
      cases hi
      rcases hb with ⟨hanchor, -⟩ | ⟨-, hno⟩
      · rw [consuming_of_isAnchor hanchor] at hc
        cases hc
      · rw [hno he.1] at hm
        cases hm
  · rintro pos t ⟨hpc, rfl⟩ hmatch
    rcases Nat.le_one_iff_eq_zero_or_eq_one.1 hpc with hz | hone
    · grind
    · rw [hone, h1] at hmatch
      cases hmatch
      rcases hb with ⟨hanchor, -⟩ | ⟨hcons, -⟩
      · cases hanchor
      · cases hcons

theorem matchFrom_no_literal (h : Prefiltered re) (hne : re.lit ≠ []) (hs : s ≤ text.length)
    (hno : ¬ OccursAt text re.lit s) : matchFrom re text s = none := by
  have hcase := h.cased (.inl hne)
  have hchar : ∀ k < re.lit.length, ∃ c, re.lit[k]? = some c ∧ re.prog[k + 1]? = some (.char c) := by
    intro k hk
    exact ⟨_, List.getElem?_eq_getElem hk, h.lit k _ (List.getElem?_eq_getElem hk)⟩
  -- after `k` bytes of the literal the thread stands at the next one
  refine matchFrom_eq_none (I := fun pos t => (t.pc = 0 ∧ pos = s) ∨ ∃ k < re.lit.length, t.pc = k + 1 ∧
    pos = s + k ∧ ∀ j < k, text[s + j]? = re.lit[j]?) ⟨?_, ?_⟩ hs (.inl ⟨rfl, rfl⟩) ?_
  · rintro pos t t' - - (⟨hz, rfl⟩ | ⟨k, hk, hpc, -, -⟩) he
    · cases he with
      | save => exact .inr ⟨0, List.length_pos_iff.2 hne, by rw [hz], rfl, nofun⟩
      | left hi | right hi | jump hi | ahead hi =>
        rw [hz, h.first] at hi
        cases hi
      | anchor hi ha =>
        rw [hz, h.first] at hi
        cases hi
        cases ha
    · obtain ⟨c, -, hc⟩ := hchar k hk
      obtain ⟨ins, hi, hcons, -⟩ := he.instr
      rw [hpc, hc] at hi
      cases hi
      cases hcons
  · rintro pos t - (⟨hz, rfl⟩ | ⟨k, hk, hpc, rfl, hread⟩) he
    · obtain ⟨ins, hi, hcons, -⟩ := he.consuming
      rw [hz, h.first] at hi
      cases hi
      cases hcons
    · obtain ⟨c, hlit, hc⟩ := hchar k hk
      obtain ⟨ins, hi, -, hm⟩ := he.consuming
      rw [hpc, hc] at hi
      cases hi
      have hbyte : text[s + k]? = re.lit[k]? := by
        have heq : byteAt text (s + k) = c := by simpa [ReHandle.matchChar_char, hcase] using hm
        rw [hlit, ← heq, byteAt, List.getD_eq_getElem?_getD, List.getElem?_eq_getElem he.1, Option.getD_some]
      have hread' : ∀ j < k + 1, text[s + j]? = re.lit[j]? := by grind
      rcases Nat.lt_or_eq_of_le (Nat.succ_le_of_lt hk) with hlt | heq
      · grind
      grind [occursAt_iff_getElem?]
  · rintro pos t (⟨hz, -⟩ | ⟨k, hk, hpc, -, -⟩) hmatch
    · rw [hz, h.first] at hmatch
      cases hmatch
    grind

theorem matchFrom_no_first (h : Prefiltered re) (hf : re.hasFirstBytes = true) (hs : s ≤ text.length)
    (hno : s < text.length → re.firstBytes (byteAt text s).toNat = false) : matchFrom re text s = none := by
  obtain ⟨id, hcls, hfirst⟩ := h.bytes hf
  refine matchFrom_blocked h.first hcls hs (.inr ⟨rfl, fun hlt => ?_⟩)
  have := hno hlt
  rw [hfirst] at this
  rw [ReHandle.matchChar_cls, h.cased (.inr hf)]
  exact this

theorem matchFrom_anchored (h : Prefiltered re) (ha : re.anchorMode = 1) (hs : s ≤ text.length) (hpos : 0 < s) :
    matchFrom re text s = none := by
  have hz : (s == 0) = false := beq_eq_false_iff_ne.2 (Nat.ne_of_gt hpos)
  rcases h.anchor ha with hbos | ⟨hbol, hml⟩
  · exact matchFrom_blocked h.first hbos hs (.inl ⟨rfl, hz⟩)
  · refine matchFrom_blocked h.first hbol hs (.inl ⟨rfl, ?_⟩)
    rw [ReHandle.anchorHolds, hml, hz]
    rfl

theorem matchFrom_inside_line (h : Prefiltered re) (ha : re.anchorMode = 2) (hs : s ≤ text.length) (hpos : 0 < s)
    (hno : (byteAt text (s - 1) == byte '\n') = false) : matchFrom re text s = none := by
  have hz : (s == 0) = false := beq_eq_false_iff_ne.2 (Nat.ne_of_gt hpos)
  refine matchFrom_blocked h.first (h.line ha).1 hs (.inl ⟨rfl, ?_⟩)
  rw [ReHandle.anchorHolds, hz, hno, Bool.and_false]
  rfl

end Fails

section Loops

variable {re : ReHandle} {text : List UInt8} {s : Nat}

theorem skipTo_spec (stop : Nat → Bool) (n s : Nat) :
    s ≤ skipTo stop n s ∧ skipTo stop n s ≤ s + n ∧ ∀ j, s ≤ j → j < skipTo stop n s → stop j = false := by
  induction n generalizing s with
  | zero => exact ⟨Nat.le_refl s, Nat.le_refl s, fun j hj hlt => absurd hj (Nat.not_le.2 hlt)⟩
  | succ n ih =>
    unfold skipTo
    split
    · grind
    grind

/-- The run at `s` succeeds, at a position of the text. -/
def Found (re : ReHandle) (text : List UInt8) (s : Nat) : Prop := s ≤ text.length ∧ (matchFrom re text s).isSome = true

theorem not_found {j : Nat} (h : j ≤ text.length → matchFrom re text j = none) : ¬ Found re text j := by
  rintro ⟨hj, hsome⟩
  grind

theorem candidate_passes (h : Prefiltered re) (hascii : ∀ b ∈ text, b < 128) (hs : s ≤ text.length) :
    match candidate re text s with
    | some i => s ≤ i ∧ i ≤ text.length ∧ ∀ j, s ≤ j → j < i → ¬ Found re text j
    | none => ∀ j, s ≤ j → ¬ Found re text j := by
  unfold candidate
  by_cases hne : re.lit ≠ []
  · rw [if_pos hne]
    have hfirst := strFind_first hne hs
    have hno : ∀ j, ¬ OccursAt text re.lit j → ¬ Found re text j := fun j hj =>
      not_found fun hle => matchFrom_no_literal h hne hle hj
    cases hfind : strFind text re.lit s with
    | some i =>
      rw [hfind] at hfirst
      obtain ⟨hi, hocc, hbefore⟩ := hfirst
      have := hocc.le (List.length_pos_iff.2 hne)
      grind
    | none =>
      rw [hfind] at hfirst
      exact fun j hj => hno j (hfirst j hj)
  rw [if_neg hne]
  by_cases hf : re.hasFirstBytes = true
  · rw [if_pos hf]
    obtain ⟨hlo, hhi, hno⟩ := skipTo_spec
      (fun s => decide (byteAt text s < 128) && re.firstBytes (byteAt text s).toNat) (text.length - s) s
    rw [← firstByteFrom] at hlo hhi hno
    have hlast : (if text.length ≤ firstByteFrom re text s ∧ 0 < text.length then text.length
        else firstByteFrom re text s) = firstByteFrom re text s := by grind
    dsimp only
    rw [hlast]
    refine ⟨hlo, by omega, fun j hj hlt => not_found fun hle => matchFrom_no_first h hf hle fun hjlt => ?_⟩
    have hbyte : byteAt text j < 128 := by
      refine hascii _ ?_
      rw [byteAt, List.getD_eq_getElem?_getD, List.getElem?_eq_getElem hjlt, Option.getD_some]
      exact List.getElem_mem hjlt
    grind
  grind

/-- What the run at `i` answers, or that no run succeeds. -/
def answer (re : ReHandle) (text : List UInt8) (r : Option Nat) : ReHandle × Nat :=
  match r.bind (matchFrom re text) with
  | none => re.noMatch
  | some ms => re.hasMatch ms

theorem nestedRuns_isSome (hll : LookLocal re) (text : List UInt8) (pc pos a : Nat) (isNeg : Bool)
    (hpc : re.prog[pc]? = some (.lookahead a isNeg)) : ∃ ok, nestedRuns re text (pc + 1) pos = some ok :=
  vmExecLookahead_isSome hll text hpc (Nat.sub_le _ _) pos

theorem attempt (hll : LookLocal re) (text : List UInt8) (s : Nat) {vis : Visited} (hv : vis.Bounded re.prog.length) :
    ∃ r, vmExecRange re text (nestedRuns re text) s 0 vis = some r ∧ r.vis.Bounded re.prog.length ∧
      matchFrom re text s = if r.found then some r.foundSaved else none := by
  obtain ⟨r, hr⟩ := @vmExecRange_isSome re text (nestedRuns re text)
    (fun pc pos a isNeg hpc => nestedRuns_isSome hll text pc pos a isNeg hpc) s 0 vis
  obtain ⟨w, hw, -, hb⟩ := vmExecRange_vis hv (Visited.init_bounded _) hr
  refine ⟨r, hr, hb, ?_⟩
  unfold matchFrom
  rw [hw]
  rfl

theorem searchLoop_first (h : Prefiltered re) (hll : LookLocal re) (hascii : ∀ b ∈ text, b < 128) {fuel : Nat}
    {vis : Visited} (hv : vis.Bounded re.prog.length) (hs : s ≤ text.length + 1) (hfuel : text.length + 2 ≤ fuel + s) :
    ∃ r, FirstFrom (Found re text) s r ∧ searchLoop re text fuel s vis = some (answer re text r) := by
  induction fuel generalizing s vis with
  | zero => omega
  | succ fuel ih =>
    unfold searchLoop
    split
    · next hlt => exact ⟨none, fun j hj hf => absurd hf.1 (by omega), rfl⟩
    · next hle =>
      rw [Nat.not_lt] at hle
      have hpass := candidate_passes h hascii hle
      cases hc : candidate re text s with
      | none =>
        rw [hc] at hpass
        exact ⟨none, hpass, rfl⟩
      | some i =>
        rw [hc] at hpass
        obtain ⟨hsi, hi, hno⟩ := hpass
        obtain ⟨r, hr, hb, hm⟩ := attempt hll text i hv
        dsimp only
        rw [hr, Option.bind_eq_bind, Option.bind_some]
        split
        · next hfound =>
          rw [if_pos hfound] at hm
          refine ⟨some i, (FirstFrom.here ⟨hi, by rw [hm]; rfl⟩).skip hsi hno, ?_⟩
          rw [answer, Option.bind_some, hm]
        · next hfound =>
          rw [if_neg hfound] at hm
          obtain ⟨r', hfirst, hans⟩ := ih hb (Nat.succ_le_succ hi) (by omega)
          refine ⟨r', hfirst.skip (Nat.le_succ_of_le hsi) fun j hj hlt => ?_, hans⟩
          grind [not_found, Nat.lt_succ_iff_lt_or_eq]

theorem lineStart_passes (h : Prefiltered re) (ha : re.anchorMode = 2) (hpos : 0 < s) (hs : s ≤ text.length) :
    s ≤ lineStart text s ∧ lineStart text s ≤ text.length ∧
      ∀ j, s ≤ j → j < lineStart text s → ¬ Found re text j := by
  obtain ⟨hlo, hhi, hno⟩ := skipTo_spec (fun s => byteAt text (s - 1) == byte '\n') (text.length - s) s
  rw [← lineStart] at hlo hhi hno
  grind [matchFrom_inside_line, not_found]

theorem lineLoop_first (h : Prefiltered re) (hll : LookLocal re) (ha : re.anchorMode = 2) {fuel : Nat} {vis : Visited}
    (hv : vis.Bounded re.prog.length) (hs : s ≤ text.length) (hfuel : text.length + 2 ≤ fuel + s) :
    ∃ r, FirstFrom (Found re text) s r ∧ lineLoop re text fuel s vis = some (answer re text r) := by
  induction fuel generalizing s vis with
  | zero => omega
  | succ fuel ih =>
    unfold lineLoop
    rw [if_neg (Nat.not_lt.2 hs)]
    obtain ⟨r, hr, hb, hm⟩ := attempt hll text s hv
    rw [hr, Option.bind_eq_bind, Option.bind_some]
    split
    · next hfound =>
      rw [if_pos hfound] at hm
      refine ⟨some s, FirstFrom.here ⟨hs, by rw [hm]; rfl⟩, ?_⟩
      rw [answer, Option.bind_some, hm]
    · next hfound =>
      rw [if_neg hfound] at hm
      have hhere : ¬ Found re text s := not_found fun _ => hm
      split
      · next hend =>
        refine ⟨none, fun j hj hf => ?_, rfl⟩
        obtain rfl : j = s := Nat.le_antisymm (Nat.le_trans hf.1 hend) hj
        exact hhere hf
      · next hlt =>
        rw [Nat.not_le] at hlt
        obtain ⟨hlo, hhi, hno⟩ := lineStart_passes h ha (Nat.succ_pos s) (Nat.succ_le_of_lt hlt)
        obtain ⟨r', hfirst, hans⟩ := ih hb hhi (by omega)
        refine ⟨r', hfirst.skip (Nat.le_of_succ_le hlo) fun j hj hjlt => ?_, hans⟩
        grind

theorem reExecVmGeneral_first (h : Prefiltered re) (hll : LookLocal re) (hascii : ∀ b ∈ text, b < 128) {start : Nat}
    (hstart : start ≤ text.length) :
    ∃ r, FirstFrom (Found re text) start r ∧ reExecVmGeneral re text start = some (answer re text r) := by
  unfold reExecVmGeneral
  split
  · next ha =>
    split
    · next hpos =>
      refine ⟨none, fun j hj => not_found fun hle => ?_, rfl⟩
      exact matchFrom_anchored h ha hle (Nat.lt_of_lt_of_le hpos hj)
    · next hz =>
      obtain rfl : start = 0 := Nat.eq_zero_of_not_pos hz
      obtain ⟨r, hr, -, hm⟩ := attempt hll text 0 (Visited.init_bounded _)
      rw [hr, Option.bind_eq_bind, Option.bind_some]
      split
      · next hfound =>
        rw [if_pos hfound] at hm
        refine ⟨some 0, FirstFrom.here ⟨hstart, by rw [hm]; rfl⟩, ?_⟩
        rw [answer, Option.bind_some, hm]
      · next hfound =>
        rw [if_neg hfound] at hm
        refine ⟨none, fun j hj => not_found fun hle => ?_, rfl⟩
        grind [matchFrom_anchored, Nat.eq_zero_or_pos]
  · split
    · next ha =>
      dsimp only
      split
      · next hne =>
        obtain ⟨hlo, hhi, hno⟩ := lineStart_passes h ha (Nat.pos_of_ne_zero hne) hstart
        obtain ⟨r, hfirst, hans⟩ := @lineLoop_first _ _ _ h hll ha (text.length + 2 - lineStart text start) _
          (Visited.init_bounded _) hhi (by omega)
        exact ⟨r, hfirst.skip hlo hno, hans⟩
      · exact lineLoop_first h hll ha (Visited.init_bounded _) hstart (by omega)
    · exact searchLoop_first h hll hascii (Visited.init_bounded _) (Nat.le_succ_of_le hstart) (by omega)

end Loops

/-! A pattern that is nothing but a literal. -/

section Whole

variable {re : ReHandle} {text : List UInt8} {look : Nat → Nat → Option Bool} {pos s : Nat}

theorem addThread_save {fuel slot : Nat} {st : AddState} {t : ReThread} (hi : re.prog[t.pc]? = some (.save slot))
    (hv : st.vis.test t.pc = false) : addThread re text look pos (fuel + 1) st t =
      addThread re text look pos fuel (st.mark t.pc) ⟨t.pc + 1, Function.update t.saved slot pos⟩ := by
  conv_lhs => unfold addThread
  rw [hi]
  simp only [hv]
  rfl

theorem addThread_matched {fuel : Nat} {st : AddState} {t : ReThread} (hi : re.prog[t.pc]? = some .matched)
    (hv : st.vis.test t.pc = false) : addThread re text look pos (fuel + 1) st t =
      some ({ st.mark t.pc with matchSaved := copySlots re.slotCount t.saved st.matchSaved }, true) := by
  unfold addThread
  rw [hi]
  simp only [hv]
  rfl

theorem addThread_push {fuel : Nat} {st : AddState} {t : ReThread} {ins : ReInstr} (hi : re.prog[t.pc]? = some ins)
    (hv : st.vis.test t.pc = false) (hc : ins.consuming = true) (hroom : st.next.length < maxThreads) :
    addThread re text look pos (fuel + 1) st t = some ({ st.mark t.pc with next := st.next ++ [t] }, false) := by
  rw [addThread_consuming hi hv hc, if_pos hroom]

theorem test_mark_succ {st : AddState} {pc : Nat} (hv : st.vis.test (pc + 1) = false) :
    (st.mark pc).vis.test (pc + 1) = false := by
  rw [AddState.mark, Visited.test_set, hv, Bool.or_false]
  grind

theorem threadLoop_one {t : ReThread} {st st' : AddState} {got : Bool} (he : Eats re text pos t)
    (hadd : addThread re text look (pos + 1) (re.prog.length + 1) st { t with pc := t.pc + 1 } = some (st', got)) :
    ∃ blocks, blocks.length ≤ 1 ∧ threadLoop re text look pos [t] st [] =
      some ({ st' with matchSaved := if got then st'.matchSaved else st.matchSaved }, blocks, got) := by
  refine ⟨if 0 < st'.next.length - st.next.length then [(st.next.length, st'.next.length - st.next.length)] else [],
    ?_, ?_⟩
  · grind
  · unfold threadLoop
    rw [if_neg (Nat.ne_of_lt he.1), if_pos he.2]
    dsimp only
    rw [hadd]
    have hroom : (0 < st'.next.length - st.next.length ∧ ([] : List (Nat × Nat)).length < maxThreads) ↔
        0 < st'.next.length - st.next.length := and_iff_left (by decide)
    cases got with
    | true => simp only [Option.bind_eq_bind, Option.bind_some, if_true, hroom, List.nil_append]
    | false =>
      simp only [Option.bind_eq_bind, Option.bind_some, Bool.false_eq_true, if_false, hroom, List.nil_append,
        threadLoop]

theorem posLoop_one {n : Nat} {t : ReThread} {st : RangeState} {st' : AddState} {got : Bool} (hcur : st.cur = [t])
    (he : Eats re text pos t)
    (hadd : addThread re text look (pos + 1) (re.prog.length + 1)
      ⟨[], st.vis.clear re.prog.length, st.foundSaved, st.dropped⟩ { t with pc := t.pc + 1 } = some (st', got)) :
    posLoop re text look (n + 1) pos st = posLoop re text look n (pos + 1)
      ⟨st'.next, st'.vis, if got then st'.matchSaved else st.foundSaved, st.found || got, st'.dropped⟩ := by
  obtain ⟨blocks, hblocks, hloop⟩ := threadLoop_one he hadd
  conv_lhs => unfold posLoop
  rw [hcur, if_neg (by simp)]
  dsimp only [List.reverse_singleton]
  rw [List.reverse_singleton, hloop]
  show posLoop re text look n (pos + 1) ⟨restoreOrder st'.next blocks, _, _, _, _⟩ = _
  rw [restoreOrder, if_neg (Nat.not_lt.2 hblocks)]

theorem posLoop_nil {n : Nat} {st : RangeState} (hcur : st.cur = []) : posLoop re text look n pos st = some st := by
  cases n with
  | zero => rfl
  | succ n =>
    unfold posLoop
    grind

/-- The slots of a match of the literal at `s`. -/
def literalSlots (re : ReHandle) (s : Nat) : Nat → Int :=
  Function.update (Function.update (fun _ => -1) 0 (s : Int)) 1 ((s + re.lit.length : Nat) : Int)

theorem posLoop_literal (h : Prefiltered re) (hw : re.litIsWhole = true) (hocc : OccursAt text re.lit s) {k n : Nat}
    (hk : k < re.lit.length) (hn : re.lit.length - k ≤ n) {st : RangeState} (hv : st.vis.Bounded re.prog.length)
    (hcur : st.cur = [⟨k + 1, Function.update (fun _ => -1) 0 (s : Int)⟩]) :
    ∃ r, posLoop re text look n (s + k) st = some r ∧ r.found = true ∧
      ∀ j < re.slotCount, r.foundSaved j = literalSlots re s j := by
  obtain ⟨hne, hone, hmatched⟩ := h.whole hw
  have hlen := hocc.le (List.length_pos_iff.2 hne)
  induction n generalizing k st with
  | zero => omega
  | succ n ih =>
    have hc := h.lit k _ (List.getElem?_eq_getElem hk)
    have hmatch : re.matchChar (.char re.lit[k]) (byteAt text (s + k)) = true := by
      have hb := occursAt_iff_getElem?.1 hocc k hk
      rw [ReHandle.matchChar_char, h.cased (.inl hne), byteAt, List.getD_eq_getElem?_getD, hb,
        List.getElem?_eq_getElem hk]
      exact beq_self_eq_true _
    have heat : Eats re text (s + k) ⟨k + 1, Function.update (fun _ => -1) 0 (s : Int)⟩ := by
      refine ⟨by omega, ?_⟩
      grind
    have hclear : ∀ pc ins, re.prog[pc]? = some ins → (st.vis.clear re.prog.length).test pc = false :=
      fun pc ins hi => Visited.test_clear hv (List.getElem?_eq_some_iff.1 hi).1
    -- one more byte of the literal, or its last one
    rcases Nat.lt_or_eq_of_le (Nat.succ_le_of_lt hk) with hlt | heq
    · have hc' := h.lit (k + 1) _ (List.getElem?_eq_getElem hlt)
      have hadd := @addThread_push re text look (s + k + 1) re.prog.length
        ⟨[], st.vis.clear re.prog.length, st.foundSaved, st.dropped⟩
        ⟨k + 2, Function.update (fun _ => -1) 0 (s : Int)⟩ _ hc' (hclear _ _ hc') rfl (show 0 < maxThreads by decide)
      rw [posLoop_one hcur heat hadd, Nat.add_assoc]
      exact ih hlt (by omega) (hv.clear.set _) rfl
    · have hone' : re.prog[k + 2]? = some (.save 1) := by
        rw [← hone, ← heq]
      have hmatched' : re.prog[k + 3]? = some .matched := by
        rw [← hmatched, ← heq]
      have hadd := (@addThread_save re text look (s + k + 1) re.prog.length 1
        ⟨[], st.vis.clear re.prog.length, st.foundSaved, st.dropped⟩
        ⟨k + 2, Function.update (fun _ => -1) 0 (s : Int)⟩ hone' (hclear _ _ hone'))
      obtain ⟨len, hlenp⟩ := Nat.exists_eq_add_of_lt (List.getElem?_eq_some_iff.1 hone').1
      have hmatch' := @addThread_matched re text look (s + k + 1) (k + 2 + len)
        ((AddState.mk [] (st.vis.clear re.prog.length) st.foundSaved st.dropped).mark (k + 2))
        ⟨k + 3, Function.update (Function.update (fun _ => -1) 0 (s : Int)) 1 ((s + k + 1 : Nat) : Int)⟩ hmatched'
        (test_mark_succ (hclear _ _ hmatched'))
      rw [← hlenp] at hmatch'
      have hadd := hadd.trans hmatch'
      rw [posLoop_one hcur heat hadd]
      refine ⟨_, posLoop_nil rfl, Bool.or_true _, fun j hj => ?_⟩
      dsimp only
      rw [if_pos rfl, copySlots, if_pos hj, literalSlots, ← heq, Nat.add_assoc]

theorem matchFrom_whole (h : Prefiltered re) (hw : re.litIsWhole = true) (hocc : OccursAt text re.lit s) :
    ∃ ms, matchFrom re text s = some ms ∧ ∀ j < re.slotCount, ms j = literalSlots re s j := by
  obtain ⟨hne, -, -⟩ := h.whole hw
  have hpos := List.length_pos_iff.2 hne
  have hlen := hocc.le hpos
  have hc := h.lit 0 _ (List.getElem?_eq_getElem hpos)
  have hinit := Visited.init_bounded re.prog.length
  have hclear : ∀ pc ins, re.prog[pc]? = some ins → (Visited.init.clear re.prog.length).test pc = false :=
    fun pc ins hi => Visited.test_clear hinit (List.getElem?_eq_some_iff.1 hi).1
  have hadd := @addThread_save re text (nestedRuns re text) s re.prog.length 0
    ⟨[], Visited.init.clear re.prog.length, fun _ => -1, false⟩ ⟨0, fun _ => -1⟩ h.first (hclear _ _ h.first)
  obtain ⟨len, hlenp⟩ := Nat.exists_eq_add_of_lt (List.getElem?_eq_some_iff.1 hc).1
  have hpush := @addThread_push re text (nestedRuns re text) s (0 + 1 + len)
    ((AddState.mk [] (Visited.init.clear re.prog.length) (fun _ => -1) false).mark 0)
    ⟨1, Function.update (fun _ => -1) 0 (s : Int)⟩ _ hc (test_mark_succ (hclear _ _ hc)) rfl (show 0 < maxThreads by decide)
  rw [← hlenp] at hpush
  have hadd := hadd.trans hpush
  obtain ⟨r, hr, hfound, hslots⟩ := @posLoop_literal re text (nestedRuns re text) s h hw hocc 0 (text.length + 1 - s) hpos
    (by omega) ⟨[⟨0 + 1, Function.update (fun _ => -1) 0 (s : Int)⟩], _, fun _ => -1, false, false⟩
    ((hinit.clear.set 0).set 1) rfl
  refine ⟨r.foundSaved, ?_, hslots⟩
  have hrun : vmExecRange re text (nestedRuns re text) s 0 Visited.init = some r := by
    unfold vmExecRange
    dsimp only
    rw [hadd]
    exact hr
  rw [matchFrom, hrun, Option.bind_some, if_pos hfound]

theorem slotCount_le (re : ReHandle) : re.slotCount ≤ maxGroups * 2 := Nat.min_le_right _ _

theorem wholeLiteral_first (h : Prefiltered re) (hw : re.litIsWhole = true) {start : Nat} (hstart : start ≤ text.length) :
    ∃ r, FirstFrom (Found re text) start r ∧ (wholeLiteral re text start).2 = (answer re text r).2 ∧
      ∀ j < maxGroups * 2, j < re.slotCount ∨ r = none →
        (wholeLiteral re text start).1.saved j = (answer re text r).1.saved j := by
  obtain ⟨hne, -, -⟩ := h.whole hw
  have hfirst := strFind_first hne hstart
  have hiff : ∀ j, start ≤ j → (OccursAt text re.lit j ↔ Found re text j) := by
    intro j _
    constructor
    · intro hocc
      obtain ⟨ms, hms, -⟩ := matchFrom_whole h hw hocc
      have := hocc.le (List.length_pos_iff.2 hne)
      exact ⟨by omega, by rw [hms]; rfl⟩
    grind [not_found, matchFrom_no_literal]
  refine ⟨strFind text re.lit start, hfirst.congr hiff, ?_⟩
  unfold wholeLiteral answer
  cases hfind : strFind text re.lit start with
  | none => grind
  | some i =>
    rw [hfind] at hfirst
    obtain ⟨ms, hms, hslots⟩ := matchFrom_whole h hw hfirst.2.1
    rw [Option.bind_some, hms]
    refine ⟨rfl, fun j hj hcase => ?_⟩
    have hj' : j < re.slotCount := hcase.resolve_right nofun
    dsimp only [ReHandle.hasMatch]
    rw [copySlots, if_pos hj', hslots j hj', literalSlots]
    simp only [ReHandle.noMatch, Function.update_apply, hj, if_true]
    rfl

end Whole

/-- What the search from `start` on has to answer: the return value is positive when a run from a position of the text
succeeds, the slots are those of the first such run, and without a match they are all -1. -/
structure Answers (re : ReHandle) (text : List UInt8) (start : Nat) (re' : ReHandle) (n : Nat) : Prop where
  found : 0 < n ↔ ∃ s, start ≤ s ∧ s ≤ text.length ∧ (matchFrom re text s).isSome = true
  slots : ∀ s ms, start ≤ s → s ≤ text.length → matchFrom re text s = some ms →
    (∀ j, start ≤ j → j < s → matchFrom re text j = none) → ∀ k < re.slotCount, re'.saved k = ms k
  cleared : n = 0 → ∀ k < maxGroups * 2, re'.saved k = -1

theorem Answers.of_first {re re' : ReHandle} {text : List UInt8} {start n : Nat} {r : Option Nat}
    (hr : FirstFrom (Found re text) start r) (hn : n = (answer re text r).2)
    (hsaved : ∀ j < maxGroups * 2, j < re.slotCount ∨ r = none → re'.saved j = (answer re text r).1.saved j) :
    Answers re text start re' n := by
  cases r with
  | none =>
    refine ⟨?_, ?_, fun _ k hk => ?_⟩
    · rw [hn]
      refine iff_of_false (Nat.lt_irrefl 0) ?_
      rintro ⟨s, hs, hle, hsome⟩
      exact hr s hs ⟨hle, hsome⟩
    · intro s ms hs hle hms
      exact absurd ⟨hle, by rw [hms]; rfl⟩ (hr s hs)
    · rw [hsaved k hk (.inr rfl)]
      exact if_pos hk
  | some i =>
    obtain ⟨hi, ⟨hile, hsome⟩, hfirst⟩ := hr
    obtain ⟨ms, hms⟩ := Option.isSome_iff_exists.1 hsome
    have hans : answer re text (some i) = re.hasMatch ms := by rw [answer, Option.bind_some, hms]
    rw [hans] at hn hsaved
    refine ⟨?_, ?_, fun hz => ?_⟩
    · rw [hn]
      exact iff_of_true (Nat.succ_pos _) ⟨i, hi, hile, hsome⟩
    · intro s ms' hs hle hms' hbefore k hk
      have heq : i = s := by
        rcases Nat.lt_trichotomy i s with hlt | heq | hgt
        · grind
        · exact heq
        · exact absurd ⟨hle, by rw [hms']; rfl⟩ (hfirst s hs hgt)
      subst heq
      rw [hms] at hms'
      cases hms'
      rw [hsaved k (Nat.lt_of_lt_of_le hk (slotCount_le re)) (.inl hk)]
      exact if_pos hk
    · rw [hn] at hz
      cases hz

theorem Answers.congr {re re' re'' : ReHandle} {text : List UInt8} {start n : Nat} (h : Answers re text start re' n)
    (hs : re''.saved = re'.saved) : Answers re text start re'' n :=
  ⟨h.found, fun s ms hs' hle hms hno k hk => hs ▸ h.slots s ms hs' hle hms hno k hk,
    fun hn k hk => hs ▸ h.cleared hn k hk⟩

theorem wholeLiteral_dfaOnly (re : ReHandle) (text : List UInt8) (start : Nat) (d : Option (List UInt8 × Nat)) :
    wholeLiteral { re with dfaOnly := d } text start =
      ({ (wholeLiteral re text start).1 with dfaOnly := d }, (wholeLiteral re text start).2) := by
  unfold wholeLiteral
  dsimp only
  cases strFind text re.lit start <;> rfl

/-- Every run from the start of the program ends, and neither the shortcuts of `re_exec_vm_general` nor the
whole-literal answer of `__ls_regex_exec` change what a search from every position finds. -/
theorem shortcuts_exact {pattern : List UInt8} {flags : Nat} {re : ReHandle} (h : compile pattern flags = .ok re)
    {text : List UInt8} (hascii : ∀ b ∈ text, b < 128) {start : Nat} (hstart : start ≤ text.length) :
    (∀ s, ∃ r, vmExecRange re text (nestedRuns re text) s 0 Visited.init = some r) ∧
      (∃ re' n, reExecVmGeneral re text start = some (re', n) ∧ Answers re text start re' n) ∧
      ((re.litIsWhole && !re.ignorecase) = true → ∀ onepass, ∃ re' n,
        regexExec re text onepass start = some (re', n) ∧ Answers re text start re' n) := by
  have hpre := compile_prefiltered h
  obtain ⟨t, r, tail, -, hholds⟩ := compile_holds h
  refine ⟨fun s => ?_, ?_, fun hcase onepass => ?_⟩
  · obtain ⟨r, hr, -⟩ := attempt hholds.lookLocal text s (Visited.init_bounded _)
    exact ⟨r, hr⟩
  · obtain ⟨r, hr, hans⟩ := reExecVmGeneral_first hpre hholds.lookLocal hascii hstart
    exact ⟨_, _, hans, .of_first hr rfl fun _ _ _ => rfl⟩
  · have hw : re.litIsWhole = true := (Bool.and_eq_true_iff.1 hcase).1
    obtain ⟨r, hr, hn, hsaved⟩ := wholeLiteral_first hpre hw hstart
    refine ⟨_, _, (if_pos hcase).trans (congrArg some (wholeLiteral_dfaOnly re text start none)), ?_⟩
    exact (Answers.of_first hr hn hsaved).congr rfl

theorem shortcuts_exact_ab : ∃ re, compile [97, 98] 0 = .ok re ∧
    (∀ s, ∃ r, vmExecRange re [99, 97, 98] (nestedRuns re [99, 97, 98]) s 0 Visited.init = some r) ∧
    (∃ re' n, reExecVmGeneral re [99, 97, 98] 1 = some (re', n) ∧ Answers re [99, 97, 98] 1 re' n) ∧
    ((re.litIsWhole && !re.ignorecase) = true → ∀ onepass, ∃ re' n,
      regexExec re [99, 97, 98] onepass 1 = some (re', n) ∧ Answers re [99, 97, 98] 1 re' n) :=
  ⟨_, rfl, @shortcuts_exact [97, 98] 0 _ rfl _ (List.all_iff_forall_prop.1 rfl) 1 (by decide)⟩

end LsLang.Regex
