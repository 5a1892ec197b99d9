import LsLang.Regex.EmittedBranches

/-! What the parser emits is the code of the tree that the pattern is read as. -/

namespace LsLang.Regex

theorem follows_expr (d : Nat) : Follows (parseExpr d) (readExpr d) := by
  induction d with
  | zero =>
    intro c r c' _ hp
    cases hp
  | succ d ih => exact follows_inner ih

def progCode (t : Node) (tail : Code) : Code := .save 0 :: (t.code ++ tail)

/-- The handle holds the code of the tree. A full program has refused instructions at its end. -/
structure HoldsCode (re : ReHandle) (t : Node) (r : Reader) (tail : Code) : Prop where
  prog : re.prog = place 0 (progCode t tail)
  snug : t.Snug
  tail_eq : (tail = [.save 1, .matched] ∧ t.Whole) ∨ (tail = [.save 1] ∧ t.Whole) ∨ tail = []
  flags : re.flags = r.flags
  groups : re.nGroups = r.groups
  classes : ClassMem re r.classes

theorem compileStart_agrees (pat : List UInt8) (flags : Nat) :
    (compileStart flags).prog = [.save 0] ∧ Agrees ⟨pat, compileStart flags, 0⟩ ⟨pat, 0, [], flags⟩ := by
  refine ⟨rfl, rfl, rfl, rfl, ⟨fun i _ => ?_, Nat.zero_le _, .inl rfl⟩, fun _ => ?_, ?_⟩
  · show false = cell [] i
    unfold cell
    grind
  · intro ins hins a ha
    rw [List.mem_singleton.1 hins] at ha
    cases ha
  · exact ⟨show 1 ≤ 16 by decide, show 16 ≤ maxInstrs by decide⟩

structure SameCode (re re' : ReHandle) : Prop where
  prog : re'.prog = re.prog
  flags : re'.flags = re.flags
  nGroups : re'.nGroups = re.nGroups
  classes : re'.classes = re.classes
  nClasses : re'.nClasses = re.nClasses

theorem sameCode_buildPrefilter (re : ReHandle) : SameCode re (buildPrefilter re) := by
  unfold buildPrefilter
  dsimp only
  generalize (if re.prog.head? = some (.save 0) then 1 else 0 : Nat) = pc
  split
  · exact ⟨rfl, rfl, rfl, rfl, rfl⟩
  split
  · exact ⟨rfl, rfl, rfl, rfl, rfl⟩
  split
  · split
    · exact ⟨rfl, rfl, rfl, rfl, rfl⟩
    · exact ⟨rfl, rfl, rfl, rfl, rfl⟩
  · exact ⟨rfl, rfl, rfl, rfl, rfl⟩

theorem sameCode_compileFinish (c : Compiler) :
    SameCode { (emit (emit c.re (.save 1)).1 .matched).1 with nGroups := c.groupCounter } (compileFinish c) := by
  unfold compileFinish
  dsimp only
  generalize { (emit (emit c.re (.save 1)).1 .matched).1 with nGroups := c.groupCounter } = re
  have h := sameCode_buildPrefilter re
  split <;> split <;> exact ⟨h.prog, h.flags, h.nGroups, h.classes, h.nClasses⟩

theorem compile_holds {pattern : List UInt8} {flags : Nat} {re : ReHandle} (h : compile pattern flags = .ok re) :
    ∃ t r tail, readPattern pattern flags = some (t.complete, r) ∧ HoldsCode re t r tail := by
  unfold compile at h
  dsimp only at h
  obtain ⟨c, hparse, h⟩ := bind_ok h
  obtain ⟨hrest, h⟩ := guard_ok h
  cases h
  obtain ⟨hstart, hagrees⟩ := compileStart_agrees (pattern.takeWhile (· ≠ 0)) flags
  obtain ⟨x, r, hread, hag, t, rfl, hprog, -, hwhole, hsnug⟩ := follows_expr reMaxDepth _ _ _ hagrees hparse
  dsimp only at hprog
  rw [hstart] at hprog
  have hsame := sameCode_compileFinish c
  obtain ⟨hk₁, b₁, hp₁, hclosed₁, hfit₁⟩ := emitUnchecked_cases c.re (.save 1)
  obtain ⟨hk₂, b₂, hp₂, -, hfit₂⟩ := emitUnchecked_cases (emit c.re (.save 1)).1 .matched
  have hfinal : (compileFinish c).prog = c.re.prog ++ ((if b₁ then [.save 1] else []) ++
      if b₂ then [.matched] else []) := by
    rw [hsame.prog]
    grind
  have hplace : c.re.prog = place 0 (.save 0 :: t.code) := by
    rw [hprog, place_cons]
    rfl
  have hholds : ∀ tail : Code, ((if b₁ then [.save 1] else []) ++ (if b₂ then [.matched] else []) : List ReInstr) =
        place (t.code.length + 1) tail →
      ((tail = [.save 1, .matched] ∧ t.Whole) ∨ (tail = [.save 1] ∧ t.Whole) ∨ tail = []) →
      HoldsCode (compileFinish c) t r tail := by
    intro tail htail hcase
    refine ⟨?_, hsnug, hcase, ?_, ?_, ?_⟩
    · rw [hfinal, htail, hplace, progCode, ← List.cons_append, place_append, List.length_cons, Nat.zero_add]
    · exact hsame.flags.trans (hk₂.flags.trans (hk₁.flags.trans hag.flags))
    · exact hsame.nGroups.trans hag.groups
    · have hclasses := hsame.classes.trans (hk₂.classes.trans hk₁.classes)
      have hcount := hsame.nClasses.trans (hk₂.nClasses.trans hk₁.nClasses)
      exact ⟨fun i hi => hclasses ▸ hag.classes.cells i hi, hag.classes.room, hcount ▸ hag.classes.count⟩
  have hread' : readPattern pattern flags = some (t.complete, r) := by
    have hend : r.rest = [] := by
      rw [← hag.rest]
      exact not_not.1 hrest
    unfold readPattern
    grind
  -- the last two instructions may be refused by a full program
  cases b₁ with
  | true =>
    have ht := hwhole (hfit₁ rfl)
    cases b₂ with
    | true => exact ⟨t, r, _, hread', hholds [.save 1, .matched] rfl (.inl ⟨rfl, ht⟩)⟩
    | false => exact ⟨t, r, _, hread', hholds [.save 1] rfl (.inr (.inl ⟨rfl, ht⟩))⟩
  | false =>
    cases b₂ with
    | true => grind
    | false => exact ⟨t, r, _, hread', hholds [] rfl (.inr (.inr rfl))⟩

end LsLang.Regex
