import LsLang.Regex.Syntax

/-! What it is that the parser emits the code of a node, and the atoms that are one instruction. -/

namespace LsLang.Regex

namespace Node

def complete : Node → Node
  | empty => empty
  | item ins h => item ins h
  | cat l r => cat l.complete r.complete
  | alt _ l r => alt true l.complete r.complete
  | quant q lazy x => quant q lazy x.complete
  | count n m lazy x => count n m lazy x.complete
  | group g _ x => group g true x.complete
  | look isNeg _ x => look isNeg true x.complete

theorem whole_complete (t : Node) : t.complete.Whole := by
  induction t with
  | empty => trivial
  | item => trivial
  | cat _ _ ihl ihr => exact ⟨ihl, ihr⟩
  | alt _ _ _ ihl ihr => exact ⟨rfl, ihl, ihr⟩
  | quant _ _ _ ih => exact ih
  | count _ _ _ _ ih => exact ih
  | group _ _ _ ih => exact ⟨rfl, ih⟩
  | look _ _ _ ih => exact ⟨rfl, ih⟩

theorem Whole.complete {t : Node} (h : t.Whole) : t.complete = t := by
  induction t with
  | empty => rfl
  | item => rfl
  | cat l r ihl ihr => rw [Node.complete, ihl h.1, ihr h.2]
  | alt jumped l r ihl ihr => rw [Node.complete, ihl h.2.1, ihr h.2.2, h.1]
  | quant q lazy x ih => rw [Node.complete, ih h]
  | count n m lazy x ih => rw [Node.complete, ih h]
  | group g closed x ih => rw [Node.complete, ih h.2, h.1]
  | look isNeg closed x ih => rw [Node.complete, ih h.2, h.1]

theorem complete_complete (t : Node) : t.complete.complete = t.complete := t.whole_complete.complete

theorem quantCode_ne_nil (q : Quantifier) (lazy : Bool) (c : Code) : quantCode q lazy c ≠ [] := by
  cases q with
  | opt => exact List.cons_ne_nil _ _
  | star => exact List.cons_ne_nil _ _
  | plus => exact List.append_ne_nil_of_right_ne_nil _ (List.cons_ne_nil _ _)

theorem times_eq_nil {k : Nat} {c : Code} : times k c = [] ↔ k = 0 ∨ c = [] := by
  rw [← List.length_eq_zero_iff, length_times, Nat.mul_eq_zero, List.length_eq_zero_iff]

theorem countCode_eq_nil {n m : Int} {lazy : Bool} {c d : Code} (h : c = [] ↔ d = []) :
    countCode n m lazy c = [] ↔ countCode n m lazy d = [] := by
  unfold countCode
  split
  · split
    · rfl
    split
    · exact iff_of_false (quantCode_ne_nil _ _ _) (quantCode_ne_nil _ _ _)
    · simp only [List.append_eq_nil_iff, quantCode_ne_nil, false_and]
  · split <;> simp only [List.append_eq_nil_iff, times_eq_nil, quantCode_ne_nil, h]

theorem complete_code (t : Node) : t.complete.code = [] ↔ t.code = [] := by
  induction t with
  | empty => rfl
  | item => rfl
  | cat l r ihl ihr => simp only [complete, code, List.append_eq_nil_iff, ihl, ihr]
  | alt => exact iff_of_false (List.cons_ne_nil _ _) (List.cons_ne_nil _ _)
  | quant => exact iff_of_false (quantCode_ne_nil _ _ _) (quantCode_ne_nil _ _ _)
  | count n m lazy x ih => exact countCode_eq_nil ih
  | group => exact iff_of_false (List.cons_ne_nil _ _) (List.cons_ne_nil _ _)
  | look => exact iff_of_false (List.cons_ne_nil _ _) (List.cons_ne_nil _ _)

def Snug : Node → Prop
  | empty => True
  | item _ _ => True
  | cat l r => l.Snug ∧ r.Snug ∧ (r.code = [] ∨ l.Whole)
  | alt jumped l r => l.Whole ∧ r.Snug ∧ (r.code = [] ∨ jumped = true)
  | quant q _ x => x.Snug ∧ (q = .opt ∨ x.Whole)
  | count n m lazy x => x.Snug ∧ ((countCode n m lazy x.code = x.code ∨
      countCode n m lazy x.code = quantCode .opt lazy x.code) ∨ x.Whole)
  | group _ closed x => x.Snug ∧ (closed = true → x.Whole)
  | look _ closed x => x.Snug ∧ (closed = true → x.Whole)

theorem Whole.snug {t : Node} (h : t.Whole) : t.Snug := by
  induction t with
  | empty => trivial
  | item => trivial
  | cat l r ihl ihr => exact ⟨ihl h.1, ihr h.2, .inr h.1⟩
  | alt jumped l r _ ihr => exact ⟨h.2.1, ihr h.2.2, .inr h.1⟩
  | quant q lazy x ih => exact ⟨ih h, .inr h⟩
  | count n m lazy x ih => exact ⟨ih h, .inr h⟩
  | group g closed x ih => exact ⟨ih h.2, fun _ => h.2⟩
  | look isNeg closed x ih => exact ⟨ih h.2, fun _ => h.2⟩

end Node

/-- The compiler and the reading stand at the same place of the pattern. -/
structure Agrees (c : Compiler) (r : Reader) : Prop where
  rest : c.rest = r.rest
  groups : c.groupCounter = r.groups
  flags : c.re.flags = r.flags
  classes : ClassMem c.re r.classes
  behind : NotFull c.re.prog → Behind c.re.prog
  cap : CapOk c.re

/-- From `prog` to `prog'` the code of a tree was emitted, of which the reading is `x`. -/
def Emits (prog prog' : List ReInstr) (x : Node) : Prop :=
  ∃ t : Node, t.complete = x ∧ prog' = prog ++ place prog.length t.code ∧
    (t.code ≠ [] → NotFull prog) ∧ (NotFull prog' → t.Whole) ∧ t.Snug

/-- A parse of the compiler is a reading, and emits the code of what is read. -/
def Follows (f : Compiler → Except Stop Compiler) (g : Reader → Option (Node × Reader)) : Prop :=
  ∀ c r c', Agrees c r → f c = .ok c' →
    ∃ x r', g r = some (x, r') ∧ Agrees c' r' ∧ Emits c.re.prog c'.re.prog x

section Emits

variable {prog prog' prog'' : List ReInstr} {x y : Node}

theorem notFull_left {p q : List ReInstr} (h : NotFull (p ++ q)) : NotFull p := by
  unfold NotFull at *
  grind

theorem Emits.notFull (h : Emits prog prog' x) (hfull : NotFull prog') : NotFull prog := by
  obtain ⟨t, -, rfl, -, -, -⟩ := h
  exact notFull_left hfull

theorem emits_empty (prog : List ReInstr) : Emits prog prog .empty :=
  ⟨.empty, rfl, (List.append_nil prog).symm, fun h => absurd rfl h, fun _ => trivial, trivial⟩

theorem Emits.cat (h : Emits prog prog' x) (k : Emits prog' prog'' y) : Emits prog prog'' (.cat x y) := by
  obtain ⟨t, rfl, hprog, hroom, hwhole, hsnug⟩ := h
  obtain ⟨u, rfl, hprog', hroom', hwhole', hsnug'⟩ := k
  have hlast : u.code = [] ∨ t.Whole := (em (u.code = [])).imp_right fun hne => hwhole (hroom' hne)
  refine ⟨.cat t u, rfl, ?_, fun hne => ?_, fun hfull => ⟨hwhole ?_, hwhole' hfull⟩, hsnug, hsnug', hlast⟩
  · rw [hprog', hprog, Node.code, place_append, List.append_assoc, List.length_append, length_place]
  · by_cases ht : t.code = []
    · rw [Node.code, ht, List.nil_append] at hne
      rw [hprog, ht, place_nil, List.append_nil] at hroom'
      exact hroom' hne
    · exact hroom ht
  · rw [hprog'] at hfull
    exact notFull_left hfull

theorem Emits.behind (h : Emits prog prog' x) (hb : NotFull prog → Behind prog) (hfull : NotFull prog') :
    Behind prog' := by
  have hb := hb (h.notFull hfull)
  obtain ⟨t, -, rfl, -, hwhole, -⟩ := h
  exact behind_place hb (hwhole hfull).closed_code

theorem Emits.code_eq_nil (h : Emits prog prog' x) : prog'.length = prog.length ↔ x.code.length = 0 := by
  obtain ⟨t, rfl, rfl, -, -, -⟩ := h
  rw [List.length_append, length_place, Nat.add_eq_left, List.length_eq_zero_iff, List.length_eq_zero_iff,
    t.complete_code]

theorem emits_item (ins : Instr Empty) (hi : ins.consuming = true ∨ ins.isAnchor = true)
    (hroom : prog.length < maxInstrs - 1) : Emits prog (prog ++ [ins.map Empty.elim]) (.item ins hi) := by
  refine ⟨.item ins hi, rfl, ?_, fun _ => ?_, fun _ => trivial, trivial⟩
  · have hmap : (ins.map Empty.elim : Instr Int).map (absolute prog.length) = ins.map Empty.elim := by
      rw [Instr.map_map]
      exact Instr.map_congr fun a _ => a.elim
    rw [Node.code, place_singleton, hmap]
  · unfold NotFull
    omega

end Emits

structure Keeps (re re' : ReHandle) : Prop where
  flags : re'.flags = re.flags
  classes : re'.classes = re.classes
  nClasses : re'.nClasses = re.nClasses
  cap : CapOk re → CapOk re'

theorem OnlyProg.keeps {re re' : ReHandle} (h : OnlyProg re re') (hcap : CapOk re → CapOk re') : Keeps re re' := by
  refine ⟨?_, ?_, ?_, hcap⟩ <;> rw [h]

theorem Agrees.keep {c : Compiler} {r : Reader} {re : ReHandle} (h : Agrees c r) (hk : Keeps c.re re)
    (hb : NotFull re.prog → Behind re.prog) : Agrees { c with re := re } r where
  rest := h.rest
  groups := h.groups
  flags := hk.flags.trans h.flags
  classes := ⟨fun i hi => hk.classes ▸ h.classes.cells i hi, h.classes.room, hk.nClasses ▸ h.classes.count⟩
  behind := hb
  cap := hk.cap h.cap

theorem Agrees.move {c : Compiler} {r : Reader} (h : Agrees c r) (rest : List UInt8) :
    Agrees { c with rest := rest } { r with rest := rest } :=
  ⟨rfl, h.groups, h.flags, h.classes, h.behind, h.cap⟩

section Atom

variable {c c' : Compiler} {r : Reader}

theorem toOption_ok {α : Type} {x : Except Stop α} {a : α} (h : x = .ok a) : toOption x = some a := by
  rw [h]
  rfl

theorem ok_of_toOption {α : Type} {x : Except Stop α} {a : α} (h : toOption x = some a) : x = .ok a := by
  cases x with
  | error => cases h
  | ok b =>
    cases h
    rfl

theorem Agrees.item (h : Agrees c r) (ins : Instr Empty) (hi : ins.consuming = true ∨ ins.isAnchor = true)
    (he : c.emitOrFail (ins.map Empty.elim) = .ok c') :
    Agrees c' r ∧ Emits c.re.prog c'.re.prog (.item ins hi) := by
  unfold Compiler.emitOrFail at he
  obtain ⟨re, hre, he⟩ := bind_ok he
  cases he
  obtain ⟨hroom, hprog, ho, hcap⟩ := emitOrFail_ok hre
  have hem : Emits c.re.prog re.prog (.item ins hi) := hprog ▸ emits_item ins hi hroom
  exact ⟨h.keep (ho.keeps hcap) (hem.behind h.behind), hem⟩

theorem follows_class : Follows Compiler.parseClass Reader.readClass := by
  intro c r c' h hp
  unfold Compiler.parseClass at hp
  split at hp
  · cases hp
  next hlt =>
  split at hp
  · cases hp
  next hpos =>
  obtain ⟨⟨⟨neg, bytes⟩, rest⟩, hscan, hp⟩ := bind_ok hp
  dsimp only at hp
  obtain ⟨hcount, hroom⟩ := h.classes.count_eq (Int.not_le.1 hlt) hpos
  rw [hcount] at hp
  have hmem := @ClassMem.fill _ _ neg bytes h.classes hroom
  have hout := outside_fillClass { c.re with nClasses := r.classes.length + 1 } r.classes.length neg bytes
  generalize Compiler.fillClass { c.re with nClasses := r.classes.length + 1 } r.classes.length neg bytes = re
    at hmem hout hp
  have hfill : Agrees { c with rest := rest, re := re }
      { r with rest := rest, classes := r.classes ++ [(neg, bytes)] } := by
    refine ⟨rfl, h.groups, ?_, hmem, ?_, ?_⟩
    · rw [hout]
      exact h.flags
    · rw [hout]
      exact h.behind
    · rw [hout]
      exact h.cap
  obtain ⟨hagrees, hem⟩ := hfill.item (.cls r.classes.length) (.inl rfl) hp
  have hprog : re.prog = c.re.prog := by rw [hout]
  refine ⟨.item (.cls r.classes.length) (.inl rfl), _, ?_, hagrees, hprog ▸ hem⟩
  unfold Reader.readClass
  rw [if_neg (Nat.not_le.2 hroom), ← h.rest, toOption_ok hscan]
  rfl

theorem ite_elim {α : Type} {p P : Prop} [Decidable p] {x y : α} {a : α} (h : (if p then x else y) = a)
    (hx : x = a → P) (hy : y = a → P) : P := by grind

def IsItem (ins : ReInstr) : Prop :=
  ∃ (i : Instr Empty) (hi : i.consuming = true ∨ i.isAnchor = true),
    ins = i.map Empty.elim ∧ escapeItem ins = some (.item i hi)

theorem IsItem.of {rest rest' : List UInt8} {ins ins' : ReInstr} (hi : IsItem ins)
    (h : (.ok (ins, rest) : Except Stop (ReInstr × List UInt8)) = .ok (ins', rest')) : IsItem ins' := by
  cases h
  exact hi

theorem isItem_scanEscape {rest rest' : List UInt8} {ins : ReInstr} (h : scanEscape rest = .ok (ins, rest')) :
    IsItem ins := by
  have hchar : ∀ c, IsItem (.char c) := fun c => ⟨.char c, .inl rfl, rfl, rfl⟩
  cases rest with
  | nil => cases h
  | cons esc rest =>
    unfold scanEscape at h
    dsimp only at h
    refine ite_elim h (IsItem.of ⟨.digit, .inl rfl, rfl, rfl⟩) fun h => ?_
    refine ite_elim h (IsItem.of ⟨.ndigit, .inl rfl, rfl, rfl⟩) fun h => ?_
    refine ite_elim h (IsItem.of ⟨.word, .inl rfl, rfl, rfl⟩) fun h => ?_
    refine ite_elim h (IsItem.of ⟨.nword, .inl rfl, rfl, rfl⟩) fun h => ?_
    refine ite_elim h (IsItem.of ⟨.space, .inl rfl, rfl, rfl⟩) fun h => ?_
    refine ite_elim h (IsItem.of ⟨.nspace, .inl rfl, rfl, rfl⟩) fun h => ?_
    refine ite_elim h (IsItem.of ⟨.wordbnd, .inr rfl, rfl, rfl⟩) fun h => ?_
    refine ite_elim h (IsItem.of ⟨.nwordbnd, .inr rfl, rfl, rfl⟩) fun h => ?_
    refine ite_elim h (IsItem.of ⟨.bos, .inr rfl, rfl, rfl⟩) fun h => ?_
    refine ite_elim h (IsItem.of ⟨.eos, .inr rfl, rfl, rfl⟩) fun h => ?_
    refine ite_elim h (IsItem.of (hchar _)) fun h => ?_
    refine ite_elim h (IsItem.of (hchar _)) fun h => ?_
    refine ite_elim h (IsItem.of (hchar _)) fun h => ?_
    refine ite_elim h (IsItem.of (hchar _)) fun h => ?_
    refine ite_elim h (IsItem.of (hchar _)) fun h => ?_
    refine ite_elim h (fun h => ?_) fun h => ite_elim h (fun h => ?_) (IsItem.of (hchar _))
    · split at h
      · exact ite_elim h (IsItem.of (hchar _)) fun h => nomatch h
      · cases h
    · cases h

end Atom

end LsLang.Regex
