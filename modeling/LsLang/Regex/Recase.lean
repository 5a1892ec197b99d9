import LsLang.Regex.Agreed
import LsLang.Lib.Transition
import LsLang.Regex.Progress

/-! Two handles and two texts that differ in the case of letters, and what the VM then does on both. -/

namespace LsLang.Regex

theorem forall_byte {P : UInt8 → Prop} (h : ∀ c ∈ allBytes, P c) (c : UInt8) : P c := h c (mem_allBytes c)

theorem tolower_classes : ∀ c, isdigit (tolower c) = isdigit c ∧ isWordChar (tolower c) = isWordChar c ∧
    isSpaceChar (tolower c) = isSpaceChar c ∧ (tolower c == byte '\n') = (c == byte '\n') ∧
    tolower (tolower c) = tolower c :=
  forall_byte (by decide +kernel)

theorem isdigit_tolower (c : UInt8) : isdigit (tolower c) = isdigit c := (tolower_classes c).1

theorem isWordChar_tolower (c : UInt8) : isWordChar (tolower c) = isWordChar c := (tolower_classes c).2.1

theorem isSpaceChar_tolower (c : UInt8) : isSpaceChar (tolower c) = isSpaceChar c := (tolower_classes c).2.2.1

theorem tolower_newline (c : UInt8) : (tolower c == byte '\n') = (c == byte '\n') := (tolower_classes c).2.2.2.1

theorem eq_of_tolower {α : Type} {f : UInt8 → α} (hf : ∀ c, f (tolower c) = f c) {c c' : UInt8}
    (h : tolower c' = tolower c) : f c' = f c := by
  rw [← hf c', h, hf c]

/-! When two handles and two texts are twins. -/

section Fold

variable {re re' : ReHandle} {text text' : List UInt8}

/-- The texts differ in the case of letters only. -/
abbrev SameLetters (text text' : List UInt8) : Prop := text'.map tolower = text.map tolower

theorem SameLetters.length (h : SameLetters text text') : text'.length = text.length := by
  have := congrArg List.length h
  grind

theorem SameLetters.byteAt (h : SameLetters text text') (pos : Nat) :
    tolower (byteAt text' pos) = tolower (byteAt text pos) := by
  have hget : ∀ l : List UInt8, tolower (Regex.byteAt l pos) = (l.map tolower).getD pos 0 := by
    intro l
    unfold Regex.byteAt
    rw [List.getD_eq_getElem?_getD, List.getD_eq_getElem?_getD, List.getElem?_map]
    cases l[pos]? <;> rfl
  rw [hget, hget, h]

theorem anchorHolds_sameLetters (hf : re'.flags = re.flags) (h : SameLetters text text') (pos : Nat) (ins : ReInstr) :
    re'.anchorHolds text' pos ins = re.anchorHolds text pos ins := by
  have hnl : ∀ p, (byteAt text' p == byte '\n') = (byteAt text p == byte '\n') := fun p =>
    eq_of_tolower (f := (· == byte '\n')) tolower_newline (h.byteAt p)
  have hword : ∀ p, isWordChar (byteAt text' p) = isWordChar (byteAt text p) := fun p =>
    eq_of_tolower isWordChar_tolower (h.byteAt p)
  have hm : re'.multiline = re.multiline := congrArg (Nat.testBit · 1) hf
  cases ins <;> simp only [ReHandle.anchorHolds, hnl, hword, hm, h.length]

theorem matchChar_sameLetters {ins ins' : ReInstr} (hins : ins'.lower = ins.lower) (hf : re'.flags = re.flags)
    (hi : re.ignorecase = true) {ch ch' : UInt8} (hch : tolower ch' = tolower ch)
    (hcls : ∀ id, ins = .cls id ∨ ins = .ncls id → re'.classTest id (tolower ch) = re.classTest id (tolower ch)) :
    re'.matchChar ins' ch' = re.matchChar ins ch := by
  have hi' : re'.ignorecase = true := (congrArg (Nat.testBit · 0) hf).trans hi
  have hd : re'.dotall = re.dotall := congrArg (Nat.testBit · 2) hf
  rcases Instr.eq_of_lower hins with rfl | ⟨c, c', rfl, rfl, hc⟩
  · cases ins' with
    | char c => rw [ReHandle.matchChar_char, ReHandle.matchChar_char, hi, hi', if_pos rfl, if_pos rfl, hch]
    | any =>
      have : (ch' != byte '\n') = (ch != byte '\n') := congrArg not (eq_of_tolower (f := (· == byte '\n')) tolower_newline hch)
      rw [ReHandle.matchChar_any, ReHandle.matchChar_any, hd, this]
    | cls id =>
      rw [ReHandle.matchChar_cls, ReHandle.matchChar_cls, hi, hi', if_pos rfl, if_pos rfl, hch, hcls id (.inl rfl)]
    | ncls id =>
      rw [ReHandle.matchChar_ncls, ReHandle.matchChar_ncls, hi, hi', if_pos rfl, if_pos rfl, hch, hcls id (.inr rfl)]
    | digit => exact eq_of_tolower isdigit_tolower hch
    | ndigit => exact congrArg not (eq_of_tolower isdigit_tolower hch)
    | word => exact eq_of_tolower isWordChar_tolower hch
    | nword => exact congrArg not (eq_of_tolower isWordChar_tolower hch)
    | space => exact eq_of_tolower isSpaceChar_tolower hch
    | nspace => exact congrArg not (eq_of_tolower isSpaceChar_tolower hch)
    | _ => rfl
  · rw [ReHandle.matchChar_char, ReHandle.matchChar_char, hi, hi', if_pos rfl, if_pos rfl, hch, hc]

structure SameProgram (re re' : ReHandle) : Prop where
  prog : re'.prog.map Instr.lower = re.prog.map Instr.lower
  flags : re'.flags = re.flags
  nGroups : re'.nGroups = re.nGroups

/-- The class test at the instruction has one answer for both handles. -/
def sameTest (re re' : ReHandle) (pc : Nat) (ch : UInt8) : Bool :=
  match re.prog.getD pc .matched with
  | .cls id | .ncls id => re'.classTest id (tolower ch) == re.classTest id (tolower ch)
  | _ => true

theorem sameTest_self (pc : Nat) (ch : UInt8) : sameTest re re pc ch = true := by
  unfold sameTest
  split <;> simp

theorem SameProgram.twins (h : SameProgram re re') (hi : re.ignorecase = true) (ht : SameLetters text text') :
    Twins (sameTest re re') re re' text text' := by
  refine ⟨h.prog, ?_, ht.length, fun pos ins => anchorHolds_sameLetters h.flags ht pos ins, fun pc pos _ hsame => ?_⟩
  · unfold ReHandle.slotCount
    rw [h.nGroups]
  · have hget : ∀ l : List ReInstr, (l.getD pc .matched).lower = (l.map Instr.lower).getD pc .matched := by
      intro l
      rw [List.getD_eq_getElem?_getD, List.getD_eq_getElem?_getD, List.getElem?_map]
      cases l[pc]? <;> rfl
    have hlower : (re'.prog.getD pc .matched).lower = (re.prog.getD pc .matched).lower := by rw [hget, hget, h.prog]
    refine matchChar_sameLetters hlower h.flags hi (ht.byteAt pos) fun id hid => ?_
    unfold sameTest at hsame
    rcases hid with hid | hid
    · rw [hid] at hsame
      exact beq_iff_eq.1 hsame
    · rw [hid] at hsame
      exact beq_iff_eq.1 hsame

theorem SameProgram.refl (re : ReHandle) : SameProgram re re := ⟨rfl, rfl, rfl⟩

/-- The case of the text alone is seen by no run. -/
theorem vmExecRange_sameLetters (hi : re.ignorecase = true) (ht : SameLetters text text') (start : Nat) (vis : Visited) :
    vmExecRange re text' (nestedRuns re text') start 0 vis = vmExecRange re text (nestedRuns re text) start 0 vis := by
  have hover : ∀ {text text' : List UInt8}, SameLetters text text' → ∀ r,
      vmExecRange re text (nestedRuns re text) start 0 vis = some r →
        vmExecRange re text' (nestedRuns re text') start 0 vis = some r := by
    intro text text' ht r hr
    have hall : ∀ pc pos, pos < text.length → sameTest re re pc (byteAt text pos) = true := fun pc _ _ => sameTest_self pc _
    rw [← agreedRun_eq hall] at hr
    exact agreedRun_both ((SameProgram.refl re).twins hi ht) hr
  exact Option.ext fun r => ⟨hover ht.symm r, hover ht r⟩

end Fold

/-! Patterns that differ in the case of their literals and class members, and the programs they compile to. -/

open LsLang.Lib

def otherCase (c : UInt8) : UInt8 :=
  if byte 'A' ≤ c && c ≤ byte 'Z' then c + 32
  else if byte 'a' ≤ c && c ≤ byte 'z' then c - 32
  else c

def Switched (c c' : UInt8) : Prop := c' = c ∨ c' = otherCase c

def SwitchedEnds (lo hi lo' hi' : UInt8) : Prop := (lo' = lo ∧ hi' = hi) ∨ (lo' = otherCase lo ∧ hi' = otherCase hi)

/-- Where the rest of a pattern starts: outside a class, or in one, at its first member or behind it. -/
inductive Place
  | outside
  | inClass (first : Bool)

/-- The pattern with some of its literals, class members and ranges in the other case. -/
inductive Recased : Place → List UInt8 → List UInt8 → Prop
  | nil : Recased .outside [] []
  | literal {c c' rest rest'} : Switched c c' → c ≠ byte '\\' → c ≠ byte '(' → c ≠ byte '[' →
      Recased .outside rest rest' → Recased .outside (c :: rest) (c' :: rest')
  /-- An escape that has a meaning keeps its letter. -/
  | escape {esc esc' rest rest'} : esc ≠ byte 'x' →
      (esc' = esc ∨ Switched esc esc' ∧
        ∀ r, scanEscape (esc :: r) = .ok (.char esc, r) ∧ scanEscape (esc' :: r) = .ok (.char esc', r)) →
      Recased .outside rest rest' → Recased .outside (byte '\\' :: esc :: rest) (byte '\\' :: esc' :: rest')
  | hex {hi lo rest rest'} : Recased .outside rest rest' →
      Recased .outside (byte '\\' :: byte 'x' :: hi :: lo :: rest) (byte '\\' :: byte 'x' :: hi :: lo :: rest')
  | group {rest rest'} : rest.head? ≠ some (byte '?') → Recased .outside rest rest' →
      Recased .outside (byte '(' :: rest) (byte '(' :: rest')
  | marked {kind rest rest'} : kind = byte ':' ∨ kind = byte '=' ∨ kind = byte '!' → Recased .outside rest rest' →
      Recased .outside (byte '(' :: byte '?' :: kind :: rest) (byte '(' :: byte '?' :: kind :: rest')
  | named {name rest rest'} : byte '>' ∉ name → Recased .outside rest rest' →
      Recased .outside (byte '(' :: byte '?' :: byte '<' :: (name ++ byte '>' :: rest))
        (byte '(' :: byte '?' :: byte '<' :: (name ++ byte '>' :: rest'))
  | flags {fl fs rest rest'} : fl = byte 'i' ∨ fl = byte 'm' ∨ fl = byte 's' → byte ')' ∉ fs →
      Recased .outside rest rest' →
      Recased .outside (byte '(' :: byte '?' :: fl :: (fs ++ byte ')' :: rest))
        (byte '(' :: byte '?' :: fl :: (fs ++ byte ')' :: rest'))
  | openClass {rest rest'} : rest.head? ≠ some (byte '^') → Recased (.inClass true) rest rest' →
      Recased .outside (byte '[' :: rest) (byte '[' :: rest')
  | openNegated {rest rest'} : Recased (.inClass true) rest rest' →
      Recased .outside (byte '[' :: byte '^' :: rest) (byte '[' :: byte '^' :: rest')
  | close {rest rest'} : Recased .outside rest rest' →
      Recased (.inClass false) (byte ']' :: rest) (byte ']' :: rest')
  | classEscape {first esc esc' rest rest'} :
      (esc' = esc ∨ Switched esc esc' ∧ classEscape esc = [esc] ∧ classEscape esc' = [esc']) →
      Recased (.inClass false) rest rest' →
      Recased (.inClass first) (byte '\\' :: esc :: rest) (byte '\\' :: esc' :: rest')
  | range {first lo lo' hi hi' rest rest'} : IsMember first lo → hi ≠ byte ']' → hi ≠ byte '\\' →
      SwitchedEnds lo hi lo' hi' → Recased (.inClass false) rest rest' →
      Recased (.inClass first) (lo :: byte '-' :: hi :: rest) (lo' :: byte '-' :: hi' :: rest')
  | rangeEscaped {first lo lo' hi hi' rest rest'} : IsMember first lo → SwitchedEnds lo hi lo' hi' →
      Recased (.inClass false) rest rest' →
      Recased (.inClass first) (lo :: byte '-' :: byte '\\' :: hi :: rest)
        (lo' :: byte '-' :: byte '\\' :: hi' :: rest')
  | member {first c c' rest rest'} : IsMember first c →
      (∀ hi r, rest = byte '-' :: hi :: r → hi = byte ']') → Switched c c' → Recased (.inClass false) rest rest' →
      Recased (.inClass first) (c :: rest) (c' :: rest')

theorem tolower_otherCase : ∀ c, tolower (otherCase c) = tolower c := forall_byte (by decide +kernel)

def NoLetter (b : UInt8) : Prop := ∀ c, otherCase c = b ↔ c = b

theorem otherCase_otherCase : ∀ c, otherCase (otherCase c) = c := forall_byte (by decide +kernel)

theorem noLetter_of {b : UInt8} (h : otherCase b = b) : NoLetter b := fun c =>
  ⟨fun hc => by rw [← otherCase_otherCase c, hc, h], fun hc => by rw [hc, h]⟩

section Switch

variable {c c' : UInt8}

theorem Switched.tolower (h : Switched c c') : Regex.tolower c' = Regex.tolower c := by
  rcases h with rfl | rfl
  · rfl
  · exact tolower_otherCase c

theorem Switched.iff (h : Switched c c') {b : UInt8} (hb : NoLetter b) : c' = b ↔ c = b := by
  rcases h with rfl | rfl
  · exact Iff.rfl
  · exact hb c

end Switch

/-- Both counts are the same, or the last class has set a high bit of both. -/
def SameCount (n n' : Nat) : Prop :=
  (n' = n ∧ n ≤ maxClasses) ∨ ((n.testBit 6 ∧ n < 2 ^ 32) ∧ (n'.testBit 6 ∧ n' < 2 ^ 32))

/-- The handles under construction agree in what an instruction shows, up to the case of literals. -/
structure Alike (re re' : ReHandle) : Prop where
  prog : re'.prog.map Instr.lower = re.prog.map Instr.lower
  flags : re'.flags = re.flags
  count : SameCount re.nClasses re'.nClasses

/-! Each edit of the program keeps two handles alike. -/

section Edits

variable {re re' : ReHandle} {ins ins' : ReInstr}

theorem Alike.length (h : Alike re re') : re'.prog.length = re.prog.length := by
  have := congrArg List.length h.prog
  grind

theorem Alike.emit (h : Alike re re') (hins : ins'.lower = ins.lower) :
    Alike (Regex.emit re ins).1 (Regex.emit re' ins').1 ∧ (Regex.emit re' ins').2 = (Regex.emit re ins).2 := by
  unfold Regex.emit
  rw [h.length]
  by_cases hfull : maxInstrs - 1 ≤ re.prog.length
  · rw [if_pos hfull, if_pos hfull]
    exact ⟨⟨h.prog, h.flags, h.count⟩, rfl⟩
  · rw [if_neg hfull, if_neg hfull]
    refine ⟨⟨?_, h.flags, h.count⟩, rfl⟩
    dsimp only
    rw [List.map_append, List.map_append, h.prog, List.map_singleton, List.map_singleton, hins]

theorem Alike.emitOrFail (h : Alike re re') (hins : ins'.lower = ins.lower) :
    Lockstep Alike (emitOrFail re ins) (emitOrFail re' ins') := by
  have hemit := (h.emit hins).1
  unfold Regex.emitOrFail
  rcases he : Regex.emit re ins with ⟨d, _ | i⟩
  · exact .left _
  · rcases he' : Regex.emit re' ins' with ⟨d', _ | i'⟩
    · exact .right _
    · rw [he, he'] at hemit
      exact .ok hemit

theorem Alike.reserve (h : Alike re re') (msg : String) (extra : Nat) :
    Lockstep Alike (reserveOr msg re extra) (reserveOr msg re' extra) := by
  intro d d' hd hd'
  obtain ⟨-, hp, ho, -⟩ := reserveOr_ok hd
  obtain ⟨-, hp', ho', -⟩ := reserveOr_ok hd'
  rw [ho, ho']
  exact ⟨by rw [hp, hp', h.prog], h.flags, h.count⟩

theorem fixupAfterShift_lower (prog : List ReInstr) (oldPos shift : Nat) :
    (fixupAfterShift prog oldPos shift).map Instr.lower = fixupAfterShift (prog.map Instr.lower) oldPos shift := by
  unfold fixupAfterShift
  refine List.ext_getElem? fun i => ?_
  grind [Option.map_some, Instr.lower_map, List.getElem?_map, List.getElem?_mapIdx]

theorem Alike.openSlot (h : Alike re re') (start : Nat) : Lockstep Alike (openSlot re start) (openSlot re' start) := by
  intro d d' hd hd'
  unfold Regex.openSlot at hd hd'
  split at hd
  · cases hd
  split at hd'
  · cases hd'
  cases hd
  cases hd'
  refine ⟨?_, h.flags, h.count⟩
  dsimp only
  rw [fixupAfterShift_lower, fixupAfterShift_lower]
  simp only [List.map_append, List.map_cons, List.map_take, List.map_drop, h.prog]

theorem Alike.copyBody (h : Alike re re') (src len : Nat) :
    Lockstep Alike (copyBody re src len) (copyBody re' src len) := by
  intro d d' hd hd'
  unfold Regex.copyBody at hd hd'
  split at hd
  · cases hd
  split at hd'
  · cases hd'
  cases hd
  cases hd'
  refine ⟨?_, h.flags, h.count⟩
  have hbody : ∀ (l : List ReInstr) (f : Nat → Nat),
      (l.map fun ins => ins.map f).map Instr.lower = (l.map Instr.lower).map fun ins => ins.map f := by
    intro l f
    rw [List.map_map, List.map_map]
    exact congrArg (List.map · l) (funext fun ins => Instr.lower_map f ins)
  simp only [List.map_append, hbody, List.map_take, List.map_drop, h.prog, h.length]

theorem Alike.setInstr (h : Alike re re') (i : Nat) (hins : ins'.lower = ins.lower) :
    Alike (setInstr re i ins) (setInstr re' i ins') := by
  refine ⟨?_, h.flags, h.count⟩
  unfold Regex.setInstr
  dsimp only
  rw [List.map_set, List.map_set, h.prog, hins]

theorem Alike.wrap (h : Alike re re') (msg : String) (start : Nat) {f g : ReHandle → Except Stop ReHandle}
    (hfg : ∀ d d', Alike d d' → Lockstep Alike (f d) (g d')) :
    Lockstep Alike (do
      let re ← reserveOr msg re 1
      let re ← Regex.openSlot re start
      f re) (do
      let re ← reserveOr msg re' 1
      let re ← Regex.openSlot re start
      g re) :=
  (h.reserve msg 1).bind fun _ _ h => (h.openSlot start).bind hfg

theorem lockstep_guard {p : Prop} [Decidable p] {msg : String} {α β : Type} {R : α → β → Prop} {x : Except Stop α}
    {y : Except Stop β} (h : Lockstep R x y) :
    Lockstep R (if p then (do fail msg; x) else x) (if p then (do fail msg; y) else y) :=
  .ite Iff.rfl (fun _ => .left _) fun _ => h

theorem Alike.applyQuantifier (h : Alike re re') (start : Nat) (q : Quantifier) (lazy : Bool) :
    Lockstep Alike (applyQuantifier re start q lazy) (applyQuantifier re' start q lazy) := by
  cases q with
  | opt =>
    unfold Regex.applyQuantifier
    rw [h.length]
    exact lockstep_guard (h.wrap _ _ fun d d' hd => .ok (hd.length ▸ hd.setInstr start rfl))
  | star =>
    exact h.wrap _ _ fun d d' hd => (hd.emitOrFail rfl).bind fun e e' he => .ok (he.length ▸ he.setInstr start rfl)
  | plus =>
    unfold Regex.applyQuantifier
    dsimp only
    rw [h.length]
    exact (h.emitOrFail rfl).bind fun d d' hd => .ok (hd.length ▸ hd.setInstr _ rfl)

theorem Alike.mandatoryCopies (src len k : Nat) (h : Alike re re') :
    Lockstep Alike (mandatoryCopies src len k re) (mandatoryCopies src len k re') := by
  induction k generalizing re re' with
  | zero => exact .ok h
  | succ k ih =>
    unfold Regex.mandatoryCopies
    rw [h.length]
    exact lockstep_guard ((h.reserve _ _).bind fun d d' hd => (hd.copyBody src len).bind fun e e' he => ih he)

theorem Alike.optionalCopies (src len : Nat) (lazy : Bool) (k : Nat) (h : Alike re re') :
    Lockstep Alike (optionalCopies src len lazy k re) (optionalCopies src len lazy k re') := by
  induction k generalizing re re' with
  | zero => exact .ok h
  | succ k ih =>
    unfold Regex.optionalCopies
    rw [h.length]
    refine lockstep_guard ((h.reserve _ _).bind fun d d' hd => ?_)
    rw [hd.length]
    exact (hd.copyBody src len).bind fun e e' he => (he.applyQuantifier _ .opt lazy).bind fun f f' hf => ih hf

theorem Alike.applyCount (h : Alike re re') (start stop : Nat) (n m : Int) (lazy : Bool) :
    Lockstep Alike (applyCount re start stop n m lazy) (applyCount re' start stop n m lazy) := by
  unfold Regex.applyCount
  dsimp only
  refine .ite Iff.rfl (fun _ => .ite Iff.rfl (fun _ => .ok ⟨?_, h.flags, h.count⟩) fun _ => .ite Iff.rfl
    (fun _ => h.applyQuantifier _ _ _) fun _ => ?_) fun _ => ?_
  · dsimp only
    rw [List.map_take, List.map_take, h.prog]
  · exact (h.applyQuantifier _ _ _).bind fun d d' hd => Alike.optionalCopies _ _ _ _ hd
  · refine (Alike.mandatoryCopies _ _ _ h).bind fun d d' hd => ?_
    refine .ite Iff.rfl (fun _ => (hd.reserve _ _).bind fun e e' he => ?_) fun _ => Alike.optionalCopies _ _ _ _ hd
    rw [he.length]
    exact (he.copyBody _ _).bind fun f f' hf => hf.applyQuantifier _ _ _

end Edits

end LsLang.Regex
