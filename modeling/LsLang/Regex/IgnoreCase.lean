import LsLang.Regex.Vm
import LsLang.Regex.Recase

/-! Patterns that differ in the case of their letters compile to one program, and under `IGNORECASE` to one meaning,
where their classes agree. -/

namespace LsLang.Regex

open LsLang.Lib

/-! What a recased rest starts with. -/

section Heads

variable {c : UInt8} {l l' : List UInt8}

theorem Recased.length {p : Place} (h : Recased p l l') : l'.length = l.length := by
  induction h <;> simp_all

theorem Recased.cons (h : Recased .outside (c :: l) l') : ∃ c' t, l' = c' :: t ∧
    ((c ≠ byte '\\' ∧ c ≠ byte '(' ∧ c ≠ byte '[' ∧ Switched c c' ∧ Recased .outside l t) ∨
      (c' = c ∧ (c = byte '\\' ∨ c = byte '(' ∨ c = byte '['))) := by
  cases h with
  | literal hs h₁ h₂ h₃ hr => grind
  | escape | hex => grind
  | group | marked | named | flags => grind
  | openClass | openNegated => grind

theorem Recased.nil_iff (h : Recased .outside l l') : l' = [] ↔ l = [] := by
  rw [← List.length_eq_zero_iff, ← List.length_eq_zero_iff, h.length]

theorem Recased.front (h : Recased .outside l l') {b : UInt8} (hb : NoLetter b) :
    l'.head? = some b ↔ l.head? = some b := by
  cases l with
  | nil => rw [h.nil_iff.2 rfl]
  | cons c l =>
    obtain ⟨c', t, rfl, ⟨-, -, -, hs, -⟩ | ⟨rfl, -⟩⟩ := h.cons
    · rw [List.head?_cons, List.head?_cons, Option.some.injEq, Option.some.injEq, hs.iff hb]
    · rfl

def Passed (b : UInt8) : Prop := NoLetter b ∧ b ≠ byte '\\' ∧ b ≠ byte '(' ∧ b ≠ byte '['

theorem Recased.pass {b : UInt8} (hb : Passed b) (h : Recased .outside (b :: l) l') :
    ∃ t, l' = b :: t ∧ Recased .outside l t := by
  obtain ⟨hn, h₁, h₂, h₃⟩ := hb
  obtain ⟨c', t, rfl, ⟨-, -, -, hs, hr⟩ | ⟨-, h | h | h⟩⟩ := h.cons
  · exact ⟨t, by rw [(hs.iff hn).2 rfl], hr⟩
  · exact absurd h h₁
  · exact absurd h h₂
  · exact absurd h h₃

end Heads

theorem passed_of {b : UInt8} (h : otherCase b = b)
    (h' : b ≠ byte '\\' ∧ b ≠ byte '(' ∧ b ≠ byte '[') : Passed b :=
  ⟨noLetter_of h, h'⟩

theorem passed_close : Passed (byte ')') := passed_of rfl (by decide)
theorem passed_bar : Passed (byte '|') := passed_of rfl (by decide)
theorem passed_question : Passed (byte '?') := passed_of rfl (by decide)
theorem passed_comma : Passed (byte ',') := passed_of rfl (by decide)
theorem passed_brace : Passed (byte '}') := passed_of rfl (by decide)
theorem passed_openBrace : Passed (byte '{') := passed_of rfl (by decide)

/-! The scanners read the same from both, and leave recased rests. -/

section Scan

variable {l l' : List UInt8}

def Read {α : Type} (p p' : α × List UInt8) : Prop := p'.1 = p.1 ∧ Recased .outside p.2 p'.2

theorem Recased.front_cases (h : Recased .outside l l') {b : UInt8} (hb : Passed b) :
    (∃ t t', l = b :: t ∧ l' = b :: t' ∧ Recased .outside t t') ∨ (l.head? ≠ some b ∧ l'.head? ≠ some b) := by
  by_cases hl : l.head? = some b
  · obtain ⟨t, rfl⟩ := List.head?_eq_some_iff.1 hl
    obtain ⟨t', rfl, ht⟩ := h.pass hb
    grind
  · exact .inr ⟨hl, mt (h.front hb.1).1 hl⟩

def onByte {α : Type} (b : UInt8) (f : List UInt8 → α) (x : α) : List UInt8 → α
  | ch :: rest => if ch = b then f rest else x
  | [] => x

theorem onByte_cons {α : Type} (b : UInt8) (f : List UInt8 → α) (x : α) (rest : List UInt8) :
    onByte b f x (b :: rest) = f rest := if_pos rfl

theorem onByte_other {α : Type} {b : UInt8} (f : List UInt8 → α) (x : α) (hl : l.head? ≠ some b) : onByte b f x l = x := by
  cases l with
  | nil => rfl
  | cons ch l => exact if_neg fun he => hl (congrArg some he)

theorem Recased.onByte {α β : Type} {R : α → β → Prop} (h : Recased .outside l l') {b : UInt8} (hb : Passed b)
    {f : List UInt8 → Except Stop α} {g : List UInt8 → Except Stop β} {x : Except Stop α} {y : Except Stop β}
    (hfg : ∀ t t', Recased .outside t t' → Lockstep R (f t) (g t')) (hxy : Lockstep R x y) :
    Lockstep R (onByte b f x l) (onByte b g y l') := by
  rcases h.front_cases hb with ⟨t, t', rfl, rfl, ht⟩ | ⟨hl, hl'⟩
  · rw [onByte_cons, onByte_cons]
    exact hfg t t' ht
  grind [onByte_other]

theorem Recased.scanLazy (h : Recased .outside l l') : Read (scanLazy l) (scanLazy l') := by
  rcases h.front_cases passed_question with ⟨t, t', rfl, rfl, ht⟩ | ⟨hl, hl'⟩
  · exact ⟨rfl, ht⟩
  · have hkeep : ∀ {l : List UInt8}, l.head? ≠ some (byte '?') → Regex.scanLazy l = (false, l) := by
      intro l hl
      cases l with
      | nil => rfl
      | cons ch l => exact if_neg fun he => hl (congrArg some he)
    rw [hkeep hl, hkeep hl']
    exact ⟨rfl, h⟩

theorem otherCase_digit : ∀ c, isdigit c = true → otherCase c = c := forall_byte (by decide +kernel)

theorem isdigit_otherCase : ∀ c, isdigit (otherCase c) = isdigit c := forall_byte (by decide +kernel)

theorem Recased.scanDigits (h : Recased .outside l l') (n : Int) : Read (scanDigits l n) (scanDigits l' n) := by
  induction l generalizing l' n with
  | nil =>
    rw [h.nil_iff.2 rfl]
    exact ⟨rfl, .nil⟩
  | cons c l ih =>
    obtain ⟨c', t, rfl, hc⟩ := h.cons
    have hsame : isdigit c' = isdigit c := by
      rcases hc with ⟨-, -, -, rfl | rfl, -⟩ | ⟨rfl, -⟩
      · rfl
      · exact isdigit_otherCase c
      · rfl
    by_cases hd : isdigit c = true
    · have heq : c' = c ∧ Recased .outside l t := by
        rcases hc with ⟨-, -, -, rfl | rfl, hr⟩ | ⟨-, rfl | rfl | rfl⟩
        · exact ⟨rfl, hr⟩
        · exact ⟨otherCase_digit c hd, hr⟩
        · exact absurd hd (by decide)
        · exact absurd hd (by decide)
        · exact absurd hd (by decide)
      obtain ⟨rfl, hr⟩ := heq
      unfold Regex.scanDigits
      grind
    · unfold Regex.scanDigits
      rw [if_neg hd, if_neg (hsame ▸ hd)]
      exact ⟨rfl, h⟩

theorem Recased.checkCount (h : Recased .outside l l') (n m : Int) :
    Lockstep Read (checkCount n m l) (checkCount n m l') := by
  obtain ⟨hlazy, hrest⟩ := h.scanLazy
  unfold Regex.checkCount
  refine .ite Iff.rfl (fun _ => .left _) fun _ => .ite Iff.rfl (fun _ => .left _) fun _ => .ok ⟨?_, hrest⟩
  dsimp only
  rw [hlazy]

def scanUpper (rest : List UInt8) : Int × List UInt8 :=
  match rest with
  | ch :: _ => if ch = byte '}' then (-1, rest) else scanDigits rest 0
  | [] => (-1, [])

def closeCount (n m : Int) : List UInt8 → Except Stop (Count × List UInt8) :=
  onByte (byte '}') (checkCount n m) (fail "invalid \x7bn,m\x7d")

theorem scanCount_eq (rest : List UInt8) : scanCount rest =
    onByte (byte ',') (fun t => closeCount (scanDigits rest 0).1 (scanUpper t).1 (scanUpper t).2)
      (closeCount (scanDigits rest 0).1 (scanDigits rest 0).1 (scanDigits rest 0).2) (scanDigits rest 0).2 := by
  unfold scanCount closeCount
  generalize scanDigits rest 0 = p
  rcases p with ⟨n, - | ⟨ch, tail⟩⟩
  · rfl
  dsimp only
  by_cases hcomma : ch = byte ','
  · subst hcomma
    rw [onByte_cons]
    simp only [if_true]
    unfold scanUpper
    cases tail with
    | nil => rfl
    | cons c tail =>
      dsimp only
      by_cases hbrace : c = byte '}'
      · subst hbrace
        rfl
      · simp only [if_neg hbrace]
        rcases scanDigits (c :: tail) 0 with ⟨m, - | ⟨ch, rest⟩⟩ <;> rfl
  · rw [onByte_other _ _ (show (ch :: tail).head? ≠ some (byte ',') from fun he => hcomma (Option.some.inj he))]
    simp only [if_neg hcomma, Bool.false_eq_true, if_false]
    rfl

theorem Recased.scanUpper (h : Recased .outside l l') : Read (scanUpper l) (scanUpper l') := by
  rcases h.front_cases passed_brace with ⟨t, t', rfl, rfl, ht⟩ | ⟨hl, hl'⟩
  · exact ⟨rfl, h⟩
  · by_cases hnil : l = []
    · subst hnil
      rw [h.nil_iff.2 rfl]
      exact ⟨rfl, .nil⟩
    · have hdigits : ∀ {l : List UInt8}, l ≠ [] → l.head? ≠ some (byte '}') →
          Regex.scanUpper l = Regex.scanDigits l 0 := by
        intro l hne hl
        cases l with
        | nil => exact absurd rfl hne
        | cons ch l => exact if_neg fun he => hl (congrArg some he)
      rw [hdigits hnil hl, hdigits (mt h.nil_iff.1 hnil) hl']
      exact h.scanDigits 0

theorem Recased.closeCount (h : Recased .outside l l') (n m : Int) :
    Lockstep Read (closeCount n m l) (closeCount n m l') :=
  h.onByte passed_brace (fun _ _ ht => ht.checkCount n m) (.left _)

theorem Recased.scanCount (h : Recased .outside l l') : Lockstep Read (scanCount l) (scanCount l') := by
  obtain ⟨hn, hrest⟩ := h.scanDigits 0
  rw [scanCount_eq, scanCount_eq, hn]
  refine hrest.onByte passed_comma (fun t t' ht => ?_) (hrest.closeCount _ _)
  obtain ⟨hm, hrest'⟩ := ht.scanUpper
  rw [hm]
  exact hrest'.closeCount _ _

theorem SwitchedEnds.switched {lo hi lo' hi' : UInt8} (h : SwitchedEnds lo hi lo' hi') :
    Switched lo lo' ∧ Switched hi hi' :=
  h.elim (fun ⟨h, k⟩ => ⟨.inl h, .inl k⟩) fun ⟨h, k⟩ => ⟨.inr h, .inr k⟩

theorem noLetter_bracket : NoLetter (byte ']') := noLetter_of rfl
theorem noLetter_backslash : NoLetter (byte '\\') := noLetter_of rfl
theorem noLetter_dash : NoLetter (byte '-') := noLetter_of rfl

theorem IsMember.switched {first : Bool} {c c' : UInt8} (h : IsMember first c) (hs : Switched c c') : IsMember first c' :=
  ⟨fun ⟨hb, hf⟩ => h.1 ⟨(hs.iff noLetter_bracket).1 hb, hf⟩, fun hb => h.2 ((hs.iff noLetter_backslash).1 hb)⟩

theorem Recased.noRange (h : Recased (.inClass false) l l')
    (hr : ∀ hi r, l = byte '-' :: hi :: r → hi = byte ']') (hi : UInt8) (r : List UInt8)
    (hl' : l' = byte '-' :: hi :: r) : hi = byte ']' := by
  cases h with
  | close => grind
  | classEscape => grind
  | range _ _ _ hs =>
    obtain rfl := (hs.switched.1.iff noLetter_dash).1 (List.cons.inj hl').1
    grind
  | rangeEscaped _ hs =>
    obtain rfl := (hs.switched.1.iff noLetter_dash).1 (List.cons.inj hl').1
    grind
  | member _ _ hs hnext =>
    obtain rfl := (hs.iff noLetter_dash).1 (List.cons.inj hl').1
    obtain rfl := (List.cons.inj hl').2
    cases hnext with
    | close => rfl
    | classEscape => grind
    | range hm => exact absurd ⟨hr _ _ rfl, rfl⟩ hm.1
    | rangeEscaped hm => exact absurd ⟨hr _ _ rfl, rfl⟩ hm.1
    | member hm => exact absurd ⟨hr _ _ rfl, rfl⟩ hm.1

theorem Recased.scanClass {first : Bool} (h : Recased (.inClass first) l l') :
    Lockstep (fun p p' => Recased .outside p.2 p'.2) (scanClass first l) (scanClass first l') := by
  generalize hp : Place.inClass first = p at h
  induction h generalizing first with
  | close hr =>
    cases hp
    rw [Regex.scanClass.eq_def, Regex.scanClass.eq_def]
    exact .ok hr
  | classEscape _ _ ih =>
    cases hp
    rw [scanClass_escape, scanClass_escape]
    exact (ih rfl).bind fun _ _ hr => .ok hr
  | range hm hb hs hends _ ih =>
    cases hp
    obtain ⟨hlo, hhi⟩ := hends.switched
    rw [scanClass_range hm hb hs, scanClass_range (hm.switched hlo) (mt (hhi.iff noLetter_bracket).1 hb)
      (mt (hhi.iff noLetter_backslash).1 hs)]
    exact Lockstep.bind (R := fun _ _ => True) (fun _ _ _ _ => trivial) fun _ _ _ => (ih rfl).bind fun _ _ hr => .ok hr
  | rangeEscaped hm hends _ ih =>
    cases hp
    rw [scanClass_rangeEscaped hm, scanClass_rangeEscaped (hm.switched hends.switched.1)]
    exact Lockstep.bind (R := fun _ _ => True) (fun _ _ _ _ => trivial) fun _ _ _ => (ih rfl).bind fun _ _ hr => .ok hr
  | member hm hr hs hrest ih =>
    cases hp
    rw [scanClass_member hm hr, scanClass_member (hm.switched hs) (hrest.noRange hr)]
    exact (ih rfl).bind fun _ _ hr => .ok hr
  | _ => cases hp

theorem Recased.classHead {first : Bool} (h : Recased (.inClass first) l l') :
    ∃ c t c' t', l = c :: t ∧ l' = c' :: t' ∧ Switched c c' := by
  cases h with
  | close | classEscape => exact ⟨_, _, _, _, rfl, rfl, .inl rfl⟩
  | range _ _ _ hs | rangeEscaped _ hs => exact ⟨_, _, _, _, rfl, rfl, hs.switched.1⟩
  | member _ _ hs => grind

theorem noLetter_caret : NoLetter (byte '^') := noLetter_of rfl

theorem Recased.scanClassBody (h : Recased .outside (byte '[' :: l) (byte '[' :: l')) :
    Lockstep (fun p p' => Recased .outside p.2 p'.2) (scanClassBody l) (scanClassBody l') := by
  cases h with
  | literal _ _ _ hne => exact absurd rfl hne
  | openClass hcaret hr =>
    obtain ⟨c, t, c', t', rfl, rfl, hs⟩ := hr.classHead
    have hc : c ≠ byte '^' := fun he => hcaret (congrArg some he)
    have hplain : ∀ {c : UInt8} (t : List UInt8), c ≠ byte '^' →
        Regex.scanClassBody (c :: t) = Regex.scanClass true (c :: t) >>= fun p => .ok ((false, p.1), p.2) :=
      fun t hc => if_neg hc
    rw [hplain t hc, hplain t' (mt (hs.iff noLetter_caret).1 hc)]
    exact hr.scanClass.bind fun _ _ hr => .ok hr
  | openNegated hr =>
    exact hr.scanClass.bind fun _ _ hr => .ok hr

theorem scanName_append {name : List UInt8} (h : byte '>' ∉ name) (rest : List UInt8) :
    scanName (name ++ byte '>' :: rest) = .ok (name, rest) := by
  induction name with
  | nil => rfl
  | cons ch name ih =>
    obtain ⟨hch, hname⟩ := not_or.1 (mt List.mem_cons.2 h)
    rw [List.cons_append, scanName, if_neg (Ne.symm hch), ih hname]
    rfl

theorem scanFlags_append {fs : List UInt8} (h : byte ')' ∉ fs) (rest : List UInt8) (flags : Nat) :
    scanFlags (fs ++ byte ')' :: rest) flags = ((scanFlags fs flags).1, rest) := by
  induction fs generalizing flags with
  | nil => rfl
  | cons ch fs ih =>
    obtain ⟨hch, hfs⟩ := not_or.1 (mt List.mem_cons.2 h)
    rw [List.cons_append, scanFlags, scanFlags, if_neg (Ne.symm hch), if_neg (Ne.symm hch), ih hfs, ih hfs, ih hfs,
      ih hfs]
    grind

theorem scanEscape_one {esc : UInt8} (hx : esc ≠ byte 'x') (l l' : List UInt8) :
    Lockstep (fun p p' : ReInstr × List UInt8 => p'.1 = p.1 ∧ p.2 = l ∧ p'.2 = l') (scanEscape (esc :: l))
      (scanEscape (esc :: l')) := by
  have hone : ∀ ins : ReInstr, Lockstep (fun p p' : ReInstr × List UInt8 => p'.1 = p.1 ∧ p.2 = l ∧ p'.2 = l')
      (.ok (ins, l) : Except Stop (ReInstr × List UInt8)) (.ok (ins, l')) := fun _ => .ok ⟨rfl, rfl, rfl⟩
  unfold scanEscape
  dsimp only
  refine .ite Iff.rfl (fun _ => hone _) fun _ => .ite Iff.rfl (fun _ => hone _) fun _ => ?_
  refine .ite Iff.rfl (fun _ => hone _) fun _ => .ite Iff.rfl (fun _ => hone _) fun _ => ?_
  refine .ite Iff.rfl (fun _ => hone _) fun _ => .ite Iff.rfl (fun _ => hone _) fun _ => ?_
  refine .ite Iff.rfl (fun _ => hone _) fun _ => .ite Iff.rfl (fun _ => hone _) fun _ => ?_
  refine .ite Iff.rfl (fun _ => hone _) fun _ => .ite Iff.rfl (fun _ => hone _) fun _ => ?_
  refine .ite Iff.rfl (fun _ => hone _) fun _ => .ite Iff.rfl (fun _ => hone _) fun _ => ?_
  refine .ite Iff.rfl (fun _ => hone _) fun _ => .ite Iff.rfl (fun _ => hone _) fun _ => ?_
  refine .ite Iff.rfl (fun _ => hone _) fun _ => .ite Iff.rfl (fun h => absurd h hx) fun _ => ?_
  exact .ite Iff.rfl (fun _ => .left _) fun _ => hone _

theorem scanEscape_hex (hi lo : UInt8) (rest : List UInt8) :
    scanEscape (byte 'x' :: hi :: lo :: rest) =
      if isxdigit hi ∧ isxdigit lo then .ok (.char (hexVal hi * 16 + hexVal lo), rest)
      else fail "\\xHH needs exactly two hex digits" := rfl

theorem Recased.scanEscape (h : Recased .outside (byte '\\' :: l) (byte '\\' :: l')) :
    Lockstep (fun p p' => p'.1.lower = p.1.lower ∧ Recased .outside p.2 p'.2) (scanEscape l) (scanEscape l') := by
  cases h with
  | literal _ hne => exact absurd rfl hne
  | @hex hi lo rest rest' hr =>
    rw [scanEscape_hex, scanEscape_hex]
    exact .ite Iff.rfl (fun _ => .ok ⟨rfl, hr⟩) fun _ => .left _
  | escape hx hesc hr =>
    rcases hesc with rfl | ⟨hs, hlit⟩
    · refine (scanEscape_one hx _ _).imp ?_
      grind
    · rw [(hlit _).1, (hlit _).2]
      refine .ok ⟨?_, hr⟩
      unfold Instr.lower
      dsimp only
      rw [hs.tolower]

end Scan

/-! The parser takes the same turns on both. -/

structure InStep (c c' : Compiler) : Prop where
  rest : Recased .outside c.rest c'.rest
  re : Alike c.re c'.re
  groups : c'.groupCounter = c.groupCounter

def Parallel (f : Compiler → Except Stop Compiler) : Prop := ∀ c c', InStep c c' → Lockstep InStep (f c) (f c')

section Parse

variable {c c' : Compiler} {l l' : List UInt8}

theorem InStep.emitOrFail {ins ins' : ReInstr} (h : InStep c c') (hins : ins'.lower = ins.lower) :
    Lockstep InStep (c.emitOrFail ins) (c'.emitOrFail ins') :=
  (h.re.emitOrFail hins).bind fun _ _ hre => .ok ⟨h.rest, hre, h.groups⟩

theorem InStep.emitUnchecked (h : InStep c c') (ins : ReInstr) :
    InStep (c.emitUnchecked ins) (c'.emitUnchecked ins) :=
  ⟨h.rest, (h.re.emit rfl).1, h.groups⟩

theorem SameCount.room {n n' : Nat} (h : SameCount n n') (hlt : i32 n < maxClasses) (hpos : ¬ i32 n < 0) :
    n' = n ∧ n < maxClasses := by
  rcases h with ⟨heq, hle⟩ | ⟨⟨hbit, hbound⟩, -⟩
  · refine ⟨heq, ?_⟩
    simp only [maxClasses] at hle hlt ⊢
    unfold i32 at hlt
    grind
  · exact absurd (no_room_of_testBit hbit hbound hlt) hpos

theorem Alike.fillClass {re re' : ReHandle} (h : Alike re re') {cid : Nat} (hcid : cid < maxClasses)
    (neg neg' : Bool) (bytes bytes' : List UInt8) :
    Alike (Compiler.fillClass { re with nClasses := cid + 1 } cid neg bytes)
      (Compiler.fillClass { re' with nClasses := cid + 1 } cid neg' bytes') := by
  have hout := outside_fillClass { re with nClasses := cid + 1 } cid neg bytes
  have hout' := outside_fillClass { re' with nClasses := cid + 1 } cid neg' bytes'
  refine ⟨?_, ?_, ?_⟩
  · rw [hout, hout']
    exact h.prog
  · rw [hout, hout']
    exact h.flags
  · rw [fillClass_nClasses, fillClass_nClasses]
    by_cases hlast : cid + 1 < maxClasses
    · rw [setAll_nClasses _ _ hlast, setAll_nClasses _ _ hlast]
      exact .inl ⟨rfl, Nat.le_of_lt hlast⟩
    · have heq : cid + 1 = maxClasses := by omega
      have hfull : ∀ re : ReHandle, (mapClass { re with nClasses := cid + 1 } cid fun _ => false).nClasses.testBit 6 ∧
          (mapClass { re with nClasses := cid + 1 } cid fun _ => false).nClasses < 2 ^ 32 := by
        intro re
        rw [show (mapClass { re with nClasses := cid + 1 } cid fun _ => false).nClasses = maxClasses from heq]
        decide
      exact .inr ⟨setAll_nClasses_last _ _ _ (hfull re), setAll_nClasses_last _ _ _ (hfull re')⟩

theorem parallel_class (hre : Alike c.re c'.re) (hg : c'.groupCounter = c.groupCounter)
    (h : Recased .outside (byte '[' :: c.rest) (byte '[' :: c'.rest)) : Lockstep InStep c.parseClass c'.parseClass := by
  unfold Compiler.parseClass
  by_cases hlt : (maxClasses : Int) ≤ i32 c.re.nClasses
  · rw [if_pos hlt]
    exact .left _
  rw [if_neg hlt]
  by_cases hpos : i32 c.re.nClasses < 0
  · rw [if_pos hpos]
    exact .left _
  obtain ⟨heq, hroom⟩ := hre.count.room (Int.not_le.1 hlt) hpos
  rw [heq, if_neg hpos, if_neg hlt, if_neg hpos]
  refine h.scanClassBody.bind ?_
  rintro ⟨⟨neg, bytes⟩, rest⟩ ⟨⟨neg', bytes'⟩, rest'⟩ hrest
  have hstep : InStep ⟨rest, _, c.groupCounter⟩ ⟨rest', _, c'.groupCounter⟩ :=
    ⟨hrest, hre.fillClass hroom neg neg' bytes bytes', hg⟩
  exact hstep.emitOrFail rfl

theorem parallel_allocGroup (h : InStep c c') :
    Lockstep (fun p p' => p'.1 = p.1 ∧ InStep p.2 p'.2) c.allocGroup c'.allocGroup := by
  unfold Compiler.allocGroup
  rw [h.groups]
  exact .ite Iff.rfl (fun _ => .left _) fun _ => .ok ⟨rfl, h.rest, h.re, rfl⟩

theorem InStep.nameGroup (h : InStep c c') (name name' : List UInt8) :
    InStep (c.nameGroup name) (c'.nameGroup name') := by
  have hkeep : ∀ (c : Compiler) (name : List UInt8), (c.nameGroup name).rest = c.rest ∧
      (c.nameGroup name).re.prog = c.re.prog ∧ (c.nameGroup name).re.flags = c.re.flags ∧
      (c.nameGroup name).re.nClasses = c.re.nClasses ∧ (c.nameGroup name).groupCounter = c.groupCounter := by
    intro c name
    unfold Compiler.nameGroup
    grind
  obtain ⟨hr, hp, hf, hn, hg⟩ := hkeep c name
  obtain ⟨hr', hp', hf', hn', hg'⟩ := hkeep c' name'
  refine ⟨?_, ⟨?_, ?_, ?_⟩, ?_⟩
  · rw [hr, hr']
    exact h.rest
  · rw [hp, hp', h.re.prog]
  · rw [hf, hf', h.re.flags]
  · rw [hn, hn']
    exact h.re.count
  · rw [hg, hg', h.groups]

variable {expr : Compiler → Except Stop Compiler}

theorem closeGroup_eq (group : Option Nat) (c : Compiler) : closeGroup group c =
    onByte (byte ')') (fun rest => match group with
      | some g =>
        let c := { c with rest := rest }.emitUnchecked (.save (g * 2 + 1))
        .ok { c with re := { c.re with nGroups := max c.re.nGroups g } }
      | none => .ok { c with rest := rest }) (fail "unclosed group '('") c.rest := by
  unfold closeGroup
  cases c.rest <;> rfl

theorem parallel_groupBody (hf : Parallel expr) (group : Option Nat) :
    Parallel (parseGroupBody expr · group) := by
  intro c c' h
  dsimp only
  rw [parseGroupBody_eq, parseGroupBody_eq]
  have hopen : Lockstep InStep (openGroup c group) (openGroup c' group) := by
    cases group with
    | none => exact .ok h
    | some g => exact h.emitOrFail rfl
  refine hopen.bind fun d d' hd => (hf d d' hd).bind fun e e' he => ?_
  rw [closeGroup_eq, closeGroup_eq]
  refine he.rest.onByte passed_close (fun t t' ht => ?_) (.left _)
  cases group with
  | none => exact .ok ⟨ht, he.re, he.groups⟩
  | some g =>
    have hstep : InStep { e with rest := t } { e' with rest := t' } := ⟨ht, he.re, he.groups⟩
    have hemit := hstep.emitUnchecked (.save (g * 2 + 1))
    exact .ok ⟨hemit.rest, ⟨hemit.re.prog, hemit.re.flags, hemit.re.count⟩, hemit.groups⟩

/-- The `)` of a lookahead, with the patch of its target. -/
def closeLookahead (laInstr : Nat) (isNeg : Bool) (c : Compiler) : Except Stop Compiler :=
  onByte (byte ')') (fun rest =>
    let c' := { c with rest := rest }.emitUnchecked .matched
    .ok { c' with re := setInstr c'.re laInstr (.lookahead (c.re.prog.length + 1) isNeg) })
    (fail (if isNeg then "unclosed lookahead '(?!'" else "unclosed lookahead '(?='")) c.rest

theorem parseLookahead_eq (expr : Compiler → Except Stop Compiler) (c : Compiler) (isNeg : Bool) :
    parseLookahead expr c isNeg =
      c.emitOrFail (.lookahead 0 false) >>= fun c₁ => expr c₁ >>= closeLookahead c.re.prog.length isNeg := by
  unfold parseLookahead
  refine congrArg _ (funext fun c₁ => congrArg _ (funext fun c₂ => ?_))
  unfold closeLookahead
  cases c₂.rest <;> rfl

theorem parallel_lookahead (hf : Parallel expr) (isNeg : Bool) : Parallel (parseLookahead expr · isNeg) := by
  intro c c' h
  dsimp only
  rw [parseLookahead_eq, parseLookahead_eq, h.re.length]
  refine (h.emitOrFail rfl).bind fun d d' hd => (hf d d' hd).bind fun e e' he => ?_
  refine he.rest.onByte passed_close (fun t t' ht => ?_) (.left _)
  have hstep : InStep { e with rest := t } { e' with rest := t' } := ⟨ht, he.re, he.groups⟩
  have hemit := hstep.emitUnchecked .matched
  refine .ok ⟨hemit.rest, hemit.re.setInstr _ ?_, hemit.groups⟩
  rw [he.re.length]

theorem parallel_capture (hf : Parallel expr) (h : InStep c c') (name : Option (List UInt8)) :
    Lockstep InStep (do
      let (g, c) ← c.allocGroup
      parseGroupBody expr (name.elim c c.nameGroup) (some g)) (do
      let (g, c) ← c'.allocGroup
      parseGroupBody expr (name.elim c c.nameGroup) (some g)) := by
  refine (parallel_allocGroup h).bind ?_
  rintro ⟨g, d⟩ ⟨g', d'⟩ ⟨rfl, hd⟩
  refine parallel_groupBody hf _ _ _ ?_
  cases name with
  | none => exact hd
  | some name => exact hd.nameGroup name name

theorem parallel_group (hf : Parallel expr) (hre : Alike c.re c'.re) (hg : c'.groupCounter = c.groupCounter)
    (h : Recased .outside (byte '(' :: c.rest) (byte '(' :: c'.rest)) :
    Lockstep InStep (parseGroup expr c) (parseGroup expr c') := by
  obtain ⟨l, re, g⟩ := c
  obtain ⟨l', re', g'⟩ := c'
  dsimp only at hre hg h
  cases h with
  | literal _ _ hne => exact absurd rfl hne
  | group hq hr =>
    have hplain : ∀ (l : List UInt8) (re : ReHandle) (g : Nat), l.head? ≠ some (byte '?') →
        parseGroup expr ⟨l, re, g⟩ = (do
          let (g, c) ← Compiler.allocGroup ⟨l, re, g⟩
          parseGroupBody expr c (some g)) := by
      intro l re g hl
      cases l with
      | nil => rfl
      | cons ch l => exact if_neg fun he => hl (congrArg some he)
    rw [hplain l re g hq, hplain l' re' g' (mt (hr.front passed_question.1).1 hq)]
    exact parallel_capture hf ⟨hr, hre, hg⟩ none
  | marked hkind hr =>
    rcases hkind with rfl | rfl | rfl
    · exact parallel_groupBody hf none _ _ ⟨hr, hre, hg⟩
    · exact parallel_lookahead hf false _ _ ⟨hr, hre, hg⟩
    · exact parallel_lookahead hf true _ _ ⟨hr, hre, hg⟩
  -- the name of a group is the same on both sides
  | @named name rest rest' hname hr =>
    have hparse : ∀ (rest : List UInt8) (re : ReHandle) (g : Nat),
        parseGroup expr ⟨byte '?' :: byte '<' :: (name ++ byte '>' :: rest), re, g⟩ = (do
          let (g, c) ← Compiler.allocGroup ⟨rest, re, g⟩
          parseGroupBody expr (c.nameGroup name) (some g)) := by
      intro rest re g
      show (scanName (name ++ byte '>' :: rest) >>= _) = _
      rw [scanName_append hname]
      rfl
    rw [hparse, hparse]
    exact parallel_capture hf ⟨hr, hre, hg⟩ (some name)
  -- and so are its flags
  | @flags fl fs rest rest' hfl hfs hr =>
    have hparse : ∀ (rest : List UInt8) (re : ReHandle) (g : Nat),
        parseGroup expr ⟨byte '?' :: fl :: (fs ++ byte ')' :: rest), re, g⟩ =
          .ok ⟨rest, { re with flags := (scanFlags (fl :: fs) re.flags).1 }, g⟩ := by
      intro rest re g
      have hclose : byte ')' ∉ fl :: fs := by grind
      have hscan := scanFlags_append hclose rest re.flags
      have hbranch : parseGroup expr ⟨byte '?' :: fl :: (fs ++ byte ')' :: rest), re, g⟩ =
          .ok ⟨(scanFlags (fl :: (fs ++ byte ')' :: rest)) re.flags).2,
            { re with flags := (scanFlags (fl :: (fs ++ byte ')' :: rest)) re.flags).1 }, g⟩ := by
        rcases hfl with rfl | rfl | rfl <;> rfl
      grind
    rw [hparse, hparse, hre.flags]
    exact .ok ⟨hr, ⟨hre.prog, rfl, hre.count⟩, hg⟩

theorem noLetter_paren : NoLetter (byte '(') := noLetter_of rfl
theorem noLetter_openBracket : NoLetter (byte '[') := noLetter_of rfl
theorem noLetter_dot : NoLetter (byte '.') := noLetter_of rfl
theorem noLetter_dollar : NoLetter (byte '$') := noLetter_of rfl

theorem parallel_atom (hf : Parallel expr) : Parallel (parseAtom expr) := by
  rintro ⟨l, re, g⟩ ⟨l', re', g'⟩ ⟨hrest, hre, hg⟩
  dsimp only at hrest hre hg
  cases l with
  | nil =>
    rw [hrest.nil_iff.2 rfl]
    exact .ok ⟨.nil, hre, hg⟩
  | cons ch l =>
    obtain ⟨ch', t, rfl, ⟨h₁, h₂, h₃, hs, hr⟩ | ⟨rfl, rfl | rfl | rfl⟩⟩ := hrest.cons
    · have hstep : InStep ⟨l, re, g⟩ ⟨t, re', g'⟩ := ⟨hr, hre, hg⟩
      unfold parseAtom
      dsimp only
      refine .ite (hs.iff noLetter_paren).symm (fun h => absurd h h₂) fun _ => ?_
      refine .ite (hs.iff noLetter_openBracket).symm (fun h => absurd h h₃) fun _ => ?_
      refine .ite (hs.iff noLetter_dot).symm (fun _ => hstep.emitOrFail rfl) fun _ => ?_
      refine .ite (hs.iff noLetter_caret).symm (fun _ => hstep.emitOrFail rfl) fun _ => ?_
      refine .ite (hs.iff noLetter_dollar).symm (fun _ => hstep.emitOrFail rfl) fun _ => ?_
      refine .ite (hs.iff noLetter_backslash).symm (fun h => absurd h h₁) fun _ => hstep.emitOrFail ?_
      unfold Instr.lower
      dsimp only
      rw [hs.tolower]
    · have hparse : ∀ (l : List UInt8) (re : ReHandle) (g : Nat), parseAtom expr ⟨byte '\\' :: l, re, g⟩ =
          scanEscape l >>= fun p => Compiler.emitOrFail ⟨p.2, re, g⟩ p.1 := fun _ _ _ => rfl
      rw [hparse, hparse]
      refine hrest.scanEscape.bind ?_
      rintro ⟨ins, r⟩ ⟨ins', r'⟩ ⟨hins, hr⟩
      have hstep : InStep ⟨r, re, g⟩ ⟨r', re', g'⟩ := ⟨hr, hre, hg⟩
      exact hstep.emitOrFail hins
    · have hparse : ∀ (l : List UInt8) (re : ReHandle) (g : Nat), parseAtom expr ⟨byte '(' :: l, re, g⟩ =
          parseGroup expr ⟨l, re, g⟩ := by
        intro l re g
        unfold parseAtom
        exact if_pos rfl
      rw [hparse, hparse]
      exact parallel_group hf hre hg hrest
    · have hparse : ∀ (l : List UInt8) (re : ReHandle) (g : Nat), parseAtom expr ⟨byte '[' :: l, re, g⟩ =
          Compiler.parseClass ⟨l, re, g⟩ := by
        intro l re g
        unfold parseAtom
        grind
      rw [hparse, hparse]
      exact parallel_class hre hg hrest

/-- What `parse_piece` does behind an atom that emitted something. -/
def quantify (start : Nat) (c : Compiler) : Except Stop Compiler :=
  match c.rest with
  | [] => .ok c
  | qc :: rest =>
    match quantifierOf qc with
    | some q => do
      let (lazy, rest) := scanLazy rest
      let re ← applyQuantifier c.re start q lazy
      .ok { c with rest := rest, re := re }
    | none =>
      if qc = byte '{' then do
        let bodyEnd := c.re.prog.length
        let (n, rest) ← scanCount rest
        if n.nMin = 0 ∧ n.nMax = 0 then
          .ok { c with rest := rest, re := { c.re with prog := c.re.prog.take start } }
        else
          let re ← applyCount c.re start bodyEnd n.nMin n.nMax n.lazy
          .ok { c with rest := rest, re := re }
      else .ok c

theorem parsePiece_eq (expr : Compiler → Except Stop Compiler) (c : Compiler) : parsePiece expr c =
    parseAtom expr c >>= fun c' => if c'.re.prog.length = c.re.prog.length then .ok c' else quantify c.re.prog.length c' := rfl

theorem passed_star : Passed (byte '*') := passed_of rfl (by decide)
theorem passed_plus : Passed (byte '+') := passed_of rfl (by decide)

theorem quantifierOf_some {qc : UInt8} {q : Quantifier} (h : quantifierOf qc = some q) : Passed qc := by
  unfold quantifierOf at h
  split at h
  · next heq => exact heq ▸ passed_star
  grind [passed_question, passed_plus]

theorem quantifierOf_switched {qc qc' : UInt8} (h : Switched qc qc') : quantifierOf qc' = quantifierOf qc := by
  unfold quantifierOf
  simp only [h.iff passed_star.1, h.iff passed_plus.1, h.iff passed_question.1]

theorem InStep.quantify (h : InStep c c') (start : Nat) : Lockstep InStep (quantify start c) (quantify start c') := by
  obtain ⟨l, re, g⟩ := c
  obtain ⟨l', re', g'⟩ := c'
  obtain ⟨hrest, hre, hg⟩ := h
  dsimp only at hrest hre hg
  cases l with
  | nil =>
    rw [hrest.nil_iff.2 rfl]
    exact .ok ⟨.nil, hre, hg⟩
  | cons qc l =>
    obtain ⟨qc', t, rfl, hc⟩ := hrest.cons
    have hs : Switched qc qc' := hc.elim (fun h => h.2.2.2.1) fun h => .inl h.1
    unfold Regex.quantify
    dsimp only
    rw [quantifierOf_switched hs]
    cases hq : quantifierOf qc with
    | some q =>
      obtain ⟨t, heq, hr⟩ := hrest.pass (quantifierOf_some hq)
      cases heq
      obtain ⟨hlazy, hr⟩ := hr.scanLazy
      dsimp only
      rw [hlazy]
      exact (hre.applyQuantifier start q _).bind fun _ _ hd => .ok ⟨hr, hd, hg⟩
    | none =>
      refine .ite (hs.iff passed_openBrace.1).symm (fun hb => ?_) fun _ => .ok ⟨hrest, hre, hg⟩
      subst hb
      obtain ⟨t, heq, hr⟩ := hrest.pass passed_openBrace
      cases heq
      refine hr.scanCount.bind ?_
      rintro ⟨n, r⟩ ⟨n', r'⟩ ⟨hn, hr⟩
      dsimp only at hn hr ⊢
      subst hn
      refine .ite Iff.rfl (fun _ => .ok ⟨hr, ⟨?_, hre.flags, hre.count⟩, hg⟩) fun _ => ?_
      · dsimp only
        rw [List.map_take, List.map_take, hre.prog]
      · rw [hre.length]
        exact (hre.applyCount start _ _ _ _).bind fun _ _ hd => .ok ⟨hr, hd, hg⟩

theorem parallel_piece (hf : Parallel expr) : Parallel (parsePiece expr) := by
  intro c c' h
  rw [parsePiece_eq, parsePiece_eq, h.re.length]
  refine (parallel_atom hf c c' h).bind fun d d' hd => ?_
  rw [hd.re.length]
  exact .ite Iff.rfl (fun _ => .ok hd) fun _ => hd.quantify _

theorem Recased.stops {ch ch' : UInt8} (h : Recased .outside (ch :: l) (ch' :: l')) :
    (ch = byte ')' ∨ ch = byte '|') ↔ (ch' = byte ')' ∨ ch' = byte '|') := by
  have hfront : ∀ {b : UInt8}, NoLetter b → (ch = b ↔ ch' = b) := by
    intro b hb
    have := h.front hb
    grind
  rw [hfront passed_close.1, hfront passed_bar.1]

theorem parallel_concat (hf : Parallel expr) (fuel : Nat) : Parallel (parseConcat expr fuel) := by
  induction fuel with
  | zero =>
    rintro ⟨l, re, g⟩ ⟨l', re', g'⟩ h
    unfold parseConcat
    cases l with
    | nil =>
      obtain rfl : l' = [] := h.rest.nil_iff.2 rfl
      exact .ok h
    | cons ch l =>
      obtain ⟨ch', t, rfl, -⟩ := h.rest.cons
      exact .ite h.rest.stops (fun _ => .ok h) fun _ => .left _
  | succ fuel ih =>
    rintro ⟨l, re, g⟩ ⟨l', re', g'⟩ h
    unfold parseConcat
    cases l with
    | nil =>
      obtain rfl : l' = [] := h.rest.nil_iff.2 rfl
      exact .ok h
    | cons ch l =>
      obtain ⟨ch', t, rfl, -⟩ := h.rest.cons
      exact .ite h.rest.stops (fun _ => .ok h) fun _ => (parallel_piece hf _ _ h).bind ih

theorem Alike.patch {re re' : ReHandle} (h : Alike re re') (final : Nat) (patches : List (Option Nat)) :
    Alike (patches.foldl (patchJump final) re) (patches.foldl (patchJump final) re') := by
  induction patches generalizing re re' with
  | nil => exact h
  | cons j patches ih =>
    rw [List.foldl_cons, List.foldl_cons]
    refine ih ?_
    cases j with
    | none => exact ⟨h.prog, h.flags, h.count⟩
    | some i => exact h.setInstr i rfl

theorem InStep.openBranch (h : InStep c c') (margin start : Nat) :
    Lockstep InStep (openBranch margin start c) (openBranch margin start c') := by
  unfold Regex.openBranch
  rw [h.re.length]
  exact lockstep_guard ((h.re.reserve _ _).bind fun _ _ hd => (hd.openSlot _).bind fun _ _ he =>
    .ok ⟨h.rest, he, h.groups⟩)

theorem parallel_altLoop (hf : Parallel expr) (fuel altStart : Nat) (patches : List (Option Nat)) :
    Parallel (altLoop expr fuel altStart patches) := by
  induction fuel generalizing altStart patches with
  | zero =>
    intro c c' h
    by_cases hbar : c.rest.head? = some (byte '|')
    · obtain ⟨rest, hrest⟩ := List.head?_eq_some_iff.1 hbar
      unfold altLoop
      rw [hrest]
      exact .left _
    · rw [altLoop_end _ _ _ hbar, altLoop_end _ _ _ (mt (h.rest.front passed_bar.1).1 hbar), h.re.length]
      exact .ok ⟨h.rest, h.re.patch _ patches, h.groups⟩
  | succ fuel ih =>
    intro c c' h
    rcases h.rest.front_cases passed_bar with ⟨rest, rest', hrest, hrest', hr⟩ | ⟨hbar, hbar'⟩
    · rw [altLoop_bar fuel altStart patches hrest, altLoop_bar fuel altStart patches hrest']
      obtain ⟨hemit, hj⟩ := h.re.emit (show (Instr.jump 0 : ReInstr).lower = (Instr.jump 0 : ReInstr).lower from rfl)
      rw [hj, hemit.length, hr.length]
      refine .ite Iff.rfl (fun _ => .left _) fun _ => ?_
      have hnext : InStep (nextBranch altStart c rest) (nextBranch altStart c' rest') := by
        refine ⟨hr, hemit.setInstr altStart ?_, h.groups⟩
        rw [hemit.length]
      refine (parallel_concat hf rest.length _ _ hnext).bind fun d d' hd => ?_
      have hopen : Lockstep InStep
          (if d.rest.head? = some (byte '|') then openBranch 1 (emit c.re (.jump 0)).1.prog.length d else .ok d)
          (if d'.rest.head? = some (byte '|') then openBranch 1 (emit c.re (.jump 0)).1.prog.length d' else .ok d') :=
        .ite (hd.rest.front passed_bar.1).symm (fun _ => hd.openBranch 1 _) fun _ => .ok hd
      exact hopen.bind (ih _ _)
    · rw [altLoop_end _ _ _ hbar, altLoop_end _ _ _ hbar', h.re.length]
      exact .ok ⟨h.rest, h.re.patch _ patches, h.groups⟩

theorem parallel_expr (d : Nat) : Parallel (parseExpr d) := by
  induction d with
  | zero => exact fun _ _ _ => .left _
  | succ d ih =>
    intro c c' h
    unfold parseExpr
    rw [parseExprInner_eq, parseExprInner_eq, h.rest.length]
    refine (parallel_concat ih _ _ _ h).bind fun e e' he => ?_
    refine .ite (he.rest.front passed_bar.1).symm (fun _ => ?_) fun _ => .ok he
    rw [h.re.length, he.rest.length]
    exact (he.openBranch 2 _).bind (parallel_altLoop ih _ _ _)

end Parse

theorem sameProgram_of_sameCode {re re' d d' : ReHandle} (h : SameCode re d) (h' : SameCode re' d')
    (hp : re'.prog.map Instr.lower = re.prog.map Instr.lower) (hf : re'.flags = re.flags) (hn : re'.nGroups = re.nGroups) :
    SameProgram d d' :=
  ⟨by rw [h.prog, h'.prog, hp], by rw [h.flags, h'.flags, hf], by rw [h.nGroups, h'.nGroups, hn]⟩

theorem compile_recased {pattern pattern' : List UInt8} {flags : Nat}
    (h : Recased .outside (cString pattern) (cString pattern')) :
    Lockstep SameProgram (compile pattern flags) (compile pattern' flags) := by
  have hstart : SameCount (compileStart flags).nClasses (compileStart flags).nClasses :=
    .inl ⟨rfl, Nat.zero_le _⟩
  unfold compile
  dsimp only
  refine (parallel_expr reMaxDepth ⟨_, compileStart flags, 0⟩ ⟨_, compileStart flags, 0⟩
    ⟨h, ⟨rfl, rfl, hstart⟩, rfl⟩).bind fun c c' hc => ?_
  intro d d' hd hd'
  obtain ⟨-, hd⟩ := guard_ok hd
  obtain ⟨-, hd'⟩ := guard_ok hd'
  cases hd
  cases hd'
  have hsave : (Instr.save 1 : ReInstr).lower = (Instr.save 1 : ReInstr).lower := rfl
  have hmatched : (Instr.matched : ReInstr).lower = (Instr.matched : ReInstr).lower := rfl
  have hemit := ((hc.re.emit hsave).1.emit hmatched).1
  exact sameProgram_of_sameCode (sameCode_compileFinish c) (sameCode_compileFinish c') hemit.prog hemit.flags hc.groups

/-- `(?i)[A-Z]` does not match `A`, and `(?i)[a-z]` does. -/
theorem ignorecase_sees_class_letters : ∃ re re',
    compile [40, 63, 105, 41, 91, 65, 45, 90, 93] 0 = .ok re ∧ compile [40, 63, 105, 41, 91, 97, 45, 122, 93] 0 = .ok re' ∧
    re.ignorecase = true ∧
    Recased .outside (cString [40, 63, 105, 41, 91, 65, 45, 90, 93]) (cString [40, 63, 105, 41, 91, 97, 45, 122, 93]) ∧
    (vmExecRange re [65] (nestedRuns re [65]) 0 0 Visited.init).map (·.found) = some false ∧
    (vmExecRange re' [65] (nestedRuns re' [65]) 0 0 Visited.init).map (·.found) = some true := by
  have hrun : ((toOption (compile [40, 63, 105, 41, 91, 65, 45, 90, 93] 0)).map fun re =>
      (re.ignorecase, (vmExecRange re [65] (nestedRuns re [65]) 0 0 Visited.init).map (·.found))) =
        some (true, some false) := by decide
  have hrun' : ((toOption (compile [40, 63, 105, 41, 91, 97, 45, 122, 93] 0)).map fun re =>
      (vmExecRange re [65] (nestedRuns re [65]) 0 0 Visited.init).map (·.found)) = some (some true) := by decide
  obtain ⟨re, hre, hfound⟩ := Option.map_eq_some_iff.1 hrun
  obtain ⟨re', hre', hfound'⟩ := Option.map_eq_some_iff.1 hrun'
  obtain ⟨hi, hfound⟩ := Prod.mk.inj hfound
  refine ⟨re, re', ok_of_toOption hre, ok_of_toOption hre', hi, ?_, hfound, hfound'⟩
  exact @Recased.flags _ [] _ _ (.inl rfl) List.not_mem_nil (.openClass (by decide)
    (.range (by unfold IsMember; decide) (by decide) (by decide) (.inr ⟨rfl, rfl⟩) (.close .nil)))

/-- Under `IGNORECASE` no run sees the case of the text, and the run of a pattern in another case is the same as long
as the run makes no class test that the two patterns answer differently. -/
theorem ignorecase_blind {pattern pattern' : List UInt8} {flags : Nat} {re re' : ReHandle}
    (h : compile pattern flags = .ok re) (h' : compile pattern' flags = .ok re') (hi : re.ignorecase = true)
    (hp : Recased .outside (cString pattern) (cString pattern')) {text text' : List UInt8}
    (ht : SameLetters text text') (start : Nat) (vis : Visited) :
    vmExecRange re text' (nestedRuns re text') start 0 vis = vmExecRange re text (nestedRuns re text) start 0 vis ∧
      ((agreedRun re text (sameTest re re') start vis).isSome = true →
        vmExecRange re' text' (nestedRuns re' text') start 0 vis = vmExecRange re text (nestedRuns re text) start 0 vis) := by
  refine ⟨vmExecRange_sameLetters hi ht start vis, fun hsome => ?_⟩
  obtain ⟨r, hr⟩ := Option.isSome_iff_exists.1 hsome
  have hself : Twins (sameTest re re') re re text text :=
    ⟨rfl, rfl, rfl, fun _ _ => rfl, fun _ _ _ _ => rfl⟩
  have htwins := (compile_recased hp _ _ h h').twins hi ht
  exact (agreedRun_both htwins hr).trans (agreedRun_both hself hr).symm

/-- `(?i)b[a-zQ]|c[A-Z]` on `bQ` and `(?i)B[a-zq]|c[a-z]` on `Bq`: the run tests the first class, on which the two
agree, and never the second. -/
theorem ignorecase_blind_classes : ∃ re re',
    compile [40, 63, 105, 41, 98, 91, 97, 45, 122, 81, 93, 124, 99, 91, 65, 45, 90, 93] 0 = .ok re ∧
    compile [40, 63, 105, 41, 66, 91, 97, 45, 122, 113, 93, 124, 99, 91, 97, 45, 122, 93] 0 = .ok re' ∧
    re'.classTest 1 97 ≠ re.classTest 1 97 ∧
    (vmExecRange re [98, 81] (nestedRuns re [98, 81]) 0 0 Visited.init).map (·.found) = some true ∧
    vmExecRange re [66, 113] (nestedRuns re [66, 113]) 0 0 Visited.init =
      vmExecRange re [98, 81] (nestedRuns re [98, 81]) 0 0 Visited.init ∧
    vmExecRange re' [66, 113] (nestedRuns re' [66, 113]) 0 0 Visited.init =
      vmExecRange re [98, 81] (nestedRuns re [98, 81]) 0 0 Visited.init := by
  have hrun : ((toOption (compile [40, 63, 105, 41, 98, 91, 97, 45, 122, 81, 93, 124, 99, 91, 65, 45, 90, 93] 0)).bind
      fun re => (toOption (compile [40, 63, 105, 41, 66, 91, 97, 45, 122, 113, 93, 124, 99, 91, 97, 45, 122, 93] 0)).map
        fun re' => (re.ignorecase, re'.classTest 1 97, re.classTest 1 97,
          (vmExecRange re [98, 81] (nestedRuns re [98, 81]) 0 0 Visited.init).map (·.found),
          (agreedRun re [98, 81] (sameTest re re') 0 Visited.init).isSome)) =
      some (true, true, false, some true, true) := by decide +kernel
  obtain ⟨re, hre, hrun⟩ := Option.bind_eq_some_iff.1 hrun
  obtain ⟨re', hre', hrun⟩ := Option.map_eq_some_iff.1 hrun
  obtain ⟨hi, hrun⟩ := Prod.mk.inj hrun
  obtain ⟨hcls', hrun⟩ := Prod.mk.inj hrun
  obtain ⟨hcls, hrun⟩ := Prod.mk.inj hrun
  obtain ⟨hfound, hagreed⟩ := Prod.mk.inj hrun
  have hsecond : Recased .outside (cString [99, 91, 65, 45, 90, 93]) (cString [99, 91, 97, 45, 122, 93]) :=
    .literal (.inl rfl) (by decide) (by decide) (by decide) (.openClass (by decide)
      (.range (by unfold IsMember; decide) (by decide) (by decide) (.inr ⟨rfl, rfl⟩) (.close .nil)))
  have hclose : ∀ hi r, cString [93, 124, 99, 91, 65, 45, 90, 93] = byte '-' :: hi :: r → hi = byte ']' := by
    intro hi r hr
    exact absurd (show some 93 = some (byte '-') from congrArg List.head? hr) (by decide)
  have hfirst : Recased .outside (cString [98, 91, 97, 45, 122, 81, 93, 124, 99, 91, 65, 45, 90, 93])
      (cString [66, 91, 97, 45, 122, 113, 93, 124, 99, 91, 97, 45, 122, 93]) :=
    .literal (.inr rfl) (by decide) (by decide) (by decide) (.openClass (by decide)
      (.range (by unfold IsMember; decide) (by decide) (by decide) (.inl ⟨rfl, rfl⟩)
        (.member (by unfold IsMember; decide) hclose (.inr rfl)
          (.close (.literal (.inl rfl) (by decide) (by decide) (by decide) hsecond)))))
  obtain ⟨htext, hpattern⟩ := ignorecase_blind (ok_of_toOption hre) (ok_of_toOption hre') hi
    (@Recased.flags _ [] _ _ (.inl rfl) List.not_mem_nil hfirst) (show SameLetters [98, 81] [66, 113] from rfl) 0 Visited.init
  refine ⟨re, re', ok_of_toOption hre, ok_of_toOption hre', ?_, hfound, htext, hpattern hagreed⟩
  rw [hcls, hcls']
  decide

end LsLang.Regex
