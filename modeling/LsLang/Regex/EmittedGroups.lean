import LsLang.Regex.EmittedItems

/-! Groups, captures and lookaheads, and with them every atom: the parser emits the code of what is read. -/

namespace LsLang.Regex

section Group

theorem Behind.snoc {prog : List ReInstr} {ins : ReInstr} (h : Behind prog)
    (hi : ∀ a ∈ ins.targets, a ≤ prog.length + 1) : Behind (prog ++ [ins]) := by
  intro i hmem a ha
  rw [List.length_append, List.length_singleton]
  rcases List.mem_append.1 hmem with hmem | hmem
  · exact Nat.le_succ_of_le (h i hmem a ha)
  grind

theorem emitUnchecked_cases (re : ReHandle) (ins : ReInstr) : Keeps re (emit re ins).1 ∧
    ∃ closed : Bool, (emit re ins).1.prog = re.prog ++ (if closed then [ins] else []) ∧
      (NotFull (emit re ins).1.prog → closed = true) ∧ (closed = true → NotFull re.prog) := by
  rcases emit_cases re ins with ⟨hfull, he⟩ | ⟨hlt, re', he, hprog, ho, hcap⟩
  · rw [he]
    refine ⟨⟨rfl, rfl, rfl, id⟩, false, (List.append_nil _).symm, fun hnf => ?_, nofun⟩
    unfold NotFull at hnf
    grind
  · rw [he]
    refine ⟨ho.keeps hcap, true, hprog, fun _ => rfl, fun _ => ?_⟩
    unfold NotFull
    omega

theorem Agrees.open {c c' : Compiler} {r : Reader} (h : Agrees c r) {ins : ReInstr} (hi : ins.targets = [] ∨
    ins.targets = [0]) (he : c.emitOrFail ins = .ok c') : Agrees c' r ∧ NotFull c.re.prog ∧
      c'.re.prog = c.re.prog ++ [ins] := by
  unfold Compiler.emitOrFail at he
  obtain ⟨re, hre, he⟩ := bind_ok he
  cases he
  obtain ⟨hroom, hprog, ho, hcap⟩ := emitOrFail_ok hre
  have hnf : NotFull c.re.prog := by
    unfold NotFull
    omega
  refine ⟨h.keep (ho.keeps hcap) fun _ => ?_, hnf, hprog⟩
  rw [hprog]
  refine (h.behind hnf).snoc fun a ha => ?_
  grind

variable {expr : Compiler → Except Stop Compiler} {rexpr : Reader → Option (Node × Reader)}

theorem emits_group {prog prog₁ prog₂ : List ReInstr} {x : Node} (g : Nat) (hnf : NotFull prog)
    (h : Emits (prog ++ [.save (g * 2)]) prog₁ x) (closed : Bool) (hfit : closed = true → NotFull prog₁)
    (hprog : prog₂ = prog₁ ++ if closed then [.save (g * 2 + 1)] else []) (hclosed : NotFull prog₂ → closed = true) :
    Emits prog prog₂ (.group g true x) := by
  obtain ⟨t, rfl, rfl, -, hwhole, hsnug⟩ := h
  refine ⟨.group g closed t, rfl, ?_, fun _ => hnf, fun hnf₂ => ⟨hclosed hnf₂, hwhole ?_⟩, hsnug,
    fun hc => hwhole (hfit hc)⟩
  · rw [hprog, Node.code, Node.groupCode, place_cons, place_append]
    cases closed with
    | true => simp [Instr.map, place_singleton]
    | false => simp [Instr.map]
  grind

def openGroup (c : Compiler) (group : Option Nat) : Except Stop Compiler :=
  match group with
  | some g => c.emitOrFail (.save (g * 2))
  | none => .ok c

def closeGroup (group : Option Nat) (c : Compiler) : Except Stop Compiler :=
  match c.rest with
  | ch :: rest =>
    if ch = byte ')' then
      let c := { c with rest := rest }
      match group with
      | some g =>
        let c := c.emitUnchecked (.save (g * 2 + 1))
        .ok { c with re := { c.re with nGroups := max c.re.nGroups g } }
      | none => .ok c
    else fail "unclosed group '('"
  | [] => fail "unclosed group '('"

theorem parseGroupBody_eq (expr : Compiler → Except Stop Compiler) (c : Compiler) (group : Option Nat) :
    parseGroupBody expr c group = openGroup c group >>= fun c => expr c >>= closeGroup group := by
  cases group <;> rfl

theorem readGroupBody_eq {r r' : Reader} {x : Node} (hr : rexpr r = some (x, r')) (group : Option Nat) :
    readGroupBody rexpr r group =
      match r'.rest with
      | ch :: rest =>
        if ch = byte ')' then
          match group with
          | some g => some (.group g true x, { r' with rest := rest })
          | none => some (x, { r' with rest := rest })
        else none
      | [] => none := by
  unfold readGroupBody
  rw [hr]
  rfl

theorem follows_groupBody (hf : Follows expr rexpr) (group : Option Nat) :
    Follows (parseGroupBody expr · group) (readGroupBody rexpr · group) := by
  intro c r c' h hparse
  change parseGroupBody expr c group = .ok c' at hparse
  rw [parseGroupBody_eq] at hparse
  obtain ⟨c₁, h₁, hbody⟩ := bind_ok hparse
  obtain ⟨c₂, h₂, hp⟩ := bind_ok hbody
  clear hparse hbody
  have hstart : Agrees c₁ r := by
    cases group with
    | none =>
      cases h₁
      exact h
    | some g => exact (h.open (.inl rfl) h₁).1
  obtain ⟨x, r₂, hr, hagrees, hem⟩ := hf c₁ r c₂ hstart h₂
  dsimp only
  rw [readGroupBody_eq hr, ← hagrees.rest]
  cases hrest : c₂.rest with
  | nil =>
    unfold closeGroup at hp
    grind
  | cons ch rest =>
    unfold closeGroup at hp
    rw [hrest] at hp
    dsimp only at hp ⊢
    split at hp
    · next hch =>
      rw [if_pos hch]
      have hmove := hagrees.move rest
      cases group with
      | none =>
        cases h₁
        grind
      | some g =>
        cases hp
        obtain ⟨-, hnf, hprog⟩ := h.open (.inl rfl) h₁
        obtain ⟨hk, closed, hclose, hclosed, hfit⟩ := emitUnchecked_cases c₂.re (.save (g * 2 + 1))
        rw [hprog] at hem
        have hgroup := emits_group g hnf hem closed hfit hclose hclosed
        refine ⟨_, _, rfl, ?_, hgroup⟩
        exact hmove.keep ⟨hk.flags, hk.classes, hk.nClasses, hk.cap⟩ (hgroup.behind h.behind)
    · cases hp

theorem emits_look {prog prog₁ prog₂ : List ReInstr} {x : Node} (isNeg : Bool) (hnf : NotFull prog)
    (h : Emits (prog ++ [.lookahead 0 false]) prog₁ x) (closed : Bool) (hfit : closed = true → NotFull prog₁)
    (hprog : prog₂ = (prog₁ ++ (if closed then [(Instr.matched : ReInstr)] else [])).set prog.length
      (.lookahead (prog₁.length + 1) isNeg)) (hclosed : NotFull prog₂ → closed = true) :
    Emits prog prog₂ (.look isNeg true x) := by
  obtain ⟨t, rfl, rfl, -, hwhole, hsnug⟩ := h
  refine ⟨.look isNeg closed t, rfl, ?_, fun _ => hnf, fun hnf₂ => ⟨hclosed hnf₂, hwhole ?_⟩, hsnug,
    fun hc => hwhole (hfit hc)⟩
  · have htarget : absolute prog.length (t.code.length + 2 : Int) = prog.length + 1 + t.code.length + 1 := by
      unfold absolute
      omega
    have hset : ∀ (ins : ReInstr) (rest : List ReInstr),
        (prog ++ [(Instr.lookahead 0 false : ReInstr)] ++ place (prog.length + 1) t.code ++ rest).set prog.length ins =
          prog ++ ins :: (place (prog.length + 1) t.code ++ rest) := by grind
    rw [hprog]
    simp only [List.length_append, List.length_singleton, length_place]
    rw [hset, Node.code, Node.lookCode, place_cons, place_append, Instr.map, htarget]
    cases closed <;> rfl
  grind

theorem follows_lookahead (hf : Follows expr rexpr) (isNeg : Bool) :
    Follows (parseLookahead expr · isNeg) (readLookahead rexpr · isNeg) := by
  intro c r c' h hp
  change parseLookahead expr c isNeg = .ok c' at hp
  unfold parseLookahead at hp
  obtain ⟨c₁, h₁, hp⟩ := bind_ok hp
  obtain ⟨c₂, h₂, hp⟩ := bind_ok hp
  obtain ⟨hstart, hnf, hprog⟩ := h.open (.inr rfl) h₁
  obtain ⟨x, r₂, hr, hagrees, hem⟩ := hf c₁ r c₂ hstart h₂
  have hread : readLookahead rexpr r isNeg = (match r₂.rest with
      | ch :: rest => if ch = byte ')' then some (.look isNeg true x, { r₂ with rest := rest }) else none
      | [] => none) := by
    unfold readLookahead
    rw [hr]
    rfl
  dsimp only
  rw [hread, ← hagrees.rest]
  cases hrest : c₂.rest with
  | nil =>
    grind
  | cons ch rest =>
    rw [hrest] at hp
    dsimp only at hp ⊢
    split at hp
    · next hch =>
      rw [if_pos hch]
      cases hp
      obtain ⟨hk, closed, hclose, hclosed, hfit⟩ := emitUnchecked_cases c₂.re .matched
      rw [hprog] at hem
      have hset : NotFull ((emit c₂.re .matched).1.prog.set c.re.prog.length
          (.lookahead (c₂.re.prog.length + 1) isNeg)) → closed = true := by
        intro hnf₂
        refine hclosed ?_
        unfold NotFull at hnf₂ ⊢
        grind
      have hlook := emits_look isNeg hnf hem closed hfit (by rw [hclose]) hset
      refine ⟨_, _, rfl, ?_, hlook⟩
      refine (hagrees.move rest).keep ⟨hk.flags, hk.classes, hk.nClasses, fun hcap => ?_⟩ (hlook.behind h.behind)
      have hcap' := hk.cap hcap
      unfold CapOk at hcap' ⊢
      simpa [setInstr, Compiler.emitUnchecked] using hcap'
    · cases hp

theorem Agrees.alloc {c c₁ : Compiler} {r : Reader} {g : Nat} (h : Agrees c r) (ha : c.allocGroup = .ok (g, c₁)) :
    ∃ r₁, r.allocGroup = some (g, r₁) ∧ Agrees c₁ r₁ ∧ c₁.re = c.re := by
  unfold Compiler.allocGroup at ha
  unfold Reader.allocGroup
  rw [← h.groups]
  split at ha
  · cases ha
  next hroom =>
  cases ha
  exact ⟨_, if_neg hroom, ⟨h.rest, rfl, h.flags, h.classes, h.behind, h.cap⟩, rfl⟩

theorem Agrees.name {c : Compiler} {r : Reader} (h : Agrees c r) (name : List UInt8) :
    Agrees (c.nameGroup name) r ∧ (c.nameGroup name).re.prog = c.re.prog := by
  have hkeep : ∀ re : ReHandle, re.prog = c.re.prog → Keeps c.re re → Agrees { c with re := re } r := by
    intro re hprog hk
    exact h.keep hk (hprog ▸ h.behind)
  unfold Compiler.nameGroup
  split
  · exact ⟨h, rfl⟩
  dsimp only
  split
  · exact ⟨hkeep _ rfl ⟨rfl, rfl, rfl, id⟩, rfl⟩
  · exact ⟨hkeep _ rfl ⟨rfl, rfl, rfl, id⟩, rfl⟩

theorem follows_capture (hf : Follows expr rexpr) {c c' : Compiler} {r : Reader} (h : Agrees c r)
    (name : Option (List UInt8)) (hp : (do
      let (g, c) ← c.allocGroup
      parseGroupBody expr (name.elim c c.nameGroup) (some g)) = .ok c') :
    ∃ x r', (do
      let (g, r) ← r.allocGroup
      readGroupBody rexpr r (some g)) = some (x, r') ∧ Agrees c' r' ∧ Emits c.re.prog c'.re.prog x := by
  obtain ⟨⟨g, c₁⟩, ha, hp⟩ := bind_ok hp
  obtain ⟨r₁, hr, hagrees, hre⟩ := h.alloc ha
  have hname : Agrees (name.elim c₁ c₁.nameGroup) r₁ ∧ (name.elim c₁ c₁.nameGroup).re.prog = c.re.prog := by
    cases name with
    | none => grind
    | some name =>
      obtain ⟨hn, hprog⟩ := hagrees.name name
      grind
  obtain ⟨x, r', hread, hag, hem⟩ := follows_groupBody hf (some g) _ _ _ hname.1 hp
  grind

theorem follows_group (hf : Follows expr rexpr) : Follows (parseGroup expr) (readGroup rexpr) := by
  intro c r c' h hp
  unfold parseGroup at hp
  unfold readGroup
  rw [← h.rest]
  cases hrest : c.rest with
  | nil =>
    rw [hrest] at hp
    exact follows_capture hf h none hp
  | cons q rest =>
    rw [hrest] at hp
    dsimp only at hp ⊢
    split at hp
    · next hq =>
      rw [if_pos hq]
      cases rest with
      | nil => cases hp
      | cons nxt rest' =>
        dsimp only at hp ⊢
        split at hp
        · next hn =>
          rw [if_pos hn]
          exact follows_groupBody hf none { c with rest := rest' } _ _ (h.move rest') hp
        next hn₁ =>
        rw [if_neg hn₁]
        split at hp
        · next hn =>
          rw [if_pos hn]
          obtain ⟨⟨name, rest''⟩, hname, hp⟩ := bind_ok hp
          rw [toOption_ok hname]
          exact follows_capture hf (c := { c with rest := rest'' }) (h.move rest'') (some name) hp
        next hn₂ =>
        rw [if_neg hn₂]
        split at hp
        · next hn =>
          rw [if_pos hn]
          exact follows_lookahead hf false { c with rest := rest' } _ _ (h.move rest') hp
        next hn₃ =>
        rw [if_neg hn₃]
        split at hp
        · next hn =>
          rw [if_pos hn]
          exact follows_lookahead hf true { c with rest := rest' } _ _ (h.move rest') hp
        next hn₄ =>
        rw [if_neg hn₄]
        split at hp
        · next hn =>
          rw [if_pos hn]
          -- flags emit nothing
          cases hp
          rw [← h.flags]
          refine ⟨_, _, rfl, ?_, emits_empty _⟩
          exact ⟨rfl, h.groups, rfl, ⟨h.classes.cells, h.classes.room, h.classes.count⟩, h.behind, h.cap⟩
        · cases hp
    · next hq =>
      rw [if_neg hq]
      exact follows_capture hf h none hp

theorem follows_atom (hf : Follows expr rexpr) : Follows (parseAtom expr) (readAtom rexpr) := by
  intro c r c' h hp
  unfold parseAtom at hp
  unfold readAtom
  rw [← h.rest]
  cases hrest : c.rest with
  | nil =>
    grind [emits_empty]
  | cons ch rest =>
    rw [hrest] at hp
    dsimp only at hp ⊢
    have hmove := h.move rest
    split at hp
    · next hch =>
      rw [if_pos hch]
      exact follows_group hf { c with rest := rest } _ _ hmove hp
    next h₁ =>
    rw [if_neg h₁]
    split at hp
    · next hch =>
      rw [if_pos hch]
      exact follows_class { c with rest := rest } _ _ hmove hp
    next h₂ =>
    rw [if_neg h₂]
    split at hp
    · next hch =>
      rw [if_pos hch]
      exact ⟨_, _, rfl, hmove.item .any (.inl rfl) hp⟩
    next h₃ =>
    rw [if_neg h₃]
    split at hp
    · next hch =>
      rw [if_pos hch]
      exact ⟨_, _, rfl, hmove.item .bol (.inr rfl) hp⟩
    next h₄ =>
    rw [if_neg h₄]
    split at hp
    · next hch =>
      rw [if_pos hch]
      exact ⟨_, _, rfl, hmove.item .eol (.inr rfl) hp⟩
    next h₅ =>
    rw [if_neg h₅]
    split at hp
    · next hch =>
      rw [if_pos hch]
      obtain ⟨⟨ins, rest'⟩, hscan, hp⟩ := bind_ok hp
      obtain ⟨i, hi, rfl, hitem⟩ := isItem_scanEscape hscan
      rw [toOption_ok hscan]
      refine ⟨.item i hi, { r with rest := rest' }, ?_, (h.move rest').item i hi hp⟩
      grind
    · next hch =>
      rw [if_neg hch]
      exact ⟨_, _, rfl, hmove.item (.char ch) (.inl rfl) hp⟩

end Group

end LsLang.Regex
