import LsLang.Regex.EmittedPieces

/-! Alternatives: the jumps behind the branches are patched when the last branch is there. -/

namespace LsLang.Regex

section Alternation

def patched (final : Nat) (patches : List (Option Nat)) (prog : List ReInstr) : List ReInstr :=
  patches.foldl (fun p j => j.elim p fun i => p.set i (.jump final)) prog

theorem patched_snoc (final : Nat) (patches : List (Option Nat)) (j : Option Nat) (prog : List ReInstr) :
    patched final (patches ++ [j]) prog =
      j.elim (patched final patches prog) fun i => (patched final patches prog).set i (.jump final) := by
  unfold patched
  grind

@[simp]
theorem length_patched (final : Nat) (patches : List (Option Nat)) (prog : List ReInstr) :
    (patched final patches prog).length = prog.length := by
  induction patches generalizing prog with
  | nil => rfl
  | cons j patches ih =>
    refine (ih _).trans ?_
    cases j with
    | none => rfl
    | some i => exact List.length_set

theorem patched_append {final : Nat} {patches : List (Option Nat)} {P : List ReInstr}
    (h : ∀ i, some i ∈ patches → i < P.length) (Q : List ReInstr) :
    patched final patches (P ++ Q) = patched final patches P ++ Q := by
  induction patches generalizing P with
  | nil => rfl
  | cons j patches ih =>
    have hrest : ∀ i, some i ∈ patches → i < P.length := fun i hi => h i (List.mem_cons_of_mem _ hi)
    cases j with
    | none => exact ih hrest
    | some i =>
      have hset : (P ++ Q).set i (.jump final) = P.set i (.jump final) ++ Q :=
        List.set_append_left _ _ (h i List.mem_cons_self)
      refine (congrArg (patched final patches) hset).trans (ih ?_)
      grind

theorem mem_patched {final : Nat} {patches : List (Option Nat)} {P : List ReInstr} {ins : ReInstr}
    (h : ins ∈ patched final patches P) : ins ∈ P ∨ ins = .jump final := by
  induction patches generalizing P with
  | nil => exact .inl h
  | cons j patches ih =>
    rcases ih h with hmem | heq
    · cases j with
      | none => exact .inl hmem
      | some i => grind
    · exact .inr heq

theorem foldl_patchJump (final : Nat) (patches : List (Option Nat)) (re : ReHandle) :
    Keeps re (patches.foldl (patchJump final) re) ∧
      (patches.foldl (patchJump final) re).prog = patched final patches re.prog := by
  induction patches generalizing re with
  | nil => exact ⟨⟨rfl, rfl, rfl, id⟩, rfl⟩
  | cons j patches ih =>
    obtain ⟨hk, hprog⟩ := ih (patchJump final re j)
    have hstep : Keeps re (patchJump final re j) := by
      cases j with
      | none => exact ⟨rfl, rfl, rfl, id⟩
      | some i =>
        refine ⟨rfl, rfl, rfl, fun hcap => ?_⟩
        unfold CapOk patchJump setInstr at *
        simpa using hcap
    refine ⟨⟨hk.flags.trans hstep.flags, hk.classes.trans hstep.classes, hk.nClasses.trans hstep.nClasses,
      hk.cap ∘ hstep.cap⟩, ?_⟩
    rw [List.foldl_cons, hprog]
    cases j <;> rfl

theorem place_alt {P : List ReInstr} {l r : Code} {jumped : Bool} {start final : Nat}
    (hstart : start = P.length + 1 + l.length + if jumped then 1 else 0) (hfinal : final = start + r.length) :
    P ++ place P.length (Node.altCode jumped l r) =
      P ++ .split (P.length + 1) start :: (place (P.length + 1) l ++
        (if jumped then [.jump final] else []) ++ place start r) := by
  subst hfinal hstart
  rw [Node.altCode, place_cons, place_append, place_append]
  have h₁ : absolute P.length 1 = P.length + 1 := absolute_nat _ 1
  cases jumped with
  | true =>
    have h₂ : absolute P.length (l.length + 2 : Int) = P.length + 1 + l.length + 1 := by
      unfold absolute
      omega
    have h₃ : absolute (P.length + 1 + l.length) (r.length + 1 : Int) =
        P.length + 1 + l.length + 1 + r.length := by
      unfold absolute
      omega
    simp only [if_true, place_singleton, Instr.map, h₁, h₂, h₃, List.length_append, List.length_singleton]
    rfl
  | false =>
    have h₂ : absolute P.length (l.length + 1 : Int) = P.length + 1 + l.length := by
      unfold absolute
      omega
    simp only [Bool.false_eq_true, if_false, place_nil, Instr.map, h₁, h₂, List.append_nil, Nat.add_zero]

def slot (c : Compiler) : List ReInstr := if c.rest.head? = some (byte '|') then [.split 0 0] else []

/-- Where the loop over the branches stands: behind `P` lies the branch read last. -/
structure Pending (c : Compiler) (P : List ReInstr) (patches : List (Option Nat)) (t : Node) : Prop where
  prog : c.re.prog = P ++ slot c ++ place (P ++ slot c).length t.code
  behind : NotFull c.re.prog → Behind P ∧ t.Whole
  room : t.code ≠ [] → NotFull P
  snug : t.Snug
  bar : c.rest.head? = some (byte '|') → NotFull P ∧ t.Whole
  inside : ∀ i, some i ∈ patches → i < P.length
  all : none ∈ patches → ¬ NotFull c.re.prog

/-- What the loop leaves behind `P` is the code of the branches. -/
def Branches (c' : Compiler) (P : List ReInstr) (patches : List (Option Nat)) (y : Node) : Prop :=
  ∃ u : Node, u.complete = y ∧
    c'.re.prog = patched c'.re.prog.length patches P ++ place P.length u.code ∧
    (u.code ≠ [] → NotFull P) ∧ (NotFull c'.re.prog → u.Whole) ∧ u.Snug

section Step

variable {c c' : Compiler} {r : Reader} {P : List ReInstr} {patches : List (Option Nat)} {t : Node}

theorem Pending.last (hpend : Pending c P patches t) (h : Agrees c r) (hlast : c.rest.head? ≠ some (byte '|')) :
    Agrees { c with re := patches.foldl (patchJump c.re.prog.length) c.re } r ∧
      Branches { c with re := patches.foldl (patchJump c.re.prog.length) c.re } P patches t.complete := by
  obtain ⟨hk, hprog⟩ := foldl_patchJump c.re.prog.length patches c.re
  have hpend' := hpend.prog
  unfold slot at hpend'
  rw [if_neg hlast, List.append_nil] at hpend'
  have hpatched : (patches.foldl (patchJump c.re.prog.length) c.re).prog =
      patched c.re.prog.length patches P ++ place P.length t.code := by
    rw [hprog]
    generalize c.re.prog.length = final
    rw [hpend']
    exact patched_append hpend.inside _
  have hlen : (patches.foldl (patchJump c.re.prog.length) c.re).prog.length = c.re.prog.length := by
    rw [hprog, length_patched]
  have hnf : NotFull (patches.foldl (patchJump c.re.prog.length) c.re).prog → NotFull c.re.prog := by
    unfold NotFull
    rw [hlen]
    exact id
  refine ⟨h.keep hk fun hfull => ?_, t, rfl, ?_, hpend.room, fun hfull => (hpend.behind (hnf hfull)).2, hpend.snug⟩
  · intro ins hins a ha
    rw [hprog] at hins
    rw [hlen]
    rcases mem_patched hins with hmem | rfl
    · exact h.behind (hnf hfull) ins hmem a ha
    · rw [List.mem_singleton.1 ha]
  grind

/-- The program when the next branch starts: the slot is written, and a jump ends the branch in front. -/
def branchProg (P : List ReInstr) (t : Node) (jumped : Bool) : List ReInstr :=
  P ++ .split (P.length + 1) (P.length + 1 + t.code.length + if jumped then 1 else 0) ::
    (place (P.length + 1) t.code ++ if jumped then [.jump 0] else [])

theorem length_branchProg (P : List ReInstr) (t : Node) (jumped : Bool) :
    (branchProg P t jumped).length = P.length + 1 + t.code.length + if jumped then 1 else 0 := by
  unfold branchProg
  cases jumped <;> simp <;> omega

theorem behind_branchProg (hP : Behind P) (ht : t.Whole) (jumped : Bool) : Behind (branchProg P t jumped) := by
  intro ins hins a ha
  rw [length_branchProg]
  unfold branchProg at hins
  rcases List.mem_append.1 hins with hins | hins
  · have := hP ins hins a ha
    omega
  rcases List.mem_cons.1 hins with rfl | hins
  · simp only [Instr.targets, List.mem_cons, List.not_mem_nil, or_false] at ha
    omega
  rcases List.mem_append.1 hins with hins | hins
  · have hclosed : Behind (List.replicate (P.length + 1) (.jump 0) ++
        place (List.replicate (P.length + 1) (.jump 0 : ReInstr)).length t.code) := by
      refine behind_place (fun ins hins a ha => ?_) ht.closed_code
      rw [List.eq_of_mem_replicate hins, Instr.targets, List.mem_singleton] at ha
      grind
    rw [List.length_replicate] at hclosed
    have := hclosed ins (List.mem_append_right _ hins) a ha
    rw [List.length_append, List.length_replicate, length_place] at this
    omega
  · split at hins
    · rw [List.mem_singleton.1 hins, Instr.targets, List.mem_singleton] at ha
      omega
    · cases hins

theorem Pending.jump {rest : List UInt8} (hpend : Pending c P patches t)
    (hrest : c.rest = byte '|' :: rest) :
    ∃ (jumped : Bool) (re : ReHandle) (j : Option Nat), emit c.re (.jump 0) = (re, j) ∧
      j = (if jumped then some (P.length + 1 + t.code.length) else none) ∧
      re.prog.length = P.length + 1 + t.code.length + (if jumped then 1 else 0) ∧
      (setInstr re P.length (.split (P.length + 1) re.prog.length)).prog = branchProg P t jumped ∧
      Keeps c.re (setInstr re P.length (.split (P.length + 1) re.prog.length)) ∧
      (NotFull (branchProg P t jumped) → jumped = true ∧ NotFull c.re.prog) := by
  have hslot : slot c = [.split 0 0] := by
    unfold slot
    grind
  have hprog : c.re.prog = P ++ .split 0 0 :: place (P.length + 1) t.code := by
    rw [hpend.prog, hslot, List.length_append, List.append_assoc]
    rfl
  have hset : ∀ re : ReHandle, Keeps c.re re → ∀ ins, Keeps c.re (setInstr re P.length ins) := by
    intro re hk ins
    refine ⟨hk.flags, hk.classes, hk.nClasses, fun hcap => ?_⟩
    have hcap' := hk.cap hcap
    unfold CapOk setInstr at *
    simpa using hcap'
  have hlen : c.re.prog.length = P.length + 1 + t.code.length := by
    rw [hprog]
    simp
    omega
  rcases emit_cases c.re (.jump 0) with ⟨hfull, he⟩ | ⟨hlt, re, he, hp, ho, hcap⟩
  · refine ⟨false, _, none, he, rfl, hlen, ?_, hset { c.re with refused := true } ⟨rfl, rfl, rfl, id⟩ _,
      fun hnf => ?_⟩
    · unfold setInstr branchProg
      grind
    · unfold NotFull at hnf
      grind [length_branchProg]
  · refine ⟨true, re, some c.re.prog.length, he, ?_, ?_, ?_, hset re (ho.keeps hcap) _, fun hnf => ⟨rfl, ?_⟩⟩
    · rw [hlen, if_pos rfl]
    · grind
    · unfold setInstr branchProg
      grind
    · unfold NotFull
      omega

theorem Pending.next {c₂ c₃ : Compiler} {j : Option Nat} {jumped : Bool} {x : Node} (hpend : Pending c P patches t)
    (hj : j = if jumped then some (P.length + 1 + t.code.length) else none)
    (hnf : NotFull (branchProg P t jumped) → jumped = true ∧ NotFull c.re.prog)
    (h₂ : Agrees c₂ r) (hem : Emits (branchProg P t jumped) c₂.re.prog x)
    (h₃ : (do
      if c₂.rest.head? = some (byte '|') then
        if maxInstrs ≤ c₂.re.prog.length + 1 then fail "pattern too long"
        let re ← reserveOr "pattern too long" c₂.re 1
        let re ← openSlot re (branchProg P t jumped).length
        .ok { c₂ with re := re }
      else .ok c₂) = (.ok c₃ : Except Stop Compiler)) :
    ∃ u : Node, u.complete = x ∧ Agrees c₃ r ∧ Pending c₃ (branchProg P t jumped) (patches ++ [j]) u := by
  obtain ⟨m, rfl, hprog₂, hroom, hwhole, hsnug⟩ := hem
  have hfront : NotFull c₂.re.prog → jumped = true ∧ NotFull c.re.prog := by grind [notFull_left]
  have hbehind : NotFull c₂.re.prog → Behind (branchProg P t jumped) := by
    intro hfull
    obtain ⟨hP, ht⟩ := hpend.behind (hfront hfull).2
    exact behind_branchProg hP ht jumped
  have hinside : ∀ i, some i ∈ patches ++ [j] → i < (branchProg P t jumped).length := by
    intro i hi
    rw [length_branchProg]
    rcases List.mem_append.1 hi with hi | hi
    · have := hpend.inside i hi
      omega
    grind
  have hall : none ∈ patches ++ [j] → ¬ NotFull c₂.re.prog := by
    intro hmem hfull
    rcases List.mem_append.1 hmem with hmem | hmem
    · exact hpend.all hmem (hfront hfull).2
    grind
  refine ⟨m, rfl, ?_⟩
  split at h₃
  -- the slot is opened in front of the branch, whose code moves on by one
  · next hbar =>
    obtain ⟨hguard, h₃⟩ := guard_ok h₃
    obtain ⟨re₁, h₁, h₃⟩ := bind_ok h₃
    obtain ⟨re₂, hopen, h₃⟩ := bind_ok h₃
    cases h₃
    have hfull : NotFull c₂.re.prog := by
      unfold NotFull
      omega
    obtain ⟨-, hp₁, ho₁, -, hcap₁⟩ := reserveOr_ok h₁
    obtain ⟨hp, ho, hcap⟩ := openSlot_ok (hp₁.trans hprog₂) (hbehind hfull) m.inward_code hopen
    have hslot : slot { c₂ with re := re₂ } = [.split 0 0] := if_pos hbar
    have hp' : re₂.prog = branchProg P t jumped ++ [.split 0 0] ++
        place (branchProg P t jumped ++ [(Instr.split 0 0 : ReInstr)]).length m.code := by grind
    refine ⟨h₂.keep ((ho₁.trans ho).keeps (hcap ∘ hcap₁)) fun _ => ?_, ?_, fun _ => ⟨hbehind hfull, hwhole hfull⟩,
      hroom, hsnug, fun _ => ⟨?_, hwhole hfull⟩, hinside, fun hmem => absurd hfull (hall hmem)⟩
    · rw [hp']
      refine behind_place ((hbehind hfull).snoc fun a ha => ?_) (hwhole hfull).closed_code
      simp only [Instr.targets, List.mem_cons, List.not_mem_nil, or_false, or_self] at ha
      grind
    · rw [hslot]
      exact hp'
    · rw [hprog₂] at hfull
      exact notFull_left hfull
  · next hbar =>
    cases h₃
    have hslot : slot c₂ = [] := if_neg hbar
    refine ⟨h₂, ?_, fun hfull => ⟨hbehind hfull, hwhole hfull⟩, hroom, hsnug, fun h => absurd h hbar, hinside, hall⟩
    grind

end Step

theorem Branches.cons {c' : Compiler} {P : List ReInstr} {patches : List (Option Nat)} {t : Node} {y : Node}
    {j : Option Nat} {jumped : Bool} (hj : j = if jumped then some (P.length + 1 + t.code.length) else none)
    (hinside : ∀ i, some i ∈ patches → i < P.length)
    (hP : NotFull P) (ht : t.Whole) (hjump : NotFull (branchProg P t jumped) → jumped = true)
    (h : Branches c' (branchProg P t jumped) (patches ++ [j]) y) :
    Branches c' P patches (.alt true t.complete y) := by
  obtain ⟨u, rfl, hprog, hroom, hwhole, hsnug⟩ := h
  have hlen : c'.re.prog.length = (branchProg P t jumped).length + u.code.length := by
    conv_lhs => rw [hprog]
    rw [List.length_append, length_patched, length_place]
  have hlast : u.code = [] ∨ jumped = true := (em (u.code = [])).imp_right fun hne => hjump (hroom hne)
  refine ⟨.alt jumped t u, rfl, ?_, fun _ => hP, fun hfull => ?_, ht, hsnug, hlast⟩
  · generalize hfinal : c'.re.prog.length = final at hprog hlen
    have hfront : patched final (patches ++ [j]) (branchProg P t jumped) =
        patched final patches P ++ .split (P.length + 1) (branchProg P t jumped).length ::
          (place (P.length + 1) t.code ++ if jumped then [.jump final] else []) := by
      rw [patched_snoc, branchProg, patched_append hinside, ← branchProg, length_branchProg, hj]
      cases jumped with
      | false => rfl
      | true =>
        have hpos : P.length + 1 + t.code.length = (patched final patches P ++
            Instr.split (P.length + 1) (P.length + 1 + t.code.length + 1) ::
              place (P.length + 1) t.code).length := by
          simp
          omega
        simp only [if_true, Option.elim_some]
        rw [hpos]
        simp
    have hplace := @place_alt (patched final patches P) t.code u.code jumped
      (branchProg P t jumped).length final (by rw [length_branchProg, length_patched]) hlen
    rw [length_patched] at hplace
    rw [hprog, hfront, Node.code, hplace]
    simp
  · have hnf : NotFull (branchProg P t jumped) := by
      unfold NotFull at hfull ⊢
      omega
    exact ⟨hjump hnf, ht, hwhole hfull⟩

variable {expr : Compiler → Except Stop Compiler} {rexpr : Reader → Option (Node × Reader)}

theorem follows_altLoop (hf : Follows expr rexpr) (fuel : Nat) {c c' : Compiler} {r : Reader} {P : List ReInstr}
    {patches : List (Option Nat)} {t : Node} (h : Agrees c r) (hpend : Pending c P patches t)
    (hp : altLoop expr fuel P.length patches c = .ok c') :
    ∃ y r', readBranches rexpr fuel t.complete r = some (y, r') ∧ Agrees c' r' ∧ Branches c' P patches y := by
  induction fuel generalizing c r P patches t with
  | zero =>
    unfold altLoop at hp
    unfold readBranches
    rw [← h.rest]
    cases hrest : c.rest with
    | nil =>
      rw [hrest] at hp
      cases hp
      have hlast := hpend.last h (by rw [hrest]; nofun)
      grind
    | cons ch rest =>
      rw [hrest] at hp
      dsimp only at hp ⊢
      split at hp
      · cases hp
      · next hch =>
        cases hp
        rw [if_neg hch]
        have hlast := hpend.last h (by grind)
        grind
  | succ fuel ih =>
    unfold altLoop at hp
    unfold readBranches
    rw [← h.rest]
    cases hrest : c.rest with
    | nil =>
      rw [hrest] at hp
      cases hp
      have hlast := hpend.last h (by rw [hrest]; nofun)
      grind
    | cons ch rest =>
      rw [hrest] at hp
      dsimp only at hp ⊢
      split at hp
      · next hch =>
        rw [if_pos hch]
        subst hch
        -- the branch in front gets its jump, and the slot in front of it its split
        obtain ⟨-, hp⟩ := guard_ok hp
        obtain ⟨jumped, re, j, hemit, hj, hlen, hprog, hk, hnf⟩ := hpend.jump hrest
        rw [hemit] at hp
        dsimp only at hp
        obtain ⟨c₂, hconcat, hp⟩ := bind_ok hp
        have hstart : Agrees { c with rest := rest, re := setInstr re P.length (.split (P.length + 1) re.prog.length) }
            { r with rest := rest } := by
          refine (h.move rest).keep hk fun hfull => ?_
          rw [hprog] at hfull ⊢
          obtain ⟨hP, ht⟩ := hpend.behind (hnf hfull).2
          exact behind_branchProg hP ht jumped
        obtain ⟨x, r₂, hread, hagrees, hem⟩ := follows_concat hf rest.length _ _ _ hstart hconcat
        dsimp only at hem
        rw [hprog] at hem
        have hlen' : re.prog.length = (branchProg P t jumped).length := by rw [hlen, length_branchProg]
        rw [hlen'] at hp
        -- if one more bar stands behind the branch, it gets a slot
        obtain ⟨c₃, h₃, hp⟩ : ∃ c₃, (do
            if c₂.rest.head? = some (byte '|') then
              if maxInstrs ≤ c₂.re.prog.length + 1 then fail "pattern too long"
              let re ← reserveOr "pattern too long" c₂.re 1
              let re ← openSlot re (branchProg P t jumped).length
              .ok { c₂ with re := re }
            else .ok c₂) = (.ok c₃ : Except Stop Compiler) ∧
            altLoop expr fuel (branchProg P t jumped).length (patches ++ [j]) c₃ = .ok c' := by
          split at hp
          · next hbar =>
            rw [if_pos hbar]
            obtain ⟨hguard, hp⟩ := guard_ok hp
            obtain ⟨re₁, h₁, hp⟩ := bind_ok hp
            obtain ⟨re₂, h₂, hp⟩ := bind_ok hp
            refine ⟨{ c₂ with re := re₂ }, ?_, hp⟩
            rw [if_neg hguard]
            show (reserveOr "pattern too long" c₂.re 1).bind _ = _
            rw [h₁]
            show (openSlot re₁ (branchProg P t jumped).length).bind _ = _
            rw [h₂]
            rfl
          grind
        obtain ⟨u, rfl, hagrees₃, hpend₃⟩ := hpend.next hj hnf hagrees hem h₃
        obtain ⟨y, r', hread', hagrees', hbr⟩ := ih hagrees₃ hpend₃ hp
        refine ⟨.alt true t.complete y, r', ?_, hagrees', ?_⟩
        · grind
        · obtain ⟨hP, ht⟩ := hpend.bar (by rw [hrest]; rfl)
          exact hbr.cons hj hpend.inside hP ht fun hfull => (hnf hfull).1
      · next hch =>
        cases hp
        rw [if_neg hch]
        have hlast := hpend.last h (by grind)
        grind

theorem follows_inner (hf : Follows expr rexpr) : Follows (parseExprInner expr) (readExprInner rexpr) := by
  intro c r c' h hparse
  unfold parseExprInner at hparse
  obtain ⟨c₁, hconcat, hp⟩ := bind_ok hparse
  clear hparse
  obtain ⟨x, r₁, hread, hagrees, hem⟩ := follows_concat hf c.rest.length c r c₁ h hconcat
  unfold readExprInner
  rw [← h.rest, hread, Option.bind_eq_bind, Option.bind_some]
  dsimp only at hp ⊢
  obtain ⟨t, rfl, hprog, hroom, hwhole, hsnug⟩ := hem
  split at hp
  · next hbar =>
    obtain ⟨hguard, hp⟩ := guard_ok hp
    obtain ⟨re₁, h₁, hp⟩ := bind_ok hp
    obtain ⟨re₂, h₂, hp⟩ := bind_ok hp
    have hfull : NotFull c₁.re.prog := by
      unfold NotFull
      omega
    have hnf : NotFull c.re.prog := by
      rw [hprog] at hfull
      exact notFull_left hfull
    obtain ⟨-, hp₁, ho₁, -, hcap₁⟩ := reserveOr_ok h₁
    obtain ⟨hp₂, ho, hcap⟩ := openSlot_ok (hp₁.trans hprog) (h.behind hnf) t.inward_code h₂
    have hslot : slot { c₁ with re := re₂ } = [.split 0 0] := if_pos hbar
    have hp' : re₂.prog = c.re.prog ++ [.split 0 0] ++
        place (c.re.prog ++ [(Instr.split 0 0 : ReInstr)]).length t.code := by grind
    have hstart : Agrees { c₁ with re := re₂ } r₁ := by
      refine hagrees.keep ((ho₁.trans ho).keeps (hcap ∘ hcap₁)) fun _ => ?_
      rw [hp']
      refine behind_place ((h.behind hnf).snoc fun a ha => ?_) (hwhole hfull).closed_code
      simp only [Instr.targets, List.mem_cons, List.not_mem_nil, or_false, or_self] at ha
      grind
    have hpend : Pending { c₁ with re := re₂ } c.re.prog [] t :=
      ⟨by rw [hslot]; exact hp', fun _ => ⟨h.behind hnf, hwhole hfull⟩, hroom, hsnug,
        fun _ => ⟨hnf, hwhole hfull⟩, fun i hi => absurd hi List.not_mem_nil, fun hi => absurd hi List.not_mem_nil⟩
    rw [← hagrees.rest]
    obtain ⟨y, r', hread', hagrees', u, rfl, hprog', hroom', hwhole', hsnug'⟩ :=
      follows_altLoop hf _ hstart hpend hp
    exact ⟨_, r', hread', hagrees', u, rfl, hprog', hroom', hwhole', hsnug'⟩
  · next hbar =>
    cases hp
    refine ⟨t.complete, r₁, ?_, hagrees, t, rfl, hprog, hroom, hwhole, hsnug⟩
    unfold readBranches
    rw [hagrees.rest] at hbar
    grind

end Alternation

end LsLang.Regex
