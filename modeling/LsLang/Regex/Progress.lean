import LsLang.Regex.Repeat

/-! What each construct leaves of the pattern: a piece reads a byte at least. -/

namespace LsLang.Regex

def IsMember (first : Bool) (ch : UInt8) : Prop := ¬ (ch = byte ']' ∧ first = false) ∧ ch ≠ byte '\\'

section Shapes

variable {first : Bool} {ch hi : UInt8} {rest : List UInt8}

theorem scanClass_escape (first : Bool) (esc : UInt8) (rest : List UInt8) :
    scanClass first (byte '\\' :: esc :: rest) =
      scanClass false rest >>= fun p => .ok (classEscape esc ++ p.1, p.2) := by
  rw [scanClass, if_neg (fun h => absurd h.1 (by decide)), if_pos rfl]

theorem scanClass_range (h : IsMember first ch) (hb : hi ≠ byte ']') (hs : hi ≠ byte '\\') :
    scanClass first (ch :: byte '-' :: hi :: rest) =
      rangeBytes ch hi >>= fun lo => scanClass false rest >>= fun p => .ok (lo ++ p.1, p.2) := by
  rw [scanClass, if_neg h.1, if_neg h.2]
  grind

theorem scanClass_rangeEscaped (h : IsMember first ch) :
    scanClass first (ch :: byte '-' :: byte '\\' :: hi :: rest) =
      rangeBytes ch hi >>= fun lo => scanClass false rest >>= fun p => .ok (lo ++ p.1, p.2) := by
  rw [scanClass, if_neg h.1, if_neg h.2]
  grind

theorem scanClass_member (h : IsMember first ch) (hr : ∀ hi rest', rest = byte '-' :: hi :: rest' → hi = byte ']') :
    scanClass first (ch :: rest) = scanClass false rest >>= fun p => .ok (ch :: p.1, p.2) := by
  rcases rest with - | ⟨dash, - | ⟨hi, rest⟩⟩
  · rw [scanClass.eq_def first]
    dsimp only
    rw [if_neg h.1, if_neg h.2]
  · rw [scanClass.eq_def first]
    dsimp only
    rw [if_neg h.1, if_neg h.2]
  · rw [scanClass, if_neg h.1, if_neg h.2]
    grind

end Shapes

section Progress

theorem length_scanEscape {rest rest' : List UInt8} {ins : ReInstr} (h : scanEscape rest = .ok (ins, rest')) :
    rest'.length < rest.length := by
  cases rest with
  | nil => cases h
  | cons esc rest =>
    have hone : ∀ {i : ReInstr}, (.ok (i, rest) : Except Stop (ReInstr × List UInt8)) = .ok (ins, rest') →
        rest'.length < (esc :: rest).length := by grind
    unfold scanEscape at h
    dsimp only at h
    refine ite_elim h hone fun h => ite_elim h hone fun h => ite_elim h hone fun h => ?_
    refine ite_elim h hone fun h => ite_elim h hone fun h => ite_elim h hone fun h => ?_
    refine ite_elim h hone fun h => ite_elim h hone fun h => ite_elim h hone fun h => ?_
    refine ite_elim h hone fun h => ite_elim h hone fun h => ite_elim h hone fun h => ?_
    refine ite_elim h hone fun h => ite_elim h hone fun h => ite_elim h hone fun h => ?_
    refine ite_elim h (fun h => ?_) fun h => ite_elim h (fun h => nomatch h) hone
    split at h
    · next hi lo tail =>
      refine ite_elim h (fun heq => ?_) fun h => nomatch h
      cases heq
      simp only [List.length_cons]
      omega
    · cases h

theorem length_scanClass {first : Bool} {body rest : List UInt8} {bytes : List UInt8}
    (h : scanClass first body = .ok (bytes, rest)) : rest.length ≤ body.length := by
  induction first, body using scanClass.induct generalizing bytes rest with
  | case1 first => cases h
  | case2 first ch tail hclose =>
    rw [scanClass.eq_def] at h
    grind
  | case3 first hclose =>
    rw [scanClass.eq_def] at h
    grind
  | case4 first esc tail hclose ih =>
    rw [scanClass_escape] at h
    obtain ⟨p, hp, h⟩ := bind_ok h
    grind
  | case5 first ch hclose hs dash hr =>
    rw [scanClass, if_neg hclose, if_neg hs] at h
    dsimp only at h
    rw [if_pos hr, if_pos rfl] at h
    obtain ⟨lo, -, h⟩ := bind_ok h
    cases h
  | case6 first ch hclose hs dash esc tail hr ih =>
    obtain ⟨rfl, -⟩ := hr
    rw [scanClass_rangeEscaped ⟨hclose, hs⟩] at h
    obtain ⟨lo, -, h⟩ := bind_ok h
    obtain ⟨p, hp, h⟩ := bind_ok h
    grind
  | case7 first ch hclose hs dash hi tail hr hhi ih =>
    obtain ⟨rfl, hb⟩ := hr
    rw [scanClass_range ⟨hclose, hs⟩ hb hhi] at h
    obtain ⟨lo, -, h⟩ := bind_ok h
    obtain ⟨p, hp, h⟩ := bind_ok h
    grind
  | case8 first ch hclose hs dash hi tail hr ih =>
    have hnr : ∀ hi' rest', dash :: hi :: tail = byte '-' :: hi' :: rest' → hi' = byte ']' := by
      grind
    rw [scanClass_member ⟨hclose, hs⟩ hnr] at h
    obtain ⟨p, hp, h⟩ := bind_ok h
    grind
  | case9 first ch hclose hs tail hshort ih =>
    have hnr : ∀ hi' rest', tail = byte '-' :: hi' :: rest' → hi' = byte ']' := fun hi' rest' heq =>
      (hshort _ _ _ heq).elim
    rw [scanClass_member ⟨hclose, hs⟩ hnr] at h
    obtain ⟨p, hp, h⟩ := bind_ok h
    grind

theorem length_scanClassBody {body rest : List UInt8} {k : Bool × List UInt8} (h : scanClassBody body = .ok (k, rest)) :
    rest.length ≤ body.length := by
  cases body with
  | nil => cases h
  | cons ch tail =>
    unfold scanClassBody at h
    dsimp only at h
    split at h
    · obtain ⟨⟨bs, rest'⟩, hp, h⟩ := bind_ok h
      cases h
      exact Nat.le_succ_of_le (length_scanClass hp)
    · obtain ⟨⟨bs, rest'⟩, hp, h⟩ := bind_ok h
      cases h
      exact length_scanClass hp

theorem length_scanName {rest rest' name : List UInt8} (h : scanName rest = .ok (name, rest')) :
    rest'.length ≤ rest.length := by
  induction rest generalizing name rest' with
  | nil => cases h
  | cons ch rest ih =>
    unfold scanName at h
    split at h
    · grind
    · obtain ⟨⟨name', rest''⟩, hp, h⟩ := bind_ok h
      grind

theorem length_scanFlags (rest : List UInt8) (flags : Nat) : (scanFlags rest flags).2.length ≤ rest.length := by
  induction rest generalizing flags with
  | nil => exact Nat.le_refl _
  | cons ch rest ih =>
    have hnext := fun flags => Nat.le_succ_of_le (ih flags)
    unfold scanFlags
    split
    · exact Nat.le_succ _
    split
    · exact hnext _
    grind

theorem length_scanDigits (rest : List UInt8) (n : Int) : (scanDigits rest n).2.length ≤ rest.length := by
  induction rest generalizing n with
  | nil => exact Nat.le_refl _
  | cons ch rest ih =>
    unfold scanDigits
    grind

theorem length_checkCount {rest rest' : List UInt8} {n m : Int} {k : Count}
    (h : checkCount n m rest = .ok (k, rest')) : rest'.length ≤ rest.length := by
  obtain ⟨-, -, -, rfl⟩ := checkCount_ok h
  exact length_scanLazy rest

theorem length_countEnd {ch : UInt8} {rest rest' : List UInt8} {n m : Int} {k : Count} {msg : String}
    (h : (if ch = byte '}' then checkCount n m rest else fail msg) = .ok (k, rest')) :
    rest'.length ≤ (ch :: rest).length :=
  ite_elim h (fun h => Nat.le_succ_of_le (length_checkCount h)) fun h => nomatch h

theorem length_scanCount {rest rest' : List UInt8} {k : Count} (h : scanCount rest = .ok (k, rest')) :
    rest'.length ≤ rest.length := by
  unfold scanCount at h
  have hn := length_scanDigits rest 0
  generalize scanDigits rest 0 = p at h hn
  rcases p with ⟨n, - | ⟨ch, tail⟩⟩
  · cases h
  refine Nat.le_trans ?_ hn
  dsimp only at h ⊢
  by_cases hcomma : ch = byte ','
  · simp only [if_pos hcomma, if_true] at h
    cases tail with
    | nil => cases h
    | cons ch₁ tail =>
      by_cases hbrace : ch₁ = byte '}'
      · simp only [if_pos hbrace] at h
        exact Nat.le_succ_of_le (Nat.le_succ_of_le (length_checkCount h))
      · simp only [if_neg hbrace] at h
        have hm := length_scanDigits (ch₁ :: tail) 0
        generalize scanDigits (ch₁ :: tail) 0 = q at h hm
        rcases q with ⟨m, - | ⟨ch₂, tail'⟩⟩
        · cases h
        · exact Nat.le_succ_of_le (Nat.le_trans (@length_countEnd _ _ _ _ _ _ "invalid \x7bn,m\x7d" h) hm)
  · simp only [if_neg hcomma, Bool.false_eq_true, if_false] at h
    exact @length_countEnd _ _ _ _ _ _ "invalid \x7bn,m\x7d" h

def Shrinks (f : Compiler → Except Stop Compiler) : Prop := ∀ c c', f c = .ok c' → c'.rest.length ≤ c.rest.length

variable {c c' : Compiler}

theorem rest_emitOrFail {ins : ReInstr} (h : c.emitOrFail ins = .ok c') : c'.rest = c.rest := by
  unfold Compiler.emitOrFail at h
  obtain ⟨re, -, h⟩ := bind_ok h
  cases h
  rfl

theorem rest_allocGroup {g : Nat} (h : c.allocGroup = .ok (g, c')) : c'.rest = c.rest := by
  unfold Compiler.allocGroup at h
  refine ite_elim h (fun h => nomatch h) fun h => ?_
  cases h
  rfl

theorem rest_nameGroup (c : Compiler) (name : List UInt8) : (c.nameGroup name).rest = c.rest := by
  unfold Compiler.nameGroup
  split <;> rfl

theorem shrinks_class : Shrinks Compiler.parseClass := by
  intro c c' h
  unfold Compiler.parseClass at h
  refine ite_elim h (fun h => nomatch h) fun h => ite_elim h (fun h => nomatch h) fun h => ?_
  obtain ⟨⟨⟨neg, bytes⟩, rest⟩, hscan, h⟩ := bind_ok h
  rw [rest_emitOrFail h]
  exact length_scanClassBody hscan

variable {expr : Compiler → Except Stop Compiler}

theorem rest_openGroup {group : Option Nat} (h : openGroup c group = .ok c') : c'.rest = c.rest := by
  cases group with
  | none =>
    cases h
    rfl
  | some g => exact rest_emitOrFail h

theorem rest_closeGroup {group : Option Nat} (h : closeGroup group c = .ok c') : c'.rest.length ≤ c.rest.length := by
  unfold closeGroup at h
  cases hrest : c.rest with
  | nil =>
    rw [hrest] at h
    cases h
  | cons ch rest =>
    rw [hrest] at h
    refine ite_elim h (fun h => ?_) fun h => nomatch h
    cases group with
    | none =>
      grind
    | some g =>
      cases h
      exact Nat.le_succ _

theorem shrinks_groupBody (hexpr : Shrinks expr) (group : Option Nat) : Shrinks (parseGroupBody expr · group) := by
  intro c c' h
  change parseGroupBody expr c group = .ok c' at h
  rw [parseGroupBody_eq] at h
  obtain ⟨c₁, h₁, h⟩ := bind_ok h
  obtain ⟨c₂, h₂, h⟩ := bind_ok h
  have hle := hexpr c₁ c₂ h₂
  rw [rest_openGroup h₁] at hle
  exact Nat.le_trans (rest_closeGroup h) hle

theorem shrinks_lookahead (hexpr : Shrinks expr) (isNeg : Bool) : Shrinks (parseLookahead expr · isNeg) := by
  intro c c' h
  change parseLookahead expr c isNeg = .ok c' at h
  unfold parseLookahead at h
  obtain ⟨c₁, h₁, h⟩ := bind_ok h
  obtain ⟨c₂, h₂, h⟩ := bind_ok h
  have hle := hexpr c₁ c₂ h₂
  rw [rest_emitOrFail h₁] at hle
  refine Nat.le_trans ?_ hle
  cases hrest : c₂.rest with
  | nil =>
    rw [hrest] at h
    cases h
  | cons ch rest =>
    rw [hrest] at h
    refine ite_elim h (fun h => ?_) fun h => nomatch h
    cases h
    exact Nat.le_succ _

theorem shrinks_capture (hexpr : Shrinks expr) (name : Option (List UInt8)) (h : (do
    let (g, c) ← c.allocGroup
    parseGroupBody expr (name.elim c c.nameGroup) (some g)) = .ok c') : c'.rest.length ≤ c.rest.length := by
  obtain ⟨⟨g, c₁⟩, ha, h⟩ := bind_ok h
  have hle := shrinks_groupBody hexpr (some g) _ _ h
  have hname : (name.elim c₁ c₁.nameGroup).rest = c.rest := by
    rw [← rest_allocGroup ha]
    cases name with
    | none => rfl
    | some name => exact rest_nameGroup c₁ name
  rwa [hname] at hle

theorem shrinks_group (hexpr : Shrinks expr) : Shrinks (parseGroup expr) := by
  intro c c' h
  unfold parseGroup at h
  cases hrest : c.rest with
  | nil =>
    rw [hrest] at h
    rw [← hrest]
    exact shrinks_capture hexpr none h
  | cons q rest =>
    rw [hrest] at h
    refine ite_elim h (fun h => ?_) fun h => ?_
    · cases rest with
      | nil => cases h
      | cons nxt rest' =>
        have hle : ∀ {n : Nat}, n ≤ rest'.length → n ≤ (q :: nxt :: rest').length := fun hn =>
          Nat.le_succ_of_le (Nat.le_succ_of_le hn)
        refine ite_elim h (fun h => hle (shrinks_groupBody hexpr none _ _ h)) fun h => ?_
        refine ite_elim h (fun h => ?_) fun h => ?_
        · obtain ⟨⟨name, rest''⟩, hname, h⟩ := bind_ok h
          exact hle (Nat.le_trans (shrinks_capture hexpr (some name) h) (length_scanName hname))
        refine ite_elim h (fun h => hle (shrinks_lookahead hexpr false _ _ h)) fun h => ?_
        refine ite_elim h (fun h => hle (shrinks_lookahead hexpr true _ _ h)) fun h => ?_
        refine ite_elim h (fun h => ?_) fun h => nomatch h
        cases h
        exact Nat.le_succ_of_le (length_scanFlags (nxt :: rest') c.re.flags)
    · rw [← hrest]
      exact shrinks_capture hexpr none h

theorem atom_progress (hexpr : Shrinks expr) {ch : UInt8} {rest : List UInt8} (hrest : c.rest = ch :: rest)
    (h : parseAtom expr c = .ok c') : c'.rest.length ≤ rest.length := by
  have hitem : ∀ {ins : ReInstr}, ({ c with rest := rest } : Compiler).emitOrFail ins = .ok c' →
      c'.rest.length ≤ rest.length := fun h => Nat.le_of_eq (congrArg List.length (rest_emitOrFail h))
  unfold parseAtom at h
  rw [hrest] at h
  refine ite_elim h (fun h => shrinks_group hexpr _ _ h) fun h => ?_
  refine ite_elim h (fun h => shrinks_class _ _ h) fun h => ?_
  refine ite_elim h hitem fun h => ite_elim h hitem fun h => ite_elim h hitem fun h => ?_
  refine ite_elim h (fun h => ?_) hitem
  obtain ⟨⟨ins, rest'⟩, hscan, h⟩ := bind_ok h
  rw [rest_emitOrFail h]
  exact Nat.le_of_lt (length_scanEscape hscan)

theorem piece_progress (hexpr : Shrinks expr) {ch : UInt8} {rest : List UInt8} (hrest : c.rest = ch :: rest)
    (h : parsePiece expr c = .ok c') : c'.rest.length ≤ rest.length := by
  unfold parsePiece at h
  obtain ⟨c₁, hatom, h⟩ := bind_ok h
  refine Nat.le_trans ?_ (atom_progress hexpr hrest hatom)
  refine ite_elim h (fun h => ?_) fun h => ?_
  · grind
  cases hrest₁ : c₁.rest with
  | nil =>
    grind
  | cons qc tail =>
    rw [hrest₁] at h
    dsimp only at h
    cases hq : quantifierOf qc with
    | some q =>
      rw [hq] at h
      obtain ⟨re, -, h⟩ := bind_ok h
      cases h
      exact Nat.le_succ_of_le (length_scanLazy tail)
    | none =>
      rw [hq] at h
      refine ite_elim h (fun h => ?_) fun h => ?_
      · obtain ⟨⟨k, tail'⟩, hscan, h⟩ := bind_ok h
        refine Nat.le_succ_of_le (Nat.le_trans ?_ (length_scanCount hscan))
        refine ite_elim h (fun h => ?_) fun h => ?_
        · grind
        · obtain ⟨re, -, h⟩ := bind_ok h
          grind
      grind

theorem shrinks_concat (hexpr : Shrinks expr) (fuel : Nat) : Shrinks (parseConcat expr fuel) := by
  induction fuel with
  | zero =>
    intro c c' h
    unfold parseConcat at h
    grind
  | succ fuel ih =>
    intro c c' h
    unfold parseConcat at h
    cases hrest : c.rest with
    | nil =>
      grind
    | cons ch rest =>
      rw [hrest] at h
      refine ite_elim h (fun h => ?_) fun h => ?_
      · cases h
        rw [hrest]
      · obtain ⟨c₁, h₁, h⟩ := bind_ok h
        exact Nat.le_succ_of_le (Nat.le_trans (ih c₁ c' h) (piece_progress hexpr hrest h₁))

/-- Room for the `SPLIT` in front of the branch at `start`. -/
def openBranch (margin start : Nat) (c : Compiler) : Except Stop Compiler := do
  if maxInstrs ≤ c.re.prog.length + margin then fail "pattern too long"
  let re ← reserveOr "pattern too long" c.re 1
  let re ← openSlot re start
  .ok { c with re := re }

/-- The compiler at the start of the branch behind a `|`. -/
def nextBranch (altStart : Nat) (c : Compiler) (rest : List UInt8) : Compiler :=
  let re := (emit c.re (.jump 0)).1
  { c with rest := rest, re := setInstr re altStart (.split (altStart + 1) re.prog.length) }

theorem altLoop_bar (fuel altStart : Nat) (patches : List (Option Nat)) {rest : List UInt8}
    (hrest : c.rest = byte '|' :: rest) : altLoop expr (fuel + 1) altStart patches c =
      if 64 ≤ patches.length then fail "too many alternatives"
      else parseConcat expr rest.length (nextBranch altStart c rest) >>= fun c₂ =>
        (if c₂.rest.head? = some (byte '|') then openBranch 1 (emit c.re (.jump 0)).1.prog.length c₂
          else .ok c₂) >>= altLoop expr fuel (emit c.re (.jump 0)).1.prog.length
            (patches ++ [(emit c.re (.jump 0)).2]) := by
  conv_lhs => unfold altLoop
  rw [hrest]
  dsimp only
  rw [if_pos rfl]
  by_cases hfull : 64 ≤ patches.length
  · rw [if_pos hfull, if_pos hfull]
    rfl
  rw [if_neg hfull, if_neg hfull]
  refine congrArg _ (funext fun c₂ => ?_)
  by_cases hbar : c₂.rest.head? = some (byte '|')
  · rw [if_pos hbar, if_pos hbar]
    unfold openBranch
    by_cases hlong : maxInstrs ≤ c₂.re.prog.length + 1
    · rw [if_pos hlong, if_pos hlong]
      rfl
    · rw [if_neg hlong, if_neg hlong]
      cases reserveOr "pattern too long" c₂.re 1 with
      | error stop => rfl
      | ok re =>
        show openSlot re _ >>= _ = (openSlot re _ >>= _) >>= _
        cases openSlot re (emit c.re (.jump 0)).1.prog.length <;> rfl
  · rw [if_neg hbar, if_neg hbar]
    rfl

theorem altLoop_end (fuel altStart : Nat) (patches : List (Option Nat)) (h : c.rest.head? ≠ some (byte '|')) :
    altLoop expr fuel altStart patches c =
      .ok { c with re := patches.foldl (patchJump c.re.prog.length) c.re } := by
  unfold altLoop
  grind

theorem parseExprInner_eq (expr : Compiler → Except Stop Compiler) (c : Compiler) : parseExprInner expr c =
    parseConcat expr c.rest.length c >>= fun c₁ =>
      if c₁.rest.head? = some (byte '|') then
        openBranch 2 c.re.prog.length c₁ >>= altLoop expr c₁.rest.length c.re.prog.length []
      else .ok c₁ := by
  unfold parseExprInner
  refine congrArg _ (funext fun c₁ => ?_)
  dsimp only
  by_cases hbar : c₁.rest.head? = some (byte '|')
  · rw [if_pos hbar, if_pos hbar]
    unfold openBranch
    by_cases hlong : maxInstrs ≤ c₁.re.prog.length + 2
    · rw [if_pos hlong, if_pos hlong]
      rfl
    · rw [if_neg hlong, if_neg hlong]
      cases reserveOr "pattern too long" c₁.re 1 with
      | error stop => rfl
      | ok re =>
        show openSlot re _ >>= _ = (openSlot re _ >>= _) >>= _
        cases openSlot re c.re.prog.length <;> rfl
  grind

theorem rest_openBranch {margin start : Nat} (h : openBranch margin start c = .ok c') : c'.rest = c.rest := by
  obtain ⟨-, h⟩ := guard_ok h
  obtain ⟨re, -, h⟩ := bind_ok h
  obtain ⟨re', -, h⟩ := bind_ok h
  cases h
  rfl

theorem shrinks_altLoop (hexpr : Shrinks expr) (fuel altStart : Nat) (patches : List (Option Nat)) :
    Shrinks (altLoop expr fuel altStart patches) := by
  induction fuel generalizing altStart patches with
  | zero =>
    intro c c' h
    unfold altLoop at h
    grind
  | succ fuel ih =>
    intro c c' h
    by_cases hbar : c.rest.head? = some (byte '|')
    · obtain ⟨rest, hrest⟩ := List.head?_eq_some_iff.1 hbar
      rw [altLoop_bar fuel altStart patches hrest] at h
      refine ite_elim h (fun h => by cases h) fun h => ?_
      obtain ⟨c₂, h₂, h⟩ := bind_ok h
      obtain ⟨c₃, h₃, h⟩ := bind_ok h
      have hle := Nat.le_trans (ih _ _ c₃ c' h) (Nat.le_of_eq (congrArg List.length
        (ite_elim h₃ rest_openBranch fun h => by cases h; rfl)))
      rw [hrest]
      exact Nat.le_succ_of_le (Nat.le_trans hle (shrinks_concat hexpr _ _ _ h₂))
    · rw [altLoop_end _ _ _ hbar] at h
      grind

theorem shrinks_expr (d : Nat) : Shrinks (parseExpr d) := by
  induction d with
  | zero =>
    intro c c' h
    cases h
  | succ d ih =>
    intro c c' h
    unfold parseExpr at h
    rw [parseExprInner_eq] at h
    obtain ⟨c₁, h₁, h⟩ := bind_ok h
    refine Nat.le_trans ?_ (shrinks_concat ih _ _ _ h₁)
    refine ite_elim h (fun h => ?_) fun h => ?_
    · obtain ⟨c₂, h₂, h⟩ := bind_ok h
      rw [← rest_openBranch h₂]
      exact shrinks_altLoop ih _ _ _ c₂ c' h
    grind

end Progress

end LsLang.Regex
