import LsLang.Regex.Progress
import Mathlib.Logic.Relation

/-! When `__ls_regex_compile` returns: every loop of the parser makes progress, but for the one
over a character range, whose counter is a byte. -/

namespace LsLang.Regex

/-- The step ends, with a result or an error message. -/
def Returns {α : Type} (x : Except Stop α) : Prop := x ≠ .error .diverges ∧ x ≠ .error .undefined

section Returns

variable {α β : Type} {x : Except Stop α} {f : α → Except Stop β}

theorem returns_ok (a : α) : Returns (.ok a : Except Stop α) := ⟨nofun, nofun⟩

theorem returns_fail (msg : String) : Returns (fail msg : Except Stop α) := ⟨nofun, nofun⟩

theorem returns_bind : Returns (x >>= f) ↔ Returns x ∧ ∀ a, x = .ok a → Returns (f a) := by
  cases x with
  | error stop =>
    constructor
    · rintro ⟨h, h'⟩
      exact ⟨⟨fun heq => h (by rw [heq]; rfl), fun heq => h' (by rw [heq]; rfl)⟩, nofun⟩
    · rintro ⟨⟨h, h'⟩, -⟩
      exact ⟨fun heq => h (by cases heq; rfl), fun heq => h' (by cases heq; rfl)⟩
  | ok a =>
    refine ⟨fun h => ⟨returns_ok a, fun b hb => ?_⟩, fun h => h.2 a rfl⟩
    cases hb
    exact h

theorem Returns.bind (hx : Returns x) (hf : ∀ a, x = .ok a → Returns (f a)) : Returns (x >>= f) :=
  returns_bind.2 ⟨hx, hf⟩

theorem returns_guard {p : Prop} [Decidable p] {msg : String} {x : Except Stop α} :
    Returns (if p then (do fail msg; x) else x) ↔ (¬ p → Returns x) := by
  by_cases hp : p
  · rw [if_pos hp]
    exact ⟨fun _ hn => absurd hp hn, fun _ => ⟨nofun, nofun⟩⟩
  grind

end Returns

section Class

inductive RangeToFF : Bool → List UInt8 → Prop
  | here {first : Bool} {ch : UInt8} (rest : List UInt8) : IsMember first ch →
      RangeToFF first (ch :: byte '-' :: 255 :: rest)
  | hereEscaped {first : Bool} {ch : UInt8} (rest : List UInt8) : IsMember first ch →
      RangeToFF first (ch :: byte '-' :: byte '\\' :: 255 :: rest)
  | escape {rest : List UInt8} (first : Bool) (esc : UInt8) : RangeToFF false rest →
      RangeToFF first (byte '\\' :: esc :: rest)
  | range {first : Bool} {ch hi : UInt8} {rest : List UInt8} : IsMember first ch → hi ≠ byte ']' → hi ≠ byte '\\' →
      ch ≤ hi → RangeToFF false rest → RangeToFF first (ch :: byte '-' :: hi :: rest)
  | rangeEscaped {first : Bool} {ch hi : UInt8} {rest : List UInt8} : IsMember first ch → ch ≤ hi →
      RangeToFF false rest → RangeToFF first (ch :: byte '-' :: byte '\\' :: hi :: rest)
  | member {first : Bool} {ch : UInt8} {rest : List UInt8} : IsMember first ch →
      (∀ hi rest', rest = byte '-' :: hi :: rest' → hi = byte ']') → RangeToFF false rest → RangeToFF first (ch :: rest)

theorem rangeBytes_ff (ch : UInt8) : rangeBytes ch 255 = .error .diverges := by
  have hle : ¬ (255 : UInt8) < ch := by grind
  unfold rangeBytes
  rw [if_neg hle, if_pos rfl]

theorem rangeBytes_ok {ch hi : UInt8} (hle : ch ≤ hi) (hne : hi ≠ 255) : rangeBytes ch hi = .ok (byteRange ch hi) := by
  unfold rangeBytes
  grind

theorem returns_rangeBytes {ch hi : UInt8} (hne : hi ≠ 255) : Returns (rangeBytes ch hi) := by
  unfold rangeBytes
  split
  · exact returns_fail _
  · exact returns_ok _

theorem RangeToFF.diverges {first : Bool} {body : List UInt8} (h : RangeToFF first body) :
    scanClass first body = .error .diverges := by
  induction h with
  | here rest hm =>
    rw [scanClass_range hm (by decide) (by decide), rangeBytes_ff]
    rfl
  | hereEscaped rest hm =>
    rw [scanClass_rangeEscaped hm, rangeBytes_ff]
    rfl
  | escape first esc _ ih =>
    rw [scanClass_escape, ih]
    rfl
  | @range first ch hi rest hm hb hs hle _ ih =>
    rw [scanClass_range hm hb hs, ih]
    by_cases hff : hi = 255
    · rw [hff, rangeBytes_ff]
      rfl
    · rw [rangeBytes_ok hle hff]
      rfl
  | @rangeEscaped first ch hi rest hm hle _ ih =>
    rw [scanClass_rangeEscaped hm, ih]
    by_cases hff : hi = 255
    · rw [hff, rangeBytes_ff]
      rfl
    · rw [rangeBytes_ok hle hff]
      rfl
  | member hm hr _ ih =>
    rw [scanClass_member hm hr, ih]
    rfl

theorem returns_scanClass {first : Bool} {body : List UInt8} (h : ¬ RangeToFF first body) :
    Returns (scanClass first body) := by
  have hnext : ∀ {α : Type} {rest : List UInt8} {f : List UInt8 × List UInt8 → α}, Returns (scanClass false rest) →
      Returns (scanClass false rest >>= fun p => .ok (f p)) := fun hr => hr.bind fun _ _ => returns_ok _
  induction first, body using scanClass.induct with
  | case1 first => exact returns_fail _
  | case2 first ch rest hclose =>
    rw [scanClass.eq_def]
    dsimp only
    rw [if_pos hclose]
    exact returns_ok _
  | case3 first hclose =>
    rw [scanClass.eq_def]
    dsimp only
    rw [if_neg hclose, if_pos rfl]
    exact returns_fail _
  | case4 first esc rest hclose ih =>
    rw [scanClass_escape]
    exact hnext (ih fun hr => h (.escape first esc hr))
  | case5 first ch hclose hs dash hr =>
    rw [scanClass, if_neg hclose, if_neg hs]
    dsimp only
    rw [if_pos hr, if_pos rfl]
    exact (returns_rangeBytes (by decide)).bind fun _ _ => returns_fail _
  | case6 first ch hclose hs dash esc rest hr ih =>
    obtain ⟨rfl, -⟩ := hr
    have hm : IsMember first ch := ⟨hclose, hs⟩
    have hff : esc ≠ 255 := by
      rintro rfl
      exact h (.hereEscaped rest hm)
    rw [scanClass_rangeEscaped hm]
    refine (returns_rangeBytes hff).bind fun lo hlo => hnext (ih fun hrest => h (.rangeEscaped hm ?_ hrest))
    unfold rangeBytes at hlo
    grind
  | case7 first ch hclose hs dash hi rest hr hhi ih =>
    obtain ⟨rfl, hb⟩ := hr
    have hm : IsMember first ch := ⟨hclose, hs⟩
    have hff : hi ≠ 255 := by
      rintro rfl
      exact h (.here rest hm)
    rw [scanClass_range hm hb hhi]
    refine (returns_rangeBytes hff).bind fun lo hlo => hnext (ih fun hrest => h (.range hm hb hhi ?_ hrest))
    unfold rangeBytes at hlo
    grind
  | case8 first ch hclose hs dash hi rest hr ih =>
    have hm : IsMember first ch := ⟨hclose, hs⟩
    have hnr : ∀ hi' rest', dash :: hi :: rest = byte '-' :: hi' :: rest' → hi' = byte ']' := by
      grind
    rw [scanClass_member hm hnr]
    exact hnext (ih fun hrest => h (.member hm hnr hrest))
  | case9 first ch hclose hs rest hshort ih =>
    have hm : IsMember first ch := ⟨hclose, hs⟩
    have hnr : ∀ hi' rest', rest = byte '-' :: hi' :: rest' → hi' = byte ']' := fun hi' rest' heq =>
      (hshort _ _ _ heq).elim
    rw [scanClass_member hm hnr]
    exact hnext (ih fun hrest => h (.member hm hnr hrest))

/-- A class body from its start on. -/
def BodyToFF (rest : List UInt8) : Prop :=
  match rest with
  | ch :: rest' => if ch = byte '^' then RangeToFF true rest' else RangeToFF true rest
  | [] => False

theorem returns_scanClassBody (rest : List UInt8) : Returns (scanClassBody rest) ↔ ¬ BodyToFF rest := by
  have hscan : ∀ (neg : Bool) (rest : List UInt8), Returns (scanClass true rest >>= fun p =>
      (.ok ((neg, p.1), p.2) : Except Stop ((Bool × List UInt8) × List UInt8))) ↔ ¬ RangeToFF true rest := by
    intro neg rest
    rw [returns_bind]
    constructor
    · rintro ⟨⟨hdiv, -⟩, -⟩ hff
      exact hdiv hff.diverges
    · intro hff
      exact ⟨returns_scanClass hff, fun _ _ => returns_ok _⟩
  cases rest with
  | nil => exact iff_of_true (returns_fail _) id
  | cons ch rest =>
    unfold scanClassBody BodyToFF
    dsimp only
    by_cases hch : ch = byte '^'
    · rw [if_pos hch, if_pos hch]
      exact hscan true rest
    · rw [if_neg hch, if_neg hch]
      exact hscan false (ch :: rest)

end Class

/-! The moves that find no room end with an error message. -/

section Emit

theorem returns_emitOrFail (re : ReHandle) (ins : ReInstr) : Returns (emitOrFail re ins) := by
  unfold emitOrFail
  grind [returns_ok, returns_fail, emit_cases]

theorem returns_reserveOr (msg : String) (re : ReHandle) (extra : Nat) : Returns (reserveOr msg re extra) := by
  unfold reserveOr
  split
  · exact returns_ok _
  · exact returns_fail _

theorem returns_reserved {α : Type} {msg : String} {re : ReHandle} {extra : Nat} {f : ReHandle → Except Stop α}
    (h : ∀ re', re'.prog = re.prog → re'.prog.length + extra ≤ re'.progCap → Returns (f re')) :
    Returns (reserveOr msg re extra >>= f) := by
  refine (returns_reserveOr msg re extra).bind fun re' hre => ?_
  obtain ⟨-, hprog, -, hcap, -⟩ := reserveOr_ok hre
  grind

theorem returns_openSlot {re : ReHandle} (h : re.prog.length + 1 ≤ re.progCap) (start : Nat) :
    Returns (openSlot re start) := by
  obtain ⟨re', heq⟩ := (runs_openSlot h start).succeeds trivial
  rw [heq]
  exact returns_ok _

theorem returns_copyBody {re : ReHandle} {len : Nat} (h : re.prog.length + len ≤ re.progCap) (src : Nat) :
    Returns (copyBody re src len) := by
  unfold copyBody
  rw [if_neg (Nat.not_lt.2 h)]
  exact returns_ok _

theorem returns_applyQuantifier (re : ReHandle) (start : Nat) (q : Quantifier) (lazy : Bool) :
    Returns (applyQuantifier re start q lazy) := by
  cases q with
  | opt =>
    refine returns_guard.2 fun _ => returns_reserved fun re₁ _ hcap => ?_
    exact (returns_openSlot hcap start).bind fun _ _ => returns_ok _
  | star =>
    refine returns_reserved fun re₁ _ hcap => (returns_openSlot hcap start).bind fun re₂ _ => ?_
    exact (returns_emitOrFail re₂ _).bind fun _ _ => returns_ok _
  | plus => exact (returns_emitOrFail re _).bind fun _ _ => returns_ok _

theorem returns_mandatoryCopies (src len k : Nat) (re : ReHandle) : Returns (mandatoryCopies src len k re) := by
  induction k generalizing re with
  | zero => exact returns_ok _
  | succ k ih =>
    refine returns_guard.2 fun _ => returns_reserved fun re₁ _ hcap => ?_
    exact (returns_copyBody hcap src).bind fun re₂ _ => ih re₂

theorem returns_optionalCopies (src len : Nat) (lazy : Bool) (k : Nat) (re : ReHandle) :
    Returns (optionalCopies src len lazy k re) := by
  induction k generalizing re with
  | zero => exact returns_ok _
  | succ k ih =>
    refine returns_guard.2 fun _ => returns_reserved fun re₁ _ hcap => ?_
    refine (returns_copyBody (by omega) src).bind fun re₂ _ => ?_
    exact (returns_applyQuantifier re₂ _ .opt lazy).bind fun re₃ _ => ih re₃

theorem returns_applyCount (re : ReHandle) (start stop : Nat) (n m : Int) (lazy : Bool) :
    Returns (applyCount re start stop n m lazy) := by
  unfold applyCount
  dsimp only
  split
  · split
    · exact returns_ok _
    split
    · exact returns_applyQuantifier re start .star lazy
    · exact (returns_applyQuantifier re start .opt lazy).bind fun re₁ _ => returns_optionalCopies _ _ lazy _ re₁
  · refine (returns_mandatoryCopies _ _ _ re).bind fun re₁ _ => ?_
    split
    · refine returns_reserved fun re₂ _ hcap => (returns_copyBody (by omega) start).bind fun re₃ _ => ?_
      exact returns_applyQuantifier re₃ _ .star lazy
    · exact returns_optionalCopies _ _ lazy _ re₁

end Emit

/-! The calls of the parser. -/

/-- A call of `parse_expr`, with the depth that is left, of `parse_atom`, of `parse_class_body`, or a turn of
the loop of `parse_concat` or `parse_expr_inner`, with the turns that are left. -/
inductive Call
  | expr (d : Nat) (c : Compiler)
  | concat (d fuel : Nat) (c : Compiler)
  | branches (d fuel altStart : Nat) (patches : List (Option Nat)) (c : Compiler)
  | atom (d : Nat) (c : Compiler)
  | cls (c : Compiler)

/-- Behind the parenthesis at `c`, a group calls `parse_expr` at `c'`. -/
inductive Opens : Compiler → Compiler → Prop
  | capture {c c₁ c' : Compiler} {g : Nat} : c.rest.head? ≠ some (byte '?') → c.allocGroup = .ok (g, c₁) →
      c₁.emitOrFail (.save (g * 2)) = .ok c' → Opens c c'
  | plain {c : Compiler} {rest : List UInt8} : c.rest = byte '?' :: byte ':' :: rest → Opens c { c with rest := rest }
  | named {c c₁ c' : Compiler} {rest name rest' : List UInt8} {g : Nat} : c.rest = byte '?' :: byte '<' :: rest →
      scanName rest = .ok (name, rest') → { c with rest := rest' }.allocGroup = .ok (g, c₁) →
      (c₁.nameGroup name).emitOrFail (.save (g * 2)) = .ok c' → Opens c c'
  | ahead {c c' : Compiler} {rest : List UInt8} : c.rest = byte '?' :: byte '=' :: rest →
      { c with rest := rest }.emitOrFail (.lookahead 0 false) = .ok c' → Opens c c'
  | notAhead {c c' : Compiler} {rest : List UInt8} : c.rest = byte '?' :: byte '!' :: rest →
      { c with rest := rest }.emitOrFail (.lookahead 0 false) = .ok c' → Opens c c'

namespace Call

def run : Call → Except Stop Compiler
  | expr d c => parseExpr d c
  | concat d fuel c => parseConcat (parseExpr d) fuel c
  | branches d fuel altStart patches c => altLoop (parseExpr d) fuel altStart patches c
  | atom d c => parseAtom (parseExpr d) c
  | cls c => c.parseClass

/-- One call makes another, once what comes before it in the pattern is parsed. -/
inductive Makes : Call → Call → Prop
  | first (d : Nat) (c : Compiler) : Makes (expr (d + 1) c) (concat d c.rest.length c)
  | bar {d : Nat} {c c₁ c₂ : Compiler} : parseConcat (parseExpr d) c.rest.length c = .ok c₁ →
      c₁.rest.head? = some (byte '|') → openBranch 2 c.re.prog.length c₁ = .ok c₂ →
      Makes (expr (d + 1) c) (branches d c₁.rest.length c.re.prog.length [] c₂)
  | branch {c : Compiler} {patches : List (Option Nat)} {rest : List UInt8} (d fuel altStart : Nat) :
      c.rest = byte '|' :: rest → patches.length < 64 →
      Makes (branches d (fuel + 1) altStart patches c) (concat d rest.length (nextBranch altStart c rest))
  | next {c c₂ c₃ : Compiler} {patches : List (Option Nat)} {rest : List UInt8} {d altStart : Nat} (fuel : Nat) :
      c.rest = byte '|' :: rest → patches.length < 64 →
      parseConcat (parseExpr d) rest.length (nextBranch altStart c rest) = .ok c₂ →
      (if c₂.rest.head? = some (byte '|') then openBranch 1 (emit c.re (.jump 0)).1.prog.length c₂ else .ok c₂) =
        .ok c₃ →
      Makes (branches d (fuel + 1) altStart patches c)
        (branches d fuel (emit c.re (.jump 0)).1.prog.length (patches ++ [(emit c.re (.jump 0)).2]) c₃)
  | piece {c : Compiler} {ch : UInt8} {rest : List UInt8} (d fuel : Nat) : c.rest = ch :: rest →
      ¬ (ch = byte ')' ∨ ch = byte '|') → Makes (concat d (fuel + 1) c) (atom d c)
  | more {d : Nat} {c c₁ : Compiler} {ch : UInt8} {rest : List UInt8} (fuel : Nat) : c.rest = ch :: rest →
      ¬ (ch = byte ')' ∨ ch = byte '|') → parsePiece (parseExpr d) c = .ok c₁ →
      Makes (concat d (fuel + 1) c) (concat d fuel c₁)
  | group {c c₁ : Compiler} {rest : List UInt8} (d : Nat) : c.rest = byte '(' :: rest →
      Opens { c with rest := rest } c₁ → Makes (atom d c) (expr d c₁)
  | cls {c : Compiler} {rest : List UInt8} (d : Nat) : c.rest = byte '[' :: rest →
      Makes (atom d c) (cls { c with rest := rest })

end Call

section Calls

variable {expr : Compiler → Except Stop Compiler} {c : Compiler}

theorem returns_compilerEmit (c : Compiler) (ins : ReInstr) : Returns (c.emitOrFail ins) :=
  (returns_emitOrFail c.re ins).bind fun _ _ => returns_ok _

theorem returns_allocGroup (c : Compiler) : Returns c.allocGroup := by
  unfold Compiler.allocGroup
  split
  · exact returns_fail _
  · exact returns_ok _

theorem returns_closeGroup (group : Option Nat) (c : Compiler) : Returns (closeGroup group c) := by
  unfold closeGroup
  grind [returns_fail, returns_ok]

theorem returns_bind_iff {α β : Type} {x : Except Stop α} {f : α → Except Stop β} (hx : Returns x) :
    Returns (x >>= f) ↔ ∀ a, x = .ok a → Returns (f a) :=
  returns_bind.trans ⟨And.right, fun h => ⟨hx, h⟩⟩

theorem returns_groupBody (group : Option Nat) :
    Returns (parseGroupBody expr c group) ↔ ∀ c₁, openGroup c group = .ok c₁ → Returns (expr c₁) := by
  have hopen : Returns (openGroup c group) := by
    cases group with
    | none => exact returns_ok _
    | some g => exact returns_compilerEmit c _
  rw [parseGroupBody_eq, returns_bind_iff hopen]
  refine forall₂_congr fun c₁ _ => ?_
  rw [returns_bind]
  exact ⟨And.left, fun h => ⟨h, fun c₂ _ => returns_closeGroup group c₂⟩⟩

theorem returns_lookahead (isNeg : Bool) : Returns (parseLookahead expr c isNeg) ↔
    ∀ c₁, c.emitOrFail (.lookahead 0 false) = .ok c₁ → Returns (expr c₁) := by
  unfold parseLookahead
  dsimp only
  rw [returns_bind_iff (returns_compilerEmit c _)]
  refine forall₂_congr fun c₁ _ => ?_
  rw [returns_bind]
  refine ⟨And.left, fun h => ⟨h, fun c₂ _ => ?_⟩⟩
  grind [returns_fail, returns_ok]

theorem returns_capture (name : Option (List UInt8)) : Returns (do
      let (g, c) ← c.allocGroup
      parseGroupBody expr (name.elim c c.nameGroup) (some g)) ↔
    ∀ g c₀ c₁, c.allocGroup = .ok (g, c₀) → (name.elim c₀ c₀.nameGroup).emitOrFail (.save (g * 2)) = .ok c₁ →
      Returns (expr c₁) := by
  rw [returns_bind_iff (returns_allocGroup c)]
  constructor
  · intro h g c₀ c₁ ha he
    exact (returns_groupBody (some g)).1 (h (g, c₀) ha) c₁ he
  · rintro h ⟨g, c₀⟩ ha
    exact (returns_groupBody (some g)).2 fun c₁ he => h g c₀ c₁ ha he

theorem returns_scanName (rest : List UInt8) : Returns (scanName rest) := by
  induction rest with
  | nil => exact returns_fail _
  | cons ch rest ih =>
    unfold scanName
    split
    · exact returns_ok _
    · exact ih.bind fun _ _ => returns_ok _

theorem returns_group : Returns (parseGroup expr c) ↔ ∀ c₁, Opens c c₁ → Returns (expr c₁) := by
  -- a group without a flag is numbered
  have hcapture : c.rest.head? ≠ some (byte '?') → (Returns (do
      let (g, c) ← c.allocGroup
      parseGroupBody expr c (some g)) ↔ ∀ c₁, Opens c c₁ → Returns (expr c₁)) := by
    intro hq
    refine (returns_capture none).trans ⟨fun h c₁ ho => ?_, fun h g c₀ c₁ ha he => h c₁ (.capture hq ha he)⟩
    cases ho with
    | capture _ ha he => exact h _ _ _ ha he
    | plain hrest => grind
    | named hrest => grind
    | ahead hrest => grind
    | notAhead hrest => grind
  -- what stands behind the `?` decides which group is opened
  have hflag : ∀ {nxt : UInt8} {rest : List UInt8} {c₁ : Compiler}, c.rest = byte '?' :: nxt :: rest → Opens c c₁ →
      (nxt = byte ':' ∧ c₁ = { c with rest := rest }) ∨
      (nxt = byte '<' ∧ ∃ name rest' g c₀, scanName rest = .ok (name, rest') ∧
        { c with rest := rest' }.allocGroup = .ok (g, c₀) ∧
        (c₀.nameGroup name).emitOrFail (.save (g * 2)) = .ok c₁) ∨
      (nxt = byte '=' ∧ { c with rest := rest }.emitOrFail (.lookahead 0 false) = .ok c₁) ∨
      (nxt = byte '!' ∧ { c with rest := rest }.emitOrFail (.lookahead 0 false) = .ok c₁) := by
    intro nxt rest c₁ hc ho
    cases ho with
    | capture hq => grind
    | plain hrest =>
      grind
    | named hrest hname ha he =>
      grind
    | ahead hrest he =>
      grind
    | notAhead hrest he =>
      grind
  unfold parseGroup
  rcases hrest : c.rest with - | ⟨q, - | ⟨nxt, rest⟩⟩
  · grind
  · dsimp only
    by_cases hq : q = byte '?'
    · rw [if_pos hq]
      refine iff_of_true (returns_fail _) fun c₁ ho => ?_
      cases ho with
      | capture hne => grind
      | plain heq => cases hrest.symm.trans heq
      | named heq => cases hrest.symm.trans heq
      | ahead heq => cases hrest.symm.trans heq
      | notAhead heq => cases hrest.symm.trans heq
    grind
  dsimp only
  by_cases hq : q = byte '?'
  swap
  · grind
  subst hq
  rw [if_pos rfl]
  have hflag := fun c₁ => @hflag nxt rest c₁ hrest
  by_cases h₁ : nxt = byte ':'
  · subst h₁
    rw [if_pos rfl, returns_groupBody]
    constructor
    · intro h c₁ ho
      rcases hflag c₁ ho with ⟨-, rfl⟩ | ⟨hn, -⟩ | ⟨hn, -⟩ | ⟨hn, -⟩
      · exact h _ rfl
      all_goals exact absurd hn (by decide)
    · intro h c₁ ho
      cases ho
      exact h _ (.plain hrest)
  rw [if_neg h₁]
  by_cases h₂ : nxt = byte '<'
  · subst h₂
    rw [if_pos rfl, returns_bind_iff (returns_scanName rest)]
    constructor
    · intro h c₁ ho
      rcases hflag c₁ ho with ⟨hn, -⟩ | ⟨-, name, rest', g, c₀, hname, ha, he⟩ | ⟨hn, -⟩ | ⟨hn, -⟩
      · exact absurd hn (by decide)
      · exact (returns_capture (some name)).1 (h (name, rest') hname) g c₀ c₁ ha he
      all_goals exact absurd hn (by decide)
    · rintro h ⟨name, rest'⟩ hname
      exact (returns_capture (some name)).2 fun g c₀ c₁ ha he => h c₁ (.named hrest hname ha he)
  rw [if_neg h₂]
  by_cases h₃ : nxt = byte '='
  · subst h₃
    rw [if_pos rfl, returns_lookahead]
    constructor
    · intro h c₁ ho
      rcases hflag c₁ ho with ⟨hn, -⟩ | ⟨hn, -⟩ | ⟨-, he⟩ | ⟨hn, -⟩
      · exact absurd hn (by decide)
      · exact absurd hn (by decide)
      · exact h c₁ he
      grind
    · exact fun h c₁ he => h c₁ (.ahead hrest he)
  rw [if_neg h₃]
  by_cases h₄ : nxt = byte '!'
  · subst h₄
    rw [if_pos rfl, returns_lookahead]
    constructor
    · intro h c₁ ho
      rcases hflag c₁ ho with ⟨hn, -⟩ | ⟨hn, -⟩ | ⟨hn, -⟩ | ⟨-, he⟩
      · exact absurd hn (by decide)
      · exact absurd hn (by decide)
      · exact absurd hn (by decide)
      · exact h c₁ he
    · exact fun h c₁ he => h c₁ (.notAhead hrest he)
  -- no other flag opens a group: it ends in an error
  rw [if_neg h₄]
  refine iff_of_true ?_ fun c₁ ho => ?_
  · split
    · exact returns_ok _
    · exact returns_fail _
  grind

theorem Returns.ite {α : Type} {p : Prop} [Decidable p] {x y : Except Stop α} (hx : Returns x) (hy : Returns y) :
    Returns (if p then x else y) := by grind

theorem returns_scanEscape (rest : List UInt8) : Returns (scanEscape rest) := by
  cases rest with
  | nil => exact returns_fail _
  | cons esc rest =>
    have hone : ∀ ins : ReInstr, Returns (.ok (ins, rest) : Except Stop (ReInstr × List UInt8)) := fun _ => returns_ok _
    unfold scanEscape
    dsimp only
    refine .ite (hone _) (.ite (hone _) (.ite (hone _) (.ite (hone _) (.ite (hone _) (.ite (hone _) ?_)))))
    refine .ite (hone _) (.ite (hone _) (.ite (hone _) (.ite (hone _) (.ite (hone _) (.ite (hone _) ?_)))))
    refine .ite (hone _) (.ite (hone _) (.ite (hone _) (.ite ?_ (.ite (returns_fail _) (hone _)))))
    grind [returns_fail, returns_ok]

theorem returns_scanCount (rest : List UInt8) : Returns (scanCount rest) := by
  have hcheck : ∀ {n m : Int} {rest : List UInt8}, Returns (checkCount n m rest) :=
    .ite (returns_fail _) (.ite (returns_fail _) (returns_ok _))
  unfold scanCount
  dsimp only
  split
  · exact .ite hcheck (returns_fail _)
  · exact returns_fail _

theorem returns_class : Returns c.parseClass ↔
    maxClasses ≤ i32 c.re.nClasses ∨ (0 ≤ i32 c.re.nClasses ∧ ¬ BodyToFF c.rest) := by
  unfold Compiler.parseClass
  by_cases hfull : (maxClasses : Int) ≤ i32 c.re.nClasses
  · rw [if_pos hfull]
    exact iff_of_true (returns_fail _) (.inl hfull)
  rw [if_neg hfull]
  by_cases hneg : i32 c.re.nClasses < 0
  · rw [if_pos hneg]
    refine iff_of_false (fun h => h.2 rfl) ?_
    grind
  rw [if_neg hneg, returns_bind, returns_scanClassBody]
  grind [returns_compilerEmit, Int.not_lt]

theorem returns_atom (d : Nat) : Returns (parseAtom (parseExpr d) c) ↔
    ∀ T, Call.Makes (.atom d c) T → Returns T.run := by
  rcases hrest : c.rest with - | ⟨ch, rest⟩
  · unfold parseAtom
    rw [hrest]
    refine iff_of_true (returns_ok _) fun T hT => ?_
    cases hT with
    | group _ heq => cases hrest.symm.trans heq
    | cls _ heq => cases hrest.symm.trans heq
  unfold parseAtom
  rw [hrest]
  dsimp only
  by_cases hgroup : ch = byte '('
  · subst hgroup
    rw [if_pos rfl, returns_group]
    constructor
    · intro h T hT
      cases hT with
      | group _ heq ho =>
        cases hrest.symm.trans heq
        exact h _ ho
      | cls _ heq => grind
    · exact fun h c₁ ho => h (.expr d c₁) (.group d hrest ho)
  rw [if_neg hgroup]
  by_cases hcls : ch = byte '['
  · subst hcls
    rw [if_pos rfl]
    constructor
    · intro h T hT
      cases hT with
      | group _ heq => grind
      | cls _ heq =>
        cases hrest.symm.trans heq
        exact h
    · exact fun h => h (.cls { c with rest := rest }) (.cls d hrest)
  rw [if_neg hcls]
  refine iff_of_true ?_ fun T hT => ?_
  · have hitem := returns_compilerEmit { c with rest := rest }
    refine .ite (hitem _) (.ite (hitem _) (.ite (hitem _) (.ite ?_ (hitem _))))
    exact (returns_scanEscape rest).bind fun p _ => returns_compilerEmit _ _
  · cases hT with
    | group _ heq =>
      grind
    | cls _ heq =>
      grind

theorem returns_piece : Returns (parsePiece expr c) ↔ Returns (parseAtom expr c) := by
  unfold parsePiece
  dsimp only
  rw [returns_bind]
  refine ⟨And.left, fun h => ⟨h, fun c₁ _ => .ite (returns_ok _) ?_⟩⟩
  split
  · exact returns_ok _
  · split
    · exact (returns_applyQuantifier _ _ _ _).bind fun _ _ => returns_ok _
    · refine .ite ((returns_scanCount _).bind fun p _ => ?_) (returns_ok _)
      exact .ite (returns_ok _) ((returns_applyCount _ _ _ _ _ _).bind fun _ _ => returns_ok _)

namespace Call

def Fueled : Call → Prop
  | concat _ fuel c => c.rest.length ≤ fuel
  | branches _ fuel _ _ c => c.rest.length ≤ fuel
  | _ => True

/-- A call makes calls of less depth, of a function further in, or with less turns. -/
def rank : Call → Nat × Nat × Nat
  | .expr d _ => (d, 0, 0)
  | .atom d _ => (d, 1, 0)
  | .concat d fuel _ => (d, 2, fuel)
  | .branches d fuel _ _ _ => (d, 3, fuel)
  | .cls _ => (0, 0, 0)

theorem Makes.fueled {T T' : Call} (h : Makes T T') (hT : T.Fueled) : T'.Fueled := by
  cases h with
  | first d c => exact Nat.le_refl _
  | bar _ _ hopen => exact Nat.le_of_eq (congrArg List.length (rest_openBranch hopen))
  | branch => exact Nat.le_refl _
  | @next c c₂ c₃ patches rest d altStart fuel hrest hroom hconcat hopen =>
    have hsame : c₃.rest = c₂.rest := ite_elim hopen rest_openBranch fun h => by cases h; rfl
    have hle := shrinks_concat (shrinks_expr d) _ _ _ hconcat
    have hfuel : c.rest.length ≤ fuel + 1 := hT
    rw [hrest] at hfuel
    show c₃.rest.length ≤ fuel
    rw [hsame]
    exact Nat.le_trans hle (Nat.le_of_succ_le_succ hfuel)
  | piece => trivial
  | @more d c c₁ ch rest fuel hrest _ hpiece =>
    have hfuel : c.rest.length ≤ fuel + 1 := hT
    rw [hrest] at hfuel
    exact Nat.le_trans (piece_progress (shrinks_expr d) hrest hpiece) (Nat.le_of_succ_le_succ hfuel)
  | group => trivial
  | cls => trivial

theorem Makes.rank_lt {T T' : Call} (h : Makes T T') :
    Prod.Lex (· < ·) (Prod.Lex (· < ·) (· < ·)) T'.rank T.rank := by
  cases h with
  | first => exact .left _ _ (Nat.lt_succ_self _)
  | bar => exact .left _ _ (Nat.lt_succ_self _)
  | branch => exact .right _ (.left _ _ (by decide))
  | next => exact .right _ (.right _ (Nat.lt_succ_self _))
  | piece => exact .right _ (.left _ _ (by decide))
  | more => exact .right _ (.right _ (Nat.lt_succ_self _))
  | group => exact .right _ (.left _ _ (by decide))
  | cls d _ =>
    cases d with
    | zero => exact .right _ (.left _ _ (by decide))
    | succ d => exact .left _ _ (Nat.succ_pos d)

end Call

theorem returns_openBranch (margin start : Nat) (c : Compiler) : Returns (openBranch margin start c) := by
  refine returns_guard.2 fun _ => returns_reserved fun re₁ _ hcap => ?_
  exact (returns_openSlot hcap start).bind fun _ _ => returns_ok _

theorem returns_concat {d fuel : Nat} (hfuel : c.rest.length ≤ fuel) :
    Returns (parseConcat (parseExpr d) fuel c) ↔ ∀ T, Call.Makes (.concat d fuel c) T → Returns T.run := by
  rcases hrest : c.rest with - | ⟨ch, rest⟩
  · unfold parseConcat
    rw [hrest]
    refine iff_of_true (returns_ok _) fun T hT => ?_
    cases hT with
    | piece _ _ heq => cases hrest.symm.trans heq
    | more _ heq => cases hrest.symm.trans heq
  unfold parseConcat
  rw [hrest]
  dsimp only
  by_cases hstop : ch = byte ')' ∨ ch = byte '|'
  · rw [if_pos hstop]
    refine iff_of_true (returns_ok _) fun T hT => ?_
    cases hT with
    | piece _ _ heq hne =>
      grind
    | more _ heq hne =>
      grind
  rw [if_neg hstop]
  cases fuel with
  | zero =>
    grind
  | succ fuel =>
    dsimp only
    rw [returns_bind, returns_piece]
    constructor
    · rintro ⟨hatom, hmore⟩ T hT
      cases hT with
      | piece => exact hatom
      | more _ _ _ hpiece => exact hmore _ hpiece
    · exact fun h => ⟨h _ (.piece d fuel hrest hstop), fun c₁ hpiece => h _ (.more fuel hrest hstop hpiece)⟩

theorem returns_branches {d fuel altStart : Nat} {patches : List (Option Nat)} (hfuel : c.rest.length ≤ fuel) :
    Returns (altLoop (parseExpr d) fuel altStart patches c) ↔
      ∀ T, Call.Makes (.branches d fuel altStart patches c) T → Returns T.run := by
  by_cases hbar : c.rest.head? = some (byte '|')
  swap
  · rw [altLoop_end _ _ _ hbar]
    refine iff_of_true (returns_ok _) fun T hT => ?_
    cases hT with
    | branch _ _ _ heq => grind
    | next _ heq => grind
  obtain ⟨rest, hrest⟩ := List.head?_eq_some_iff.1 hbar
  cases fuel with
  | zero =>
    grind
  | succ fuel =>
    rw [altLoop_bar fuel altStart patches hrest]
    by_cases hroom : 64 ≤ patches.length
    · rw [if_pos hroom]
      refine iff_of_true (returns_fail _) fun T hT => ?_
      cases hT with
      | branch _ _ _ _ hlt => grind
      | next _ _ hlt => grind
    rw [if_neg hroom, returns_bind]
    have hopen : ∀ c₂ : Compiler, Returns (if c₂.rest.head? = some (byte '|') then
        openBranch 1 (emit c.re (.jump 0)).1.prog.length c₂ else .ok c₂) := fun c₂ =>
      .ite (returns_openBranch _ _ c₂) (returns_ok _)
    constructor
    · rintro ⟨hconcat, hnext⟩ T hT
      cases hT with
      | branch _ _ _ heq =>
        cases hrest.symm.trans heq
        exact hconcat
      | next _ heq _ hok hok' =>
        cases hrest.symm.trans heq
        exact (returns_bind_iff (hopen _)).1 (hnext _ hok) _ hok'
    · intro h
      refine ⟨h _ (.branch d fuel altStart hrest (Nat.not_le.1 hroom)), fun c₂ hok => ?_⟩
      exact (returns_bind_iff (hopen c₂)).2 fun c₃ hok' => h _ (.next fuel hrest (Nat.not_le.1 hroom) hok hok')

theorem returns_expr (d : Nat) : Returns (parseExpr d c) ↔ ∀ T, Call.Makes (.expr d c) T → Returns T.run := by
  cases d with
  | zero =>
    refine iff_of_true (returns_fail _) fun T hT => ?_
    cases hT
  | succ d =>
    unfold parseExpr
    rw [parseExprInner_eq, returns_bind]
    constructor
    · rintro ⟨hconcat, hnext⟩ T hT
      cases hT with
      | first => exact hconcat
      | bar hok hbar hopen =>
        have hthen := hnext _ hok
        rw [if_pos hbar, returns_bind_iff (returns_openBranch _ _ _)] at hthen
        exact hthen _ hopen
    · intro h
      refine ⟨h _ (.first d c), fun c₁ hok => ?_⟩
      split
      · next hbar =>
        exact (returns_bind_iff (returns_openBranch _ _ _)).2 fun c₂ hopen => h _ (.bar hok hbar hopen)
      · exact returns_ok _

theorem Call.returns_step {T : Call} (hT : T.Fueled) (hcls : ∀ c, T ≠ .cls c) :
    Returns T.run ↔ ∀ T', T.Makes T' → Returns T'.run := by
  cases T with
  | expr d c => exact returns_expr d
  | concat d fuel c => exact returns_concat hT
  | branches d fuel altStart patches c => exact returns_branches hT
  | atom d c => exact returns_atom d
  | cls c => exact absurd rfl (hcls c)

theorem Call.returns_iff (T : Call) (hT : T.Fueled) :
    Returns T.run ↔ ∀ c, Relation.ReflTransGen Makes T (.cls c) → Returns c.parseClass := by
  by_cases hcls : ∃ c, T = .cls c
  · obtain ⟨c, rfl⟩ := hcls
    constructor
    · intro h c' hc
      rcases Relation.ReflTransGen.cases_head hc with heq | ⟨T', hT', -⟩
      · cases heq
        exact h
      · cases hT'
    · exact fun h => h c .refl
  · rw [returns_step hT fun c hc => hcls ⟨c, hc⟩]
    constructor
    · intro h c hc
      rcases Relation.ReflTransGen.cases_head hc with heq | ⟨T', hT', hrest⟩
      · grind
      · exact (returns_iff T' (hT'.fueled hT)).1 (h T' hT') c hrest
    · intro h T' hT'
      exact (returns_iff T' (hT'.fueled hT)).2 fun c hrest => h c (.head hT' hrest)
termination_by T.rank
decreasing_by all_goals exact hT'.rank_lt

end Calls

/-- The call of `parse_expr` in `__ls_regex_compile`. -/
def firstCall (pattern : List UInt8) (flags : Nat) : Call :=
  .expr reMaxDepth ⟨pattern.takeWhile (· ≠ 0), compileStart flags, 0⟩

/-- Compilation returns exactly when no class that the parser comes to has a range up to 0xFF before the
end of its body, unless there are 64 classes already. -/
theorem compile_returns_iff (pattern : List UInt8) (flags : Nat) : Returns (compile pattern flags) ↔
    ∀ c, Relation.ReflTransGen Call.Makes (firstCall pattern flags) (.cls c) →
      maxClasses ≤ i32 c.re.nClasses ∨ (0 ≤ i32 c.re.nClasses ∧ ¬ BodyToFF c.rest) := by
  have hcompile : Returns (compile pattern flags) ↔ Returns (firstCall pattern flags).run := by
    unfold compile
    dsimp only
    rw [returns_bind]
    refine ⟨And.left, fun h => ⟨h, fun c _ => ?_⟩⟩
    exact returns_guard.2 fun _ => returns_ok _
  rw [hcompile, Call.returns_iff (firstCall pattern flags) trivial]
  exact forall₂_congr fun c _ => returns_class

/-- The class `[a-\xff]`. -/
theorem compile_diverges : ¬ Returns (compile [byte '[', byte 'a', byte '-', 255, byte ']'] 0) := fun h => h.1 rfl

end LsLang.Regex
