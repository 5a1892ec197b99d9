import LsLang.Scan.Directives

/-! The top level of the parser, over any parser of statements, and what becomes of the
directives of a source there. -/

namespace LsLang.Scan

open LsLang.Core Conditional Lexer Scanner

/-- The fields of `Parser` that are used here; `other` holds those that only the statement parser
uses. -/
structure Parser (σ : Type) where
  scanner : Scanner
  current : Token
  previous : Token
  panicMode : Bool
  hadError : Bool
  other : σ

variable {σ δ : Type}

namespace Parser

section Model

variable (platform : Str)

/-- The loop of `advance`, at most `n` times: an error of the scanner is reported and passed. -/
def pull : Nat → Parser σ → Option (Parser σ)
  | 0, _ => none
  | n + 1, p =>
    match p.scanner.next platform with
    | none => none
    | some (t, s) =>
      let p := { p with scanner := s, current := t }
      if t.type ≠ .error then some p else pull n { p with hadError := true }

/-- `advance`: every error takes a byte of the text. -/
def advance (p : Parser σ) : Option (Parser σ) :=
  pull platform (p.scanner.current.rest.length + 2) { p with previous := p.current }

/-- `skip_semicolons` -/
def skipSemicolons : Nat → Parser σ → Option (Parser σ)
  | 0, _ => none
  | n + 1, p => if p.current.type = .semicolon then (p.advance platform).bind (skipSemicolons n)
      else some p

/-- The tokens at which `synchronize` stops. -/
def starters : List TokenType :=
  [.fn, .struct, .enum, .impl, .trait, .if, .while, .for, .return, .moduleKw, .importKw, .externKw,
    .rbrace]

def synchronizeLoop : Nat → Parser σ → Option (Parser σ)
  | 0, _ => none
  | n + 1, p =>
    if p.current.type = .eof ∨ p.previous.type = .semicolon ∨ p.current.type ∈ starters then some p
    else (p.advance platform).bind (synchronizeLoop n)

def synchronize (n : Nat) (p : Parser σ) : Option (Parser σ) :=
  synchronizeLoop platform n { p with panicMode := false }

/-- What `parse_statement` does: the declaration it returns and the parser behind it, if it
returns. -/
abbrev Statement (σ δ : Type) := Parser σ → Option (Option δ × Parser σ)

variable (statement : Statement σ δ)

/-- The loop of `parse`. -/
def parseLoop : Nat → Parser σ → List δ → Option (Parser σ × List δ)
  | 0, _, _ => none
  | n + 1, p, decls =>
    if p.current.type = .eof then some (p, decls)
    else
      match statement p with
      | none => none
      | some (none, p) =>
        (synchronize platform n p).bind fun p =>
          (skipSemicolons platform n p).bind fun p => parseLoop n p decls
      | some (some decl, p) =>
        (skipSemicolons platform n p).bind fun p => parseLoop n p (decls ++ [decl])

/-- The fields as `memset` leaves them. -/
def start (source : Source) (other : σ) : Parser σ :=
  ⟨init source, ⟨.intLit, ⟨[], 0⟩, 0, 0, 0⟩, ⟨.intLit, ⟨[], 0⟩, 0, 0, 0⟩, false, false, other⟩

/-- `parse`, in loops of at most `n` turns: the declarations of the program, or none after an
error. -/
def parse (n : Nat) (source : Source) (other : σ) : Option (Option (List δ)) :=
  ((start source other).advance platform).bind fun p =>
    (skipSemicolons platform n p).bind fun p =>
      (parseLoop platform statement n p []).map fun r =>
        if r.1.hadError then none else some r.2

end Model

variable {platform : Str}

/-- The parser comes from `p` to `q` by calls of `advance`, and forgets no error. -/
inductive Steps (platform : Str) (p : Parser σ) : Parser σ → Prop
  | refl : Steps platform p p
  | advance {q r : Parser σ} : Steps platform p q → q.advance platform = some r →
      Steps platform p r
  | set {q r : Parser σ} : Steps platform p q → r.scanner = q.scanner → r.current = q.current →
      (q.hadError = true → r.hadError = true) → Steps platform p r

/-- A statement parser gets its tokens from `advance`; where it looks ahead, it puts the scanner
and the current token back. -/
def Steady (platform : Str) (statement : Statement σ δ) : Prop :=
  ∀ p d q, statement p = some (d, q) → Steps platform p q

theorem Steps.trans {p q r : Parser σ} (h : Steps platform p q) (k : Steps platform q r) :
    Steps platform p r := by
  induction k with
  | refl => exact h
  | advance _ ha ih => exact ih.advance ha
  | set _ hs hc he ih => exact ih.set hs hc he

theorem skipSemicolons_steps {n : Nat} {p q : Parser σ}
    (h : skipSemicolons platform n p = some q) : Steps platform p q := by
  induction n generalizing p with
  | zero => cases h
  | succ n ih =>
    unfold skipSemicolons at h
    split at h
    · obtain ⟨r, hr, h⟩ := Option.bind_eq_some_iff.1 h
      exact (Steps.refl.advance hr).trans (ih h)
    · cases h
      exact .refl

theorem synchronizeLoop_steps {n : Nat} {p q : Parser σ}
    (h : synchronizeLoop platform n p = some q) : Steps platform p q := by
  induction n generalizing p with
  | zero => cases h
  | succ n ih =>
    unfold synchronizeLoop at h
    split at h
    · cases h
      exact .refl
    · obtain ⟨r, hr, h⟩ := Option.bind_eq_some_iff.1 h
      exact (Steps.refl.advance hr).trans (ih h)

theorem synchronize_steps {n : Nat} {p q : Parser σ}
    (h : synchronize platform n p = some q) : Steps platform p q := by
  have hset : Steps platform p { p with panicMode := false } := .set .refl rfl rfl id
  exact hset.trans (synchronizeLoop_steps h)

theorem parseLoop_steps {statement : Statement σ δ} (hst : Steady platform statement) {n : Nat}
    {p q : Parser σ} {decls ds : List δ}
    (h : parseLoop platform statement n p decls = some (q, ds)) :
    Steps platform p q ∧ q.current.type = .eof := by
  induction n generalizing p decls with
  | zero => cases h
  | succ n ih =>
    unfold parseLoop at h
    split at h
    · next heof =>
      cases h
      exact ⟨.refl, heof⟩
    · split at h
      · cases h
      · next r hs =>
        obtain ⟨r₁, h₁, h⟩ := Option.bind_eq_some_iff.1 h
        obtain ⟨r₂, h₂, h⟩ := Option.bind_eq_some_iff.1 h
        obtain ⟨hr, hq⟩ := ih h
        exact ⟨(((hst _ _ _ hs).trans (synchronize_steps h₁)).trans
          (skipSemicolons_steps h₂)).trans hr, hq⟩
      · next d r hs =>
        obtain ⟨r₂, h₂, h⟩ := Option.bind_eq_some_iff.1 h
        obtain ⟨hr, hq⟩ := ih h
        exact ⟨((hst _ _ _ hs).trans (skipSemicolons_steps h₂)).trans hr, hq⟩

def Meets (platform : Str) (p : Parser σ) : Prop :=
  p.hadError = true ∨ p.current.type ≠ .eof ∧
    ∃ ts, Returns platform p.scanner ts ∧ ∃ t ∈ ts, t.type = .error

theorem pull_meets {n : Nat} {p q : Parser σ} (h : pull platform n p = some q)
    (hp : Meets platform p) : Meets platform q := by
  induction n generalizing p with
  | zero => cases h
  | succ n ih =>
    unfold pull at h
    split at h
    · cases h
    · next t s hn =>
      dsimp only at h
      split at h
      · next hne =>
        cases h
        rcases hp with hp | ⟨-, ts, hr, hts⟩
        · exact .inl hp
        · cases hr with
          | eof => exact absurd hts (by simp)
          | token hc hneof hr =>
            cases hn.symm.trans hc
            obtain ⟨e, he, herr⟩ := hts
            rcases List.mem_cons.1 he with rfl | he
            · exact absurd herr hne
            · exact .inr ⟨hneof, _, hr, e, he, herr⟩
      · exact ih h (.inl rfl)

theorem Steps.meets {p q : Parser σ} (h : Steps platform p q) (hp : Meets platform p) :
    Meets platform q := by
  induction h with
  | refl => exact hp
  | advance _ ha ih => exact pull_meets ha ih
  | set _ hs hc he ih =>
    rcases ih with hq | hq
    · exact .inl (he hq)
    · unfold Meets
      grind

theorem parse_error {statement : Statement σ δ} (hst : Steady platform statement)
    {source : Source} {ts : List Token} (hr : Returns platform (init source) ts)
    (hts : ∃ t ∈ ts, t.type = .error) {n : Nat} {other : σ} {ds : List δ} :
    parse platform statement n source other ≠ some (some ds) := by
  intro h
  unfold parse at h
  obtain ⟨p, hp, h⟩ := Option.bind_eq_some_iff.1 h
  obtain ⟨q, hq, h⟩ := Option.bind_eq_some_iff.1 h
  obtain ⟨⟨r, ds'⟩, hl, h⟩ := Option.map_eq_some_iff.1 h
  obtain ⟨hs, heof⟩ := parseLoop_steps hst hl
  have hstart : Meets platform (start source other) := .inr ⟨by simp [start], ts, hr, hts⟩
  rcases (((Steps.refl.advance hp).trans (skipSemicolons_steps hq)).trans hs).meets hstart with
    herr | ⟨hne, -⟩
  · grind
  · exact hne heof

/-- The parser stands at the first of the tokens `ts`, or at the end of file behind them. -/
def Ahead (platform : Str) (p : Parser σ) (ts : List Token) : Prop :=
  (p.current.type = .eof ∧ ts = []) ∨
    (p.current.type ≠ .eof ∧ ∃ rs, ts = p.current :: rs ∧ Returns platform p.scanner rs)

theorem advance_ahead {p : Parser σ} {ts : List Token}
    (h : Returns platform p.scanner ts) (hok : ∀ t ∈ ts, t.type ≠ .error) :
    ∃ q, p.advance platform = some q ∧ Ahead platform q ts ∧ q.hadError = p.hadError := by
  unfold advance pull
  cases h with
  | @eof _ u e hc heof =>
    have hn : p.scanner.next platform = some (e, u) := hc
    rw [hn]
    dsimp only
    rw [if_pos (by grind)]
    exact ⟨_, rfl, .inl ⟨heof, rfl⟩, rfl⟩
  | @token _ u t ts hc hne hr =>
    have hn : p.scanner.next platform = some (t, u) := hc
    rw [hn]
    dsimp only
    rw [if_pos (hok t List.mem_cons_self)]
    exact ⟨_, rfl, .inr ⟨hne, ts, rfl, hr⟩, rfl⟩

theorem skipSemicolons_ahead {n : Nat} {p : Parser σ} {ts : List Token}
    (h : Ahead platform p ts) (hok : ∀ t ∈ ts, t.type ≠ .error) (hn : ts.length < n) :
    ∃ q rs, skipSemicolons platform n p = some q ∧ Ahead platform q rs ∧ rs <:+ ts ∧
      q.hadError = p.hadError := by
  induction n generalizing p ts with
  | zero => grind
  | succ n ih =>
    unfold skipSemicolons
    split
    · next hs =>
      rcases h with ⟨heof, -⟩ | ⟨-, rs, rfl, hr⟩
      · grind
      · have hok' : ∀ t ∈ rs, t.type ≠ .error := fun t ht => hok t (List.mem_cons_of_mem _ ht)
        obtain ⟨q, hq, ha, he⟩ := advance_ahead hr hok'
        grind
    grind

def eachToken (platform : Str) : Statement σ Unit := fun p =>
  (p.advance platform).map fun q => (some (), q)

theorem eachToken_steady : Steady platform (eachToken (σ := σ) platform) := by
  intro p d q h
  unfold eachToken at h
  obtain ⟨r, hr, h⟩ := Option.map_eq_some_iff.1 h
  cases h
  exact .advance .refl hr

theorem parseLoop_eachToken {n : Nat} {p : Parser σ} {ts : List Token} (decls : List Unit)
    (h : Ahead platform p ts) (hok : ∀ t ∈ ts, t.type ≠ .error) (hn : ts.length < n) :
    ∃ q ds, parseLoop platform (eachToken platform) n p decls = some (q, ds) ∧
      q.hadError = p.hadError := by
  induction n generalizing p ts decls with
  | zero => grind
  | succ n ih =>
    unfold parseLoop
    rcases h with ⟨heof, -⟩ | ⟨hne, rs, rfl, hr⟩
    · rw [if_pos heof]
      grind
    · have hok' : ∀ t ∈ rs, t.type ≠ .error := fun t ht => hok t (List.mem_cons_of_mem _ ht)
      have hlen : rs.length < n := Nat.lt_of_succ_lt_succ hn
      obtain ⟨q, hq, ha, he⟩ := advance_ahead hr hok'
      obtain ⟨q', rs', hq', ha', hsuf, he'⟩ := skipSemicolons_ahead ha hok' hlen
      obtain ⟨r, ds, hr, he''⟩ := ih (decls ++ [()]) ha'
        (fun t ht => hok' t (hsuf.subset ht)) (hsuf.length_le.trans_lt hlen)
      refine ⟨r, ds, ?_, he''.trans (he'.trans he)⟩
      rw [if_neg hne, eachToken, hq]
      grind

theorem parse_eachToken {source : Source} {ts : List Token}
    (hr : Returns platform (init source) ts) (hok : ∀ t ∈ ts, t.type ≠ .error) (other : σ) :
    ∃ n ds, parse platform (eachToken platform) n source other = some (some ds) := by
  obtain ⟨p, hp, ha, he⟩ := advance_ahead (p := start source other) hr hok
  obtain ⟨q, rs, hq, hb, hsuf, he'⟩ := skipSemicolons_ahead ha hok (Nat.lt_succ_self _)
  obtain ⟨r, ds, hl, he''⟩ := parseLoop_eachToken [] hb
    (fun t ht => hok t (hsuf.subset ht)) (hsuf.length_le.trans_lt (Nat.lt_succ_self _))
  refine ⟨ts.length + 1, ds, ?_⟩
  have hno : ¬ r.hadError = true := by
    rw [he'', he', he]
    exact Bool.false_ne_true
  unfold parse
  grind

end Parser

section Source

variable (platform : Str) (source : Source)

/-- The directives of the source are well nested. -/
def WellNested : Prop :=
  ∃ n : Text Token Str, Reads (init source).toLexer n.items ∧ n.depth ≤ maxCond

/-- The source has an error that the scanner tells: one of its tokens or directives is malformed,
an `#else` or `#end` stands outside every block, or an `#if` inside of too many. -/
def Reported : Prop :=
  ∃ ps, Reads (init source).toLexer ps ∧ reported 0 ps = true

/-- Of a well nested source the tokens of the active regions are returned, and no other source is
made a program. -/
structure Selects : Prop where
  regions : ∀ n : Text Token Str, Reads (init source).toLexer n.items → n.depth ≤ maxCond →
    ∃ ts, Returns platform (init source) ts ∧
      ts.filter ok = (n.select (· == platform)).filter ok
  nested : ∀ {σ δ : Type} (statement : Parser.Statement σ δ) (k : Nat) (other : σ) (ds : List δ),
    Parser.Steady platform statement →
    Parser.parse platform statement k source other = some (some ds) → WellNested source

variable {platform source}

/-- The conditional blocks of a source are done right exactly if they are well nested or the
source has an error of another kind. -/
theorem selects_iff (h : ∀ n, ¬ (turns platform source n).Cut) :
    Selects platform source ↔ WellNested source ∨ Reported source := by
  obtain ⟨ps, hps⟩ := exists_reads (n := 0) h (Nat.lt_succ_self _)
  obtain ⟨ts, hts, ho⟩ := returns_outs platform hps source.noNul []
  have herr := outs_reported ho
  constructor
  · intro hsel
    by_contra hno
    rw [not_or] at hno
    have hok : ∀ t ∈ ts, t.type ≠ .error := by
      intro t ht he
      exact hno.2 ⟨ps, hps, herr.2 ⟨t, ht, he⟩⟩
    obtain ⟨k, ds, hp⟩ := Parser.parse_eachToken hts hok ()
    exact hno.1 (hsel.nested _ k () ds Parser.eachToken_steady hp)
  · intro hcond
    refine ⟨fun n hn hd => ?_, fun statement k other ds hst hp => ?_⟩
    · obtain rfl := Reads.unique hps hn
      refine ⟨ts, hts, ?_⟩
      rw [← List.append_nil n.items] at ho
      have hlen : n.depth + ([] : List CondFrame).length ≤ maxCond := hd
      obtain ⟨us, vs, rfl, hvs, hus⟩ := outs_items n hlen ho
      cases hvs
      rw [List.append_nil, Text.select_eq]
      exact hus
    · refine hcond.resolve_right ?_
      rintro ⟨qs, hqs, hrep⟩
      obtain rfl := Reads.unique hps hqs
      exact Parser.parse_error hst hts (herr.1 hrep) hp

end Source

/-- `LINUX` -/
def linux : Str := lit ['L', 'I', 'N', 'U', 'X']

/-- `#if LINUX x #end` -/
def closedBlock : Source :=
  ⟨lit ['#', 'i', 'f', ' ', 'L', 'I', 'N', 'U', 'X', ' ', 'x', ' ', '#', 'e', 'n', 'd'], by decide⟩

/-- The items of `closedBlock`. -/
def closedText : Text Token Str :=
  .block linux (.piece ⟨.identifier, ⟨lit ['x', ' ', '#', 'e', 'n', 'd'], 10⟩, 1, 1, 11⟩ .nil) .nil

theorem selects_iff_closedBlock : Selects linux closedBlock := by
  have hreads : (init closedBlock).toLexer.readItems 5 = some closedText.items := by decide
  refine (selects_iff fun n hcut => ?_).2 (.inl ⟨closedText, reads_of_readItems hreads, by decide⟩)
  have hfixed : after linux (4 + 1) (init closedBlock) = after linux 4 (init closedBlock) := by decide
  have hsmall : ∀ n < 4, (turns linux closedBlock n).inText = false := by decide
  by_cases hn : n < 4
  · exact Bool.false_ne_true ((hsmall n hn).symm.trans hcut.1)
  · obtain ⟨m, rfl⟩ := Nat.exists_eq_add_of_le' (Nat.not_lt.1 hn)
    have hlast : turns linux closedBlock (m + 4) = turns linux closedBlock 4 := after_fixed hfixed m
    rw [hlast] at hcut
    exact absurd hcut.1 (by decide)

/-- `#if WINDOWS x` -/
def openBlock : Source :=
  ⟨lit ['#', 'i', 'f', ' ', 'W', 'I', 'N', 'D', 'O', 'W', 'S', ' ', 'x'], by decide⟩

/-- A block that is not closed is dropped, and the rest is a program with no declarations. -/
theorem selects_openBlock : ¬ Selects linux openBlock := by
  intro h
  have hparse : Parser.parse linux (Parser.eachToken linux) 1 openBlock () = some (some []) := by
    decide
  obtain ⟨n, hn, -⟩ := h.nested _ 1 () [] Parser.eachToken_steady hparse
  have hreads : (init openBlock).toLexer.readItems 3 = some [.cond (lit ['W', 'I', 'N', 'D', 'O', 'W', 'S']),
      .piece ⟨.identifier, ⟨lit ['x'], 12⟩, 1, 1, 13⟩] := by decide
  have hitems := Reads.unique hn (reads_of_readItems hreads)
  exact absurd (Text.close_mem hitems) (by decide)

end LsLang.Scan
