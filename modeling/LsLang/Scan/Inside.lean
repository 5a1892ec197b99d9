import LsLang.Scan.Scanner

/-! The scanner stays inside its text: what each of its functions passes, and what the lexeme of
a token is. -/

namespace LsLang.Scan

open LsLang.Core

namespace Lexer

variable {s t : Lexer}

@[simp] theorem advance_rest (s : Lexer) (n : Nat) :
    (s.advance n).current.rest = s.current.rest.drop n := rfl

@[simp] theorem newline_rest (s : Lexer) : s.newline.current.rest = s.current.rest.drop 1 := rfl

/-- From `s` on, some of the text was passed to come to `t`, and nothing else happened but that
lines and columns were counted. -/
structure Passes (s t : Lexer) : Prop where
  moves : ∃ w, s.current.Eats w t.current
  start : t.start = s.start
  inFstring : t.inFstring = s.inFstring
  depth : t.fstringBraceDepth = s.fstringBraceDepth

theorem Passes.refl (s : Lexer) : Passes s s := ⟨⟨[], .refl _⟩, rfl, rfl, rfl⟩

theorem Passes.trans {u : Lexer} (h : Passes s t) (k : Passes t u) : Passes s u where
  moves := by
    obtain ⟨w, hw⟩ := h.moves
    obtain ⟨v, hv⟩ := k.moves
    exact ⟨w ++ v, hw.trans hv⟩
  start := k.start.trans h.start
  inFstring := k.inFstring.trans h.inFstring
  depth := k.depth.trans h.depth

theorem passes_advance {w r : Str} (h : s.current.rest = w ++ r) :
    Passes s (s.advance w.length) :=
  ⟨⟨w, .advance h⟩, rfl, rfl, rfl⟩

theorem passes_newline {c : UInt8} {r : Str} (h : s.current.rest = c :: r) : Passes s s.newline :=
  ⟨⟨[c], .advance h⟩, rfl, rfl, rfl⟩

theorem peek_eq {c : UInt8} {r : Str} (h : s.current.rest = c :: r) : s.peek = c := by
  unfold peek peekAt
  rw [h]
  rfl

theorem rest_of_peek (h : s.peek ≠ 0) : ∃ r, s.current.rest = s.peek :: r := by
  cases hr : s.current.rest with
  | nil =>
    unfold peek peekAt at h
    grind
  | cons c r => exact ⟨r, by rw [peek_eq hr]⟩

theorem passes_one (h : s.peek ≠ 0) : Passes s (s.advance 1) := by
  obtain ⟨r, hr⟩ := rest_of_peek h
  exact passes_advance (w := [s.peek]) hr

theorem advanceLoop_passes (p : UInt8 → Bool) {r : Str} (h : s.current.rest = r) :
    Passes s (advanceLoop p r s) := by
  induction r generalizing s with
  | nil => exact .refl s
  | cons c r ih =>
    unfold advanceLoop
    split
    · refine (passes_advance (w := [c]) h).trans (ih ?_)
      rw [List.length_singleton, advance_rest, h]
      rfl
    · exact .refl s

theorem advanceWhile_passes (p : UInt8 → Bool) (s : Lexer) : Passes s (s.advanceWhile p) :=
  advanceLoop_passes p rfl

theorem rest_advance {w r : Str} (h : s.current.rest = w ++ r) :
    (s.advance w.length).current.rest = r := by
  rw [advance_rest, h, List.drop_left]

theorem rest_newline {c : UInt8} {r : Str} (h : s.current.rest = c :: r) :
    s.newline.current.rest = r := by
  rw [newline_rest, h]
  rfl

mutual

theorem skipLoop_passes : ∀ (r : Str) {s : Lexer}, s.current.rest = r → Passes s (skipLoop r s).2
  | [], s, _ => .refl s
  | c :: r, s, h => by
    unfold skipLoop
    split
    · exact (passes_advance (w := [c]) h).trans (skipLoop_passes r (rest_advance (w := [c]) h))
    · split
      · exact (passes_newline h).trans (skipLoop_passes r (rest_newline h))
      · split
        · cases r with
          | nil => exact .refl s
          | cons d r =>
            dsimp only
            have hp : Passes s (s.advance 2) := passes_advance (w := [c, d]) h
            have hr : (s.advance 2).current.rest = r := rest_advance (w := [c, d]) h
            split
            · exact hp.trans (lineLoop_passes r hr)
            · split
              · exact hp.trans (blockLoop_passes 0 r hr)
              · exact .refl s
        · exact .refl s

theorem lineLoop_passes : ∀ (r : Str) {s : Lexer}, s.current.rest = r → Passes s (lineLoop r s).2
  | [], s, _ => .refl s
  | c :: r, s, h => by
    unfold lineLoop
    split
    · exact (passes_newline h).trans (skipLoop_passes r (rest_newline h))
    · exact (passes_advance (w := [c]) h).trans (lineLoop_passes r (rest_advance (w := [c]) h))

theorem blockLoop_passes : ∀ (n : Nat) (r : Str) {s : Lexer}, s.current.rest = r →
    Passes s (blockLoop n r s).2
  | _, [], s, _ => .refl s
  | n, c :: r, s, h => by
    have hp : Passes s (s.advance 1) := passes_advance (w := [c]) h
    have hr : (s.advance 1).current.rest = r := rest_advance (w := [c]) h
    unfold blockLoop
    split
    · cases r with
      | nil => exact hp
      | cons d r =>
        exact (passes_advance (w := [c, d]) h).trans
          (blockLoop_passes (n + 1) r (rest_advance (w := [c, d]) h))
    · split
      · cases r with
        | nil => exact hp
        | cons d r =>
          have hp : Passes s (s.advance 2) := passes_advance (w := [c, d]) h
          have hr : (s.advance 2).current.rest = r := rest_advance (w := [c, d]) h
          cases n with
          | zero => exact hp.trans (skipLoop_passes r hr)
          | succ n => exact hp.trans (blockLoop_passes n r hr)
      · split
        · exact (passes_newline h).trans (blockLoop_passes n r (rest_newline h))
        · exact hp.trans (blockLoop_passes n r hr)

end

theorem skipWhitespace_passes (s : Lexer) : Passes s s.skipWhitespace.2 := skipLoop_passes _ rfl

/-- A token that starts where `s` says, and the scanner behind it. -/
structure Scans (s : Lexer) (r : Token × Lexer) : Prop where
  moves : ∃ w, s.current.Eats w r.2.current
  start : r.2.start = s.start
  token : r.1.type = .error ∨ ∃ type, r.1 = r.2.makeToken type

theorem Passes.token (h : Passes s t) (type : TokenType) : Scans s (t.token type) :=
  ⟨h.moves, h.start, .inr ⟨type, rfl⟩⟩

theorem Passes.fail (h : Passes s t) (message : String) : Scans s (t.fail message) :=
  ⟨h.moves, h.start, .inl rfl⟩

theorem Scans.after {r : Token × Lexer} (k : Scans t r) (h : Passes s t) : Scans s r where
  moves := by
    obtain ⟨w, hw⟩ := h.moves
    obtain ⟨v, hv⟩ := k.moves
    exact ⟨w ++ v, hw.trans hv⟩
  start := k.start.trans h.start
  token := k.token

theorem scanHex_scans (s : Lexer) : Scans s s.scanHex := by
  unfold scanHex
  split
  · exact (Passes.refl s).fail _
  · exact (advanceWhile_passes _ s).token _

theorem scanBinary_scans (s : Lexer) : Scans s s.scanBinary := by
  unfold scanBinary
  split
  · exact (Passes.refl s).fail _
  · exact (advanceWhile_passes _ s).token _

theorem passes_if {b : Bool} (h : b = true → Passes s t) : Passes s (if b then t else s) := by
  cases b with
  | false => exact .refl s
  | true => exact h rfl

theorem passes_seen {c : UInt8} (h : (s.peek == c) = true) (hc : c ≠ 0) : Passes s (s.advance 1) := by
  rw [beq_iff_eq] at h
  exact passes_one (h ▸ hc)

theorem passes_seen_or {c d : UInt8} (h : (s.peek == c || s.peek == d) = true) (hc : c ≠ 0)
    (hd : d ≠ 0) : Passes s (s.advance 1) := by
  rw [Bool.or_eq_true] at h
  exact h.elim (passes_seen · hc) (passes_seen · hd)

theorem scanExponent_scans (s : Lexer) : Scans s s.scanExponent := by
  unfold scanExponent
  dsimp only
  generalize ht : (if s.peek == ch '+' || s.peek == ch '-' then s.advance 1 else s) = t
  have hp : Passes s t := ht ▸ passes_if fun h => passes_seen_or h (by decide) (by decide)
  split
  · exact hp.fail _
  · exact (hp.trans (advanceWhile_passes _ _)).token _

theorem scanDecimal_scans (s : Lexer) : Scans s s.scanDecimal := by
  unfold scanDecimal
  dsimp only
  generalize ht : s.advanceWhile isDigit = t
  have hp : Passes s t := ht ▸ advanceWhile_passes _ s
  generalize hb : (t.peek == ch '.' && isDigit t.peekNext) = b
  generalize hu : (if b then (t.advance 1).advanceWhile isDigit else t) = u
  have hf : Passes t u := by
    rw [← hu]
    refine passes_if fun h => ?_
    rw [← hb, Bool.and_eq_true] at h
    exact (passes_seen h.1 (by decide)).trans (advanceWhile_passes _ _)
  split
  · next h =>
    exact (scanExponent_scans _).after
      ((hp.trans hf).trans (passes_seen_or h (by decide) (by decide)))
  · exact (hp.trans hf).token _

theorem scanNumber_scans (s : Lexer) : Scans s s.scanNumber := by
  unfold scanNumber
  dsimp only
  split
  · next h =>
    rw [Bool.and_eq_true] at h
    exact (scanHex_scans _).after (passes_seen_or h.2 (by decide) (by decide))
  · split
    · next h =>
      rw [Bool.and_eq_true] at h
      exact (scanBinary_scans _).after (passes_seen_or h.2 (by decide) (by decide))
    · exact scanDecimal_scans s

theorem rawString3Loop_scans (quote : UInt8) {r : Str} (h : s.current.rest = r) :
    Scans s (rawString3Loop quote r s) := by
  induction r generalizing s with
  | nil => exact (Passes.refl s).fail _
  | cons c r ih =>
    unfold rawString3Loop
    split
    · exact (ih (rest_newline h)).after (passes_newline h)
    · split
      · next hq =>
        obtain ⟨r', hr⟩ : ∃ r', r = [quote, quote] ++ r' :=
          ⟨r.drop 2, by rw [← hq.2, List.take_append_drop]⟩
        rw [hr] at h
        exact (passes_advance (w := [c, quote, quote]) h).token _
      · exact (ih (rest_advance (w := [c]) h)).after (passes_advance (w := [c]) h)

theorem rawStringLoop_scans (quote : UInt8) {r : Str} (h : s.current.rest = r) :
    Scans s (rawStringLoop quote r s) := by
  induction r generalizing s with
  | nil => exact (Passes.refl s).fail _
  | cons c r ih =>
    have hp : Passes s (s.advance 1) := passes_advance (w := [c]) h
    unfold rawStringLoop
    split
    · exact hp.token _
    · split
      · exact (ih (rest_newline h)).after (passes_newline h)
      · exact (ih (rest_advance (w := [c]) h)).after hp

theorem stringLoop_scans : ∀ (r : Str) {s : Lexer}, s.current.rest = r → Scans s (stringLoop r s)
  | [], s, _ => (Passes.refl s).fail _
  | c :: r, s, h => by
    have hp : Passes s (s.advance 1) := passes_advance (w := [c]) h
    unfold stringLoop
    split
    · exact hp.token _
    · split
      · exact (stringLoop_scans r (rest_newline h)).after (passes_newline h)
      · split
        · cases r with
          | nil => exact hp.fail _
          | cons e r =>
            have hp₂ : Passes s (s.advance 2) := passes_advance (w := [c, e]) h
            dsimp only
            split
            · exact (stringLoop_scans r (rest_advance (w := [c, e]) h)).after hp₂
            · split
              · match r, h with
                | [], _ => exact hp₂.fail _
                | [_], _ => exact hp₂.fail _
                | a :: b :: r, h =>
                  dsimp only
                  split
                  · exact hp₂.fail _
                  · exact (stringLoop_scans r (rest_advance (w := [c, e, a, b]) h)).after
                      (passes_advance (w := [c, e, a, b]) h)
              · exact hp.fail _
        · exact (stringLoop_scans r (rest_advance (w := [c]) h)).after hp

theorem closeChar_scans (s : Lexer) : Scans s s.closeChar := by
  unfold closeChar
  split
  · exact (Passes.refl s).fail _
  · next h =>
    rw [Bool.not_eq_true, bne_eq_false_iff_eq] at h
    exact (passes_seen (beq_iff_eq.2 h) (by decide)).token _

theorem passes_inside (h : s.isAtEnd = false) : Passes s (s.advance 1) := by
  unfold isAtEnd at h
  exact passes_one (by simpa using h)

theorem scanChar_scans (s : Lexer) : Scans s s.scanChar := by
  unfold scanChar
  split
  · exact (Passes.refl s).fail _
  · next hs =>
    have hp : Passes s (s.advance 1) := passes_inside (by simpa using hs)
    split
    · dsimp only
      split
      · exact hp.fail _
      · next ht => exact (closeChar_scans _).after (hp.trans (passes_inside (by simpa using ht)))
    · exact (closeChar_scans _).after hp

theorem scanWord_scans (s : Lexer) : Scans s s.scanWord := by
  unfold scanWord
  dsimp only
  split
  · next h =>
    rw [Bool.and_eq_true] at h
    refine Passes.token ?_ _
    rcases Bool.or_eq_true _ _ ▸ h.2 with h | h
    · exact passes_seen h (by decide)
    · rw [Bool.and_eq_true] at h
      exact passes_seen h.1 (by decide)
  · exact (Passes.refl s).token _

theorem passes_two {c : UInt8} (h : s.peek = c ∧ s.peekNext = c) (hc : c ≠ 0) :
    Passes s (s.advance 2) := by
  obtain ⟨r, hr⟩ := rest_of_peek (h.1 ▸ hc)
  cases r with
  | nil =>
    have hnext : s.peekNext = 0 := by
      unfold peekNext peekAt
      grind
    grind
  | cons d r => exact passes_advance (w := [s.peek, d]) hr

theorem scanIdentifier_scans (s : Lexer) : Scans s s.scanIdentifier := by
  unfold scanIdentifier
  dsimp only
  generalize ht : s.advanceWhile isWord = t
  have hp : Passes s t := ht ▸ advanceWhile_passes _ s
  split
  · exact hp.token _
  · split
    · next h =>
      have hq : t.peek ≠ 0 := by grind
      have hp₁ := hp.trans (passes_one hq)
      split
      · next h₂ =>
        exact (rawString3Loop_scans _ rfl).after (hp₁.trans (passes_two h₂ hq))
      · exact (rawStringLoop_scans _ rfl).after hp₁
    · split
      · next h =>
        have hp₁ := hp.trans (passes_one (h.2 ▸ by decide))
        exact ⟨hp₁.moves, hp₁.start, .inr ⟨_, rfl⟩⟩
      · exact (scanWord_scans _).after hp

theorem matches_passes {c : UInt8} (h : s.matches? c = true) : Passes s (s.advance 1) := by
  unfold matches? at h
  rw [Bool.and_eq_true] at h
  exact passes_inside (by simpa using h.1)

theorem scanOperator_scans (long : List (UInt8 × TokenType)) (type : TokenType) (s : Lexer) :
    Scans s (scanOperator long type s) := by
  induction long with
  | nil => exact (Passes.refl s).token _
  | cons m more ih =>
    unfold scanOperator
    split
    · next h => exact (matches_passes h).token _
    · exact ih

theorem scanDots_scans (s : Lexer) : Scans s s.scanDots := by
  unfold scanDots
  split
  · next h =>
    have hp := matches_passes h
    dsimp only
    split
    · next h' => exact (hp.trans (matches_passes h')).token _
    · exact hp.token _
  · exact (Passes.refl s).token _

theorem scanSigil_scans (names : List (Str × TokenType)) (s : Lexer) :
    Scans s (scanSigil names s) := by
  induction names with
  | nil =>
    unfold scanSigil
    split
    · exact (Passes.refl s).token _
    · exact (Passes.refl s).fail _
  | cons m more ih =>
    unfold scanSigil
    split
    · next h =>
      rw [Bool.and_eq_true, List.isPrefixOf_iff_prefix] at h
      obtain ⟨r, hr⟩ := h.1
      exact (passes_advance hr.symm).token _
    · exact ih

theorem scanByte_scans (s : Lexer) : Scans (s.advance 1) s.scanByte := by
  unfold scanByte
  dsimp only
  generalize s.advance 1 = t
  split
  · exact scanIdentifier_scans t
  · split
    · exact scanNumber_scans t
    · split
      · exact stringLoop_scans _ rfl
      · split
        · exact scanChar_scans t
        · split
          · exact scanDots_scans t
          · split
            · exact scanSigil_scans _ t
            · split
              · exact scanOperator_scans _ _ t
              · exact (Passes.refl t).fail _

theorem fstringLoop_passes : ∀ (r : Str) {s : Lexer}, s.current.rest = r →
    Passes s (fstringLoop r s)
  | [], s, _ => .refl s
  | c :: r, s, h => by
    have hp : Passes s (s.advance 1) := passes_advance (w := [c]) h
    unfold fstringLoop
    split
    · exact .refl s
    · split
      · cases r with
        | nil => exact hp
        | cons d r =>
          exact (passes_advance (w := [c, d]) h).trans
            (fstringLoop_passes r (rest_advance (w := [c, d]) h))
      · split
        · exact (passes_newline h).trans (fstringLoop_passes r (rest_newline h))
        · exact hp.trans (fstringLoop_passes r (rest_advance (w := [c]) h))

/-- The lexeme of `t` is cut from the text between `p` and `q`. -/
def Lexeme (p : Cursor) (t : Token) (q : Cursor) : Prop :=
  ∃ u v w m, p.Eats u t.start ∧ t.start.Eats v m ∧ m.Eats w q ∧ t.length = i32 v.length

/-- What a call that starts at `p` may return. -/
structure Taken (p : Cursor) (r : Token × Lexer) : Prop where
  moves : ∃ w, p.Eats w r.2.current
  lexeme : r.1.type ≠ .error → Lexeme p r.1 r.2.current
  forward : r.1.type ≠ .eof → p.pos < r.2.current.pos

theorem length_eq {p q : Cursor} {v : Str} (h : p.Eats v q) :
    ((q.pos : Int) - p.pos) = v.length := by
  rw [h.2]
  grind

theorem Scans.taken {r : Token × Lexer} {w : Str} (k : Scans s r) (h : s.start.Eats w s.current)
    (hw : w ≠ []) : Taken s.start r := by
  obtain ⟨v, hv⟩ := k.moves
  have hm : s.start.Eats (w ++ v) r.2.current := h.trans hv
  refine ⟨⟨_, hm⟩, fun herr => ?_, fun _ => ?_⟩
  · obtain ⟨type, ht⟩ := k.token.resolve_left herr
    have hstart : r.1.start = s.start := by rw [ht, makeToken, k.start]
    refine ⟨[], w ++ v, [], r.2.current, ?_, ?_, .refl _, ?_⟩
    · rw [hstart]
      exact .refl _
    · rw [hstart]
      exact hm
    · rw [ht, makeToken, k.start, length_eq hm]
  · rw [hm.2, List.length_append]
    have := List.length_pos_iff.2 hw
    omega

theorem Taken.after {p q : Cursor} {r : Token × Lexer} {w : Str} (k : Taken q r)
    (hw : p.Eats w q) : Taken p r := by
  refine ⟨?_, fun herr => ?_, fun heof => ?_⟩
  · obtain ⟨v, hv⟩ := k.moves
    exact ⟨w ++ v, hw.trans hv⟩
  · obtain ⟨u, v, x, m, hu, hrest⟩ := k.lexeme herr
    exact ⟨w ++ u, v, x, m, hw.trans hu, hrest⟩
  · have := k.forward heof
    rw [hw.2] at this
    omega

theorem scanSpec_taken (h : s.peek = ch ':') : Taken s.current s.scanSpec := by
  obtain ⟨u, hu⟩ := (passes_one (s := s) (h ▸ by decide)).moves
  unfold scanSpec
  dsimp only
  generalize ht : advanceWhile (fun c => c != ch '}' && c != ch '"') (s.advance 1).begin = t
  have hp : Passes (s.advance 1).begin t := ht ▸ advanceWhile_passes _ _
  obtain ⟨v, hv⟩ := hp.moves
  have hstart : t.start = (s.advance 1).current := hp.start
  -- the lexeme ends in front of the brace, which is passed too
  suffices hq : ∀ {q : Lexer} {w : Str}, t.current.Eats w q.current →
      Taken s.current (t.makeToken .fstringSpec, q) by
    split
    · next hb =>
      obtain ⟨w, hw⟩ := (passes_seen hb (by decide)).moves
      exact hq hw
    · exact hq (.refl _)
  intro q w hw
  refine ⟨⟨_, (hu.trans hv).trans hw⟩, fun _ => ⟨u, v, w, t.current, ?_, ?_, hw, ?_⟩, fun _ => ?_⟩
  · rw [makeToken, hstart]
    exact hu
  · rw [makeToken, hstart]
    exact hv
  · rw [makeToken, hstart]
    exact congrArg i32 (length_eq hv)
  · have hone : (s.advance 1).current.pos = s.current.pos + 1 := rfl
    have htv : t.current.pos = (s.advance 1).current.pos + v.length := hv.2
    have hqw := hw.2
    dsimp only
    omega

theorem countBrace_eq (s : Lexer) :
    s.countBrace.current = s.current ∧ s.countBrace.start = s.start := by
  unfold countBrace
  grind

theorem scanAt_taken (hs : s.start = s.current) : Taken s.current s.scanAt := by
  unfold scanAt
  split
  · refine ⟨⟨[], .refl _⟩, fun _ => ⟨[], [], [], s.current, ?_, ?_, .refl _, ?_⟩,
      fun h => absurd rfl h⟩
    · exact hs ▸ .refl _
    · exact hs ▸ .refl _
    · rw [token, makeToken, hs]
      grind
  · next hend =>
    have hpeek : s.peek ≠ 0 := by
      unfold isAtEnd at hend
      simpa using hend
    obtain ⟨r, hr⟩ := rest_of_peek hpeek
    have hone : s.start.Eats [s.peek] (s.advance 1).current := hs ▸ .advance hr
    have hne : [s.peek] ≠ [] := List.cons_ne_nil _ _
    split
    · next h =>
      rw [Bool.and_eq_true, beq_iff_eq] at h
      exact scanSpec_taken h.2
    · split
      · rw [← hs]
        exact Scans.taken (s := s.advance 1) ⟨⟨[], .refl _⟩, rfl, .inr ⟨_, rfl⟩⟩ hone hne
      · obtain ⟨hcur, hst⟩ := countBrace_eq s
        rw [← hs, ← hst]
        refine Scans.taken (s := s.countBrace.advance 1) (scanByte_scans _) (w := [s.peek]) ?_ hne
        change s.countBrace.start.Eats [s.peek] (s.countBrace.current.advance 1)
        rw [hst, hcur]
        exact hone

def Cut (s : Lexer) : Prop := s.inText = true ∧ s.isAtEnd = true

theorem eats_nil {p q : Cursor} (h : p.Eats [] q) : q = p :=
  Cursor.ext h.1.symm h.2

theorem scanFstringText_taken (h : s.isAtEnd = false) : Taken s.current s.scanFstringText := by
  unfold scanFstringText
  dsimp only
  generalize ht : fstringLoop s.begin.current.rest s.begin = t
  have hp : Passes s.begin t := ht ▸ fstringLoop_passes _ rfl
  have hst : t.start = s.current := hp.start
  obtain ⟨w, hw⟩ := hp.moves
  rw [← hst]
  split
  · next hlt =>
    refine ((Passes.refl t).token _).taken (w := w) (hst ▸ hw) ?_
    rintro rfl
    have hpos : t.current.pos = t.start.pos := hst ▸ hw.2
    exact absurd hpos hlt.ne'
  · next hlt =>
    -- no text: the scanner has not moved
    obtain rfl : w = [] := by
      have hpos : t.current.pos = t.start.pos + w.length := hst ▸ hw.2
      exact List.length_eq_zero_iff.1 (by omega)
    have hcur : t.current = s.current := eats_nil hw
    have hpeek : t.peek ≠ 0 := by
      unfold isAtEnd at h
      unfold peek peekAt
      rw [hcur]
      exact beq_eq_false_iff_ne.1 h
    obtain ⟨r, hr⟩ := rest_of_peek hpeek
    have hone : t.start.Eats [t.peek] (t.advance 1).current := by
      rw [hst, ← hcur]
      exact .advance hr
    split
    · exact Scans.taken (s := t.advance 1) ⟨⟨[], .refl _⟩, rfl, .inr ⟨_, rfl⟩⟩ hone
        (List.cons_ne_nil _ _)
    · exact Scans.taken (s := t.advance 1) ⟨⟨[], .refl _⟩, rfl, .inr ⟨_, rfl⟩⟩ hone
        (List.cons_ne_nil _ _)

theorem Passes.le (h : Passes s t) : s.current.pos ≤ t.current.pos := by
  obtain ⟨w, hw⟩ := h.moves
  exact hw.2 ▸ Nat.le_add_right _ _

theorem skipLoop_open {r : Str} (hr : s.current.rest = r) (h : (skipLoop r s).1 = false) :
    s.current.pos < (skipLoop r s).2.current.pos := by
  cases r with
  | nil => cases h
  | cons c r =>
    have hone : (s.advance 1).current.rest = r := rest_advance (w := [c]) hr
    unfold skipLoop at h ⊢
    split at h
    · next hc =>
      rw [if_pos hc]
      exact (skipLoop_passes r hone).le
    · next hc =>
      rw [if_neg hc]
      split at h
      · next hn =>
        rw [if_pos hn]
        exact (skipLoop_passes r (rest_newline hr)).le
      · next hn =>
        rw [if_neg hn]
        split at h
        · next hs =>
          rw [if_pos hs]
          cases r with
          | nil => cases h
          | cons d r =>
            have htwo : (s.advance 2).current.rest = r := rest_advance (w := [c, d]) hr
            dsimp only at h ⊢
            split at h
            · next hd =>
              rw [if_pos hd]
              -- a comment in a line, then one in a block
              exact Nat.lt_of_succ_lt (lineLoop_passes r htwo).le
            · next hd =>
              rw [if_neg hd]
              split at h
              · next hd =>
                rw [if_pos hd]
                exact Nat.lt_of_succ_lt (blockLoop_passes 0 r htwo).le
              · cases h
        · cases h

theorem nextInner_taken (h : ¬ s.Cut) : Taken s.current s.nextInner := by
  unfold nextInner
  split
  · next ht => exact scanFstringText_taken (by simpa [Cut, ht] using h)
  · have hp := skipWhitespace_passes s
    have hopen : s.skipWhitespace.1 = false → _ := skipLoop_open rfl
    dsimp only
    split
    · next hc =>
      exact ⟨hp.moves, fun herr => absurd rfl herr, fun _ => hopen (by simpa using hc)⟩
    · obtain ⟨w, hw⟩ := hp.moves
      exact (scanAt_taken (s := s.skipWhitespace.2.begin) rfl).after hw

end Lexer

namespace Scanner

variable {platform : Str} {s : Scanner}

open Lexer

theorem openCond_lexer (arg : Str) (s : Scanner) :
    (openCond platform arg s).2.toLexer = s.toLexer := by
  unfold openCond
  grind

theorem elseCond_lexer (s : Scanner) : s.elseCond.2.toLexer = s.toLexer := by
  unfold elseCond
  split <;> rfl

theorem endCond_lexer (s : Scanner) : s.endCond.2.toLexer = s.toLexer := by
  unfold endCond
  split <;> rfl

theorem processDirective_passes (platform : Str) (s : Scanner) :
    Passes (s.toLexer.advance 1) (s.processDirective platform).2.toLexer := by
  have hw := advanceWhile_passes isWord (s.toLexer.advance 1)
  unfold processDirective
  dsimp only [readDirectiveWord, skipInlineWs]
  split
  · exact hw
  · split
    · rw [openCond_lexer]
      exact (hw.trans (advanceWhile_passes _ _)).trans (advanceWhile_passes _ _)
    · split
      · rw [elseCond_lexer]
        exact hw
      · split
        · rw [endCond_lexer]
          exact hw
        · exact hw.trans (advanceWhile_passes _ _)

/-- What a turn that starts at `p` may do. -/
structure Turned (p : Cursor) (r : Option Token × Scanner) : Prop where
  moves : ∃ w, p.Eats w r.2.current
  lexeme : ∀ t, r.1 = some t → t.type ≠ .error → Lexeme p t r.2.current
  forward : (∃ t, r.1 = some t ∧ t.type = .eof) ∨ p.pos < r.2.current.pos

theorem Turned.after {p q : Cursor} {r : Option Token × Scanner} {w : Str} (k : Turned q r)
    (hw : p.Eats w q) : Turned p r := by
  refine ⟨?_, fun t ht herr => ?_, k.forward.imp_right fun h => ?_⟩
  · obtain ⟨v, hv⟩ := k.moves
    exact ⟨w ++ v, hw.trans hv⟩
  · obtain ⟨u, v, x, m, hu, hrest⟩ := k.lexeme t ht herr
    exact ⟨w ++ u, v, x, m, hw.trans hu, hrest⟩
  · rw [hw.2] at h
    omega

theorem blank_spec (h : ¬ s.Cut) {r : Bool × Lexer}
    (hr : (if s.inText then (true, s.toLexer) else s.skipWhitespace) = r) :
    Passes s.toLexer r.2 ∧ (r.1 = false → s.current.pos < r.2.current.pos) ∧ ¬ r.2.Cut := by
  subst hr
  split
  · next ht => exact ⟨.refl _, fun hf => absurd hf (by simp), h⟩
  · next ht =>
    have hp := skipWhitespace_passes s.toLexer
    refine ⟨hp, skipLoop_open rfl, fun hc => ?_⟩
    have hin := hc.1
    unfold inText at hin ht
    rw [hp.inFstring, hp.depth] at hin
    exact ht hin

theorem turn_turned (platform : Str) (h : ¬ s.Cut) : Turned s.current (s.turn platform) := by
  unfold turn
  generalize hr : (if s.inText then (true, s.toLexer) else s.skipWhitespace) = r
  obtain ⟨hp, hopen, hcut⟩ := blank_spec h hr
  obtain ⟨w, hw⟩ := hp.moves
  dsimp only
  split
  · next hc =>
    refine ⟨⟨w, hw⟩, fun t ht herr => ?_, .inr (hopen (by simpa using hc))⟩
    cases ht
    exact absurd rfl herr
  · refine Turned.after ?_ hw
    split
    · next hd =>
      have hpeek : r.2.peek = ch '#' := by grind
      obtain ⟨u, hu⟩ := (passes_one (s := r.2) (hpeek ▸ by decide)).moves
      have hq := processDirective_passes platform { s with toLexer := r.2 }
      obtain ⟨v, hv⟩ := hq.moves
      refine ⟨⟨u ++ v, hu.trans hv⟩, fun t ht herr => ?_, .inr (Nat.lt_of_succ_le hq.le)⟩
      split at ht
      · cases ht
        exact absurd rfl herr
      · cases ht
    · have k := nextInner_taken hcut
      refine ⟨k.moves, fun t ht herr => ?_, ?_⟩
      · split at ht
        · cases ht
          exact k.lexeme herr
        · cases ht
      · by_cases heof : r.2.nextInner.1.type = .eof
        · grind
        · exact .inr (k.forward heof)

end Scanner

end LsLang.Scan
