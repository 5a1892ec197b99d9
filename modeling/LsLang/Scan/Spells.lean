import LsLang.Scan.Inside
import Mathlib.Data.List.TakeWhile

/-! The texts of tokens, and the bytes that literals start with. -/

namespace LsLang.Scan

open LsLang.Core

def Token.text (t : Token) (n : ℤ) : Str := t.start.rest.take n.toNat

namespace Lexer

variable {s : Lexer} {text : Str} {c : UInt8}

/-- The token is the text from the start to where the scanner stands. -/
structure Spells (s : Lexer) (text : Str) (r : Token × Lexer) : Prop where
  start : r.1.start = s.start
  eats : s.start.Eats text r.2.current
  length : r.1.length = i32 text.length

theorem Spells.of_start {t : Lexer} {r : Token × Lexer} (h : Spells t text r) (hstart : t.start = s.start) :
    Spells s text r :=
  ⟨h.start.trans hstart, by rw [← hstart]; exact h.eats, h.length⟩

theorem token_spells (h : s.start.Eats text s.current) (type : TokenType) : Spells s text (s.token type) :=
  ⟨rfl, h, congrArg i32 (length_eq h)⟩

theorem advance_eats (h : s.start.Eats text s.current) {v r : Str} (hr : s.current.rest = v ++ r) :
    (s.advance v.length).start.Eats (text ++ v) (s.advance v.length).current :=
  h.trans (.advance hr)

theorem advanceLoop_eats (p : UInt8 → Bool) {r : Str} (hr : s.current.rest = r) :
    (advanceLoop p r s).start = s.start ∧ s.current.Eats (r.takeWhile p) (advanceLoop p r s).current := by
  induction r generalizing s with
  | nil => exact ⟨rfl, .refl _⟩
  | cons c r ih =>
    unfold advanceLoop
    by_cases hc : p c = true
    · obtain ⟨hstart, heats⟩ := ih (rest_advance (w := [c]) hr)
      have hone : s.current.Eats [c] (s.advance 1).current := Cursor.Eats.advance (s := [c]) hr
      rw [if_pos hc, List.takeWhile_cons_of_pos hc]
      exact ⟨hstart, hone.trans heats⟩
    · rw [if_neg hc, List.takeWhile_cons_of_neg hc]
      exact ⟨rfl, .refl _⟩

theorem advanceWhile_eats (p : UInt8 → Bool) (h : s.start.Eats text s.current) :
    (s.advanceWhile p).start.Eats (text ++ s.current.rest.takeWhile p) (s.advanceWhile p).current ∧
      (s.advanceWhile p).start = s.start := by
  obtain ⟨hstart, heats⟩ := advanceLoop_eats p (s := s) rfl
  unfold advanceWhile
  rw [hstart]
  exact ⟨h.trans heats, rfl⟩

theorem step_eats (h : s.start.Eats text s.current) (hc : s.peek = c) (hne : c ≠ 0) :
    (s.advance 1).start.Eats (text ++ [c]) (s.advance 1).current := by
  obtain ⟨r, hr⟩ := rest_of_peek (s := s) (by rw [hc]; exact hne)
  rw [hc] at hr
  exact advance_eats (v := [c]) h hr

theorem takeWhile_ne_nil {p : UInt8 → Bool} (h : p s.peek = true) (hzero : p 0 = false) :
    s.current.rest.takeWhile p ≠ [] := by
  have hne : s.peek ≠ 0 := by grind
  obtain ⟨r, hr⟩ := rest_of_peek hne
  rw [hr, List.takeWhile_cons_of_pos h]
  exact List.cons_ne_nil _ _

theorem of_mem_takeWhile {p : UInt8 → Bool} {l : Str} {d : UInt8} (h : d ∈ l.takeWhile p) : p d = true :=
  List.mem_takeWhile_imp h

/-! ### The literals of numbers, strings and characters -/

def Apart (type : TokenType) : Prop := type ≠ .intLit ∧ type ≠ .stringLit ∧ type ≠ .charLit

instance (type : TokenType) : Decidable (Apart type) := by
  unfold Apart
  exact inferInstance

theorem token_apart (s : Lexer) {type : TokenType} (h : Apart type) : Apart (s.token type).1.type := h

theorem fail_apart (s : Lexer) (message : String) : Apart (s.fail message).1.type := by
  change Apart .error
  decide

theorem keywordLoop_apart (word : Str) (n lo hi : ℕ) : Apart (keywordLoop word n lo hi) := by
  induction n generalizing lo hi with
  | zero =>
    unfold keywordLoop
    decide
  | succ n ih =>
    rw [keywordLoop]
    split
    · decide
    · dsimp only
      split
      · decide
      · next name type hmid =>
        have hmem := List.mem_of_getElem? hmid
        have hall : ∀ e ∈ keywords, Apart e.2 := by decide
        grind

theorem rawString3Loop_apart (quote : UInt8) (r : Str) (s : Lexer) : Apart (rawString3Loop quote r s).1.type := by
  induction r generalizing s with
  | nil =>
    exact fail_apart _ _
  | cons c r ih =>
    unfold rawString3Loop
    split
    · exact ih _
    · split
      · exact token_apart _ (by decide)
      · exact ih _

theorem rawStringLoop_apart (quote : UInt8) (r : Str) (s : Lexer) : Apart (rawStringLoop quote r s).1.type := by
  induction r generalizing s with
  | nil =>
    exact fail_apart _ _
  | cons c r ih =>
    unfold rawStringLoop
    split
    · exact token_apart _ (by decide)
    grind

theorem scanIdentifier_apart (s : Lexer) : Apart s.scanIdentifier.1.type := by
  unfold scanIdentifier
  dsimp only
  split
  · exact token_apart _ (by decide)
  · split
    · split
      · exact rawString3Loop_apart _ _ _
      · exact rawStringLoop_apart _ _ _
    · split
      · exact token_apart _ (by decide)
      · unfold scanWord
        dsimp only
        split
        · exact keywordLoop_apart _ _ _ _
        · exact keywordLoop_apart _ _ _ _

theorem scanOperator_apart {long : List (UInt8 × TokenType)} {type : TokenType} (hlong : ∀ e ∈ long, Apart e.2)
    (htype : Apart type) (s : Lexer) : Apart (scanOperator long type s).1.type := by
  induction long with
  | nil => exact htype
  | cons e more ih =>
    unfold scanOperator
    split
    · exact hlong e List.mem_cons_self
    grind

theorem scanDots_apart (s : Lexer) : Apart s.scanDots.1.type := by
  unfold scanDots
  split
  · dsimp only
    split
    · exact token_apart _ (by decide)
    · exact token_apart _ (by decide)
  · exact token_apart _ (by decide)

theorem scanSigil_apart {names : List (Str × TokenType)} (hnames : ∀ e ∈ names, Apart e.2) (s : Lexer) :
    Apart (scanSigil names s).1.type := by
  induction names with
  | nil =>
    unfold scanSigil
    split
    · exact token_apart _ (by decide)
    · exact fail_apart _ _
  | cons e more ih =>
    unfold scanSigil
    split
    · exact hnames e List.mem_cons_self
    grind

theorem scanExponent_type (s : Lexer) : s.scanExponent.1.type = .error ∨ s.scanExponent.1.type = .floatLit := by
  unfold scanExponent
  dsimp only
  generalize (if s.peek == ch '+' || s.peek == ch '-' then s.advance 1 else s) = t
  split
  · exact .inl rfl
  · exact .inr rfl

theorem stringLoop_type : ∀ (r : Str) (s : Lexer), (stringLoop r s).1.type = .error ∨ (stringLoop r s).1.type = .stringLit
  | [], _ => .inl rfl
  | c :: r, s => by
    unfold stringLoop
    split
    · exact .inr rfl
    · split
      · exact stringLoop_type r _
      · split
        · cases r with
          | nil => exact .inl rfl
          | cons e r =>
            dsimp only
            split
            · exact stringLoop_type r _
            · split
              · cases r with
                | nil => exact .inl rfl
                | cons a r =>
                  cases r with
                  | nil => exact .inl rfl
                  | cons b r =>
                    dsimp only
                    split
                    · exact .inl rfl
                    · exact stringLoop_type r _
              · exact .inl rfl
        · exact stringLoop_type r _

theorem closeChar_type (s : Lexer) : s.closeChar.1.type = .error ∨ s.closeChar.1.type = .charLit := by
  unfold closeChar
  split
  · exact .inl rfl
  · exact .inr rfl

theorem scanChar_type (s : Lexer) : s.scanChar.1.type = .error ∨ s.scanChar.1.type = .charLit := by
  unfold scanChar
  split
  · exact .inl rfl
  · split
    · dsimp only
      split
      · exact .inl rfl
      · exact closeChar_type _
    · exact closeChar_type _

theorem scanByte_type (s : Lexer) :
    Apart s.scanByte.1.type ∨
    isDigit s.peek = true ∧ s.scanByte = (s.advance 1).scanNumber ∨
    s.peek = ch '"' ∧ s.scanByte = (s.advance 1).scanString ∨
    s.peek = ch '\'' ∧ s.scanByte = (s.advance 1).scanChar := by
  unfold scanByte
  dsimp only
  split
  · exact .inl (scanIdentifier_apart _)
  split
  · grind
  split
  · grind
  split
  · grind
  left
  split
  · exact scanDots_apart _
  split
  · exact scanSigil_apart (by decide) _
  split
  · next c long type hfind =>
    have hmem := List.mem_of_find?_eq_some hfind
    have hall : ∀ e ∈ operators, (∀ l ∈ e.2.1, Apart l.2) ∧ Apart e.2.2 := by decide
    obtain ⟨hlong, htype⟩ := hall _ hmem
    exact scanOperator_apart hlong htype _
  · exact fail_apart _ _

theorem scanByte_intLit (h : s.scanByte.1.type = .intLit) :
    isDigit s.peek = true ∧ s.scanByte = (s.advance 1).scanNumber := by
  rcases s.scanByte_type with hapart | hnumber | ⟨-, hstring⟩ | ⟨-, hchar⟩
  · exact absurd h hapart.1
  · exact hnumber
  · rw [hstring] at h
    rcases stringLoop_type (s.advance 1).current.rest (s.advance 1) with htype | htype
    · exact absurd (h.symm.trans htype) (by decide)
    · exact absurd (h.symm.trans htype) (by decide)
  grind [scanChar_type]

end Lexer

section Texts

variable {t : Token} {text : Str}

structure HasText (t : Token) (text : Str) : Prop where
  length : t.length = text.length
  text : ∀ n : ℕ, t.start.rest.take n = text.take n ∨ text.length < n

theorem Lexer.Spells.hasText {s : Lexer} {r : Token × Lexer} (h : s.Spells text r) (hsize : text.length < 2 ^ 31) :
    HasText r.1 text := by
  refine ⟨?_, fun n => ?_⟩
  · rw [h.length]
    unfold i32
    grind
  · rcases Nat.lt_or_ge text.length n with hlt | hle
    · exact .inr hlt
    · refine .inl ?_
      rw [h.start, h.eats.1, List.take_append_of_le_length hle]

theorem HasText.take (h : HasText t text) {n : ℕ} (hn : n ≤ text.length) : t.text n = text.take n :=
  (h.text n).resolve_right (Nat.not_lt.2 hn)

theorem HasText.whole (h : HasText t text) : t.text t.length = text := by
  rw [h.length, h.take le_rfl, List.take_length]

end Texts

def Lexer.at (text : Str) : Lexer := ⟨⟨text, 0⟩, ⟨text, 0⟩, 1, 1, 1, false, 0⟩

end LsLang.Scan
