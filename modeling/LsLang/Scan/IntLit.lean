import LsLang.Scan.Spells

/-! Integer literals: the texts of their tokens, and the two readers of `parser_expr.c`. -/

namespace LsLang.Scan

open LsLang.Core

/-! ### The readers -/

/-- The value of a digit in `strtoull`. -/
def digitOf (c : UInt8) : ℕ :=
  if isDigit c then c.toNat - 48
  else if ch 'a' ≤ c then c.toNat - 97 + 10
  else c.toNat - 65 + 10

def inBase (base : ℕ) (c : UInt8) : Bool := isXdigit c && decide (digitOf c < base)

def digitsValue (base : ℕ) (ds : Str) : ℕ := ds.foldl (fun v d => v * base + digitOf d) 0

/-- `strtoull` of a text that starts with a digit; the second component says `ERANGE`. -/
def strtoull (s : Str) (base : ℕ) : UInt64 × Bool :=
  let v := digitsValue base (s.takeWhile (inBase base))
  if v < 2 ^ 64 then (UInt64.ofNat v, false) else (UInt64.ofNat (2 ^ 64 - 1), true)

def readMagnitude (buf : Str) : UInt64 × Bool :=
  if 2 < buf.length ∧ buf.getD 0 0 = ch '0' ∧ (buf.getD 1 0 = ch 'x' ∨ buf.getD 1 0 = ch 'X') then
    strtoull (buf.drop 2) 16
  else if 2 < buf.length ∧ buf.getD 0 0 = ch '0' ∧ (buf.getD 1 0 = ch 'b' ∨ buf.getD 1 0 = ch 'B') then
    strtoull (buf.drop 2) 2
  else strtoull buf 10

/-- `prefix_int_lit`: the bits of the literal, and what is reported. -/
def prefixIntLit (t : Token) : UInt64 × Option String :=
  if 256 ≤ t.length then (0, some "numeric literal too long")
  else
    let (uv, range) := readMagnitude (t.text t.length)
    if range then (0, some "integer literal out of range (does not fit in 64 bits)") else (uv, none)

/-- `parse_int_lit_value` -/
def parseIntLitValue (t : Token) : UInt64 :=
  (readMagnitude (t.text (if t.length < 63 then t.length else 63))).1

/-- A field of a bit pattern: `AST_MATCH_BIT_PATTERN`. -/
structure BitPattern where
  width : Int32
  name : Option Str
  matchValueSet : Bool
  matchVal : UInt64
  lsbShift : ℤ

/-- The field `[w:x]` of `parse_bit_pattern_seq`, where `w` is an integer literal, and what is reported. -/
def bitField (w x : Token) : BitPattern × Option String :=
  let width : Int32 := (parseIntLitValue w).toUInt32.toInt32
  if x.type = .intLit then (⟨width, none, true, parseIntLitValue x, 0⟩, none)
  else if x.type = .underscore then (⟨width, none, false, 0, 0⟩, none)
  else if x.type = .identifier then (⟨width, some (x.text x.length), false, 0, 0⟩, none)
  else (⟨width, none, false, 0, 0⟩, some "expected name, integer literal, or '_' after ':'")

/-! ### What a literal says -/

/-- The text of an integer literal, with its value. -/
inductive IntText : Str → ℕ → Prop
  | decimal {ds : Str} : ds ≠ [] → (∀ d ∈ ds, isDigit d = true) → IntText ds (digitsValue 10 ds)
  | hex {x : UInt8} {ds : Str} : x = ch 'x' ∨ x = ch 'X' → ds ≠ [] → (∀ d ∈ ds, isXdigit d = true) →
    IntText (ch '0' :: x :: ds) (digitsValue 16 ds)
  | binary {b : UInt8} {ds : Str} : b = ch 'b' ∨ b = ch 'B' → ds ≠ [] → (∀ d ∈ ds, d = ch '0' ∨ d = ch '1') →
    IntText (ch '0' :: b :: ds) (digitsValue 2 ds)

theorem digitOf_lt {c : UInt8} (h : isDigit c = true) : digitOf c < 10 := by
  unfold digitOf
  rw [if_pos h]
  unfold isDigit at h
  rw [Bool.and_eq_true, decide_eq_true_iff, decide_eq_true_iff, UInt8.le_iff_toNat_le, UInt8.le_iff_toNat_le] at h
  grind

theorem inBase_ten {c : UInt8} (h : isDigit c = true) : inBase 10 c = true := by
  unfold inBase isXdigit
  rw [h, decide_eq_true (digitOf_lt h)]
  rfl

theorem digitOf_xdigit (c : UInt8) (h : isXdigit c = true) : digitOf c < 16 := by
  unfold digitOf
  by_cases hd : isDigit c = true
  · have := digitOf_lt hd
    unfold digitOf at this
    grind
  · have ha : (ch 'a').toNat = 97 := rfl
    have hf : (ch 'f').toNat = 102 := rfl
    have hA : (ch 'A').toNat = 65 := rfl
    have hF : (ch 'F').toNat = 70 := rfl
    unfold isXdigit at h
    simp only [Bool.or_eq_true, Bool.and_eq_true, decide_eq_true_iff, UInt8.le_iff_toNat_le] at h
    rw [if_neg hd]
    simp only [UInt8.le_iff_toNat_le]
    grind

theorem inBase_sixteen {c : UInt8} (h : isXdigit c = true) : inBase 16 c = true := by
  unfold inBase
  rw [h, decide_eq_true (digitOf_xdigit c h)]
  rfl

theorem inBase_two {c : UInt8} (h : c = ch '0' ∨ c = ch '1') : inBase 2 c = true := by
  rcases h with rfl | rfl
  · decide
  · decide

theorem strtoull_digits {base : ℕ} {ds : Str} (h : ∀ d ∈ ds, inBase base d = true) :
    strtoull ds base = if digitsValue base ds < 2 ^ 64 then (UInt64.ofNat (digitsValue base ds), false)
      else (UInt64.ofNat (2 ^ 64 - 1), true) := by
  have hall : ds.takeWhile (inBase base) = ds := List.takeWhile_eq_self_iff.2 h
  unfold strtoull
  rw [hall]

theorem readMagnitude_text {text : Str} {v : ℕ} (h : IntText text v) :
    readMagnitude text = if v < 2 ^ 64 then (UInt64.ofNat v, false) else (UInt64.ofNat (2 ^ 64 - 1), true) := by
  unfold readMagnitude
  cases h with
  | decimal hne hds =>
    -- the second byte is a digit or none
    have hsecond : ∀ c : UInt8, isDigit c = false → c ≠ 0 → text.getD 1 0 ≠ c := by grind
    have hx : ¬ (text.getD 1 0 = ch 'x' ∨ text.getD 1 0 = ch 'X') :=
      not_or.2 ⟨hsecond _ (by decide) (by decide), hsecond _ (by decide) (by decide)⟩
    have hb : ¬ (text.getD 1 0 = ch 'b' ∨ text.getD 1 0 = ch 'B') :=
      not_or.2 ⟨hsecond _ (by decide) (by decide), hsecond _ (by decide) (by decide)⟩
    rw [if_neg fun h => hx h.2.2, if_neg fun h => hb h.2.2]
    exact strtoull_digits fun d hd => inBase_ten (hds d hd)
  | @hex x ds hx hne hds =>
    have hlen := List.length_pos_iff.2 hne
    rw [if_pos ⟨by grind, rfl, hx⟩]
    exact strtoull_digits fun d hd => inBase_sixteen (hds d hd)
  | @binary b ds hb hne hds =>
    have hlen := List.length_pos_iff.2 hne
    have hnotx : ¬ (b = ch 'x' ∨ b = ch 'X') := by grind
    rw [if_neg fun h => hnotx h.2.2, if_pos ⟨by grind, rfl, hb⟩]
    exact strtoull_digits fun d hd => inBase_two (hds d hd)

/-! ### The tokens -/

namespace Lexer

variable {s : Lexer} {text w : Str} {c : UInt8}

theorem scanHex_text (h : s.start.Eats [ch '0', c] s.current) (hc : c = ch 'x' ∨ c = ch 'X')
    (ht : s.scanHex.1.type = .intLit) : ∃ text v, IntText text v ∧ Spells s text s.scanHex := by
  unfold scanHex at ht ⊢
  by_cases hx : isXdigit s.peek = true
  · rw [if_neg (by rw [hx]; decide)]
    obtain ⟨heats, hstart⟩ := advanceWhile_eats isXdigit h
    have hspells := token_spells heats .intLit
    refine ⟨_, _, .hex hc (takeWhile_ne_nil hx (by decide)) fun d hd => of_mem_takeWhile hd, ?_⟩
    exact hspells.of_start hstart
  · rw [if_pos (by grind)] at ht
    cases ht

theorem scanBinary_text (h : s.start.Eats [ch '0', c] s.current) (hc : c = ch 'b' ∨ c = ch 'B')
    (ht : s.scanBinary.1.type = .intLit) : ∃ text v, IntText text v ∧ Spells s text s.scanBinary := by
  unfold scanBinary at ht ⊢
  by_cases hb : (s.peek != ch '0' && s.peek != ch '1') = true
  · rw [if_pos hb] at ht
    cases ht
  · rw [if_neg hb]
    obtain ⟨heats, hstart⟩ := advanceWhile_eats (fun c => c == ch '0' || c == ch '1') h
    have hspells := token_spells heats .intLit
    have hseen : (s.peek == ch '0' || s.peek == ch '1') = true := by grind
    have hne : s.current.rest.takeWhile (fun c => c == ch '0' || c == ch '1') ≠ [] :=
      takeWhile_ne_nil (p := fun c => c == ch '0' || c == ch '1') hseen (by decide)
    refine ⟨_, _, .binary hc hne fun d hd => ?_, ?_⟩
    · simpa using of_mem_takeWhile hd
    · exact hspells.of_start hstart

theorem scanDecimal_text (h : s.start.Eats [c] s.current) (hc : isDigit c = true)
    (ht : s.scanDecimal.1.type = .intLit) : ∃ text v, IntText text v ∧ Spells s text s.scanDecimal := by
  unfold scanDecimal at ht ⊢
  obtain ⟨heats, hstart⟩ := advanceWhile_eats isDigit h
  generalize s.advanceWhile isDigit = t at heats hstart ht ⊢
  dsimp only at ht ⊢
  -- a point or an exponent makes another token
  by_cases hfloat : (t.peek == ch '.' && isDigit t.peekNext) = true
  · exfalso
    rw [if_pos hfloat, if_pos hfloat] at ht
    split at ht
    · grind [scanExponent_type]
    · cases ht
  · rw [if_neg hfloat, if_neg hfloat] at ht ⊢
    by_cases hexp : (t.peek == ch 'e' || t.peek == ch 'E') = true
    · rw [if_pos hexp] at ht
      grind [scanExponent_type]
    · rw [if_neg hexp]
      have hspells := token_spells heats .intLit
      have hds : ∀ d ∈ [c] ++ s.current.rest.takeWhile isDigit, isDigit d = true := by
        grind [of_mem_takeWhile, List.mem_singleton, List.mem_append]
      exact ⟨_, _, .decimal (List.cons_ne_nil _ _) hds, hspells.of_start hstart⟩

theorem scanNumber_text (h : s.start.Eats [c] s.current) (hc : isDigit c = true)
    (ht : s.scanNumber.1.type = .intLit) : ∃ text v, IntText text v ∧ Spells s text s.scanNumber := by
  have hfirst : (s.start.rest[0]?).getD 0 = c := by
    rw [h.1]
    rfl
  unfold scanNumber at ht ⊢
  dsimp only at ht ⊢
  rw [hfirst] at ht ⊢
  generalize hzero : (c == ch '0' && s.current.pos - s.start.pos == 1) = zero at ht ⊢
  have hstep : ∀ d : UInt8, zero = true → s.peek = d → d ≠ 0 →
      (s.advance 1).start.Eats [ch '0', d] (s.advance 1).current := by
    intro d hz hd hne
    rw [hz, Bool.and_eq_true, beq_iff_eq] at hzero
    rw [hzero.1] at h
    exact step_eats h hd hne
  by_cases hx : (zero && (s.peek == ch 'x' || s.peek == ch 'X')) = true
  · rw [if_pos hx] at ht ⊢
    rw [Bool.and_eq_true, Bool.or_eq_true, beq_iff_eq, beq_iff_eq] at hx
    have hne : s.peek ≠ 0 := by grind
    obtain ⟨text, v, htext, hspells⟩ := scanHex_text (hstep s.peek hx.1 rfl hne) hx.2 ht
    exact ⟨text, v, htext, hspells.of_start rfl⟩
  · rw [if_neg hx] at ht ⊢
    by_cases hb : (zero && (s.peek == ch 'b' || s.peek == ch 'B')) = true
    · rw [if_pos hb] at ht ⊢
      rw [Bool.and_eq_true, Bool.or_eq_true, beq_iff_eq, beq_iff_eq] at hb
      have hne : s.peek ≠ 0 := by grind
      obtain ⟨text, v, htext, hspells⟩ := scanBinary_text (hstep s.peek hb.1 rfl hne) hb.2 ht
      exact ⟨text, v, htext, hspells.of_start rfl⟩
    · rw [if_neg hb] at ht ⊢
      exact scanDecimal_text h hc ht

theorem scanByte_text (hstart : s.start = s.current) (ht : s.scanByte.1.type = .intLit) : ∃ text v, IntText text v ∧ Spells s text s.scanByte := by
  obtain ⟨hdigit, hnumber⟩ := scanByte_intLit ht
  have hne : s.peek ≠ 0 := by
    intro h0
    rw [h0] at hdigit
    exact absurd hdigit (by decide)
  have hnone : s.start.Eats [] s.current := by
    rw [hstart]
    exact .refl _
  have heats : (s.advance 1).start.Eats [s.peek] (s.advance 1).current := step_eats hnone rfl hne
  rw [hnumber] at ht ⊢
  obtain ⟨text, v, htext, hspells⟩ := scanNumber_text heats hdigit ht
  exact ⟨text, v, htext, hspells.of_start rfl⟩

end Lexer

/-! ### The values -/

section Values

variable {t x : Token} {text : Str} {v : ℕ}

theorem prefixIntLit_text (ht : HasText t text) (h : IntText text v) (hlen : text.length < 256) :
    (v < 2 ^ 64 → prefixIntLit t = (UInt64.ofNat v, none)) ∧
    (2 ^ 64 ≤ v → prefixIntLit t = (0, some "integer literal out of range (does not fit in 64 bits)")) := by
  unfold prefixIntLit
  rw [if_neg (by rw [ht.length]; omega), ht.whole, readMagnitude_text h]
  grind

theorem prefixIntLit_long (ht : HasText t text) (hlen : 256 ≤ text.length) :
    prefixIntLit t = (0, some "numeric literal too long") := by
  unfold prefixIntLit
  rw [if_pos (by rw [ht.length]; omega)]

theorem parseIntLitValue_text (ht : HasText t text) (h : IntText text v) (hlen : text.length < 64) (hv : v < 2 ^ 64) :
    parseIntLitValue t = UInt64.ofNat v := by
  have hcopy : (if t.length < 63 then t.length else 63) = (text.length : ℤ) := by
    rw [ht.length]
    split <;> omega
  unfold parseIntLitValue
  rw [hcopy, ht.take le_rfl, List.take_length, readMagnitude_text h, if_pos hv]

theorem toInt32_toInt {u : UInt32} (h : u.toNat < 2 ^ 31) : u.toInt32.toInt = u.toNat := by
  change u.toBitVec.toInt = u.toBitVec.toNat
  refine BitVec.toInt_eq_toNat_of_lt ?_
  change 2 * u.toNat < 2 ^ 32
  omega

theorem width_text (ht : HasText t text) (h : IntText text v) (hlen : text.length < 64) (hv : v < 2 ^ 31) :
    (bitField t x).1.width.toInt = v := by
  have hwidth : (bitField t x).1.width = (parseIntLitValue t).toUInt32.toInt32 := by
    unfold bitField
    grind
  have hnat : (UInt64.ofNat v).toUInt32.toNat = v := by
    grind [Nat.mod_eq_of_lt, UInt64.toNat_toUInt32, UInt64.toNat_ofNat_of_lt']
  grind [toInt32_toInt, parseIntLitValue_text]

end Values

/-- Integer literals denote their values: in an expression all that are shorter than the buffer, or an error is
reported; in a bit pattern those that fit its buffer, and 64 bits or a width. -/
theorem int_literals_denote (s : Lexer) (hstart : s.start = s.current) (hsize : s.current.rest.length < 2 ^ 31)
    (hlit : s.scanByte.1.type = .intLit) :
    ∃ text v, IntText text v ∧ s.Spells text s.scanByte ∧
      (text.length < 256 → (v < 2 ^ 64 → prefixIntLit s.scanByte.1 = (UInt64.ofNat v, none)) ∧
        (2 ^ 64 ≤ v → ∃ error, prefixIntLit s.scanByte.1 = (0, some error))) ∧
      (256 ≤ text.length → ∃ error, prefixIntLit s.scanByte.1 = (0, some error)) ∧
      (text.length < 64 → v < 2 ^ 64 → ∀ w,
        (bitField w s.scanByte.1).1.matchValueSet = true ∧ (bitField w s.scanByte.1).1.matchVal = UInt64.ofNat v) ∧
      (text.length < 64 → v < 2 ^ 31 → ∀ x, (bitField s.scanByte.1 x).1.width.toInt = v) := by
  obtain ⟨text, v, htext, hspells⟩ := Lexer.scanByte_text hstart hlit
  have hshort : text.length < 2 ^ 31 := by
    have hrest := congrArg List.length hspells.eats.1
    rw [hstart, List.length_append] at hrest
    omega
  have ht := hspells.hasText hshort
  refine ⟨text, v, htext, hspells, fun hlen => ?_, fun hlen => ⟨_, prefixIntLit_long ht hlen⟩, fun hlen hv w => ?_,
    fun hlen hv x => width_text ht htext hlen hv⟩
  · obtain ⟨hfits, hrange⟩ := prefixIntLit_text ht htext hlen
    exact ⟨hfits, fun hv => ⟨_, hrange hv⟩⟩
  · unfold bitField
    dsimp only
    rw [if_pos hlit]
    exact ⟨rfl, parseIntLitValue_text ht htext hlen hv⟩

theorem int_literals_denote_hex :
    ∃ text v, IntText text v ∧ (Lexer.at (lit ['0', 'x', 'f', 'F', ';'])).Spells text (Lexer.at (lit ['0', 'x', 'f', 'F', ';'])).scanByte ∧
      (text.length < 256 → (v < 2 ^ 64 → prefixIntLit (Lexer.at (lit ['0', 'x', 'f', 'F', ';'])).scanByte.1 =
          (UInt64.ofNat v, none)) ∧
        (2 ^ 64 ≤ v → ∃ error, prefixIntLit (Lexer.at (lit ['0', 'x', 'f', 'F', ';'])).scanByte.1 = (0, some error))) ∧
      (256 ≤ text.length → ∃ error, prefixIntLit (Lexer.at (lit ['0', 'x', 'f', 'F', ';'])).scanByte.1 = (0, some error)) ∧
      (text.length < 64 → v < 2 ^ 64 → ∀ w,
        (bitField w (Lexer.at (lit ['0', 'x', 'f', 'F', ';'])).scanByte.1).1.matchValueSet = true ∧
          (bitField w (Lexer.at (lit ['0', 'x', 'f', 'F', ';'])).scanByte.1).1.matchVal = UInt64.ofNat v) ∧
      (text.length < 64 → v < 2 ^ 31 → ∀ x,
        (bitField (Lexer.at (lit ['0', 'x', 'f', 'F', ';'])).scanByte.1 x).1.width.toInt = v) :=
  int_literals_denote (Lexer.at (lit ['0', 'x', 'f', 'F', ';'])) rfl (by decide) (by decide)

/-- 256 zeros are refused, though their value is 0. -/
theorem int_literals_long :
    ¬ ∀ s : Lexer, s.start = s.current → s.scanByte.1.type = .intLit →
      ∀ text v, IntText text v → s.Spells text s.scanByte → v < 2 ^ 64 →
        prefixIntLit s.scanByte.1 = (UInt64.ofNat v, none) := by
  intro h
  have htype : (Lexer.at (List.replicate 256 48)).scanByte.1.type = .intLit := by decide +kernel
  have hlen : (Lexer.at (List.replicate 256 48)).scanByte.1.length = 256 := by decide +kernel
  have hrest : (Lexer.at (List.replicate 256 48)).scanByte.2.current = ⟨[], 256⟩ := by decide +kernel
  have hdigits : ∀ d ∈ List.replicate 256 (48 : UInt8), isDigit d = true := by
    intro d hd
    rw [List.eq_of_mem_replicate hd]
    rfl
  have hne : List.replicate 256 (48 : UInt8) ≠ [] := List.cons_ne_nil _ _
  have hspells : (Lexer.at (List.replicate 256 48)).Spells (List.replicate 256 48)
      (Lexer.at (List.replicate 256 48)).scanByte := by
    refine ⟨by decide +kernel, ?_, ?_⟩
    · rw [hrest]
      exact ⟨(List.append_nil _).symm, by decide +kernel⟩
    · rw [hlen]
      decide +kernel
  have hvalue : digitsValue 10 (List.replicate 256 48) = 0 := by decide +kernel
  have hsmall : digitsValue 10 (List.replicate 256 48) < 2 ^ 64 := by
    rw [hvalue]
    exact Nat.two_pow_pos 64
  have hclaim := h _ rfl htype _ _ (.decimal hne hdigits) hspells hsmall
  unfold prefixIntLit at hclaim
  rw [if_pos (le_of_eq hlen.symm)] at hclaim
  exact Option.some_ne_none _ (congrArg Prod.snd hclaim)

end LsLang.Scan
