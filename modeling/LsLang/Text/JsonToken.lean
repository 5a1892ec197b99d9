import LsLang.Text.Json
import LsLang.Lib.JsonText

/-! The strings and numbers `parse` reads. -/

namespace LsLang.Text.Json

open LsLang.Core JsonText

/-- Any four bytes are let through behind `\u` as well. -/
def loose : Dialect :=
  .ofInts Digits (fun _ h => h) fun
    | .plain b => b ≠ 34 ∧ b ≠ 92
    | .escape e => e ∈ escapes
    | .unicode _ _ _ _ => True

/-! Strings. -/

/-- The bytes a piece of a string stands for: `\u` and its digits are kept. -/
def pieceText : Piece → Str
  | .plain b => [b]
  | .escape e => (escape e).toList
  | .unicode h₁ h₂ h₃ h₄ => [92, 117, h₁, h₂, h₃, h₄]

def textOf (ps : List Piece) : Str := ps.flatMap pieceText

theorem escape_isSome (e : UInt8) : (escape e).isSome ↔ e ∈ escapes := by
  constructor
  · intro h
    unfold escape at h
    split_ifs at h with h₁ h₂ h₃ h₄ h₅ h₆ h₇ h₈
    · rw [h₁]; decide
    · rw [h₂]; decide
    · rw [h₃]; decide
    · rw [h₄]; decide
    · rw [h₅]; decide
    · rw [h₆]; decide
    · rw [h₇]; decide
    · rw [h₈]; decide
    · cases h
  · intro h
    simp only [escapes, List.mem_cons, List.not_mem_nil, or_false] at h
    rcases h with rfl | rfl | rfl | rfl | rfl | rfl | rfl | rfl <;> decide

theorem parseStringLoop_piece {q : Piece} (hq : loose.piece q) (rest : Str) (pos : Nat) (out : Str) :
    parseStringLoop none (q.bytes ++ rest) pos out =
      parseStringLoop none rest (pos + q.bytes.length) (out ++ pieceText q) := by
  cases q with
  | plain b =>
    rw [Piece.bytes, List.singleton_append, parseStringLoop.eq_def]
    dsimp only
    rw [if_neg (show b ≠ ch '"' from hq.1), if_neg (show b ≠ ch '\\' from hq.2)]
    rfl
  | escape e =>
    obtain ⟨b, hb⟩ := Option.isSome_iff_exists.mp ((escape_isSome e).mpr hq)
    rw [Piece.bytes, List.cons_append, List.singleton_append, parseStringLoop.eq_def]
    dsimp only
    rw [if_neg (by decide), if_pos (by decide), hb, pieceText, hb]
    rfl
  | unicode h₁ h₂ h₃ h₄ =>
    rw [Piece.bytes, parseStringLoop.eq_def]
    simp only [List.cons_append, List.nil_append]
    rw [if_neg (by decide), if_pos (by decide), show escape 117 = none by decide]
    rfl

theorem parseStringLoop_text {ps : List Piece} (hp : ∀ q ∈ ps, loose.piece q) (rest : Str) (pos : Nat)
    (out : Str) : parseStringLoop none (body ps ++ 34 :: rest) pos out =
      .ok (out ++ textOf ps) ⟨rest, pos + (body ps).length + 1⟩ := by
  induction ps generalizing pos out with
  | nil =>
    rw [parseStringLoop.eq_def]
    simp [body, textOf]
  | cons q ps ih =>
    rw [show body (q :: ps) = q.bytes ++ body ps from rfl, List.append_assoc,
      parseStringLoop_piece (hp q (List.mem_cons_self ..)),
      ih (fun a ha => hp a (List.mem_cons_of_mem _ ha)), List.append_assoc, List.length_append]
    congr 2
    omega

theorem parseStringRaw_quoted {ps : List Piece} (hp : ∀ q ∈ ps, loose.piece q) (rest : Str)
    (pos : Nat) : parseStringRaw none ⟨quoted ps ++ rest, pos⟩ =
      .ok (textOf ps) ⟨rest, pos + (quoted ps).length⟩ := by
  unfold parseStringRaw quoted
  rw [List.cons_append, List.append_assoc]
  dsimp only
  rw [if_neg (by decide), Cursor.advance_rest, List.drop_succ_cons, List.drop_zero,
    List.singleton_append, parseStringLoop_text hp, List.nil_append, Cursor.advance]
  grind

theorem parseStringLoop_ok {room : Option Nat} {rest : Str} {pos : Nat} {out str : Str} {p : Cursor}
    (h : parseStringLoop room rest pos out = .ok str p) :
    ∃ ps, (∀ q ∈ ps, loose.piece q) ∧ Cursor.Eats ⟨rest, pos⟩ (body ps ++ [34]) p ∧
      str = out ++ textOf ps := by
  have cons : ∀ {q : Piece} {rest : Str} {pos : Nat} {out : Str}, loose.piece q →
      (∃ ps, (∀ q ∈ ps, loose.piece q) ∧
        Cursor.Eats ⟨rest, pos + q.bytes.length⟩ (body ps ++ [34]) p ∧
        str = (out ++ pieceText q) ++ textOf ps) →
      ∃ ps, (∀ q ∈ ps, loose.piece q) ∧ Cursor.Eats ⟨q.bytes ++ rest, pos⟩ (body ps ++ [34]) p ∧
        str = out ++ textOf ps := by
    rintro q rest pos out hq ⟨ps, hp, he, rfl⟩
    refine ⟨q :: ps, ?_, ?_, List.append_assoc ..⟩
    · grind
    · rw [show body (q :: ps) = q.bytes ++ body ps from rfl, List.append_assoc]
      exact Cursor.Eats.trans ⟨rfl, rfl⟩ he
  fun_induction parseStringLoop room rest pos out with
  | case1 => cases h
  | case2 rest pos out =>
    cases h
    exact ⟨[], nofun, ⟨rfl, rfl⟩, (List.append_nil _).symm⟩
  | case3 => cases h
  | case4 pos out e rest b hb _ _ ih =>
    have hq : loose.piece (.escape e) := (escape_isSome e).mp (Option.isSome_iff_exists.mpr ⟨b, hb⟩)
    refine cons hq ?_
    rw [pieceText, hb]
    exact ih h
  | case5 => cases h
  | case6 pos out _ h₁ h₂ h₃ h₄ rest _ _ _ ih => exact cons (q := .unicode h₁ h₂ h₃ h₄) trivial (ih h)
  | case7 => cases h
  | case8 => cases h
  | case9 => cases h
  | case10 => cases h
  | case11 c rest pos out h₃₄ h₉₂ _ ih => exact cons (q := .plain c) ⟨h₃₄, h₉₂⟩ (ih h)
  | case12 => cases h

theorem parseStringRaw_ok {room : Option Nat} {p q : Cursor} {str : Str} (h : parseStringRaw room p = .ok str q) :
    ∃ ps, (∀ q ∈ ps, loose.piece q) ∧ p.Eats (quoted ps) q ∧ str = textOf ps := by
  obtain ⟨rest, pos⟩ := p
  cases rest with
  | nil => cases h
  | cons c rest =>
  unfold parseStringRaw at h
  dsimp only at h
  split at h
  · cases h
  next hc =>
  obtain rfl := not_not.mp hc
  obtain ⟨ps, hp, he, rfl⟩ := parseStringLoop_ok h
  refine ⟨ps, hp, ?_, rfl⟩
  exact Cursor.Eats.trans (s := [34]) (q := ⟨rest, pos + 1⟩) ⟨rfl, rfl⟩ he

/-! Numbers. -/

theorem digits_append {ds x : Str} (hd : ∀ b ∈ ds, Core.isDigit b = true)
    (hx : ∀ b ∈ x.head?, Core.isDigit b = false) (pos : Nat) :
    digits ⟨ds ++ x, pos⟩ = ⟨x, pos + ds.length⟩ := by
  have htake : (ds ++ x).takeWhile Core.isDigit = ds := by
    rw [List.takeWhile_append_of_pos hd]
    cases x with
    | nil => exact List.append_nil ds
    | cons b x => rw [List.takeWhile_cons_of_neg (by rw [hx b rfl]; decide), List.append_nil]
  unfold digits Cursor.advance
  grind

theorem digits_eats (p : Cursor) :
    ∃ ds, (∀ b ∈ ds, Core.isDigit b = true) ∧ p.Eats ds (digits p) ∧ (atDigit p = true → ds ≠ []) := by
  refine ⟨p.rest.takeWhile Core.isDigit, List.all_eq_true.mp List.all_takeWhile,
    Cursor.Eats.advance (t := p.rest.dropWhile Core.isDigit) List.takeWhile_append_dropWhile.symm, ?_⟩
  intro h
  unfold atDigit peek at h
  cases hr : p.rest with
  | nil => rw [hr] at h; cases h
  | cons b r =>
    rw [hr] at h
    rw [List.takeWhile_cons_of_pos (show Core.isDigit b = true from h)]
    exact List.cons_ne_nil _ _

theorem atDigit_append {ds x : Str} {pos : Nat} (hd : Digits ds) : atDigit ⟨ds ++ x, pos⟩ = true := by
  cases ds with
  | nil => exact absurd rfl hd.1
  | cons b ds => exact hd.2 b (List.mem_cons_self ..)

theorem peek_cons (b : UInt8) (r : Str) (pos : Nat) : peek ⟨b :: r, pos⟩ = some b := rfl

theorem advance_cons (b : UInt8) (r : Str) (pos : Nat) :
    Cursor.advance ⟨b :: r, pos⟩ 1 = ⟨r, pos + 1⟩ := rfl

theorem parseFraction_append {frac x : Str} (hf : IsFraction frac)
    (hx : ∀ b ∈ x.head?, Core.isDigit b = false ∧ b ≠ 46) (pos : Nat) :
    parseFraction ⟨frac ++ x, pos⟩ = .ok () ⟨x, pos + frac.length⟩ := by
  unfold parseFraction
  obtain rfl | ⟨ds, hd, rfl⟩ := hf
  · rw [List.nil_append, if_neg]
    · rfl
    · intro h
      exact (hx _ h).2 (by decide)
  · rw [List.cons_append, peek_cons, if_pos (by decide), advance_cons]
    dsimp only
    rw [atDigit_append hd, if_neg (by decide), digits_append hd.2 fun b hb => (hx b hb).1]
    grind

theorem skipSign_append {sg ds x : Str} (hsg : sg = [] ∨ sg = [43] ∨ sg = [45]) (hd : Digits ds)
    (pos : Nat) : skipSign ⟨sg ++ (ds ++ x), pos⟩ = ⟨ds ++ x, pos + sg.length⟩ := by
  unfold skipSign
  rcases hsg with rfl | rfl | rfl
  · cases ds with
    | nil => exact absurd rfl hd.1
    | cons b ds =>
      rw [List.nil_append, if_neg]
      · rfl
      · have hb := hd.2 b (List.mem_cons_self ..)
        rintro (h | h)
        · rw [show b = ch '+' from Option.some.inj h] at hb
          exact absurd hb (by decide)
        · rw [show b = ch '-' from Option.some.inj h] at hb
          exact absurd hb (by decide)
  · rw [List.cons_append, peek_cons, if_pos (by decide), advance_cons]
    rfl
  · rw [List.cons_append, peek_cons, if_pos (by decide), advance_cons]
    rfl

theorem parseExponent_append {exp x : Str} (he : IsExponent exp)
    (hx : ∀ b ∈ x.head?, Core.isDigit b = false ∧ b ≠ 101 ∧ b ≠ 69) (pos : Nat) :
    parseExponent ⟨exp ++ x, pos⟩ = .ok () ⟨x, pos + exp.length⟩ := by
  unfold parseExponent
  obtain rfl | ⟨e, sg, ds, he, hsg, hd, rfl⟩ := he
  · rw [List.nil_append, if_neg]
    · rfl
    · rintro (h | h)
      · exact (hx _ h).2.1 (by decide)
      · exact (hx _ h).2.2 (by decide)
  · have hexp : some e = some (ch 'e') ∨ some e = some (ch 'E') := by grind
    rw [List.cons_append, List.append_assoc, peek_cons, if_pos hexp, advance_cons,
      skipSign_append hsg hd]
    dsimp only
    rw [atDigit_append hd, if_neg (by decide), digits_append hd.2 fun b hb => (hx b hb).1]
    grind

theorem eats_of_peek {p : Cursor} {c : UInt8} (h : peek p = some c) : p.Eats [c] (p.advance 1) := by
  unfold peek at h
  cases hr : p.rest with
  | nil => rw [hr] at h; cases h
  | cons b r =>
    rw [hr] at h
    obtain rfl := Option.some.inj h
    exact Cursor.Eats.advance (s := [b]) hr

theorem parseFraction_ok {p q : Cursor} (h : parseFraction p = .ok () q) :
    ∃ s, IsFraction s ∧ p.Eats s q := by
  unfold parseFraction at h
  split at h
  · next hp =>
    dsimp only at h
    split at h
    · cases h
    next hd =>
    cases h
    obtain ⟨ds, hds, he, hne⟩ := digits_eats (p.advance 1)
    exact ⟨46 :: ds, Or.inr ⟨ds, ⟨hne (by simpa using hd), hds⟩, rfl⟩, (eats_of_peek hp).trans he⟩
  · cases h
    exact ⟨[], Or.inl rfl, .refl _⟩

theorem skipSign_eats (p : Cursor) :
    ∃ sg, (sg = [] ∨ sg = [43] ∨ sg = [45]) ∧ p.Eats sg (skipSign p) := by
  unfold skipSign
  split
  · grind [eats_of_peek]
  · exact ⟨[], Or.inl rfl, .refl _⟩

theorem parseExponent_ok {p q : Cursor} (h : parseExponent p = .ok () q) :
    ∃ s, IsExponent s ∧ p.Eats s q := by
  unfold parseExponent at h
  split at h
  · next hp =>
    dsimp only at h
    split at h
    · cases h
    next hd =>
    cases h
    obtain ⟨sg, hsg, hsign⟩ := skipSign_eats (p.advance 1)
    obtain ⟨ds, hds, he, hne⟩ := digits_eats (skipSign (p.advance 1))
    have hdigits : Digits ds := ⟨hne (by simpa using hd), hds⟩
    rcases hp with hp | hp
    · exact ⟨101 :: (sg ++ ds), Or.inr ⟨101, sg, ds, Or.inl rfl, hsg, hdigits, rfl⟩,
        (eats_of_peek hp).trans (hsign.trans he)⟩
    · exact ⟨69 :: (sg ++ ds), Or.inr ⟨69, sg, ds, Or.inr rfl, hsg, hdigits, rfl⟩,
        (eats_of_peek hp).trans (hsign.trans he)⟩
  · cases h
    exact ⟨[], Or.inl rfl, .refl _⟩

section Number

variable {F : Type} [F64 F]

theorem floatInt_append {ds x : Str} (hd : ∀ b ∈ ds, Core.isDigit b = true)
    (hx : ∀ b ∈ x.head?, b = 46 ∨ b = 101 ∨ b = 69) (val : F) (any : Bool) :
    ∃ val', Str.floatInt (ds ++ x) val any = .ok (val', any || !ds.isEmpty, x) := by
  induction ds generalizing val any with
  | nil =>
    refine ⟨val, ?_⟩
    cases x with
    | nil => simp [Str.floatInt]
    | cons b x =>
      rw [List.nil_append, Str.floatInt, if_pos (hx b rfl)]
      simp
  | cons d ds ih =>
    have hdig := hd d (List.mem_cons_self ..)
    obtain ⟨val', h⟩ := ih (fun b hb => hd b (List.mem_cons_of_mem _ hb))
      (F64.add (F64.mul val (F64.ofInt 10)) (Str.digit d)) true
    refine ⟨val', ?_⟩
    rw [List.cons_append, Str.floatInt, if_neg, if_pos hdig, h]
    · simp
    · rintro (rfl | rfl | rfl) <;> exact absurd hdig (by decide)

theorem floatFrac_append {ds x : Str} (hd : ∀ b ∈ ds, Core.isDigit b = true)
    (hx : ∀ b ∈ x.head?, b = 101 ∨ b = 69) (val scale : F) (any : Bool) :
    ∃ val', Str.floatFrac (ds ++ x) val scale any = .ok (val', any || !ds.isEmpty, x) := by
  induction ds generalizing val scale any with
  | nil =>
    refine ⟨val, ?_⟩
    cases x with
    | nil => simp [Str.floatFrac]
    | cons b x =>
      rw [List.nil_append, Str.floatFrac, if_pos (hx b rfl)]
      simp
  | cons d ds ih =>
    have hdig := hd d (List.mem_cons_self ..)
    obtain ⟨val', h⟩ := ih (fun b hb => hd b (List.mem_cons_of_mem _ hb))
      (F64.add val (F64.mul (Str.digit d) scale)) (F64.mul scale F64.tenth) true
    refine ⟨val', ?_⟩
    rw [List.cons_append, Str.floatFrac, if_neg, if_pos hdig, h]
    · simp
    · rintro (rfl | rfl) <;> exact absurd hdig (by decide)

theorem floatExp_digits {ds : Str} (hd : ∀ b ∈ ds, Core.isDigit b = true) (ev : Int) :
    ∃ ev', Str.floatExp ds ev = .ok ev' := by
  induction ds generalizing ev with
  | nil => exact ⟨ev, rfl⟩
  | cons d ds ih =>
    rw [Str.floatExp, if_pos (hd d (List.mem_cons_self ..))]
    exact ih (fun b hb => hd b (List.mem_cons_of_mem _ hb)) _

theorem floatScale_exponent {exp : Str} (he : IsExponent exp) (val : F) :
    ∃ val', Str.floatScale val exp = .ok val' := by
  obtain rfl | ⟨e, sg, ds, he, hsg, hd, rfl⟩ := he
  · exact ⟨val, rfl⟩
  obtain ⟨ev, hev⟩ := floatExp_digits hd.2 0
  have hlen : ds.length ≠ 0 := fun h => hd.1 (List.length_eq_zero_iff.mp h)
  have hsign : ∃ neg, Str.sign (sg ++ ds) = (neg, ds) := by
    rcases hsg with rfl | rfl | rfl
    · exact ⟨false, sign_digits hd.2⟩
    · exact ⟨false, rfl⟩
    · exact ⟨true, rfl⟩
  obtain ⟨neg, hsign⟩ := hsign
  unfold Str.floatScale
  dsimp only
  rw [if_neg, hsign]
  · dsimp only
    rw [if_neg hlen, hev]
    exact ⟨_, rfl⟩
  grind

variable (F) in
theorem toFloat_number {tok : Str} (h : IsNumber Digits tok) : ∃ val : F, Str.toFloat tok = .ok val := by
  obtain ⟨sg, i, frac, exp, hsg, hi, hf, he, rfl⟩ := h
  obtain ⟨b, i, rfl⟩ := List.exists_cons_of_ne_nil hi.1
  have hlen : (sg ++ (b :: i ++ (frac ++ exp))).length ≠ 0 := by simp
  have hsign : ∃ neg, Str.sign (sg ++ (b :: i ++ (frac ++ exp))) = (neg, b :: i ++ (frac ++ exp)) := by
    rcases hsg with rfl | rfl
    · exact ⟨false, sign_digit (hi.2 b (List.mem_cons_self ..)) _⟩
    · exact ⟨true, rfl⟩
  obtain ⟨neg, hsign⟩ := hsign
  have hexp : ∀ c ∈ exp.head?, c = 101 ∨ c = 69 := by
    obtain rfl | ⟨e, _, _, he, _, _, rfl⟩ := he
    · exact nofun
    grind
  unfold Str.toFloat
  rw [if_neg hlen, hsign]
  obtain rfl | ⟨ds, hd, rfl⟩ := hf
  · obtain ⟨v₁, h₁⟩ := floatInt_append hi.2 (fun c hc => Or.inr (hexp c hc)) (F64.ofInt 0 : F) false
    obtain ⟨v₂, h₂⟩ := floatScale_exponent he v₁
    have hpoint : exp.head? ≠ some 46 := by
      intro h
      rcases hexp 46 h with h | h <;> exact absurd h (by decide)
    refine ⟨if neg then F64.sub (F64.ofInt 0) v₂ else v₂, ?_⟩
    rw [List.nil_append]
    dsimp only
    rw [h₁]
    simp only [except_bind, if_neg hpoint, h₂]
    rfl
  · obtain ⟨v₁, h₁⟩ := floatInt_append (x := 46 :: ds ++ exp) hi.2
      (fun c hc => Or.inl (Option.some.inj hc).symm) (F64.ofInt 0 : F) false
    obtain ⟨v₂, h₂⟩ := floatFrac_append hd.2 hexp v₁ F64.tenth true
    obtain ⟨v₃, h₃⟩ := floatScale_exponent he v₂
    refine ⟨if neg then F64.sub (F64.ofInt 0) v₃ else v₃, ?_⟩
    dsimp only
    rw [h₁]
    simp only [except_bind, List.isEmpty_cons, Bool.not_false, Bool.or_true]
    rw [List.cons_append, List.head?_cons, if_pos rfl, List.drop_succ_cons, List.drop_zero, h₂]
    simp only [except_bind, h₃]
    rfl

variable (F) in
/-- What `_parse_number` makes of a token. -/
def numberOf (tok : Str) : JsonValue F :=
  match (Str.toFloat tok : Except String F) with
  | .ok val => .number val
  | .error _ => .null

theorem ends_head {r : Str} (hr : Ends r) : ∀ b ∈ r.head?,
    Core.isDigit b = false ∧ b ≠ 46 ∧ b ≠ 101 ∧ b ≠ 69 := by
  intro b hb
  have h := hr b hb
  refine ⟨?_, ?_, ?_, ?_⟩
  · by_contra hd
    rw [numByte_of_digit (Bool.not_eq_false _ ▸ hd)] at h
    cases h
  · rintro rfl
    exact absurd h (by decide)
  · rintro rfl
    exact absurd h (by decide)
  · rintro rfl
    exact absurd h (by decide)

theorem exponent_head {exp r : Str} (he : IsExponent exp) (hr : Ends r) : ∀ b ∈ (exp ++ r).head?,
    Core.isDigit b = false ∧ b ≠ 46 := by
  obtain rfl | ⟨e, sg, ds, he, _, _, rfl⟩ := he
  · grind [ends_head]
  · intro b hb
    obtain rfl := Option.some.inj hb
    rcases he with rfl | rfl <;> decide

theorem fraction_head {frac x : Str} (hf : IsFraction frac)
    (hx : ∀ b ∈ x.head?, Core.isDigit b = false ∧ b ≠ 46) :
    ∀ b ∈ (frac ++ x).head?, Core.isDigit b = false := by
  obtain rfl | ⟨ds, _, rfl⟩ := hf
  · grind
  · intro b hb
    obtain rfl := Option.some.inj hb
    decide

theorem parseNumber_token {tok r : Str} (h : IsNumber Digits tok) (hr : Ends r) (pos : Nat) :
    parseNumber none ⟨tok ++ r, pos⟩ = .ok (numberOf F tok) ⟨r, pos + tok.length⟩ := by
  obtain ⟨val, hval⟩ := toFloat_number F h
  obtain ⟨sg, i, frac, exp, hsg, hi, hf, he, htok⟩ := h
  have hexp := exponent_head he hr
  have hsign : (if peek ⟨tok ++ r, pos⟩ = some (ch '-') then Cursor.advance ⟨tok ++ r, pos⟩ 1
      else ⟨tok ++ r, pos⟩) = ⟨i ++ (frac ++ (exp ++ r)), pos + sg.length⟩ := by
    have hsplit : tok ++ r = sg ++ (i ++ (frac ++ (exp ++ r))) := by grind
    rw [hsplit]
    rcases hsg with rfl | rfl
    · rw [List.nil_append, if_neg]
      · rfl
      · obtain ⟨b, i, rfl⟩ := List.exists_cons_of_ne_nil hi.1
        intro h
        have hb := hi.2 b (List.mem_cons_self ..)
        rw [show b = ch '-' from Option.some.inj h] at hb
        exact absurd hb (by decide)
    · rw [List.cons_append, peek_cons, if_pos (by decide), advance_cons]
      rfl
  unfold parseNumber
  dsimp only
  rw [hsign, atDigit_append hi, digits_append hi.2 (fraction_head hf hexp),
    parseFraction_append hf hexp]
  dsimp only
  rw [parseExponent_append he fun b hb =>
    ⟨(ends_head hr b hb).1, (ends_head hr b hb).2.2.1, (ends_head hr b hb).2.2.2⟩]
  dsimp only
  have hend : pos + sg.length + i.length + frac.length + exp.length = pos + tok.length := by grind
  rw [hend, Nat.add_sub_cancel_left, List.take_left, numberOf, hval]
  rfl

omit [F64 F] in
theorem number_eats {p p₀ q₁ q : Cursor} (hminus : (if peek p = some (ch '-') then p.advance 1 else p) = p₀)
    (hd : ¬(!atDigit p₀) = true) (hfrac : parseFraction (digits p₀) = .ok () q₁) (hexp : parseExponent q₁ = .ok () q) :
    ∃ tok, IsNumber Digits tok ∧ p.Eats tok q := by
  have hsign : ∃ sg, (sg = [] ∨ sg = [45]) ∧ p.Eats sg p₀ := by
    subst hminus
    split
    · next hp => exact ⟨[45], Or.inr rfl, eats_of_peek hp⟩
    · exact ⟨[], Or.inl rfl, .refl p⟩
  obtain ⟨sg, hsg, he₀⟩ := hsign
  obtain ⟨i, hi, he₁, hne⟩ := digits_eats p₀
  obtain ⟨frac, hf, he₂⟩ := parseFraction_ok hfrac
  obtain ⟨exp, he, he₃⟩ := parseExponent_ok hexp
  exact ⟨_, ⟨sg, i, frac, exp, hsg, ⟨hne (by simpa using hd), hi⟩, hf, he, rfl⟩, he₀.trans (he₁.trans (he₂.trans he₃))⟩

theorem parseNumber_ok {room : Option Nat} {p q : Cursor} {v : JsonValue F} (h : parseNumber room p = .ok v q) :
    ∃ tok, IsNumber Digits tok ∧ p.Eats tok q ∧ v = numberOf F tok := by
  unfold parseNumber at h
  dsimp only at h
  generalize hminus : (if peek p = some (ch '-') then p.advance 1 else p) = p₀ at h
  split at h
  · cases h
  next hd =>
  split at h
  · cases h
  · cases h
  next hfrac =>
  split at h
  · cases h
  · cases h
  next hexp =>
  obtain ⟨tok, htok, he⟩ := number_eats hminus hd hfrac hexp
  obtain ⟨val, hval⟩ := toFloat_number F htok
  rw [he.2, Nat.add_sub_cancel_left, he.1, List.take_left, hval] at h
  split at h
  · cases h
    exact ⟨_, htok, he, by rw [numberOf, hval]⟩
  · cases h

end Number

end LsLang.Text.Json
