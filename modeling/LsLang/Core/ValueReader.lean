import LsLang.Core.Value
import LsLang.Lib.JsonText

/-! `from_json` reads the texts of a dialect of JSON: every token of digits, points, signs and
exponent marks that converts is a number, and every byte may stand in a string. -/

namespace LsLang.Core

open JsonText

def vpPiece : Piece → Str
  | .plain b => [b]
  | .escape e => (vpEscape e).toList
  | .unicode h₁ h₂ h₃ h₄ => ((vpCode [h₁, h₂, h₃, h₄] 0).map vpUtf8).getD []

def vpText (ps : List Piece) : Str := ps.flatMap vpPiece

/-- The pieces `_vp_string` takes. -/
def VpPiece : Piece → Prop
  | .plain b => b ≠ 34 ∧ b ≠ 92
  | .escape e => (vpEscape e).isSome
  | .unicode h₁ h₂ h₃ h₄ => (vpCode [h₁, h₂, h₃, h₄] 0).isSome

def ofKeys : List (List Piece × Raw) → List Str
  | [] => []
  | (ps, _) :: fs => vpText ps :: ofKeys fs

theorem vpText_cons (q : Piece) (ps : List Piece) : vpText (q :: ps) = vpPiece q ++ vpText ps := rfl

theorem vpStringLoop_piece {q : Piece} (hq : VpPiece q) (rest : Str) (pos : Nat) (out : Str) :
    ∃ pos', vpStringLoop (q.bytes ++ rest) pos out = vpStringLoop rest pos' (out ++ vpPiece q) := by
  cases q with
  | plain b =>
    refine ⟨pos + 1, ?_⟩
    rw [Piece.bytes, List.singleton_append, vpStringLoop.eq_def]
    dsimp only
    rw [if_neg hq.1, if_neg hq.2]
    rfl
  | escape e =>
    obtain ⟨b, hb⟩ := Option.isSome_iff_exists.mp hq
    refine ⟨pos + 2, ?_⟩
    rw [Piece.bytes, List.cons_append, List.singleton_append, vpStringLoop.eq_def]
    dsimp only
    rw [if_neg (by decide), if_pos rfl, hb, vpPiece, hb]
    rfl
  | unicode h₁ h₂ h₃ h₄ =>
    obtain ⟨cp, hcp⟩ := Option.isSome_iff_exists.mp hq
    refine ⟨pos + 6, ?_⟩
    rw [Piece.bytes, vpStringLoop.eq_def]
    simp only [List.cons_append, List.nil_append]
    rw [if_neg (by decide), if_pos trivial, show vpEscape 117 = none by decide]
    dsimp only
    rw [hcp, vpPiece, hcp]
    rfl

theorem vpStringLoop_text {ps : List Piece} (hp : ∀ q ∈ ps, VpPiece q) (rest : Str) (pos : Nat)
    (out : Str) :
    ∃ pos', vpStringLoop (body ps ++ 34 :: rest) pos out = .ok (out ++ vpText ps) ⟨rest, pos'⟩ := by
  induction ps generalizing pos out with
  | nil =>
    refine ⟨pos + 1, ?_⟩
    rw [vpStringLoop.eq_def]
    simp [body, vpText]
  | cons q ps ih =>
    obtain ⟨pos₁, h₁⟩ :=
      vpStringLoop_piece (hp q (List.mem_cons_self ..)) (body ps ++ 34 :: rest) pos out
    obtain ⟨pos₂, h₂⟩ := ih (fun a ha => hp a (List.mem_cons_of_mem _ ha)) pos₁ (out ++ vpPiece q)
    refine ⟨pos₂, ?_⟩
    rw [show body (q :: ps) = q.bytes ++ body ps from rfl, List.append_assoc, h₁, h₂, vpText_cons,
      List.append_assoc]

/-- `rest` starts with a string that stands for `str`, and `r` is what follows its quote. -/
def IsVpText (rest str r : Str) : Prop :=
  ∃ ps, (∀ q ∈ ps, VpPiece q) ∧ rest = body ps ++ 34 :: r ∧ str = vpText ps

theorem IsVpText.cons {q : Piece} {rest str r : Str} (hq : VpPiece q) (h : IsVpText rest str r) :
    IsVpText (q.bytes ++ rest) (vpPiece q ++ str) r := by
  obtain ⟨ps, hp, rfl, rfl⟩ := h
  refine ⟨q :: ps, ?_, ?_, rfl⟩
  · grind
  · rw [← List.append_assoc]
    rfl

theorem vpStringLoop_ok {rest : Str} {pos : Nat} {out str : Str} {p : Cursor}
    (h : vpStringLoop rest pos out = .ok str p) : ∃ s, str = out ++ s ∧ IsVpText rest s p.rest := by
  fun_induction vpStringLoop rest pos out with
  | case1 => cases h
  | case2 rest pos out =>
    cases h
    exact ⟨[], (List.append_nil _).symm, [], nofun, rfl, rfl⟩
  | case3 => cases h
  | case4 pos out e rest b hb _ ih =>
    obtain ⟨s, rfl, hs⟩ := ih h
    have hq : VpPiece (.escape e) := Option.isSome_iff_exists.mpr ⟨b, hb⟩
    refine ⟨vpPiece (.escape e) ++ s, ?_, hs.cons hq⟩
    rw [vpPiece, hb, ← List.append_assoc]
    rfl
  | case5 pos out h₁ h₂ h₃ h₄ rest cp hcp _ _ ih =>
    obtain ⟨s, rfl, hs⟩ := ih h
    have hq : VpPiece (.unicode h₁ h₂ h₃ h₄) := Option.isSome_iff_exists.mpr ⟨cp, hcp⟩
    refine ⟨vpPiece (.unicode h₁ h₂ h₃ h₄) ++ s, ?_, hs.cons hq⟩
    rw [vpPiece, hcp, ← List.append_assoc]
    rfl
  | case6 => cases h
  | case7 => cases h
  | case8 => cases h
  | case9 c rest pos out h₃₄ h₉₂ ih =>
    obtain ⟨s, rfl, hs⟩ := ih h
    have hq : VpPiece (.plain c) := ⟨h₃₄, h₉₂⟩
    refine ⟨vpPiece (.plain c) ++ s, ?_, hs.cons hq⟩
    rw [← List.append_assoc]
    rfl

theorem vpString_quoted {ps : List Piece} (hp : ∀ q ∈ ps, VpPiece q) (rest : Str) (pos : Nat) :
    ∃ pos', vpString ⟨quoted ps ++ rest, pos⟩ = .ok (vpText ps) ⟨rest, pos'⟩ := by
  obtain ⟨pos', h⟩ := vpStringLoop_text hp rest (pos + 1) []
  refine ⟨pos', ?_⟩
  unfold vpString quoted
  rw [List.cons_append, List.append_assoc]
  exact h

theorem vpString_ok {rest str : Str} {pos : Nat} {p : Cursor}
    (h : vpString ⟨34 :: rest, pos⟩ = .ok str p) :
    ∃ ps, (∀ q ∈ ps, VpPiece q) ∧ 34 :: rest = quoted ps ++ p.rest ∧ str = vpText ps := by
  obtain ⟨s, rfl, ps, hp, hs, rfl⟩ := vpStringLoop_ok h
  refine ⟨ps, hp, ?_, rfl⟩
  unfold quoted
  rw [List.cons_append, List.append_assoc]
  exact congrArg (34 :: ·) hs

section Number

variable {F : Type} [F64 F]

theorem vpNumByte_eq : vpNumByte = isNumByte := rfl

/-- A token is read as a float if a mark other than a leading minus stands in it. -/
def vpIsFloat (tok : Str) : Bool :=
  (if tok.head? = some 45 then tok.drop 1 else tok).any fun c => !isDigit c

theorem vpNumber_eq (p : Cursor) :
    vpNumber (F := F) p =
      let tok := p.rest.takeWhile isNumByte
      let p' := p.advance tok.length
      if tok.length = 0 then .err "json: invalid number" p'
      else vpConvert (vpIsFloat tok) tok p' := by
  unfold vpNumber vpIsFloat
  rw [vpNumByte_eq]
  cases hs : p.rest with
  | nil => rfl
  | cons c r =>
    have htake : ∀ l : Str, l.take (l.takeWhile isNumByte).length = l.takeWhile isNumByte :=
      fun l => (List.prefix_iff_eq_take.mp (List.takeWhile_prefix isNumByte)).symm
    by_cases hc : c = 45
    · subst hc
      rw [List.takeWhile_cons_of_pos (by decide)]
      grind
    · have hh : (c :: r).head? ≠ some 45 := by simpa using hc
      have ht : ((c :: r).takeWhile isNumByte).head? ≠ some 45 := by
        rw [List.head?_takeWhile, Ne, Option.filter_eq_some_iff]
        exact fun h => hh h.1
      grind

/-- What `_vp_number` makes of a token. -/
def vpToken (tok : Str) : Except String (Value F) :=
  if vpIsFloat tok then (Str.toFloat tok).map .vFloat else tok.toI64.map .vInt

theorem vpConvert_ok {tok : Str} {p q : Cursor} {v : Value F} :
    vpConvert (vpIsFloat tok) tok p = .ok v q ↔ vpToken tok = .ok v ∧ p = q := by
  unfold vpConvert vpToken
  cases vpIsFloat tok with
  | true =>
    rw [if_pos rfl, if_pos rfl]
    cases (Str.toFloat tok : Except String F) <;> simp [Except.map]
  | false =>
    rw [if_neg (by decide), if_neg (by decide)]
    cases tok.toI64 <;> simp [Except.map]

variable (F) in
/-- The texts `from_json` reads. -/
def vpDialect : Dialect where
  number tok := tok ≠ [] ∧ (∀ b ∈ tok, isNumByte b = true) ∧ ∃ v : Value F, vpToken tok = .ok v
  piece := VpPiece
  ne_nil _ h := h.1
  numBytes _ h := h.2.1

mutual

def ofRaw : Raw → Value F
  | .null => .vNull
  | .bool b => .vBool b
  | .number tok =>
    match vpToken tok with
    | .ok v => v
    | .error _ => .vNull
  | .string ps => .vStr (vpText ps)
  | .array ts => .vList (ofItems ts)
  | .object fs => .vObj (ofKeys fs) (ofVals fs)

def ofItems : List Raw → List (Value F)
  | [] => []
  | t :: ts => ofRaw t :: ofItems ts

def ofVals : List (List Piece × Raw) → List (Value F)
  | [] => []
  | (_, t) :: fs => ofRaw t :: ofVals fs

end

theorem takeWhile_token {tok r : Str} (h : ∀ b ∈ tok, isNumByte b = true) (hr : Ends r) :
    (tok ++ r).takeWhile isNumByte = tok := by
  rw [List.takeWhile_append_of_pos h]
  cases r with
  | nil => exact List.append_nil tok
  | cons b r =>
    rw [List.takeWhile_cons_of_neg (by rw [hr b rfl]; decide), List.append_nil]

theorem vpNumber_token {tok r : Str} (h : (vpDialect F).number tok) (hr : Ends r) (pos : Nat) :
    ∃ pos', vpNumber ⟨tok ++ r, pos⟩ = .ok (ofRaw (.number tok) : Value F) ⟨r, pos'⟩ := by
  obtain ⟨hne, hb, v, hv⟩ := h
  refine ⟨pos + tok.length, ?_⟩
  have hlen : tok.length ≠ 0 := fun h => hne (List.length_eq_zero_iff.mp h)
  rw [vpNumber_eq]
  dsimp only
  rw [takeWhile_token hb hr, if_neg hlen, vpConvert_ok, ofRaw, hv]
  refine ⟨rfl, ?_⟩
  unfold Cursor.advance
  rw [List.drop_left]

theorem vpNumber_ok {p q : Cursor} {v : Value F} (h : vpNumber p = .ok v q) :
    ∃ tok, p.rest = tok ++ q.rest ∧ (vpDialect F).number tok ∧ v = ofRaw (.number tok) := by
  rw [vpNumber_eq] at h
  dsimp only at h
  by_cases hlen : (p.rest.takeWhile isNumByte).length = 0
  · grind
  rw [if_neg hlen, vpConvert_ok] at h
  obtain ⟨hv, rfl⟩ := h
  refine ⟨p.rest.takeWhile isNumByte, ?_, ⟨?_, ?_, v, hv⟩, ?_⟩
  · rw [Cursor.advance_rest]
    have := List.prefix_iff_eq_take.mp (List.takeWhile_prefix isNumByte (l := p.rest))
    grind [List.take_append_drop]
  · grind
  · exact List.all_eq_true.mp List.all_takeWhile
  · rw [ofRaw, hv]

end Number

section Parse

variable {F : Type} [F64 F]

theorem vpValue_at {w s : Str} {c : UInt8} (hw : Ws w) (hc : isWs c = false) (n pos : Nat) :
    ∃ pos', vpValue (F := F) (n + 1) ⟨w ++ c :: s, pos⟩ =
      let p : Cursor := ⟨c :: s, pos'⟩
      if c = 123 then vpObject n p
      else if c = 91 then vpArray n p
      else if c = 34 then
        match vpString p with
        | .ok str p => .ok (.vStr str) p
        | .err e p => .err e p
        | .diverges => .diverges
      else if c = 116 then
        if p.rest.take 4 = [116, 114, 117, 101] then .ok (.vBool true) (p.advance 4)
        else .err "json: invalid literal" p
      else if c = 102 then
        if p.rest.take 5 = [102, 97, 108, 115, 101] then .ok (.vBool false) (p.advance 5)
        else .err "json: invalid literal" p
      else if c = 110 then
        if p.rest.take 4 = [110, 117, 108, 108] then .ok .vNull (p.advance 4)
        else .err "json: invalid literal" p
      else vpNumber p := by
  obtain ⟨pos', hp⟩ := Cursor.ws_eq ⟨w ++ c :: s, pos⟩
  refine ⟨pos', ?_⟩
  rw [vpValue, hp, skip_append hw, skip_cons hc]
  rfl

theorem vpValue_ws (n : Nat) (p : Cursor) : vpValue (F := F) n p.ws = vpValue n p := by
  cases n with
  | zero => rfl
  | succ n => rw [vpValue, vpValue, Cursor.ws_ws]

theorem vpArrayLoop_ws (n : Nat) (vs : List (Value F)) (p : Cursor) :
    vpArrayLoop n vs p.ws = vpArrayLoop n vs p := by
  cases n with
  | zero => rfl
  | succ n => rw [vpArrayLoop, vpArrayLoop, vpValue_ws]

theorem vpObjectLoop_ws (n : Nat) (ks : List Str) (vs : List (Value F)) (p : Cursor) :
    vpObjectLoop n ks vs p.ws = vpObjectLoop n ks vs p := by
  cases n with
  | zero => rfl
  | succ n => rw [vpObjectLoop, vpObjectLoop, Cursor.ws_ws]

variable {d : Nat} {f : Form} {s : Str}

variable (F) in
def VpTakes (s : Str) : Form → Prop
  | .value t => ∀ n w r pos, Ws w → Ends r → 3 * (w ++ (s ++ r)).length + 1 ≤ n →
      ∃ pos', vpValue n ⟨w ++ (s ++ r), pos⟩ = .ok (ofRaw t : Value F) ⟨r, pos'⟩
  | .items ts => ∀ n r pos (vs : List (Value F)), 3 * (s ++ 93 :: r).length + 2 ≤ n →
      ∃ pos', vpArrayLoop n vs ⟨s ++ 93 :: r, pos⟩ = .ok (.vList (vs ++ ofItems ts)) ⟨r, pos'⟩
  | .fields fs => ∀ n r pos (ks : List Str) (vs : List (Value F)), 3 * (s ++ 125 :: r).length + 2 ≤ n →
      ∃ pos', vpObjectLoop (F := F) n ks vs ⟨s ++ 125 :: r, pos⟩ =
        .ok (.vObj (ks ++ ofKeys fs) (vs ++ ofVals fs)) ⟨r, pos'⟩

theorem vpArray_empty {w r : Str} (hw : Ws w) (n pos : Nat) :
    ∃ pos', vpArray (F := F) (n + 1) ⟨91 :: (w ++ 93 :: r), pos⟩ = .ok (.vList []) ⟨r, pos'⟩ := by
  obtain ⟨pos', hp⟩ := Cursor.ws_eq ⟨w ++ 93 :: r, pos + 1⟩
  refine ⟨pos' + 1, ?_⟩
  rw [skip_append hw, skip_cons (by decide)] at hp
  rw [vpArray, show (Cursor.advance ⟨91 :: (w ++ 93 :: r), pos⟩ 1) = ⟨w ++ 93 :: r, pos + 1⟩ from rfl,
    hp]
  rfl

theorem vpArray_items {s : Str} (h : (skip s).head? ≠ some 93) (n pos : Nat) :
    vpArray (F := F) (n + 1) ⟨91 :: s, pos⟩ = vpArrayLoop n [] ⟨s, pos + 1⟩ := by
  rw [vpArray, show (Cursor.advance ⟨91 :: s, pos⟩ 1) = ⟨s, pos + 1⟩ from rfl, Cursor.ws_rest,
    if_neg h, vpArrayLoop_ws]

theorem vpObject_empty {w r : Str} (hw : Ws w) (n pos : Nat) :
    ∃ pos', vpObject (F := F) (n + 1) ⟨123 :: (w ++ 125 :: r), pos⟩ =
      .ok (.vObj [] []) ⟨r, pos'⟩ := by
  obtain ⟨pos', hp⟩ := Cursor.ws_eq ⟨w ++ 125 :: r, pos + 1⟩
  refine ⟨pos' + 1, ?_⟩
  rw [skip_append hw, skip_cons (by decide)] at hp
  rw [vpObject, show (Cursor.advance ⟨123 :: (w ++ 125 :: r), pos⟩ 1) = ⟨w ++ 125 :: r, pos + 1⟩
    from rfl, hp]
  rfl

theorem vpObject_fields {s : Str} (h : (skip s).head? ≠ some 125) (n pos : Nat) :
    vpObject (F := F) (n + 1) ⟨123 :: s, pos⟩ = vpObjectLoop n [] [] ⟨s, pos + 1⟩ := by
  rw [vpObject, show (Cursor.advance ⟨123 :: s, pos⟩ 1) = ⟨s, pos + 1⟩ from rfl, Cursor.ws_rest,
    if_neg h, vpObjectLoop_ws]

theorem vpArrayLoop_comma {p : Cursor} {n pos : Nat} {v : Value F} (vs : List (Value F)) {w r : Str}
    (hv : vpValue n p = .ok v ⟨w ++ 44 :: r, pos⟩) (hw : Ws w) :
    ∃ pos', vpArrayLoop (n + 1) vs p = vpArrayLoop n (vs ++ [v]) ⟨r, pos'⟩ := by
  obtain ⟨pos', hp⟩ := Cursor.ws_eq ⟨w ++ 44 :: r, pos⟩
  refine ⟨pos' + 1, ?_⟩
  rw [skip_append hw, skip_cons (by decide)] at hp
  rw [vpArrayLoop, hv]
  dsimp only
  rw [hp]
  rfl

theorem vpArrayLoop_close {p : Cursor} {n pos : Nat} {v : Value F} {vs : List (Value F)} {w r : Str}
    (hv : vpValue n p = .ok v ⟨w ++ 93 :: r, pos⟩) (hw : Ws w) :
    ∃ pos', vpArrayLoop (n + 1) vs p = .ok (.vList (vs ++ [v])) ⟨r, pos'⟩ := by
  obtain ⟨pos', hp⟩ := Cursor.ws_eq ⟨w ++ 93 :: r, pos⟩
  refine ⟨pos' + 1, ?_⟩
  rw [skip_append hw, skip_cons (by decide)] at hp
  rw [vpArrayLoop, hv]
  dsimp only
  rw [hp]
  rfl

theorem vpObjectLoop_key {n pos : Nat} {ks : List Str} {vs : List (Value F)} {w w₁ x : Str}
    {ps : List Piece} (hw : Ws w) (hp : ∀ q ∈ ps, VpPiece q) (hw₁ : Ws w₁) :
    ∃ pos', vpObjectLoop (n + 1) ks vs ⟨w ++ (quoted ps ++ (w₁ ++ 58 :: x)), pos⟩ =
      match vpValue n ⟨x, pos'⟩ with
      | .err e p => .err e p
      | .diverges => .diverges
      | .ok val p =>
        match p.ws.rest.head? with
        | none => .err "json: unterminated object" p.ws
        | some c =>
          if c = 44 then vpObjectLoop n (ks ++ [vpText ps]) (vs ++ [val]) (p.ws.advance 1)
          else if c = 125 then .ok (.vObj (ks ++ [vpText ps]) (vs ++ [val])) (p.ws.advance 1)
          else .err "json: expected comma or close-brace" (p.ws.advance 1) := by
  obtain ⟨pos₁, h₁⟩ := Cursor.ws_eq ⟨w ++ (quoted ps ++ (w₁ ++ 58 :: x)), pos⟩
  rw [skip_append hw, quoted, List.cons_append, skip_cons (by decide)] at h₁
  obtain ⟨pos₂, h₂⟩ := vpString_quoted hp (w₁ ++ 58 :: x) pos₁
  obtain ⟨pos₃, h₃⟩ := Cursor.ws_eq ⟨w₁ ++ 58 :: x, pos₂⟩
  rw [skip_append hw₁, skip_cons (by decide)] at h₃
  refine ⟨pos₃ + 1, ?_⟩
  rw [quoted, List.cons_append] at h₂ ⊢
  rw [vpObjectLoop, h₁]
  dsimp only [List.head?_cons]
  rw [if_neg (by decide), h₂]
  dsimp only
  rw [h₃]
  rfl

theorem vpObjectLoop_comma {n pos : Nat} {ks : List Str} {v : Value F} {vs : List (Value F)}
    {w w₁ w' x r : Str} {ps : List Piece} (hw : Ws w) (hp : ∀ q ∈ ps, VpPiece q) (hw₁ : Ws w₁)
    (hv : ∀ pos, ∃ pos', vpValue n ⟨x, pos⟩ = .ok v ⟨w' ++ 44 :: r, pos'⟩) (hw' : Ws w') :
    ∃ pos', vpObjectLoop (n + 1) ks vs ⟨w ++ (quoted ps ++ (w₁ ++ 58 :: x)), pos⟩ =
      vpObjectLoop n (ks ++ [vpText ps]) (vs ++ [v]) ⟨r, pos'⟩ := by
  obtain ⟨pos₁, h₁⟩ := @vpObjectLoop_key F _ n pos ks vs w w₁ x ps hw hp hw₁
  obtain ⟨pos₂, h₂⟩ := hv pos₁
  obtain ⟨pos₃, h₃⟩ := Cursor.ws_eq ⟨w' ++ 44 :: r, pos₂⟩
  rw [skip_append hw', skip_cons (by decide)] at h₃
  refine ⟨pos₃ + 1, ?_⟩
  rw [h₁, h₂]
  dsimp only
  rw [h₃]
  rfl

theorem vpObjectLoop_close {n pos : Nat} {ks : List Str} {v : Value F} {vs : List (Value F)}
    {w w₁ w' x r : Str} {ps : List Piece} (hw : Ws w) (hp : ∀ q ∈ ps, VpPiece q) (hw₁ : Ws w₁)
    (hv : ∀ pos, ∃ pos', vpValue n ⟨x, pos⟩ = .ok v ⟨w' ++ 125 :: r, pos'⟩) (hw' : Ws w') :
    ∃ pos', vpObjectLoop (n + 1) ks vs ⟨w ++ (quoted ps ++ (w₁ ++ 58 :: x)), pos⟩ =
      .ok (.vObj (ks ++ [vpText ps]) (vs ++ [v])) ⟨r, pos'⟩ := by
  obtain ⟨pos₁, h₁⟩ := @vpObjectLoop_key F _ n pos ks vs w w₁ x ps hw hp hw₁
  obtain ⟨pos₂, h₂⟩ := hv pos₁
  obtain ⟨pos₃, h₃⟩ := Cursor.ws_eq ⟨w' ++ 125 :: r, pos₂⟩
  rw [skip_append hw', skip_cons (by decide)] at h₃
  refine ⟨pos₃ + 1, ?_⟩
  rw [h₁, h₂]
  dsimp only
  rw [h₃]
  rfl

theorem vpTakes (h : Derives (vpDialect F) d f s) : VpTakes F s f := by
  induction h with
  | null =>
    intro n w r pos hw hr hn
    obtain ⟨n, rfl⟩ : ∃ m, n = m + 1 := ⟨n - 1, by omega⟩
    obtain ⟨pos', h⟩ := vpValue_at (F := F) (s := [117, 108, 108] ++ r) hw (c := 110) (by decide) n pos
    exact ⟨pos' + 4, h⟩
  | tru =>
    intro n w r pos hw hr hn
    obtain ⟨n, rfl⟩ : ∃ m, n = m + 1 := ⟨n - 1, by omega⟩
    obtain ⟨pos', h⟩ := vpValue_at (F := F) (s := [114, 117, 101] ++ r) hw (c := 116) (by decide) n pos
    exact ⟨pos' + 4, h⟩
  | fls =>
    intro n w r pos hw hr hn
    obtain ⟨n, rfl⟩ : ∃ m, n = m + 1 := ⟨n - 1, by omega⟩
    obtain ⟨pos', h⟩ :=
      vpValue_at (F := F) (s := [97, 108, 115, 101] ++ r) hw (c := 102) (by decide) n pos
    exact ⟨pos' + 5, h⟩
  | @number _ tok h =>
    intro n w r pos hw hr hn
    obtain ⟨n, rfl⟩ : ∃ m, n = m + 1 := ⟨n - 1, by omega⟩
    cases tok with
    | nil => exact absurd rfl h.1
    | cons c tok =>
      have hc := h.2.1 c (List.mem_cons_self ..)
      have hws : isWs c = false := by
        by_contra hws
        rw [not_numByte_of_ws (Bool.not_eq_false _ ▸ hws)] at hc
        exact absurd hc (by decide)
      obtain ⟨pos₁, h₁⟩ := vpValue_at (F := F) (s := tok ++ r) hw hws n pos
      obtain ⟨pos₂, h₂⟩ := vpNumber_token (F := F) h hr pos₁
      -- no other value starts with a byte of a number
      have hne : ∀ b : UInt8, isNumByte b = false → c ≠ b := by grind
      refine ⟨pos₂, h₁.trans ?_⟩
      dsimp only
      rw [if_neg (hne 123 (by decide)), if_neg (hne 91 (by decide)), if_neg (hne 34 (by decide)),
        if_neg (hne 116 (by decide)), if_neg (hne 102 (by decide)), if_neg (hne 110 (by decide))]
      exact h₂
  | @string _ ps h =>
    intro n w r pos hw hr hn
    obtain ⟨n, rfl⟩ : ∃ m, n = m + 1 := ⟨n - 1, by omega⟩
    obtain ⟨pos₁, h₁⟩ :=
      vpValue_at (F := F) (s := body ps ++ [34] ++ r) hw (c := 34) (by decide) n pos
    obtain ⟨pos₂, h₂⟩ := vpString_quoted h r pos₁
    refine ⟨pos₂, h₁.trans ?_⟩
    dsimp only
    rw [if_neg (by decide), if_neg (by decide), if_pos rfl]
    rw [show (34 :: (body ps ++ [34] ++ r)) = quoted ps ++ r from rfl, h₂, ofRaw]
  | @emptyArray _ w' hw' =>
    intro n w r pos hw hr hn
    -- one unit of fuel for the value, one for the brackets
    obtain ⟨n, rfl⟩ : ∃ m, n = m + 2 := ⟨n - 2, by simp at hn; omega⟩
    obtain ⟨pos₁, h₁⟩ :=
      vpValue_at (F := F) (s := w' ++ [93] ++ r) hw (c := 91) (by decide) (n + 1) pos
    obtain ⟨pos₂, h₂⟩ := vpArray_empty (F := F) (r := r) hw' n pos₁
    refine ⟨pos₂, h₁.trans ?_⟩
    dsimp only
    rw [if_neg (by decide), if_pos rfl, List.append_assoc]
    exact h₂
  | @array _ ts s h ih =>
    intro n w r pos hw hr hn
    simp only [List.length_append, List.length_cons, List.length_nil] at hn
    obtain ⟨n, rfl⟩ : ∃ m, n = m + 2 := ⟨n - 2, by omega⟩
    obtain ⟨pos₁, h₁⟩ :=
      vpValue_at (F := F) (s := s ++ [93] ++ r) hw (c := 91) (by decide) (n + 1) pos
    obtain ⟨pos₂, h₂⟩ := ih n r (pos₁ + 1) [] (by grind)
    refine ⟨pos₂, h₁.trans ?_⟩
    dsimp only
    rw [if_neg (by decide), if_pos rfl, List.append_assoc]
    rw [List.singleton_append, vpArray_items h.skip_items]
    exact h₂
  | @emptyObject _ w' hw' =>
    intro n w r pos hw hr hn
    obtain ⟨n, rfl⟩ : ∃ m, n = m + 2 := ⟨n - 2, by simp at hn; omega⟩
    obtain ⟨pos₁, h₁⟩ :=
      vpValue_at (F := F) (s := w' ++ [125] ++ r) hw (c := 123) (by decide) (n + 1) pos
    obtain ⟨pos₂, h₂⟩ := vpObject_empty (F := F) (r := r) hw' n pos₁
    refine ⟨pos₂, h₁.trans ?_⟩
    dsimp only
    rw [if_pos rfl, List.append_assoc]
    exact h₂
  | @object _ fs s h ih =>
    intro n w r pos hw hr hn
    simp only [List.length_append, List.length_cons, List.length_nil] at hn
    obtain ⟨n, rfl⟩ : ∃ m, n = m + 2 := ⟨n - 2, by omega⟩
    obtain ⟨pos₁, h₁⟩ :=
      vpValue_at (F := F) (s := s ++ [125] ++ r) hw (c := 123) (by decide) (n + 1) pos
    obtain ⟨pos₂, h₂⟩ := ih n r (pos₁ + 1) [] [] (by grind)
    refine ⟨pos₂, h₁.trans ?_⟩
    dsimp only
    rw [if_pos rfl, List.append_assoc]
    rw [List.singleton_append, vpObject_fields h.skip_fields]
    exact h₂
  | @lastItem _ w t s w' hw _ hw' ih =>
    intro n r pos vs hn
    simp only [List.append_assoc, List.length_append, List.length_cons] at hn ⊢
    obtain ⟨n, rfl⟩ : ∃ m, n = m + 1 := ⟨n - 1, by omega⟩
    obtain ⟨pos₁, h₁⟩ := ih n w (w' ++ 93 :: r) pos hw (ends_append hw' (ends_cons (by decide))) (by
      grind)
    exact vpArrayLoop_close h₁ hw'
  | @item _ w t s w' ts s' hw _ hw' _ ih iht =>
    intro n r pos vs hn
    simp only [List.append_assoc, List.cons_append, List.length_append, List.length_cons] at hn ⊢
    obtain ⟨n, rfl⟩ : ∃ m, n = m + 1 := ⟨n - 1, by omega⟩
    obtain ⟨pos₁, h₁⟩ := ih n w (w' ++ 44 :: (s' ++ 93 :: r)) pos hw
      (ends_append hw' (ends_cons (by decide))) (by grind)
    obtain ⟨pos₂, h₂⟩ := vpArrayLoop_comma vs h₁ hw'
    obtain ⟨pos₃, h₃⟩ := iht n r pos₂ (vs ++ [ofRaw t]) (by grind)
    refine ⟨pos₃, h₂.trans (h₃.trans ?_)⟩
    rw [List.append_assoc]
    rfl
  | @lastField _ w ps w₁ w₂ t s w' hw hp hw₁ hw₂ _ hw' ih =>
    intro n r pos ks vs hn
    simp only [List.append_assoc, List.cons_append, List.length_append, List.length_cons] at hn ⊢
    obtain ⟨n, rfl⟩ : ∃ m, n = m + 1 := ⟨n - 1, by omega⟩
    refine vpObjectLoop_close hw hp hw₁ (fun pos => ?_) hw'
    refine ih n w₂ (w' ++ 125 :: r) pos hw₂ (ends_append hw' (ends_cons (by decide))) ?_
    grind
  | @field _ w ps w₁ w₂ t s w' fs s' hw hp hw₁ hw₂ _ hw' _ ih iht =>
    intro n r pos ks vs hn
    simp only [List.append_assoc, List.cons_append, List.length_append, List.length_cons] at hn ⊢
    obtain ⟨n, rfl⟩ : ∃ m, n = m + 1 := ⟨n - 1, by omega⟩
    have hv : ∀ pos, ∃ pos', vpValue n ⟨w₂ ++ (s ++ (w' ++ 44 :: (s' ++ 125 :: r))), pos⟩ =
        .ok (ofRaw t : Value F) ⟨w' ++ 44 :: (s' ++ 125 :: r), pos'⟩ := by
      intro pos
      refine ih n w₂ _ pos hw₂ (ends_append hw' (ends_cons (by decide))) ?_
      grind
    obtain ⟨pos₂, h₂⟩ := @vpObjectLoop_comma F _ n pos ks _ vs w w₁ _ _ _ ps hw hp hw₁ hv hw'
    obtain ⟨pos₃, h₃⟩ := iht n r pos₂ (ks ++ [vpText ps]) (vs ++ [ofRaw t]) (by grind)
    refine ⟨pos₃, h₂.trans (h₃.trans ?_)⟩
    rw [List.append_assoc, List.append_assoc]
    rfl

variable (F) in
/-- What is read with `n` units of fuel is a text of its form. -/
structure VpSound (n : Nat) : Prop where
  value : ∀ p (v : Value F) q, vpValue n p = .ok v q →
    ∃ w s t, p.rest = w ++ (s ++ q.rest) ∧ Ws w ∧ Derives (vpDialect F) n (.value t) s ∧ v = ofRaw t
  array : ∀ s pos (v : Value F) q, vpArray n ⟨91 :: s, pos⟩ = .ok v q →
    ∃ s' t, 91 :: s = s' ++ q.rest ∧ Derives (vpDialect F) n (.value t) s' ∧ v = ofRaw t
  items : ∀ vs p (v : Value F) q, vpArrayLoop n vs p = .ok v q →
    ∃ s ts, p.rest = s ++ 93 :: q.rest ∧ Derives (vpDialect F) n (.items ts) s ∧
      v = .vList (vs ++ ofItems ts)
  object : ∀ s pos (v : Value F) q, vpObject n ⟨123 :: s, pos⟩ = .ok v q →
    ∃ s' t, 123 :: s = s' ++ q.rest ∧ Derives (vpDialect F) n (.value t) s' ∧ v = ofRaw t
  fields : ∀ ks vs p (v : Value F) q, vpObjectLoop n ks vs p = .ok v q →
    ∃ s fs, p.rest = s ++ 125 :: q.rest ∧ Derives (vpDialect F) n (.fields fs) s ∧
      v = .vObj (ks ++ ofKeys fs) (vs ++ ofVals fs)

variable {n pos : Nat}

theorem VpSound.arrayStep (ih : VpSound F n) {v : Value F} {p : Cursor} {s : Str}
    (h : vpArray (n + 1) ⟨91 :: s, pos⟩ = .ok v p) :
    ∃ s' t, 91 :: s = s' ++ p.rest ∧ Derives (vpDialect F) (n + 1) (.value t) s' ∧ v = ofRaw t := by
  rw [vpArray, show (Cursor.advance ⟨91 :: s, pos⟩ 1) = ⟨s, pos + 1⟩ from rfl, Cursor.ws_rest] at h
  split at h
  · next hc =>
    obtain ⟨w, hw, hs⟩ := exists_skip s
    cases h
    cases hk : skip s with
    | nil => rw [hk] at hc; cases hc
    | cons c r =>
      rw [hk] at hc hs
      obtain rfl := Option.some.inj hc
      refine ⟨91 :: (w ++ [93]), .array [], ?_, .emptyArray hw, rfl⟩
      rw [Cursor.advance_rest, Cursor.ws_rest, hk, hs]
      simp
  · rw [vpArrayLoop_ws] at h
    obtain ⟨s', ts, hs, hd, rfl⟩ := ih.items _ _ _ _ h
    refine ⟨91 :: (s' ++ [93]), .array ts, ?_, .array hd, rfl⟩
    grind

theorem VpSound.objectStep (ih : VpSound F n) {v : Value F} {p : Cursor} {s : Str}
    (h : vpObject (n + 1) ⟨123 :: s, pos⟩ = .ok v p) :
    ∃ s' t, 123 :: s = s' ++ p.rest ∧ Derives (vpDialect F) (n + 1) (.value t) s' ∧ v = ofRaw t := by
  rw [vpObject, show (Cursor.advance ⟨123 :: s, pos⟩ 1) = ⟨s, pos + 1⟩ from rfl, Cursor.ws_rest] at h
  split at h
  · next hc =>
    obtain ⟨w, hw, hs⟩ := exists_skip s
    cases h
    cases hk : skip s with
    | nil => rw [hk] at hc; cases hc
    | cons c r =>
      rw [hk] at hc hs
      obtain rfl := Option.some.inj hc
      refine ⟨123 :: (w ++ [125]), .object [], ?_, .emptyObject hw, rfl⟩
      rw [Cursor.advance_rest, Cursor.ws_rest, hk, hs]
      simp
  · rw [vpObjectLoop_ws] at h
    obtain ⟨s', fs, hs, hd, rfl⟩ := ih.fields _ _ _ _ _ h
    refine ⟨123 :: (s' ++ [125]), .object fs, ?_, .object hd, rfl⟩
    grind

theorem VpSound.valueStep (ih : VpSound F n) {w s : Str} {c : UInt8} (hw : Ws w)
    (hc : isWs c = false) {v : Value F} {q : Cursor}
    (h : vpValue (n + 1) ⟨w ++ c :: s, pos⟩ = .ok v q) :
    ∃ s' t, c :: s = s' ++ q.rest ∧ Derives (vpDialect F) n (.value t) s' ∧ v = ofRaw t := by
  obtain ⟨pos', h'⟩ := vpValue_at (F := F) (s := s) hw hc n pos
  rw [h'] at h
  dsimp only at h
  split at h
  · next hc =>
    subst hc
    exact ih.object s pos' v q h
  split at h
  · next hc =>
    subst hc
    exact ih.array s pos' v q h
  split at h
  · next hc =>
    subst hc
    cases hstr : vpString ⟨34 :: s, pos'⟩ with
    | ok str p =>
      rw [hstr] at h
      cases h
      obtain ⟨ps, hp, hs, rfl⟩ := vpString_ok hstr
      exact ⟨quoted ps, .string ps, hs, .string hp, rfl⟩
    | err e p =>
      grind
    | diverges =>
      grind
  have literal : ∀ {t : Raw} {lit : Str} {m : String} {k : Nat}, k = lit.length →
      Derives (vpDialect F) n (.value t) lit →
      (if (c :: s).take k = lit then .ok (ofRaw t) (Cursor.advance ⟨c :: s, pos'⟩ k)
        else .err m ⟨c :: s, pos'⟩) = Outcome.ok v q →
      ∃ s' t, c :: s = s' ++ q.rest ∧ Derives (vpDialect F) n (.value t) s' ∧ v = ofRaw t := by
    grind [Cursor.advance_rest, List.take_append_drop]
  split at h
  · exact literal rfl .tru h
  split at h
  · exact literal rfl .fls h
  split at h
  · exact literal rfl .null h
  obtain ⟨tok, hs, hn, rfl⟩ := vpNumber_ok h
  exact ⟨tok, .number tok, hs, .number hn, rfl⟩

theorem VpSound.itemsStep (ih : VpSound F n) {vs : List (Value F)} {p q : Cursor} {v : Value F}
    (h : vpArrayLoop (n + 1) vs p = .ok v q) :
    ∃ s ts, p.rest = s ++ 93 :: q.rest ∧ Derives (vpDialect F) n (.items ts) s ∧
      v = .vList (vs ++ ofItems ts) := by
  rw [vpArrayLoop] at h
  split at h
  · cases h
  · cases h
  next v₁ p₁ hv =>
  dsimp only at h
  obtain ⟨w, s, t, hs, hw, hd, rfl⟩ := ih.value _ _ _ hv
  obtain hnil | ⟨w', c, r, pos, hw', hc, hs', hp⟩ := p₁.ws_cases
  · rw [hnil] at h
    cases h
  rw [hp] at h
  dsimp only [List.head?_cons] at h
  split at h
  · next hc =>
    subst hc
    obtain ⟨s₂, ts, hs₂, hd₂, rfl⟩ := ih.items _ _ _ _ h
    refine ⟨_, t :: ts, ?_, .item hw hd hw' hd₂, ?_⟩
    · rw [hs, hs', show r = s₂ ++ 93 :: q.rest from hs₂]
      grind
    · rw [List.append_assoc]
      rfl
  split at h
  · next hc =>
    subst hc
    cases h
    refine ⟨_, [t], ?_, .lastItem hw hd hw', rfl⟩
    rw [hs, hs', Cursor.advance_rest]
    grind
  · cases h

theorem VpSound.fieldsStep (ih : VpSound F n) {ks : List Str} {vs : List (Value F)} {p q : Cursor}
    {v : Value F} (h : vpObjectLoop (n + 1) ks vs p = .ok v q) :
    ∃ s fs, p.rest = s ++ 125 :: q.rest ∧ Derives (vpDialect F) n (.fields fs) s ∧
      v = .vObj (ks ++ ofKeys fs) (vs ++ ofVals fs) := by
  rw [vpObjectLoop] at h
  obtain hnil | ⟨w, c, r, pos, hw, hc, hs, hp⟩ := p.ws_cases
  · rw [hnil] at h
    cases h
  rw [hp] at h
  dsimp only [List.head?_cons] at h
  split at h
  · cases h
  next hc =>
  obtain rfl := not_not.mp hc
  split at h
  · cases h
  · cases h
  next key p₁ hstr =>
  obtain ⟨ps, hps, hs₁, rfl⟩ := vpString_ok hstr
  split at h
  · cases h
  next hcolon =>
  obtain hnil | ⟨w₁, c, r₁, pos₁, hw₁, -, hs₁', hp₁⟩ := p₁.ws_cases
  · grind
  rw [hp₁] at h hcolon
  obtain rfl := Option.some.inj (not_not.mp hcolon)
  split at h
  · cases h
  · cases h
  next v₁ p₂ hv =>
  obtain ⟨w₂, s₂, t, hs₂, hw₂, hd, rfl⟩ := ih.value _ _ _ hv
  obtain hnil | ⟨w', c, r₂, pos₂, hw', -, hs₂', hp₂⟩ := p₂.ws_cases
  · rw [hnil] at h
    cases h
  rw [hp₂] at h
  dsimp only [List.head?_cons] at h
  have hs₂ : r₁ = w₂ ++ (s₂ ++ p₂.rest) := hs₂
  split at h
  · next hc =>
    subst hc
    obtain ⟨s₃, fs, hs₃, hd₃, rfl⟩ := ih.fields _ _ _ _ _ h
    refine ⟨_, (ps, t) :: fs, ?_, .field hw hps hw₁ hw₂ hd hw' hd₃, ?_⟩
    · rw [hs, hs₁, hs₁', hs₂, hs₂', show r₂ = s₃ ++ 125 :: q.rest from hs₃]
      grind
    · rw [List.append_assoc, List.append_assoc]
      rfl
  split at h
  · next hc =>
    subst hc
    cases h
    refine ⟨_, [(ps, t)], ?_, .lastField hw hps hw₁ hw₂ hd hw', rfl⟩
    rw [hs, hs₁, hs₁', hs₂, hs₂', Cursor.advance_rest]
    grind
  · cases h

theorem vpSound (n : Nat) : VpSound F n := by
  induction n with
  | zero =>
    refine ⟨?_, ?_, ?_, ?_, ?_⟩
    · intro p v q h
      cases h
    · intro s pos v q h
      cases h
    · intro vs p v q h
      cases h
    · intro s pos v q h
      cases h
    · intro ks vs p v q h
      cases h
  | succ n ih =>
    refine ⟨?_, fun s pos v q => ih.arrayStep, ?_, fun s pos v q => ih.objectStep, ?_⟩
    · intro p v q h
      obtain hnil | ⟨w, c, r, pos, hw, hc, hs, -⟩ := p.ws_cases
      · rw [vpValue, hnil] at h
        cases h
      rw [show p = ⟨w ++ c :: r, p.pos⟩ from Cursor.ext hs rfl] at h ⊢
      obtain ⟨s', t, hs', hd, rfl⟩ := ih.valueStep hw hc h
      exact ⟨w, s', t, congrArg (w ++ ·) hs', hw, hd.deeper (Nat.le_succ n), rfl⟩
    · intro vs p v q h
      obtain ⟨s, ts, hs, hd, rfl⟩ := ih.itemsStep h
      exact ⟨s, ts, hs, hd.deeper (Nat.le_succ n), rfl⟩
    · intro ks vs p v q h
      obtain ⟨s, fs, hs, hd, rfl⟩ := ih.fieldsStep h
      exact ⟨s, fs, hs, hd.deeper (Nat.le_succ n), rfl⟩

/-! The whole text. -/

theorem fromJson_of_text {t : Raw} (h : IsText (vpDialect F) d s t) :
    ∃ p, fromJson s = .ok (ofRaw t : Value F) p := by
  obtain ⟨w, s', w', rfl, hw, hw', hd⟩ := h
  have hends : Ends w' := List.append_nil w' ▸ ends_append hw' ends_nil
  obtain ⟨pos, h⟩ := vpTakes hd (3 * (w ++ (s' ++ w')).length + 4) w w' 0 hw hends (by omega)
  have hrest : (Cursor.ws ⟨w', pos⟩).rest = [] := by
    rw [Cursor.ws_rest, ← List.append_nil w', skip_append hw', skip_nil]
  refine ⟨Cursor.ws ⟨w', pos⟩, ?_⟩
  rw [fromJson, h]
  grind

theorem text_of_fromJson {v : Value F} {q : Cursor} (h : fromJson s = .ok v q) :
    ∃ d t, IsText (vpDialect F) d s t ∧ v = ofRaw t := by
  unfold fromJson at h
  split at h
  · next v₁ p hv =>
    obtain ⟨w, s', t, hs, hw, hd, rfl⟩ := (vpSound _).value _ _ _ hv
    obtain ⟨w', hw', hs'⟩ := exists_skip p.rest
    dsimp only at h
    split at h
    · cases h
    next hend =>
    cases h
    rw [not_not, Cursor.ws_rest, List.length_eq_zero_iff] at hend
    rw [hend, List.append_nil] at hs'
    exact ⟨_, t, ⟨w, s', p.rest, hs, hw, hs' ▸ hw', hd⟩, rfl⟩
  · cases h
  · cases h

end Parse

end LsLang.Core
