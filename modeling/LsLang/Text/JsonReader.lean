import LsLang.Text.JsonToken

/-! `parse` reads the texts of a dialect of JSON. -/

namespace LsLang.Text.Json

open LsLang.Core JsonText

section Parse

variable {F : Type} [F64 F]

def ofKeys : List (List Piece × Raw) → List Str
  | [] => []
  | (ps, _) :: fs => textOf ps :: ofKeys fs

mutual

def ofRaw : Raw → JsonValue F
  | .null => .null
  | .bool b => .bool b
  | .number tok => numberOf F tok
  | .string ps => .text (textOf ps)
  | .array ts => .array (ofItems ts)
  | .object fs => .object (ofKeys fs) (ofEntries (some Map.empty) fs)

def ofItems : List Raw → List (JsonValue F)
  | [] => []
  | t :: ts => ofRaw t :: ofItems ts

def ofEntries (m : Option (Map Str (JsonValue F))) :
    List (List Piece × Raw) → Option (Map Str (JsonValue F))
  | [] => m
  | (ps, t) :: fs => ofEntries (JsonValue.setEntry m (textOf ps) (ofRaw t)) fs

end

def fieldList (fs : List (List Piece × Raw)) : List (Str × JsonValue F) :=
  fs.map fun g => (textOf g.1, ofRaw g.2)

theorem ofEntries_eq (fs : List (List Piece × Raw)) (m : Map Str (JsonValue F)) :
    ofEntries (some m) fs = (fieldList fs).foldlM (fun m e => m.set e.1 e.2) m := by
  have hnone : ∀ gs : List (List Piece × Raw), (ofEntries none gs : Option (Map Str (JsonValue F))) = none := by
    intro gs
    induction gs with
    | nil => rfl
    | cons g gs ih => exact ih
  induction fs generalizing m with
  | nil => rfl
  | cons g fs ih =>
    obtain ⟨ps, t⟩ := g
    rw [ofEntries, fieldList, List.map_cons, List.foldlM_cons,
      show JsonValue.setEntry (some m) (textOf ps) (ofRaw t) = m.set (textOf ps) (ofRaw t) from rfl]
    dsimp only
    cases hm : m.set (textOf ps) (ofRaw t) with
    | none => exact hnone _
    | some m' => exact ih m'

theorem ofKeys_eq (fs : List (List Piece × Raw)) :
    ofKeys fs = (fieldList fs : List (Str × JsonValue F)).map Prod.fst := by
  induction fs with
  | nil => rfl
  | cons g fs ih =>
    obtain ⟨ps, t⟩ := g
    rw [ofKeys, ih]
    rfl

theorem parseValue_at {w s : Str} {c : UInt8} (hw : Ws w) (hc : isWs c = false) {depth : Nat}
    (hd : depth ≤ 128) (n pos : Nat) :
    ∃ pos', parseValue none (F := F) (n + 1) depth ⟨w ++ c :: s, pos⟩ =
      let p : Cursor := ⟨c :: s, pos'⟩
      if c = ch '"' then
        match parseStringRaw none p with
        | .ok s p => .ok (.text s) p
        | .err e p => .err e p
        | .diverges => .diverges
      else if c = ch '-' ∨ Core.isDigit c then parseNumber none p
      else if c = ch 't' then
        if matchChars p ['t', 'r', 'u', 'e'] then .ok (.bool true) (p.advance 4)
        else .err s!"json: unexpected token at position {p.pos}" p
      else if c = ch 'f' then
        if matchChars p ['f', 'a', 'l', 's', 'e'] then .ok (.bool false) (p.advance 5)
        else .err s!"json: unexpected token at position {p.pos}" p
      else if c = ch 'n' then
        if matchChars p ['n', 'u', 'l', 'l'] then .ok .null (p.advance 4)
        else .err s!"json: unexpected token at position {p.pos}" p
      else if c = ch '[' then parseArray none n depth p
      else if c = ch '\x7b' then parseObject none n depth p
      else .err s!"json: unexpected character at position {p.pos}" p := by
  obtain ⟨pos', hp⟩ := Cursor.ws_eq ⟨w ++ c :: s, pos⟩
  refine ⟨pos', ?_⟩
  rw [parseValue, if_neg (by omega), hp, skip_append hw, skip_cons hc]
  rfl

theorem parseFields_ws (room : Option Nat) (n depth : Nat) (ks : List Str) (m : Option (Map Str (JsonValue F)))
    (p : Cursor) : parseFields room n depth ks m p.ws = parseFields room n depth ks m p := by
  cases n with
  | zero => rfl
  | succ n => rw [parseFields, parseFields, Cursor.ws_ws]

variable {d : Nat} {f : Form} {s : Str}

variable (F) in
def Takes (d : Nat) (s : Str) : Form → Prop
  | .value t => ∀ n depth w r pos, Ws w → Ends r → depth + d ≤ 128 →
      3 * (w ++ (s ++ r)).length + 1 ≤ n →
      ∃ pos', parseValue none n depth ⟨w ++ (s ++ r), pos⟩ = .ok (ofRaw t : JsonValue F) ⟨r, pos'⟩
  | .items ts => ∀ n depth r pos (vs : List (JsonValue F)), depth + 1 + d ≤ 128 →
      3 * (s ++ 93 :: r).length + 2 ≤ n →
      ∃ pos', parseItems none n depth vs (Cursor.ws ⟨s ++ 93 :: r, pos⟩) =
        .ok (.array (vs ++ ofItems ts)) ⟨r, pos'⟩
  | .fields fs => ∀ n depth r pos (ks : List Str) (m : Option (Map Str (JsonValue F))),
      depth + 1 + d ≤ 128 → 3 * (s ++ 125 :: r).length + 2 ≤ n →
      ∃ pos', parseFields none n depth ks m ⟨s ++ 125 :: r, pos⟩ =
        .ok (.object (ks ++ ofKeys fs) (ofEntries m fs)) ⟨r, pos'⟩

theorem ws_append {w s : Str} {c : UInt8} (hw : Ws w) (hc : isWs c = false) (pos : Nat) :
    ∃ pos', Cursor.ws ⟨w ++ c :: s, pos⟩ = ⟨c :: s, pos'⟩ := by
  obtain ⟨pos', h⟩ := Cursor.ws_eq ⟨w ++ c :: s, pos⟩
  rw [skip_append hw, skip_cons hc] at h
  exact ⟨pos', h⟩

theorem ws_value {D : Dialect} {t : Raw} {w : Str} (h : Derives D d (.value t) s) (hw : Ws w)
    (r : Str) (pos : Nat) : ∃ pos', Cursor.ws ⟨w ++ (s ++ r), pos⟩ = ⟨s ++ r, pos'⟩ := by
  obtain ⟨pos', hp⟩ := Cursor.ws_eq ⟨w ++ (s ++ r), pos⟩
  rw [h.skip_append hw] at hp
  exact ⟨pos', hp⟩

theorem parseArray_empty {w r : Str} (hw : Ws w) (n depth pos : Nat) :
    ∃ pos', parseArray none (F := F) (n + 1) depth ⟨91 :: (w ++ 93 :: r), pos⟩ =
      .ok (.array []) ⟨r, pos'⟩ := by
  obtain ⟨pos', hp⟩ := ws_append (s := r) (c := 93) hw (by decide) (pos + 1)
  refine ⟨pos' + 1, ?_⟩
  rw [parseArray, advance_cons, hp]
  rfl

theorem parseArray_items {s : Str} (h : (skip s).head? ≠ some 93) (n depth pos : Nat) :
    parseArray none (F := F) (n + 1) depth ⟨91 :: s, pos⟩ =
      parseItems none n depth [] (Cursor.ws ⟨s, pos + 1⟩) := by
  rw [parseArray, advance_cons, peek, Cursor.ws_rest, if_neg (show (skip s).head? ≠ some (ch ']') from h)]

theorem parseObject_empty {w r : Str} (hw : Ws w) (n depth pos : Nat) :
    ∃ pos', parseObject none (F := F) (n + 1) depth ⟨123 :: (w ++ 125 :: r), pos⟩ =
      .ok (.object [] (some Map.empty)) ⟨r, pos'⟩ := by
  obtain ⟨pos', hp⟩ := ws_append (s := r) (c := 125) hw (by decide) (pos + 1)
  refine ⟨pos' + 1, ?_⟩
  rw [parseObject, advance_cons, hp]
  rfl

theorem parseObject_fields {s : Str} (h : (skip s).head? ≠ some 125) (n depth pos : Nat) :
    parseObject none (F := F) (n + 1) depth ⟨123 :: s, pos⟩ =
      parseFields none n depth [] (some Map.empty) ⟨s, pos + 1⟩ := by
  rw [parseObject, advance_cons, peek, Cursor.ws_rest, if_neg (show (skip s).head? ≠ some (ch '\x7d') from h), parseFields_ws]

theorem parseItems_comma {p : Cursor} {n depth pos : Nat} {v : JsonValue F} (vs : List (JsonValue F))
    {w r : Str} (hv : parseValue none n (depth + 1) p = .ok v ⟨w ++ 44 :: r, pos⟩) (hw : Ws w) :
    ∃ pos', parseItems none (n + 1) depth vs p = parseItems none n depth (vs ++ [v]) (Cursor.ws ⟨r, pos'⟩) := by
  obtain ⟨pos', hp⟩ := ws_append (s := r) (c := 44) hw (by decide) pos
  refine ⟨pos' + 1, ?_⟩
  rw [parseItems, hv]
  dsimp only
  rw [hp]
  rfl

theorem parseItems_close {p : Cursor} {n depth pos : Nat} {v : JsonValue F} {vs : List (JsonValue F)}
    {w r : Str} (hv : parseValue none n (depth + 1) p = .ok v ⟨w ++ 93 :: r, pos⟩) (hw : Ws w) :
    ∃ pos', parseItems none (n + 1) depth vs p = .ok (.array (vs ++ [v])) ⟨r, pos'⟩ := by
  obtain ⟨pos', hp⟩ := ws_append (s := r) (c := 93) hw (by decide) pos
  refine ⟨pos' + 1, ?_⟩
  rw [parseItems, hv]
  dsimp only
  rw [hp]
  rfl

theorem parseFields_key {n depth pos : Nat} {ks : List Str} {m : Option (Map Str (JsonValue F))}
    {w w₁ x : Str} {ps : List Piece} (hw : Ws w) (hp : ∀ q ∈ ps, loose.piece q) (hw₁ : Ws w₁) :
    ∃ pos', parseFields none (n + 1) depth ks m ⟨w ++ (quoted ps ++ (w₁ ++ 58 :: x)), pos⟩ =
      match parseValue none n (depth + 1) (Cursor.ws ⟨x, pos'⟩) with
      | .err e p => .err e p
      | .diverges => .diverges
      | .ok val p =>
        let entries := JsonValue.setEntry m (textOf ps) val
        let ks := ks ++ [textOf ps]
        let p := p.ws
        if peek p = some (ch ',') then parseFields none n depth ks entries (p.advance 1)
        else if peek p ≠ some (ch '\x7d') then .err s!"json: expected '\x7d' at position {p.pos}" p
        else .ok (.object ks entries) (p.advance 1) := by
  obtain ⟨pos₁, h₁⟩ := ws_append (s := body ps ++ [34] ++ (w₁ ++ 58 :: x)) (c := 34) hw (by decide) pos
  obtain ⟨pos₃, h₃⟩ := ws_append (s := x) (c := 58) hw₁ (by decide) (pos₁ + (quoted ps).length)
  refine ⟨pos₃ + 1, ?_⟩
  rw [parseFields, show w ++ (quoted ps ++ (w₁ ++ 58 :: x)) =
    w ++ 34 :: (body ps ++ [34] ++ (w₁ ++ 58 :: x)) from rfl, h₁,
    show 34 :: (body ps ++ [34] ++ (w₁ ++ 58 :: x)) = quoted ps ++ (w₁ ++ 58 :: x) from rfl,
    parseStringRaw_quoted hp]
  dsimp only
  rw [h₃, peek_cons, if_neg (by decide)]
  rfl

theorem parseFields_comma {n depth pos : Nat} {ks : List Str} {m : Option (Map Str (JsonValue F))}
    {v : JsonValue F} {w w₁ w' x r : Str} {ps : List Piece} (hw : Ws w)
    (hp : ∀ q ∈ ps, loose.piece q) (hw₁ : Ws w₁) (hv : ∀ pos, ∃ pos',
      parseValue none n (depth + 1) (Cursor.ws ⟨x, pos⟩) = .ok v ⟨w' ++ 44 :: r, pos'⟩) (hw' : Ws w') :
    ∃ pos', parseFields none (n + 1) depth ks m ⟨w ++ (quoted ps ++ (w₁ ++ 58 :: x)), pos⟩ =
      parseFields none n depth (ks ++ [textOf ps]) (JsonValue.setEntry m (textOf ps) v) ⟨r, pos'⟩ := by
  obtain ⟨pos₁, h₁⟩ := @parseFields_key F _ n depth pos ks m w w₁ x ps hw hp hw₁
  obtain ⟨pos₂, h₂⟩ := hv pos₁
  obtain ⟨pos₃, h₃⟩ := ws_append (s := r) (c := 44) hw' (by decide) pos₂
  refine ⟨pos₃ + 1, ?_⟩
  rw [h₁, h₂]
  dsimp only
  rw [h₃]
  rfl

theorem parseFields_close {n depth pos : Nat} {ks : List Str} {m : Option (Map Str (JsonValue F))}
    {v : JsonValue F} {w w₁ w' x r : Str} {ps : List Piece} (hw : Ws w)
    (hp : ∀ q ∈ ps, loose.piece q) (hw₁ : Ws w₁) (hv : ∀ pos, ∃ pos',
      parseValue none n (depth + 1) (Cursor.ws ⟨x, pos⟩) = .ok v ⟨w' ++ 125 :: r, pos'⟩) (hw' : Ws w') :
    ∃ pos', parseFields none (n + 1) depth ks m ⟨w ++ (quoted ps ++ (w₁ ++ 58 :: x)), pos⟩ =
      .ok (.object (ks ++ [textOf ps]) (JsonValue.setEntry m (textOf ps) v)) ⟨r, pos'⟩ := by
  obtain ⟨pos₁, h₁⟩ := @parseFields_key F _ n depth pos ks m w w₁ x ps hw hp hw₁
  obtain ⟨pos₂, h₂⟩ := hv pos₁
  obtain ⟨pos₃, h₃⟩ := ws_append (s := r) (c := 125) hw' (by decide) pos₂
  refine ⟨pos₃ + 1, ?_⟩
  rw [h₁, h₂]
  dsimp only
  rw [h₃]
  rfl

theorem takes (h : Derives loose d f s) : Takes F d s f := by
  induction h with
  | null =>
    intro n depth w r pos hw hr hdepth hn
    obtain ⟨n, rfl⟩ : ∃ m, n = m + 1 := ⟨n - 1, by omega⟩
    obtain ⟨pos', h⟩ := parseValue_at (F := F) (s := [117, 108, 108] ++ r) hw (c := 110) (by decide)
      (by omega : depth ≤ 128) n pos
    exact ⟨pos' + 4, h⟩
  | tru =>
    intro n depth w r pos hw hr hdepth hn
    obtain ⟨n, rfl⟩ : ∃ m, n = m + 1 := ⟨n - 1, by omega⟩
    obtain ⟨pos', h⟩ := parseValue_at (F := F) (s := [114, 117, 101] ++ r) hw (c := 116) (by decide)
      (by omega : depth ≤ 128) n pos
    exact ⟨pos' + 4, h⟩
  | fls =>
    intro n depth w r pos hw hr hdepth hn
    obtain ⟨n, rfl⟩ : ∃ m, n = m + 1 := ⟨n - 1, by omega⟩
    obtain ⟨pos', h⟩ := parseValue_at (F := F) (s := [97, 108, 115, 101] ++ r) hw (c := 102)
      (by decide) (by omega : depth ≤ 128) n pos
    exact ⟨pos' + 5, h⟩
  | @number _ tok h =>
    intro n depth w r pos hw hr hdepth hn
    obtain ⟨n, rfl⟩ : ∃ m, n = m + 1 := ⟨n - 1, by omega⟩
    obtain ⟨c, tok', rfl, hc⟩ : ∃ c tok', tok = c :: tok' ∧ (c = 45 ∨ Core.isDigit c = true) := by
      obtain ⟨sg, i, frac, exp, hsg, hi, -, -, rfl⟩ := h
      obtain ⟨b, i, rfl⟩ := List.exists_cons_of_ne_nil hi.1
      rcases hsg with rfl | rfl
      · exact ⟨b, _, rfl, Or.inr (hi.2 b (List.mem_cons_self ..))⟩
      grind
    have hws : isWs c = false := by
      by_contra hws
      have := loose.numBytes _ h c (List.mem_cons_self ..)
      rw [not_numByte_of_ws (Bool.not_eq_false _ ▸ hws)] at this
      cases this
    -- a number starts with none of the other marks
    have hne : c ≠ ch '"' := by
      rintro rfl
      revert hc
      decide
    obtain ⟨pos₁, h₁⟩ := parseValue_at (F := F) (s := tok' ++ r) hw hws (by omega : depth ≤ 128) n pos
    refine ⟨pos₁ + (c :: tok').length, h₁.trans ?_⟩
    dsimp only
    rw [if_neg hne, if_pos (show c = ch '-' ∨ Core.isDigit c = true from hc), ofRaw]
    exact parseNumber_token h hr pos₁
  | @string _ ps h =>
    intro n depth w r pos hw hr hdepth hn
    obtain ⟨n, rfl⟩ : ∃ m, n = m + 1 := ⟨n - 1, by omega⟩
    obtain ⟨pos₁, h₁⟩ := parseValue_at (F := F) (s := body ps ++ [34] ++ r) hw (c := 34) (by decide)
      (by omega : depth ≤ 128) n pos
    refine ⟨pos₁ + (quoted ps).length, h₁.trans ?_⟩
    dsimp only
    rw [if_pos (by decide), show (34 :: (body ps ++ [34] ++ r)) = quoted ps ++ r from rfl,
      parseStringRaw_quoted h, ofRaw]
  | @emptyArray _ w' hw' =>
    intro n depth w r pos hw hr hdepth hn
    -- one unit of fuel for the value, one for the brackets
    obtain ⟨n, rfl⟩ : ∃ m, n = m + 2 := ⟨n - 2, by simp at hn; omega⟩
    obtain ⟨pos₁, h₁⟩ := parseValue_at (F := F) (s := w' ++ [93] ++ r) hw (c := 91) (by decide)
      (by omega : depth ≤ 128) (n + 1) pos
    obtain ⟨pos₂, h₂⟩ := parseArray_empty (F := F) (r := r) hw' n depth pos₁
    refine ⟨pos₂, h₁.trans ?_⟩
    rw [← List.append_cons w' 93 r]
    exact h₂
  | @array d ts s h ih =>
    intro n depth w r pos hw hr hdepth hn
    simp only [List.length_append, List.length_cons, List.length_nil] at hn
    obtain ⟨n, rfl⟩ : ∃ m, n = m + 2 := ⟨n - 2, by omega⟩
    obtain ⟨pos₁, h₁⟩ := parseValue_at (F := F) (s := s ++ [93] ++ r) hw (c := 91) (by decide)
      (by omega : depth ≤ 128) (n + 1) pos
    obtain ⟨pos₂, h₂⟩ := ih n depth r (pos₁ + 1) [] (by omega) (by grind)
    refine ⟨pos₂, h₁.trans ?_⟩
    rw [← List.append_cons s 93 r]
    rw [← parseArray_items h.skip_items] at h₂
    exact h₂
  | @emptyObject _ w' hw' =>
    intro n depth w r pos hw hr hdepth hn
    obtain ⟨n, rfl⟩ : ∃ m, n = m + 2 := ⟨n - 2, by simp at hn; omega⟩
    obtain ⟨pos₁, h₁⟩ := parseValue_at (F := F) (s := w' ++ [125] ++ r) hw (c := 123) (by decide)
      (by omega : depth ≤ 128) (n + 1) pos
    obtain ⟨pos₂, h₂⟩ := parseObject_empty (F := F) (r := r) hw' n depth pos₁
    refine ⟨pos₂, h₁.trans ?_⟩
    rw [← List.append_cons w' 125 r]
    exact h₂
  | @object d fs s h ih =>
    intro n depth w r pos hw hr hdepth hn
    simp only [List.length_append, List.length_cons, List.length_nil] at hn
    obtain ⟨n, rfl⟩ : ∃ m, n = m + 2 := ⟨n - 2, by omega⟩
    obtain ⟨pos₁, h₁⟩ := parseValue_at (F := F) (s := s ++ [125] ++ r) hw (c := 123) (by decide)
      (by omega : depth ≤ 128) (n + 1) pos
    obtain ⟨pos₂, h₂⟩ := ih n depth r (pos₁ + 1) [] (some Map.empty) (by omega) (by grind)
    refine ⟨pos₂, h₁.trans ?_⟩
    rw [← List.append_cons s 125 r]
    rw [← parseObject_fields h.skip_fields] at h₂
    exact h₂
  | @lastItem _ w t s w' hw h hw' ih =>
    intro n depth r pos vs hdepth hn
    simp only [List.append_assoc, List.length_append, List.length_cons] at hn ⊢
    obtain ⟨n, rfl⟩ : ∃ m, n = m + 1 := ⟨n - 1, by omega⟩
    obtain ⟨pos₀, h₀⟩ := ws_value h hw (w' ++ 93 :: r) pos
    obtain ⟨pos₁, h₁⟩ := ih n (depth + 1) [] (w' ++ 93 :: r) pos₀ ws_nil
      (ends_append hw' (ends_cons (by decide))) hdepth (by grind)
    rw [h₀]
    exact parseItems_close h₁ hw'
  | @item _ w t s w' ts s' hw h hw' _ ih iht =>
    intro n depth r pos vs hdepth hn
    simp only [List.append_assoc, List.cons_append, List.length_append, List.length_cons] at hn ⊢
    obtain ⟨n, rfl⟩ : ∃ m, n = m + 1 := ⟨n - 1, by omega⟩
    obtain ⟨pos₀, h₀⟩ := ws_value h hw (w' ++ 44 :: (s' ++ 93 :: r)) pos
    obtain ⟨pos₁, h₁⟩ := ih n (depth + 1) [] (w' ++ 44 :: (s' ++ 93 :: r)) pos₀ ws_nil
      (ends_append hw' (ends_cons (by decide))) hdepth (by grind)
    obtain ⟨pos₂, h₂⟩ := parseItems_comma vs h₁ hw'
    obtain ⟨pos₃, h₃⟩ := iht n depth r pos₂ (vs ++ [ofRaw t]) hdepth (by grind)
    refine ⟨pos₃, ?_⟩
    rw [h₀]
    refine h₂.trans (h₃.trans ?_)
    rw [List.append_assoc]
    rfl
  | @lastField _ w ps w₁ w₂ t s w' hw hp hw₁ hw₂ h hw' ih =>
    intro n depth r pos ks m hdepth hn
    simp only [List.append_assoc, List.cons_append, List.length_append, List.length_cons] at hn ⊢
    obtain ⟨n, rfl⟩ : ∃ m, n = m + 1 := ⟨n - 1, by omega⟩
    refine parseFields_close hw hp hw₁ (fun pos => ?_) hw'
    obtain ⟨pos₀, h₀⟩ := ws_value h hw₂ (w' ++ 125 :: r) pos
    rw [h₀]
    refine ih n (depth + 1) [] (w' ++ 125 :: r) pos₀ ws_nil (ends_append hw' (ends_cons (by decide)))
      hdepth ?_
    grind
  | @field _ w ps w₁ w₂ t s w' fs s' hw hp hw₁ hw₂ h hw' _ ih iht =>
    intro n depth r pos ks m hdepth hn
    simp only [List.append_assoc, List.cons_append, List.length_append, List.length_cons] at hn ⊢
    obtain ⟨n, rfl⟩ : ∃ m, n = m + 1 := ⟨n - 1, by omega⟩
    have hv : ∀ pos, ∃ pos', parseValue none n (depth + 1)
        (Cursor.ws ⟨w₂ ++ (s ++ (w' ++ 44 :: (s' ++ 125 :: r))), pos⟩) =
        .ok (ofRaw t : JsonValue F) ⟨w' ++ 44 :: (s' ++ 125 :: r), pos'⟩ := by
      intro pos
      obtain ⟨pos₀, h₀⟩ := ws_value h hw₂ (w' ++ 44 :: (s' ++ 125 :: r)) pos
      rw [h₀]
      refine ih n (depth + 1) [] _ pos₀ ws_nil (ends_append hw' (ends_cons (by decide))) hdepth ?_
      grind
    obtain ⟨pos₂, h₂⟩ := @parseFields_comma F _ n depth pos ks m _ w w₁ _ _ _ ps hw hp hw₁ hv hw'
    obtain ⟨pos₃, h₃⟩ := iht n depth r pos₂ (ks ++ [textOf ps])
      (JsonValue.setEntry m (textOf ps) (ofRaw t)) hdepth (by grind)
    refine ⟨pos₃, h₂.trans (h₃.trans ?_)⟩
    rw [List.append_assoc]
    rfl

variable (F) in
/-- What is read with `n` units of fuel is a text of its form, nested no deeper than 128. -/
structure Sound (room : Option Nat) (n : Nat) : Prop where
  value : ∀ depth p (v : JsonValue F) q, parseValue room n depth p = .ok v q →
    depth ≤ 128 ∧ ∃ w s t, p.Eats (w ++ s) q ∧ Ws w ∧ Derives loose (128 - depth) (.value t) s ∧
      v = ofRaw t
  array : ∀ depth p (v : JsonValue F) q, peek p = some 91 → parseArray room n depth p = .ok v q →
    ∃ s t, p.Eats s q ∧ Derives loose (128 - depth) (.value t) s ∧ v = ofRaw t
  items : ∀ depth vs p (v : JsonValue F) q, parseItems room n depth vs p = .ok v q →
    depth < 128 ∧ ∃ s ts, p.Eats (s ++ [93]) q ∧ Derives loose (128 - (depth + 1)) (.items ts) s ∧
      v = .array (vs ++ ofItems ts)
  object : ∀ depth p (v : JsonValue F) q, peek p = some 123 → parseObject room n depth p = .ok v q →
    ∃ s t, p.Eats s q ∧ Derives loose (128 - depth) (.value t) s ∧ v = ofRaw t
  fields : ∀ depth ks m p (v : JsonValue F) q, parseFields room n depth ks m p = .ok v q →
    depth < 128 ∧ ∃ s fs, p.Eats (s ++ [125]) q ∧ Derives loose (128 - (depth + 1)) (.fields fs) s ∧
      v = .object (ks ++ ofKeys fs) (ofEntries m fs)

variable {room : Option Nat} {n : Nat}

theorem Sound.arrayStep (ih : Sound F room n) {depth : Nat} {v : JsonValue F} {p q : Cursor}
    (hp : peek p = some 91) (h : parseArray room (n + 1) depth p = .ok v q) :
    ∃ s t, p.Eats s q ∧ Derives loose (128 - depth) (.value t) s ∧ v = ofRaw t := by
  have he := eats_of_peek hp
  obtain ⟨w, hw, hws⟩ := (p.advance 1).ws_eats
  rw [parseArray] at h
  split at h
  · next hc =>
    cases h
    refine ⟨91 :: (w ++ [93]), .array [], ?_, .emptyArray hw, rfl⟩
    exact he.trans (hws.trans (eats_of_peek hc))
  · obtain ⟨hd, s, ts, hs, hder, rfl⟩ := ih.items _ _ _ _ _ h
    refine ⟨91 :: (w ++ s ++ [93]), .array ts, ?_, ?_, rfl⟩
    · rw [List.append_assoc]
      exact he.trans (hws.trans hs)
    · rw [show 128 - depth = (128 - (depth + 1)) + 1 by omega]
      exact .array (hder.ws_items hw)

theorem Sound.objectStep (ih : Sound F room n) {depth : Nat} {v : JsonValue F} {p q : Cursor}
    (hp : peek p = some 123) (h : parseObject room (n + 1) depth p = .ok v q) :
    ∃ s t, p.Eats s q ∧ Derives loose (128 - depth) (.value t) s ∧ v = ofRaw t := by
  have he := eats_of_peek hp
  obtain ⟨w, hw, hws⟩ := (p.advance 1).ws_eats
  rw [parseObject] at h
  split at h
  · next hc =>
    cases h
    refine ⟨123 :: (w ++ [125]), .object [], ?_, .emptyObject hw, rfl⟩
    exact he.trans (hws.trans (eats_of_peek hc))
  · rw [parseFields_ws] at h
    obtain ⟨hd, s, fs, hs, hder, rfl⟩ := ih.fields _ _ _ _ _ _ h
    refine ⟨123 :: (s ++ [125]), .object fs, he.trans hs, ?_, rfl⟩
    rw [show 128 - depth = (128 - (depth + 1)) + 1 by omega]
    exact .object hder

theorem Sound.itemsStep (ih : Sound F room n) {depth : Nat} {vs : List (JsonValue F)} {p q : Cursor}
    {v : JsonValue F} (h : parseItems room (n + 1) depth vs p = .ok v q) :
    depth < 128 ∧ ∃ s ts, p.Eats (s ++ [93]) q ∧ Derives loose (128 - (depth + 1)) (.items ts) s ∧
      v = .array (vs ++ ofItems ts) := by
  rw [parseItems] at h
  split at h
  · cases h
  · cases h
  next v₁ p₁ hv =>
  dsimp only at h
  obtain ⟨hd, w, s, t, hs, hw, hder, rfl⟩ := ih.value _ _ _ _ hv
  obtain ⟨w', hw', hws⟩ := p₁.ws_eats
  refine ⟨hd, ?_⟩
  split at h
  · next hc =>
    obtain ⟨w₂, hw₂, hws₂⟩ := (p₁.ws.advance 1).ws_eats
    obtain ⟨-, s₂, ts, hs₂, hder₂, rfl⟩ := ih.items _ _ _ _ _ h
    refine ⟨_, t :: ts, ?_, .item hw hder hw' (hder₂.ws_items hw₂), ?_⟩
    · have := hs.trans (hws.trans ((eats_of_peek hc).trans (hws₂.trans hs₂)))
      grind
    · rw [List.append_assoc]
      rfl
  split at h
  · cases h
  next hc =>
  cases h
  refine ⟨_, [t], ?_, .lastItem hw hder hw', rfl⟩
  have := hs.trans (hws.trans (eats_of_peek (not_not.mp hc)))
  grind

theorem Sound.fieldsStep (ih : Sound F room n) {depth : Nat} {ks : List Str}
    {m : Option (Map Str (JsonValue F))} {p q : Cursor} {v : JsonValue F}
    (h : parseFields room (n + 1) depth ks m p = .ok v q) :
    depth < 128 ∧ ∃ s fs, p.Eats (s ++ [125]) q ∧ Derives loose (128 - (depth + 1)) (.fields fs) s ∧
      v = .object (ks ++ ofKeys fs) (ofEntries m fs) := by
  rw [parseFields] at h
  obtain ⟨w, hw, hws⟩ := p.ws_eats
  split at h
  · cases h
  · cases h
  next key p₁ hstr =>
  obtain ⟨ps, hps, hs₁, rfl⟩ := parseStringRaw_ok hstr
  obtain ⟨w₁, hw₁, hws₁⟩ := p₁.ws_eats
  dsimp only at h
  split at h
  · cases h
  next hcolon =>
  obtain ⟨w₂, hw₂, hws₂⟩ := (p₁.ws.advance 1).ws_eats
  split at h
  · cases h
  · cases h
  next v₁ p₂ hv =>
  obtain ⟨hd, w₃, s, t, hs, hw₃, hder, rfl⟩ := ih.value _ _ _ _ hv
  obtain ⟨w', hw', hws'⟩ := p₂.ws_eats
  have hkey := hws.trans (hs₁.trans (hws₁.trans ((eats_of_peek (not_not.mp hcolon)).trans
    (hws₂.trans (hs.trans hws')))))
  refine ⟨hd, ?_⟩
  split at h
  · next hc =>
    obtain ⟨-, s₂, fs, hs₂, hder₂, rfl⟩ := ih.fields _ _ _ _ _ _ h
    refine ⟨_, (ps, t) :: fs, ?_, .field hw hps hw₁ (hw₂.append hw₃) hder hw' hder₂, ?_⟩
    · have := hkey.trans ((eats_of_peek hc).trans hs₂)
      grind
    · rw [List.append_assoc]
      rfl
  split at h
  · cases h
  next hc =>
  cases h
  refine ⟨_, [(ps, t)], ?_, .lastField hw hps hw₁ (hw₂.append hw₃) hder hw', rfl⟩
  have := hkey.trans (eats_of_peek (not_not.mp hc))
  grind

theorem matchChars_eats {p : Cursor} {cs : List Char} (h : matchChars p cs = true) {k : Nat}
    (hk : k = (lit cs).length) : p.Eats (lit cs) (p.advance k) := by
  unfold matchChars at h
  rw [beq_iff_eq] at h
  grind [List.take_append_drop, Cursor.Eats.advance]

theorem Sound.valueStep (ih : Sound F room n) {depth : Nat} {p q : Cursor} {v : JsonValue F}
    (h : parseValue room (n + 1) depth p = .ok v q) :
    depth ≤ 128 ∧ ∃ w s t, p.Eats (w ++ s) q ∧ Ws w ∧ Derives loose (128 - depth) (.value t) s ∧
      v = ofRaw t := by
  rw [parseValue] at h
  split at h
  · cases h
  next hd =>
  obtain ⟨w, hw, hws⟩ := p.ws_eats
  refine ⟨by omega, w, ?_⟩
  suffices hs : ∃ s t, p.ws.Eats s q ∧ Derives loose (128 - depth) (.value t) s ∧ v = ofRaw t by
    obtain ⟨s, t, he, hder, hv⟩ := hs
    exact ⟨s, t, hws.trans he, hw, hder, hv⟩
  dsimp only at h
  generalize p.ws = p₀ at h
  split at h
  · cases h
  next c hc =>
  split at h
  · split at h
    · next str p₁ hstr =>
      cases h
      obtain ⟨ps, hps, he, rfl⟩ := parseStringRaw_ok hstr
      exact ⟨quoted ps, .string ps, he, .string hps, rfl⟩
    · cases h
    · cases h
  split at h
  · obtain ⟨tok, htok, he, rfl⟩ := parseNumber_ok h
    exact ⟨tok, .number tok, he, .number htok, rfl⟩
  split at h
  · split at h
    · next hm =>
      cases h
      exact ⟨_, .bool true, matchChars_eats hm rfl, .tru, rfl⟩
    · cases h
  split at h
  · split at h
    · next hm =>
      cases h
      exact ⟨_, .bool false, matchChars_eats hm rfl, .fls, rfl⟩
    · cases h
  split at h
  · split at h
    · next hm =>
      cases h
      exact ⟨_, .null, matchChars_eats hm rfl, .null, rfl⟩
    · cases h
  split at h
  · next hb => exact ih.array _ _ _ _ (hc.trans (congrArg some hb)) h
  split at h
  · next hb => exact ih.object _ _ _ _ (hc.trans (congrArg some hb)) h
  · cases h

theorem sound (room : Option Nat) (n : Nat) : Sound F room n := by
  induction n with
  | zero =>
    refine ⟨?_, ?_, ?_, ?_, ?_⟩
    · intro depth p v q h
      cases h
    · intro depth p v q _ h
      cases h
    · intro depth vs p v q h
      cases h
    · intro depth p v q _ h
      cases h
    · intro depth ks m p v q h
      cases h
  | succ n ih =>
    exact ⟨fun _ _ _ _ => ih.valueStep, fun _ _ _ _ => ih.arrayStep, fun _ _ _ _ _ => ih.itemsStep,
      fun _ _ _ _ => ih.objectStep, fun _ _ _ _ _ _ => ih.fieldsStep⟩

/-! The whole text. -/

theorem parse_of_text {t : Raw} (h : IsText loose 128 s t) :
    ∃ p, parse s = .ok (ofRaw t : JsonValue F) p := by
  obtain ⟨w, s', w', rfl, hw, hw', hd⟩ := h
  have hends : Ends w' := List.append_nil w' ▸ ends_append hw' ends_nil
  obtain ⟨pos, h⟩ := takes (F := F) hd (3 * (w ++ (s' ++ w')).length + 4) 0 w w' 0 hw hends (by omega)
    (by omega)
  have hrest : (Cursor.ws ⟨w', pos⟩).rest = [] := by
    rw [Cursor.ws_rest, ← List.append_nil w', skip_append hw', skip_nil]
  refine ⟨Cursor.ws ⟨w', pos⟩, ?_⟩
  rw [parse, parseIn, h]
  grind

theorem text_of_parseIn {room : Option Nat} {v : JsonValue F} {q : Cursor} (h : parseIn room s = .ok v q) :
    ∃ t, IsText loose 128 s t ∧ v = ofRaw t := by
  unfold parseIn at h
  split at h
  · cases h
  · cases h
  next v₁ p hv =>
  obtain ⟨-, w, s', t, he, hw, hd, rfl⟩ := (sound _ _).value _ _ _ _ hv
  obtain ⟨w', hw', hs'⟩ := exists_skip p.rest
  dsimp only at h
  split at h
  · cases h
  next hend =>
  cases h
  rw [Cursor.ws_rest, not_lt, Nat.le_zero, List.length_eq_zero_iff] at hend
  rw [hend, List.append_nil] at hs'
  refine ⟨t, ⟨w, s', p.rest, ?_, hw, hs' ▸ hw', hd⟩, rfl⟩
  rw [← List.append_assoc]
  exact he.1

theorem text_of_parse {v : JsonValue F} {q : Cursor} (h : parse s = .ok v q) : ∃ t, IsText loose 128 s t ∧ v = ofRaw t :=
  text_of_parseIn h

end Parse

end LsLang.Text.Json
