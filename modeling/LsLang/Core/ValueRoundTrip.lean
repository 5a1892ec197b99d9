import LsLang.Core.ValueReader

/-! When `from_json` reads back what `to_json` writes: the renderer escapes strings but not the
keys of objects. -/

namespace LsLang.Core

open JsonText

namespace Value

variable {F : Type}

mutual

/-- No float in the tree, and as many keys as values in each object. -/
def Whole : Value F → Prop
  | vFloat _ => False
  | vList items => wholeItems items
  | vObj keys vals => keys.length = vals.length ∧ wholeItems vals
  | _ => True

def wholeItems : List (Value F) → Prop
  | [] => True
  | v :: vs => v.Whole ∧ wholeItems vs

end

def PlainKey (k : Str) : Prop := ∀ b ∈ k, b ≠ 34 ∧ b ≠ 92

mutual

def PlainKeys : Value F → Prop
  | vList items => plainItems items
  | vObj keys vals => (∀ k ∈ keys, PlainKey k) ∧ plainItems vals
  | _ => True

def plainItems : List (Value F) → Prop
  | [] => True
  | v :: vs => v.PlainKeys ∧ plainItems vs

end

end Value

open Value

/-! The text of strings, keys and integers. -/

def escapePiece (b : UInt8) : Piece :=
  if b = 34 then .escape 34
  else if b = 92 then .escape 92
  else if b = 10 then .escape 110
  else if b = 9 then .escape 116
  else if b = 13 then .escape 114
  else .plain b

theorem escapePiece_spec (b : UInt8) : VpPiece (escapePiece b) ∧ vpPiece (escapePiece b) = [b] := by
  unfold escapePiece
  split
  · next h => exact ⟨rfl, by rw [h]; decide⟩
  split
  · next h => exact ⟨rfl, by rw [h]; decide⟩
  split
  · next h => exact ⟨rfl, by rw [h]; decide⟩
  split
  · next h => exact ⟨rfl, by rw [h]; decide⟩
  split
  · next h => exact ⟨rfl, by rw [h]; decide⟩
  · next h₃₄ h₉₂ _ _ _ => exact ⟨⟨h₃₄, h₉₂⟩, rfl⟩

theorem jsonEscape_eq (s : Str) : jsonEscape s = body (s.map escapePiece) := by
  unfold jsonEscape body
  rw [List.flatMap_map]
  congr 1
  funext b
  unfold escapePiece
  split_ifs <;> rfl

theorem vpText_escape (s : Str) : vpText (s.map escapePiece) = s := by
  induction s with
  | nil => rfl
  | cons b s ih => rw [List.map_cons, vpText_cons, (escapePiece_spec b).2, ih]; rfl

theorem body_plain (k : Str) : body (k.map .plain) = k := by
  induction k with
  | nil => rfl
  | cons b k ih => exact congrArg (b :: ·) ih

theorem vpText_plain (k : Str) : vpText (k.map .plain) = k := by
  induction k with
  | nil => rfl
  | cons b k ih => exact congrArg (b :: ·) ih

theorem vpPiece_plain {k : Str} (h : PlainKey k) : ∀ q ∈ k.map Piece.plain, VpPiece q := by
  intro q hq
  obtain ⟨b, hb, rfl⟩ := List.mem_map.mp hq
  exact h b hb

/-! A key with a quote or a backslash in it is not read back. -/

theorem vpCode_four {h₁ h₂ h₃ h₄ : UInt8} (h : (vpCode [h₁, h₂, h₃, h₄] 0).isSome) :
    34 ∉ [h₁, h₂, h₃, h₄] := by
  have hq : ∀ (cs : Str) (cp : Int), (vpCode cs cp).isSome → 34 ∉ cs := by
    intro cs
    induction cs with
    | nil => grind
    | cons c cs ih =>
      intro cp h hm
      rw [vpCode] at h
      split at h
      · cases h
      next hc =>
      rcases List.mem_cons.mp hm with rfl | hm
      · exact hc (by decide)
      · exact ih _ h hm
  exact hq _ 0 h

theorem vpUtf8_length (cp : Int) : vpUtf8 cp ≠ [] ∧ (vpUtf8 cp).length ≤ 3 := by
  unfold vpUtf8
  grind

theorem vpPiece_shorter {q : Piece} (hq : VpPiece q) :
    (∃ b, q = .plain b ∧ b ≠ 34 ∧ b ≠ 92) ∨ q = .escape 34 ∨
      (∃ x, q.bytes = 92 :: x) ∧ 34 ∉ q.bytes ∧ vpPiece q ≠ [] ∧
        (vpPiece q).length < q.bytes.length := by
  cases q with
  | plain b => exact Or.inl ⟨b, rfl, hq⟩
  | escape e =>
    by_cases he : e = 34
    · grind
    obtain ⟨b, hb⟩ := Option.isSome_iff_exists.mp hq
    refine Or.inr (Or.inr ⟨⟨_, rfl⟩, ?_, ?_, ?_⟩)
    · simp only [Piece.bytes, List.mem_cons, List.not_mem_nil, or_false, not_or]
      grind
    · rw [vpPiece, hb]
      exact List.cons_ne_nil _ _
    · rw [vpPiece, hb]
      exact Nat.lt_succ_self 1
  | unicode h₁ h₂ h₃ h₄ =>
    obtain ⟨cp, hcp⟩ := Option.isSome_iff_exists.mp hq
    refine Or.inr (Or.inr ⟨⟨_, rfl⟩, ?_, ?_, ?_⟩)
    · rw [show (Piece.unicode h₁ h₂ h₃ h₄).bytes = [92, 117] ++ [h₁, h₂, h₃, h₄] from rfl,
        List.mem_append, not_or]
      exact ⟨by decide, vpCode_four hq⟩
    · rw [vpPiece, hcp]
      exact (vpUtf8_length cp).1
    · rw [vpPiece, hcp]
      exact Nat.lt_of_le_of_lt (vpUtf8_length cp).2 (by simp [Piece.bytes])

theorem append_cut {x y k z : Str} {b : UInt8} (hx : b ∉ x) (h : x ++ y = k ++ b :: z) :
    ∃ k', k = x ++ k' ∧ y = k' ++ b :: z := by
  induction x generalizing k with
  | nil => exact ⟨k, rfl, h⟩
  | cons a x ih =>
    cases k with
    | nil => grind
    | cons c k =>
      grind

theorem vpText_ne {ps : List Piece} (hp : ∀ q ∈ ps, VpPiece q) {k w y z : Str}
    (hw : 34 ∉ w) (hk : w = [] → ¬ PlainKey k) (hs : body ps ++ 34 :: z = k ++ 34 :: y) :
    vpText ps ≠ w ++ k := by
  induction ps generalizing k w with
  | nil =>
    intro h
    obtain ⟨rfl, rfl⟩ := List.append_eq_nil_iff.mp h.symm
    exact hk rfl nofun
  | cons q ps ih =>
    intro h
    have hps := fun a ha => hp a (List.mem_cons_of_mem q ha)
    rw [vpText_cons] at h
    rw [show body (q :: ps) = q.bytes ++ body ps from rfl, List.append_assoc] at hs
    rcases vpPiece_shorter (hp q (List.mem_cons_self ..)) with
      ⟨b, rfl, h₃₄, h₉₂⟩ | rfl | ⟨⟨x, hx⟩, hq, hne, hlen⟩
    · obtain ⟨k', rfl, hs'⟩ := append_cut (x := [b]) (by simpa using Ne.symm h₃₄) hs
      cases w with
      | nil =>
        refine ih hps (w := []) List.not_mem_nil (fun _ hk' => hk rfl ?_) hs' (List.cons.inj h).2
        intro c hc
        rcases List.mem_cons.mp hc with rfl | hc
        · grind
        · exact hk' c hc
      | cons a w =>
        have htail : vpText ps = (w ++ [b]) ++ k' := by
          rw [List.append_assoc]
          exact (List.cons.inj h).2
        refine ih hps ?_ (by simp) hs' htail
        grind
    · cases w with
      | nil =>
        cases k with
        | nil => exact absurd (List.cons.inj hs).1 (by decide)
        | cons c k =>
          obtain rfl := (List.cons.inj hs).1
          exact absurd (List.cons.inj h).1 (by decide)
      | cons a w => exact hw (by rw [← (List.cons.inj h).1]; exact List.mem_cons_self ..)
    · obtain ⟨k', rfl, hs'⟩ := append_cut hq hs
      have h' : vpPiece q ++ vpText ps = (w ++ q.bytes) ++ k' := by rw [h, List.append_assoc]
      obtain ⟨w', hw'⟩ : vpPiece q <+: w ++ q.bytes := by
        grind [List.length_append, List.prefix_of_prefix_length_le]
      rw [← hw', List.append_assoc] at h'
      refine ih (w := w') hps ?_ ?_ hs' (List.append_cancel_left h')
      · grind
      grind

theorem vpString_key_ne {k y : Str} (hk : ¬ PlainKey k) (pos : Nat) (q : Cursor) :
    vpString ⟨34 :: (k ++ 34 :: y), pos⟩ ≠ .ok k q := by
  intro h
  obtain ⟨ps, hp, hs, ht⟩ := vpString_ok h
  rw [quoted, List.cons_append, List.append_assoc] at hs
  exact vpText_ne hp (w := []) List.not_mem_nil (fun _ => hk) (List.cons.inj hs).2.symm ht.symm

section Print

variable {F : Type} [F64 F]

theorem showInt_number (i : Int64) :
    (vpDialect F).number (showInt i.toInt) ∧ ofRaw (.number (showInt i.toInt)) = (vInt i : Value F) := by
  have hb : ∀ b ∈ showInt i.toInt, b = 45 ∨ isDigit b = true := by
    intro b hb
    unfold showInt at hb
    grind [showNat_digits]
  have hint : vpIsFloat (showInt i.toInt) = false := by
    have hd : ∀ n, ((showNat n).any fun c => !isDigit c) = false := by
      grind [showNat_digits, List.any_eq_false]
    unfold vpIsFloat showInt
    grind
  have htok : vpToken (showInt i.toInt) = .ok (vInt i : Value F) := by
    unfold vpToken
    rw [hint, if_neg (by decide), toI64_showInt]
    rfl
  refine ⟨⟨?_, ?_, _, htok⟩, ?_⟩
  · unfold showInt
    split
    · exact List.cons_ne_nil _ _
    · exact showNat_ne_nil _
  · intro b hb'
    rcases hb b hb' with rfl | hd
    · decide
    · unfold isNumByte
      rw [show JsonText.isDigit b = true from hd]
      rfl
  · rw [ofRaw, htok]

theorem itemsJson_false (v : Value F) (vs : List (Value F)) :
    itemsJson false (v :: vs) = 44 :: itemsJson true (v :: vs) := by
  rw [itemsJson, itemsJson]
  rfl

theorem fieldsJson_false (k : Str) (ks : List Str) (v : Value F) (vs : List (Value F)) :
    fieldsJson false (k :: ks) (v :: vs) = 44 :: fieldsJson true (k :: ks) (v :: vs) := by
  rw [fieldsJson, fieldsJson]
  rfl

theorem fieldsJson_last (k : Str) (v : Value F) :
    fieldsJson true [k] [v] = 34 :: (k ++ 34 :: 58 :: v.toJson) := by
  simp [fieldsJson]

mutual

theorem toJson_derives : ∀ v : Value F, v.Whole → v.PlainKeys →
    ∃ d t, Derives (vpDialect F) d (.value t) v.toJson ∧ ofRaw t = v
  | vNull, _, _ => ⟨0, .null, .null, rfl⟩
  | vBool true, _, _ => ⟨0, .bool true, .tru, rfl⟩
  | vBool false, _, _ => ⟨0, .bool false, .fls, rfl⟩
  | vInt i, _, _ => ⟨0, _, .number (showInt_number i).1, (showInt_number i).2⟩
  | vFloat f, h, _ => h.elim
  | vStr s, _, _ => by
    refine ⟨0, .string (s.map escapePiece), ?_, by rw [ofRaw, vpText_escape]⟩
    rw [toJson, jsonEscape_eq]
    refine .string fun q hq => ?_
    obtain ⟨b, -, rfl⟩ := List.mem_map.mp hq
    exact (escapePiece_spec b).1
  | vList items, h, hk => by
    rcases eq_or_ne items [] with rfl | hne
    · exact ⟨0, .array [], .emptyArray ws_nil, rfl⟩
    · obtain ⟨d, ts, hd, hts⟩ := itemsJson_derives items hne h hk
      exact ⟨d + 1, .array ts, .array hd, by rw [ofRaw, hts]⟩
  | vObj keys vals, h, hk => by
    rcases eq_or_ne vals [] with rfl | hne
    · obtain rfl := List.length_eq_zero_iff.mp h.1
      exact ⟨0, .object [], .emptyObject ws_nil, rfl⟩
    · obtain ⟨d, fs, hd, hks, hvs⟩ := fieldsJson_derives vals keys hne h.1 h.2 hk.1 hk.2
      exact ⟨d + 1, .object fs, .object hd, by rw [ofRaw, hks, hvs]⟩

theorem itemsJson_derives : ∀ vs : List (Value F), vs ≠ [] → wholeItems vs → plainItems vs →
    ∃ d ts, Derives (vpDialect F) d (.items ts) (itemsJson true vs) ∧ ofItems ts = vs
  | [], hne, _, _ => absurd rfl hne
  | [v], _, h, hk => by
    obtain ⟨d, t, hd, ht⟩ := toJson_derives v h.1 hk.1
    refine ⟨d, [t], ?_, by rw [ofItems, ofItems, ht]⟩
    have := Derives.lastItem ws_nil hd ws_nil
    rw [itemsJson, itemsJson]
    exact this
  | v :: v' :: vs, _, h, hk => by
    obtain ⟨d, t, hd, ht⟩ := toJson_derives v h.1 hk.1
    obtain ⟨e, ts, he, hts⟩ := itemsJson_derives (v' :: vs) (List.cons_ne_nil _ _) h.2 hk.2
    refine ⟨max d e, t :: ts, ?_, by rw [ofItems, ht, hts]⟩
    have := Derives.item ws_nil (hd.deeper (Nat.le_max_left d e)) ws_nil
      (he.deeper (Nat.le_max_right d e))
    rw [itemsJson, itemsJson_false]
    exact this

theorem fieldsJson_derives : ∀ (vs : List (Value F)) (ks : List Str), vs ≠ [] →
    ks.length = vs.length → wholeItems vs → (∀ a ∈ ks, PlainKey a) → plainItems vs →
    ∃ d fs, Derives (vpDialect F) d (.fields fs) (fieldsJson true ks vs) ∧ ofKeys fs = ks ∧
      ofVals fs = vs
  | [], _, hne, _, _, _, _ => absurd rfl hne
  | _ :: _, [], _, hl, _, _, _ => by cases hl
  | [v], [k], _, _, h, hp, hk => by
    obtain ⟨d, t, hd, ht⟩ := toJson_derives v h.1 hk.1
    refine ⟨d, [(k.map .plain, t)], ?_, by rw [ofKeys, vpText_plain, ofKeys],
      by rw [ofVals, ht, ofVals]⟩
    have hps := vpPiece_plain (hp k (List.mem_cons_self ..))
    have := Derives.lastField ws_nil hps ws_nil ws_nil hd ws_nil
    rw [fieldsJson_last]
    rw [quoted, body_plain] at this
    simpa using this
  | [_], _ :: _ :: _, _, hl, _, _, _ => by cases hl
  | _ :: _ :: _, [_], _, hl, _, _, _ => by cases hl
  | v :: v' :: vs, k :: k' :: ks, _, hl, h, hp, hk => by
    obtain ⟨d, t, hd, ht⟩ := toJson_derives v h.1 hk.1
    obtain ⟨e, fs, he, hks, hvs⟩ := fieldsJson_derives (v' :: vs) (k' :: ks) (List.cons_ne_nil _ _)
      (Nat.succ.inj hl) h.2 (fun a ha => hp a (List.mem_cons_of_mem _ ha)) hk.2
    refine ⟨max d e, (k.map .plain, t) :: fs, ?_, by rw [ofKeys, vpText_plain, hks],
      by rw [ofVals, ht, hvs]⟩
    have hps := vpPiece_plain (hp k (List.mem_cons_self ..))
    have := Derives.field ws_nil hps ws_nil ws_nil
      (hd.deeper (Nat.le_max_left d e)) ws_nil (he.deeper (Nat.le_max_right d e))
    rw [fieldsJson, fieldsJson_false]
    rw [quoted, body_plain] at this
    simpa using this

end

theorem vpValue_toJson {v : Value F} (hv : v.Whole) (hk : v.PlainKeys) {r : Str} (hr : Ends r)
    {n : Nat} (hn : 3 * (v.toJson ++ r).length + 1 ≤ n) (pos : Nat) :
    ∃ pos', vpValue n ⟨v.toJson ++ r, pos⟩ = .ok v ⟨r, pos'⟩ := by
  obtain ⟨d, t, hd, ht⟩ := toJson_derives v hv hk
  obtain ⟨pos', h⟩ := vpTakes hd n [] r pos ws_nil hr hn
  grind

theorem vpArrayLoop_extends {n : Nat} {vs ws : List (Value F)} {p q : Cursor}
    (h : vpArrayLoop n vs p = .ok (.vList ws) q) : vs <+: ws := by
  obtain ⟨_, ts, _, _, hv⟩ := (vpSound n).items _ _ _ _ h
  grind

theorem vpObjectLoop_extends {n : Nat} {ks ls : List Str} {vs ws : List (Value F)} {p q : Cursor}
    (h : vpObjectLoop n ks vs p = .ok (.vObj ls ws) q) : ks <+: ls ∧ vs <+: ws := by
  obtain ⟨_, fs, _, _, hv⟩ := (vpSound n).fields _ _ _ _ _ h
  grind

theorem vpArrayLoop_first {n : Nat} {vs ws : List (Value F)} {w : Value F} {p q : Cursor}
    (h : vpArrayLoop (n + 1) vs p = .ok (.vList (vs ++ w :: ws)) q) :
    ∃ p', vpValue n p = .ok w p' := by
  rw [vpArrayLoop] at h
  split at h
  · cases h
  · cases h
  next v₁ p₁ hv =>
  have key : vs ++ [v₁] <+: vs ++ w :: ws → ∃ p', vpValue n p = .ok w p' := by
    grind [List.cons.inj, List.prefix_append_right_inj]
  dsimp only at h
  split at h
  · cases h
  grind [Outcome.ok.inj, Value.vList.inj, List.prefix_rfl, vpArrayLoop_extends]

theorem vpObjectLoop_first {n : Nat} {ks ls : List Str} {k : Str} {vs ws : List (Value F)}
    {w : Value F} {p q : Cursor}
    (h : vpObjectLoop (n + 1) ks vs p = .ok (.vObj (ks ++ k :: ls) (vs ++ w :: ws)) q) :
    ∃ p₁ p₂, vpString p.ws = .ok k p₁ ∧ vpValue n (p₁.ws.advance 1) = .ok w p₂ := by
  rw [vpObjectLoop] at h
  dsimp only at h
  split at h
  · cases h
  split at h
  · cases h
  split at h
  · cases h
  · cases h
  next key p₁ hstr =>
  split at h
  · cases h
  split at h
  · cases h
  · cases h
  next v₁ p₂ hv =>
  have key : ks ++ [key] <+: ks ++ k :: ls ∧ vs ++ [v₁] <+: vs ++ w :: ws →
      ∃ p₁ p₂, vpString p.ws = .ok k p₁ ∧ vpValue n (p₁.ws.advance 1) = .ok w p₂ := by
    grind [List.cons.inj, List.prefix_append_right_inj]
  split at h
  · cases h
  grind [Outcome.ok.inj, Value.vObj.inj, List.prefix_rfl, vpObjectLoop_extends]

theorem toJson_head : ∀ v : Value F, v.Whole → ∃ b s, v.toJson = b :: s ∧ isWs b = false ∧ b ≠ 93
  | vNull, _ => ⟨_, _, rfl, by decide⟩
  | vBool true, _ => ⟨_, _, rfl, by decide⟩
  | vBool false, _ => ⟨_, _, rfl, by decide⟩
  | vInt i, _ => (Derives.number (d := 0) (showInt_number (F := F) i).1).head
  | vFloat _, h => h.elim
  | vStr _, _ => ⟨_, _, rfl, by decide⟩
  | vList _, _ => ⟨_, _, rfl, by decide⟩
  | vObj _ _, _ => ⟨_, _, rfl, by decide⟩

theorem ends_items (vs : List (Value F)) (r : Str) : Ends (itemsJson false vs ++ 93 :: r) := by
  cases vs with
  | nil => exact ends_cons (by decide)
  | cons v vs =>
    rw [itemsJson_false]
    exact ends_cons (by decide)

theorem ends_fields (ks : List Str) (vs : List (Value F)) (r : Str) :
    Ends (fieldsJson false ks vs ++ 125 :: r) := by
  cases ks with
  | nil =>
    rw [show fieldsJson false [] vs = [] by simp [fieldsJson]]
    exact ends_cons (by decide)
  | cons k ks =>
    cases vs with
    | nil => exact ends_cons (by decide)
    | cons v vs =>
      rw [fieldsJson_false]
      exact ends_cons (by decide)

theorem fieldsJson_true (k : Str) (ks : List Str) (v : Value F) (vs : List (Value F)) (r : Str) :
    fieldsJson true (k :: ks) (v :: vs) ++ r =
      34 :: (k ++ 34 :: 58 :: (v.toJson ++ (fieldsJson false ks vs ++ r))) := by
  simp [fieldsJson]

theorem itemsJson_true (v : Value F) (vs : List (Value F)) (r : Str) :
    itemsJson true (v :: vs) ++ r = v.toJson ++ (itemsJson false vs ++ r) := by
  simp [itemsJson]

mutual

theorem toJson_ne : ∀ v : Value F, v.Whole → ¬ v.PlainKeys → ∀ n r pos q, Ends r →
    3 * (v.toJson ++ r).length + 1 ≤ n → vpValue n ⟨v.toJson ++ r, pos⟩ ≠ .ok v q
  | vNull, _, hk => absurd trivial hk
  | vBool _, _, hk => absurd trivial hk
  | vInt _, _, hk => absurd trivial hk
  | vFloat _, h, _ => h.elim
  | vStr _, _, hk => absurd trivial hk
  | vList items, h, hk => by
    intro n r pos q hr hn
    rw [toJson, List.cons_append, List.append_assoc, List.singleton_append] at hn ⊢
    simp only [List.length_cons] at hn
    obtain ⟨n, rfl⟩ : ∃ m, n = m + 2 := ⟨n - 2, by omega⟩
    obtain ⟨pos₁, h₁⟩ := vpValue_at (F := F) (w := []) (s := itemsJson true items ++ 93 :: r) ws_nil
      (c := 91) (by decide) (n + 1) pos
    have hhead : (skip (itemsJson true items ++ 93 :: r)).head? ≠ some 93 := by
      cases items with
      | nil => exact absurd trivial hk
      | cons v vs =>
        obtain ⟨b, s, hs, hb, hne⟩ := toJson_head v h.1
        rw [itemsJson_true, hs, List.cons_append, skip_cons hb]
        grind
    intro he
    refine itemsJson_ne items h hk n r (pos₁ + 1) [] q (by omega) ?_
    rw [← vpArray_items hhead]
    exact h₁.symm.trans he
  | vObj keys vals, h, hk => by
    intro n r pos q hr hn
    rw [toJson, List.cons_append, List.append_assoc, List.singleton_append] at hn ⊢
    simp only [List.length_cons] at hn
    obtain ⟨n, rfl⟩ : ∃ m, n = m + 2 := ⟨n - 2, by omega⟩
    obtain ⟨pos₁, h₁⟩ := vpValue_at (F := F) (w := []) (s := fieldsJson true keys vals ++ 125 :: r)
      nofun (c := 123) (by decide) (n + 1) pos
    have hhead : (skip (fieldsJson true keys vals ++ 125 :: r)).head? ≠ some 125 := by
      cases vals with
      | nil =>
        obtain rfl := List.length_eq_zero_iff.mp h.1
        exact absurd ⟨nofun, trivial⟩ hk
      | cons v vs =>
        cases keys with
        | nil => cases h.1
        | cons k ks =>
          rw [fieldsJson_true, skip_cons (by decide)]
          grind
    intro he
    refine fieldsJson_ne vals keys h.1 h.2 hk n r (pos₁ + 1) [] [] q (by omega) ?_
    rw [← vpObject_fields hhead]
    exact h₁.symm.trans he

theorem itemsJson_ne : ∀ vs : List (Value F), wholeItems vs → ¬ plainItems vs →
    ∀ n r pos acc q, 3 * (itemsJson true vs ++ 93 :: r).length + 2 ≤ n →
    vpArrayLoop n acc ⟨itemsJson true vs ++ 93 :: r, pos⟩ ≠ .ok (.vList (acc ++ vs)) q
  | [], _, hk => absurd trivial hk
  | v :: vs, h, hk => by
    intro n r pos acc q hn he
    rw [itemsJson_true] at hn he
    obtain ⟨n, rfl⟩ : ∃ m, n = m + 1 := ⟨n - 1, by omega⟩
    obtain ⟨p', hv⟩ := vpArrayLoop_first he
    by_cases hkv : v.PlainKeys
    · obtain ⟨pos₁, h₁⟩ := vpValue_toJson h.1 hkv (ends_items vs r) (n := n) (by omega) pos
      cases vs with
      | nil => exact hk ⟨hkv, trivial⟩
      | cons v' vs =>
        rw [itemsJson_false, List.cons_append] at he h₁ hn
        obtain ⟨pos₂, h₂⟩ := vpArrayLoop_comma acc h₁ ws_nil
        rw [h₂, show acc ++ v :: v' :: vs = (acc ++ [v]) ++ v' :: vs by simp] at he
        refine itemsJson_ne (v' :: vs) h.2 (fun hks => hk ⟨hkv, hks⟩) n r pos₂ (acc ++ [v]) q ?_ he
        grind
    · exact toJson_ne v h.1 hkv n _ pos p' (ends_items vs r) (by omega) hv

theorem fieldsJson_ne : ∀ (vs : List (Value F)) (ks : List Str), ks.length = vs.length →
    wholeItems vs → ¬ ((∀ k ∈ ks, PlainKey k) ∧ plainItems vs) →
    ∀ n r pos kacc acc q, 3 * (fieldsJson true ks vs ++ 125 :: r).length + 2 ≤ n →
    vpObjectLoop n kacc acc ⟨fieldsJson true ks vs ++ 125 :: r, pos⟩ ≠
      .ok (.vObj (kacc ++ ks) (acc ++ vs)) q
  | [], ks, hl, _, hk => by
    obtain rfl := List.length_eq_zero_iff.mp hl
    exact absurd ⟨nofun, trivial⟩ hk
  | _ :: _, [], hl, _, _ => by cases hl
  | v :: vs, k :: ks, hl, h, hk => by
    intro n r pos kacc acc q hn he
    rw [fieldsJson_true] at hn he
    obtain ⟨n, rfl⟩ : ∃ m, n = m + 1 := ⟨n - 1, by omega⟩
    obtain ⟨p₁, p₂, hstr, hv⟩ := vpObjectLoop_first he
    rw [show Cursor.ws ⟨34 :: (k ++ 34 :: 58 :: (v.toJson ++ (fieldsJson false ks vs ++ 125 :: r))),
      pos⟩ = ⟨34 :: (k ++ 34 :: 58 :: (v.toJson ++ (fieldsJson false ks vs ++ 125 :: r))), pos⟩
      from rfl] at hstr
    -- a key that is not plain is not read back; else a value is not, or a later field
    by_cases hkp : PlainKey k
    · have hquoted : ∀ x, 34 :: (k ++ 34 :: 58 :: x) =
          [] ++ (quoted (k.map .plain) ++ ([] ++ 58 :: x)) := by
        intro x
        simp [quoted, body_plain]
      have hps := vpPiece_plain hkp
      obtain ⟨pos₁, h₁⟩ := vpString_quoted hps
        ([] ++ 58 :: (v.toJson ++ (fieldsJson false ks vs ++ 125 :: r))) pos
      rw [hquoted, List.nil_append, h₁] at hstr
      obtain rfl := (Outcome.ok.inj hstr).2
      simp only [List.length_cons, List.length_append] at hn
      by_cases hkv : v.PlainKeys
      · cases vs with
        | nil =>
          obtain rfl := List.length_eq_zero_iff.mp (Nat.succ.inj hl)
          exact hk ⟨fun a ha => List.mem_singleton.mp ha ▸ hkp, hkv, trivial⟩
        | cons v' vs =>
          cases ks with
          | nil => cases hl
          | cons k' ks =>
            rw [fieldsJson_false, List.cons_append] at he
            rw [fieldsJson_false, List.length_cons] at hn
            have h₂ : ∀ pos, ∃ pos', vpValue n ⟨v.toJson ++
                (44 :: (fieldsJson true (k' :: ks) (v' :: vs) ++ 125 :: r)), pos⟩ =
                .ok v ⟨[] ++ 44 :: (fieldsJson true (k' :: ks) (v' :: vs) ++ 125 :: r), pos'⟩ := by
              refine vpValue_toJson h.1 hkv (ends_cons (by decide)) ?_
              grind
            obtain ⟨pos₃, h₃⟩ := @vpObjectLoop_comma F _ n pos kacc v acc [] [] [] _ _ _ nofun hps
              nofun h₂ nofun
            rw [hquoted, h₃, vpText_plain, show kacc ++ k :: k' :: ks = (kacc ++ [k]) ++ k' :: ks by simp,
              show acc ++ v :: v' :: vs = (acc ++ [v]) ++ v' :: vs by simp] at he
            refine fieldsJson_ne (v' :: vs) (k' :: ks) (Nat.succ.inj hl) h.2 (fun hks => hk ?_) n r pos₃
              (kacc ++ [k]) (acc ++ [v]) q ?_ he
            · refine ⟨fun a ha => ?_, hkv, hks.2⟩
              grind
            grind
      · refine toJson_ne v h.1 hkv n _ _ p₂ (ends_fields ks vs r) ?_ hv
        grind
    · exact vpString_key_ne hkp pos p₁ hstr

end

/-- The tree comes back exactly if no key holds a quote or a backslash. -/
theorem fromJson_toJson_iff (v : Value F) (hv : v.Whole) :
    (∃ p, fromJson v.toJson = .ok v p) ↔ v.PlainKeys := by
  constructor
  · rintro ⟨p, hp⟩
    by_contra hk
    unfold fromJson at hp
    split at hp
    · next w q hw =>
      dsimp only at hp
      split at hp
      · cases hp
      obtain ⟨rfl, -⟩ := Outcome.ok.inj hp
      refine toJson_ne w hv hk (3 * w.toJson.length + 4) [] 0 q ends_nil ?_ ?_
      · rw [List.append_nil]
        omega
      · rw [List.append_nil]
        exact hw
    · cases hp
    · cases hp
  · intro hk
    obtain ⟨d, t, hd, ht⟩ := toJson_derives v hv hk
    have htext : IsText (vpDialect F) d v.toJson t :=
      ⟨[], v.toJson, [], (List.append_nil _).symm, ws_nil, ws_nil, hd⟩
    rw [← ht] at *
    exact fromJson_of_text htext

/-- The least `i64`, and a string of the bytes that need an escape, under the key `a`. -/
theorem fromJson_toJson_iff_nested :
    (∃ p, fromJson (F := Int)
        (vObj [[97]] [vList [vInt Int64.minValue, vStr [34, 92, 10]]] : Value Int).toJson =
      .ok (vObj [[97]] [vList [vInt Int64.minValue, vStr [34, 92, 10]]]) p) ↔
      (vObj [[97]] [vList [vInt Int64.minValue, vStr [34, 92, 10]]] : Value Int).PlainKeys :=
  fromJson_toJson_iff _ ⟨rfl, ⟨trivial, trivial, trivial⟩, trivial⟩

/-- An object with the key `"` is written as `\x7b""":null\x7d`. -/
theorem fromJson_toJson_quote : (vObj [[34]] [vNull] : Value Int).Whole ∧
    ¬ ∃ p, fromJson (F := Int) (vObj [[34]] [vNull] : Value Int).toJson =
      .ok (vObj [[34]] [vNull]) p := by
  refine ⟨⟨rfl, trivial, trivial⟩, ?_⟩
  rintro ⟨p, hp⟩
  have : fromJson (F := Int) (vObj [[34]] [vNull] : Value Int).toJson =
      .err "json: expected colon" ⟨[34, 58, 110, 117, 108, 108, 125], 3⟩ := rfl
  rw [this] at hp
  cases hp

end Print

end LsLang.Core
