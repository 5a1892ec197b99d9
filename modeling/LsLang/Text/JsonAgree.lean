import LsLang.Core.ValueReader
import LsLang.Core.MapMethods
import LsLang.Text.JsonAccept
import LsLang.Text.JsonRoundTrip

/-! `std.text.json.parse` beside `from_json` of `std.core.value`. -/

namespace LsLang.Text.Json

open LsLang.Core JsonText

/-! Numbers. -/

def digitsOf (ds : Str) : Option Int :=
  if ds ≠ [] ∧ ds.all Core.isDigit then some (natOf ds 0) else none

def intOf : Str → Option Int
  | 45 :: ds => (digitsOf ds).map fun n => -n
  | ds => digitsOf ds

theorem digitsOf_some {ds : Str} {n : Int} (h : digitsOf ds = some n) :
    (∀ b ∈ ds, Core.isDigit b = true) ∧ ds ≠ [] ∧ n = natOf ds 0 := by
  unfold digitsOf at h
  grind

theorem intOf_some {tok : Str} {i : Int} (h : intOf tok = some i) :
    ∃ ds, (∀ b ∈ ds, Core.isDigit b = true) ∧ ds ≠ [] ∧
      (tok = ds ∧ i = natOf ds 0 ∨ tok = 45 :: ds ∧ i = -natOf ds 0) := by
  unfold intOf at h
  split at h
  · next ds =>
    obtain ⟨n, hn, rfl⟩ := Option.map_eq_some_iff.mp h
    obtain ⟨hd, hne, rfl⟩ := digitsOf_some hn
    grind
  · obtain ⟨hd, hne, rfl⟩ := digitsOf_some h
    grind

section Number

variable {F : Type} [F64 F]

theorem vpIsFloat_digits {ds : Str} (h : ∀ b ∈ ds, Core.isDigit b = true) :
    vpIsFloat ds = false ∧ vpIsFloat (45 :: ds) = false := by
  have hany : (ds.any fun c => !Core.isDigit c) = false := by grind
  refine ⟨?_, hany⟩
  unfold vpIsFloat
  grind

theorem intOf_read [F64.Exact F] {tok : Str} {i : Int} (h : intOf tok = some i) (hi : |i| ≤ 2 ^ 53) :
    numberOf F tok = .number (F64.ofInt i) ∧ vpToken tok = .ok (.vInt (Int64.ofInt i) : Value F) := by
  obtain ⟨ds, hd, hne, ⟨rfl, rfl⟩ | ⟨rfl, rfl⟩⟩ := intOf_some h
  · rw [abs_of_nonneg (by omega)] at hi
    unfold numberOf vpToken
    rw [(toFloat_int (F := F) hd hne (by omega)).1, (vpIsFloat_digits hd).1, (toI64_digits hd hne).1]
    exact ⟨rfl, rfl⟩
  · rw [abs_neg, abs_of_nonneg (by omega)] at hi
    unfold numberOf vpToken
    rw [(toFloat_int (F := F) hd hne (by omega)).2, (vpIsFloat_digits hd).2, (toI64_digits hd hne).2]
    exact ⟨rfl, rfl⟩

variable (F) in
theorem vpNumber_of_number {tok : Str} (h : IsNumber Digits tok) : (vpDialect F).number tok := by
  refine ⟨loose.ne_nil tok h, loose.numBytes tok h, ?_⟩
  unfold vpToken
  cases hf : vpIsFloat tok with
  | true =>
    obtain ⟨val, hval⟩ := toFloat_number F h
    exact ⟨.vFloat val, by rw [if_pos rfl, hval]; rfl⟩
  | false =>
    rw [if_neg (by decide)]
    obtain ⟨sg, i, frac, exp, hsg, hi, hfr, hex, rfl⟩ := h
    -- no mark other than the sign, so there is neither a fraction nor an exponent
    have hmark : ∀ b ∈ i ++ (frac ++ exp), Core.isDigit b = true := by
      intro b hb
      have hany : ((i ++ (frac ++ exp)).any fun c => !Core.isDigit c) = false := by
        rcases hsg with rfl | rfl
        · unfold vpIsFloat at hf
          rw [List.nil_append, if_neg] at hf
          · exact hf
          · obtain ⟨c, i, rfl⟩ := List.exists_cons_of_ne_nil hi.1
            intro he
            have := hi.2 c (List.mem_cons_self ..)
            rw [Option.some.inj he] at this
            exact absurd this (by decide)
        · exact hf
      grind
    have hne : i ++ (frac ++ exp) ≠ [] := fun he => hi.1 (List.append_eq_nil_iff.mp he).1
    have hread := toI64_digits hmark hne
    rcases hsg with rfl | rfl
    · exact ⟨_, congrArg (Except.map _) hread.1⟩
    · exact ⟨_, congrArg (Except.map _) hread.2⟩

theorem floatInt_ok {s : Str} {val : F} {any : Bool} {r : F × Bool × Str}
    (h : Str.floatInt s val any = .ok r) (hs : ∀ b ∈ s, b ≠ 46 ∧ b ≠ 101 ∧ b ≠ 69) :
    ∀ b ∈ s, Core.isDigit b = true := by
  induction s generalizing val any with
  | nil => exact nofun
  | cons d s ih =>
    obtain ⟨h₁, h₂, h₃⟩ := hs d (List.mem_cons_self ..)
    rw [Str.floatInt, if_neg (by grind)] at h
    grind

theorem toFloat_digits {tok x : Str} {neg : Bool} {v : F} (h : Str.toFloat tok = .ok v)
    (hsign : Str.sign tok = (neg, x)) (hx : ∀ b ∈ x, b ≠ 46 ∧ b ≠ 101 ∧ b ≠ 69) :
    ∀ b ∈ x, Core.isDigit b = true := by
  unfold Str.toFloat at h
  split at h
  · cases h
  rw [hsign] at h
  dsimp only at h
  cases hint : Str.floatInt x (F64.ofInt 0 : F) false with
  | error e =>
    rw [hint] at h
    cases h
  | ok r => exact floatInt_ok hint hx

variable (F) in
theorem number_of_vpNumber {tok : Str} (h : (vpDialect F).number tok) (hplus : tok.head? ≠ some 43)
    (hmark : ∀ b ∈ tok, b ≠ 46 ∧ b ≠ 101 ∧ b ≠ 69) : IsNumber Digits tok := by
  obtain ⟨hne, -, v, hv⟩ := h
  obtain ⟨c, s, rfl⟩ := List.exists_cons_of_ne_nil hne
  -- the digits are what follows the sign
  have key : ∀ {neg : Bool} {x : Str}, Str.sign (c :: s) = (neg, x) →
      (vpIsFloat (c :: s) = x.any fun b => !Core.isDigit b) → (∀ b ∈ x, b ∈ c :: s) → Digits x := by
    intro neg x hsign hfloat hsub
    have hdig : ∀ b ∈ x, Core.isDigit b = true := by
      unfold vpToken at hv
      cases hf : vpIsFloat (c :: s) with
      | true =>
        rw [hf, if_pos rfl] at hv
        cases hto : (Str.toFloat (c :: s) : Except String F) with
        | error e => rw [hto] at hv; cases hv
        | ok val => exact toFloat_digits hto hsign fun b hb => hmark b (hsub b hb)
      | false =>
        grind
    refine ⟨?_, hdig⟩
    rintro rfl
    rw [vpToken, hfloat, List.any_nil, if_neg (by decide), Str.toI64, Str.toSigned, if_neg (by simp), hsign] at hv
    cases hv
  by_cases hc : c = 45
  · subst hc
    exact ⟨[45], s, [], [], Or.inr rfl, key (by rw [Str.sign, if_pos rfl]) rfl
      (fun b hb => List.mem_cons_of_mem _ hb), Or.inl rfl, Or.inl rfl, by simp⟩
  · have hc' : c ≠ 43 := fun he => hplus (congrArg some he)
    refine ⟨[], c :: s, [], [], Or.inl rfl, key (by rw [Str.sign, if_neg hc, if_neg hc']) ?_
      (fun b hb => hb), Or.inl rfl, Or.inl rfl, by simp⟩
    unfold vpIsFloat
    grind

end Number

/-! Strings. -/

def NoUnicode (ps : List Piece) : Prop := ∀ q ∈ ps, ∀ h₁ h₂ h₃ h₄, q ≠ .unicode h₁ h₂ h₃ h₄

theorem escape_eq {e : UInt8} (h : e ∈ escapes) : escape e = vpEscape e ∧ (vpEscape e).isSome := by
  simp only [escapes, List.mem_cons, List.not_mem_nil, or_false] at h
  rcases h with rfl | rfl | rfl | rfl | rfl | rfl | rfl | rfl <;> decide

theorem vpEscape_mem {e : UInt8} (h : (vpEscape e).isSome) : e ∈ escapes := by
  unfold vpEscape at h
  split_ifs at h with h₁ h₂ h₃ h₄ h₅ h₆ h₇ h₈
  · rw [h₁]; decide
  · rw [h₂]; decide
  · rw [h₃]; decide
  · rw [h₄]; decide
  · rw [h₅]; decide
  · rw [h₆]; decide
  · rw [h₇]; decide
  · rw [h₈]; decide
  · cases h

theorem loose_of_vpPiece {q : Piece} (h : VpPiece q) : loose.piece q := by
  cases q with
  | plain b => exact h
  | escape e => exact vpEscape_mem h
  | unicode => trivial

theorem textOf_eq {ps : List Piece} (hp : ∀ q ∈ ps, loose.piece q) (hu : NoUnicode ps) :
    textOf ps = vpText ps ∧ ∀ q ∈ ps, VpPiece q := by
  have hpiece : ∀ q ∈ ps, pieceText q = vpPiece q ∧ VpPiece q := by
    intro q hq
    cases q with
    | plain b => exact ⟨rfl, hp _ hq⟩
    | escape e =>
      obtain ⟨heq, hsome⟩ := escape_eq (show e ∈ escapes from hp _ hq)
      exact ⟨congrArg Option.toList heq, hsome⟩
    | unicode h₁ h₂ h₃ h₄ => exact absurd rfl (hu _ hq h₁ h₂ h₃ h₄)
  refine ⟨?_, fun q hq => (hpiece q hq).2⟩
  unfold textOf vpText
  exact List.flatMap_congr fun q hq => (hpiece q hq).1

/-! Objects. -/

def lastVal {α : Type} : List Str → List α → Str → Option α
  | k :: ks, v :: vs, a => (lastVal ks vs a).or (if k = a then some v else none)
  | _, _, _ => none

theorem lastVal_none {α : Type} {ks : List Str} {vs : List α} {a : Str} (h : a ∉ ks) :
    lastVal ks vs a = none := by
  induction ks generalizing vs with
  | nil => rfl
  | cons k ks ih =>
    cases vs with
    | nil => rfl
    | cons v vs =>
      rw [List.mem_cons, not_or] at h
      rw [lastVal, ih h.2, if_neg (Ne.symm h.1)]
      rfl

theorem lastVal_isSome {α : Type} {ks : List Str} {vs : List α} {a : Str} (hl : ks.length = vs.length)
    (h : a ∈ ks) : (lastVal ks vs a).isSome := by
  induction ks generalizing vs with
  | nil => cases h
  | cons k ks ih =>
    cases vs with
    | nil => cases hl
    | cons v vs =>
      rw [lastVal, Option.isSome_or]
      grind

theorem lookup_insertAll_last {V : Type} (es : List (Str × V)) (f : KeyMap Str V) (k : Str) :
    (insertAll es f).lookup (Key.mk k) =
      (lastVal (es.map Prod.fst) (es.map Prod.snd) k).or (f.lookup (Key.mk k)) := by
  induction es generalizing f with
  | nil => rfl
  | cons e es ih =>
    rw [insertAll, List.foldl_cons, ← insertAll, ih, List.map_cons, List.map_cons, lastVal, Option.or_assoc]
    congr 1
    by_cases hk : e.1 = k
    · rw [if_pos hk, ← hk, show entryKey e = Key.mk e.1 from rfl, Finmap.lookup_insert]
      rfl
    · rw [if_neg hk, Finmap.lookup_insert_of_ne f (show Key.mk k ≠ entryKey e from
        fun he => hk (mk_inj.mp he).symm)]
      rfl

section Agree

variable {F : Type} [F64 F]

mutual

/-- Every object is spread out when its keys are set into an empty table, and has fewer than 2^27
of them. -/
def Roomy : Raw → Prop
  | .array ts => roomyItems ts
  | .object fs => Map.Spreads 0 ∅ ((ofKeys fs).map (Key.mk (K := Str))) ∧
      (keySet (ofKeys fs)).card < 2 ^ 27 ∧ roomyFields fs
  | _ => True

def roomyItems : List Raw → Prop
  | [] => True
  | t :: ts => Roomy t ∧ roomyItems ts

def roomyFields : List (List Piece × Raw) → Prop
  | [] => True
  | (_, t) :: fs => Roomy t ∧ roomyFields fs

end

mutual

/-- The two values are the same tree, where `t` is how it stands in the text. Numbers are compared
only if they are integer literals within 2^53. -/
def Agrees : Raw → JsonValue F → Value F → Prop
  | .null, v, w => v = .null ∧ w = .vNull
  | .bool b, v, w => v = .bool b ∧ w = .vBool b
  | .number tok, v, w => (∃ x, v = .number x) ∧ ((∃ i, w = .vInt i) ∨ ∃ x, w = .vFloat x) ∧
      ∀ i, intOf tok = some i → |i| ≤ 2 ^ 53 → v = .number (F64.ofInt i) ∧
        ∃ n : Int64, w = .vInt n ∧ n.toInt = i
  | .string _, v, w => ∃ s, v = .text s ∧ w = .vStr s
  | .array ts, v, w => ∃ vs ws, v = .array vs ∧ w = .vList ws ∧ agreesItems ts vs ws
  | .object fs, v, w => ∃ ks m ls ws, v = .object ks (some m) ∧ w = .vObj ls ws ∧
      (∀ k, ∃ r, m.get k = some r ∧ r.isSome = (lastVal ls ws k).isSome) ∧
      agreesFields fs m.get (lastVal ls ws)

def agreesItems : List Raw → List (JsonValue F) → List (Value F) → Prop
  | [], vs, ws => vs = [] ∧ ws = []
  | t :: ts, vs, ws => ∃ v vs' w ws', vs = v :: vs' ∧ ws = w :: ws' ∧ Agrees t v w ∧
      agreesItems ts vs' ws'

def agreesFields : List (List Piece × Raw) → (Str → Option (Option (JsonValue F))) →
    (Str → Option (Value F)) → Prop
  | [], _, _ => True
  | (ps, t) :: fs, j, l => (textOf ps ∉ ofKeys fs → ∃ v w, j (textOf ps) = some (some v) ∧
      l (textOf ps) = some w ∧ Agrees t v w) ∧ agreesFields fs j l

end

theorem toInt_ofInt {i : Int} (hi : |i| ≤ 2 ^ 53) : (Int64.ofInt i).toInt = i := by
  grind [Int64.toInt_ofInt_of_le]

theorem agrees_number [F64.Exact F] {tok : Str} (h : IsNumber Digits tok) :
    Agrees (.number tok) (numberOf F tok) (Core.ofRaw (.number tok)) := by
  obtain ⟨val, hval⟩ := toFloat_number F h
  obtain ⟨-, -, v, hv⟩ := vpNumber_of_number F h
  refine ⟨⟨val, by rw [numberOf, hval]⟩, ?_, fun i hi hle => ?_⟩
  · rw [Core.ofRaw, hv]
    unfold vpToken at hv
    split at hv
    · rw [hval] at hv
      exact Or.inr ⟨val, (Except.ok.inj hv).symm⟩
    · cases hint : tok.toI64 with
      | error e => rw [hint] at hv; cases hv
      | ok n =>
        rw [hint] at hv
        exact Or.inl ⟨n, (Except.ok.inj hv).symm⟩
  · obtain ⟨h₁, h₂⟩ := intOf_read (F := F) hi hle
    exact ⟨h₁, _, by rw [Core.ofRaw, h₂], toInt_ofInt hle⟩

/-- What is asked of the strings of a text so that both readers decode them in the same way. -/
def Alike (ps : List Piece) : Prop := (∀ q ∈ ps, loose.piece q) ∧ NoUnicode ps

omit [F64 F] in
theorem ofKeys_alike {fs : List (List Piece × Raw)} {N : Str → Prop} (h : allFields N Alike fs) :
    Core.ofKeys fs = ofKeys fs := by
  induction fs with
  | nil => rfl
  | cons g fs ih =>
    obtain ⟨ps, t⟩ := g
    rw [Core.ofKeys, ofKeys, ih h.2.2, (textOf_eq h.1.1 h.1.2).1]

theorem ofVals_length (fs : List (List Piece × Raw)) :
    (ofKeys fs).length = (Core.ofVals fs : List (Value F)).length := by
  induction fs with
  | nil => rfl
  | cons g fs ih =>
    obtain ⟨ps, t⟩ := g
    rw [ofKeys, Core.ofVals, List.length_cons, List.length_cons, ih]

theorem fieldVals_length (fs : List (List Piece × Raw)) :
    (ofKeys fs).length = ((fieldList fs : List (Str × JsonValue F)).map Prod.snd).length := by
  rw [ofKeys_eq (F := F), List.length_map, List.length_map]

mutual

theorem agrees_ofRaw [F64.Exact F] : ∀ t : Raw, t.All (IsNumber Digits) Alike → Roomy t →
    Agrees t (ofRaw t : JsonValue F) (Core.ofRaw t)
  | .null, _, _ => ⟨rfl, rfl⟩
  | .bool _, _, _ => ⟨rfl, rfl⟩
  | .number _, h, _ => agrees_number h
  | .string ps, h, _ => ⟨textOf ps, rfl, congrArg Value.vStr (textOf_eq h.1 h.2).1.symm⟩
  | .array ts, h, hr => ⟨_, _, rfl, rfl, agrees_ofItems ts h hr⟩
  | .object fs, h, hr => by
    have hfst : ofKeys fs = (fieldList fs : List (Str × JsonValue F)).map Prod.fst := ofKeys_eq fs
    obtain ⟨m, hm, his, -⟩ := setAll_empty (fieldList fs : List (Str × JsonValue F))
      (hfst ▸ hr.1) (hfst ▸ hr.2.1)
    have hget : ∀ k, m.get k =
        some (lastVal (ofKeys fs) ((fieldList fs : List (Str × JsonValue F)).map Prod.snd) k) := by
      intro k
      rw [his.get_spec, lookup_insertAll_last, Finmap.lookup_empty, Option.or_none, ← hfst]
    refine ⟨ofKeys fs, m, ofKeys fs, Core.ofVals fs, ?_, ?_, fun k => ⟨_, hget k, ?_⟩, ?_⟩
    · rw [ofRaw, ofEntries_eq, hm]
    · rw [Core.ofRaw, ofKeys_alike h]
    · grind [lastVal_none, lastVal_isSome, fieldVals_length, ofVals_length]
    · exact agrees_ofFields fs h hr.2.2 _ _ fun k _ => ⟨hget k, rfl⟩

theorem agrees_ofItems [F64.Exact F] : ∀ ts : List Raw, allItems (IsNumber Digits) Alike ts →
    roomyItems ts → agreesItems ts (ofItems ts : List (JsonValue F)) (Core.ofItems ts)
  | [], _, _ => ⟨rfl, rfl⟩
  | t :: ts, h, hr => ⟨_, _, _, _, rfl, rfl, agrees_ofRaw t h.1 hr.1, agrees_ofItems ts h.2 hr.2⟩

theorem agrees_ofFields [F64.Exact F] : ∀ fs : List (List Piece × Raw),
    allFields (IsNumber Digits) Alike fs → roomyFields fs →
    ∀ (j : Str → Option (Option (JsonValue F))) (l : Str → Option (Value F)),
    (∀ k ∈ ofKeys fs,
      j k = some (lastVal (ofKeys fs) ((fieldList fs : List (Str × JsonValue F)).map Prod.snd) k) ∧
      l k = lastVal (ofKeys fs) (Core.ofVals fs) k) → agreesFields fs j l
  | [], _, _, _, _, _ => trivial
  | (ps, t) :: fs, h, hr, j, l, hjl => by
    have hlast : ∀ {α : Type} (v : α) vs k, lastVal (ofKeys ((ps, t) :: fs)) (v :: vs) k =
        (lastVal (ofKeys fs) vs k).or (if textOf ps = k then some v else none) := fun _ _ _ => rfl
    refine ⟨fun hnew => ?_, agrees_ofFields fs h.2.2 hr.2 j l fun k hk => ?_⟩
    · obtain ⟨hj, hl⟩ := hjl (textOf ps) (List.mem_cons_self ..)
      refine ⟨ofRaw t, Core.ofRaw t, hj.trans ?_, hl.trans ?_, agrees_ofRaw t h.2.1 hr.1⟩
      · rw [fieldList, List.map_cons, List.map_cons, hlast, lastVal_none hnew, if_pos rfl]
        rfl
      · rw [Core.ofVals, hlast, lastVal_none hnew, if_pos rfl]
        rfl
    · -- a key that stands again further on has its value there
      obtain ⟨hj, hl⟩ := hjl k (List.mem_cons_of_mem _ hk)
      refine ⟨hj.trans ?_, hl.trans ?_⟩
      · rw [fieldList, List.map_cons, List.map_cons, hlast, Option.or_of_isSome]
        · rfl
        · exact lastVal_isSome (fieldVals_length fs) hk
      · rw [Core.ofVals, hlast, Option.or_of_isSome]
        exact lastVal_isSome (ofVals_length fs) hk

end

/-! Whole texts. -/

variable (F) in
def wide : Dialect := { vpDialect F with piece := loose.piece }

theorem wide_of_loose {d : Nat} {s : Str} {t : Raw} (h : IsText loose d s t) : IsText (wide F) d s t :=
  h.change le_rfl (h.all (fun _ hn => vpNumber_of_number F hn) fun _ hps => hps)

theorem wide_of_vp {d : Nat} {s : Str} {t : Raw} (h : IsText (vpDialect F) d s t) :
    IsText (wide F) d s t :=
  h.change le_rfl (h.all (fun _ hn => hn) fun _ hps q hq => loose_of_vpPiece (hps q hq))

def Integral (t : Raw) : Prop := t.All (fun tok => ∀ b ∈ tok, b ≠ 46 ∧ b ≠ 101 ∧ b ≠ 69) fun _ => True

/-- No string of the text has a `\u` escape, and the tables have room for its keys. -/
def Decoded (t : Raw) : Prop := t.All (fun _ => True) NoUnicode ∧ Roomy t

/-- No number of the text starts with a plus sign, and four digits stand behind every `\u`. -/
def Common (t : Raw) : Prop := t.All (fun tok => tok.head? ≠ some 43) fun ps => ∀ q ∈ ps, VpPiece q

/-- Where both readers return `Ok`, they return the same tree; a text without fractions and
exponents, nested no deeper than 128, is accepted by both of them or by neither. -/
theorem readers_agree [F64.Exact F] (s : Str) :
    ((∀ d t, IsText (wide F) d s t → Decoded t) → ∀ (v : JsonValue F) (w : Value F) (p q : Cursor),
      parse s = .ok v p → fromJson s = .ok w q → ∃ d t, IsText (wide F) d s t ∧ Agrees t v w) ∧
    ((∀ d t, IsText (wide F) d s t → Common t) →
      (∀ d t, IsText (wide F) d s t → Integral t ∧ t.depth ≤ 128) →
      ((∃ (v : JsonValue F) (p : Cursor), parse s = .ok v p) ↔
        ∃ (w : Value F) (q : Cursor), fromJson s = .ok w q)) := by
  refine ⟨fun hs v w p q hv hw => ?_, fun hs hclaim => ⟨?_, ?_⟩⟩
  · obtain ⟨t, ht, rfl⟩ := text_of_parse hv
    obtain ⟨hu, hroom⟩ := hs _ _ (wide_of_loose ht)
    have hall : t.All (IsNumber Digits) Alike :=
      (ht.all (N := IsNumber Digits) (fun _ hn => hn) fun _ hps => hps).zip
        (fun _ hn _ => hn) (fun _ hps hno => ⟨hps, hno⟩) t hu
    have hvp : IsText (vpDialect F) 128 s t := ht.change le_rfl
      (hall.zip (fun _ hn _ => vpNumber_of_number F hn) (fun _ hps _ => (textOf_eq hps.1 hps.2).2) t hall)
    obtain ⟨q', hq⟩ := fromJson_of_text hvp
    obtain ⟨rfl, -⟩ := Outcome.ok.inj (hw.symm.trans hq)
    exact ⟨128, t, wide_of_loose ht, agrees_ofRaw t hall hroom⟩
  · rintro ⟨v, p, hv⟩
    obtain ⟨t, ht, -⟩ := text_of_parse hv
    have hcommon := hs _ _ (wide_of_loose ht)
    have hvp : IsText (vpDialect F) 128 s t := ht.change le_rfl
      ((ht.all (fun _ hn => vpNumber_of_number F hn) (fun _ _ => trivial)).zip
        (fun _ hn _ => hn) (fun _ _ hps => hps) t hcommon)
    obtain ⟨q, hq⟩ := fromJson_of_text hvp
    exact ⟨_, q, hq⟩
  · rintro ⟨w, q, hw⟩
    obtain ⟨d, t, ht, -⟩ := text_of_fromJson hw
    have hcommon := hs _ _ (wide_of_vp ht)
    obtain ⟨hint, hdepth⟩ := hclaim _ _ (wide_of_vp ht)
    have hmarks : t.All (fun tok => tok.head? ≠ some 43 ∧ ∀ b ∈ tok, b ≠ 46 ∧ b ≠ 101 ∧ b ≠ 69)
        (fun _ => True) :=
      hcommon.zip (fun _ h₁ h₂ => ⟨h₁, h₂⟩) (fun _ _ _ => trivial) t hint
    have hnum : t.All (IsNumber Digits) (fun ps => ∀ q ∈ ps, VpPiece q) :=
      (ht.all (N := (vpDialect F).number) (fun _ hn => hn) (fun _ hps => hps)).zip
        (fun _ hn h => number_of_vpNumber F hn h.1 h.2) (fun _ hps _ => hps) t hmarks
    have hloose : IsText loose 128 s t := (ht.within hdepth).change le_rfl
      (hnum.zip (fun _ hn _ => hn) (fun _ hps _ q hq => loose_of_vpPiece (hps q hq)) t hnum)
    obtain ⟨p, hp⟩ := parse_of_text (F := F) hloose
    exact ⟨_, p, hp⟩

end Agree

theorem reading_minus {D : Dialect} {d : Nat} {t : Raw} (h : IsText D d [91, 45, 49, 50, 93] t) :
    t = .array [.number [45, 49, 50]] := by
  obtain ⟨s, hs, hd⟩ : ∃ s, [91, 45, 49, 50, 93] = s ∧ Derives D d (.value t) s :=
    ⟨_, rfl, h.derives (b := 91) (c := 93) (y := [91, 45, 49, 50]) rfl (by decide) rfl (by decide)⟩
  have hcut : ∀ {x : Str}, [91, 45, 49, 50, 93] = (91 : UInt8) :: (x ++ [93]) → x = [45, 49, 50] := by
    intro x hx
    have htail : [45, 49, 50] ++ [93] = x ++ [93] := (List.cons.inj hx).2
    exact (List.append_cancel_right htail).symm
  cases hd with
  | null => cases hs
  | tru => cases hs
  | fls => cases hs
  | number hn =>
    subst hs
    exact absurd (D.numBytes _ hn 91 (List.mem_cons_self ..)) (by decide)
  | string => cases hs
  | emptyArray hw =>
    obtain rfl := hcut hs
    exact absurd (hw 45 (by decide)) (by decide)
  | array hi =>
    have hs' := hcut hs
    cases hi with
    | lastItem hw hv hw' =>
      have htext : IsText D _ [45, 49, 50] _ := ⟨_, _, _, hs'.symm, hw, hw', hv⟩
      rw [(number_of_text htext (by decide) (by decide)).1]
    | item =>
      have hcomma : (44 : UInt8) ∈ ([45, 49, 50] : Str) := by
        rw [← hs']
        simp
      grind
  | emptyObject => cases hs
  | object => cases hs

/-- The array `[-12]` is read alike. -/
theorem readers_agree_minus :
    (∃ d t, IsText (wide Int) d [91, 45, 49, 50, 93] t ∧
      Agrees t (.array [.number (-12)]) (.vList [.vInt (-12)])) ∧
    ((∃ (v : JsonValue Int) (p : Cursor), parse [91, 45, 49, 50, 93] = .ok v p) ↔
      ∃ (w : Value Int) (q : Cursor), fromJson [91, 45, 49, 50, 93] = .ok w q) := by
  refine ⟨(readers_agree [91, 45, 49, 50, 93]).1 (fun d t h => ?_) _ _ ⟨[], 5⟩ ⟨[], 5⟩ rfl rfl,
    (readers_agree [91, 45, 49, 50, 93]).2 (fun d t h => ?_) fun d t h => ?_⟩
  · rw [reading_minus h]
    exact ⟨⟨trivial, trivial⟩, trivial, trivial⟩
  · rw [reading_minus h]
    exact ⟨show ([45, 49, 50] : Str).head? ≠ some 43 by decide, trivial⟩
  · rw [reading_minus h]
    exact ⟨⟨show ∀ b ∈ ([45, 49, 50] : Str), b ≠ 46 ∧ b ≠ 101 ∧ b ≠ 69 by simp, trivial⟩, by decide⟩

def escaped : Str := [34, 92, 117, 48, 48, 52, 49, 34]

def plusSign : Str := [43, 49]

/-- The letter `A` as an escape is read as six bytes and as one byte; four letters behind `\u` are
taken by one reader only, and a plus sign by the other one only. -/
theorem readers_differ :
    (∃ (v : JsonValue Int) (w : Value Int) (p q : Cursor), parse escaped = .ok v p ∧
      fromJson escaped = .ok w q ∧ ¬ ∃ d t, IsText (wide Int) d escaped t ∧ Agrees t v w) ∧
    ((∀ d t, IsText (wide Int) d noHex t → Integral t ∧ t.depth ≤ 128) ∧
      (∃ (v : JsonValue Int) (p : Cursor), parse noHex = .ok v p) ∧
      ¬ ∃ (w : Value Int) (q : Cursor), fromJson noHex = .ok w q) ∧
    ((∀ d t, IsText (wide Int) d plusSign t → Integral t ∧ t.depth ≤ 128) ∧
      (∃ (w : Value Int) (q : Cursor), fromJson plusSign = .ok w q) ∧
      ¬ ∃ (v : JsonValue Int) (p : Cursor), parse plusSign = .ok v p) := by
  refine ⟨⟨.text [92, 117, 48, 48, 52, 49], .vStr [65], ⟨[], 8⟩, ⟨[], 8⟩, rfl, rfl, ?_⟩,
    ⟨fun d t h => ?_, ⟨.text [92, 117, 122, 122, 122, 122], ⟨[], 8⟩, rfl⟩, ?_⟩,
    ⟨fun d t h => ?_, ⟨.vFloat 1, ⟨[], 2⟩, rfl⟩, ?_⟩⟩
  · rintro ⟨d, t, ht, h⟩
    obtain ⟨ps, -, -, rfl⟩ := pieces_of_quoted (s := [92, 117, 48, 48, 52, 49]) ht
    obtain ⟨s, hv, hw⟩ := h
    cases hv
    cases hw
  · obtain ⟨ps, -, -, rfl⟩ := pieces_of_quoted (s := [92, 117, 122, 122, 122, 122]) h
    exact ⟨trivial, Nat.zero_le _⟩
  · rintro ⟨w, q, h⟩
    have : (fromJson noHex : Outcome (Value Int)) = .err "json: bad u hex" ⟨[122, 122, 122, 122, 34], 3⟩ :=
      rfl
    rw [this] at h
    cases h
  · obtain ⟨rfl, -⟩ := number_of_text h (by decide) (by decide)
    exact ⟨show ∀ b ∈ ([43, 49] : Str), b ≠ 46 ∧ b ≠ 101 ∧ b ≠ 69 by simp, by decide⟩
  · rintro ⟨v, p, h⟩
    cases h

end LsLang.Text.Json
