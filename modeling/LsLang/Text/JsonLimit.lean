import LsLang.Text.JsonReader

/-! Where the strings and the numbers of a text stay within what a `Str` holds, the parser does what it does without
that limit. -/

namespace LsLang.Text.Json

open LsLang.Core JsonText

inductive Outside (s : Str) : Str → Prop
  | whole : Outside s s
  | byte {b : UInt8} {r : Str} (hb : b ≠ 34) (h : Outside s (b :: r)) : Outside s r
  | string {ps : List Piece} {r : Str} (hp : ∀ q ∈ ps, loose.piece q) (h : Outside s (quoted ps ++ r)) : Outside s r

/-- No string of the text, ended or not, stands for more than `room` bytes, no number has more, and the positions are
`int`s. -/
structure Within (room : Nat) (s : Str) : Prop where
  string : ∀ ps x, (∀ q ∈ ps, loose.piece q) → Outside s (34 :: (body ps ++ x)) → (textOf ps).length ≤ room
  number : ∀ tok x, IsNumber Digits tok → Outside s (tok ++ x) → tok.length ≤ room
  pos : s.length + 4 < 2 ^ 31

/-! Short texts. -/

theorem length_pieceText (q : Piece) : (pieceText q).length ≤ q.bytes.length := by
  cases q with
  | plain => exact le_rfl
  | unicode => exact le_rfl
  | escape e =>
    rw [pieceText, Piece.bytes]
    cases escape e with
    | none => exact Nat.zero_le _
    | some => exact Nat.le_succ 1

theorem length_textOf (ps : List Piece) : (textOf ps).length ≤ (body ps).length := by
  induction ps with
  | nil => exact le_rfl
  | cons q ps ih =>
    have hq := length_pieceText q
    have htext : textOf (q :: ps) = pieceText q ++ textOf ps := rfl
    have hbody : body (q :: ps) = q.bytes ++ body ps := rfl
    rw [htext, hbody, List.length_append, List.length_append]
    omega

theorem Outside.length_le {s r : Str} (h : Outside s r) : r.length ≤ s.length := by
  induction h with
  | whole => exact le_rfl
  | byte _ _ ih =>
    rw [List.length_cons] at ih
    omega
  | string _ _ ih =>
    rw [List.length_append] at ih
    omega

theorem within_of_length {room : Nat} {s : Str} (h : s.length ≤ room) (hpos : s.length + 4 < 2 ^ 31) : Within room s where
  string ps x _ ho := by
    have hlen := ho.length_le
    have htext := length_textOf ps
    rw [List.length_cons, List.length_append] at hlen
    omega
  number tok x _ ho := by
    have hlen := ho.length_le
    rw [List.length_append] at hlen
    omega
  pos := hpos

/-! What is read leads from outside to outside. -/

theorem Outside.skip {s x r : Str} (hx : ∀ b ∈ x, b ≠ 34) (h : Outside s (x ++ r)) : Outside s r := by
  induction x with
  | nil => exact h
  | cons b x ih => exact ih (fun a ha => hx a (List.mem_cons_of_mem _ ha)) (.byte (hx b (List.mem_cons_self ..)) h)

theorem Outside.ws {s w r : Str} (hw : Ws w) (h : Outside s (w ++ r)) : Outside s r := by
  refine h.skip fun b hb => ?_
  rintro rfl
  exact absurd (hw 34 hb) (by decide)

theorem Outside.derives {d : Nat} {f : Form} {s x r : Str} (hd : Derives loose d f x) (h : Outside s (x ++ r)) :
    Outside s r := by
  induction hd generalizing r with
  | null => exact h.skip (by simp)
  | tru => exact h.skip (by simp)
  | fls => exact h.skip (by simp)
  | number hn =>
    refine h.skip fun b hb => ?_
    rintro rfl
    exact absurd (loose.numBytes _ hn 34 hb) (by decide)
  | string hp => exact .string hp h
  | emptyArray hw =>
    rw [List.cons_append, List.append_assoc] at h
    exact .byte (by decide) (Outside.ws hw (.byte (by decide) h))
  | array _ ih =>
    rw [List.cons_append, List.append_assoc] at h
    exact .byte (by decide) (ih (.byte (by decide) h))
  | emptyObject hw =>
    rw [List.cons_append, List.append_assoc] at h
    exact .byte (by decide) (Outside.ws hw (.byte (by decide) h))
  | object _ ih =>
    rw [List.cons_append, List.append_assoc] at h
    exact .byte (by decide) (ih (.byte (by decide) h))
  | lastItem hw _ hw' ih =>
    simp only [List.append_assoc] at h
    exact .ws hw' (ih (.ws hw h))
  | item hw _ hw' _ ih iht =>
    simp only [List.append_assoc, List.cons_append] at h
    exact iht (.byte (by decide) (.ws hw' (ih (.ws hw h))))
  | lastField hw hp hw₁ hw₂ _ hw' ih =>
    simp only [List.append_assoc, List.cons_append] at h
    exact .ws hw' (ih (.ws hw₂ (.byte (by decide) (.ws hw₁ (.string hp (.ws hw h))))))
  | field hw hp hw₁ hw₂ _ hw' _ ih iht =>
    simp only [List.append_assoc, List.cons_append] at h
    exact iht (.byte (by decide) (.ws hw' (ih (.ws hw₂ (.byte (by decide) (.ws hw₁ (.string hp (.ws hw h))))))))

theorem Outside.eats {s x : Str} {p q : Cursor} (he : p.Eats x q) (h : Outside s p.rest) : Outside s (x ++ q.rest) :=
  he.1 ▸ h

structure At (s : Str) (p : Cursor) : Prop where
  outside : Outside s p.rest
  pos : p.pos + p.rest.length = s.length

theorem At.eats {s x : Str} {p q : Cursor} (h : At s p) (he : p.Eats x q) (hx : Outside s (x ++ q.rest) → Outside s q.rest) :
    At s q := by
  refine ⟨hx (h.outside.eats he), ?_⟩
  have hlen := h.pos
  rw [he.1, List.length_append] at hlen
  rw [he.2]
  omega

theorem At.ws {s : Str} {p : Cursor} (h : At s p) : At s p.ws := by
  obtain ⟨w, hw, he⟩ := p.ws_eats
  exact h.eats he (.ws hw)

theorem At.byte {s : Str} {p : Cursor} {c : UInt8} (h : At s p) (hp : peek p = some c) (hc : c ≠ 34) :
    At s (p.advance 1) := h.eats (eats_of_peek hp) (.byte hc)

/-! Strings. -/

/-- What a string that goes on here can stand for has room behind `out`. -/
def Holds (room : Nat) (rest out : Str) : Prop :=
  ∀ ps x, (∀ q ∈ ps, loose.piece q) → rest = body ps ++ x → out.length + (textOf ps).length ≤ room

theorem Holds.piece {room : Nat} {q : Piece} {rest out : Str} (hq : loose.piece q) (h : Holds room (q.bytes ++ rest) out) :
    Holds room rest (out ++ pieceText q) ∧ holds (some room) (out.length + (pieceText q).length) = true := by
  have hcons : ∀ ps, textOf (q :: ps) = pieceText q ++ textOf ps := fun _ => rfl
  have hroom : ∀ ps x, (∀ q ∈ ps, loose.piece q) → rest = body ps ++ x →
      out.length + (pieceText q).length + (textOf ps).length ≤ room := by
    intro ps x hps hrest
    have hle := h (q :: ps) x (by grind) (by
      rw [hrest, ← List.append_assoc]
      rfl)
    rw [hcons, List.length_append] at hle
    omega
  refine ⟨fun ps x hps hrest => ?_, decide_eq_true ?_⟩
  · rw [List.length_append]
    exact hroom ps x hps hrest
  · exact (Nat.le_add_right _ _).trans (hroom [] rest (by grind) rfl)

theorem parseStringLoop_within {room : Nat} {rest : Str} {pos : Nat} {out : Str} (h : Holds room rest out)
    (hpos : pos + rest.length + 4 < 2 ^ 31) :
    parseStringLoop (some room) rest pos out = parseStringLoop none rest pos out := by
  have escaped : ∀ {e b : UInt8}, escape e = some b → loose.piece (.escape e) ∧ pieceText (.escape e) = [b] := by
    intro e b hb
    refine ⟨(escape_isSome e).mp (Option.isSome_iff_exists.mpr ⟨b, hb⟩), ?_⟩
    rw [pieceText, hb]
    rfl
  fun_induction parseStringLoop (some room) rest pos out with
  | case1 => rfl
  | case2 =>
    rw [parseStringLoop.eq_def]
    exact (if_pos rfl).symm
  | case3 => rfl
  | case4 pos out e rest b hb _ _ ih =>
    obtain ⟨hq, hout⟩ := escaped hb
    have hloop := parseStringLoop_piece hq rest pos out
    rw [hout] at hloop
    refine (ih ?_ ?_).trans hloop.symm
    · exact hout ▸ (h.piece hq).1
    · grind
  -- where the limit stops the loop, the string would not be within it
  | case5 pos out e rest b hb =>
    obtain ⟨hq, hout⟩ := escaped hb
    have hroom := (@Holds.piece _ _ rest _ hq h).2
    rw [hout] at hroom
    exact absurd hroom ‹_›
  | case6 pos out _ h₁ h₂ h₃ h₄ rest _ _ _ ih =>
    have hloop := @parseStringLoop_piece (.unicode h₁ h₂ h₃ h₄) trivial rest pos out
    refine (ih ?_ ?_).trans hloop.symm
    · exact (h.piece (q := .unicode h₁ h₂ h₃ h₄) trivial).1
    · grind
  | case7 pos out _ h₁ h₂ h₃ h₄ rest =>
    exact absurd (@Holds.piece _ (.unicode h₁ h₂ h₃ h₄) rest _ trivial h).2 ‹_›
  -- fewer than four bytes are left behind the `u`
  | case8 pos out rest _ hshort hne hu =>
    rw [parseStringLoop.eq_def]
    dsimp only
    rw [if_neg hne, if_pos rfl, hu]
    rcases rest with _ | ⟨h₁, _ | ⟨h₂, _ | ⟨h₃, _ | ⟨h₄, rest⟩⟩⟩⟩
    · rfl
    · rfl
    · rfl
    · rfl
    · exact (hshort h₁ h₂ h₃ h₄ rest rfl).elim
  | case9 pos out rest hint =>
    exact absurd (decide_eq_true (show pos + 6 < 2 ^ 31 by grind)) hint
  | case10 pos out next rest hnone hu hne =>
    rw [parseStringLoop.eq_def]
    dsimp only
    rw [if_neg hne, if_pos rfl, hnone]
    dsimp only
    rw [if_neg hu]
  | case11 c rest pos out h₃₄ h₉₂ _ ih =>
    have hloop := @parseStringLoop_piece (.plain c) ⟨h₃₄, h₉₂⟩ rest pos out
    refine (ih ?_ ?_).trans hloop.symm
    · exact (h.piece (q := .plain c) ⟨h₃₄, h₉₂⟩).1
    · grind
  | case12 c rest pos out h₃₄ h₉₂ =>
    exact absurd (@Holds.piece _ (.plain c) rest _ ⟨h₃₄, h₉₂⟩ h).2 ‹_›

variable {room : Nat} {s : Str}

theorem parseStringRaw_within (hs : Within room s) {p : Cursor} (hp : At s p) :
    parseStringRaw (some room) p = parseStringRaw none p := by
  obtain ⟨rest, pos⟩ := p
  cases rest with
  | nil => rfl
  | cons c rest =>
    have hpos : pos + (rest.length + 1) = s.length := hp.pos
    have hlen := hs.pos
    unfold parseStringRaw
    dsimp only
    split
    · rfl
    next hc =>
    obtain rfl := not_not.mp hc
    refine parseStringLoop_within ?_ ?_
    · rintro ps x hps hrest
      have hroom := hs.string ps x hps (hrest ▸ hp.outside)
      rwa [List.length_nil, Nat.zero_add]
    · rw [advance_cons]
      dsimp only
      omega

section Parse

variable {F : Type} [F64 F]

theorem parseNumber_within (hs : Within room s) {p : Cursor} (hp : At s p) :
    (parseNumber (some room) p : Outcome (JsonValue F)) = parseNumber none p := by
  unfold parseNumber
  dsimp only
  generalize hminus : (if peek p = some (ch '-') then p.advance 1 else p) = p₀
  split
  · rfl
  next hd =>
  split
  · rfl
  · rfl
  next hfrac =>
  split
  · rfl
  · rfl
  next q hexp =>
  obtain ⟨tok, htok, he⟩ := number_eats hminus hd hfrac hexp
  have hroom : holds (some room) tok.length = true := decide_eq_true (hs.number tok _ htok (hp.outside.eats he))
  rw [he.2, Nat.add_sub_cancel_left, he.1, List.take_left, if_pos hroom]
  rfl

variable (F) in
/-- With `n` units of fuel the limit makes no difference. -/
structure Agree (room : Nat) (s : Str) (n : Nat) : Prop where
  value : ∀ depth p, At s p → parseValue (F := F) (some room) n depth p = parseValue none n depth p
  array : ∀ depth p, At s p → peek p = some 91 → parseArray (F := F) (some room) n depth p = parseArray none n depth p
  items : ∀ depth (vs : List (JsonValue F)) p, At s p →
    parseItems (some room) n depth vs p = parseItems none n depth vs p
  object : ∀ depth p, At s p → peek p = some 123 →
    parseObject (F := F) (some room) n depth p = parseObject none n depth p
  fields : ∀ depth ks (m : Option (Map Str (JsonValue F))) p, At s p →
    parseFields (some room) n depth ks m p = parseFields none n depth ks m p

variable {n : Nat}

theorem Agree.valueStep (hs : Within room s) (ih : Agree F room s n) (depth : Nat) (p : Cursor) (hp : At s p) :
    parseValue (F := F) (some room) (n + 1) depth p = parseValue none (n + 1) depth p := by
  have hws := hp.ws
  rw [parseValue, parseValue]
  split
  · rfl
  dsimp only
  rw [parseStringRaw_within hs hws, parseNumber_within hs hws]
  cases hc : peek p.ws with
  | none => rfl
  | some c =>
    have harray : c = ch '[' → parseArray (F := F) (some room) n depth p.ws = parseArray none n depth p.ws :=
      fun h => ih.array depth p.ws hws (hc.trans (congrArg some h))
    have hobject : c = ch '\x7b' → parseObject (F := F) (some room) n depth p.ws = parseObject none n depth p.ws :=
      fun h => ih.object depth p.ws hws (hc.trans (congrArg some h))
    dsimp only
    grind

theorem Agree.arrayStep (ih : Agree F room s n) (depth : Nat) (p : Cursor) (hp : At s p) (hc : peek p = some 91) :
    parseArray (F := F) (some room) (n + 1) depth p = parseArray none (n + 1) depth p := by
  rw [parseArray, parseArray, ih.items depth [] _ (hp.byte hc (by decide)).ws]

theorem Agree.objectStep (ih : Agree F room s n) (depth : Nat) (p : Cursor) (hp : At s p) (hc : peek p = some 123) :
    parseObject (F := F) (some room) (n + 1) depth p = parseObject none (n + 1) depth p := by
  rw [parseObject, parseObject, ih.fields depth [] _ _ (hp.byte hc (by decide)).ws]

theorem At.value {p q : Cursor} {depth : Nat} {v : JsonValue F} (hp : At s p)
    (hv : parseValue none n depth p = .ok v q) : At s q := by
  obtain ⟨-, w, x, t, he, hw, hd, -⟩ := (sound none n).value _ _ _ _ hv
  refine hp.eats he fun h => ?_
  rw [List.append_assoc] at h
  exact .derives hd (.ws hw h)

theorem Agree.itemsStep (ih : Agree F room s n) (depth : Nat) (vs : List (JsonValue F)) (p : Cursor) (hp : At s p) :
    parseItems (some room) (n + 1) depth vs p = parseItems none (n + 1) depth vs p := by
  rw [parseItems, parseItems, ih.value (depth + 1) p hp]
  cases hv : parseValue (F := F) none n (depth + 1) p with
  | err => rfl
  | diverges => rfl
  | ok v q =>
    have hq := (hp.value hv).ws
    dsimp only
    split
    · next hc => exact ih.items _ _ _ (hq.byte hc (by decide)).ws
    · rfl

theorem Agree.fieldsStep (hs : Within room s) (ih : Agree F room s n) (depth : Nat) (ks : List Str)
    (m : Option (Map Str (JsonValue F))) (p : Cursor) (hp : At s p) :
    parseFields (some room) (n + 1) depth ks m p = parseFields none (n + 1) depth ks m p := by
  rw [parseFields, parseFields, parseStringRaw_within hs hp.ws]
  cases hstr : parseStringRaw none p.ws with
  | err => rfl
  | diverges => rfl
  | ok key p₁ =>
    obtain ⟨ps, hps, he, -⟩ := parseStringRaw_ok hstr
    have hp₁ := (hp.ws.eats he (.string hps)).ws
    dsimp only
    split
    · rfl
    next hcolon =>
    have hp₂ := (hp₁.byte (not_not.mp hcolon) (by decide)).ws
    rw [ih.value (depth + 1) _ hp₂]
    cases hv : parseValue (F := F) none n (depth + 1) (p₁.ws.advance 1).ws with
    | err => rfl
    | diverges => rfl
    | ok v q =>
      have hq := (hp₂.value hv).ws
      dsimp only
      split
      · next hc => exact ih.fields _ _ _ _ (hq.byte hc (by decide))
      · rfl

variable (F) in
theorem agree (hs : Within room s) (n : Nat) : Agree F room s n := by
  induction n with
  | zero => exact ⟨fun _ _ _ => rfl, fun _ _ _ _ => rfl, fun _ _ _ _ => rfl, fun _ _ _ _ => rfl, fun _ _ _ _ _ => rfl⟩
  | succ n ih => exact ⟨ih.valueStep hs, ih.arrayStep, ih.itemsStep, ih.objectStep, ih.fieldsStep hs⟩

theorem parseIn_within (hs : Within room s) : (parseIn (some room) s : Outcome (JsonValue F)) = parse s := by
  have hat : At s ⟨s, 0⟩ := ⟨.whole, Nat.zero_add _⟩
  unfold parse parseIn
  rw [(agree F hs _).value 0 _ hat]

end Parse

end LsLang.Text.Json
