import LsLang.Text.JsonLimit

/-! Which texts `parse` accepts, and that it always comes to an end inside its text. -/

namespace LsLang.Text.Json

open LsLang.Core JsonText

theorem parseStringLoop_ended (rest : Str) (pos : Nat) (out : Str) :
    (parseStringLoop none rest pos out).Ended ⟨rest, pos⟩ := by
  fun_induction parseStringLoop none rest pos out with
  | case1 => exact ⟨[], .refl _⟩
  | case2 => exact ⟨[34], rfl, rfl⟩
  | case3 => exact ⟨[92], rfl, rfl⟩
  | case4 pos out e rest b hb _ _ ih => exact ih.of_eats (s := [92, e]) ⟨rfl, rfl⟩
  | case6 pos out _ h₁ h₂ h₃ h₄ rest _ _ _ ih =>
    exact ih.of_eats (s := [92, 117, h₁, h₂, h₃, h₄]) ⟨rfl, rfl⟩
  | case8 => exact ⟨[92, 117], rfl, rfl⟩
  | case10 pos out e => exact ⟨[92, e], rfl, rfl⟩
  | case11 c rest pos out _ _ _ ih => exact ih.of_eats (s := [c]) ⟨rfl, rfl⟩
  -- without a limit there is always room
  | case5 => exact absurd rfl ‹¬holds none _ = true›
  | case7 => exact absurd rfl ‹¬holds none _ = true›
  | case9 => exact absurd rfl ‹¬inInt none _ = true›
  | case12 => exact absurd rfl ‹¬holds none _ = true›

theorem parseStringRaw_ended (p : Cursor) : (parseStringRaw none p).Ended p := by
  obtain ⟨rest, pos⟩ := p
  cases rest with
  | nil => exact ⟨[], .refl _⟩
  | cons c rest =>
    unfold parseStringRaw
    dsimp only
    split
    · exact ⟨[c], rfl, rfl⟩
    · exact (parseStringLoop_ended _ _ _).of_eats (s := [c]) ⟨rfl, rfl⟩

theorem parseFraction_ended (p : Cursor) : (parseFraction p).Ended p := by
  unfold parseFraction
  split
  · next hp =>
    dsimp only
    split
    · exact ⟨_, eats_of_peek hp⟩
    · obtain ⟨ds, _, he, _⟩ := digits_eats (p.advance 1)
      exact ⟨_, (eats_of_peek hp).trans he⟩
  · exact ⟨[], .refl p⟩

theorem parseExponent_ended (p : Cursor) : (parseExponent p).Ended p := by
  unfold parseExponent
  split
  · next hp =>
    obtain ⟨c, hc⟩ : ∃ c, p.Eats [c] (p.advance 1) := by
      rcases hp with hp | hp
      · exact ⟨_, eats_of_peek hp⟩
      · exact ⟨_, eats_of_peek hp⟩
    obtain ⟨sg, _, hs⟩ := skipSign_eats (p.advance 1)
    dsimp only
    split
    · exact ⟨_, hc.trans hs⟩
    · obtain ⟨ds, _, he, _⟩ := digits_eats (skipSign (p.advance 1))
      exact ⟨_, hc.trans (hs.trans he)⟩
  · exact ⟨[], .refl p⟩

section Parse

variable {F : Type} [F64 F]

theorem parseNumber_ended (p : Cursor) : (parseNumber none p : Outcome (JsonValue F)).Ended p := by
  have hsign : ∃ sg, p.Eats sg (if peek p = some (ch '-') then p.advance 1 else p) := by
    split
    · next hp => exact ⟨_, eats_of_peek hp⟩
    · exact ⟨[], .refl p⟩
  unfold parseNumber
  dsimp only
  generalize (if peek p = some (ch '-') then p.advance 1 else p) = p₀ at hsign
  obtain ⟨sg, he₀⟩ := hsign
  split
  · exact ⟨sg, he₀⟩
  obtain ⟨i, _, he₁, _⟩ := digits_eats p₀
  have hf := (parseFraction_ended (digits p₀)).of_eats (he₀.trans he₁)
  split
  · next hfrac =>
    rw [hfrac] at hf
    exact hf
  · next hfrac =>
    rw [hfrac] at hf
    exact hf
  next p₁ hfrac =>
  rw [hfrac] at hf
  obtain ⟨s, hs⟩ := hf
  have he := (parseExponent_ended p₁).of_eats hs
  split
  · next hexp =>
    rw [hexp] at he
    exact he
  · next hexp =>
    rw [hexp] at he
    exact he
  next p₂ hexp =>
  rw [hexp] at he
  rw [if_pos (by rfl)]
  split
  · exact he
  · exact he

omit [F64 F] in
theorem matchChars_ended {p : Cursor} {cs : List Char} {k : Nat} (hk : k = (lit cs).length)
    {v : JsonValue F} {e : String} :
    (if matchChars p cs then .ok v (p.advance k) else .err e p : Outcome (JsonValue F)).Ended p := by
  split
  · next h => exact ⟨_, matchChars_eats h hk⟩
  · exact ⟨[], .refl p⟩

variable (F) in
structure Total (n : Nat) : Prop where
  value : ∀ depth p, 3 * p.rest.length + 1 ≤ n → (parseValue none n depth p : Outcome (JsonValue F)).Ended p
  array : ∀ depth p, peek p = some 91 → 3 * p.rest.length ≤ n →
    (parseArray none n depth p : Outcome (JsonValue F)).Ended p
  items : ∀ depth (vs : List (JsonValue F)) p, 3 * p.rest.length + 2 ≤ n →
    (parseItems none n depth vs p).Ended p
  object : ∀ depth p, peek p = some 123 → 3 * p.rest.length ≤ n →
    (parseObject none n depth p : Outcome (JsonValue F)).Ended p
  fields : ∀ depth ks (m : Option (Map Str (JsonValue F))) p, 3 * p.rest.length + 2 ≤ n →
    (parseFields none n depth ks m p).Ended p

theorem eats_length {p q : Cursor} {s : Str} (h : p.Eats s q) :
    p.rest.length = s.length + q.rest.length := by
  rw [h.1, List.length_append]

theorem parseValue_length {n depth : Nat} {p q : Cursor} {v : JsonValue F}
    (h : parseValue none n depth p = .ok v q) : q.rest.length < p.rest.length := by
  obtain ⟨-, w, s, t, he, -, hd, -⟩ := (sound none n).value _ _ _ _ h
  obtain ⟨b, s', rfl, -⟩ := hd.head
  have := eats_length he
  grind

variable {n : Nat}

theorem Total.valueStep (ih : Total F n) (depth : Nat) (p : Cursor)
    (hn : 3 * p.rest.length + 1 ≤ n + 1) :
    (parseValue none (n + 1) depth p : Outcome (JsonValue F)).Ended p := by
  rw [parseValue]
  split
  · exact ⟨[], .refl p⟩
  obtain ⟨w, _, hws⟩ := p.ws_eats
  have hlen := eats_length hws
  refine Outcome.Ended.of_eats ?_ hws
  dsimp only
  generalize p.ws = p₀ at hlen
  split
  · exact ⟨[], .refl p₀⟩
  next c hc =>
  split
  · have hstr := parseStringRaw_ended p₀
    split
    · next h =>
      rw [h] at hstr
      exact hstr
    · next h =>
      rw [h] at hstr
      exact hstr
    · next h =>
      rw [h] at hstr
      exact hstr
  split
  · exact parseNumber_ended p₀
  split
  · exact matchChars_ended rfl
  split
  · exact matchChars_ended rfl
  split
  · exact matchChars_ended rfl
  split
  · next hb => exact ih.array depth p₀ (hc.trans (congrArg some hb)) (by omega)
  split
  · next hb => exact ih.object depth p₀ (hc.trans (congrArg some hb)) (by omega)
  · exact ⟨[], .refl p₀⟩

theorem Total.arrayStep (ih : Total F n) (depth : Nat) (p : Cursor) (hp : peek p = some 91)
    (hn : 3 * p.rest.length ≤ n + 1) :
    (parseArray none (n + 1) depth p : Outcome (JsonValue F)).Ended p := by
  obtain ⟨w, _, hws⟩ := (p.advance 1).ws_eats
  have he := (eats_of_peek hp).trans hws
  have hlen := eats_length he
  rw [List.length_append, List.length_singleton] at hlen
  refine Outcome.Ended.of_eats ?_ he
  rw [parseArray]
  split
  · next hc => exact ⟨_, eats_of_peek hc⟩
  · exact ih.items depth [] _ (by omega)

theorem Total.objectStep (ih : Total F n) (depth : Nat) (p : Cursor) (hp : peek p = some 123)
    (hn : 3 * p.rest.length ≤ n + 1) :
    (parseObject none (n + 1) depth p : Outcome (JsonValue F)).Ended p := by
  obtain ⟨w, _, hws⟩ := (p.advance 1).ws_eats
  have he := (eats_of_peek hp).trans hws
  have hlen := eats_length he
  rw [List.length_append, List.length_singleton] at hlen
  refine Outcome.Ended.of_eats ?_ he
  rw [parseObject]
  split
  · next hc => exact ⟨_, eats_of_peek hc⟩
  · exact ih.fields depth [] _ _ (by omega)

theorem Total.itemsStep (ih : Total F n) (depth : Nat) (vs : List (JsonValue F)) (p : Cursor)
    (hn : 3 * p.rest.length + 2 ≤ n + 1) : (parseItems none (n + 1) depth vs p).Ended p := by
  have hv := ih.value (depth + 1) p (by omega)
  rw [parseItems]
  split
  · grind
  · grind
  next v p₁ h =>
  rw [h] at hv
  obtain ⟨s, hs⟩ := hv
  obtain ⟨w, _, hws⟩ := p₁.ws_eats
  have he := hs.trans hws
  have hlen := parseValue_length h
  have hlen₁ := eats_length hws
  dsimp only
  split
  · next hc =>
    obtain ⟨w', _, hws'⟩ := (p₁.ws.advance 1).ws_eats
    have he' := (eats_of_peek hc).trans hws'
    have hlen₂ := eats_length he'
    rw [List.length_append, List.length_singleton] at hlen₂
    exact (ih.items depth _ _ (by omega)).of_eats (he.trans he')
  split
  · exact ⟨_, he⟩
  · next hc => exact ⟨_, he.trans (eats_of_peek (not_not.mp hc))⟩

theorem Total.fieldsStep (ih : Total F n) (depth : Nat) (ks : List Str)
    (m : Option (Map Str (JsonValue F))) (p : Cursor) (hn : 3 * p.rest.length + 2 ≤ n + 1) :
    (parseFields none (n + 1) depth ks m p).Ended p := by
  obtain ⟨w, _, hws⟩ := p.ws_eats
  have hstr := (parseStringRaw_ended p.ws).of_eats hws
  rw [parseFields]
  split
  · next h =>
    rw [h] at hstr
    exact hstr
  · next h =>
    rw [h] at hstr
    exact hstr
  next key p₁ h =>
  rw [h] at hstr
  obtain ⟨s, hs⟩ := hstr
  obtain ⟨w₁, _, hws₁⟩ := p₁.ws_eats
  have he₁ := hs.trans hws₁
  dsimp only
  split
  · exact ⟨_, he₁⟩
  next hcolon =>
  obtain ⟨w₂, _, hws₂⟩ := (p₁.ws.advance 1).ws_eats
  have he₂ := he₁.trans ((eats_of_peek (not_not.mp hcolon)).trans hws₂)
  have hlen₂ := eats_length he₂
  simp only [List.length_append, List.length_singleton] at hlen₂
  have hv := (ih.value (depth + 1) (p₁.ws.advance 1).ws (by omega)).of_eats he₂
  split
  · grind
  · grind
  next v p₂ h =>
  rw [h] at hv
  obtain ⟨s₂, hs₂⟩ := hv
  obtain ⟨w', _, hws'⟩ := p₂.ws_eats
  have he := hs₂.trans hws'
  have hlen := parseValue_length h
  have hlen' := eats_length hws'
  split
  · next hc =>
    have hlen₃ := eats_length (eats_of_peek hc)
    rw [List.length_singleton] at hlen₃
    exact (ih.fields depth _ _ _ (by omega)).of_eats (he.trans (eats_of_peek hc))
  split
  · exact ⟨_, he⟩
  · next hc => exact ⟨_, he.trans (eats_of_peek (not_not.mp hc))⟩

theorem total (n : Nat) : Total F n := by
  induction n with
  | zero =>
    refine ⟨?_, ?_, ?_, ?_, ?_⟩
    · grind
    · intro depth p hp hn
      have := eats_length (eats_of_peek hp)
      grind
    · grind
    · intro depth p hp hn
      have := eats_length (eats_of_peek hp)
      grind
    grind
  | succ n ih =>
    exact ⟨ih.valueStep, ih.arrayStep, ih.itemsStep, ih.objectStep, ih.fieldsStep⟩

def noHex : Str := [34, 92, 117, 122, 122, 122, 122, 34]

theorem number_of_text {D : Dialect} {d : Nat} {s : Str} {t : Raw} (h : IsText D d s t) (hne : s ≠ [])
    (hall : s.all isNumByte = true) : t = .number s ∧ D.number s := by
  have hs := List.all_eq_true.mp hall
  obtain ⟨b, x, rfl⟩ := List.exists_cons_of_ne_nil hne
  have hws : ∀ c ∈ b :: x, isWs c = false := by
    intro c hc
    by_contra hw
    have := hs c hc
    rw [not_numByte_of_ws (Bool.not_eq_false _ ▸ hw)] at this
    cases this
  have hd := h.derives rfl (hws b (List.mem_cons_self ..))
    (List.dropLast_append_getLast (List.cons_ne_nil b x)).symm (hws _ (List.getLast_mem _))
  have hb := hs b (List.mem_cons_self ..)
  cases hd with
  | number hn => exact ⟨rfl, hn⟩
  | null => cases hb
  | tru => cases hb
  | fls => exact absurd (hs 102 (List.mem_cons_self ..)) (by decide)
  | string => cases hb
  | emptyArray => cases hb
  | array => cases hb
  | emptyObject => cases hb
  | object => cases hb

theorem pieces_of_quoted {D : Dialect} {d : Nat} {s : Str} {t : Raw}
    (h : IsText D d (34 :: (s ++ [34])) t) :
    ∃ ps, (∀ p ∈ ps, D.piece p) ∧ body ps = s ∧ t = .string ps := by
  generalize hs : 34 :: (s ++ [34]) = x at h
  have hd := h.derives (b := 34) (c := 34) (y := 34 :: s) hs.symm (by decide) hs.symm (by decide)
  cases hd with
  | null => cases hs
  | tru => cases hs
  | fls => cases hs
  | number hn =>
    subst hs
    have := D.numBytes _ hn 34 (List.mem_cons_self ..)
    cases this
  | @string _ ps hp => exact ⟨ps, hp, (List.append_cancel_right (List.cons.inj hs).2).symm, rfl⟩
  | emptyArray => cases hs
  | array => cases hs
  | emptyObject => cases hs
  | object => cases hs

end Parse

end LsLang.Text.Json
