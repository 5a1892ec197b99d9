import LsLang.Regex.EmittedGroups

/-! Quantifiers and counts behind an atom, and rows of pieces: the parser emits the code of what is read. -/

namespace LsLang.Regex

section Piece

variable {prog : List ReInstr} {re re' : ReHandle} {x : Node} {lazy : Bool}

theorem le_length_countCode {n m : Int} (h : ¬ (n = 0 ∧ m = 0)) (lazy : Bool) (c : Code) :
    c.length ≤ (countCode n m lazy c).length := by
  have hq : ∀ q, c.length ≤ (quantCode q lazy c).length := fun q => by
    rw [length_quantCode]
    exact Nat.le_add_right _ _
  unfold countCode
  grind

theorem length_openSlot {start : Nat} (h : openSlot re start = .ok re') : re'.prog.length = re.prog.length + 1 := by
  unfold openSlot at h
  split at h
  · cases h
  · cases h
    simp [fixupAfterShift]
    omega

theorem applyQuantifier_full {start : Nat} {q : Quantifier} (h : applyQuantifier re start q lazy = .ok re') :
    q = .opt ∨ NotFull re.prog := by
  have hroom : ∀ {re₁ re₂ : ReHandle} {ins : ReInstr}, re.prog.length ≤ re₁.prog.length →
      emitOrFail re₁ ins = .ok re₂ → NotFull re.prog := by
    intro re₁ re₂ ins hle he
    have := (emitOrFail_ok he).1
    unfold NotFull
    omega
  cases q with
  | opt => exact .inl rfl
  | star =>
    obtain ⟨re₁, h₁, h⟩ := bind_ok h
    obtain ⟨re₂, h₂, h⟩ := bind_ok h
    obtain ⟨re₃, h₃, h⟩ := bind_ok h
    obtain ⟨-, hp₁, -⟩ := reserveOr_ok h₁
    refine .inr (hroom ?_ h₃)
    rw [length_openSlot h₂, hp₁]
    exact Nat.le_succ _
  | plus =>
    obtain ⟨re₁, h₁, h⟩ := bind_ok h
    grind

theorem mandatoryCopies_full {src len k : Nat} (h : mandatoryCopies src len k re = .ok re') :
    (k = 0 ∧ re' = re) ∨ NotFull re.prog := by
  cases k with
  | zero =>
    cases h
    exact .inl ⟨rfl, rfl⟩
  | succ k =>
    obtain ⟨hguard, -⟩ := guard_ok h
    unfold NotFull
    omega

theorem optionalCopies_full {src len k : Nat} (h : optionalCopies src len lazy k re = .ok re') :
    k = 0 ∨ NotFull re.prog := by
  cases k with
  | zero => exact .inl rfl
  | succ k =>
    obtain ⟨hguard, -⟩ := guard_ok h
    unfold NotFull
    omega

theorem applyCount_full {prog : List ReInstr} {c : Code} {n m : Int} (hprog : re.prog = prog ++ place prog.length c)
    (hc : c ≠ []) (hnm : ¬ (n = 0 ∧ m = 0)) (hb : NotFull prog → Behind prog) (hnf : NotFull prog) (hin : Inward c)
    (h : applyCount re prog.length re.prog.length n m lazy = .ok re') :
    (countCode n m lazy c = c ∨ countCode n m lazy c = quantCode .opt lazy c) ∨ NotFull re.prog := by
  have hlen : re.prog.length - prog.length = c.length := by
    rw [hprog, List.length_append, length_place]
    omega
  unfold applyCount at h
  dsimp only at h
  rw [hlen] at h
  unfold countCode
  split at h
  · next hn =>
    have hm : m ≠ 0 := fun hm => hnm ⟨hn, hm⟩
    rw [if_neg hm] at h
    rw [if_pos hn, if_neg hm]
    split at h
    · grind [applyQuantifier_full]
    · next hm' =>
      obtain ⟨re₁, h₁, h⟩ := bind_ok h
      have hle : re.prog.length ≤ re₁.prog.length := by
        rw [(applyQuantifier_ok hprog (hb hnf) hin h₁).1, hprog]
        simp only [List.length_append, length_place, length_quantCode]
        omega
      rcases optionalCopies_full h with hk | hfull
      · rw [if_neg hm', hk]
        exact .inl (.inr (List.append_nil _))
      · unfold NotFull at hfull ⊢
        grind
  · next hn =>
    rw [if_neg hn]
    obtain ⟨re₁, h₁, h'⟩ := bind_ok h
    clear h
    rcases mandatoryCopies_full h₁ with ⟨hk, rfl⟩ | hfull
    · split at h'
      · obtain ⟨re₂, h₂, -⟩ := bind_ok h'
        obtain ⟨hroom, -⟩ := reserveOr_ok h₂
        have hpos : 0 < c.length := List.length_pos_iff.2 hc
        refine .inr ?_
        unfold NotFull
        omega
      · next hm =>
        rcases optionalCopies_full h' with hk' | hfull
        · rw [if_neg hm, hk, hk']
          refine .inl (.inl ?_)
          simp [times]
        · exact .inr hfull
    · exact .inr hfull

theorem emits_quant {q : Quantifier} (h : Emits prog re.prog x) (hx : x.code ≠ []) (hb : NotFull prog → Behind prog)
    (hq : applyQuantifier re prog.length q lazy = .ok re') :
    Emits prog re'.prog (.quant q lazy x) ∧ Keeps re re' := by
  obtain ⟨t, rfl, hprog, hroom, hwhole, hsnug⟩ := h
  have hnf := hroom (mt t.complete_code.2 hx)
  obtain ⟨hp, ho, hcap⟩ := applyQuantifier_ok hprog (hb hnf) t.inward_code hq
  refine ⟨⟨.quant q lazy t, rfl, hp, fun _ => hnf, fun hnf' => hwhole ?_, hsnug,
    (applyQuantifier_full hq).imp_right hwhole⟩, ho.keeps hcap⟩
  unfold NotFull at hnf' ⊢
  grind [List.length_append, length_place, length_quantCode]

theorem emits_count {n m : Int} (h : Emits prog re.prog x) (hx : x.code ≠ []) (hb : NotFull prog → Behind prog)
    (hnm : ¬ (n = 0 ∧ m = 0)) (hc : applyCount re prog.length re.prog.length n m lazy = .ok re') :
    Emits prog re'.prog (.count n m lazy x) ∧ Keeps re re' := by
  obtain ⟨t, rfl, hprog, hroom, hwhole, hsnug⟩ := h
  have ht := mt t.complete_code.2 hx
  have hnf := hroom ht
  obtain ⟨hp, ho, hcap⟩ := applyCount_ok hprog (hb hnf) t.inward_code (fun h => (hwhole h).closed_code) hc
  refine ⟨⟨.count n m lazy t, rfl, hp, fun _ => hnf, fun hnf' => hwhole ?_, hsnug,
    (applyCount_full hprog ht hnm hb hnf t.inward_code hc).imp_right hwhole⟩, ho.keeps hcap⟩
  have hlen := le_length_countCode hnm lazy t.code
  unfold NotFull at hnf' ⊢
  grind [List.length_append, length_place]

theorem emits_erase (h : Emits prog re.prog x) (lazy : Bool) :
    Emits prog (re.prog.take prog.length) (.count 0 0 lazy x) := by
  obtain ⟨t, rfl, hprog, -, -, -⟩ := h
  refine ⟨.count 0 0 lazy t.complete, ?_, ?_, fun hne => absurd rfl hne, fun _ => t.whole_complete,
    t.whole_complete.snug, .inr t.whole_complete⟩
  · rw [Node.complete, t.complete_complete]
  · rw [hprog, List.take_left]
    exact (List.append_nil _).symm

variable {expr : Compiler → Except Stop Compiler} {rexpr : Reader → Option (Node × Reader)}

theorem follows_piece (hf : Follows expr rexpr) : Follows (parsePiece expr) (readPiece rexpr) := by
  intro c r c' h hparse
  unfold parsePiece at hparse
  obtain ⟨c₁, hatom, hp⟩ := bind_ok hparse
  clear hparse
  obtain ⟨x, r₁, hread, hagrees, hem⟩ := follows_atom hf c r c₁ h hatom
  unfold readPiece
  rw [hread, Option.bind_eq_bind, Option.bind_some]
  dsimp only at hp ⊢
  split at hp
  · next hlen =>
    cases hp
    rw [if_pos (hem.code_eq_nil.1 hlen)]
    grind
  next hlen =>
  rw [if_neg (mt hem.code_eq_nil.2 hlen), ← hagrees.rest]
  have hx : x.code ≠ [] := fun hnil => hlen (hem.code_eq_nil.2 (by rw [hnil]; rfl))
  cases hrest : c₁.rest with
  | nil =>
    grind
  | cons qc rest =>
    rw [hrest] at hp
    dsimp only at hp ⊢
    cases hq : quantifierOf qc with
    | some q =>
      rw [hq] at hp
      obtain ⟨re, hre, hp⟩ := bind_ok hp
      cases hp
      obtain ⟨hem', hk⟩ := emits_quant hem hx h.behind hre
      exact ⟨_, _, rfl, (hagrees.move _).keep hk (hem'.behind h.behind), hem'⟩
    | none =>
      rw [hq] at hp
      dsimp only at hp ⊢
      split at hp
      · next hqc =>
        rw [if_pos hqc]
        obtain ⟨⟨n, rest'⟩, hscan, hp⟩ := bind_ok hp
        rw [toOption_ok hscan]
        dsimp only at hp
        split at hp
        · next hzero =>
          cases hp
          have hem' := emits_erase hem n.lazy
          refine ⟨_, _, rfl, ?_, hzero.1.symm ▸ hzero.2.symm ▸ hem'⟩
          refine (hagrees.move rest').keep ⟨rfl, rfl, rfl, fun hcap => ?_⟩ (hem'.behind h.behind)
          exact ⟨Nat.le_trans (List.length_take_le' _ _) hcap.1, hcap.2⟩
        · next hzero =>
          obtain ⟨re, hre, hp⟩ := bind_ok hp
          cases hp
          obtain ⟨hem', hk⟩ := emits_count hem hx h.behind hzero hre
          exact ⟨_, _, rfl, (hagrees.move _).keep hk (hem'.behind h.behind), hem'⟩
      grind

theorem follows_concat (hf : Follows expr rexpr) (fuel : Nat) :
    Follows (parseConcat expr fuel) (readConcat rexpr fuel) := by
  induction fuel with
  | zero =>
    intro c r c' h hp
    unfold parseConcat at hp
    unfold readConcat
    rw [← h.rest]
    cases hrest : c.rest with
    | nil =>
      grind [emits_empty]
    | cons ch rest =>
      rw [hrest] at hp
      dsimp only at hp ⊢
      split at hp
      · next hch =>
        cases hp
        rw [if_pos hch]
        exact ⟨_, _, rfl, h, emits_empty _⟩
      · cases hp
  | succ fuel ih =>
    intro c r c' h hp
    unfold parseConcat at hp
    unfold readConcat
    rw [← h.rest]
    cases hrest : c.rest with
    | nil =>
      grind [emits_empty]
    | cons ch rest =>
      rw [hrest] at hp
      dsimp only at hp ⊢
      split at hp
      · next hch =>
        cases hp
        rw [if_pos hch]
        exact ⟨_, _, rfl, h, emits_empty _⟩
      · next hch =>
        rw [if_neg hch]
        obtain ⟨c₁, h₁, hp⟩ := bind_ok hp
        obtain ⟨x, r₁, hr, hagrees, hem⟩ := follows_piece hf c r c₁ h h₁
        obtain ⟨y, r₂, hr', hagrees', hem'⟩ := ih c₁ r₁ c' hagrees hp
        refine ⟨.cat x y, r₂, ?_, hagrees', hem.cat hem'⟩
        grind

end Piece

end LsLang.Regex
