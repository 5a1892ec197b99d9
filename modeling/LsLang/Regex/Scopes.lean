import LsLang.Regex.Emitted

/-! Which capture groups are open at each instruction of the code of a pattern. -/

namespace LsLang.Regex

/-- Where an instruction goes on, as an offset, and the groups open there, when the groups `Δ` are open at it; `none`
when it closes a group that is not the innermost one, or is `MATCH`. -/
def Instr.scopeExits (ins : Instr Int) (Δ : List Nat) : Option (List (Int × List Nat)) :=
  match ins with
  | .save slot =>
    if slot % 2 = 0 then some [(1, slot / 2 :: Δ)]
    else
      match Δ with
      | g :: Δ' => if slot = g * 2 + 1 then some [(1, Δ')] else none
      | [] => none
  | .split a b => some [(a, Δ), (b, Δ)]
  | .jump a => some [(a, Δ)]
  | .lookahead a _ => some [(a, Δ)]
  | .matched => none
  | _ => some [(1, Δ)]

theorem Instr.scopeExits_open (g : Nat) (Δ : List Nat) :
    (Instr.save (g * 2) : Instr Int).scopeExits Δ = some [(1, g :: Δ)] := by
  unfold Instr.scopeExits
  grind

theorem Instr.scopeExits_close (g : Nat) (Δ : List Nat) :
    (Instr.save (g * 2 + 1) : Instr Int).scopeExits (g :: Δ) = some [(1, Δ)] := by
  unfold Instr.scopeExits
  grind

theorem Instr.scopeExits_offset {ins : Instr Int} {Δ : List Nat} {es : List (Int × List Nat)}
    (h : ins.scopeExits Δ = some es) {e : Int × List Nat} (he : e ∈ es) : e.1 ∈ ins.targets ∨ e.1 = 1 := by
  cases ins with
  | save slot =>
    unfold Instr.scopeExits at h
    grind
  | matched => cases h
  | split a b =>
    cases h
    simp only [List.mem_cons, List.not_mem_nil, or_false] at he
    rcases he with rfl | rfl
    · exact .inl List.mem_cons_self
    · exact .inl (List.mem_cons_of_mem _ List.mem_cons_self)
  | _ =>
    cases h
    rw [List.mem_singleton.1 he]
    first | exact .inr rfl | exact .inl List.mem_cons_self

/-- `τ` says which groups are open at each place of the code that is not in the body of a lookahead, with `Γ` open
around it. When the code is not `whole`, nothing is said of what lies behind it. -/
structure ScopeTable (whole : Prop) (Γ : List Nat) (d : Code) (τ : Int → Option (List Nat)) : Prop where
  entry : τ 0 = some Γ
  outside : ∀ t : Int, t < 0 ∨ (d.length : Int) ≤ t → τ t = some Γ
  step : ∀ (i : Nat) (ins : Instr Int) (Δ : List Nat), d[i]? = some ins → τ i = some Δ →
    ∃ es, ins.scopeExits Δ = some es ∧ ∀ e ∈ es, (whole ∨ (i : Int) + e.1 < d.length) → τ (i + e.1) = some e.2

/-- The groups of the code are opened and closed in pairs on every way through it. -/
def Scoped (whole : Prop) (Γ : List Nat) (c : Code) : Prop := ∃ τ, ScopeTable whole Γ c τ

section Scoped

variable {whole : Prop} {Γ : List Nat} {c d : Code}

theorem Scoped.mono {p q : Prop} (h : Scoped p Γ c) (hpq : q → p) : Scoped q Γ c := by
  obtain ⟨τ, h⟩ := h
  refine ⟨τ, h.entry, h.outside, fun i ins Δ hi hτ => ?_⟩
  obtain ⟨es, hes, hall⟩ := h.step i ins Δ hi hτ
  grind

theorem scoped_nil : Scoped whole Γ [] := ⟨fun _ => some Γ, rfl, fun _ _ => rfl, nofun⟩

theorem scoped_singleton {ins : Instr Int} {es : List (Int × List Nat)} (h : ins.scopeExits Γ = some es)
    (hes : ∀ e ∈ es, e.2 = Γ) : Scoped whole Γ [ins] := by
  refine ⟨fun _ => some Γ, rfl, fun _ _ => rfl, fun i ins' Δ hi hτ => ?_⟩
  grind

theorem scoped_jump (a : Int) : Scoped whole Γ [.jump a] := by
  refine scoped_singleton rfl fun e he => ?_
  grind

theorem scoped_split (a b : Int) : Scoped whole Γ [.split a b] := by
  refine scoped_singleton rfl fun e he => ?_
  grind

theorem scoped_branch (lazy : Bool) (a b : Int) : Scoped whole Γ [branch lazy a b] := by
  cases lazy with
  | false => exact scoped_split a b
  | true => exact scoped_split b a

theorem Scoped.append (hc : Scoped True Γ c) (hd : Scoped whole Γ d)
    (hct : TargetsIn c fun t => t ≤ c.length ∨ (c.length : Int) + d.length ≤ t)
    (hdt : TargetsIn d fun t => 0 ≤ t ∨ t ≤ -(c.length : Int)) : Scoped whole Γ (c ++ d) := by
  obtain ⟨τ₁, h₁⟩ := hc
  obtain ⟨τ₂, h₂⟩ := hd
  have hlen : ((c ++ d).length : Int) = c.length + d.length := by grind
  have hleft : ∀ t : Int, t ≤ 0 → (if t < c.length then τ₁ t else τ₂ (t - c.length)) = some Γ := by
    intro t ht
    rcases lt_or_eq_of_le ht with hneg | rfl
    · rw [if_pos (by omega)]
      exact h₁.outside t (.inl hneg)
    · split
      · exact h₁.entry
      · next hz =>
        rw [show (0 : Int) - c.length = 0 by omega]
        exact h₂.entry
  refine ⟨fun t => if t < c.length then τ₁ t else τ₂ (t - c.length), hleft 0 (le_refl 0), ?_, ?_⟩
  · intro t ht
    rcases ht with ht | ht
    · exact hleft t (le_of_lt ht)
    · rw [if_neg (by omega)]
      exact h₂.outside _ (.inr (by omega))
  · intro i ins Δ hi hτ
    rw [hlen]
    rcases Nat.lt_or_ge i c.length with hlt | hge
    · rw [List.getElem?_append_left hlt] at hi
      rw [if_pos (by omega)] at hτ
      obtain ⟨es, hes, hall⟩ := h₁.step i ins Δ hi hτ
      refine ⟨es, hes, fun e he hin => ?_⟩
      have hout := hall e he (.inl trivial)
      have htarget : (i : Int) + e.1 ≤ c.length ∨ (c.length : Int) + d.length ≤ i + e.1 := by
        rcases Instr.scopeExits_offset hes he with ht | h1
        · exact hct i ins hi e.1 ht
        · rw [h1]
          omega
      split
      · exact hout
      · next hge =>
        rw [h₁.outside _ (.inr (by omega))] at hout
        rw [← hout]
        rcases htarget with heq | hend
        · rw [show (i : Int) + e.1 - c.length = 0 by omega]
          exact h₂.entry
        · exact h₂.outside _ (.inr (by omega))
    · rw [List.getElem?_append_right hge] at hi
      rw [if_neg (by omega), show (i : Int) - c.length = (i - c.length : Nat) by omega] at hτ
      obtain ⟨es, hes, hall⟩ := h₂.step _ ins Δ hi hτ
      refine ⟨es, hes, fun e he hin => ?_⟩
      have hout := hall e he (hin.imp_right fun h => by omega)
      have htarget : (0 : Int) ≤ (i - c.length : Nat) + e.1 ∨ ((i - c.length : Nat) : Int) + e.1 ≤ -(c.length : Int) := by
        rcases Instr.scopeExits_offset hes he with ht | h1
        · exact hdt _ ins hi e.1 ht
        · rw [h1]
          omega
      rcases htarget with hpos | hneg
      · grind
      · have hΓ : e.2 = Γ := by
          rcases lt_or_eq_of_le (show ((i - c.length : Nat) : Int) + e.1 ≤ 0 by omega) with hlt | heq
          · rw [h₂.outside _ (.inl hlt)] at hout
            grind
          grind
        grind

theorem Scoped.seq (hc : Scoped True Γ c) (hd : Scoped whole Γ d) (hcc : Closed c) (hdi : Inward d) :
    Scoped whole Γ (c ++ d) :=
  hc.append hd (hcc.imp fun _ ht => .inl ht.2) (hdi.imp fun _ ht => .inl ht)

theorem Scoped.times (hc : Scoped True Γ c) (hcc : Closed c) (k : Nat) : Scoped True Γ (times k c) := by
  induction k with
  | zero => exact scoped_nil
  | succ k ih =>
    rw [times_succ]
    exact hc.seq ih hcc (hcc.times k).inward

theorem scoped_opt (hc : Scoped whole Γ c) (hci : Inward c) (lazy : Bool) : Scoped whole Γ (quantCode .opt lazy c) := by
  refine (scoped_branch lazy 1 (c.length + 1)).append hc ?_ (hci.imp fun _ ht => .inl ht)
  exact targetsIn_singleton (targets_branch lazy _ _ (by simp) (by simp; omega))

theorem Scoped.quant (hc : Scoped True Γ c) (hcc : Closed c) (q : Quantifier) (lazy : Bool) :
    Scoped True Γ (quantCode q lazy c) := by
  cases q with
  | opt => exact scoped_opt hc hcc.inward lazy
  | star =>
    have hjump : TargetsIn [.jump (-(c.length + 1 : Int))] fun t => t ≤ -(c.length + 1 : Int) :=
      targetsIn_singleton fun off ho => by
        obtain rfl : off = -(c.length + 1 : Int) := by simpa [Instr.targets] using ho
        exact le_refl _
    have hbody : Scoped True Γ (c ++ [.jump (-(c.length + 1 : Int))]) := hc.append (scoped_jump _) (hcc.imp fun _ ht => .inl ht.2)
      (hjump.imp fun t ht => .inr (by omega))
    refine (scoped_branch lazy 1 (c.length + 2)).append hbody ?_ ?_
    · exact targetsIn_singleton (targets_branch lazy _ _ (by simp) (by simp; omega))
    · exact TargetsIn.append (hcc.imp fun _ ht => .inl ht.1) (hjump.imp fun t ht => .inr (by simp; omega))
  | plus =>
    refine hc.append (scoped_branch lazy _ 1) (hcc.imp fun _ ht => .inl ht.2) ?_
    exact targetsIn_singleton (targets_branch lazy _ _ (.inr (le_refl _)) (.inl (by decide)))

theorem Scoped.count (hc : Scoped True Γ c) (hcc : Closed c) (n m : Int) (lazy : Bool) :
    Scoped True Γ (countCode n m lazy c) := by
  have hopt := hc.quant hcc .opt lazy
  have hoptc := hcc.quant .opt lazy
  unfold countCode
  split
  · split
    · exact scoped_nil
    · split
      · exact hc.quant hcc _ _
      · exact hopt.seq (hopt.times hoptc _) hoptc (hoptc.times _).inward
  · refine (hc.seq (hc.times hcc _) hcc (hcc.times _).inward).seq ?_ (hcc.append (hcc.times _)) ?_
    · split
      · exact hc.quant hcc _ _
      · exact hopt.times hoptc _
    · split
      · exact (hcc.quant _ _).inward
      · exact (hoptc.times _).inward

theorem Scoped.group {g : Nat} (hc : Scoped True (g :: Γ) c) (hcc : Closed c) : Scoped True Γ (Node.groupCode g true c) := by
  obtain ⟨τ, h⟩ := hc
  have hlen : (Node.groupCode g true c).length = c.length + 2 := by simp [Node.groupCode]
  refine ⟨fun t => if 1 ≤ t ∧ t ≤ c.length + 1 then τ (t - 1) else some Γ, if_neg (by omega), ?_, ?_⟩
  · grind
  · intro i ins Δ hi hτ
    cases i with
    | zero =>
      cases hi
      rw [if_neg (by omega)] at hτ
      cases hτ
      refine ⟨[(1, g :: Γ)], Instr.scopeExits_open g Γ, fun e he _ => ?_⟩
      rw [List.mem_singleton.1 he, if_pos (by simp), show ((0 : Nat) : Int) + 1 - 1 = 0 by rfl]
      exact h.entry
    | succ i =>
      have hi : (c ++ [.save (g * 2 + 1)])[i]? = some ins := hi
      rcases Nat.lt_or_ge i c.length with hlt | hge
      · rw [List.getElem?_append_left hlt] at hi
        rw [if_pos (by omega), show ((i + 1 : Nat) : Int) - 1 = i by omega] at hτ
        obtain ⟨es, hes, hall⟩ := h.step i ins Δ hi hτ
        refine ⟨es, hes, fun e he _ => ?_⟩
        have htarget : 0 ≤ (i : Int) + e.1 ∧ (i : Int) + e.1 ≤ c.length := by
          rcases Instr.scopeExits_offset hes he with ht | h1
          · exact hcc i ins hi e.1 ht
          grind
        grind
      · have hend : i = c.length := by grind
        subst hend
        rw [List.getElem?_append_right (le_refl _), Nat.sub_self] at hi
        cases hi
        rw [if_pos (by omega), h.outside _ (.inr (by omega))] at hτ
        cases hτ
        refine ⟨[(1, Γ)], Instr.scopeExits_close g Γ, fun e he _ => ?_⟩
        grind

theorem Scoped.openGroup {g : Nat} (hc : Scoped False (g :: Γ) c) (hci : Inward c) :
    Scoped False Γ (Node.groupCode g false c) := by
  obtain ⟨τ, h⟩ := hc
  have hcode : Node.groupCode g false c = .save (g * 2) :: c := by simp [Node.groupCode]
  rw [hcode]
  refine ⟨fun t => if 1 ≤ t ∧ t ≤ c.length then τ (t - 1) else some Γ, if_neg (by omega), ?_, ?_⟩
  · grind
  · intro i ins Δ hi hτ
    rw [List.length_cons]
    cases i with
    | zero =>
      cases hi
      rw [if_neg (by omega)] at hτ
      cases hτ
      refine ⟨[(1, g :: Γ)], Instr.scopeExits_open g Γ, fun e he hin => ?_⟩
      rw [List.mem_singleton.1 he] at hin ⊢
      have := hin.resolve_left id
      rw [if_pos (by omega), show ((0 : Nat) : Int) + 1 - 1 = 0 by rfl]
      exact h.entry
    | succ i =>
      rw [List.getElem?_cons_succ] at hi
      have hlt := (List.getElem?_eq_some_iff.1 hi).1
      rw [if_pos (by omega), show ((i + 1 : Nat) : Int) - 1 = i by omega] at hτ
      obtain ⟨es, hes, hall⟩ := h.step i ins Δ hi hτ
      refine ⟨es, hes, fun e he hin => ?_⟩
      have := hin.resolve_left id
      have htarget : 0 ≤ (i : Int) + e.1 := by
        rcases Instr.scopeExits_offset hes he with ht | h1
        · exact hci i ins hi e.1 ht
        · rw [h1]
          omega
      grind

theorem scoped_look (isNeg closed : Bool) (c : Code) : Scoped (closed = true) Γ (Node.lookCode isNeg closed c) := by
  have hlen : ((Node.lookCode isNeg closed c).length : Int) = c.length + if closed = true then 2 else 1 := by
    cases closed <;> simp [Node.lookCode, add_assoc]
  refine ⟨fun t => if 1 ≤ t ∧ t < (Node.lookCode isNeg closed c).length then none else some Γ, if_neg (by omega), ?_, ?_⟩
  · grind
  · intro i ins Δ hi hτ
    have hlt := (List.getElem?_eq_some_iff.1 hi).1
    cases i with
    | zero =>
      cases hi
      rw [if_neg (by omega)] at hτ
      cases hτ
      refine ⟨[((c.length + 2 : Int), Γ)], rfl, fun e he hin => ?_⟩
      grind
    | succ i =>
      grind

theorem scoped_fork (hc : Scoped True Γ c) (hd : Scoped whole Γ d) (hdi : Inward d)
    (hct : TargetsIn c fun t => (0 ≤ t ∧ t ≤ c.length) ∨ t = (c.length + d.length : Int)) :
    Scoped whole Γ ([.split 1 (c.length + 1 : Int)] ++ c ++ d) := by
  have hsplit : TargetsIn [.split 1 (c.length + 1 : Int)] fun t => t = 1 ∨ t = (c.length + 1 : Int) :=
    targetsIn_singleton fun off ho => by simpa [Instr.targets] using ho
  have hlen : (([.split 1 (c.length + 1 : Int)] ++ c : Code).length : Int) = c.length + 1 := by
    grind
  have hfirst : Scoped True Γ ([.split 1 (c.length + 1 : Int)] ++ c) := by
    refine (scoped_split _ _).append hc (hsplit.imp fun t ht => ?_) (hct.imp fun t ht => .inl (by omega))
    grind
  refine hfirst.append hd ?_ (hdi.imp fun _ ht => .inl ht)
  refine TargetsIn.append (hsplit.imp fun t ht => .inl (by omega)) (hct.imp fun t ht => ?_)
  grind

theorem scoped_alt (jumped : Bool) (hc : Scoped True Γ c) (hcc : Closed c) (hd : Scoped whole Γ d) (hdi : Inward d) :
    Scoped whole Γ (Node.altCode jumped c d) := by
  cases jumped with
  | false =>
    have := scoped_fork hc hd hdi (hcc.imp fun _ ht => .inl ht)
    simpa [Node.altCode] using this
  | true =>
    have hjump : TargetsIn [.jump (d.length + 1 : Int)] fun t => t = (d.length + 1 : Int) :=
      targetsIn_singleton fun off ho => by simpa [Instr.targets] using ho
    have hlen : ((c ++ [.jump (d.length + 1 : Int)] : Code).length : Int) = c.length + 1 := by grind
    have hbranch : Scoped True Γ (c ++ [.jump (d.length + 1 : Int)]) :=
      hc.append (scoped_jump _) (hcc.imp fun _ ht => .inl ht.2) (hjump.imp fun t ht => .inl (by omega))
    have := scoped_fork hbranch hd hdi
      (TargetsIn.append (hcc.imp fun _ ht => .inl (by omega)) (hjump.imp fun t ht => .inr (by omega)))
    rw [hlen] at this
    simpa [Node.altCode, add_assoc] using this

theorem scoped_item (ins : Instr Empty) (h : ins.consuming = true ∨ ins.isAnchor = true) :
    Scoped whole Γ (Node.item ins h).code := by
  refine @scoped_singleton _ _ _ [(1, Γ)] ?_ fun e he => by grind
  cases ins with
  | save => simp [Instr.consuming, Instr.isAnchor] at h
  | matched => simp [Instr.consuming, Instr.isAnchor] at h
  | split a => exact a.elim
  | jump a => exact a.elim
  | lookahead a => exact a.elim
  | _ => rfl

end Scoped

theorem scoped_whole {t : Node} (h : t.Whole) (Γ : List Nat) : Scoped True Γ t.code := by
  induction t generalizing Γ with
  | empty => exact scoped_nil
  | item ins hi => exact scoped_item ins hi
  | cat l r ihl ihr => exact (ihl h.1 Γ).seq (ihr h.2 Γ) h.1.closed_code r.inward_code
  | alt jumped l r ihl ihr => exact scoped_alt jumped (ihl h.2.1 Γ) h.2.1.closed_code (ihr h.2.2 Γ) r.inward_code
  | quant q lazy x ih => exact (ih h Γ).quant (Node.Whole.closed_code h) q lazy
  | count n m lazy x ih => exact (ih h Γ).count (Node.Whole.closed_code h) n m lazy
  | group g closed x ih =>
    obtain ⟨rfl, hx⟩ := h
    exact (ih hx (g :: Γ)).group hx.closed_code
  | look isNeg closed x ih => exact (scoped_look isNeg closed x.code).mono fun _ => h.1

theorem scoped_snug {t : Node} (h : t.Snug) (Γ : List Nat) : Scoped False Γ t.code := by
  induction t generalizing Γ with
  | empty => exact scoped_nil
  | item ins hi => exact scoped_item ins hi
  | cat l r ihl ihr =>
    obtain ⟨hl, hr, hnil | hw⟩ := h
    · show Scoped False Γ (l.code ++ r.code)
      grind
    · exact (scoped_whole hw Γ).seq (ihr hr Γ) hw.closed_code r.inward_code
  | alt jumped l r ihl ihr =>
    exact scoped_alt jumped (scoped_whole h.1 Γ) h.1.closed_code (ihr h.2.1 Γ) r.inward_code
  | quant q lazy x ih =>
    obtain ⟨hx, rfl | hw⟩ := h
    · exact scoped_opt (ih hx Γ) x.inward_code lazy
    · exact (scoped_whole (t := .quant q lazy x) hw Γ).mono fun _ => trivial
  | count n m lazy x ih =>
    obtain ⟨hx, (hcode | hcode) | hw⟩ := h
    · show Scoped False Γ (countCode n m lazy x.code)
      grind
    · show Scoped False Γ (countCode n m lazy x.code)
      rw [hcode]
      exact scoped_opt (ih hx Γ) x.inward_code lazy
    · exact (scoped_whole (t := .count n m lazy x) hw Γ).mono fun _ => trivial
  | group g closed x ih =>
    cases closed with
    | true => exact (scoped_whole (t := .group g true x) ⟨rfl, h.2 rfl⟩ Γ).mono fun _ => trivial
    | false => exact (ih h.1 (g :: Γ)).openGroup x.inward_code
  | look isNeg closed x ih => exact (scoped_look isNeg closed x.code).mono fun h => h.elim

end LsLang.Regex
