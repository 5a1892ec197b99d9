import LsLang.Regex.Emitted
import LsLang.Regex.Scopes
import LsLang.Regex.Shortcuts

/-! The groups and classes that a reading of a pattern uses. -/

namespace LsLang.Regex

structure Grows (r r' : Reader) (x : Node) : Prop where
  groups : r.groups ≤ r'.groups
  bound : r.groups < maxGroups → r'.groups < maxGroups
  classes : r.classes.length ≤ r'.classes.length
  uses : x.Uses r'.groups r'.classes.length

def ReadsGrowing (f : Reader → Option (Node × Reader)) : Prop := ∀ r x r', f r = some (x, r') → Grows r r' x

theorem Grows.stay {r r' : Reader} {x : Node} (hg : r'.groups = r.groups) (hc : r'.classes = r.classes)
    (hx : x.Uses r'.groups r'.classes.length) : Grows r r' x :=
  ⟨Nat.le_of_eq hg.symm, fun h => hg ▸ h, Nat.le_of_eq (by rw [hc]), hx⟩

theorem Grows.rest {r r' : Reader} {x : Node} (h : Grows r r' x) (rest : List UInt8) :
    Grows r { r' with rest := rest } x :=
  ⟨h.groups, h.bound, h.classes, h.uses⟩

theorem Grows.trans {r r' r'' : Reader} {x y z : Node} (h : Grows r r' x) (k : Grows r' r'' y)
    (hz : x.Uses r''.groups r''.classes.length → y.Uses r''.groups r''.classes.length →
      z.Uses r''.groups r''.classes.length) : Grows r r'' z :=
  ⟨Nat.le_trans h.groups k.groups, k.bound ∘ h.bound, Nat.le_trans h.classes k.classes,
    hz (h.uses.mono k.groups k.classes) k.uses⟩

section Read

variable {expr : Reader → Option (Node × Reader)}

theorem grows_class {r r' : Reader} {x : Node} (h : r.readClass = some (x, r')) : Grows r r' x := by
  unfold Reader.readClass at h
  split at h
  · cases h
  · obtain ⟨⟨body, rest⟩, -, h⟩ := Option.bind_eq_some_iff.1 h
    cases h
    have hlen : (r.classes ++ [body]).length = r.classes.length + 1 := by grind
    refine ⟨Nat.le_refl _, id, Nat.le_trans (Nat.le_succ _) (Nat.le_of_eq hlen.symm), fun id hid => ?_⟩
    grind

theorem grows_groupBody (hf : ReadsGrowing expr) {r r' : Reader} {x : Node} {group : Option Nat}
    (hgroup : ∀ g, group = some g → 1 ≤ g ∧ g ≤ r.groups) (h : readGroupBody expr r group = some (x, r')) :
    Grows r r' x := by
  unfold readGroupBody at h
  obtain ⟨⟨y, r₁⟩, hy, h⟩ := Option.bind_eq_some_iff.1 h
  have hgrow := hf r y r₁ hy
  dsimp only at h
  split at h
  · split at h
    · cases group with
      | none =>
        cases h
        exact hgrow.rest _
      | some g =>
        cases h
        obtain ⟨hpos, hle⟩ := hgroup g rfl
        exact ⟨hgrow.groups, hgrow.bound, hgrow.classes, hpos, Nat.le_trans hle hgrow.groups, hgrow.uses⟩
    · cases h
  · cases h

theorem grows_lookahead (hf : ReadsGrowing expr) {r r' : Reader} {x : Node} {isNeg : Bool}
    (h : readLookahead expr r isNeg = some (x, r')) : Grows r r' x := by
  unfold readLookahead at h
  obtain ⟨⟨y, r₁⟩, hy, h⟩ := Option.bind_eq_some_iff.1 h
  have hgrow := hf r y r₁ hy
  dsimp only at h
  split at h
  · split at h
    · cases h
      exact ⟨hgrow.groups, hgrow.bound, hgrow.classes, hgrow.uses⟩
    · cases h
  · cases h

theorem grows_capture (hf : ReadsGrowing expr) {r r' : Reader} {x : Node}
    (h : (do
      let (g, r) ← r.allocGroup
      readGroupBody expr r (some g)) = some (x, r')) : Grows r r' x := by
  obtain ⟨⟨g, r₁⟩, ha, h⟩ := Option.bind_eq_some_iff.1 h
  unfold Reader.allocGroup at ha
  split at ha
  · cases ha
  · next hroom =>
    cases ha
    have hgrow := grows_groupBody hf (fun g hg => by grind) h
    exact ⟨Nat.le_of_succ_le hgrow.groups, fun _ => hgrow.bound (Nat.lt_of_not_le hroom), hgrow.classes, hgrow.uses⟩

theorem grows_group (hf : ReadsGrowing expr) : ReadsGrowing (readGroup expr) := by
  intro r x r' h
  unfold readGroup at h
  split at h
  · split at h
    · split at h
      · cases h
      · split at h
        · have := grows_groupBody hf (by nofun) h
          exact ⟨this.groups, this.bound, this.classes, this.uses⟩
        split at h
        · obtain ⟨⟨name, rest⟩, -, h⟩ := Option.bind_eq_some_iff.1 h
          have := grows_capture hf h
          exact ⟨this.groups, this.bound, this.classes, this.uses⟩
        split at h
        · have := grows_lookahead hf h
          exact ⟨this.groups, this.bound, this.classes, this.uses⟩
        split at h
        · have := grows_lookahead hf h
          exact ⟨this.groups, this.bound, this.classes, this.uses⟩
        split at h
        · cases h
          exact .stay rfl rfl trivial
        · cases h
    · exact grows_capture hf h
  · exact grows_capture hf h

theorem uses_escapeItem {ins : ReInstr} {x : Node} (h : escapeItem ins = some x) (g k : Nat) : x.Uses g k := by
  cases ins <;> cases h <;> exact fun id hid => hid.elim nofun nofun

theorem uses_item {ins : Instr Empty} {hi : ins.consuming = true ∨ ins.isAnchor = true}
    (h : ∀ id, ins ≠ .cls id ∧ ins ≠ .ncls id) (g k : Nat) : (Node.item ins hi).Uses g k :=
  fun id hid => (hid.elim (h id).1 (h id).2).elim

theorem grows_atom (hf : ReadsGrowing expr) : ReadsGrowing (readAtom expr) := by
  intro r x r' h
  unfold readAtom at h
  split at h
  · cases h
    exact .stay rfl rfl trivial
  · dsimp only at h
    split at h
    · have := grows_group hf _ x r' h
      exact ⟨this.groups, this.bound, this.classes, this.uses⟩
    split at h
    · have := grows_class h
      exact ⟨this.groups, this.bound, this.classes, this.uses⟩
    split at h
    · cases h
      exact .stay rfl rfl (uses_item (by simp) _ _)
    split at h
    · cases h
      exact .stay rfl rfl (uses_item (by simp) _ _)
    split at h
    · cases h
      exact .stay rfl rfl (uses_item (by simp) _ _)
    split at h
    · obtain ⟨⟨ins, rest⟩, -, h⟩ := Option.bind_eq_some_iff.1 h
      obtain ⟨y, hy, h⟩ := Option.bind_eq_some_iff.1 h
      cases h
      exact .stay rfl rfl (uses_escapeItem hy _ _)
    · cases h
      exact .stay rfl rfl (uses_item (by simp) _ _)

theorem grows_piece (hf : ReadsGrowing expr) : ReadsGrowing (readPiece expr) := by
  intro r x r' h
  unfold readPiece at h
  obtain ⟨⟨y, r₁⟩, hy, h⟩ := Option.bind_eq_some_iff.1 h
  have hgrow := grows_atom hf r y r₁ hy
  dsimp only at h
  split at h
  · cases h
    exact hgrow
  · split at h
    · cases h
      exact hgrow
    · split at h
      · cases h
        exact ⟨hgrow.groups, hgrow.bound, hgrow.classes, hgrow.uses⟩
      · split at h
        · obtain ⟨⟨n, rest⟩, -, h⟩ := Option.bind_eq_some_iff.1 h
          cases h
          exact ⟨hgrow.groups, hgrow.bound, hgrow.classes, hgrow.uses⟩
        grind

theorem grows_concat (hf : ReadsGrowing expr) (fuel : Nat) : ReadsGrowing (readConcat expr fuel) := by
  induction fuel with
  | zero =>
    intro r x r' h
    unfold readConcat at h
    split at h
    · cases h
      exact .stay rfl rfl trivial
    · split at h
      · cases h
        exact .stay rfl rfl trivial
      · cases h
  | succ fuel ih =>
    intro r x r' h
    unfold readConcat at h
    split at h
    · cases h
      exact .stay rfl rfl trivial
    · split at h
      · cases h
        exact .stay rfl rfl trivial
      · obtain ⟨⟨y, r₁⟩, hy, h⟩ := Option.bind_eq_some_iff.1 h
        obtain ⟨⟨z, r₂⟩, hz, h⟩ := Option.bind_eq_some_iff.1 h
        cases h
        exact (grows_piece hf r y r₁ hy).trans (ih r₁ z _ hz) fun hx hy => ⟨hx, hy⟩

theorem grows_branches (hf : ReadsGrowing expr) {fuel : Nat} {r₀ r r' : Reader} {l x : Node} (hl : Grows r₀ r l)
    (h : readBranches expr fuel l r = some (x, r')) : Grows r₀ r' x := by
  induction fuel generalizing r₀ r l x with
  | zero =>
    unfold readBranches at h
    grind
  | succ fuel ih =>
    unfold readBranches at h
    split at h
    · split at h
      · obtain ⟨⟨y, r₁⟩, hy, h⟩ := Option.bind_eq_some_iff.1 h
        obtain ⟨⟨z, r₂⟩, hz, h⟩ := Option.bind_eq_some_iff.1 h
        cases h
        have hgrow := grows_concat hf _ _ y r₁ hy
        have hgrow : Grows r r₁ y := ⟨hgrow.groups, hgrow.bound, hgrow.classes, hgrow.uses⟩
        exact hl.trans (ih hgrow hz) fun hx hy => ⟨hx, hy⟩
      · cases h
        exact hl
    · cases h
      exact hl

theorem grows_inner (hf : ReadsGrowing expr) : ReadsGrowing (readExprInner expr) := by
  intro r x r' h
  unfold readExprInner at h
  obtain ⟨⟨y, r₁⟩, hy, h⟩ := Option.bind_eq_some_iff.1 h
  exact grows_branches hf (grows_concat hf _ r y r₁ hy) h

end Read

theorem grows_expr (d : Nat) : ReadsGrowing (readExpr d) := by
  induction d with
  | zero => exact fun r x r' h => by cases h
  | succ d ih => exact grows_inner ih

theorem readPattern_uses {pattern : List UInt8} {flags : Nat} {x : Node} {r : Reader}
    (h : readPattern pattern flags = some (x, r)) : r.groups < maxGroups ∧ x.Uses r.groups r.classes.length := by
  unfold readPattern at h
  obtain ⟨⟨y, r₁⟩, hy, h⟩ := Option.bind_eq_some_iff.1 h
  dsimp only at h
  split at h
  · cases h
    have := grows_expr reMaxDepth _ _ _ hy
    exact ⟨this.bound (show 0 < maxGroups by decide), this.uses⟩
  · cases h

/-! The captures that a run of the VM leaves are spans of the text. -/

/-- The slots of a thread at `pos` in a run from `start`: an open group has its start, any other group has no span or
one that is over. -/
def SlotsOk (start pos : Nat) (Δ : List Nat) (saved : Nat → Int) : Prop :=
  ∀ g, if g ∈ Δ then (start : Int) ≤ saved (g * 2) ∧ saved (g * 2) ≤ pos
    else (saved (g * 2) = -1 ∧ saved (g * 2 + 1) = -1) ∨
      ((start : Int) ≤ saved (g * 2) ∧ saved (g * 2) ≤ saved (g * 2 + 1) ∧ saved (g * 2 + 1) ≤ pos)

section Slots

variable {start pos : Nat} {Δ : List Nat} {saved : Nat → Int}

theorem slotsOk_init : SlotsOk start pos [] fun _ => -1 := by
  intro g
  grind

theorem SlotsOk.later (h : SlotsOk start pos Δ saved) : SlotsOk start (pos + 1) Δ saved := by
  intro g
  have hg := h g
  grind

theorem SlotsOk.open (h : SlotsOk start pos Δ saved) (hpos : start ≤ pos) (g : Nat) :
    SlotsOk start pos (g :: Δ) (Function.update saved (g * 2) pos) := by
  intro k
  have hk := h k
  have hsecond : Function.update saved (g * 2) (pos : Int) (k * 2 + 1) = saved (k * 2 + 1) :=
    Function.update_of_ne (by omega) _ _
  by_cases hkg : k = g
  · grind
  · grind

theorem SlotsOk.close {g : Nat} (h : SlotsOk start pos (g :: Δ) saved) :
    SlotsOk start pos Δ (Function.update saved (g * 2 + 1) pos) := by
  intro k
  have hk := h k
  have hfirst : Function.update saved (g * 2 + 1) (pos : Int) (k * 2) = saved (k * 2) :=
    Function.update_of_ne (by omega) _ _
  rw [hfirst]
  by_cases hkg : k = g
  · grind
  · grind

end Slots

/-- The code of a program that opens and closes its groups in pairs, with at most a `MATCH` behind it. -/
structure ScopedProg (re : ReHandle) (whole : Prop) (P rest : Code) (τ : Int → Option (List Nat)) : Prop where
  prog : re.prog = place 0 (P ++ rest)
  first : P[0]? = some (.save 0)
  table : ScopeTable whole [] P τ
  inward : Inward P
  rest_eq : rest = [] ∨ (rest = [.matched] ∧ whole)

/-- What holds of each thread of a run from `start`: it has run out of a program without `MATCH`, or its groups are as
its place says; and behind `SAVE 0` the match has its start. -/
def ScopeInv (P rest : Code) (τ : Int → Option (List Nat)) (start pos : Nat) (t : ReThread) : Prop :=
  ((P.length ≤ t.pc ∧ rest = []) ∨ ∃ Δ, τ t.pc = some Δ ∧ SlotsOk start pos Δ t.saved) ∧
    (t.pc = 0 ∨ (start : Int) ≤ t.saved 0)

section Run

variable {re : ReHandle} {whole : Prop} {P rest : Code} {τ : Int → Option (List Nat)} {start pos : Nat} {t : ReThread}

theorem ScopedProg.at (h : ScopedProg re whole P rest τ) {ins : ReInstr} (hi : re.prog[t.pc]? = some ins) :
    (∃ rel, P[t.pc]? = some rel ∧ rel.map (absolute t.pc) = ins) ∨
      (t.pc = P.length ∧ rest = [.matched] ∧ whole ∧ ins = .matched) := by
  rw [h.prog, place_get, Nat.zero_add] at hi
  obtain ⟨rel, hrel, hmap⟩ := Option.map_eq_some_iff.1 hi
  rcases Nat.lt_or_ge t.pc P.length with hlt | hge
  · grind
  · rw [List.getElem?_append_right hge] at hrel
    rcases h.rest_eq with rfl | ⟨rfl, hw⟩
    · cases hrel
    · cases hk : t.pc - P.length with
      | zero =>
        rw [hk] at hrel
        cases hrel
        exact .inr ⟨by omega, rfl, hw, hmap.symm⟩
      | succ k =>
        grind

theorem ScopedProg.exit (h : ScopedProg re whole P rest τ) {rel : Instr Int} {Δ : List Nat} {es : List (Int × List Nat)}
    (hrel : P[t.pc]? = some rel) (hΔ : τ t.pc = some Δ) (hes : rel.scopeExits Δ = some es) {e : Int × List Nat}
    (he : e ∈ es) {saved : Nat → Int} {pc pos' : Nat} (hpc : pc = absolute t.pc e.1) (hs : SlotsOk start pos' e.2 saved) :
    (P.length ≤ pc ∧ rest = []) ∨ ∃ Δ', τ pc = some Δ' ∧ SlotsOk start pos' Δ' saved := by
  obtain ⟨es', hes', hall⟩ := h.table.step t.pc rel Δ hrel hΔ
  rw [hes] at hes'
  cases hes'
  have hpos : 0 ≤ (t.pc : Int) + e.1 := by
    rcases Instr.scopeExits_offset hes he with ht | h1
    · exact h.inward t.pc rel hrel e.1 ht
    · rw [h1]
      omega
  have hcast : (pc : Int) = t.pc + e.1 := by
    rw [hpc, absolute]
    omega
  by_cases hin : whole ∨ (t.pc : Int) + e.1 < P.length
  · grind
  · rw [not_or] at hin
    exact .inl ⟨by omega, h.rest_eq.resolve_right fun hr => hin.1 hr.2⟩

theorem ScopeInv.scope (h : ScopedProg re whole P rest τ) (hinv : ScopeInv P rest τ start pos t) {ins : ReInstr}
    (hi : re.prog[t.pc]? = some ins) : ∃ Δ, τ t.pc = some Δ ∧ SlotsOk start pos Δ t.saved := by
  refine hinv.1.resolve_left ?_
  rintro ⟨hlen, rfl⟩
  have hlt := (List.getElem?_eq_some_iff.1 hi).1
  rw [h.prog, length_place, List.append_nil] at hlt
  omega

theorem map_eq_save {f : Int → Nat} {rel : Instr Int} {slot : Nat} (h : rel.map f = .save slot) : rel = .save slot := by
  cases rel <;> cases h
  rfl

theorem map_eq_split {f : Int → Nat} {rel : Instr Int} {a b : Nat} (h : rel.map f = .split a b) :
    ∃ x y, rel = .split x y ∧ a = f x ∧ b = f y := by
  cases rel <;> cases h
  grind

theorem map_eq_jump {f : Int → Nat} {rel : Instr Int} {a : Nat} (h : rel.map f = .jump a) :
    ∃ x, rel = .jump x ∧ a = f x := by
  cases rel <;> cases h
  exact ⟨_, rfl, rfl⟩

theorem map_eq_lookahead {f : Int → Nat} {rel : Instr Int} {a : Nat} {isNeg : Bool} (h : rel.map f = .lookahead a isNeg) :
    ∃ x, rel = .lookahead x isNeg ∧ a = f x := by
  cases rel <;> cases h
  exact ⟨_, rfl, rfl⟩

theorem scopeExits_next {f : Int → Nat} {rel : Instr Int} {ins : ReInstr} (hmap : rel.map f = ins)
    (h : ins.consuming = true ∨ ins.isAnchor = true) (Δ : List Nat) : rel.scopeExits Δ = some [(1, Δ)] := by
  rw [← hmap] at h
  cases rel <;> first | rfl | simp [Instr.map, Instr.consuming, Instr.isAnchor] at h

theorem absolute_one (pc : Nat) : pc + 1 = absolute pc 1 := by
  unfold absolute
  omega

theorem stable_scopes (h : ScopedProg re whole P rest τ) (text : List UInt8) (look : Nat → Nat → Option Bool) :
    Stable re text look start (ScopeInv P rest τ start) := by
  have hfirst : re.prog[0]? = some (.save 0) := by
    have hlt := (List.getElem?_eq_some_iff.1 h.first).1
    rw [h.prog, place_get, List.getElem?_append_left hlt, h.first]
    rfl
  -- a step without a byte, then one that consumes a byte
  refine ⟨fun pos t t' hpos _ hinv he => ?_, fun pos t _ hinv he => ?_⟩
  -- behind the first instruction the start has been saved
  · have hzero : ∀ ins, re.prog[t.pc]? = some ins → ins ≠ .save 0 → t.saved 0 ≥ start := by
      intro ins hi hne
      refine hinv.2.resolve_left fun hz => hne ?_
      grind
    cases he with
    | @save slot hi =>
      obtain ⟨Δ, hΔ, hs⟩ := hinv.scope h hi
      obtain ⟨rel, hrel, hmap⟩ := (h.at hi).resolve_right fun hm => by cases hm.2.2.2
      obtain rfl := map_eq_save hmap
      refine ⟨?_, ?_⟩
      · obtain ⟨es, hes, -⟩ := h.table.step t.pc _ Δ hrel hΔ
        rcases Nat.even_or_odd' slot with ⟨g, rfl | rfl⟩
        · rw [Nat.mul_comm 2] at hrel hes ⊢
          rw [Instr.scopeExits_open] at hes
          cases hes
          exact h.exit hrel hΔ (Instr.scopeExits_open g Δ) List.mem_cons_self (absolute_one t.pc) (hs.open hpos g)
        · rw [Nat.mul_comm 2] at hrel hes ⊢
          cases Δ with
          | nil =>
            unfold Instr.scopeExits at hes
            grind
          | cons k Δ =>
            obtain rfl : k = g := by
              unfold Instr.scopeExits at hes
              grind
            exact h.exit hrel hΔ (Instr.scopeExits_close k Δ) List.mem_cons_self (absolute_one t.pc) hs.close
      grind
    | @left a b hi =>
      obtain ⟨Δ, hΔ, hs⟩ := hinv.scope h hi
      obtain ⟨rel, hrel, hmap⟩ := (h.at hi).resolve_right fun hm => by cases hm.2.2.2
      obtain ⟨x, y, rfl, ha, hb⟩ := map_eq_split hmap
      exact ⟨h.exit hrel hΔ rfl List.mem_cons_self ha hs, .inr (hzero _ hi fun heq => by cases heq)⟩
    | @right a b hi =>
      obtain ⟨Δ, hΔ, hs⟩ := hinv.scope h hi
      obtain ⟨rel, hrel, hmap⟩ := (h.at hi).resolve_right fun hm => by cases hm.2.2.2
      obtain ⟨x, y, rfl, ha, hb⟩ := map_eq_split hmap
      exact ⟨h.exit hrel hΔ rfl (List.mem_cons_of_mem _ List.mem_cons_self) hb hs, .inr (hzero _ hi fun heq => by cases heq)⟩
    | @jump a hi =>
      obtain ⟨Δ, hΔ, hs⟩ := hinv.scope h hi
      obtain ⟨rel, hrel, hmap⟩ := (h.at hi).resolve_right fun hm => by cases hm.2.2.2
      obtain ⟨x, rfl, ha⟩ := map_eq_jump hmap
      exact ⟨h.exit hrel hΔ rfl List.mem_cons_self ha hs, .inr (hzero _ hi fun heq => by cases heq)⟩
    | @ahead subEnd isNeg ok hi =>
      obtain ⟨Δ, hΔ, hs⟩ := hinv.scope h hi
      obtain ⟨rel, hrel, hmap⟩ := (h.at hi).resolve_right fun hm => by cases hm.2.2.2
      obtain ⟨x, rfl, ha⟩ := map_eq_lookahead hmap
      exact ⟨h.exit hrel hΔ rfl List.mem_cons_self ha hs, .inr (hzero _ hi fun heq => by cases heq)⟩
    | @anchor ins hi ha =>
      obtain ⟨Δ, hΔ, hs⟩ := hinv.scope h hi
      obtain ⟨rel, hrel, hmap⟩ := (h.at hi).resolve_right fun hm => by
        rw [hm.2.2.2] at ha
        cases ha
      refine ⟨?_, .inr (hzero _ hi fun hsave => ?_)⟩
      · exact h.exit hrel hΔ (scopeExits_next hmap (.inr ha) Δ) List.mem_cons_self (absolute_one t.pc) hs
      · rw [hsave] at ha
        cases ha
  · obtain ⟨ins, hi, hc, -⟩ := he.consuming
    obtain ⟨Δ, hΔ, hs⟩ := hinv.scope h hi
    obtain ⟨rel, hrel, hmap⟩ := (h.at hi).resolve_right fun hm => by
      rw [hm.2.2.2] at hc
      cases hc
    refine ⟨?_, .inr (hinv.2.resolve_left fun hz => ?_)⟩
    · exact h.exit hrel hΔ (scopeExits_next hmap (.inl hc) Δ) List.mem_cons_self (absolute_one t.pc) hs.later
    · rw [hz, hfirst] at hi
      cases hi
      cases hc

theorem ScopeInv.matched (h : ScopedProg re whole P rest τ) (hinv : ScopeInv P rest τ start pos t)
    (hi : re.prog[t.pc]? = some .matched) : SlotsOk start pos [] t.saved := by
  obtain ⟨Δ, hΔ, hs⟩ := hinv.scope h hi
  rcases h.at hi with ⟨rel, hrel, hmap⟩ | ⟨hpc, -, -, -⟩
  · obtain ⟨es, hes, -⟩ := h.table.step t.pc rel Δ hrel hΔ
    have hrelm : rel = .matched := by
      cases rel <;> cases hmap
      rfl
    rw [hrelm] at hes
    cases hes
  · rw [h.table.outside _ (.inr (by rw [hpc]))] at hΔ
    cases hΔ
    exact hs

theorem vmExecRange_slots (h : ScopedProg re whole P rest τ) {text : List UInt8} {look : Nat → Nat → Option Bool}
    (hstart : start ≤ text.length) {vis : Visited} {r : RangeState}
    (hr : vmExecRange re text look start 0 vis = some r) (hf : r.found = true) :
    ∃ saved pos, start ≤ pos ∧ pos ≤ text.length ∧ SlotsOk start pos [] saved ∧ (start : Int) ≤ saved 0 ∧
      ∀ k < re.slotCount, r.foundSaved k = saved k := by
  obtain ⟨pos, m, hlo, hhi, hinv, hm, hsaved⟩ := vmExecRange_kept (stable_scopes h text look) hstart
    ⟨.inr ⟨[], h.table.entry, slotsOk_init⟩, .inl rfl⟩ hr hf
  refine ⟨m.saved, pos, hlo, hhi, hinv.matched h hm, hinv.2.resolve_left fun hz => ?_, hsaved⟩
  have hlt := (List.getElem?_eq_some_iff.1 h.first).1
  rw [hz, h.prog, place_get, List.getElem?_append_left hlt, h.first] at hm
  cases hm

end Run

theorem HoldsCode.scopedProg {re : ReHandle} {t : Node} {r : Reader} {tail : Code} (h : HoldsCode re t r tail) :
    ∃ whole P rest τ, ScopedProg re whole P rest τ := by
  have hcode : ∀ closed, Node.groupCode 0 closed t.code = .save 0 :: (t.code ++ if closed then [.save 1] else []) :=
    fun _ => rfl
  rcases h.tail_eq with ⟨rfl, hw⟩ | ⟨rfl, hw⟩ | rfl
  · obtain ⟨τ, hτ⟩ := scoped_whole (t := .group 0 true t) ⟨rfl, hw⟩ []
    refine ⟨True, (Node.group 0 true t).code, [.matched], τ, ?_, rfl, hτ, Node.inward_code _, .inr ⟨rfl, trivial⟩⟩
    rw [h.prog, progCode]
    show _ = place 0 (Node.groupCode 0 true t.code ++ _)
    rw [hcode]
    simp
  · obtain ⟨τ, hτ⟩ := scoped_whole (t := .group 0 true t) ⟨rfl, hw⟩ []
    refine ⟨True, (Node.group 0 true t).code, [], τ, ?_, rfl, hτ, Node.inward_code _, .inl rfl⟩
    rw [h.prog, progCode]
    show _ = place 0 (Node.groupCode 0 true t.code ++ _)
    rw [hcode]
    simp
  · obtain ⟨τ, hτ⟩ := scoped_snug (t := .group 0 false t) ⟨h.snug, fun hc => absurd hc Bool.false_ne_true⟩ []
    refine ⟨False, (Node.group 0 false t).code, [], τ, ?_, rfl, hτ, Node.inward_code _, .inl rfl⟩
    rw [h.prog, progCode]
    show _ = place 0 (Node.groupCode 0 false t.code ++ _)
    rw [hcode]
    simp

section Exec

variable {re re' : ReHandle} {text : List UInt8} {s start n : Nat}

/-- The answer is the match of a run from a position of the text at or behind `s`. -/
def FromRun (re : ReHandle) (text : List UInt8) (s : Nat) (re' : ReHandle) : Prop :=
  ∃ i vis r, s ≤ i ∧ i ≤ text.length ∧ vmExecRange re text (nestedRuns re text) i 0 vis = some r ∧ r.found = true ∧
    re' = (re.hasMatch r.foundSaved).1

theorem FromRun.earlier {s' : Nat} (h : FromRun re text s' re') (hle : s ≤ s') : FromRun re text s re' := by
  obtain ⟨i, vis, r, hi, h⟩ := h
  exact ⟨i, vis, r, Nat.le_trans hle hi, h⟩

theorem candidate_le (hs : s ≤ text.length) {i : Nat} (h : candidate re text s = some i) : s ≤ i ∧ i ≤ text.length := by
  unfold candidate at h
  split at h
  · next hne =>
    have hfirst := Text.strFind_first hne hs
    rw [h] at hfirst
    have := hfirst.2.1.le (List.length_pos_iff.2 hne)
    exact ⟨hfirst.1, by omega⟩
  · split at h
    · obtain ⟨hlo, hhi, -⟩ := skipTo_spec
        (fun s => decide (byteAt text s < 128) && re.firstBytes (byteAt text s).toNat) (text.length - s) s
      rw [← firstByteFrom] at hlo hhi
      grind
    grind

theorem searchLoop_fromRun {fuel : Nat} {vis : Visited} (h : searchLoop re text fuel s vis = some (re', n))
    (hn : 0 < n) : FromRun re text s re' := by
  induction fuel generalizing s vis with
  | zero => cases h
  | succ fuel ih =>
    unfold searchLoop at h
    split at h
    · cases h
      cases hn
    · next hle =>
      rw [Nat.not_lt] at hle
      cases hc : candidate re text s with
      | none =>
        rw [hc] at h
        cases h
        cases hn
      | some i =>
        rw [hc] at h
        obtain ⟨hsi, hi⟩ := candidate_le hle hc
        obtain ⟨r, hr, h⟩ := Option.bind_eq_some_iff.1 h
        split at h
        · next hf =>
          cases h
          exact ⟨i, vis, r, hsi, hi, hr, hf, rfl⟩
        · exact (ih h).earlier (Nat.le_succ_of_le hsi)

theorem lineLoop_fromRun {fuel : Nat} {vis : Visited} (h : lineLoop re text fuel s vis = some (re', n)) (hn : 0 < n) :
    FromRun re text s re' := by
  induction fuel generalizing s vis with
  | zero => cases h
  | succ fuel ih =>
    unfold lineLoop at h
    split at h
    · cases h
      cases hn
    · next hle =>
      obtain ⟨r, hr, h⟩ := Option.bind_eq_some_iff.1 h
      split at h
      · next hf =>
        cases h
        exact ⟨s, vis, r, Nat.le_refl s, Nat.not_lt.1 hle, hr, hf, rfl⟩
      · split at h
        · cases h
          cases hn
        · exact (ih h).earlier (Nat.le_of_succ_le (skipTo_spec _ _ _).1)

theorem reExecVmGeneral_fromRun (h : reExecVmGeneral re text start = some (re', n)) (hn : 0 < n) :
    FromRun re text start re' := by
  unfold reExecVmGeneral at h
  split at h
  · split at h
    · cases h
      cases hn
    · next hz =>
      obtain ⟨r, hr, h⟩ := Option.bind_eq_some_iff.1 h
      split at h
      · next hf =>
        cases h
        exact ⟨0, _, r, Nat.le_of_not_lt hz, Nat.zero_le _, hr, hf, rfl⟩
      · cases h
        cases hn
  · split at h
    · refine (lineLoop_fromRun h hn).earlier ?_
      split
      · exact (skipTo_spec _ _ _).1
      · exact Nat.le_refl start
    · exact searchLoop_fromRun h hn

/-- Each group of the handle is unset, or a span of a text of length `len`. -/
def SpansOf (re : ReHandle) (len : Nat) : Prop :=
  ∀ g ≤ re.nGroups, (re.saved (2 * g) = -1 ∧ re.saved (2 * g + 1) = -1) ∨
    (0 ≤ re.saved (2 * g) ∧ re.saved (2 * g) ≤ re.saved (2 * g + 1) ∧ re.saved (2 * g + 1) ≤ len)

theorem SpansOf.range {len : Nat} (h : SpansOf re len) {i : Int} (hi : i ≤ re.nGroups)
    (hs : 0 ≤ capStart re i) : 0 ≤ capLen re i ∧ capStart re i + capLen re i ≤ len := by
  unfold capStart at hs ⊢
  unfold capLen
  by_cases hout : i < 0 ∨ (maxGroups : Int) ≤ i
  · grind
  · rw [not_or] at hout
    have hspan := h i.toNat (by omega)
    grind

theorem SpansOf.groupSpan {len : Nat} (h : SpansOf re len) {i s l : Int}
    (hr : groupSpan re i = some (s, l)) : 0 ≤ s ∧ 0 ≤ l ∧ s + l ≤ len := by
  unfold Regex.groupSpan at hr
  split at hr
  · cases hr
  · next hi =>
    split at hr
    · cases hr
    · next hneg =>
      cases hr
      have := h.range (i := i) (by omega) (by omega)
      exact ⟨by omega, this⟩

theorem SpansOf.capStrRange {len : Nat} (h : SpansOf re len) {i s l : Int}
    (hi : i ≤ re.nGroups) (hr : capStrRange re i = some (s, l)) : 0 ≤ s ∧ 0 ≤ l ∧ s + l ≤ len := by
  unfold Regex.capStrRange at hr
  split at hr
  · cases hr
  · next hneg =>
    cases hr
    exact ⟨by omega, h.range hi (by omega)⟩

/-- After a match by the VM every group is unset or a span of the text, group 0 is at or behind the start, and so no
reader takes a range outside the text. -/
theorem captures_sliceable {pattern : List UInt8} {flags : Nat} (h : compile pattern flags = .ok re)
    (hvm : (re.litIsWhole && !re.ignorecase) = false ∧ re.onepass = false)
    {onepass : ReHandle → List UInt8 → Nat → Option (ReHandle × Nat)}
    (hexec : regexExec re text onepass start = some (re', n)) (hn : 0 < n) :
    SpansOf re' text.length ∧
    (start : Int) ≤ re'.saved 0 ∧
    (∀ i s l, groupSpan re' i = some (s, l) → 0 ≤ s ∧ 0 ≤ l ∧ s + l ≤ text.length) ∧
    (∀ i s l : Int, i ≤ re'.nGroups → capStrRange re' i = some (s, l) →
      0 ≤ s ∧ 0 ≤ l ∧ s + l ≤ text.length) := by
  obtain ⟨t, r, tail, hread, hholds⟩ := compile_holds h
  obtain ⟨whole, P, rest, τ, hscoped⟩ := hholds.scopedProg
  have hgroups : re.nGroups < maxGroups := by
    rw [hholds.groups]
    exact (readPattern_uses hread).1
  have hscoped' : ScopedProg { re with dfaOnly := none } whole P rest τ :=
    ⟨hscoped.prog, hscoped.first, hscoped.table, hscoped.inward, hscoped.rest_eq⟩
  have hgeneral : reExecVmGeneral { re with dfaOnly := none } text start = some (re', n) := by
    unfold regexExec at hexec
    dsimp only at hexec
    rwa [if_neg (by rw [show ({ re with dfaOnly := none } : ReHandle).ignorecase = re.ignorecase from rfl, hvm.1]; decide),
      if_neg (by rw [hvm.2]; decide)] at hexec
  obtain ⟨i, vis, run, hi, hile, hrun, hf, rfl⟩ := reExecVmGeneral_fromRun hgeneral hn
  obtain ⟨saved, pos, -, hpos, hslots, hzero, hcopy⟩ := vmExecRange_slots hscoped' hile hrun hf
  have hcount : ∀ k < (re.nGroups + 1) * 2, (({ re with dfaOnly := none } : ReHandle).hasMatch run.foundSaved).1.saved k = saved k := by
    intro k hk
    have hk' : k < ({ re with dfaOnly := none } : ReHandle).slotCount := by
      show k < min ((re.nGroups + 1) * 2) (maxGroups * 2)
      omega
    exact (if_pos hk').trans (hcopy k hk')
  have hspans : SpansOf (({ re with dfaOnly := none } : ReHandle).hasMatch run.foundSaved).1 text.length := by
    intro g hg
    have hg : g ≤ re.nGroups := hg
    rw [hcount (2 * g) (by omega), hcount (2 * g + 1) (by omega)]
    have := hslots g
    rw [if_neg List.not_mem_nil, Nat.mul_comm g] at this
    exact this.imp_right fun ⟨h₁, h₂, h₃⟩ => ⟨by omega, h₂, by omega⟩
  refine ⟨hspans, ?_, fun i s l hr => hspans.groupSpan hr,
    fun i s l hi hr => hspans.capStrRange hi hr⟩
  rw [hcount 0 (by omega)]
  omega

theorem captures_sliceable_ab : ∃ re re' n, compile [92, 98, 40, 97, 41, 63] 0 = .ok re ∧
    regexExec re [45, 97] (fun _ _ _ => none) 1 = some (re', n) ∧ SpansOf re' 2 ∧ (1 : Int) ≤ re'.saved 0 := by
  have hrun : ((toOption (compile [92, 98, 40, 97, 41, 63] 0)).bind fun re =>
      (regexExec re [45, 97] (fun _ _ _ => none) 1).map Prod.snd) = some 2 := by decide +kernel
  obtain ⟨re, hre, hrun⟩ := Option.bind_eq_some_iff.1 hrun
  obtain ⟨⟨re', n⟩, hexec, rfl⟩ := Option.map_eq_some_iff.1 hrun
  have hvm : ((toOption (compile [92, 98, 40, 97, 41, 63] 0)).map fun re =>
      ((re.litIsWhole && !re.ignorecase), re.onepass)) = some (false, false) := by decide +kernel
  rw [hre] at hvm
  have hall := captures_sliceable (ok_of_toOption hre) (Prod.mk.inj (Option.some.inj hvm)) hexec (by decide)
  exact ⟨re, re', _, ok_of_toOption hre, hexec, hall.1, hall.2.1⟩

end Exec

end LsLang.Regex
