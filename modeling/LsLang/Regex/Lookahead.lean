import LsLang.Regex.Emitted
import LsLang.Regex.VmStep

/-! A lookahead runs in its own part of the program, so nested runs end. -/

namespace LsLang.Regex

/-- Where a thread at an instruction can stand next, when `next` is the address behind it. -/
def Instr.exits (next : Nat) : ReInstr → List Nat
  | .split a b => [a, b]
  | .jump a => [a]
  | .lookahead a _ => [a]
  | .matched => []
  | _ => [next]

theorem Instr.mem_exits {next a : Nat} {ins : ReInstr} (h : a ∈ ins.exits next) : a ∈ ins.targets ∨ a = next := by
  cases ins <;> simp_all [Instr.exits, Instr.targets]

theorem Instr.exits_consuming {next : Nat} {ins : ReInstr} (h : ins.consuming = true) : ins.exits next = [next] := by
  cases ins <;> first | rfl | cases h

theorem Instr.exits_anchor {next : Nat} {ins : ReInstr} (h : ins.isAnchor = true) : ins.exits next = [next] := by
  cases ins <;> first | rfl | cases h

/-- No thread leaves the addresses `S`. -/
def FlowClosed (re : ReHandle) (S : Nat → Prop) : Prop :=
  ∀ pc ins, S pc → re.prog[pc]? = some ins → ∀ a ∈ ins.exits (pc + 1), S a

section Congr

variable {re : ReHandle} {text : List UInt8} {look look' : Nat → Nat → Option Bool} {pos : Nat} {S : Nat → Prop}

theorem FlowClosed.eps (hS : FlowClosed re S) {t t' : ReThread} (ht : S t.pc) (h : Eps re text look pos t t') :
    S t'.pc := by
  cases h with
  | save hi => exact hS _ _ ht hi _ List.mem_cons_self
  | left hi => exact hS _ _ ht hi _ List.mem_cons_self
  | right hi => exact hS _ _ ht hi _ (List.mem_cons_of_mem _ List.mem_cons_self)
  | jump hi => exact hS _ _ ht hi _ List.mem_cons_self
  | ahead hi => exact hS _ _ ht hi _ List.mem_cons_self
  | anchor hi ha =>
    refine hS _ _ ht hi _ ?_
    rw [Instr.exits_anchor ha]
    exact List.mem_cons_self

theorem Eats.consuming {t : ReThread} (h : Eats re text pos t) :
    ∃ ins, re.prog[t.pc]? = some ins ∧ ins.consuming = true ∧ re.matchChar ins (byteAt text pos) = true := by
  obtain ⟨-, hm⟩ := h
  rw [List.getD_eq_getElem?_getD] at hm
  cases hi : re.prog[t.pc]? with
  | none =>
    rw [hi] at hm
    cases hm
  | some ins =>
    rw [hi, Option.getD_some] at hm
    refine ⟨ins, rfl, ?_, hm⟩
    by_contra hc
    rw [ReHandle.matchChar_of_not_consuming (Bool.eq_false_of_not_eq_true hc)] at hm
    cases hm

theorem FlowClosed.eat (hS : FlowClosed re S) {t : ReThread} (ht : S t.pc) (h : Eats re text pos t) :
    S (t.pc + 1) := by
  obtain ⟨ins, hi, hc, -⟩ := h.consuming
  refine hS _ _ ht hi _ ?_
  rw [Instr.exits_consuming hc]
  exact List.mem_cons_self

/-- Two nested runs that agree on the lookaheads of `S`, at `pos`. -/
def LooksAgree (re : ReHandle) (S : Nat → Prop) (look look' : Nat → Nat → Option Bool) (pos : Nat) : Prop :=
  ∀ pc a isNeg, S pc → re.prog[pc]? = some (.lookahead a isNeg) → look (pc + 1) pos = look' (pc + 1) pos

theorem addThread_congr (hS : FlowClosed re S) (hlook : LooksAgree re S look look' pos) (fuel : Nat)
    (st : AddState) (t : ReThread) (ht : S t.pc) :
    addThread re text look pos fuel st t = addThread re text look' pos fuel st t := by
  induction fuel generalizing st t with
  | zero => rfl
  | succ fuel ih =>
    cases hi : re.prog[t.pc]? with
    | none =>
      unfold addThread
      rw [hi]
    | some ins =>
      by_cases hv : st.vis.test t.pc = true
      · unfold addThread
        grind
      · rw [Bool.not_eq_true] at hv
        have hexit := hS _ _ ht hi
        cases ins.kind with
        | save slot =>
          unfold addThread
          rw [hi]
          simp only [hv]
          exact ih _ _ (hexit _ List.mem_cons_self)
        | split a b =>
          rw [addThread_split hi hv, addThread_split hi hv, ih _ { t with pc := a } (hexit a List.mem_cons_self)]
          refine congrArg (Option.bind _) (funext fun rA => ?_)
          rw [ih rA.1 { t with pc := b } (hexit b (List.mem_cons_of_mem _ List.mem_cons_self))]
        | jump a =>
          unfold addThread
          rw [hi]
          simp only [hv]
          exact ih _ _ (hexit _ List.mem_cons_self)
        | lookahead a isNeg =>
          unfold addThread
          rw [hi]
          simp only [hv]
          rw [hlook _ _ _ ht hi, ih _ { t with pc := a } (hexit _ List.mem_cons_self)]
        | matched =>
          unfold addThread
          rw [hi]
        | consuming hc => rw [addThread_consuming hi hv hc, addThread_consuming hi hv hc]
        | anchor ha =>
          rw [Instr.exits_anchor ha] at hexit
          rw [addThread_anchor hi hv ha, addThread_anchor hi hv ha,
            ih _ { t with pc := t.pc + 1 } (hexit _ List.mem_cons_self)]

theorem threadLoop_congr (hS : FlowClosed re S) (hlook : LooksAgree re S look look' (pos + 1)) (hpos : pos ≤ text.length)
    (ts : List ReThread) (hts : ∀ t ∈ ts, S t.pc) (st : AddState) (blocks : List (Nat × Nat)) :
    threadLoop re text look pos ts st blocks = threadLoop re text look' pos ts st blocks := by
  induction ts generalizing st blocks with
  | nil => rfl
  | cons t ts ih =>
    have ih := ih fun t' ht' => hts t' (List.mem_cons_of_mem _ ht')
    unfold threadLoop
    split
    · exact ih _ _
    · next hend =>
      split
      · next hm =>
        have heat : Eats re text pos t := ⟨Nat.lt_of_le_of_ne hpos hend, hm⟩
        rw [addThread_congr hS hlook _ _ { t with pc := t.pc + 1 } (hS.eat (hts t List.mem_cons_self) heat)]
        grind
      · exact ih _ _

theorem posLoop_congr (hS : FlowClosed re S) (hlook : ∀ pos, LooksAgree re S look look' pos) {n : Nat}
    {s : RangeState} (hcur : ∀ t ∈ s.cur, S t.pc) (hend : pos ≤ text.length ∨ s.cur = [] ∨ n = 0) :
    posLoop re text look n pos s = posLoop re text look' n pos s := by
  induction n generalizing pos s with
  | zero => rfl
  | succ n ih =>
    unfold posLoop
    split
    · rfl
    · next hne =>
      have hpos : pos ≤ text.length := by grind
      have hrev : ∀ t ∈ s.cur.reverse, S t.pc := fun t ht => hcur t (List.mem_reverse.1 ht)
      dsimp only
      rw [threadLoop_congr hS (hlook (pos + 1)) hpos _ hrev]
      cases h : threadLoop re text look' pos s.cur.reverse
          ⟨[], s.vis.clear re.prog.length, s.foundSaved, s.dropped⟩ [] with
      | none => rfl
      | some r =>
        obtain ⟨st, blocks, got⟩ := r
        by_cases hlt : pos = text.length
        · rw [hlt, threadLoop_end] at h
          cases h
          exact ih (fun t (ht : t ∈ restoreOrder [] []) => absurd ht List.not_mem_nil) (.inr (.inl rfl))
        · obtain ⟨hk, -⟩ := threadLoop_kept (I := fun t => S t.pc) (fun t t' ht he => hS.eps ht he)
            (fun t ht he => hS.eat (hrev t ht) he) (fun t ht => absurd ht List.not_mem_nil) hpos h
          exact ih (fun t ht => hk.next t (mem_restoreOrder ht)) (.inl (Nat.lt_of_le_of_ne hpos hlt))

theorem vmExecRange_congr (hS : FlowClosed re S) (hlook : ∀ pos, LooksAgree re S look look' pos) {start pcStart : Nat}
    (h₀ : S pcStart) (vis : Visited) :
    vmExecRange re text look start pcStart vis = vmExecRange re text look' start pcStart vis := by
  unfold vmExecRange
  dsimp only
  rw [addThread_congr hS (hlook start) _ _ ⟨pcStart, fun _ => -1⟩ h₀]
  cases h : addThread re text look' start (re.prog.length + 1) ⟨[], vis.clear re.prog.length, fun _ => -1, false⟩
      ⟨pcStart, fun _ => -1⟩ with
  | none => rfl
  | some r =>
    have hk := addThread_kept (I := fun t => S t.pc) (fun t t' ht he => hS.eps ht he) h₀ (by nofun) h
    refine posLoop_congr hS hlook hk.next ?_
    grind

end Congr

def LookLocal (re : ReHandle) : Prop :=
  ∀ j a isNeg, re.prog[j]? = some (.lookahead a isNeg) → ∃ S : Nat → Prop, FlowClosed re S ∧ S (j + 1) ∧ ∀ pc, S pc → j < pc

theorem vmExecLookahead_isSome {re : ReHandle} (hll : LookLocal re) (text : List UInt8) {n j a : Nat} {isNeg : Bool}
    (hj : re.prog[j]? = some (.lookahead a isNeg)) (hn : re.prog.length - j ≤ n) (pos : Nat) :
    ∃ ok, vmExecLookahead re text n (j + 1) pos = some ok := by
  induction n generalizing j a isNeg pos with
  | zero =>
    grind
  | succ n ih =>
    obtain ⟨S, hS, hbody, hbehind⟩ := hll j a isNeg hj
    have hagree : ∀ pos, LooksAgree re S (vmExecLookahead re text n)
        (fun pc pos => some ((vmExecLookahead re text n pc pos).getD false)) pos := by
      intro pos pc a' isNeg' hpc hi
      have := hbehind pc hpc
      obtain ⟨ok, hok⟩ := ih hi (by omega) pos
      grind
    obtain ⟨s, hs⟩ := @vmExecRange_isSome re text
      (fun pc pos => some ((vmExecLookahead re text n pc pos).getD false))
      (fun _ _ _ _ _ => ⟨_, rfl⟩) pos (j + 1) Visited.init
    refine ⟨s.found, ?_⟩
    unfold vmExecLookahead
    rw [vmExecRange_congr hS hagree hbody, hs]
    rfl

/-! Where the lookaheads of the code of a pattern stand. -/

section Code

/-- The code has a lookahead at `j` with all of its body, and the `MATCH` of the body. -/
def Enclosed (c : Code) (j : Nat) : Prop :=
  ∃ pre isNeg body post, c = pre ++ Node.lookCode isNeg true body ++ post ∧ pre.length = j ∧ Closed body

/-- The code ends in the body of a lookahead at `j`. -/
def OpenEnded (c : Code) (j : Nat) : Prop :=
  ∃ pre isNeg body, c = pre ++ Node.lookCode isNeg false body ∧ pre.length = j ∧ Inward body

def AllEnclosed (d : Code) : Prop :=
  ∀ (j : Nat) (off : Int) (isNeg : Bool), d[j]? = some (.lookahead off isNeg) → Enclosed d j

def AllLocal (d : Code) : Prop :=
  ∀ (j : Nat) (off : Int) (isNeg : Bool), d[j]? = some (.lookahead off isNeg) → Enclosed d j ∨ OpenEnded d j

variable {c d : Code} {j : Nat}

theorem AllEnclosed.allLocal (h : AllEnclosed c) : AllLocal c := fun j off isNeg hj => .inl (h j off isNeg hj)

theorem Enclosed.append_right (h : Enclosed c j) (d : Code) : Enclosed (c ++ d) j := by
  obtain ⟨pre, isNeg, body, post, rfl, hj, hb⟩ := h
  exact ⟨pre, isNeg, body, post ++ d, by grind, hj, hb⟩

theorem Enclosed.append_left (h : Enclosed d j) (c : Code) : Enclosed (c ++ d) (c.length + j) := by
  obtain ⟨pre, isNeg, body, post, rfl, hj, hb⟩ := h
  exact ⟨c ++ pre, isNeg, body, post, by grind, by rw [List.length_append, hj], hb⟩

theorem OpenEnded.append_left (h : OpenEnded d j) (c : Code) : OpenEnded (c ++ d) (c.length + j) := by
  obtain ⟨pre, isNeg, body, rfl, hj, hb⟩ := h
  exact ⟨c ++ pre, isNeg, body, by grind, by rw [List.length_append, hj], hb⟩

theorem AllEnclosed.append (hc : AllEnclosed c) (hd : AllEnclosed d) : AllEnclosed (c ++ d) := by
  intro j off isNeg hj
  by_cases hlt : j < c.length
  · rw [List.getElem?_append_left hlt] at hj
    exact (hc j off isNeg hj).append_right d
  · rw [List.getElem?_append_right (Nat.le_of_not_lt hlt)] at hj
    have := (hd _ off isNeg hj).append_left c
    grind

theorem AllLocal.append (hc : AllEnclosed c) (hd : AllLocal d) : AllLocal (c ++ d) := by
  intro j off isNeg hj
  by_cases hlt : j < c.length
  · rw [List.getElem?_append_left hlt] at hj
    exact .inl ((hc j off isNeg hj).append_right d)
  · rw [List.getElem?_append_right (Nat.le_of_not_lt hlt)] at hj
    have := (hd _ off isNeg hj).imp (fun h => h.append_left c) (fun h => h.append_left c)
    grind

theorem allEnclosed_nil : AllEnclosed [] := by
  intro j off isNeg hj
  cases hj

theorem allEnclosed_singleton {ins : Instr Int} (h : ∀ off isNeg, ins ≠ .lookahead off isNeg) : AllEnclosed [ins] := by
  intro j off isNeg hj
  grind

theorem allEnclosed_split (a b : Int) : AllEnclosed [.split a b] := allEnclosed_singleton fun _ _ h => nomatch h

theorem allEnclosed_jump (a : Int) : AllEnclosed [.jump a] := allEnclosed_singleton fun _ _ h => nomatch h

theorem allEnclosed_save (slot : Nat) : AllEnclosed [.save slot] := allEnclosed_singleton fun _ _ h => nomatch h

theorem allEnclosed_matched : AllEnclosed [.matched] := allEnclosed_singleton fun _ _ h => nomatch h

theorem allEnclosed_branch (lazy : Bool) (x y : Int) : AllEnclosed [branch lazy x y] :=
  allEnclosed_singleton fun off isNeg => by cases lazy <;> nofun

theorem AllEnclosed.times (h : AllEnclosed c) (k : Nat) : AllEnclosed (times k c) := by
  induction k with
  | zero => exact allEnclosed_nil
  | succ k ih =>
    rw [times_succ]
    exact h.append ih

theorem AllEnclosed.quant (h : AllEnclosed c) (q : Quantifier) (lazy : Bool) : AllEnclosed (quantCode q lazy c) := by
  cases q with
  | opt => exact (allEnclosed_branch lazy _ _).append h
  | star => exact (allEnclosed_branch lazy _ _).append (h.append (allEnclosed_jump _))
  | plus => exact h.append (allEnclosed_branch lazy _ _)

theorem AllEnclosed.count (h : AllEnclosed c) (n m : Int) (lazy : Bool) : AllEnclosed (countCode n m lazy c) := by
  unfold countCode
  split
  · split
    · exact allEnclosed_nil
    · split
      · exact h.quant _ _
      · exact (h.quant _ _).append ((h.quant _ _).times _)
  · refine (h.append (h.times _)).append ?_
    split
    · exact h.quant _ _
    · exact (h.quant _ _).times _

theorem allEnclosed_code {t : Node} (h : t.Whole) : AllEnclosed t.code := by
  induction t with
  | empty => exact allEnclosed_nil
  | item ins hi =>
    refine allEnclosed_singleton fun off isNeg he => ?_
    have := Node.targets_of_empty ins hi
    rw [he] at this
    cases this
  | cat l r ihl ihr => exact (ihl h.1).append (ihr h.2)
  | alt jumped l r ihl ihr =>
    obtain ⟨rfl, hl, hr⟩ := h
    exact (allEnclosed_split _ _).append (((ihl hl).append (allEnclosed_jump _)).append (ihr hr))
  | quant q lazy x ih => exact (ih h).quant q lazy
  | count n m lazy x ih => exact (ih h).count n m lazy
  | group g closed x ih =>
    obtain ⟨rfl, hx⟩ := h
    exact (allEnclosed_save _).append ((ih hx).append (allEnclosed_save _))
  | look isNeg closed x ih =>
    obtain ⟨rfl, hx⟩ := h
    intro j off isNeg' hj
    cases j with
    | zero => exact ⟨[], isNeg, x.code, [], by simp [Node.code], rfl, hx.closed_code⟩
    | succ j =>
      have := (ih hx).append allEnclosed_matched j off isNeg' hj
      have := this.append_left [.lookahead (x.code.length + 2 : Int) isNeg]
      rwa [List.length_singleton, Nat.add_comm] at this

theorem allLocal_code {t : Node} (h : t.Snug) : AllLocal t.code := by
  induction t with
  | empty => exact allEnclosed_nil.allLocal
  | item ins hi => exact (allEnclosed_code (t := .item ins hi) trivial).allLocal
  | cat l r ihl ihr =>
    obtain ⟨hl, hr, hcase⟩ := h
    rcases hcase with hnil | hw
    · show AllLocal (l.code ++ r.code)
      grind
    · exact AllLocal.append (allEnclosed_code hw) (ihr hr)
  | alt jumped l r ihl ihr =>
    obtain ⟨hl, hr, -⟩ := h
    refine AllLocal.append (c := .split 1 _ :: (l.code ++ if jumped then [.jump _] else [])) ?_ (ihr hr)
    refine (allEnclosed_split _ _).append ((allEnclosed_code hl).append ?_)
    split
    · exact allEnclosed_jump _
    · exact allEnclosed_nil
  | quant q lazy x ih =>
    obtain ⟨hx, hcase⟩ := h
    rcases hcase with rfl | hw
    · exact AllLocal.append (allEnclosed_branch lazy _ _) (ih hx)
    · exact (allEnclosed_code (t := .quant q lazy x) hw).allLocal
  | count n m lazy x ih =>
    obtain ⟨hx, (hcode | hcode) | hw⟩ := h
    · show AllLocal (countCode n m lazy x.code)
      grind
    · show AllLocal (countCode n m lazy x.code)
      rw [hcode]
      exact AllLocal.append (allEnclosed_branch lazy _ _) (ih hx)
    · exact (allEnclosed_code (t := .count n m lazy x) hw).allLocal
  | group g closed x ih =>
    obtain ⟨hx, hcase⟩ := h
    cases closed with
    | true => exact (allEnclosed_code (t := .group g true x) ⟨rfl, hcase rfl⟩).allLocal
    | false =>
      refine AllLocal.append (c := [.save (g * 2)]) (d := x.code ++ []) (allEnclosed_save _) ?_
      grind
  | look isNeg closed x ih =>
    obtain ⟨hx, hcase⟩ := h
    cases closed with
    | true => exact (allEnclosed_code (t := .look isNeg true x) ⟨rfl, hcase rfl⟩).allLocal
    | false =>
      intro j off isNeg' hj
      cases j with
      -- a lookahead that is not closed is the last of the program: its part reaches to the end
      | zero => exact .inr ⟨[], isNeg, x.code, rfl, rfl, x.inward_code⟩
      | succ j =>
        have hj : (x.code ++ [])[j]? = some (.lookahead off isNeg') := hj
        rw [List.append_nil] at hj
        have := (ih hx j off isNeg' hj).imp
          (fun h => h.append_left [.lookahead (x.code.length + 2 : Int) isNeg])
          (fun h => h.append_left [.lookahead (x.code.length + 2 : Int) isNeg])
        rw [List.length_singleton, Nat.add_comm] at this
        show Enclosed (.lookahead _ isNeg :: (x.code ++ [])) _ ∨ OpenEnded (.lookahead _ isNeg :: (x.code ++ [])) _
        grind

theorem place_append_get (pre d : Code) (b i : Nat) :
    (place b (pre ++ d))[pre.length + i]? = d[i]?.map fun ins => ins.map (absolute (b + pre.length + i)) := by
  rw [place_get, List.getElem?_append_right (Nat.le_add_right _ _), Nat.add_sub_cancel_left, Nat.add_assoc]

theorem targets_placed {b i : Nat} {ins : ReInstr} {P : Int → Prop} (hc : TargetsIn d P) (hP : ∀ t, P t → 0 ≤ t)
    (hi : (d[i]?.map fun ins => ins.map (absolute (b + i))) = some ins) {a : Nat} (ha : a ∈ ins.targets) :
    b ≤ a ∧ P (a - b) := by
  obtain ⟨rel, hrel, rfl⟩ := Option.map_eq_some_iff.1 hi
  rw [Instr.targets_map] at ha
  obtain ⟨off, ho, rfl⟩ := List.mem_map.1 ha
  have ht := hc i rel hrel off ho
  have := hP _ ht
  unfold absolute
  grind

theorem AllLocal.lookLocal {re : ReHandle} (hprog : re.prog = place 0 d) (h : AllLocal d) : LookLocal re := by
  intro j a isNeg hj
  have hrel : ∃ off, d[j]? = some (.lookahead off isNeg) := by
    rw [hprog, place_get] at hj
    obtain ⟨rel, hrel, hmap⟩ := Option.map_eq_some_iff.1 hj
    cases rel <;> cases hmap
    exact ⟨_, hrel⟩
  obtain ⟨off, hoff⟩ := hrel
  rcases h j off isNeg hoff with ⟨pre, isNeg, body, post, rfl, rfl, hb⟩ | ⟨pre, isNeg, body, rfl, rfl, hb⟩
  · have hat : ∀ i, re.prog[pre.length + 1 + i]? =
        (body ++ .matched :: post)[i]?.map fun ins => ins.map (absolute (pre.length + 1 + i)) := by
      intro i
      have := place_append_get (pre ++ [.lookahead (body.length + 2 : Int) isNeg]) (body ++ .matched :: post) 0 i
      rw [List.length_append, List.length_singleton, Nat.zero_add] at this
      rw [← this, hprog]
      simp [Node.lookCode]
    refine ⟨fun pc => pre.length + 1 ≤ pc ∧ pc ≤ pre.length + 1 + body.length, ?_, ⟨Nat.le_refl _, Nat.le_add_right _ _⟩,
      fun pc hpc => hpc.1⟩
    rintro pc ins ⟨hlo, hhi⟩ hi a ha
    obtain ⟨i, rfl⟩ := Nat.exists_eq_add_of_le hlo
    rw [hat] at hi
    rcases Nat.lt_or_ge i body.length with hlt | hge
    · rw [List.getElem?_append_left hlt] at hi
      rcases Instr.mem_exits ha with ha | rfl
      · have := targets_placed hb (fun t ht => ht.1) hi ha
        omega
      · omega
    · obtain rfl : i = body.length := by omega
      rw [List.getElem?_append_right (Nat.le_refl _), Nat.sub_self] at hi
      cases hi
      cases ha
  · have hat : ∀ i, re.prog[pre.length + 1 + i]? =
        body[i]?.map fun ins => ins.map (absolute (pre.length + 1 + i)) := by
      intro i
      have := place_append_get (pre ++ [.lookahead (body.length + 2 : Int) isNeg]) body 0 i
      rw [List.length_append, List.length_singleton, Nat.zero_add] at this
      rw [← this, hprog]
      simp [Node.lookCode]
    refine ⟨fun pc => pre.length + 1 ≤ pc, ?_, Nat.le_refl _, fun pc hpc => hpc⟩
    intro pc ins hlo hi a ha
    obtain ⟨i, rfl⟩ := Nat.exists_eq_add_of_le hlo
    rw [hat] at hi
    rcases Instr.mem_exits ha with ha | rfl
    · exact (targets_placed hb (fun t ht => ht) hi ha).1
    · omega

end Code

theorem HoldsCode.allLocal {re : ReHandle} {t : Node} {r : Reader} {tail : Code} (h : HoldsCode re t r tail) :
    AllLocal (progCode t tail) := by
  refine AllLocal.append (allEnclosed_save 0) ?_
  rcases h.tail_eq with ⟨rfl, hw⟩ | ⟨rfl, hw⟩ | rfl
  · exact AllLocal.append (allEnclosed_code hw) ((allEnclosed_save 1).append allEnclosed_matched).allLocal
  · exact AllLocal.append (allEnclosed_code hw) (allEnclosed_save 1).allLocal
  · show AllLocal (t.code ++ [])
    rw [List.append_nil]
    exact allLocal_code h.snug

theorem HoldsCode.lookLocal {re : ReHandle} {t : Node} {r : Reader} {tail : Code} (h : HoldsCode re t r tail) :
    LookLocal re :=
  h.allLocal.lookLocal h.prog

end LsLang.Regex
