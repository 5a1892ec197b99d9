import LsLang.Regex.Vm
import Mathlib.Data.Finset.Card
import Mathlib.Data.Finset.Range

/-! What one turn of `add_thread` can do, what it keeps, and that it ends. -/

namespace LsLang.Regex

theorem splitOrder_zero (l : List ReThread) (base lenA : Nat) : splitOrder l base lenA 0 = l := by
  simp [splitOrder]

namespace Visited

/-- No generation of the first `n` addresses is ahead of the counter. -/
def Bounded (v : Visited) (n : Nat) : Prop :=
  v.current < 2 ^ 32 ∧ ∀ pc < n, v.gen pc ≤ v.current

theorem init_bounded (n : Nat) : init.Bounded n := ⟨by decide, fun _ _ => Nat.le_refl _⟩

theorem Bounded.set {v : Visited} {n : Nat} (h : v.Bounded n) (pc : Nat) :
    (v.set pc).Bounded n := by
  refine ⟨h.1, fun i hi => ?_⟩
  by_cases hip : i = pc
  · subst hip
    simp [Visited.set]
  · simpa [Visited.set, hip] using h.2 i hi

theorem Bounded.clear {v : Visited} {n : Nat} (h : v.Bounded n) : (v.clear n).Bounded n := by
  unfold Visited.clear
  split
  · refine ⟨by simp, fun pc hpc => ?_⟩
    simp [hpc]
  · rename_i hw
    refine ⟨Nat.mod_lt _ (by decide), fun pc hpc => ?_⟩
    have := h.2 pc hpc
    have hlt := h.1
    grind

theorem test_clear {v : Visited} {n : Nat} (h : v.Bounded n) {pc : Nat} (hpc : pc < n) :
    (v.clear n).test pc = false := by
  unfold Visited.clear Visited.test
  have := h.2 pc hpc
  have hlt := h.1
  grind

theorem test_set (v : Visited) (pc i : Nat) :
    (v.set pc).test i = (decide (i = pc) || v.test i) := by
  by_cases h : i = pc <;> simp [Visited.set, Visited.test, h]

end Visited

section Step

variable {re : ReHandle} {text : List UInt8} {look : Nat → Nat → Option Bool} {pos : Nat}

def AddState.reorder (st : AddState) (base lenA lenB : Nat) : AddState :=
  { st with next := splitOrder st.next base lenA lenB }

def AddState.mark (st : AddState) (pc : Nat) : AddState := { st with vis := st.vis.set pc }

/-- The ways one call of `add_thread` with fuel `fuel + 1` can end. -/
inductive AddStep (re : ReHandle) (text : List UInt8) (look : Nat → Nat → Option Bool) (pos : Nat)
    (fuel : Nat) (st : AddState) (t : ReThread) : AddState → Bool → Prop
  | out : re.prog[t.pc]? = none → AddStep re text look pos fuel st t st false
  | seen {ins : ReInstr} : re.prog[t.pc]? = some ins → st.vis.test t.pc = true →
      AddStep re text look pos fuel st t st false
  | save {slot : Nat} {st' : AddState} {f : Bool} : re.prog[t.pc]? = some (.save slot) →
      st.vis.test t.pc = false →
      addThread re text look pos fuel (st.mark t.pc)
        { pc := t.pc + 1, saved := Function.update t.saved slot pos } = some (st', f) →
      AddStep re text look pos fuel st t st' f
  | splitA {a b : Nat} {st' : AddState} : re.prog[t.pc]? = some (.split a b) →
      st.vis.test t.pc = false →
      addThread re text look pos fuel (st.mark t.pc) { t with pc := a } = some (st', true) →
      AddStep re text look pos fuel st t st' true
  | splitB {a b : Nat} {stA stB : AddState} {f : Bool} : re.prog[t.pc]? = some (.split a b) →
      st.vis.test t.pc = false →
      addThread re text look pos fuel (st.mark t.pc) { t with pc := a } = some (stA, false) →
      addThread re text look pos fuel stA { t with pc := b } = some (stB, f) →
      AddStep re text look pos fuel st t
        (stB.reorder st.next.length (stA.next.length - st.next.length)
          (stB.next.length - stA.next.length)) f
  | jump {a : Nat} {st' : AddState} {f : Bool} : re.prog[t.pc]? = some (.jump a) →
      st.vis.test t.pc = false →
      addThread re text look pos fuel (st.mark t.pc) { t with pc := a } = some (st', f) →
      AddStep re text look pos fuel st t st' f
  | lookPass {subEnd : Nat} {isNeg ok : Bool} {st' : AddState} {f : Bool} :
      re.prog[t.pc]? = some (.lookahead subEnd isNeg) → st.vis.test t.pc = false →
      look (t.pc + 1) pos = some ok → ok ≠ isNeg →
      addThread re text look pos fuel (st.mark t.pc) { t with pc := subEnd } = some (st', f) →
      AddStep re text look pos fuel st t st' f
  | lookFail {subEnd : Nat} {isNeg : Bool} :
      re.prog[t.pc]? = some (.lookahead subEnd isNeg) → st.vis.test t.pc = false →
      look (t.pc + 1) pos = some isNeg → AddStep re text look pos fuel st t (st.mark t.pc) false
  | matched : re.prog[t.pc]? = some .matched → st.vis.test t.pc = false →
      AddStep re text look pos fuel st t
        { st.mark t.pc with matchSaved := copySlots re.slotCount t.saved st.matchSaved } true
  | push {ins : ReInstr} : re.prog[t.pc]? = some ins → st.vis.test t.pc = false →
      ins.consuming = true → st.next.length < maxThreads →
      AddStep re text look pos fuel st t { st.mark t.pc with next := st.next ++ [t] } false
  | drop {ins : ReInstr} : re.prog[t.pc]? = some ins → st.vis.test t.pc = false →
      ins.consuming = true → maxThreads ≤ st.next.length →
      AddStep re text look pos fuel st t { st.mark t.pc with dropped := true } false
  | anchorPass {ins : ReInstr} {st' : AddState} {f : Bool} : re.prog[t.pc]? = some ins →
      st.vis.test t.pc = false → ins.isAnchor = true → re.anchorHolds text pos ins = true →
      addThread re text look pos fuel (st.mark t.pc) { t with pc := t.pc + 1 } = some (st', f) →
      AddStep re text look pos fuel st t st' f
  | anchorFail {ins : ReInstr} : re.prog[t.pc]? = some ins → st.vis.test t.pc = false →
      ins.isAnchor = true → re.anchorHolds text pos ins = false →
      AddStep re text look pos fuel st t (st.mark t.pc) false

theorem addThread_consuming {fuel : Nat} {st : AddState} {t : ReThread} {ins : ReInstr}
    (hi : re.prog[t.pc]? = some ins) (hv : st.vis.test t.pc = false) (hc : ins.consuming = true) :
    addThread re text look pos (fuel + 1) st t =
      if st.next.length < maxThreads then
        some ({ st.mark t.pc with next := st.next ++ [t] }, false)
      else some ({ st.mark t.pc with dropped := true }, false) := by
  unfold addThread
  rw [hi]
  cases ins <;> first | (cases hc; done) | simp [hv, Instr.consuming, AddState.mark]

theorem addThread_anchor {fuel : Nat} {st : AddState} {t : ReThread} {ins : ReInstr}
    (hi : re.prog[t.pc]? = some ins) (hv : st.vis.test t.pc = false) (ha : ins.isAnchor = true) :
    addThread re text look pos (fuel + 1) st t =
      if re.anchorHolds text pos ins then
        addThread re text look pos fuel (st.mark t.pc) { t with pc := t.pc + 1 }
      else some (st.mark t.pc, false) := by
  conv_lhs => unfold addThread
  rw [hi]
  cases ins <;> first | (cases ha; done) | simp [hv, Instr.consuming, AddState.mark]

theorem addThread_split {fuel : Nat} {st : AddState} {t : ReThread} {a b : Nat}
    (hi : re.prog[t.pc]? = some (.split a b)) (hv : st.vis.test t.pc = false) :
    addThread re text look pos (fuel + 1) st t =
      (addThread re text look pos fuel (st.mark t.pc) { t with pc := a }).bind fun rA =>
        (if rA.2 then some (rA.1, false)
          else addThread re text look pos fuel rA.1 { t with pc := b }).bind fun rB =>
          some (rB.1.reorder st.next.length (rA.1.next.length - st.next.length)
            (rB.1.next.length - rA.1.next.length), rA.2 || rB.2) := by
  conv_lhs => unfold addThread
  rw [hi]
  simp only [hv, Bool.false_eq_true, if_false]
  refine congrArg (Option.bind _) (funext fun rA => ?_)
  rcases rA with ⟨stA, fA⟩
  cases fA <;> rfl

theorem addThread_step {fuel : Nat} {st st' : AddState} {t : ReThread} {f : Bool}
    (h : addThread re text look pos (fuel + 1) st t = some (st', f)) :
    AddStep re text look pos fuel st t st' f := by
  cases hi : re.prog[t.pc]? with
  | none =>
    unfold addThread at h
    rw [hi] at h
    cases h
    exact .out hi
  | some ins =>
    by_cases hv : st.vis.test t.pc = true
    · unfold addThread at h
      rw [hi] at h
      simp only [hv, if_true] at h
      cases h
      exact .seen hi hv
    · rw [Bool.not_eq_true] at hv
      cases ins.kind with
      | save slot =>
        unfold addThread at h
        rw [hi] at h
        simp only [hv] at h
        exact .save hi hv h
      -- the thread of `b` is not tried once one of `a` has matched
      | split a b =>
        rw [addThread_split hi hv] at h
        obtain ⟨⟨stA, fA⟩, hA, h⟩ := Option.bind_eq_some_iff.1 h
        obtain ⟨⟨stB, fB⟩, hB, h⟩ := Option.bind_eq_some_iff.1 h
        dsimp only at hB h
        cases fA with
        | true =>
          cases hB
          rw [Nat.sub_self, AddState.reorder, splitOrder_zero] at h
          cases h
          exact .splitA hi hv hA
        | false =>
          cases h
          exact .splitB hi hv hA hB
      | jump a =>
        unfold addThread at h
        rw [hi] at h
        simp only [hv] at h
        exact .jump hi hv h
      | lookahead a isNeg =>
        unfold addThread at h
        rw [hi] at h
        simp only [hv] at h
        obtain ⟨ok, hok, h⟩ := Option.bind_eq_some_iff.1 h
        by_cases hn : ok = isNeg
        · subst hn
          simp at h
          obtain ⟨rfl, rfl⟩ := h
          exact .lookFail hi hv hok
        · rw [if_pos (by simpa using hn)] at h
          exact .lookPass hi hv hok hn h
      | matched =>
        unfold addThread at h
        rw [hi] at h
        simp only [hv] at h
        cases h
        exact .matched hi hv
      | consuming hc =>
        rw [addThread_consuming hi hv hc] at h
        split at h
        · cases h
          exact .push hi hv hc ‹_›
        · cases h
          exact .drop hi hv hc (by omega)
      | anchor ha =>
        rw [addThread_anchor hi hv ha] at h
        split at h
        · exact .anchorPass hi hv ha ‹_› h
        · cases h
          rename_i hp
          exact .anchorFail hi hv ha (by simpa using hp)

/-- What a call keeps: the generation, the visited addresses, the bounds and the record of
dropped threads. -/
structure AddState.Le (n : Nat) (st st' : AddState) : Prop where
  current : st'.vis.current = st.vis.current
  test : ∀ pc, st.vis.test pc = true → st'.vis.test pc = true
  bounded : st.vis.Bounded n → st'.vis.Bounded n
  dropped : st.dropped = true → st'.dropped = true
  length : st.next.length ≤ maxThreads → st'.next.length ≤ maxThreads

theorem AddState.Le.refl (n : Nat) (st : AddState) : AddState.Le n st st :=
  ⟨rfl, fun _ => id, id, id, id⟩

theorem AddState.Le.trans {n : Nat} {s t u : AddState} (h : AddState.Le n s t)
    (k : AddState.Le n t u) : AddState.Le n s u :=
  ⟨k.current.trans h.current, fun pc hp => k.test pc (h.test pc hp), k.bounded ∘ h.bounded,
    k.dropped ∘ h.dropped, k.length ∘ h.length⟩

theorem AddState.le_mark (n : Nat) (st : AddState) (pc : Nat) : AddState.Le n st (st.mark pc) :=
  ⟨rfl, fun i hi => by simp [AddState.mark, Visited.test_set, hi], fun h => h.set pc, id, id⟩

theorem swap_length {α : Type} (l : List α) (i j : Nat) : (swap l i j).length = l.length := by
  unfold swap
  split <;> simp

theorem reverseLoop_length {α : Type} (n : Nat) (l : List α) (lo hi : Nat) :
    (reverseLoop n l lo hi).length = l.length := by
  induction n generalizing l lo hi with
  | zero => rfl
  | succ n ih =>
    unfold reverseLoop
    split
    · rw [ih, swap_length]
    · rfl

theorem splitOrder_length (l : List ReThread) (base lenA lenB : Nat) :
    (splitOrder l base lenA lenB).length = l.length := by
  unfold splitOrder
  split
  · simp only [reverseThreadRange, reverseLoop_length]
  · rfl

theorem addThread_le {fuel : Nat} {st st' : AddState} {t : ReThread} {f : Bool}
    (h : addThread re text look pos fuel st t = some (st', f)) :
    AddState.Le re.prog.length st st' := by
  induction fuel generalizing st st' t f with
  | zero => nomatch h
  | succ fuel ih =>
    have hm := AddState.le_mark re.prog.length st t.pc
    cases addThread_step h with
    | out => exact .refl _ _
    | seen => exact .refl _ _
    | save _ _ h => exact hm.trans (ih h)
    | splitA _ _ hA => exact hm.trans (ih hA)
    | splitB _ _ hA hB =>
      have := hm.trans ((ih hA).trans (ih hB))
      refine ⟨this.current, this.test, this.bounded, this.dropped, fun hl => ?_⟩
      rw [AddState.reorder, splitOrder_length]
      exact this.length hl
    | jump _ _ h => exact hm.trans (ih h)
    | lookPass _ _ _ _ h => exact hm.trans (ih h)
    | lookFail => exact hm
    | matched => exact ⟨hm.current, hm.test, hm.bounded, hm.dropped, hm.length⟩
    | push _ _ _ hlt =>
      refine ⟨hm.current, hm.test, hm.bounded, hm.dropped, fun _ => ?_⟩
      grind
    | drop => exact ⟨hm.current, hm.test, hm.bounded, fun _ => rfl, hm.length⟩
    | anchorPass _ _ _ _ h => exact hm.trans (ih h)
    | anchorFail => exact hm

def unvisited (n : Nat) (v : Visited) : Finset Nat := (Finset.range n).filter (v.test · = false)

theorem unvisited_mono {n : Nat} {v v' : Visited} (h : ∀ pc, v.test pc = true → v'.test pc = true) :
    (unvisited n v').card ≤ (unvisited n v).card := by
  refine Finset.card_le_card fun pc hpc => ?_
  simp only [unvisited, Finset.mem_filter] at hpc ⊢
  grind

theorem unvisited_set {n : Nat} {v : Visited} {pc : Nat} (hpc : pc < n) (hv : v.test pc = false) :
    (unvisited n (v.set pc)).card < (unvisited n v).card := by
  refine Finset.card_lt_card (Finset.ssubset_iff_of_subset ?_ |>.2 ⟨pc, ?_, ?_⟩)
  · intro i hi
    simp only [unvisited, Finset.mem_filter, Visited.test_set, Bool.or_eq_false_iff] at hi ⊢
    exact ⟨hi.1, hi.2.2⟩
  · simp [unvisited, hpc, hv]
  · simp [unvisited, Visited.test_set]

theorem unvisited_le (n : Nat) (v : Visited) : (unvisited n v).card ≤ n := by
  have := Finset.card_filter_le (Finset.range n) (v.test · = false)
  rwa [Finset.card_range] at this

variable (text) in
theorem addThread_isSome (hlook : ∀ pc a isNeg, re.prog[pc]? = some (.lookahead a isNeg) →
      ∃ ok, look (pc + 1) pos = some ok) {fuel : Nat} {st : AddState} (t : ReThread)
    (hf : (unvisited re.prog.length st.vis).card < fuel) :
    ∃ r, addThread re text look pos fuel st t = some r := by
  induction fuel generalizing st t with
  | zero => nomatch hf
  | succ fuel ih =>
    cases hi : re.prog[t.pc]? with
    | none =>
      refine ⟨(st, false), ?_⟩
      unfold addThread
      rw [hi]
    | some ins =>
      by_cases hv : st.vis.test t.pc = true
      · refine ⟨(st, false), ?_⟩
        unfold addThread
        grind
      · rw [Bool.not_eq_true] at hv
        have hpc : t.pc < re.prog.length := (List.getElem?_eq_some_iff.1 hi).1
        have hlt : (unvisited re.prog.length (st.mark t.pc).vis).card < fuel := by
          have := unvisited_set hpc hv
          exact lt_of_lt_of_le this (Nat.le_of_lt_succ hf)
        cases ins.kind with
        | save slot =>
          unfold addThread
          rw [hi]
          simp only [hv]
          exact ih _ hlt
        | split a b =>
          rw [addThread_split hi hv]
          obtain ⟨⟨stA, fA⟩, hA⟩ := ih { t with pc := a } hlt
          have hle := unvisited_mono (n := re.prog.length) (addThread_le hA).test
          rw [hA]
          cases fA with
          | true => exact ⟨_, rfl⟩
          | false =>
            obtain ⟨rB, hB⟩ := @ih stA { t with pc := b } (lt_of_le_of_lt hle hlt)
            simp [hB]
        | jump a =>
          unfold addThread
          rw [hi]
          simp only [hv]
          exact ih _ hlt
        | lookahead a isNeg =>
          unfold addThread
          rw [hi]
          simp only [hv]
          obtain ⟨ok, hok⟩ := hlook t.pc a isNeg hi
          rw [hok]
          obtain ⟨r, hr⟩ := ih { t with pc := a } hlt
          by_cases hn : ok = isNeg
          · simp [hn]
          · refine ⟨r, ?_⟩
            simpa [hn, AddState.mark] using hr
        | matched =>
          unfold addThread
          rw [hi]
          simp only [hv]
          exact ⟨_, rfl⟩
        | consuming hc =>
          rw [addThread_consuming hi hv hc]
          split <;> exact ⟨_, rfl⟩
        | anchor ha =>
          rw [addThread_anchor hi hv ha]
          split
          · exact ih _ hlt
          · exact ⟨_, rfl⟩

theorem consuming_of_isAnchor {ins : ReInstr} (h : ins.isAnchor = true) :
    ins.consuming = false := by
  cases ins <;> first | rfl | nomatch h

theorem threadLoop_keeps {ts : List ReThread} {st st' : AddState} {blocks blocks' : List (Nat × Nat)}
    {got : Bool} (h : threadLoop re text look pos ts st blocks = some (st', blocks', got)) :
    (st.vis.Bounded re.prog.length → st'.vis.Bounded re.prog.length) ∧
      (st.dropped = true → st'.dropped = true) := by
  induction ts generalizing st blocks with
  | nil =>
    cases h
    exact ⟨id, id⟩
  | cons t ts ih =>
    unfold threadLoop at h
    split at h
    · exact ih h
    · split at h
      · obtain ⟨⟨st₁, got₁⟩, h₁, h⟩ := Option.bind_eq_some_iff.1 h
        have hle := addThread_le h₁
        dsimp only at h
        split at h
        · cases h
          exact ⟨hle.bounded, hle.dropped⟩
        · exact ⟨fun hb => (ih h).1 (hle.bounded hb), fun hd => (ih h).2 (hle.dropped hd)⟩
      · exact ih h

/-! Every run ends. -/

variable (text) in
theorem threadLoop_isSome (hlook : ∀ pc a isNeg, re.prog[pc]? = some (.lookahead a isNeg) →
      ∃ ok, look (pc + 1) (pos + 1) = some ok) (ts : List ReThread) (st : AddState)
    (blocks : List (Nat × Nat)) : ∃ r, threadLoop re text look pos ts st blocks = some r := by
  induction ts generalizing st blocks with
  | nil => exact ⟨_, rfl⟩
  | cons t ts ih =>
    unfold threadLoop
    split
    · exact ih _ _
    · split
      · have hf : (unvisited re.prog.length st.vis).card < re.prog.length + 1 :=
          Nat.lt_succ_of_le (unvisited_le _ _)
        obtain ⟨⟨st', f⟩, h⟩ := addThread_isSome text hlook { t with pc := t.pc + 1 } hf
        rw [h]
        cases f with
        | true => exact ⟨_, rfl⟩
        | false => exact ih _ _
      · exact ih _ _

theorem posLoop_isSome (hlook : ∀ pc pos a isNeg, re.prog[pc]? = some (.lookahead a isNeg) →
      ∃ ok, look (pc + 1) pos = some ok) (n : Nat) (s : RangeState) :
    ∃ s', posLoop re text look n pos s = some s' := by
  induction n generalizing pos s with
  | zero => exact ⟨_, rfl⟩
  | succ n ih =>
    unfold posLoop
    split
    · exact ⟨_, rfl⟩
    · obtain ⟨⟨st, blocks, got⟩, h⟩ := threadLoop_isSome text
        (fun pc => hlook pc (pos + 1)) s.cur.reverse
        ⟨[], s.vis.clear re.prog.length, s.foundSaved, s.dropped⟩ []
      dsimp only
      rw [h]
      exact ih _

theorem vmExecRange_isSome (hlook : ∀ pc pos a isNeg, re.prog[pc]? = some (.lookahead a isNeg) →
      ∃ ok, look (pc + 1) pos = some ok) (start pcStart : Nat) (vis : Visited) :
    ∃ s, vmExecRange re text look start pcStart vis = some s := by
  have hf : (unvisited re.prog.length (vis.clear re.prog.length)).card < re.prog.length + 1 :=
    Nat.lt_succ_of_le (unvisited_le _ _)
  obtain ⟨⟨st, f⟩, h⟩ := addThread_isSome text
    (fun pc => hlook pc start) ⟨pcStart, fun _ => -1⟩ (show (unvisited re.prog.length
      (AddState.mk [] (vis.clear re.prog.length) (fun _ => -1) false).vis).card < _ from hf)
  unfold vmExecRange
  dsimp only
  rw [h]
  exact posLoop_isSome hlook _ _

end Step

/-! The moves of one thread, and what every thread of a run keeps. -/

section Moves

variable (re : ReHandle) (text : List UInt8) (look : Nat → Nat → Option Bool) (pos : Nat)

inductive Eps : ReThread → ReThread → Prop
  | save {t : ReThread} {slot : Nat} : re.prog[t.pc]? = some (.save slot) →
      Eps t { pc := t.pc + 1, saved := Function.update t.saved slot pos }
  | left {t : ReThread} {a b : Nat} : re.prog[t.pc]? = some (.split a b) → Eps t { t with pc := a }
  | right {t : ReThread} {a b : Nat} : re.prog[t.pc]? = some (.split a b) → Eps t { t with pc := b }
  | jump {t : ReThread} {a : Nat} : re.prog[t.pc]? = some (.jump a) → Eps t { t with pc := a }
  | ahead {t : ReThread} {subEnd : Nat} {isNeg ok : Bool} : re.prog[t.pc]? = some (.lookahead subEnd isNeg) →
      look (t.pc + 1) pos = some ok → ok ≠ isNeg → Eps t { t with pc := subEnd }
  | anchor {t : ReThread} {ins : ReInstr} : re.prog[t.pc]? = some ins → ins.isAnchor = true →
      re.anchorHolds text pos ins = true → Eps t { t with pc := t.pc + 1 }

/-- A thread that waits reads the byte at `pos`. -/
def Eats (t : ReThread) : Prop :=
  pos < text.length ∧ re.matchChar (re.prog.getD t.pc .matched) (byteAt text pos) = true

end Moves

/-! The reorderings of a list lose and add nothing. -/

section Reorder

variable {α : Type}

theorem mem_swap {l : List α} {i j : Nat} {x : α} (h : x ∈ swap l i j) : x ∈ l := by
  unfold swap at h
  grind

theorem mem_reverseThreadRange {l : List α} {lo hi : Nat} {x : α} (h : x ∈ reverseThreadRange l lo hi) : x ∈ l := by
  unfold reverseThreadRange at h
  generalize hi + 1 - lo = n at h
  induction n generalizing l lo hi with
  | zero => exact h
  | succ n ih =>
    unfold reverseLoop at h
    split at h
    · exact mem_swap (ih h)
    · exact h

theorem mem_splitOrder {l : List ReThread} {base lenA lenB : Nat} {x : ReThread}
    (h : x ∈ splitOrder l base lenA lenB) : x ∈ l := by
  unfold splitOrder at h
  grind [mem_reverseThreadRange]

theorem mem_foldl_restoreBlock {total : Nat} {l : List ReThread} {blocks : List (Nat × Nat)} {x : ReThread}
    (h : x ∈ blocks.foldl (restoreBlock total) l) : x ∈ l := by
  induction blocks generalizing l with
  | nil => exact h
  | cons blk blocks ih => exact mem_reverseThreadRange (ih h)

theorem mem_restoreOrder {next : List ReThread} {blocks : List (Nat × Nat)} {x : ReThread}
    (h : x ∈ restoreOrder next blocks) : x ∈ next := by
  unfold restoreOrder at h
  split at h
  · exact mem_reverseThreadRange (mem_foldl_restoreBlock h)
  · exact h

end Reorder

section Invariant

variable {re : ReHandle} {text : List UInt8} {look : Nat → Nat → Option Bool} {pos : Nat}

structure Kept (re : ReHandle) (I : ReThread → Prop) (saved : Nat → Int) (st' : AddState) (found : Bool) : Prop where
  next : ∀ x ∈ st'.next, I x
  unfound : found = false → st'.matchSaved = saved
  found : found = true → ∃ m, I m ∧ re.prog[m.pc]? = some .matched ∧
    st'.matchSaved = copySlots re.slotCount m.saved saved

theorem addThread_kept {I : ReThread → Prop} (hstep : ∀ t t', I t → Eps re text look pos t t' → I t')
    {fuel : Nat} {st st' : AddState} {t : ReThread} {f : Bool} (ht : I t) (hnext : ∀ x ∈ st.next, I x)
    (h : addThread re text look pos fuel st t = some (st', f)) : Kept re I st.matchSaved st' f := by
  induction fuel generalizing st st' t f with
  | zero => nomatch h
  | succ fuel ih =>
    have hstop : ∀ v, Kept re I st.matchSaved { st with vis := v } false :=
      fun _ => ⟨hnext, fun _ => rfl, nofun⟩
    have hgo : ∀ {t' : ReThread} {st' : AddState} {f : Bool}, Eps re text look pos t t' →
        addThread re text look pos fuel (st.mark t.pc) t' = some (st', f) → Kept re I st.matchSaved st' f := by
      intro t' st' f he h'
      exact @ih (st.mark t.pc) _ _ _ (hstep t t' ht he) hnext h'
    cases addThread_step h with
    | out => exact hstop st.vis
    | seen => exact hstop st.vis
    | save hi _ h' => exact hgo (.save hi) h'
    | splitA hi _ h' => exact hgo (.left hi) h'
    | @splitB a b stA stB f hi _ hA hB =>
      have hkA := hgo (.left hi) hA
      have hkB := ih (hstep t _ ht (.right hi)) hkA.next hB
      rw [hkA.unfound rfl] at hkB
      exact ⟨fun x hx => hkB.next x (mem_splitOrder hx), hkB.unfound, hkB.found⟩
    | jump hi _ h' => exact hgo (.jump hi) h'
    | lookPass hi _ hok hne h' => exact hgo (.ahead hi hok hne) h'
    | lookFail => exact hstop _
    | matched hi => exact ⟨hnext, nofun, fun _ => ⟨t, ht, hi, rfl⟩⟩
    | push =>
      refine ⟨fun x hx => ?_, fun _ => rfl, nofun⟩
      grind
    | drop => exact ⟨hnext, fun _ => rfl, nofun⟩
    | anchorPass hi _ ha hp h' => exact hgo (.anchor hi ha hp) h'
    | anchorFail => exact hstop _

theorem threadLoop_kept {I : ReThread → Prop} (hstep : ∀ t t', I t → Eps re text look (pos + 1) t t' → I t')
    {ts : List ReThread} (hts : ∀ t ∈ ts, Eats re text pos t → I { t with pc := t.pc + 1 }) {st st' : AddState}
    {blocks blocks' : List (Nat × Nat)} {got : Bool} (hnext : ∀ x ∈ st.next, I x) (hpos : pos ≤ text.length)
    (h : threadLoop re text look pos ts st blocks = some (st', blocks', got)) :
    Kept re I st.matchSaved st' got ∧ (got = true → pos < text.length) := by
  induction ts generalizing st blocks with
  | nil =>
    cases h
    exact ⟨⟨hnext, fun _ => rfl, nofun⟩, nofun⟩
  | cons t ts ih =>
    have hts' := fun t' ht' => hts t' (List.mem_cons_of_mem _ ht')
    unfold threadLoop at h
    split at h
    · exact ih hts' hnext h
    · next hend =>
      have hlt : pos < text.length := Nat.lt_of_le_of_ne hpos hend
      split at h
      · next hm =>
        obtain ⟨⟨st₁, got₁⟩, h₁, h⟩ := Option.bind_eq_some_iff.1 h
        have hk := addThread_kept hstep (hts t List.mem_cons_self ⟨hlt, hm⟩) hnext h₁
        dsimp only at h
        split at h
        · grind
        · exact @ih hts' { st₁ with matchSaved := st.matchSaved } _ hk.next h
      · exact ih hts' hnext h

theorem threadLoop_end (ts : List ReThread) (st : AddState) (blocks : List (Nat × Nat)) :
    threadLoop re text look text.length ts st blocks = some (st, blocks, false) := by
  induction ts with
  | nil => rfl
  | cons t ts ih =>
    unfold threadLoop
    grind

structure Stable (re : ReHandle) (text : List UInt8) (look : Nat → Nat → Option Bool) (start : Nat)
    (I : Nat → ReThread → Prop) : Prop where
  eps : ∀ pos t t', start ≤ pos → pos ≤ text.length → I pos t → Eps re text look pos t t' → I pos t'
  eat : ∀ pos t, start ≤ pos → I pos t → Eats re text pos t → I (pos + 1) { t with pc := t.pc + 1 }

def MatchedBy (re : ReHandle) (text : List UInt8) (start : Nat) (I : Nat → ReThread → Prop) (saved : Nat → Int) :
    Prop :=
  ∃ pos m, start ≤ pos ∧ pos ≤ text.length ∧ I pos m ∧ re.prog[m.pc]? = some .matched ∧
    ∀ k < re.slotCount, saved k = m.saved k

theorem posLoop_kept {start : Nat} {I : Nat → ReThread → Prop} (hinv : Stable re text look start I) {n : Nat}
    {s s' : RangeState} (hstart : start ≤ pos) (hcur : ∀ t ∈ s.cur, I pos t)
    (hend : pos ≤ text.length ∨ s.cur = [])
    (hfound : s.found = true → MatchedBy re text start I s.foundSaved)
    (h : posLoop re text look n pos s = some s') (hf : s'.found = true) :
    MatchedBy re text start I s'.foundSaved := by
  induction n generalizing pos s with
  | zero =>
    cases h
    exact hfound hf
  | succ n ih =>
    unfold posLoop at h
    split at h
    · grind
    · next hne =>
      have hpos : pos ≤ text.length := hend.resolve_right fun hnil => hne (by rw [hnil]; rfl)
      obtain ⟨⟨st, blocks, got⟩, h₁, h⟩ := Option.bind_eq_some_iff.1 h
      dsimp only at h h₁
      by_cases hlt : pos = text.length
      · rw [hlt, threadLoop_end] at h₁
        cases h₁
        refine ih (Nat.le_succ_of_le hstart) (fun t (ht : t ∈ restoreOrder [] []) => absurd ht List.not_mem_nil) (.inr rfl)
          ?_ h
        grind
      · have hlt : pos + 1 ≤ text.length := Nat.lt_of_le_of_ne hpos hlt
        obtain ⟨hk, -⟩ := threadLoop_kept (I := I (pos + 1))
          (fun t t' ht he => hinv.eps (pos + 1) t t' (Nat.le_succ_of_le hstart) hlt ht he)
          (fun t ht he => hinv.eat pos t hstart (hcur t (List.mem_reverse.1 ht)) he) (by nofun) hpos h₁
        refine ih (Nat.le_succ_of_le hstart) (fun t ht => hk.next t (mem_restoreOrder ht)) (.inl hlt) ?_ h
        intro hor
        dsimp only at hor ⊢
        cases got with
        | false =>
          rw [Bool.or_false] at hor
          rw [hk.unfound rfl]
          exact hfound hor
        | true =>
          obtain ⟨m, hm, hmatch, hsaved⟩ := hk.found rfl
          refine ⟨pos + 1, m, Nat.le_succ_of_le hstart, hlt, hm, hmatch, fun k hk => ?_⟩
          rw [hsaved, copySlots, if_pos hk]

theorem vmExecRange_kept {start pcStart : Nat} {I : Nat → ReThread → Prop} (hinv : Stable re text look start I)
    (hstart : start ≤ text.length) (h₀ : I start ⟨pcStart, fun _ => -1⟩) {vis : Visited} {s : RangeState}
    (h : vmExecRange re text look start pcStart vis = some s) (hf : s.found = true) :
    MatchedBy re text start I s.foundSaved := by
  obtain ⟨⟨st, f⟩, h₁, h⟩ := Option.bind_eq_some_iff.1 h
  dsimp only at h
  have hk := addThread_kept (I := I start)
    (fun t t' ht he => hinv.eps start t t' (Nat.le_refl _) hstart ht he) h₀ (by nofun) h₁
  refine posLoop_kept hinv (Nat.le_refl _) hk.next (.inl hstart) (fun hfound => ?_) h hf
  cases f with
  | true =>
    obtain ⟨m, hm, hmatch, hsaved⟩ := hk.found rfl
    refine ⟨start, m, Nat.le_refl _, hstart, hm, hmatch, fun k hk => ?_⟩
    show st.matchSaved k = m.saved k
    rw [hsaved, copySlots, if_pos hk]
  | false =>
    have hnone := hk.unfound rfl
    grind

end Invariant

end LsLang.Regex
