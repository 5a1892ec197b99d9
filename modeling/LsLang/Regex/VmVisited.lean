import LsLang.Regex.VmStep

/-! The result of a run does not depend on what the visited set was used for before. -/

namespace LsLang.Regex

namespace Visited

/-- The visited addresses below `n`, whatever their generation. -/
def norm (n : Nat) (v : Visited) : Visited := ⟨fun pc => if pc < n ∧ v.test pc = true then 1 else 0, 1⟩

theorem test_norm {n pc : Nat} (hpc : pc < n) (v : Visited) : (v.norm n).test pc = v.test pc := by
  unfold norm test
  grind

theorem norm_set {n pc : Nat} (hpc : pc < n) (v : Visited) : (v.set pc).norm n = (v.norm n).set pc := by
  unfold norm
  congr 1
  funext i
  rw [Function.update_apply, test_set]
  grind

theorem norm_clear {n : Nat} {v : Visited} (h : v.Bounded n) : (v.clear n).norm n = ⟨fun _ => 0, 1⟩ := by
  unfold norm
  congr 1
  funext pc
  rw [if_neg]
  grind [test_clear]

end Visited

def AddState.norm (n : Nat) (st : AddState) : AddState := { st with vis := st.vis.norm n }

theorem AddState.eq_of_norm {n : Nat} {st st₂ : AddState} (h : st₂.norm n = st.norm n) :
    ∃ w, st₂ = { st with vis := w } := by
  have hnext : st₂.next = st.next := show (st₂.norm n).next = (st.norm n).next by rw [h]
  have hsaved : st₂.matchSaved = st.matchSaved := show (st₂.norm n).matchSaved = (st.norm n).matchSaved by rw [h]
  have hdropped : st₂.dropped = st.dropped := show (st₂.norm n).dropped = (st.norm n).dropped by rw [h]
  exact ⟨st₂.vis, by rw [← hnext, ← hsaved, ← hdropped]⟩

section Norm

variable {re : ReHandle} {text : List UInt8} {look : Nat → Nat → Option Bool} {pos : Nat}

theorem AddState.norm_mark {n pc : Nat} (hpc : pc < n) (st : AddState) :
    (st.mark pc).norm n = (st.norm n).mark pc := by
  unfold AddState.norm AddState.mark
  dsimp only
  rw [Visited.norm_set hpc]

theorem addThread_norm (fuel : Nat) (st : AddState) (t : ReThread) :
    addThread re text look pos fuel (st.norm re.prog.length) t =
      (addThread re text look pos fuel st t).map fun r => (r.1.norm re.prog.length, r.2) := by
  induction fuel generalizing st t with
  | zero => rfl
  | succ fuel ih =>
    cases hi : re.prog[t.pc]? with
    | none =>
      unfold addThread
      rw [hi]
      rfl
    | some ins =>
      have hpc : t.pc < re.prog.length := (List.getElem?_eq_some_iff.1 hi).1
      have htest : (st.norm re.prog.length).vis.test t.pc = st.vis.test t.pc := Visited.test_norm hpc st.vis
      have hmark := AddState.norm_mark hpc st
      by_cases hv : st.vis.test t.pc = true
      · unfold addThread
        grind
      · rw [Bool.not_eq_true] at hv
        rw [hv] at htest
        cases ins.kind with
        | save slot =>
          unfold addThread
          rw [hi]
          simp only [htest, hv]
          have := ih (st.mark t.pc) { pc := t.pc + 1, saved := Function.update t.saved slot pos }
          rw [hmark] at this
          exact this
        | split a b =>
          rw [addThread_split hi hv, addThread_split hi htest, ← hmark, ih, Option.bind_map, Option.map_bind]
          refine congrArg (Option.bind _) (funext fun rA => ?_)
          rcases rA with ⟨stA, fA⟩
          cases fA with
          | true => rfl
          | false =>
            dsimp only [Function.comp]
            rw [if_neg Bool.false_ne_true, if_neg Bool.false_ne_true, ih, Option.bind_map, Option.map_bind]
            rfl
        | jump a =>
          unfold addThread
          rw [hi]
          simp only [htest, hv]
          have := ih (st.mark t.pc) { t with pc := a }
          rw [hmark] at this
          exact this
        | lookahead a isNeg =>
          unfold addThread
          rw [hi]
          simp only [htest, hv]
          have := ih (st.mark t.pc) { t with pc := a }
          rw [hmark] at this
          cases look (t.pc + 1) pos with
          | none => rfl
          | some ok =>
            by_cases hok : ok = isNeg
            · subst hok
              have hne : ¬ ((ok != ok) = true) := by simp
              simp only [Option.bind_eq_bind, Option.bind_some, if_neg hne]
              exact congrArg (fun s => some (s, false)) hmark.symm
            · have hne : (ok != isNeg) = true := by simpa using hok
              simp only [Option.bind_eq_bind, Option.bind_some, if_pos hne]
              exact this
        | matched =>
          unfold addThread
          rw [hi]
          simp only [htest, hv]
          show some (({ (st.norm re.prog.length).mark t.pc with matchSaved := _ } : AddState), true) = _
          rw [← hmark]
          rfl
        | consuming hc =>
          rw [addThread_consuming hi hv hc, addThread_consuming hi htest hc, ← hmark]
          show (if st.next.length < maxThreads then _ else _) = _
          split <;> rfl
        | anchor ha =>
          rw [addThread_anchor hi hv ha, addThread_anchor hi htest ha, ← hmark, ih]
          split <;> rfl

theorem threadLoop_norm (ts : List ReThread) (st : AddState) (blocks : List (Nat × Nat)) :
    threadLoop re text look pos ts (st.norm re.prog.length) blocks =
      (threadLoop re text look pos ts st blocks).map fun r => (r.1.norm re.prog.length, r.2) := by
  induction ts generalizing st blocks with
  | nil => rfl
  | cons t ts ih =>
    unfold threadLoop
    split
    · exact ih _ _
    · split
      · dsimp only
        rw [addThread_norm, Option.bind_eq_bind, Option.bind_map, Option.map_bind]
        refine congrArg (Option.bind _) (funext fun r => ?_)
        dsimp only [Function.comp]
        split
        · rfl
        · exact ih { r.1 with matchSaved := st.matchSaved } _
      · exact ih _ _

theorem posLoop_vis {n : Nat} {s s' : RangeState} {v : Visited} (hs : s.vis.Bounded re.prog.length)
    (hv : v.Bounded re.prog.length) (h : posLoop re text look n pos s = some s') :
    ∃ w, posLoop re text look n pos { s with vis := v } = some { s' with vis := w } ∧
      w.Bounded re.prog.length ∧ s'.vis.Bounded re.prog.length := by
  induction n generalizing pos s v with
  | zero =>
    cases h
    exact ⟨v, rfl, hv, hs⟩
  | succ n ih =>
    unfold posLoop at h ⊢
    split at h
    · grind
    · next hz =>
      rw [if_neg hz]
      obtain ⟨⟨st, blocks, got⟩, h₁, h⟩ := Option.bind_eq_some_iff.1 h
      have hsame : (AddState.mk [] (s.vis.clear re.prog.length) s.foundSaved s.dropped).norm re.prog.length =
          (AddState.mk [] (v.clear re.prog.length) s.foundSaved s.dropped).norm re.prog.length := by
        unfold AddState.norm
        grind [Visited.norm_clear]
      have hloop := @threadLoop_norm re text look pos s.cur.reverse
        ⟨[], v.clear re.prog.length, s.foundSaved, s.dropped⟩ []
      rw [← hsame, threadLoop_norm, h₁, Option.map_some, eq_comm, Option.map_eq_some_iff] at hloop
      obtain ⟨⟨st₂, blocks₂, got₂⟩, h₂, he⟩ := hloop
      obtain ⟨hst, hrest⟩ := Prod.mk.injEq .. ▸ he
      cases hrest
      obtain ⟨u, rfl⟩ := AddState.eq_of_norm hst
      obtain ⟨w, hw, hb⟩ := ih ((threadLoop_keeps h₁).1 hs.clear) ((threadLoop_keeps h₂).1 hv.clear) h
      grind

theorem vmExecRange_vis {start pcStart : Nat} {v v' : Visited} {s : RangeState} (hv : v.Bounded re.prog.length)
    (hv' : v'.Bounded re.prog.length) (h : vmExecRange re text look start pcStart v = some s) :
    ∃ w, vmExecRange re text look start pcStart v' = some { s with vis := w } ∧
      w.Bounded re.prog.length ∧ s.vis.Bounded re.prog.length := by
  unfold vmExecRange at h ⊢
  obtain ⟨⟨st, f⟩, h₁, h⟩ := Option.bind_eq_some_iff.1 h
  have hsame : (AddState.mk [] (v.clear re.prog.length) (fun _ => -1) false).norm re.prog.length =
      (AddState.mk [] (v'.clear re.prog.length) (fun _ => -1) false).norm re.prog.length := by
    unfold AddState.norm
    dsimp only
    rw [Visited.norm_clear hv, Visited.norm_clear hv']
  have hadd := @addThread_norm re text look start (re.prog.length + 1)
    ⟨[], v'.clear re.prog.length, fun _ => -1, false⟩ ⟨pcStart, fun _ => -1⟩
  rw [← hsame, addThread_norm, h₁, Option.map_some, eq_comm, Option.map_eq_some_iff] at hadd
  obtain ⟨⟨st₂, f₂⟩, h₂, he⟩ := hadd
  obtain ⟨hst, -⟩ := Prod.mk.injEq .. ▸ he
  obtain ⟨u, rfl⟩ := AddState.eq_of_norm hst
  obtain ⟨w, hw, hb⟩ := posLoop_vis ((addThread_le h₁).bounded hv.clear)
    ((addThread_le h₂).bounded hv'.clear) h
  grind

end Norm

end LsLang.Regex
