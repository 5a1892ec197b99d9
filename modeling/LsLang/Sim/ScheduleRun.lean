import LsLang.Sim.ScheduleStep

/-! Whole runs of the scheduler: every cycle issues a uop or waits for one that is under way, so
that the loop ends with all uops issued. -/

namespace LsLang.Sim

open Finset

namespace State
variable {uops : List Uop} {nports : ℕ} {fe : Int} {st : State}

theorem tryIssue_eq (st : State) (u : Uop) (i : ℕ) :
    st.port u i = none ∧ st.tryIssue (u, i) = st ∨
      ∃ p, st.port u i = some p ∧ st.tryIssue (u, i) = st.issue u i p := by
  unfold tryIssue
  cases h : st.port u i with
  | none => exact Or.inl ⟨rfl, rfl⟩
  | some p => grind

theorem Open.foldl_tryIssue (hk : Kernel uops nports) (l : List (Uop × ℕ))
    (hl : ∀ ui ∈ l, uops[ui.2]? = some ui.1) (h : st.Open uops nports fe) :
    (l.foldl tryIssue st).Open uops nports fe ∧ (l.foldl tryIssue st).cyc = st.cyc ∧
    (l.foldl tryIssue st).remaining ≤ st.remaining ∧
    st.work uops + (st.remaining - (l.foldl tryIssue st).remaining) ≤
      (l.foldl tryIssue st).work uops ∧
    ((l.foldl tryIssue st).remaining = st.remaining → ∀ ui ∈ l, st.port ui.1 ui.2 = none) := by
  induction l generalizing st with
  | nil => grind
  | cons ui l ih =>
    obtain ⟨u, i⟩ := ui
    have hu : uops[i]? = some u := hl (u, i) List.mem_cons_self
    have hl' : ∀ ui ∈ l, uops[ui.2]? = some ui.1 := fun ui hm => hl ui (List.mem_cons_of_mem _ hm)
    rw [List.foldl_cons]
    rcases st.tryIssue_eq u i with ⟨hport, heq⟩ | ⟨p, hport, heq⟩
    · grind
    · rw [heq]
      obtain ⟨h₁, h₂, h₃, h₄, -⟩ := ih hl' (h.issue hk hu hport)
      have hrem : (st.issue u i p).remaining = st.remaining - 1 := rfl
      have hwork := h.work_issue hu hport
      have hlat := hk.latency u (List.mem_of_getElem? hu)
      rw [hrem] at h₃ h₄
      exact ⟨h₁, h₂, by omega, by omega, fun hr => by omega⟩

structure Start (uops : List Uop) (fe : Int) (st : State) : Prop extends Inv uops fe st where
  past : ∀ i, st.isIssued i = true → (st.trace i).cycleIssued < st.cyc

theorem start_initState (hfe : 0 ≤ fe) (uops : List Uop) : (initState uops).Start uops fe := by
  have hiss : ∀ i, (initState uops).isIssued i = false := by
    intro i
    unfold isIssued initState
    grind
  have hset : (initState uops).issuedSet uops.length = ∅ := by
    unfold issuedSet
    simp [hiss]
  have hno : ∀ {P : Prop} (i : ℕ), (initState uops).isIssued i = true → P := by grind
  refine ⟨⟨List.length_map .., List.length_map .., List.length_map .., ?_, fun i u _ hi => hno i hi,
    fun i j hi => hno i hi, fun c => ?_, ?_, le_rfl, ?_, fun i hi => hno i hi, List.nodup_nil, ?_⟩,
    fun i hi => hno i hi⟩
  · intro i _
    unfold doneAt initState
    grind
  · unfold issuedIn
    grind
  · rw [hset]
    simp [initState]
  · unfold work
    rw [hset]
    exact le_rfl
  · intro i
    rw [hiss]
    simp [initState]

theorem Start.openCycle (h : st.Start uops fe) : (st.openCycle nports fe).Open uops nports fe := by
  have hinv : (st.openCycle nports fe).Inv uops fe :=
    ⟨h.done_length, h.issued_length, h.tr_length, h.waiting, fun i u hu hi => by
        have he := h.entry i u hu hi
        exact ⟨he.port, he.nonneg, he.le_cyc, he.done, he.doneAt_eq, he.sources⟩,
      h.ports, h.budget, h.remaining_eq, h.cyc_nonneg, h.cyc_le, h.done_le, h.log_nodup, h.mem_log⟩
  refine ⟨hinv, List.length_replicate, ?_, ?_⟩
  · intro i p hi hc
    exact absurd hc (h.past i hi).ne
  · have hempty : (st.openCycle nports fe).issuedIn uops.length (st.openCycle nports fe).cyc = ∅ := by
      rw [Finset.eq_empty_iff_forall_notMem]
      intro i hi
      have hi' := mem_issuedIn.mp hi
      exact (h.past i hi'.1.2).ne hi'.2
    rw [hempty]
    exact add_zero fe

theorem chosen_openCycle (hk : Kernel uops nports) {u : Uop} (hu : u ∈ uops) :
    ∃ p, (st.openCycle nports fe).chosen u = some p := by
  obtain ⟨p, hp⟩ := List.exists_mem_of_ne_nil _ (hk.ports u hu)
  rw [← Option.isSome_iff_exists]
  apply List.find?_isSome.mpr
  refine ⟨p, hp, ?_⟩
  unfold isBusy State.openCycle
  rw [List.getD_replicate false (hk.within u hu p hp)]
  rfl

theorem Start.exists_later (hk : Kernel uops nports) (hfe : 1 ≤ fe) (h : st.Start uops fe)
    (hrem : 0 < st.remaining)
    (hnone : ∀ ui ∈ uops.zipIdx, (st.openCycle nports fe).port ui.1 ui.2 = none) :
    ∃ s, st.isIssued s = true ∧ st.cyc < st.doneAt s := by
  classical
  have hex : ∃ i, i < uops.length ∧ st.isIssued i = false := by
    by_contra hall
    push Not at hall
    have hset : st.issuedSet uops.length = range uops.length := by
      unfold issuedSet
      grind
    have := h.remaining_eq
    grind
  -- the first uop that is left: its sources are issued
  let i := Nat.find hex
  obtain ⟨hi, hni⟩ : i < uops.length ∧ st.isIssued i = false := Nat.find_spec hex
  have hu : uops[i]? = some uops[i] := List.getElem?_eq_getElem hi
  have hmem : uops[i] ∈ uops := List.getElem_mem hi
  have hport := hnone (uops[i], i) (List.mem_zipIdx_iff_getElem?.mpr hu)
  have hready : st.ready uops[i] ≠ true := by
    intro hready
    obtain ⟨p, hp⟩ : ∃ p, (st.openCycle nports fe).chosen uops[i] = some p :=
      chosen_openCycle hk hmem
    unfold port at hport
    rw [if_pos ⟨by show fe > 0; omega, hni, hready⟩, hp] at hport
    cases hport
  rw [Ne, ready_iff] at hready
  push Not at hready
  obtain ⟨s, hs, hlate⟩ := hready
  have hlt : s < i := hk.inOrder i _ hu s hs
  have hsi : st.isIssued s = true := by grind [Nat.find_min]
  have hv := List.getElem?_eq_getElem (hlt.trans hi)
  have he := h.entry s _ hv hsi
  refine ⟨s, hsi, hlate ?_⟩
  rw [he.doneAt_eq, he.done]
  have := he.nonneg
  have := hk.latency _ (List.mem_of_getElem? hv)
  omega

theorem Start.cycle (hk : Kernel uops nports) (hfe : 1 ≤ fe) (h : st.Start uops fe)
    (hrem : 0 < st.remaining) :
    (st.cycle uops nports fe).Start uops fe ∧ (st.cycle uops nports fe).cyc = st.cyc + 1 := by
  obtain ⟨hopen, hcyc, hle, hwork, hnone⟩ :=
    have ho : (st.openCycle nports fe).Open uops nports fe := h.openCycle
    ho.foldl_tryIssue hk uops.zipIdx fun ui hm => List.mem_zipIdx_iff_getElem?.mp hm
  have hcyc' : ((st.openCycle nports fe).tryAll uops).cyc = st.cyc := hcyc
  have hrem' : (st.openCycle nports fe).remaining = st.remaining := rfl
  have hwork' : (st.openCycle nports fe).work uops = st.work uops := rfl
  have hnext : st.cyc + 1 ≤ ((st.openCycle nports fe).tryAll uops).work uops := by
    rw [hwork', hrem'] at hwork
    rw [hrem'] at hle hnone
    have hcw := h.cyc_le
    rcases hle.eq_or_lt with heq | hlt
    · obtain ⟨s, hsi, hs⟩ := h.exists_later hk hfe hrem (hnone heq)
      have hd := h.done_le s hsi
      rw [heq] at hwork
      unfold tryAll
      omega
    · unfold tryAll
      omega
  refine ⟨⟨⟨hopen.done_length, hopen.issued_length, hopen.tr_length, hopen.waiting, ?_, hopen.ports,
    hopen.budget, hopen.remaining_eq, ?_, ?_, hopen.done_le, hopen.log_nodup, hopen.mem_log⟩, ?_⟩, ?_⟩
  · intro i u hu hi
    have he := hopen.entry i u hu hi
    exact ⟨he.port, he.nonneg, Int.le_add_one he.le_cyc, he.done, he.doneAt_eq,
      he.sources⟩
  · have h0 : 0 ≤ ((st.openCycle nports fe).tryAll uops).cyc := hopen.cyc_nonneg
    exact Int.add_nonneg h0 (by decide)
  · show State.cyc _ + 1 ≤ _
    rw [hcyc']
    exact hnext
  · intro i hi
    have he := hopen.entry i _ (List.getElem?_eq_getElem (hopen.toInv.lt_length hi)) hi
    exact Int.lt_add_one_of_le he.le_cyc
  · exact congrArg (· + 1) hcyc'

theorem Start.loop (hk : Kernel uops nports) (hfe : 1 ≤ fe) (left : ℕ) (h : st.Start uops fe)
    (hleft : st.cyc + left = 200001) :
    (st.loop uops nports fe left).Inv uops fe ∧ (st.loop uops nports fe left).remaining ≤ 0 := by
  induction left generalizing st with
  | zero =>
    have := work_le hk st
    have := h.cyc_le
    have := hk.bound
    grind
  | succ left ih =>
    unfold State.loop
    split_ifs with hrem
    · obtain ⟨hnext, hcyc⟩ := h.cycle hk hfe hrem
      grind
    · exact ⟨h.toInv, not_lt.mp hrem⟩

theorem Inv.isIssued_of_remaining (h : st.Inv uops fe) (hrem : st.remaining ≤ 0) {i : ℕ}
    (hi : i < uops.length) : st.isIssued i = true := by
  have hsub : st.issuedSet uops.length ⊆ range uops.length := filter_subset _ _
  have hcard : #(range uops.length) ≤ #(st.issuedSet uops.length) := by
    rw [card_range]
    have := h.remaining_eq
    omega
  have hmem : i ∈ st.issuedSet uops.length := by
    rw [eq_of_subset_of_card_le hsub hcard]
    exact mem_range.mpr hi
  exact (mem_issuedSet.mp hmem).2

theorem Inv.getElem?_tr (h : st.Inv uops fe) {i : ℕ} (hi : i < uops.length) :
    st.tr[i]? = some (st.trace i) := by
  have hi' : i < st.tr.length := h.tr_length ▸ hi
  unfold trace
  grind

theorem Inv.legal (hk : Kernel uops nports) (h : st.Inv uops fe) (hrem : st.remaining ≤ 0) :
    Legal uops fe st.tr := by
  have hget : ∀ (i : ℕ) (t : UopTrace), st.tr[i]? = some t → i < uops.length ∧ t = st.trace i := by
    intro i t ht
    have hi : i < uops.length := h.tr_length ▸ (List.getElem?_eq_some_iff.mp ht).1
    exact ⟨hi, Option.some.inj (ht.symm.trans (h.getElem?_tr hi))⟩
  refine ⟨?_, ?_, ?_, h.tr_length⟩
  · intro i u hu
    have hi := (List.getElem?_eq_some_iff.mp hu).1
    have he := h.entry i u hu (h.isIssued_of_remaining hrem hi)
    refine ⟨st.trace i, h.getElem?_tr hi, he.port, he.nonneg, he.done, fun s hs => ?_⟩
    exact ⟨st.trace s, h.getElem?_tr ((hk.inOrder i u hu s hs).trans hi), (he.sources s hs).2⟩
  · intro i j t t' ht ht' hne
    obtain ⟨hi, rfl⟩ := hget i t ht
    obtain ⟨hj, rfl⟩ := hget j t' ht'
    exact h.ports i j (h.isIssued_of_remaining hrem hi) (h.isIssued_of_remaining hrem hj) hne
  · intro c
    refine le_trans ?_ (h.budget c)
    rw [← card_filter_getElem]
    apply Int.ofNat_le.mpr
    apply card_le_card_of_injOn (fun i : Fin st.tr.length => (i : ℕ)) _ Fin.val_injective.injOn
    intro i hi
    have hc := (mem_filter.mp hi).2
    obtain ⟨hlt, ht⟩ := hget i _ (List.getElem?_eq_getElem i.isLt)
    refine mem_issuedIn.mpr ⟨⟨hlt, h.isIssued_of_remaining hrem hlt⟩, ?_⟩
    grind

end State

/-- The scheduler issues every uop exactly once, in a legal schedule, and is no faster than the
bounds of the first engine. -/
theorem simulateFe_legal (uops : List Uop) (nports : ℕ) (fePerCycle : Int)
    (hk : Kernel uops nports) (hfe : 1 ≤ fePerCycle) :
    let tr := simulateFe uops nports fePerCycle
    (finalState uops nports fePerCycle).log.Perm (List.range uops.length) ∧
    Legal uops fePerCycle tr ∧
    criticalPath uops ≤ totalCycles tr ∧
    (∀ S : Finset ℕ, ((uops.countP fun u => ConfinedTo S u : ℕ) : Int) ≤
      #S * (lastIssue tr + 1)) ∧
    (nports < 31 → flowPortBound uops nports ≤ scale * (lastIssue tr + 1)) ∧
    (uops.length : Int) ≤ fePerCycle * (lastIssue tr + 1) ∧
    ((∀ u ∈ uops, 1 ≤ u.latency) → uops ≠ [] → lastIssue tr + 1 ≤ totalCycles tr) := by
  obtain ⟨hinv, hrem⟩ := (State.start_initState (by omega : 0 ≤ fePerCycle) uops).loop hk hfe 200001
    rfl
  have hlegal : Legal uops fePerCycle (simulateFe uops nports fePerCycle) := hinv.legal hk hrem
  have hb := hk.bound
  have hnn := latencySum_nonneg hk.latency
  refine ⟨?_, hlegal, hlegal.criticalPath_le hk.inOrder hk.latency (by omega),
    hlegal.countP_confined_le, fun hn => hlegal.flowPortBound_le hn hk.within (by omega),
    hlegal.length_le, hlegal.lastIssue_lt_totalCycles⟩
  apply (List.perm_ext_iff_of_nodup hinv.log_nodup List.nodup_range).mpr
  intro i
  rw [hinv.mem_log, List.mem_range]
  exact ⟨hinv.lt_length, hinv.isIssued_of_remaining hrem⟩

def loadLoadMul : List Uop :=
  [⟨0, [2, 3], 5, [], true, false⟩, ⟨1, [2, 3], 5, [], true, false⟩,
    ⟨2, [0, 1], 4, [0, 1], false, false⟩]

theorem kernel_loadLoadMul : Kernel loadLoadMul 4 where
  inOrder := by decide
  within := by decide
  ports := by decide
  latency := by decide
  bound := by decide

theorem simulateFe_legal_loadLoadMul :
    let tr := simulateFe loadLoadMul 4 4
    (finalState loadLoadMul 4 4).log.Perm (List.range loadLoadMul.length) ∧
    Legal loadLoadMul 4 tr ∧
    criticalPath loadLoadMul ≤ totalCycles tr ∧
    (∀ S : Finset ℕ, ((loadLoadMul.countP fun u => ConfinedTo S u : ℕ) : Int) ≤
      #S * (lastIssue tr + 1)) ∧
    (4 < 31 → flowPortBound loadLoadMul 4 ≤ scale * (lastIssue tr + 1)) ∧
    (loadLoadMul.length : Int) ≤ 4 * (lastIssue tr + 1) ∧
    ((∀ u ∈ loadLoadMul, 1 ≤ u.latency) → loadLoadMul ≠ [] →
      lastIssue tr + 1 ≤ totalCycles tr) :=
  simulateFe_legal loadLoadMul 4 4 kernel_loadLoadMul (by decide)

end LsLang.Sim
