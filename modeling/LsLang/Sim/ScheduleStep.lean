import LsLang.Sim.CriticalPath
import LsLang.Sim.PortBound
import LsLang.Sim.Uop

/-! What a schedule has to keep to, and the lower bounds that hold of every schedule that does. -/

namespace LsLang.Sim

open Finset

/-- A schedule that respects the ports, the latencies, the dependencies and the front end. -/
structure Legal (uops : List Uop) (fe : Int) (tr : List UopTrace) : Prop where
  entry : ∀ (i : ℕ) (u : Uop), uops[i]? = some u → ∃ t, tr[i]? = some t ∧
    (∃ p ∈ u.portMask, t.portUsed = p) ∧ 0 ≤ t.cycleIssued ∧
    t.cycleDone = t.cycleIssued + u.latency ∧
    ∀ s ∈ u.srcUops, ∃ ts, tr[s]? = some ts ∧ ts.cycleDone ≤ t.cycleIssued
  onePerPort : ∀ (i j : ℕ) (t t' : UopTrace), tr[i]? = some t → tr[j]? = some t' → i ≠ j →
    t.cycleIssued = t'.cycleIssued → t.portUsed ≠ t'.portUsed
  frontEnd : ∀ c, (tr.countP fun t => t.cycleIssued = c) ≤ fe
  length_eq : tr.length = uops.length

/-- The cycle in which the last uop is issued. -/
def lastIssue (tr : List UopTrace) : Int :=
  tr.foldl (fun mx t => if t.cycleIssued > mx then t.cycleIssued else mx) 0

theorem lastIssue_le_iff {tr : List UopTrace} {c : Int} :
    lastIssue tr ≤ c ↔ 0 ≤ c ∧ ∀ t ∈ tr, t.cycleIssued ≤ c :=
  foldl_max_le_iff UopTrace.cycleIssued tr 0 c

theorem totalCycles_le_iff {tr : List UopTrace} {c : Int} :
    totalCycles tr ≤ c ↔ 0 ≤ c ∧ ∀ t ∈ tr, t.cycleDone ≤ c :=
  foldl_max_le_iff UopTrace.cycleDone tr 0 c

theorem lastIssue_nonneg (tr : List UopTrace) : 0 ≤ lastIssue tr := (lastIssue_le_iff.mp le_rfl).1

/-- The uop has ports, all of them in `S`. -/
def ConfinedTo (S : Finset ℕ) (u : Uop) : Prop := u.portMask ≠ [] ∧ ∀ p ∈ u.portMask, p ∈ S

instance (S : Finset ℕ) : DecidablePred (ConfinedTo S) := fun u =>
  inferInstanceAs (Decidable (u.portMask ≠ [] ∧ ∀ p ∈ u.portMask, p ∈ S))

namespace Legal
variable {uops : List Uop} {fe : Int} {tr : List UopTrace} (h : Legal uops fe tr)
include h

theorem getElem (i : ℕ) (hi : i < uops.length) :
    ∃ t, tr[i]? = some t ∧ 0 ≤ t.cycleIssued ∧ t.cycleIssued ≤ lastIssue tr := by
  obtain ⟨t, ht, -, h0, -⟩ := h.entry i uops[i] (List.getElem?_eq_getElem hi)
  exact ⟨t, ht, h0, (lastIssue_le_iff.mp le_rfl).2 t (List.mem_of_getElem? ht)⟩

theorem criticalPathVec_le (hord : InOrder uops) (hlat : ∀ u ∈ uops, 0 ≤ u.latency)
    (hsum : latencySum uops < 2 ^ 31) {i : ℕ} {t : UopTrace} (ht : tr[i]? = some t) :
    (criticalPathVec uops).getD i 0 ≤ t.cycleDone := by
  induction i using Nat.strong_induction_on generalizing t with
  | _ i ih =>
    have hi : i < uops.length := h.length_eq ▸ (List.getElem?_eq_some_iff.mp ht).1
    have hu : uops[i]? = some uops[i] := List.getElem?_eq_getElem hi
    obtain ⟨t', ht', -, h0, hdone, hsrc⟩ := h.entry i uops[i] hu
    obtain rfl := Option.some.inj (ht.symm.trans ht')
    have hbase : criticalBase (criticalPathVec uops) uops[i].srcUops ≤ t.cycleIssued := by
      refine criticalBase_le_iff.mpr ⟨h0, fun s hs => ?_⟩
      obtain ⟨ts, hts, hle⟩ := hsrc s hs
      exact (ih s (hord i _ hu s hs) hts).trans hle
    rw [criticalPathVec_getD hord hlat hsum hu, hdone]
    omega

theorem criticalPath_le (hord : InOrder uops) (hlat : ∀ u ∈ uops, 0 ≤ u.latency)
    (hsum : latencySum uops < 2 ^ 31) : criticalPath uops ≤ totalCycles tr := by
  have htot := totalCycles_le_iff.mp (le_refl (totalCycles tr))
  refine criticalPath_le_iff.mpr ⟨htot.1, fun v hv => ?_⟩
  obtain ⟨i, hi, rfl⟩ := List.mem_iff_getElem.mp hv
  rw [length_criticalPathVec] at hi
  obtain ⟨t, ht, -⟩ := h.getElem i hi
  have := h.criticalPathVec_le hord hlat hsum ht
  grind

theorem countP_confined_le (S : Finset ℕ) :
    ((uops.countP fun u => ConfinedTo S u : ℕ) : Int) ≤ #S * (lastIssue tr + 1) := by
  classical
  let I : Finset (Fin uops.length) := {i | ConfinedTo S uops[i]}
  have hcard : uops.countP (fun u => ConfinedTo S u) = #I := by
    rw [← card_filter_getElem]
    simp [I]
  have hI : ∀ i : Fin uops.length, ∃ x : ℕ × ℕ, (i ∈ I → x.1 ∈ S) ∧
      x.2 < (lastIssue tr + 1).toNat ∧
      ∃ t, tr[(i : ℕ)]? = some t ∧ t.portUsed = x.1 ∧ t.cycleIssued = x.2 := by
    intro i
    obtain ⟨t, ht, ⟨p, hp, hport⟩, h0, -⟩ :=
      h.entry i uops[i] (List.getElem?_eq_getElem i.isLt)
    have hle := (lastIssue_le_iff.mp (le_refl (lastIssue tr))).2 t (List.mem_of_getElem? ht)
    refine ⟨(p, t.cycleIssued.toNat), fun hi => ?_, by dsimp only; omega, t, ht, hport, ?_⟩
    · exact (mem_filter.mp hi).2.2 p hp
    grind
  choose f hS hlt t ht hport hcyc using hI
  have hle : #I ≤ #(S ×ˢ range (lastIssue tr + 1).toNat) := by
    apply card_le_card_of_injOn f
    · intro i hi
      grind
    · intro i _ j _ hij
      by_contra hne
      refine h.onePerPort i j _ _ (ht i) (ht j) (Fin.val_ne_of_ne hne) ?_ ?_
      · rw [hcyc, hcyc, hij]
      · rw [hport, hport, hij]
  have h0 := lastIssue_nonneg tr
  grind [Nat.cast_mul, Int.toNat_of_nonneg, card_product, card_range]

theorem length_le : (uops.length : Int) ≤ fe * (lastIssue tr + 1) := by
  have h0 := lastIssue_nonneg tr
  have hmaps : ∀ i ∈ (univ : Finset (Fin tr.length)),
      tr[i].cycleIssued.toNat ∈ range (lastIssue tr + 1).toNat := by
    intro i _
    have hle := (lastIssue_le_iff.mp (le_refl (lastIssue tr))).2 tr[i] (List.getElem_mem _)
    rw [mem_range]
    omega
  have hcard := card_eq_sum_card_fiberwise hmaps
  rw [card_univ, Fintype.card_fin] at hcard
  have hfiber : ∀ c ∈ range (lastIssue tr + 1).toNat,
      ((#{i : Fin tr.length | tr[i].cycleIssued.toNat = c} : ℕ) : Int) ≤ fe := by
    intro c _
    refine le_trans ?_ (h.frontEnd c)
    rw [← card_filter_getElem]
    apply Int.ofNat_le.mpr
    apply card_le_card
    intro i hi
    have hi' : tr[i].cycleIssued.toNat = c := (mem_filter.mp hi).2
    obtain ⟨t, ht, h0, -⟩ := h.getElem i (h.length_eq ▸ i.isLt)
    grind
  rw [← h.length_eq, hcard, Nat.cast_sum]
  calc _ ≤ #(range (lastIssue tr + 1).toNat) • fe := sum_le_card_nsmul _ _ _ hfiber
    _ = fe * (lastIssue tr + 1) := by grind

theorem lastIssue_lt_totalCycles (hlat : ∀ u ∈ uops, 1 ≤ u.latency) (hne : uops ≠ []) :
    lastIssue tr + 1 ≤ totalCycles tr := by
  have hdone : ∀ (i : ℕ) (t : UopTrace), tr[i]? = some t → t.cycleIssued + 1 ≤ totalCycles tr := by
    intro i t ht
    have hi : i < uops.length := h.length_eq ▸ (List.getElem?_eq_some_iff.mp ht).1
    obtain ⟨t', ht', -, -, hd, -⟩ := h.entry i uops[i] (List.getElem?_eq_getElem hi)
    obtain rfl := Option.some.inj (ht.symm.trans ht')
    have hle := (totalCycles_le_iff.mp (le_refl (totalCycles tr))).2 t (List.mem_of_getElem? ht)
    grind
  obtain ⟨t, ht, h0, -⟩ := h.getElem 0 (List.length_pos_iff.mpr hne)
  have hlast : lastIssue tr ≤ totalCycles tr - 1 := by
    refine lastIssue_le_iff.mpr ⟨?_, fun t' ht' => ?_⟩
    · grind
    · obtain ⟨i, hi, rfl⟩ := List.mem_iff_getElem.mp ht'
      have := hdone i _ (List.getElem?_eq_getElem hi)
      omega
  omega

theorem density_cnt_le {nports : ℕ} (hu : MasksWithin uops nports) (mask : ℕ) :
    ((density uops nports mask).cnt : Int) ≤
      (density uops nports mask).ss * (lastIssue tr + 1) := by
  have hS := h.countP_confined_le {p ∈ range nports | mask.testBit p = true}
  have hcard : #{p ∈ range nports | mask.testBit p = true} = popcount mask nports := by
    rw [popcount_eq_card, portSet, card_filter, card_filter,
      Fin.sum_univ_eq_sum_range fun p => if mask.testBit p = true then 1 else 0]
  have hcount : uops.countP (Uop.conf mask) =
      uops.countP fun u => ConfinedTo {p ∈ range nports | mask.testBit p = true} u := by
    apply List.countP_congr
    intro u hmem
    rw [decide_eq_true_eq, conf_iff (hu u hmem), ConfinedTo]
    refine and_congr_right fun _ => ⟨fun hsub p hp => ?_, fun hall p hp => ?_⟩
    · have hp' : (⟨p, hu u hmem p hp⟩ : Fin nports) ∈ u.ports nports := by simpa [Uop.ports] using hp
      exact mem_filter.mpr ⟨mem_range.mpr (hu u hmem p hp), mem_portSet.mp (hsub hp')⟩
    · exact mem_portSet.mpr (mem_filter.mp (hall p (by simpa [Uop.ports] using hp))).2
  rw [hcard, ← hcount] at hS
  exact hS

theorem flowPortBound_le {nports : ℕ} (hn : nports < 31) (hu : MasksWithin uops nports)
    (hlen : uops.length < 200000) : flowPortBound uops nports ≤ scale * (lastIssue tr + 1) := by
  have h0 := lastIssue_nonneg tr
  have hbest : (bestDensity uops nports).cnt ≤ uops.length ∧ 0 < (bestDensity uops nports).ss ∧
      ((bestDensity uops nports).cnt : Int) ≤
        (bestDensity uops nports).ss * (lastIssue tr + 1) := by
    rcases Nat.eq_zero_or_pos nports with rfl | hpos
    · exact ⟨Nat.zero_le _, Nat.one_pos, by simp [bestDensity]; omega⟩
    · have hinit : (Density.mk 0 1).Fits uops.length nports := ⟨Nat.zero_le _, hpos, Nat.one_pos⟩
      have hmul : uops.length * nports < 2 ^ 31 :=
        (Nat.mul_le_mul hlen.le hn.le).trans_lt (by norm_num)
      obtain ⟨hfit, -, -, hex⟩ :=
        Density.foldl_better hmul (density uops nports) _ (fun _ => density_fits) hinit
      refine ⟨hfit.cnt_le, hfit.ss_pos, ?_⟩
      rcases hex with hb | ⟨mask, -, hb⟩
      · have hb' : bestDensity uops nports = ⟨0, 1⟩ := hb
        grind
      · have hb' : bestDensity uops nports = density uops nports mask := hb
        rw [hb']
        exact h.density_cnt_le hu mask
  obtain ⟨hcnt, hss, hle⟩ := hbest
  have hss' : (0 : Int) < (bestDensity uops nports).ss := by exact_mod_cast hss
  unfold flowPortBound scale
  rw [i32_eq (by omega) (by omega), Int.tdiv_eq_ediv_of_nonneg (by omega)]
  apply Int.ediv_le_of_le_mul hss'
  grind

end Legal
/-! What issuing one uop does to the state, and the invariant that it keeps. -/

open Finset Function

theorem getD_set_eq_update {α : Type*} (l : List α) {i : ℕ} (hi : i < l.length) (a d : α) :
    (fun j => (l.set i a).getD j d) = update (fun j => l.getD j d) i a := by grind

namespace State
variable {st : State} {u : Uop} {i p : ℕ}

theorem isIssued_issue (hi : i < st.issued.length) :
    (st.issue u i p).isIssued = update st.isIssued i true := getD_set_eq_update _ hi _ _

theorem doneAt_issue (hi : i < st.done.length) :
    (st.issue u i p).doneAt = update st.doneAt i (i32 (st.cyc + u.latency)) :=
  getD_set_eq_update _ hi _ _

theorem trace_issue (hi : i < st.tr.length) :
    (st.issue u i p).trace = update st.trace i
      ⟨u.instId, st.readyCycle u, st.cyc, i32 (st.cyc + u.latency), p⟩ :=
  getD_set_eq_update _ hi _ _

theorem isBusy_issue (hp : p < st.busy.length) :
    (st.issue u i p).isBusy = update st.isBusy p true := getD_set_eq_update _ hp _ _

theorem chosen_some (h : st.chosen u = some p) :
    p ∈ u.portMask ∧ st.isBusy p = false ∧ p < st.busy.length := by
  have hfree : st.isBusy p = false := by simpa using List.find?_some h
  refine ⟨List.mem_of_find?_eq_some h, hfree, ?_⟩
  by_contra hge
  unfold isBusy at hfree
  grind

theorem port_some (h : st.port u i = some p) :
    0 < st.feLeft ∧ st.isIssued i = false ∧ st.ready u = true ∧ st.chosen u = some p := by
  unfold port at h
  grind

theorem ready_iff : st.ready u = true ↔ ∀ s ∈ u.srcUops, 0 ≤ st.doneAt s ∧ st.doneAt s ≤ st.cyc := by
  unfold ready
  simp

def issuedSet (st : State) (n : ℕ) : Finset ℕ := {i ∈ range n | st.isIssued i = true}

def issuedIn (st : State) (n : ℕ) (c : Int) : Finset ℕ :=
  {i ∈ st.issuedSet n | (st.trace i).cycleIssued = c}

def work (uops : List Uop) (st : State) : Int :=
  ∑ i ∈ st.issuedSet uops.length, (1 + (uops[i]?).elim 0 Uop.latency)

structure Entry (st : State) (u : Uop) (i : ℕ) : Prop where
  port : ∃ p ∈ u.portMask, (st.trace i).portUsed = p
  nonneg : 0 ≤ (st.trace i).cycleIssued
  le_cyc : (st.trace i).cycleIssued ≤ st.cyc
  done : (st.trace i).cycleDone = (st.trace i).cycleIssued + u.latency
  doneAt_eq : st.doneAt i = (st.trace i).cycleDone
  sources : ∀ s ∈ u.srcUops, st.isIssued s = true ∧
    (st.trace s).cycleDone ≤ (st.trace i).cycleIssued

structure Inv (uops : List Uop) (fe : Int) (st : State) : Prop where
  done_length : st.done.length = uops.length
  issued_length : st.issued.length = uops.length
  tr_length : st.tr.length = uops.length
  waiting : ∀ i, st.isIssued i = false → st.doneAt i = -1
  entry : ∀ (i : ℕ) (u : Uop), uops[i]? = some u → st.isIssued i = true → st.Entry u i
  ports : ∀ i j, st.isIssued i = true → st.isIssued j = true → i ≠ j →
    (st.trace i).cycleIssued = (st.trace j).cycleIssued →
    (st.trace i).portUsed ≠ (st.trace j).portUsed
  budget : ∀ c, (#(st.issuedIn uops.length c) : Int) ≤ fe
  remaining_eq : st.remaining = uops.length - #(st.issuedSet uops.length)
  cyc_nonneg : 0 ≤ st.cyc
  cyc_le : st.cyc ≤ st.work uops
  done_le : ∀ i, st.isIssued i = true → st.doneAt i ≤ st.work uops
  log_nodup : st.log.Nodup
  mem_log : ∀ i, i ∈ st.log ↔ st.isIssued i = true

structure Open (uops : List Uop) (nports : ℕ) (fe : Int) (st : State) : Prop
    extends Inv uops fe st where
  busy_length : st.busy.length = nports
  busy : ∀ i p, st.isIssued i = true → (st.trace i).cycleIssued = st.cyc →
    (st.trace i).portUsed = (p : ℕ) → st.isBusy p = true
  left_eq : st.feLeft + #(st.issuedIn uops.length st.cyc) = fe

end State

/-- What the scheduler is given: positions in order, ports that exist, and few enough cycles. -/
structure Kernel (uops : List Uop) (nports : ℕ) : Prop where
  inOrder : InOrder uops
  within : MasksWithin uops nports
  ports : ∀ u ∈ uops, u.portMask ≠ []
  latency : ∀ u ∈ uops, 0 ≤ u.latency
  bound : uops.length + latencySum uops < 200000

namespace State
variable {uops : List Uop} {nports : ℕ} {fe : Int} {st : State} {u : Uop} {i p : ℕ}

theorem mem_issuedSet {n : ℕ} : i ∈ st.issuedSet n ↔ i < n ∧ st.isIssued i = true := by
  simp [issuedSet]

theorem mem_issuedIn {n : ℕ} {c : Int} :
    i ∈ st.issuedIn n c ↔ (i < n ∧ st.isIssued i = true) ∧ (st.trace i).cycleIssued = c := by
  rw [issuedIn, mem_filter, mem_issuedSet]

theorem Inv.lt_length (h : st.Inv uops fe) (hi : st.isIssued i = true) : i < uops.length := by
  by_contra hge
  unfold isIssued at hi
  rw [List.getD_eq_default _ _ (h.issued_length ▸ not_lt.mp hge)] at hi
  cases hi

theorem work_le (hk : Kernel uops nports) (st : State) :
    st.work uops ≤ uops.length + latencySum uops := by
  have hlat : ∀ i ∈ range uops.length, 0 ≤ 1 + (uops[i]?).elim 0 Uop.latency := by
    intro i hi
    have hi' := mem_range.mp hi
    have := hk.latency uops[i] (List.getElem_mem hi')
    grind
  calc st.work uops ≤ ∑ i ∈ range uops.length, (1 + (uops[i]?).elim 0 Uop.latency) :=
        sum_le_sum_of_subset_of_nonneg (filter_subset _ _) fun i hi _ => hlat i hi
    _ = uops.length + latencySum uops := by
        rw [sum_add_distrib, sum_const, card_range, nsmul_eq_mul, mul_one]
        congr 1
        have hsum : ∀ l : List Uop,
            ∑ i ∈ range l.length, (l[i]?).elim 0 Uop.latency = latencySum l := by
          intro l
          induction l with
          | nil => rfl
          | cons v l ih =>
            rw [List.length_cons, sum_range_succ']
            simp only [List.getElem?_cons_succ, List.getElem?_cons_zero, Option.elim_some, ih]
            simp [latencySum, add_comm]
        exact hsum uops

theorem Open.issuedSet_issue (h : st.Open uops nports fe)
    (hu : uops[i]? = some u) :
    (st.issue u i p).issuedSet uops.length = insert i (st.issuedSet uops.length) := by
  have hi := (List.getElem?_eq_some_iff.mp hu).1
  ext j
  rw [mem_insert, mem_issuedSet, mem_issuedSet, isIssued_issue (h.issued_length ▸ hi)]
  grind

theorem notMem_issuedSet {n : ℕ} (hport : st.port u i = some p) : i ∉ st.issuedSet n := by
  rw [mem_issuedSet, (port_some hport).2.1]
  simp

theorem Open.issuedIn_issue (h : st.Open uops nports fe)
    (hu : uops[i]? = some u) (hport : st.port u i = some p) (c : Int) :
    (st.issue u i p).issuedIn uops.length c =
      if c = st.cyc then insert i (st.issuedIn uops.length c) else st.issuedIn uops.length c := by
  have hi := (List.getElem?_eq_some_iff.mp hu).1
  have hn : i ∉ st.issuedSet uops.length := notMem_issuedSet hport
  ext j
  unfold issuedIn
  rw [mem_filter, h.issuedSet_issue hu, mem_insert, trace_issue (h.tr_length ▸ hi)]
  grind

theorem Open.work_issue (h : st.Open uops nports fe) (hu : uops[i]? = some u)
    (hport : st.port u i = some p) :
    (st.issue u i p).work uops = st.work uops + 1 + u.latency := by
  unfold work
  rw [h.issuedSet_issue hu, sum_insert (notMem_issuedSet hport), hu,
    Option.elim_some]
  ring

theorem Open.fin_eq (hk : Kernel uops nports) (h : st.Open uops nports fe)
    (hu : uops[i]? = some u) : i32 (st.cyc + u.latency) = st.cyc + u.latency := by
  have hmem : u ∈ uops := List.mem_of_getElem? hu
  have hlat := hk.latency u hmem
  have hle := latency_le_latencySum hk.latency hmem
  have hwork := work_le hk st
  have hcyc := h.cyc_le
  have h0 := h.cyc_nonneg
  have hb := hk.bound
  exact i32_eq (by omega) (by omega)

theorem Open.sources_done (h : st.Open uops nports fe)
    (hport : st.port u i = some p) {s : ℕ} (hs : s ∈ u.srcUops) :
    st.isIssued s = true ∧ (st.trace s).cycleDone ≤ st.cyc ∧ s ≠ i := by
  obtain ⟨-, hni, hready, -⟩ := port_some hport
  have hd := ready_iff.mp hready s hs
  have hiss : st.isIssued s = true := by
    by_contra hn
    have := h.waiting s (by simpa using hn)
    omega
  obtain ⟨v, hv⟩ : ∃ v, uops[s]? = some v :=
    ⟨_, List.getElem?_eq_getElem (h.toInv.lt_length hiss)⟩
  refine ⟨hiss, ?_, ?_⟩
  · rw [← (h.entry s v hv hiss).doneAt_eq]
    exact hd.2
  grind

theorem Open.entry_issue (hk : Kernel uops nports) (h : st.Open uops nports fe)
    (hu : uops[i]? = some u) (hport : st.port u i = some p)
    (j : ℕ) (v : Uop) (hv : uops[j]? = some v)
    (hj : (st.issue u i p).isIssued j = true) : (st.issue u i p).Entry v j := by
  have hi := (List.getElem?_eq_some_iff.mp hu).1
  rw [isIssued_issue (h.issued_length ▸ hi)] at hj
  have htr := trace_issue (u := u) (p := p) (h.tr_length ▸ hi : i < st.tr.length)
  have hdone := doneAt_issue (u := u) (p := p) (h.done_length ▸ hi : i < st.done.length)
  have hiss := isIssued_issue (u := u) (p := p) (h.issued_length ▸ hi : i < st.issued.length)
  have hfin := h.fin_eq hk hu
  -- the entry of the uop that is issued; those of the others stay
  rcases eq_or_ne j i with rfl | hne
  · obtain rfl := Option.some.inj (hu.symm.trans hv)
    have hch := chosen_some (port_some hport).2.2.2
    refine ⟨⟨p, hch.1, ?_⟩, ?_, ?_, ?_, ?_, ?_⟩
    · rw [htr, update_self]
    · rw [htr, update_self]
      exact h.cyc_nonneg
    · rw [htr, update_self]
      exact le_rfl
    · rw [htr, update_self]
      exact hfin
    · rw [htr, update_self, hdone, update_self]
    · intro s hs
      obtain ⟨hs1, hs2, hs3⟩ := h.sources_done hport hs
      rw [htr, update_self, hiss, update_of_ne hs3, update_of_ne hs3]
      exact ⟨hs1, hs2⟩
  · rw [update_of_ne hne] at hj
    have he := h.entry j v hv hj
    refine ⟨?_, ?_, ?_, ?_, ?_, ?_⟩
    · rw [htr, update_of_ne hne]
      exact he.port
    · rw [htr, update_of_ne hne]
      exact he.nonneg
    · rw [htr, update_of_ne hne]
      exact he.le_cyc
    · rw [htr, update_of_ne hne]
      exact he.done
    · rw [htr, update_of_ne hne, hdone, update_of_ne hne]
      exact he.doneAt_eq
    · intro s hs
      obtain ⟨hs1, hs2⟩ := he.sources s hs
      have hsi : s ≠ i := by
        rintro rfl
        rw [(port_some hport).2.1] at hs1
        cases hs1
      rw [htr, update_of_ne hne, hiss, update_of_ne hsi, update_of_ne hsi]
      exact ⟨hs1, hs2⟩

theorem Open.port_ne (h : st.Open uops nports fe)
    (hport : st.port u i = some p) {j : ℕ} (hj : st.isIssued j = true)
    (hc : (st.trace j).cycleIssued = st.cyc) : (st.trace j).portUsed ≠ p := by
  intro hp
  have hfree := (chosen_some (port_some hport).2.2.2).2.1
  rw [h.busy j p hj hc hp] at hfree
  cases hfree

theorem Open.issue (hk : Kernel uops nports) (h : st.Open uops nports fe)
    (hu : uops[i]? = some u) (hport : st.port u i = some p) :
    (st.issue u i p).Open uops nports fe := by
  have hi := (List.getElem?_eq_some_iff.mp hu).1
  have hmem : u ∈ uops := List.mem_of_getElem? hu
  have hlat := hk.latency u hmem
  have htr := trace_issue (u := u) (p := p) (h.tr_length ▸ hi : i < st.tr.length)
  have hdone := doneAt_issue (u := u) (p := p) (h.done_length ▸ hi : i < st.done.length)
  have hiss := isIssued_issue (u := u) (p := p) (h.issued_length ▸ hi : i < st.issued.length)
  have hfin := h.fin_eq hk hu
  have hwork := h.work_issue hu hport
  have hni := (port_some hport).2.1
  have hnm : i ∉ st.issuedSet uops.length := notMem_issuedSet hport
  have hch := chosen_some (port_some hport).2.2.2
  refine ⟨⟨?_, ?_, ?_, ?_, h.entry_issue hk hu hport, ?_, ?_, ?_, h.cyc_nonneg, ?_, ?_, ?_, ?_⟩,
    ?_, ?_, ?_⟩
  · exact (List.length_set ..).trans h.done_length
  · exact (List.length_set ..).trans h.issued_length
  · exact (List.length_set ..).trans h.tr_length
  · intro j hj
    rw [hiss] at hj
    have hne : j ≠ i := by grind
    rw [update_of_ne hne] at hj
    rw [hdone, update_of_ne hne]
    exact h.waiting j hj
  -- two uops of one cycle are on different ports: the one that is issued takes a port that none has
  · intro j k hj hkk hne hc
    rw [hiss] at hj hkk
    rw [htr] at hc ⊢
    rcases eq_or_ne j i with rfl | hji
    · rw [update_of_ne hne.symm] at hkk
      rw [update_self, update_of_ne hne.symm] at hc ⊢
      exact (h.port_ne hport hkk hc.symm).symm
    · rw [update_of_ne hji] at hj hc ⊢
      rcases eq_or_ne k i with rfl | hki
      · rw [update_self] at hc ⊢
        exact h.port_ne hport hj hc
      · rw [update_of_ne hki] at hkk hc ⊢
        exact h.ports j k hj hkk hne hc
  -- the budget of the front end, less one in this cycle
  · intro c
    rw [h.issuedIn_issue hu hport]
    split_ifs with hc
    · rw [hc]
      have hle := h.left_eq
      have hpos := (port_some hport).1
      grind [card_insert_le]
    · exact h.budget c
  · rw [h.issuedSet_issue hu, card_insert_of_notMem hnm]
    show st.remaining - 1 = _
    rw [h.remaining_eq]
    push_cast
    ring
  · rw [hwork]
    have := h.cyc_le
    show st.cyc ≤ _
    omega
  · intro j hj
    rw [hiss] at hj
    rw [hdone, hwork]
    rcases eq_or_ne j i with rfl | hne
    · rw [update_self, hfin]
      have := h.cyc_le
      omega
    · rw [update_of_ne hne] at hj ⊢
      have := h.done_le j hj
      omega
  · refine List.nodup_append.mpr ⟨h.log_nodup, List.nodup_singleton i, ?_⟩
    intro j hj k hkk heq
    rw [List.mem_singleton] at hkk
    rw [heq, hkk, h.mem_log, hni] at hj
    cases hj
  · intro j
    show j ∈ st.log ++ [i] ↔ _
    rw [List.mem_append, List.mem_singleton, h.mem_log, hiss]
    grind
  · exact (List.length_set ..).trans h.busy_length
  -- the ports that are busy in this cycle
  · intro j q hj hc hq
    rw [hiss] at hj
    rw [htr] at hc hq
    rw [isBusy_issue hch.2.2]
    rcases eq_or_ne q p with rfl | hqp
    · exact update_self ..
    · rw [update_of_ne hqp]
      rcases eq_or_ne j i with rfl | hne
      · grind
      · rw [update_of_ne hne] at hj hc hq
        exact h.busy j q hj hc hq
  · rw [h.issuedIn_issue hu hport]
    show st.feLeft - 1 + _ = fe
    have hcy : (st.issue u i p).cyc = st.cyc := rfl
    have hnin : i ∉ st.issuedIn uops.length st.cyc := fun hmem => hnm (mem_filter.mp hmem).1
    rw [hcy, if_pos rfl, card_insert_of_notMem hnin]
    have := h.left_eq
    push_cast
    omega

end State
end LsLang.Sim
