import LsLang.Lib.LoopWalk
import LsLang.Sim.CriticalPath
import LsLang.Sim.ScheduleRun
import Mathlib.Algebra.Order.Field.Rat

/-! The recurrence bound is the maximum cycle ratio of the dependency graph, as long as a cycle
crosses the carried edges of one register only and the chains between registers are short. -/

namespace LsLang.Sim

open Relation LoopWalk

section
variable (uops : List Uop) (edges : List Carried)

/-- A dependency path between two uops, with the carried edges that it crosses and the latencies of
all its uops. -/
inductive Path (i : ℕ) : ℕ → ℕ → Int → Prop
  | single {u : Uop} : uops[i]? = some u → Path i i 0 u.latency
  | source {j k d : ℕ} {c : Int} {u : Uop} : Path i j d c → uops[k]? = some u → j ∈ u.srcUops →
      Path i k d (c + u.latency)
  | carry {j k d : ℕ} {c : Int} {u : Uop} : Path i j d c → uops[k]? = some u → ⟨k, j⟩ ∈ edges →
      Path i k (d + 1) (c + u.latency)

/-- A cycle with the carried edges on it and the sum of the latencies of its uops. -/
def IsCycle (d : ℕ) (c : Int) : Prop :=
  ∃ i u, uops[i]? = some u ∧ 0 < d ∧ Path uops edges i i d (c + u.latency)

def Feeds (w w' : ℕ) (g : Int) : Prop :=
  (∃ c ∈ edges, c.writer = w') ∧ ∃ r, ⟨r, w⟩ ∈ edges ∧ Path uops edges r w' 0 g

/-- Every cycle crosses carried edges of one register only, and of six registers no two of which
are the same no one feeds the next. -/
structure SingleDistance : Prop where
  onlyLoops : OnlyLoops (Feeds uops edges)
  short : ∀ ws : List ℕ, (ws.IsChain fun w w' => Step (Feeds uops edges) w' w) → ws.Nodup →
    ws.length ≤ 5

end

variable {uops : List Uop} {edges : List Carried}

namespace Path

theorem trans_carry {i w r k d d' : ℕ} {c c' : Int} (h : Path uops edges i w d c)
    (he : ⟨r, w⟩ ∈ edges) (h' : Path uops edges r k d' c') :
    Path uops edges i k (d + 1 + d') (c + c') := by
  induction h' with
  | single hu => exact h.carry hu he
  | source _ hu hs ih =>
    rw [← add_assoc]
    exact ih.source hu hs
  | carry _ hu hs ih =>
    rw [← add_assoc, ← add_assoc]
    exact ih.carry hu hs

theorem trans {i j k d d' : ℕ} {c c' : Int} {v : Uop} (h : Path uops edges i j d c)
    (hv : uops[j]? = some v) (h' : Path uops edges j k d' c') :
    Path uops edges i k (d + d') (c + c' - v.latency) := by
  induction h' with
  | single hu =>
    grind
  | source _ hu hs ih =>
    rw [← add_assoc, add_sub_right_comm]
    exact ih.source hu hs
  | carry _ hu hs ih =>
    rw [← add_assoc, ← add_assoc, add_sub_right_comm]
    exact ih.carry hu hs

theorem split_last {i k d : ℕ} {c : Int} (h : Path uops edges i k (d + 1) c) :
    ∃ w r c₁ c₂, Path uops edges i w d c₁ ∧ ⟨r, w⟩ ∈ edges ∧ Path uops edges r k 0 c₂ ∧
      c = c₁ + c₂ := by
  generalize hd : d + 1 = d' at h
  induction h generalizing d with
  | single => cases hd
  | source _ hu hs ih =>
    obtain ⟨w, r, c₁, c₂, h₁, he, h₂, rfl⟩ := ih hd
    exact ⟨w, r, c₁, _, h₁, he, h₂.source hu hs, add_assoc ..⟩
  | @carry j k d c u h hu hs ih =>
    obtain rfl := Nat.succ.inj hd
    exact ⟨j, k, c, u.latency, h, hs, Path.single hu, rfl⟩

theorem feeds_append {i w w' d : ℕ} {c g : Int} (h : Path uops edges i w d c)
    (hf : Feeds uops edges w w' g) : Path uops edges i w' (d + 1) (c + g) := by
  obtain ⟨-, r, hr, hp⟩ := hf
  exact h.trans_carry hr hp

theorem exists_walk {i w d : ℕ} {c : Int} (hw : ∃ e ∈ edges, e.writer = w)
    (h : Path uops edges i w d c) : ∃ w₀ c₀ l c', Path uops edges i w₀ 0 c₀ ∧
      (∃ e ∈ edges, e.writer = w₀) ∧ Walk (Feeds uops edges) w₀ w l c' ∧ l.length = d + 1 ∧
      c = c₀ + c' := by
  induction d generalizing w c with
  | zero => exact ⟨w, c, [w], 0, h, hw, Walk.nil, rfl, (add_zero c).symm⟩
  | succ d ih =>
    obtain ⟨v, r, c₁, c₂, h₁, he, h₂, rfl⟩ := h.split_last
    obtain ⟨w₀, c₀, l, c', hp, hw₀, hwalk, hl, rfl⟩ := ih ⟨_, he, rfl⟩ h₁
    exact ⟨w₀, c₀, w :: l, c' + c₂, hp, hw₀, hwalk.snoc ⟨hw, r, he, h₂⟩,
      congrArg Nat.succ hl, add_assoc ..⟩

theorem append_walk {i w₀ w d : ℕ} {l : List ℕ} {c₀ c : Int} (h : Path uops edges i w₀ d c₀)
    (hw : Walk (Feeds uops edges) w₀ w l c) : Path uops edges i w (d + (l.length - 1)) (c₀ + c) := by
  induction hw with
  | nil =>
    rw [add_zero]
    exact h
  | @snoc b w l c g hw hg ih =>
    have hlen : d + ((w :: l).length - 1) = d + (l.length - 1) + 1 := by
      have := hw.length_pos
      grind
    rw [hlen, ← add_assoc]
    exact ih.feeds_append hg

end Path

theorem Feeds.isCycle {w : ℕ} {g : Int} (hb : Body uops edges) (h : Feeds uops edges w w g) :
    IsCycle uops edges 1 g := by
  obtain ⟨⟨e, he, rfl⟩, -⟩ := id h
  have hu : uops[e.writer]? = some _ := List.getElem?_eq_getElem (hb.edge e he).2
  refine ⟨e.writer, _, hu, Nat.one_pos, ?_⟩
  rw [add_comm]
  exact (Path.single hu).feeds_append h

theorem Path.latency_le (hb : Body uops edges) {i k d : ℕ} {c : Int} {u : Uop}
    (hu : uops[i]? = some u) (h : Path uops edges i k d c) : u.latency ≤ c := by
  induction h with
  | single hv => grind
  | source _ hv _ ih =>
    have := hb.latency _ (List.mem_of_getElem? hv)
    omega
  | carry _ hv _ ih =>
    have := hb.latency _ (List.mem_of_getElem? hv)
    omega

theorem IsCycle.nonneg (hb : Body uops edges) {d : ℕ} {c : Int} (h : IsCycle uops edges d c) :
    0 ≤ c := by
  obtain ⟨i, u, hu, -, hp⟩ := h
  have := hp.latency_le hb hu
  omega

theorem IsCycle.le (hs : SingleDistance uops edges) {best : Int}
    (hbest : ∀ w g, Feeds uops edges w w g → g ≤ best) {d : ℕ} {c : Int}
    (h : IsCycle uops edges d c) : c ≤ d * best := by
  obtain ⟨i, u, hu, hd, hp⟩ := h
  obtain ⟨d, rfl⟩ := Nat.exists_eq_succ_of_ne_zero hd.ne'
  obtain ⟨w, r, c₁, c₂, h₁, he, h₂, hc⟩ := hp.split_last
  obtain ⟨w₀, c₀, l, c', hp₀, hw₀, hwalk, hl, rfl⟩ := h₁.exists_walk ⟨_, he, rfl⟩
  -- the last register feeds the first one, through the start of the cycle
  have hclose : Feeds uops edges w w₀ (c₂ + c₀ - u.latency) := ⟨hw₀, r, he, h₂.trans hu hp₀⟩
  obtain ⟨-, hle⟩ := (hwalk.snoc hclose).closed_le hs.onlyLoops hbest ReflTransGen.refl
  grind

section longest
variable (hb : Body uops edges) {iters : ℕ} (hsum : iters * latencySum uops < 2 ^ 31)
include hb hsum

theorem Path.le_longest {i k d t : ℕ} {c : Int} (h : Path uops edges i k d c) (hd : d ≤ t)
    (ht : t < iters) : c ≤ longest uops edges iters t k := by
  induction h generalizing t with
  | single hu => exact (hb.longest_ge hsum ht hu).1
  | source _ hu hs ih =>
    have h₁ := ih hd ht
    have h₂ := (hb.longest_ge hsum ht hu).2.1 _ hs
    omega
  | carry _ hu hs ih =>
    have h₁ := ih (t := t - 1) (by omega) (by omega)
    have h₂ := (hb.longest_ge hsum ht hu).2.2 (by omega) _ hs
    omega

theorem exists_path_longest (t : ℕ) (ht : t < iters) (k : ℕ) (hk : k < uops.length) :
    ∃ i d, d ≤ t ∧ Path uops edges i k d (longest uops edges iters t k) := by
  induction t using Nat.strong_induction_on generalizing k with
  | _ t iht =>
    induction k using Nat.strong_induction_on with
    | _ k ihk =>
      have hu : uops[k]? = some uops[k] := List.getElem?_eq_getElem hk
      rcases hb.longest_cases hsum ht hu with heq | ⟨s, hs, heq⟩ | ⟨hpos, w, hw, heq⟩
      · rw [heq]
        exact ⟨k, 0, Nat.zero_le t, Path.single hu⟩
      · have hlt := hb.inOrder k _ hu s hs
        obtain ⟨i, d, hd, hp⟩ := ihk s hlt (hlt.trans hk)
        rw [heq]
        exact ⟨i, d, hd, hp.source hu hs⟩
      · obtain ⟨i, d, hd, hp⟩ := iht (t - 1) (by omega) (by omega) w (hb.edge _ hw).2
        rw [heq]
        exact ⟨i, d + 1, by omega, hp.carry hu hw⟩

theorem longest_bounds (t k : ℕ) : 0 ≤ longest uops edges iters t k ∧
    longest uops edges iters t k ≤ iters * latencySum uops := by
  have := criticalPathVec_bounds (hb.latency_replicateCarried iters)
    (by rwa [latencySum_replicateCarried]) (k + t * uops.length)
  rwa [latencySum_replicateCarried] at this

end longest

section delay
variable (hb : Body uops edges) (hs : SingleDistance uops edges)
  (hsum : 12 * latencySum uops < 2 ^ 31)
include hb hsum

theorem settledDelay_eq {e : Carried} :
    settledDelay (criticalPathVec (replicateCarried uops edges 6)) uops.length 6 e =
      longest uops edges 6 5 e.writer - longest uops edges 6 4 e.writer := by
  have hnn := latencySum_nonneg hb.latency
  have h6 : (6 : ℕ) * latencySum uops < 2 ^ 31 := by push_cast; omega
  have h5 := longest_bounds hb h6 5 e.writer
  have h4 := longest_bounds hb h6 4 e.writer
  push_cast at h4 h5
  show i32 (longest uops edges 6 5 e.writer - longest uops edges 6 4 e.writer) = _
  exact i32_eq (by omega) (by omega)

theorem Feeds.le_delay {w : ℕ} {g : Int} (h : Feeds uops edges w w g) :
    g ≤ longest uops edges 6 5 w - longest uops edges 6 4 w := by
  have hnn := latencySum_nonneg hb.latency
  have h6 : (6 : ℕ) * latencySum uops < 2 ^ 31 := by push_cast; omega
  obtain ⟨e, he, rfl⟩ := h.1
  obtain ⟨i, d, hd, hp⟩ := exists_path_longest hb h6 4 (by decide) e.writer (hb.edge e he).2
  have := (hp.feeds_append h).le_longest hb h6 (t := 5) (by omega) (by decide)
  omega

include hs in
theorem exists_loop_of_delay {e : Carried} (he : e ∈ edges)
    (hpos : 0 < longest uops edges 6 5 e.writer - longest uops edges 6 4 e.writer) :
    ∃ w g, Feeds uops edges w w g ∧
      longest uops edges 6 5 e.writer - longest uops edges 6 4 e.writer ≤ g := by
  have hnn := latencySum_nonneg hb.latency
  have h6 : (6 : ℕ) * latencySum uops < 2 ^ 31 := by push_cast; omega
  obtain ⟨i, d, hd, hp⟩ := exists_path_longest hb h6 5 (by decide) e.writer (hb.edge e he).2
  rcases Nat.lt_or_ge d 5 with hlt | hge
  · have := hp.le_longest hb h6 (show d ≤ 4 by omega) (by decide)
    omega
  · obtain rfl : d = 5 := by omega
    obtain ⟨w₀, c₀, l, c', hp₀, -, hwalk, hl, hc⟩ := hp.exists_walk ⟨e, he, rfl⟩
    have hnd : ¬l.Nodup := by
      intro hnd
      have := hs.short l hwalk.isChain hnd
      omega
    obtain ⟨w, g, l', hg, hwalk', hl'⟩ := hwalk.drop_loop hs.onlyLoops hnd
    have hp' := (hp₀.append_walk hwalk').le_longest hb h6 (t := 4) (by omega) (by decide)
    grind

end delay

def bestDelay (uops : List Uop) (edges : List Carried) : Int :=
  edges.foldl (fun best c =>
    if settledDelay (criticalPathVec (replicateCarried uops edges 6)) uops.length 6 c > best then
      settledDelay (criticalPathVec (replicateCarried uops edges 6)) uops.length 6 c else best) 0

theorem Feeds.le_latencySum (hb : Body uops edges) (hsum : 12 * latencySum uops < 2 ^ 31)
    {w w' : ℕ} {g : Int} (h : Feeds uops edges w w' g) : g ≤ latencySum uops := by
  have hnn := latencySum_nonneg hb.latency
  have h1 : (1 : ℕ) * latencySum uops < 2 ^ 31 := by push_cast; omega
  obtain ⟨-, r, -, hp⟩ := h
  have hle := hp.le_longest hb h1 (t := 0) le_rfl Nat.one_pos
  have hbd := (longest_bounds hb h1 0 w').2
  push_cast at hbd
  omega

section best
variable (hb : Body uops edges) (hs : SingleDistance uops edges)
  (hsum : 12 * latencySum uops < 2 ^ 31)
include hb hs hsum

theorem bestDelay_spec : 0 ≤ bestDelay uops edges ∧
    (∀ w g, Feeds uops edges w w g → g ≤ bestDelay uops edges) ∧
    (bestDelay uops edges = 0 ∨ ∃ w, Feeds uops edges w w (bestDelay uops edges)) := by
  have hle := (foldl_max_le_iff
    (settledDelay (criticalPathVec (replicateCarried uops edges 6)) uops.length 6) edges 0
    (bestDelay uops edges)).mp le_rfl
  have hloop : ∀ w g, Feeds uops edges w w g → g ≤ bestDelay uops edges := by
    intro w g hg
    obtain ⟨e, he, rfl⟩ := id hg.1
    have h₁ := hg.le_delay hb hsum
    grind [settledDelay_eq]
  refine ⟨hle.1, hloop, ?_⟩
  rcases foldl_max_cases
    (settledDelay (criticalPathVec (replicateCarried uops edges 6)) uops.length 6) edges 0 with
    heq | ⟨e, he, heq⟩
  · exact Or.inl heq
  · have hbest : bestDelay uops edges = _ := heq
    rw [settledDelay_eq hb hsum] at hbest
    rcases hle.1.eq_or_lt with h0 | hpos
    · exact Or.inl h0.symm
    · obtain ⟨w, g, hg, hge⟩ := exists_loop_of_delay hb hs hsum he (by omega)
      have := hloop w g hg
      obtain rfl : g = bestDelay uops edges := by omega
      exact Or.inr ⟨w, hg⟩

theorem recMiiX_eq : recMiiX uops edges = bestDelay uops edges * scale := by
  obtain ⟨h0, -, hcases⟩ := bestDelay_spec hb hs hsum
  have hle : bestDelay uops edges ≤ latencySum uops := by
    rcases hcases with h | ⟨w, hw⟩
    · rw [h]
      exact latencySum_nonneg hb.latency
    · exact hw.le_latencySum hb hsum
  unfold recMiiX
  split_ifs with he
  · rw [List.isEmpty_iff.mp he]
    rfl
  · show i32 (bestDelay uops edges * scale) = _
    unfold scale
    exact i32_eq (by omega) (by omega)

theorem bestDelay_mul_le (iters : ℕ) (hit : (iters + 1 : ℕ) * latencySum uops < 2 ^ 31) :
    bestDelay uops edges * iters ≤ criticalPath (replicateCarried uops edges (iters + 1)) := by
  have hcp := criticalPath_le_iff.mp (le_refl (criticalPath (replicateCarried uops edges (iters + 1))))
  rcases (bestDelay_spec hb hs hsum).2.2 with h | ⟨w, hw⟩
  · grind
  · obtain ⟨e, he, rfl⟩ := id hw.1
    have hlt := (hb.edge e he).2
    have hu : uops[e.writer]? = some uops[e.writer] := List.getElem?_eq_getElem hlt
    have hpath : ∀ m : ℕ, Path uops edges e.writer e.writer m
        (uops[e.writer].latency + bestDelay uops edges * m) := by
      intro m
      induction m with
      | zero =>
        have h1 : Path uops edges e.writer e.writer 0 _ := Path.single hu
        simpa using h1
      | succ m ih =>
        have := ih.feeds_append hw
        grind
    have hle := (hpath iters).le_longest hb hit le_rfl (Nat.lt_succ_self iters)
    have hlat := hb.latency _ (List.getElem_mem hlt)
    have hmem : longest uops edges (iters + 1) iters e.writer ∈
        criticalPathVec (replicateCarried uops edges (iters + 1)) := by
      unfold longest
      rw [List.getD_eq_getElem]
      · exact List.getElem_mem _
      · rw [length_criticalPathVec]
        exact (List.getElem?_eq_some_iff.mp
          (getElem?_replicateCarried (Nat.lt_succ_self iters) hu)).1
    grind

end best

/-- The recurrence bound is the greatest cycle ratio, zero without cycles, and a simulation of the
carried stream is not faster. -/
theorem recMiiX_isGreatest (uops : List Uop) (edges : List Carried) (hb : Body uops edges)
    (hs : SingleDistance uops edges) (hsum : 12 * latencySum uops < 2 ^ 31) :
    ((¬∃ d c, IsCycle uops edges d c) → recMiiX uops edges = 0) ∧
    ((∃ d c, IsCycle uops edges d c) →
      IsGreatest {q : ℚ | ∃ d c, IsCycle uops edges d c ∧ q = c / d}
        (recMiiX uops edges / scale)) ∧
    ∀ (iters nports : ℕ) (fePerCycle : Int), 1 ≤ fePerCycle →
      Kernel (replicateCarried uops edges (iters + 1)) nports →
      recMiiX uops edges * iters ≤
        scale * totalCycles (simulateFe (replicateCarried uops edges (iters + 1)) nports fePerCycle) := by
  obtain ⟨h0, hloop, hcases⟩ := bestDelay_spec hb hs hsum
  rw [recMiiX_eq hb hs hsum]
  have hdiv : ((bestDelay uops edges * scale : Int) : ℚ) / (scale : Int) = bestDelay uops edges := by
    unfold scale
    push_cast
    ring
  refine ⟨fun hno => ?_, fun ⟨d, c, hcyc⟩ => ?_, fun iters nports fe hfe hk => ?_⟩
  · rcases hcases with h | ⟨w, hw⟩
    · rw [h, zero_mul]
    · exact absurd ⟨1, _, hw.isCycle hb⟩ hno
  · rw [hdiv]
    have hupper : ∀ d c, IsCycle uops edges d c → (c : ℚ) / d ≤ bestDelay uops edges := by
      intro d c hcyc
      have hpos : (0 : ℚ) < d := by
        obtain ⟨-, -, -, hd, -⟩ := hcyc
        exact_mod_cast hd
      rw [div_le_iff₀ hpos, mul_comm]
      exact_mod_cast hcyc.le hs hloop
    refine ⟨?_, ?_⟩
    · rcases hcases with h | ⟨w, hw⟩
      · -- a cycle gains nothing less than zero
        refine ⟨d, c, hcyc, ?_⟩
        have hle := hcyc.le hs hloop
        have hnn : 0 ≤ c := hcyc.nonneg hb
        rw [h, mul_zero] at hle
        rw [h, le_antisymm hle hnn]
        simp
      · exact ⟨1, _, hw.isCycle hb, by simp⟩
    · rintro _ ⟨d, c, hcyc, rfl⟩
      exact hupper d c hcyc
  · have hbound := hk.bound
    rw [latencySum_replicateCarried] at hbound
    have hnn := latencySum_nonneg hk.latency
    have hle := bestDelay_mul_le hb hs hsum iters (by omega)
    obtain ⟨-, -, hcp, -⟩ := simulateFe_legal _ nports fe hk hfe
    unfold scale
    linarith

theorem singleDistance_of_writer {w : ℕ} (h : ∀ e ∈ edges, e.writer = w) :
    SingleDistance uops edges := by
  have hstep : ∀ a b, Step (Feeds uops edges) a b → a = w ∧ b = w := by
    rintro a b ⟨g, ⟨e, he, rfl⟩, r, hr, -⟩
    exact ⟨h _ hr, h e he⟩
  refine ⟨fun a b hab hba => ?_, fun ws hchain hnd => ?_⟩
  · grind
  · rcases ws with - | ⟨a, - | ⟨b, ws⟩⟩
    · exact Nat.zero_le 5
    · grind
    grind

def dotProduct : List Uop := [⟨0, [2, 3], 5, [], true, false⟩, ⟨1, [0, 1], 4, [0], false, false⟩]

theorem body_dotProduct : Body dotProduct [⟨1, 1⟩] where
  inOrder := by decide
  latency := by decide
  edge := by decide

theorem recMiiX_isGreatest_dotProduct :
    ((¬∃ d c, IsCycle dotProduct [⟨1, 1⟩] d c) → recMiiX dotProduct [⟨1, 1⟩] = 0) ∧
    ((∃ d c, IsCycle dotProduct [⟨1, 1⟩] d c) →
      IsGreatest {q : ℚ | ∃ d c, IsCycle dotProduct [⟨1, 1⟩] d c ∧ q = c / d}
        (recMiiX dotProduct [⟨1, 1⟩] / scale)) ∧
    ∀ (iters nports : ℕ) (fePerCycle : Int), 1 ≤ fePerCycle →
      Kernel (replicateCarried dotProduct [⟨1, 1⟩] (iters + 1)) nports →
      recMiiX dotProduct [⟨1, 1⟩] * iters ≤ scale * totalCycles
        (simulateFe (replicateCarried dotProduct [⟨1, 1⟩] (iters + 1)) nports fePerCycle) :=
  recMiiX_isGreatest dotProduct [⟨1, 1⟩] body_dotProduct (singleDistance_of_writer (w := 1) (by decide))
    (by decide)

example : recMiiX dotProduct [⟨1, 1⟩] = 48 := by decide

/-- Two registers that are swapped: a cycle with two carried edges. -/
def swapped : List Uop := [⟨0, [0], 1, [], false, false⟩, ⟨1, [0], 4, [], false, false⟩]

def swapEdges : List Carried := [⟨0, 1⟩, ⟨1, 0⟩]

/-- A chain of seven uops, each of which reads what the one before wrote an iteration ago. -/
def chained : List Uop := List.replicate 7 ⟨0, [0], 1, [], false, false⟩

def chainEdges : List Carried := [⟨1, 0⟩, ⟨2, 1⟩, ⟨3, 2⟩, ⟨4, 3⟩, ⟨5, 4⟩, ⟨6, 5⟩]

/-- A latency whose double is no `int`. -/
def slow : List Uop := [⟨0, [0], 2 ^ 30, [], false, false⟩]

theorem swapped_cases {k : ℕ} {u : Uop} (h : swapped[k]? = some u) :
    u.srcUops = [] ∧ (k = 0 ∧ u.latency = 1 ∨ k = 1 ∧ u.latency = 4) := by
  rcases k with - | - | k
  · cases h
    grind
  · cases h
    grind
  · cases h

theorem swapped_path {i k d : ℕ} {c : Int} (h : Path swapped swapEdges i k d c) :
    2 * c = 5 * d + (2 + 3 * i + 3 * k) := by
  induction h with
  | single hu =>
    obtain ⟨-, ⟨rfl, hlat⟩ | ⟨rfl, hlat⟩⟩ := swapped_cases hu
    · rw [hlat]
      decide
    · rw [hlat]
      decide
  | source _ hu hs =>
    rw [(swapped_cases hu).1] at hs
    cases hs
  | @carry j k d c u _ hu he ih =>
    have hjk : k = 0 ∧ j = 1 ∨ k = 1 ∧ j = 0 := by
      simpa [swapEdges] using he
    obtain ⟨-, ⟨rfl, hlat⟩ | ⟨rfl, hlat⟩⟩ := swapped_cases hu <;> push_cast <;> omega

theorem chained_path {i k d : ℕ} {c : Int} (h : Path chained chainEdges i k d c) : k = i + d := by
  induction h with
  | single => rfl
  | source _ hu hs =>
    rw [List.eq_of_mem_replicate (List.mem_of_getElem? hu)] at hs
    cases hs
  | @carry j k d c u _ hu he ih =>
    have hjk : ∀ e ∈ chainEdges, e.reader = e.writer + 1 := by decide
    grind

theorem swapped_isCycle : IsCycle swapped swapEdges 2 5 := by
  have h₀ : Path swapped swapEdges 0 0 0 1 := Path.single (u := ⟨0, [0], 1, [], false, false⟩) rfl
  have h₁ : Path swapped swapEdges 0 1 1 (1 + 4) :=
    h₀.carry (u := ⟨1, [0], 4, [], false, false⟩) rfl (by decide)
  exact ⟨0, _, rfl, by decide, h₁.carry (u := ⟨0, [0], 1, [], false, false⟩) rfl (by decide)⟩

theorem slow_isCycle : IsCycle slow [⟨0, 0⟩] 1 (2 ^ 30) := by
  have h₀ : Path slow [⟨0, 0⟩] 0 0 0 (2 ^ 30) :=
    Path.single (u := ⟨0, [0], 2 ^ 30, [], false, false⟩) rfl
  exact ⟨0, _, rfl, by decide, h₀.carry (u := ⟨0, [0], 2 ^ 30, [], false, false⟩) rfl (by decide)⟩

/-- The bound is not the greatest cycle ratio where a cycle crosses two carried edges, not zero
where a chain without cycles is long, and too small where a latency is too large. -/
theorem recMiiX_not_isGreatest :
    (Body swapped swapEdges ∧ (∃ d c, IsCycle swapped swapEdges d c) ∧
      ¬IsGreatest {q : ℚ | ∃ d c, IsCycle swapped swapEdges d c ∧ q = c / d}
        (recMiiX swapped swapEdges / scale)) ∧
    (Body chained chainEdges ∧ (¬∃ d c, IsCycle chained chainEdges d c) ∧
      recMiiX chained chainEdges ≠ 0) ∧
    (Body slow [⟨0, 0⟩] ∧ IsCycle slow [⟨0, 0⟩] 1 (2 ^ 30) ∧ recMiiX slow [⟨0, 0⟩] = 0) := by
  refine ⟨⟨⟨by decide, by decide, by decide⟩, ⟨2, 5, swapped_isCycle⟩, fun hg => ?_⟩,
    ⟨⟨by decide, by decide, by decide⟩, ?_, by decide⟩,
    ⟨⟨by decide, by decide, by decide⟩, slow_isCycle, by decide⟩⟩
  · obtain ⟨d, c, ⟨i, u, hu, hd, hp⟩, hq⟩ := hg.1
    have hrec : recMiiX swapped swapEdges = 48 := by decide
    have hd' : (d : ℚ) ≠ 0 := by exact_mod_cast hd.ne'
    rw [hrec, eq_div_iff hd'] at hq
    have hc : c = 4 * d := by
      unfold scale at hq
      norm_num at hq
      exact_mod_cast hq.symm
    have hpath := swapped_path hp
    obtain ⟨-, ⟨rfl, hlat⟩ | ⟨rfl, hlat⟩⟩ := swapped_cases hu <;> rw [hlat] at hpath <;>
      push_cast at hpath <;> omega
  · rintro ⟨d, c, i, u, -, hd, hp⟩
    have := chained_path hp
    omega

end LsLang.Sim
