import LsLang.Sim.Uop
import Mathlib.Algebra.BigOperators.Group.List.Basic
import Mathlib.Algebra.Order.BigOperators.Group.List
import Mathlib.Data.List.GetD
import Mathlib.Data.List.Induction
import Mathlib.Tactic.Ring

/-! The longest-path values of a list of uops, where their sum fits an `int`. -/

namespace LsLang.Sim

theorem foldl_max_le_iff {α : Type*} (f : α → Int) (l : List α) (a c : Int) :
    l.foldl (fun b x => if f x > b then f x else b) a ≤ c ↔ a ≤ c ∧ ∀ x ∈ l, f x ≤ c := by
  induction l generalizing a with
  | nil => simp
  | cons x l ih =>
    rw [List.foldl_cons, ih, List.forall_mem_cons]
    split_ifs <;> constructor <;> intro h <;> refine ⟨by omega, ?_⟩
    · exact ⟨h.1, h.2⟩
    · exact h.2.2
    · exact ⟨by omega, h.2⟩
    · exact h.2.2

theorem foldl_max_cases {α : Type*} (f : α → Int) (l : List α) (a : Int) :
    l.foldl (fun b x => if f x > b then f x else b) a = a ∨
      ∃ x ∈ l, l.foldl (fun b x => if f x > b then f x else b) a = f x := by
  induction l generalizing a with
  | nil => exact Or.inl rfl
  | cons x l ih =>
    rw [List.foldl_cons]
    split_ifs
    · grind
    · grind

theorem criticalBase_le_iff {cp : List Int} {l : List ℕ} {c : Int} :
    criticalBase cp l ≤ c ↔ 0 ≤ c ∧ ∀ s ∈ l, cp.getD s 0 ≤ c :=
  foldl_max_le_iff (fun s => cp.getD s 0) l 0 c

theorem criticalPath_le_iff {uops : List Uop} {c : Int} :
    criticalPath uops ≤ c ↔ 0 ≤ c ∧ ∀ v ∈ criticalPathVec uops, v ≤ c :=
  foldl_max_le_iff id (criticalPathVec uops) 0 c

theorem criticalBase_nonneg (cp : List Int) (l : List ℕ) : 0 ≤ criticalBase cp l :=
  (criticalBase_le_iff.mp le_rfl).1

theorem criticalPathVec_append (uops : List Uop) (u : Uop) :
    criticalPathVec (uops ++ [u]) = criticalStep (criticalPathVec uops) u := by
  unfold criticalPathVec
  grind

theorem length_criticalPathVec (uops : List Uop) : (criticalPathVec uops).length = uops.length := by
  induction uops using List.reverseRecOn with
  | nil => rfl
  | append_singleton us u ih =>
    rw [criticalPathVec_append]
    simp [criticalStep, ih]

/-- The latencies of all uops together. -/
def latencySum (uops : List Uop) : Int := (uops.map Uop.latency).sum

theorem latencySum_append (us vs : List Uop) :
    latencySum (us ++ vs) = latencySum us + latencySum vs := by
  simp [latencySum]

theorem latencySum_singleton (u : Uop) : latencySum [u] = u.latency := by simp [latencySum]

theorem latencySum_nonneg {uops : List Uop} (h : ∀ u ∈ uops, 0 ≤ u.latency) :
    0 ≤ latencySum uops := by
  apply List.sum_nonneg
  grind

theorem latency_le_latencySum {uops : List Uop} (h : ∀ u ∈ uops, 0 ≤ u.latency) {u : Uop}
    (hu : u ∈ uops) : u.latency ≤ latencySum uops := by
  apply List.single_le_sum _ _ (List.mem_map_of_mem hu)
  grind

theorem criticalPathVec_bounds {uops : List Uop} (hlat : ∀ u ∈ uops, 0 ≤ u.latency)
    (hsum : latencySum uops < 2 ^ 31) (s : ℕ) :
    0 ≤ (criticalPathVec uops).getD s 0 ∧
      (criticalPathVec uops).getD s 0 ≤ latencySum uops := by
  induction uops using List.reverseRecOn generalizing s with
  | nil => simp [criticalPathVec, latencySum]
  | append_singleton us u ih =>
    rw [latencySum_append, latencySum_singleton] at hsum ⊢
    have hus : ∀ v ∈ us, 0 ≤ v.latency := fun v hv => hlat v (List.mem_append_left _ hv)
    have hu : 0 ≤ u.latency := hlat u (by simp)
    have ih := ih hus (by omega)
    have hbase : criticalBase (criticalPathVec us) u.srcUops ≤ latencySum us :=
      criticalBase_le_iff.mpr ⟨latencySum_nonneg hus, fun s _ => (ih s).2⟩
    have hpos := criticalBase_nonneg (criticalPathVec us) u.srcUops
    rw [criticalPathVec_append]
    unfold criticalStep
    rw [i32_eq (by omega) (by omega)]
    rcases lt_trichotomy s (criticalPathVec us).length with hs | hs | hs
    · rw [List.getD_append _ _ _ _ hs]
      have := ih s
      omega
    · grind
    grind

theorem criticalPathVec_getD {uops : List Uop} (hord : InOrder uops)
    (hlat : ∀ u ∈ uops, 0 ≤ u.latency) (hsum : latencySum uops < 2 ^ 31) {i : ℕ} {u : Uop}
    (hi : uops[i]? = some u) :
    (criticalPathVec uops).getD i 0 =
      criticalBase (criticalPathVec uops) u.srcUops + u.latency := by
  induction uops using List.reverseRecOn generalizing i u with
  | nil => cases hi
  | append_singleton us v ih =>
    rw [latencySum_append, latencySum_singleton] at hsum
    have hus : ∀ w ∈ us, 0 ≤ w.latency := fun w hw => hlat w (List.mem_append_left _ hw)
    have hv : 0 ≤ v.latency := hlat v (by simp)
    have hlen := length_criticalPathVec us
    -- the sources are in the part before, which the last step leaves as it is
    have hbase : ∀ w ∈ (us ++ [v])[i]?, criticalBase (criticalPathVec (us ++ [v])) w.srcUops =
        criticalBase (criticalPathVec us) w.srcUops := by
      intro w hw
      unfold criticalBase
      apply List.foldl_ext
      intro b s hs
      have hlt : s < i := hord i w hw s hs
      have hi' : i < us.length + 1 := by grind
      rw [criticalPathVec_append, criticalStep, List.getD_append _ _ _ _ (by omega)]
    rw [hbase u hi]
    rw [criticalPathVec_append]
    unfold criticalStep
    rcases Nat.lt_or_ge i us.length with hlt | hge
    · rw [List.getElem?_append_left hlt] at hi
      rw [List.getD_append _ _ _ _ (by omega)]
      refine ih (fun j w hw s hs => ?_) hus (by omega) hi
      have hj := (List.getElem?_eq_some_iff.mp hw).1
      exact hord j w (by grind) s hs
    · have hi0 : i = us.length := by grind
      rw [hi0, List.getElem?_concat_length] at hi
      obtain rfl := Option.some.inj hi
      have hb : criticalBase (criticalPathVec us) v.srcUops ≤ latencySum us :=
        criticalBase_le_iff.mpr ⟨latencySum_nonneg hus,
          fun s _ => (criticalPathVec_bounds hus (by omega) s).2⟩
      have hpos := criticalBase_nonneg (criticalPathVec us) v.srcUops
      rw [List.getD_append_right _ _ _ _ (by omega), hlen, hi0, Nat.sub_self]
      exact i32_eq (by omega) (by omega)

/-! The stream of several iterations with the carried edges wired, and the recurrence bound that is
read off its longest paths (`engine.lls`). -/

/-- The uop of iteration `t` at position `i` of the body. -/
def replica (n : ℕ) (edges : List Carried) (t i : ℕ) (u : Uop) : Uop :=
  { u with srcUops := u.srcUops.map (· + t * n) ++
      if t > 0 then (edges.filter fun c => c.reader = i).map fun c => c.writer + t * n - n else [] }

def replicateCarried (uops : List Uop) (edges : List Carried) (iters : ℕ) : List Uop :=
  (List.range iters).flatMap fun t =>
    uops.zipIdx.map fun ui => replica uops.length edges t ui.2 ui.1

def settledDelay (cp : List Int) (n K : ℕ) (c : Carried) : Int :=
  i32 (cp.getD (c.writer + (K - 1) * n) 0 - cp.getD (c.writer + (K - 2) * n) 0)

def recMiiX (uops : List Uop) (edges : List Carried) : Int :=
  if edges.isEmpty then 0 else
    let cp := criticalPathVec (replicateCarried uops edges 6)
    i32 (edges.foldl (fun best c =>
      if settledDelay cp uops.length 6 c > best then settledDelay cp uops.length 6 c else best) 0 *
      scale)

/-- Positions of a body, in order, and edges between them. -/
structure Body (uops : List Uop) (edges : List Carried) : Prop where
  inOrder : InOrder uops
  latency : ∀ u ∈ uops, 0 ≤ u.latency
  edge : ∀ c ∈ edges, c.reader < uops.length ∧ c.writer < uops.length

variable {uops : List Uop} {edges : List Carried}

theorem length_replicateCarried (uops : List Uop) (edges : List Carried) (iters : ℕ) :
    (replicateCarried uops edges iters).length = iters * uops.length := by
  unfold replicateCarried
  rw [List.length_flatMap]
  simp

theorem replicateCarried_succ (uops : List Uop) (edges : List Carried) (iters : ℕ) :
    replicateCarried uops edges (iters + 1) = replicateCarried uops edges iters ++
      uops.zipIdx.map fun ui => replica uops.length edges iters ui.2 ui.1 := by
  unfold replicateCarried
  rw [List.range_succ, List.flatMap_append]
  simp

theorem getElem?_replicateCarried {iters t k : ℕ} {u : Uop} (ht : t < iters)
    (hu : uops[k]? = some u) :
    (replicateCarried uops edges iters)[k + t * uops.length]? =
      some (replica uops.length edges t k u) := by
  have hk : k < uops.length := (List.getElem?_eq_some_iff.mp hu).1
  induction iters with
  | zero => omega
  | succ iters ih =>
    rw [replicateCarried_succ]
    have hlen := length_replicateCarried uops edges iters
    rcases Nat.lt_succ_iff_lt_or_eq.mp ht with hlt | rfl
    · grind
    · grind

theorem exists_position {iters i : ℕ} {v : Uop}
    (hv : (replicateCarried uops edges iters)[i]? = some v) :
    ∃ t < iters, ∃ k u, uops[k]? = some u ∧ i = k + t * uops.length ∧
      v = replica uops.length edges t k u := by
  have hi := (List.getElem?_eq_some_iff.mp hv).1
  rw [length_replicateCarried] at hi
  have hn : 0 < uops.length := Nat.pos_of_ne_zero fun h => by simp [h] at hi
  have ht : i / uops.length < iters := Nat.div_lt_of_lt_mul (by rwa [mul_comm])
  have hk : i % uops.length < uops.length := Nat.mod_lt _ hn
  have hu := List.getElem?_eq_getElem hk
  have hpos : i = i % uops.length + i / uops.length * uops.length := by
    rw [mul_comm]
    exact (Nat.mod_add_div i uops.length).symm
  refine ⟨_, ht, _, _, hu, hpos, ?_⟩
  grind [Option.some.inj, getElem?_replicateCarried]

theorem mem_srcUops_replica {n t k s : ℕ} {u : Uop} :
    s ∈ (replica n edges t k u).srcUops ↔ (∃ r ∈ u.srcUops, s = r + t * n) ∨
      0 < t ∧ ∃ w, ⟨k, w⟩ ∈ edges ∧ s = w + t * n - n := by
  unfold replica
  rw [List.mem_append, List.mem_map]
  refine or_congr ⟨?_, ?_⟩ ?_
  · grind
  · grind
  · split_ifs with ht
    · rw [List.mem_map]
      constructor
      · rintro ⟨⟨r, w⟩, hc, rfl⟩
        grind
      · rintro ⟨-, w, hc, rfl⟩
        exact ⟨⟨k, w⟩, List.mem_filter.mpr ⟨hc, decide_eq_true rfl⟩, rfl⟩
    · simp [ht]

theorem Body.inOrder_replicateCarried (h : Body uops edges) (iters : ℕ) :
    InOrder (replicateCarried uops edges iters) := by
  intro i v hv s hs
  obtain ⟨t, -, k, u, hu, rfl, rfl⟩ := exists_position hv
  rcases mem_srcUops_replica.mp hs with ⟨r, hr, rfl⟩ | ⟨ht, w, hw, rfl⟩
  · have := h.inOrder k u hu r hr
    omega
  · have hwn := (h.edge _ hw).2
    have : uops.length ≤ t * uops.length := Nat.le_mul_of_pos_left _ ht
    dsimp only at hwn
    omega

theorem Body.latency_replicateCarried (h : Body uops edges) (iters : ℕ) :
    ∀ v ∈ replicateCarried uops edges iters, 0 ≤ v.latency := by
  intro v hv
  obtain ⟨i, hi, rfl⟩ := List.mem_iff_getElem.mp hv
  obtain ⟨t, -, k, u, hu, -, heq⟩ := exists_position (List.getElem?_eq_getElem hi)
  rw [heq]
  exact h.latency u (List.mem_of_getElem? hu)

theorem latencySum_replicateCarried (uops : List Uop) (edges : List Carried) (iters : ℕ) :
    latencySum (replicateCarried uops edges iters) = iters * latencySum uops := by
  induction iters with
  | zero => simp [replicateCarried, latencySum]
  | succ iters ih =>
    have hone : latencySum (uops.zipIdx.map fun ui => replica uops.length edges iters ui.2 ui.1) =
        latencySum uops := by
      unfold latencySum
      rw [List.map_map]
      conv_rhs => rw [← List.zipIdx_map_fst 0 uops, List.map_map]
      rfl
    rw [replicateCarried_succ, latencySum_append, ih, hone]
    push_cast
    ring

def longest (uops : List Uop) (edges : List Carried) (iters t k : ℕ) : Int :=
  (criticalPathVec (replicateCarried uops edges iters)).getD (k + t * uops.length) 0

theorem Body.longest_eq (h : Body uops edges) {iters t k : ℕ}
    (hsum : iters * latencySum uops < 2 ^ 31) {u : Uop} (ht : t < iters)
    (hu : uops[k]? = some u) :
    longest uops edges iters t k =
      criticalBase (criticalPathVec (replicateCarried uops edges iters))
        (replica uops.length edges t k u).srcUops + u.latency :=
  criticalPathVec_getD (h.inOrder_replicateCarried iters) (h.latency_replicateCarried iters)
    (by rwa [latencySum_replicateCarried]) (getElem?_replicateCarried ht hu)

theorem position_before {n t w : ℕ} (ht : 0 < t) : w + t * n - n = w + (t - 1) * n := by
  obtain ⟨t, rfl⟩ := Nat.exists_eq_succ_of_ne_zero ht.ne'
  grind

theorem Body.longest_ge (h : Body uops edges) {iters t k : ℕ}
    (hsum : iters * latencySum uops < 2 ^ 31) {u : Uop} (ht : t < iters)
    (hu : uops[k]? = some u) :
    u.latency ≤ longest uops edges iters t k ∧
    (∀ s ∈ u.srcUops, longest uops edges iters t s + u.latency ≤ longest uops edges iters t k) ∧
    (0 < t → ∀ w, ⟨k, w⟩ ∈ edges →
      longest uops edges iters (t - 1) w + u.latency ≤ longest uops edges iters t k) := by
  rw [h.longest_eq hsum ht hu]
  have hbase := criticalBase_le_iff.mp (le_refl (criticalBase
    (criticalPathVec (replicateCarried uops edges iters))
    (replica uops.length edges t k u).srcUops))
  refine ⟨by omega, fun s hs => ?_, fun hpos w hw => ?_⟩
  · exact Int.add_le_add_right (hbase.2 _ (mem_srcUops_replica.mpr (Or.inl ⟨s, hs, rfl⟩))) _
  · have := hbase.2 _ (mem_srcUops_replica.mpr (Or.inr ⟨hpos, w, hw, rfl⟩))
    rw [position_before hpos] at this
    exact Int.add_le_add_right this _

theorem Body.longest_cases (h : Body uops edges) {iters t k : ℕ}
    (hsum : iters * latencySum uops < 2 ^ 31) {u : Uop} (ht : t < iters)
    (hu : uops[k]? = some u) :
    longest uops edges iters t k = u.latency ∨
    (∃ s ∈ u.srcUops, longest uops edges iters t k = longest uops edges iters t s + u.latency) ∨
    0 < t ∧ ∃ w, ⟨k, w⟩ ∈ edges ∧
      longest uops edges iters t k = longest uops edges iters (t - 1) w + u.latency := by
  rw [h.longest_eq hsum ht hu]
  unfold criticalBase
  rcases foldl_max_cases (fun s => (criticalPathVec (replicateCarried uops edges iters)).getD s 0)
    (replica uops.length edges t k u).srcUops 0 with heq | ⟨s, hs, heq⟩
  · grind
  · rw [heq]
    rcases mem_srcUops_replica.mp hs with ⟨r, hr, rfl⟩ | ⟨hpos, w, hw, rfl⟩
    · exact Or.inr (Or.inl ⟨r, hr, rfl⟩)
    · rw [position_before hpos]
      exact Or.inr (Or.inr ⟨hpos, w, hw, rfl⟩)

end LsLang.Sim
