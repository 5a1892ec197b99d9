import Mathlib
import LsLang.Core.Growth

/-! `parallel_for` of `std.sync.thread`: a range of indices cut into chunks, one for each worker. -/

namespace LsLang.Sync

open LsLang.Core LsLang.Undefined LsLang.Undefined.Res

/-- The indices from `lo` to `hi - 1`, which one worker runs. -/
structure Chunk where
  lo : ℤ
  hi : ℤ

def Chunk.indices (c : Chunk) : Set ℤ := Set.Ico c.lo c.hi

/-- `Task(int)` after `run`: the number of its thread. -/
structure Task where
  h : ℕ

/-- The threads that were started, by what they run, and the tasks that are kept to join them. -/
structure Fanout where
  threads : List Chunk
  tasks : List Task

/-- `t.run(..)` and `tasks.push(t)` -/
def Fanout.run (f : Fanout) (c : Chunk) : Fanout := ⟨f.threads ++ [c], f.tasks ++ [⟨f.threads.length⟩]⟩

/-- The turn of the worker `p`. -/
def spawn (start stop chunk : ℤ) (p : ℕ) (f : Fanout) : Res Fanout := do
  let off ← asInt (p * chunk)
  let lo ← asInt (start + off)
  let hi ← asInt (lo + chunk)
  let hi := if stop < hi then stop else hi
  -- nothing is left for this worker
  if hi ≤ lo then pure f else pure (f.run ⟨lo, hi⟩)

/-- `tasks.get!(k).join()` -/
def joinTask (tasks : List Task) (k : ℕ) (joined : List ℕ) : Res (List ℕ) :=
  match tasks[k]? with
  | some t => .ok (joined ++ [t.h])
  | none => .stuck

/-- What was run, and the threads that were joined, in their order. -/
structure Finished where
  threads : List Chunk
  joined : List ℕ

def parallelFor (start stop cpuCount : ℤ) : Res Finished := do
  let n ← asInt (stop - start)
  if n ≤ 0 then pure ⟨[], []⟩
  else do
    let pCount := if n < cpuCount then n else cpuCount
    let sum ← asInt (n + pCount)
    let sum ← asInt (sum - 1)
    let chunk := sum.tdiv pCount
    let f ← forFrom (spawn start stop chunk) 0 pCount.toNat ⟨[], []⟩
    let joined ← forFrom (joinTask f.tasks) 0 f.tasks.length []
    pure ⟨f.threads, joined⟩

/-- Every index is in the chunk of one thread, and every thread is joined once. -/
structure RunsOnce (start stop : ℤ) (r : Finished) : Prop where
  disjoint : r.threads.Pairwise fun c d => Disjoint c.indices d.indices
  cover : ∀ i, (∃ c ∈ r.threads, i ∈ c.indices) ↔ i ∈ Set.Ico start stop
  joined : r.joined.Perm (List.range r.threads.length)

/-- The workers that a range of `n` indices is cut for. -/
def workers (n cpuCount : ℤ) : ℤ := min cpuCount n

/-- The indices of one of `k` workers, `n / k` rounded up. -/
def share (n k : ℤ) : ℤ := (n + k - 1) / k

/-- The length of the range, its sum with the number of workers and the end of the last worker's chunk are each an
`int`. -/
def Fits (start n cpuCount : ℤ) : Prop :=
  -2 ^ 31 ≤ n ∧ (0 < n → n + workers n cpuCount < 2 ^ 31 ∧
    start + workers n cpuCount * share n (workers n cpuCount) < 2 ^ 31)

variable {start stop q : ℤ} {p : ℕ} {f g : Fanout}

/-- After the turns of `p` workers. -/
structure Cut (start stop q : ℤ) (p : ℕ) (f : Fanout) : Prop where
  bounds : ∀ c ∈ f.threads, start ≤ c.lo ∧ c.lo < c.hi ∧ c.hi ≤ stop ∧ c.hi ≤ start + p * q
  sorted : f.threads.Pairwise fun c d => c.hi ≤ d.lo
  cover : ∀ i, start ≤ i → i < stop → i < start + p * q → ∃ c ∈ f.threads, c.lo ≤ i ∧ i < c.hi
  tasks : f.tasks = (List.range f.threads.length).map Task.mk

theorem Cut.init : Cut start stop q 0 ⟨[], []⟩ :=
  ⟨fun _ h => absurd h List.not_mem_nil, .nil, fun i h0 _ h1 => by simp at h1; omega, rfl⟩

theorem next_end (start q : ℤ) (p : ℕ) : start + ((p + 1 : ℕ) : ℤ) * q = start + p * q + q := by
  grind

theorem Cut.skip (hq : 0 < q) (h : Cut start stop q p f) (hend : stop ≤ start + p * q) :
    Cut start stop q (p + 1) f := by
  have hnext := next_end start q p
  refine ⟨fun c hc => ?_, h.sorted, fun i h0 h1 _ => h.cover i h0 h1 (by omega), h.tasks⟩
  obtain ⟨h0, h1, h2, h3⟩ := h.bounds c hc
  grind

theorem Cut.run (hq : 0 < q) (h : Cut start stop q p f) {hi : ℤ} (hlo : start ≤ start + p * q)
    (hhi : hi = min stop (start + p * q + q)) (hsome : start + p * q < hi) :
    Cut start stop q (p + 1) (f.run ⟨start + p * q, hi⟩) := by
  have hnext := next_end start q p
  refine ⟨fun c hc => ?_, ?_, fun i h0 h1 h2 => ?_, ?_⟩
  · rcases List.mem_append.1 hc with hc | hc
    · obtain ⟨h0, h1, h2, h3⟩ := h.bounds c hc
      grind
    grind
  · refine List.pairwise_append.2 ⟨h.sorted, List.pairwise_singleton _ _, fun c hc d hd => ?_⟩
    rw [List.mem_singleton.1 hd]
    exact (h.bounds c hc).2.2.2
  · by_cases hold : i < start + p * q
    · obtain ⟨c, hc, hin⟩ := h.cover i h0 h1 hold
      exact ⟨c, List.mem_append_left _ hc, hin⟩
    · exact ⟨_, List.mem_append_right _ (List.mem_singleton_self _), by dsimp only; omega, by dsimp only; omega⟩
  · change f.tasks ++ [⟨f.threads.length⟩] = (List.range (f.threads ++ [_]).length).map Task.mk
    rw [h.tasks, List.length_append, List.length_singleton, List.range_succ, List.map_append]
    rfl

theorem spawn_cut (hq : 0 < q) (hstart : -2 ^ 31 ≤ start) (hsum : p * q < 2 ^ 31)
    (hend : start + p * q + q < 2 ^ 31) (h : Cut start stop q p f) :
    (spawn start stop q p f).Yields (Cut start stop q (p + 1)) := by
  have hoff : 0 ≤ p * q := mul_nonneg (Int.natCast_nonneg p) hq.le
  unfold spawn
  rw [asInt_eq (by omega) hsum, ok_bind, asInt_eq (by omega) (by omega), ok_bind, asInt_eq (by omega) hend, ok_bind]
  have hhi : (if stop < start + p * q + q then stop else start + p * q + q) = min stop (start + p * q + q) := by
    split <;> omega
  dsimp only
  rw [hhi]
  split
  · next hnone => exact yields_pure.2 (h.skip hq (by omega))
  · next hsome => exact yields_pure.2 (h.run hq (by omega) rfl (by omega))

theorem join_all (tasks : List Task) :
    (forFrom (joinTask tasks) 0 tasks.length []).Yields fun joined => joined = tasks.map Task.h := by
  have hloop := forFrom_yields (b := joinTask tasks) (I := fun k joined => joined = (tasks.take k).map Task.h)
    (i := 0) (n := tasks.length) (s := []) ?_ rfl
  · grind
  · rintro k joined - hk rfl
    rw [Nat.zero_add] at hk
    unfold joinTask
    rw [List.getElem?_eq_getElem hk]
    refine yields_ok.2 ?_
    rw [List.take_succ_eq_append_getElem hk, List.map_append]
    rfl

theorem Cut.runsOnce (h : Cut start stop q p f) (hall : stop ≤ start + p * q) {joined : List ℕ}
    (hjoined : joined = f.tasks.map Task.h) : RunsOnce start stop ⟨f.threads, joined⟩ := by
  refine ⟨?_, fun i => ?_, ?_⟩
  · refine h.sorted.imp fun {c d} hle => ?_
    refine Set.disjoint_left.2 fun i hc hd => ?_
    have h1 : i < c.hi := hc.2
    have h2 : d.lo ≤ i := hd.1
    omega
  · constructor
    · rintro ⟨c, hc, h0, h1⟩
      obtain ⟨hlo, -, hhi, -⟩ := h.bounds c hc
      grind
    · rintro ⟨h0, h1⟩
      exact h.cover i h0 h1 (by omega)
  · rw [hjoined, h.tasks, List.map_map]
    exact List.Perm.of_eq (List.map_id _)

theorem share_spec {n k : ℤ} (hk : 0 < k) (hn : 0 < n) :
    0 < share n k ∧ n ≤ k * share n k ∧ k * share n k < n + k := by
  have hdiv := Int.mul_ediv_add_emod (n + k - 1) k
  have hmod := Int.emod_lt_of_pos (n + k - 1) hk
  have hmod0 := Int.emod_nonneg (n + k - 1) hk.ne'
  have hpos : 1 ≤ share n k := (Int.le_ediv_iff_mul_le hk).2 (by omega)
  unfold share at hpos ⊢
  grind

theorem spawn_all {k : ℕ} (hq : 0 < q) (hstart : -2 ^ 31 ≤ start) (hall : k * q < 2 ^ 31)
    (hend : start + k * q < 2 ^ 31) : (forFrom (spawn start stop q) 0 k ⟨[], []⟩).Yields (Cut start stop q k) := by
  have hloop := forFrom_yields (b := spawn start stop q) (I := Cut start stop q) (i := 0) (n := k) ?_ Cut.init
  · rwa [Nat.zero_add] at hloop
  · intro p f _ hp hcut
    have hle : ((p + 1 : ℕ) : ℤ) * q ≤ k * q := mul_le_mul_of_nonneg_right (by exact_mod_cast by omega) hq.le
    grind [spawn_cut, next_end]

theorem last_end {k : ℕ} (hk : 0 < k) (h : forFrom (spawn start stop q) 0 k f = .ok g) : start + k * q < 2 ^ 31 := by
  obtain ⟨k, rfl⟩ := Nat.exists_eq_add_one.2 hk
  rw [forFrom_snoc, Nat.zero_add] at h
  obtain ⟨u, -, hlast⟩ := bind_ok h
  unfold spawn at hlast
  obtain ⟨off, hoff, hlast⟩ := bind_ok hlast
  obtain ⟨lo, hlo, hlast⟩ := bind_ok hlast
  obtain ⟨hi, hhi, -⟩ := bind_ok hlast
  grind [next_end, asInt_ok_iff]

/-- `parallel_for` runs every index once exactly if its sums do not overflow. -/
theorem parallelFor_runsOnce_iff (start stop cpuCount : Int32) (hcpus : 0 < cpuCount.toInt) :
    (parallelFor start.toInt stop.toInt cpuCount.toInt).Yields (RunsOnce start.toInt stop.toInt) ↔
      Fits start.toInt (stop.toInt - start.toInt) cpuCount.toInt := by
  have hstart := start.le_toInt
  have hcpus31 := cpuCount.toInt_lt
  generalize start.toInt = a at *
  generalize stop.toInt = b at *
  generalize cpuCount.toInt = c at *
  have hcount : (if b - a < c then b - a else c) = workers (b - a) c := by
    unfold workers
    split <;> omega
  have hk0 : 0 < b - a → 0 < workers (b - a) c := fun hpos => lt_min hcpus hpos
  have hkc : workers (b - a) c ≤ c := min_le_left _ _
  unfold parallelFor Fits
  generalize hk : workers (b - a) c = k at *
  constructor
  · rintro ⟨r, hr, -⟩
    obtain ⟨n, hn, hr⟩ := bind_ok hr
    obtain ⟨rfl, hlow, -⟩ := asInt_ok_iff.1 hn
    refine ⟨hlow, fun hpos => ?_⟩
    have hk1 := hk0 hpos
    rw [if_neg (by omega)] at hr
    dsimp only at hr
    rw [hcount] at hr
    obtain ⟨s, hs, hr⟩ := bind_ok hr
    obtain ⟨rfl, -, hsum⟩ := asInt_ok_iff.1 hs
    obtain ⟨t, ht, hr⟩ := bind_ok hr
    obtain ⟨rfl, -, -⟩ := asInt_ok_iff.1 ht
    obtain ⟨f, hf, -⟩ := bind_ok hr
    refine ⟨hsum, ?_⟩
    have hend := last_end (by omega) hf
    rwa [Int.toNat_of_nonneg hk1.le, Int.tdiv_eq_ediv_of_nonneg (by omega)] at hend
  · rintro ⟨hlow, hfits⟩
    by_cases hpos : 0 < b - a
    · obtain ⟨hsum, hend⟩ := hfits hpos
      have hk1 := hk0 hpos
      obtain ⟨hq, hreach, hover⟩ := share_spec hk1 hpos
      have hcast : (k.toNat : ℤ) = k := Int.toNat_of_nonneg hk1.le
      rw [asInt_eq hlow (by omega), ok_bind, if_neg (by omega)]
      dsimp only
      rw [hcount, asInt_eq (by omega) hsum, ok_bind, asInt_eq (by omega) (by omega), ok_bind,
        Int.tdiv_eq_ediv_of_nonneg (by omega)]
      refine (spawn_all hq hstart (by rw [hcast]; omega) (by rwa [hcast])).bind fun f hcut => ?_
      refine (join_all f.tasks).bind fun joined hjoined => yields_pure.2 ?_
      exact hcut.runsOnce (by rw [hcast]; omega) hjoined
    · rw [asInt_eq hlow (by omega), ok_bind, if_pos (by omega)]
      refine yields_pure.2 ⟨.nil, fun i => ?_, .refl _⟩
      refine iff_of_false (fun ⟨_, hc, _⟩ => absurd hc List.not_mem_nil) ?_
      rintro ⟨h0, h1⟩
      omega

/-- Ten indices on four processors. -/
theorem parallelFor_runsOnce_ten : (0 < (4 : Int32).toInt) ∧
    (parallelFor (0 : Int32).toInt (10 : Int32).toInt (4 : Int32).toInt).Yields
      (RunsOnce (0 : Int32).toInt (10 : Int32).toInt) :=
  ⟨by decide, (parallelFor_runsOnce_iff 0 10 4 (by decide)).2 ⟨by decide, fun _ => by decide⟩⟩

/-- The seven indices below the largest `int`: with four processors the chunk of the last worker would end behind it. -/
theorem parallelFor_overflows :
    ¬ ∀ start stop cpuCount : Int32, 0 < cpuCount.toInt →
      (parallelFor start.toInt stop.toInt cpuCount.toInt).Yields (RunsOnce start.toInt stop.toInt) := by
  intro h
  obtain ⟨r, hr, -⟩ := h 2147483640 2147483647 4 (by decide)
  have hstuck : parallelFor (2147483640 : Int32).toInt (2147483647 : Int32).toInt (4 : Int32).toInt = .stuck := rfl
  rw [hstuck] at hr
  cases hr

end LsLang.Sync
