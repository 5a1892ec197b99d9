import LsLang.Core.Vec
import LsLang.Lib.StableMerge

/-! `Vec.sort_by`: a bottom-up merge sort that moves the runs to a scratch buffer and back. -/

namespace LsLang.Core

open LsLang.Lib LsLang.Lib.Cells LsLang.Undefined LsLang.Undefined.Res

/-- An `int` that counts. -/
def counter (n : ℕ) : Res ℕ := if n < 2 ^ 31 then .ok n else .stuck

theorem counter_eq {n : ℕ} (h : n < 2 ^ 31) : counter n = .ok n := if_pos h

/-- What `sort_by` works on: the two buffers, the number of comparisons so far, and the cursors of a merge. -/
structure Sorting (α : Type) where
  data : Cells α
  buf : Cells α
  calls : ℕ
  i : ℕ
  j : ℕ
  k : ℕ

namespace Sorting

variable {α : Type}

/-- `buf[k] = @take(self.data[i])  i = i + 1  k = k + 1` -/
def takeLeft (s : Sorting α) : Res (Sorting α) := do
  let (x, d) ← s.data.take s.i
  let b ← s.buf.store s.k x
  pure { s with data := d, buf := b, i := s.i + 1, k := s.k + 1 }

/-- `buf[k] = @take(self.data[j])  j = j + 1  k = k + 1` -/
def takeRight (s : Sorting α) : Res (Sorting α) := do
  let (x, d) ← s.data.take s.j
  let b ← s.buf.store s.k x
  pure { s with data := d, buf := b, j := s.j + 1, k := s.k + 1 }

/-- A comparison of the heads, and the move of one of them. What `cmp` says may depend on how often it was asked. -/
def takeHead (cmp : ℕ → α → α → ℤ) (s : Sorting α) : Res (Sorting α) := do
  let x ← s.data.peek s.i
  let y ← s.data.peek s.j
  let t := { s with calls := s.calls + 1 }
  if cmp s.calls x y ≤ 0 then t.takeLeft else t.takeRight

def takeHeads (cmp : ℕ → α → α → ℤ) (mid hi : ℕ) : ℕ → Sorting α → Res (Sorting α) :=
  Res.whileLoop (fun s => decide (s.i < mid) && decide (s.j < hi)) (takeHead cmp)

def takeLefts (mid : ℕ) : ℕ → Sorting α → Res (Sorting α) := Res.whileLoop (fun s => decide (s.i < mid)) takeLeft

def takeRights (hi : ℕ) : ℕ → Sorting α → Res (Sorting α) := Res.whileLoop (fun s => decide (s.j < hi)) takeRight

def mergeRuns (cmp : ℕ → α → α → ℤ) (mid hi : ℕ) (s : Sorting α) : Res (Sorting α) := do
  let s ← takeHeads cmp mid hi (hi + 1) s
  let s ← takeLefts mid (mid + 1) s
  takeRights hi (hi + 1) s

/-- `self.data[t] = @take(buf[t])` -/
def putBack (t : ℕ) (s : Sorting α) : Res (Sorting α) := do
  let (x, b) ← s.buf.take t
  let d ← s.data.store t x
  pure { s with data := d, buf := b }

/-- The merge of the runs `[lo, mid)` and `[mid, hi)`. -/
def mergeBlock (cmp : ℕ → α → α → ℤ) (n width lo : ℕ) (s : Sorting α) : Res (Sorting α) := do
  let mid ← counter (lo + width)
  let hi ← counter (lo + width + width)
  let mid := if n < mid then n else mid
  let hi := if n < hi then n else hi
  let s ← mergeRuns cmp mid hi { s with i := lo, j := mid, k := lo }
  Res.forFrom putBack lo (hi - lo) s

/-- `while lo < n`, for one width. -/
def pass (cmp : ℕ → α → α → ℤ) (n width : ℕ) : ℕ → Sorting α × ℕ → Res (Sorting α × ℕ) :=
  Res.whileLoop (fun s => decide (s.2 < n)) fun s => do
    let t ← mergeBlock cmp n width s.2 s.1
    let lo ← counter (s.2 + width + width)
    pure (t, lo)

/-- `while width < n` -/
def passes (cmp : ℕ → α → α → ℤ) (n : ℕ) : ℕ → Sorting α × ℕ → Res (Sorting α × ℕ) :=
  Res.whileLoop (fun s => decide (s.2 < n)) fun s => do
    let t ← pass cmp n s.2 (n + 1) (s.1, 0)
    let width ← counter (s.2 + s.2)
    pure (t.1, width)

end Sorting

namespace Vec

variable {α : Type}

/-- `sort_by` up to the release of the scratch buffer. -/
def sorting (cmp : ℕ → α → α → ℤ) (v : Vec α) : Res (Sorting α) := do
  let s ← Sorting.passes cmp v.len (v.len + 1) (⟨v.data, vacant v.len, 0, 0, 0, 0⟩, 1)
  pure s.1

def sortBy (cmp : ℕ → α → α → ℤ) (v : Vec α) : Res (Vec α) :=
  if v.len < 2 then .ok v
  else do
    let s ← v.sorting cmp
    pure { v with data := s.data }

end Vec

namespace Sorting

variable {α : Type} {cmp : ℕ → α → α → ℤ} {s : Sorting α} {p q m pb qb : Cells α} {x y : α}

/-- `cmp` may put `x` before `y`. -/
def MayLead (cmp : ℕ → α → α → ℤ) (x y : α) : Prop := ∃ c, cmp c x y ≤ 0

/-- `cmp` may put `y` before `x`. -/
def MayFollow (cmp : ℕ → α → α → ℤ) (x y : α) : Prop := ∃ c, ¬ cmp c x y ≤ 0

theorem takeLeft_at (hd : s.data = p ++ some x :: q) (hi : p.length = s.i) (hb : s.buf = pb ++ none :: qb)
    (hk : pb.length = s.k) :
    s.takeLeft = .ok { s with
      data := p ++ none :: q, buf := pb ++ some x :: qb, i := s.i + 1, k := s.k + 1 } := by
  unfold takeLeft
  rw [hd, Cells.take_at hi, ok_bind, hb]
  dsimp only
  rw [Cells.store_at hk]
  rfl

theorem takeRight_at (hd : s.data = p ++ some x :: q) (hj : p.length = s.j) (hb : s.buf = pb ++ none :: qb)
    (hk : pb.length = s.k) :
    s.takeRight = .ok { s with
      data := p ++ none :: q, buf := pb ++ some x :: qb, j := s.j + 1, k := s.k + 1 } := by
  unfold takeRight
  rw [hd, Cells.take_at hj, ok_bind, hb]
  dsimp only
  rw [Cells.store_at hk]
  rfl

theorem takeLefts_at {xs : List α} {fuel mid : ℕ} (hd : s.data = p ++ (full xs ++ q)) (hi : p.length = s.i)
    (hb : s.buf = pb ++ (vacant xs.length ++ qb)) (hk : pb.length = s.k) (hmid : s.i + xs.length = mid)
    (hfuel : xs.length < fuel) :
    takeLefts mid fuel s = .ok { s with
      data := p ++ (vacant xs.length ++ q), buf := pb ++ (full xs ++ qb), i := mid, k := s.k + xs.length } := by
  induction xs generalizing s p pb fuel with
  | nil =>
    obtain ⟨data, buf, calls, i, j, k⟩ := s
    cases hd
    cases hb
    cases hmid
    exact whileLoop_stop hfuel (by simp)
  | cons x xs ih =>
    rw [List.length_cons] at hmid hfuel
    obtain ⟨f, hf, heq⟩ := whileLoop_step (fun s => decide (s.i < mid)) takeLeft hfuel
      (s := s) (by simp; omega)
    unfold takeLefts
    rw [heq, takeLeft_at hd hi hb hk, ok_bind]
    refine (ih (List.append_cons p _ _) ?_ (List.append_cons pb _ _) ?_ ?_ hf).trans ?_
    · grind
    · grind
    · grind
    · simp [vacant_succ, Nat.add_assoc, Nat.add_comm 1]

theorem takeRights_at {ys : List α} {fuel hi : ℕ} (hd : s.data = p ++ (full ys ++ q)) (hj : p.length = s.j)
    (hb : s.buf = pb ++ (vacant ys.length ++ qb)) (hk : pb.length = s.k) (hhi : s.j + ys.length = hi)
    (hfuel : ys.length < fuel) :
    takeRights hi fuel s = .ok { s with
      data := p ++ (vacant ys.length ++ q), buf := pb ++ (full ys ++ qb), j := hi, k := s.k + ys.length } := by
  induction ys generalizing s p pb fuel with
  | nil =>
    obtain ⟨data, buf, calls, i, j, k⟩ := s
    cases hd
    cases hb
    cases hhi
    exact whileLoop_stop hfuel (by simp)
  | cons y ys ih =>
    rw [List.length_cons] at hhi hfuel
    obtain ⟨f, hf, heq⟩ := whileLoop_step (fun s => decide (s.j < hi)) takeRight hfuel
      (s := s) (by simp; omega)
    unfold takeRights
    rw [heq, takeRight_at hd hj hb hk, ok_bind]
    refine (ih (List.append_cons p _ _) ?_ (List.append_cons pb _ _) ?_ ?_ hf).trans ?_
    · grind
    · grind
    · grind
    · simp [vacant_succ, Nat.add_assoc, Nat.add_comm 1]

theorem putBack_at {l : List α} {t : ℕ} (hd : s.data = p ++ (vacant l.length ++ q)) (hp : p.length = t)
    (hb : s.buf = pb ++ (full l ++ qb)) (hpb : pb.length = t) :
    forFrom putBack t l.length s = .ok { s with
      data := p ++ (full l ++ q), buf := pb ++ (vacant l.length ++ qb) } := by
  induction l generalizing s p pb t with
  | nil =>
    obtain ⟨data, buf, calls, i, j, k⟩ := s
    cases hd
    cases hb
    rfl
  | cons x l ih =>
    have hturn : putBack t s = .ok { s with
        data := p ++ some x :: (vacant l.length ++ q), buf := pb ++ none :: (full l ++ qb) } := by
      unfold putBack
      rw [hb, full_cons, List.cons_append, Cells.take_at hpb, ok_bind, hd, List.length_cons, vacant_succ]
      dsimp only
      rw [List.cons_append, Cells.store_at hp]
      rfl
    rw [List.length_cons, forFrom_succ, hturn, ok_bind]
    refine (ih (List.append_cons p _ _) ?_ (List.append_cons pb _ _) ?_).trans ?_
    · grind
    · grind
    · simp [vacant_succ]

/-- Where a merge stands: what is left of both runs in the buffer, and as much room in the scratch buffer. -/
structure Merging (s : Sorting α) (p m q pb qb : Cells α) (xs ys : List α) (mid hi : ℕ) : Prop where
  data : s.data = p ++ (full xs ++ (m ++ (full ys ++ q)))
  buf : s.buf = pb ++ (vacant (xs.length + ys.length) ++ qb)
  left : p.length = s.i
  leftEnd : s.i + xs.length = mid
  right : mid + m.length = s.j
  rightEnd : s.j + ys.length = hi
  room : pb.length = s.k

structure Merged (t : Sorting α) (p m q pb qb : Cells α) (xs ys zs : List α) : Prop where
  data : t.data = p ++ (vacant xs.length ++ (m ++ (vacant ys.length ++ q)))
  buf : t.buf = pb ++ (full zs ++ qb)

theorem Merging.takeLeft {xs ys : List α} {mid hi : ℕ} (h : s.Merging p m q pb qb (x :: xs) ys mid hi) :
    ∃ t, s.takeLeft = .ok t ∧ t.Merging (p ++ [none]) m q (pb ++ [some x]) qb xs ys mid hi := by
  have hbuf := h.buf
  rw [List.length_cons, Nat.add_right_comm, vacant_succ] at hbuf
  have hmid := h.leftEnd
  rw [List.length_cons] at hmid
  refine ⟨_, takeLeft_at h.data h.left hbuf h.room, List.append_cons p _ _, List.append_cons pb _ _, ?_, ?_, h.right, h.rightEnd, ?_⟩
  · rw [List.length_append, h.left]
    rfl
  · grind
  · rw [List.length_append, h.room]
    rfl

theorem Merging.takeRight {xs ys : List α} {mid hi : ℕ} (h : s.Merging p m q pb qb xs (y :: ys) mid hi) :
    ∃ t, s.takeRight = .ok t ∧ t.Merging p (m ++ [none]) q (pb ++ [some y]) qb xs ys mid hi := by
  have hbuf := h.buf
  rw [List.length_cons, ← Nat.add_assoc, vacant_succ] at hbuf
  have hhi := h.rightEnd
  rw [List.length_cons] at hhi
  have hdata : s.data = (p ++ (full xs ++ m)) ++ some y :: (full ys ++ q) := by simp [h.data]
  have hj : (p ++ (full xs ++ m)).length = s.j := by
    rw [List.length_append, List.length_append, length_full, h.left, ← Nat.add_assoc, h.leftEnd, h.right]
  refine ⟨_, takeRight_at hdata hj hbuf h.room, ?_, List.append_cons pb _ _, h.left, h.leftEnd, ?_, ?_, ?_⟩
  · simp
  · rw [List.length_append, ← Nat.add_assoc, h.right]
    rfl
  · grind
  · rw [List.length_append, h.room]
    rfl

theorem Merging.calls {xs ys : List α} {mid hi : ℕ} (h : s.Merging p m q pb qb xs ys mid hi) (c : ℕ) :
    Merging { s with calls := c } p m q pb qb xs ys mid hi :=
  ⟨h.data, h.buf, h.left, h.leftEnd, h.right, h.rightEnd, h.room⟩

theorem Merging.tail {xs ys : List α} {mid hi : ℕ} (h : s.Merging p m q pb qb xs ys mid hi) (hend : xs = [] ∨ ys = []) :
    (takeLefts mid (mid + 1) s >>= takeRights hi (hi + 1)).Yields
      fun t => ∃ zs, Merge (MayLead cmp) (MayFollow cmp) xs ys zs ∧ t.Merged p m q pb qb xs ys zs := by
  have hmid := h.leftEnd
  have hhi := h.rightEnd
  have hsteps : (takeLefts mid (mid + 1) s >>= takeRights hi (hi + 1)) = .ok { s with
      data := p ++ (vacant xs.length ++ m) ++ (vacant ys.length ++ q)
      buf := pb ++ full xs ++ (full ys ++ qb)
      i := mid
      j := hi
      k := s.k + xs.length + ys.length } := by
    have hrights := @takeRights_at α { s with
        data := p ++ (vacant xs.length ++ (m ++ (full ys ++ q)))
        buf := pb ++ (full xs ++ (vacant ys.length ++ qb))
        i := mid
        k := s.k + xs.length } (p ++ (vacant xs.length ++ m)) q (pb ++ full xs) qb ys _ hi (by simp) (by simp [h.left, ← h.right, ← h.leftEnd, Nat.add_assoc]) (by simp) (by simp [h.room]) h.rightEnd
      (show ys.length < hi + 1 by omega)
    rw [@takeLefts_at α s p _ pb (vacant ys.length ++ qb) xs _ _ h.data h.left
      (by rw [h.buf, vacant_add, List.append_assoc]) h.room h.leftEnd (by omega), ok_bind]
    exact hrights
  rw [hsteps]
  refine yields_ok.2 ?_
  rcases hend with rfl | rfl
  · exact ⟨ys, .right ys, by simp, by simp⟩
  · exact ⟨xs, .left xs, by simp, by simp⟩

theorem Merging.head {xs ys : List α} {mid hi : ℕ} (h : s.Merging p m q pb qb (x :: xs) (y :: ys) mid hi) :
    s.takeHead cmp = if cmp s.calls x y ≤ 0 then Sorting.takeLeft { s with calls := s.calls + 1 }
      else Sorting.takeRight { s with calls := s.calls + 1 } := by
  have hx : s.data.peek s.i = .ok x := by
    rw [h.data]
    exact peek_at h.left
  have hy : s.data.peek s.j = .ok y := by
    have hdata : s.data = (p ++ (full (x :: xs) ++ m)) ++ some y :: (full ys ++ q) := by simp [h.data]
    rw [hdata]
    refine peek_at ?_
    rw [List.length_append, List.length_append, length_full, h.left, ← Nat.add_assoc, h.leftEnd, h.right]
  unfold takeHead
  rw [hx, ok_bind, hy, ok_bind]

variable (cmp) in
theorem Merging.runs {xs ys : List α} {mid hi : ℕ} (h : s.Merging p m q pb qb xs ys mid hi) {fuel : ℕ}
    (hfuel : xs.length + ys.length < fuel) :
    (takeHeads cmp mid hi fuel s >>= fun t => takeLefts mid (mid + 1) t >>= takeRights hi (hi + 1)).Yields
      fun t => ∃ zs, Merge (MayLead cmp) (MayFollow cmp) xs ys zs ∧ t.Merged p m q pb qb xs ys zs := by
  have hmid := h.leftEnd
  have hhi := h.rightEnd
  induction fuel generalizing s p m pb xs ys with
  | zero => grind
  | succ fuel ih =>
    cases xs with
    | nil =>
      have hstop : takeHeads cmp mid hi (fuel + 1) s = .ok s :=
        whileLoop_stop (Nat.succ_pos _) (by simp [← hmid])
      rw [hstop, ok_bind]
      exact h.tail (.inl rfl)
    | cons x xs =>
      cases ys with
      | nil =>
        have hstop : takeHeads cmp mid hi (fuel + 1) s = .ok s :=
          whileLoop_stop (Nat.succ_pos _) (by simp [← hhi])
        rw [hstop, ok_bind]
        exact h.tail (.inr rfl)
      | cons y ys =>
        rw [List.length_cons] at hmid hhi hfuel
        rw [List.length_cons] at hfuel
        have hmore : (decide (s.i < mid) && decide (s.j < hi)) = true := by
          rw [Bool.and_eq_true, decide_eq_true_eq, decide_eq_true_eq]
          omega
        have hturn : takeHeads cmp mid hi (fuel + 1) s = s.takeHead cmp >>= takeHeads cmp mid hi fuel := if_pos hmore
        rw [hturn, h.head]
        split
        · next hle =>
          obtain ⟨t, ht, hrest⟩ := (h.calls (s.calls + 1)).takeLeft
          rw [ht, ok_bind]
          refine (ih hrest (by grind) hrest.leftEnd hrest.rightEnd).mono ?_
          rintro u ⟨zs, hzs, hu⟩
          refine ⟨x :: zs, .first ⟨_, hle⟩ hzs, ?_, ?_⟩
          · simp [hu.data, vacant_succ]
          · simp [hu.buf]
        · next hgt =>
          obtain ⟨t, ht, hrest⟩ := (h.calls (s.calls + 1)).takeRight
          rw [ht, ok_bind]
          refine (ih hrest (by grind) hrest.leftEnd hrest.rightEnd).mono ?_
          rintro u ⟨zs, hzs, hu⟩
          refine ⟨y :: zs, .second ⟨_, hgt⟩ hzs, ?_, ?_⟩
          · simp [hu.data, vacant_succ]
          · simp [hu.buf]

variable (cmp) in
theorem mergeBlock_at {l xs ys : List α} {n w lo : ℕ} (hd : s.data = full l ++ (full xs ++ (full ys ++ q)))
    (hb : s.buf = vacant n) (hlo : l.length = lo) (hint : lo + w + w < 2 ^ 31)
    (hmid : (if n < lo + w then n else lo + w) = lo + xs.length)
    (hhi : (if n < lo + w + w then n else lo + w + w) = lo + xs.length + ys.length) :
    (mergeBlock cmp n w lo s).Yields fun t => ∃ zs, Merge (MayLead cmp) (MayFollow cmp) xs ys zs ∧
      t.data = full l ++ (full zs ++ q) ∧ t.buf = vacant n := by
  have hn : lo + xs.length + ys.length ≤ n := by grind
  have hbuf : s.buf = vacant lo ++ (vacant (xs.length + ys.length) ++ vacant (n - (lo + xs.length + ys.length))) := by
    rw [hb, ← vacant_add, ← vacant_add]
    congr 1
    omega
  have hmerging : Merging { s with i := lo, j := lo + xs.length, k := lo } (full l) [] q (vacant lo)
      (vacant (n - (lo + xs.length + ys.length))) xs ys (lo + xs.length) (lo + xs.length + ys.length) :=
    ⟨hd, hbuf, by rw [length_full, hlo], rfl, rfl, rfl, length_vacant lo⟩
  unfold mergeBlock
  rw [counter_eq (by omega), ok_bind, counter_eq hint, ok_bind]
  dsimp only
  rw [hmid, hhi]
  have hruns := hmerging.runs cmp (Nat.lt_succ_of_le (Nat.add_le_add_right (Nat.le_add_left xs.length lo) ys.length))
  refine hruns.bind ?_
  rintro t ⟨zs, hzs, hdata, hbuf'⟩
  have hcount : lo + xs.length + ys.length - lo = zs.length := by
    rw [hzs.perm.length_eq, List.length_append]
    omega
  have hsum : zs.length = xs.length + ys.length := by grind
  rw [hcount, putBack_at (p := full l) (q := q) ?_ (by rw [length_full, hlo]) hbuf' (length_vacant lo)]
  · grind [vacant_add, yields_ok]
  · rw [hdata, hsum, vacant_add, List.append_assoc]
    rfl

/-- Where a pass stands: in front of `lo` the runs of `w` are merged. -/
def Passed (cmp : ℕ → α → α → ℤ) (n w : ℕ) (m : List α) (q : Cells α) (s : Sorting α × ℕ) : Prop :=
  ∃ l l' rest, m = l ++ rest ∧ Pass (MayLead cmp) (MayFollow cmp) w l l' ∧ s.1.data = full l' ++ (full rest ++ q) ∧
    s.1.buf = vacant n ∧ 2 * w ∣ s.2 ∧ l.length = if n < s.2 then n else s.2

variable (cmp) in
theorem pass_at {m : List α} {n w : ℕ} (hm : m.length = n) (hd : s.data = full m ++ q) (hb : s.buf = vacant n)
    (hw : 0 < w) (hint : n + w + w < 2 ^ 31) :
    (pass cmp n w (n + 1) (s, 0)).Yields fun t => ∃ m', Pass (MayLead cmp) (MayFollow cmp) w m m' ∧
      t.1.data = full m' ++ q ∧ t.1.buf = vacant n := by
  have hstart : Passed cmp n w m q (s, 0) :=
    ⟨[], [], m, rfl, .start, hd, hb, Nat.dvd_zero _, (if_neg (Nat.not_lt_zero n)).symm⟩
  refine (whileLoop_yields (I := Passed cmp n w m q) (fun t => n - t.2) ?_ (by show n - 0 < n + 1; omega) hstart).mono ?_
  · rintro ⟨t, lo⟩ ⟨l, l', rest, rfl, hp, hdata, hbuf, hdvd, hlo⟩ hmore
    have hlt : lo < n := of_decide_eq_true hmore
    dsimp only at hdata hbuf hdvd hlo ⊢
    rw [if_neg (by omega)] at hlo
    rw [List.length_append] at hm
    have hsplit : rest = rest.take w ++ ((rest.drop w).take w ++ rest.drop (w + w)) := by
      rw [← List.drop_drop, List.take_append_drop, List.take_append_drop]
    have hx : (rest.take w).length = min w rest.length := List.length_take
    have hy : ((rest.drop w).take w).length = min w (rest.length - w) := by grind
    have hdata' : t.data = full l' ++ (full (rest.take w) ++ (full ((rest.drop w).take w) ++
        (full (rest.drop (w + w)) ++ q))) := by grind [full_append, List.append_assoc]
    have hblock := mergeBlock_at cmp (n := n) (w := w) hdata' hbuf (hp.length.trans hlo) (by omega)
      (by rw [hx]; split <;> omega) (by rw [hx, hy]; split <;> omega)
    refine hblock.bind ?_
    rintro u ⟨zs, hzs, hu, hubuf⟩
    rw [counter_eq (by omega), ok_bind]
    refine yields_pure.2 ⟨⟨l ++ (rest.take w ++ (rest.drop w).take w), l' ++ zs, rest.drop (w + w), ?_, ?_, ?_, hubuf,
      ?_, ?_⟩, ?_⟩
    · grind
    · refine hp.block (hlo ▸ hdvd) (by omega) (by omega) (fun hne => ?_) hzs
      grind
    · rw [hu, full_append, List.append_assoc]
    · show 2 * w ∣ lo + w + w
      rw [Nat.add_assoc, ← Nat.two_mul]
      exact Nat.dvd_add hdvd (Nat.dvd_refl _)
    · show _ = if n < lo + w + w then n else lo + w + w
      rw [List.length_append, List.length_append, hx, hy]
      split <;> omega
    · show n - (lo + w + w) < n - lo
      omega
  · rintro ⟨t, lo⟩ ⟨⟨l, l', rest, rfl, hp, hdata, hbuf, hdvd, hlo⟩, hend⟩
    have hge : ¬ lo < n := of_decide_eq_false hend
    dsimp only at hdata hbuf hdvd hlo
    rw [List.length_append] at hm
    have hnil : rest = [] := by
      refine List.length_eq_zero_iff.1 ?_
      split at hlo <;> omega
    subst hnil
    rw [List.append_nil]
    exact ⟨l', hp, hdata, hbuf⟩

/-- Where the sort stands: runs of `w`, a power of two, are sorted. -/
def Sorted (cmp : ℕ → α → α → ℤ) (n : ℕ) (m : List α) (q : Cells α) (s : Sorting α × ℕ) : Prop :=
  ∃ m', Passes (MayLead cmp) (MayFollow cmp) s.2 m m' ∧ s.1.data = full m' ++ q ∧ s.1.buf = vacant n ∧
    ∃ e, s.2 = 2 ^ e

theorem passes_at {m : List α} {n : ℕ} (hm : m.length = n) (hn : n < 2 ^ 30) (hd : s.data = full m ++ q)
    (hb : s.buf = vacant n) :
    (passes cmp n (n + 1) (s, 1)).Yields fun t => ∃ m', Passes (MayLead cmp) (MayFollow cmp) t.2 m m' ∧
      n ≤ t.2 ∧ t.1.data = full m' ++ q ∧ t.1.buf = vacant n := by
  have hstart : Sorted cmp n m q (s, 1) := ⟨m, .start m, hd, hb, 0, rfl⟩
  refine (whileLoop_yields (I := Sorted cmp n m q) (fun t => n - t.2) ?_ (by show n - 1 < n + 1; omega) hstart).mono ?_
  · rintro ⟨t, w⟩ ⟨m', hp, hdata, hbuf, e, he⟩ hmore
    have hlt : w < n := of_decide_eq_true hmore
    dsimp only at hp hdata hbuf he ⊢
    -- a power of two below 2^30 is at most 2^29
    have he' : e < 30 := (Nat.pow_lt_pow_iff_right Nat.one_lt_two).1 (he ▸ Nat.lt_trans hlt hn)
    have hw : w ≤ 2 ^ 29 := he ▸ Nat.pow_le_pow_right Nat.two_pos (Nat.le_of_lt_succ he')
    have hpos : 0 < w := hp.width_pos
    refine (pass_at cmp (hp.perm.length_eq.trans hm) hdata hbuf hpos (by omega)).bind ?_
    rintro u ⟨m'', hpass, hu, hubuf⟩
    rw [counter_eq (by omega), ok_bind]
    refine yields_pure.2 ⟨⟨m'', ?_, hu, hubuf, e + 1, ?_⟩, ?_⟩
    · rw [← Nat.two_mul]
      exact hp.pass hpass
    · grind
    grind
  · rintro ⟨t, w⟩ ⟨⟨m', hp, hdata, hbuf, -⟩, hend⟩
    grind

end Sorting

namespace Vec

variable {α : Type} {cmp : ℕ → α → α → ℤ} {v : Vec α} {s : Stock α}

theorem sorting_holds (h : v.Holds s) (hn : s.items.length < 2 ^ 30) :
    (v.sorting cmp).Yields fun t => t.buf = vacant v.len ∧ ∃ w l,
      Passes (Sorting.MayLead cmp) (Sorting.MayFollow cmp) w s.items l ∧ s.items.length ≤ w ∧
        Holds { v with data := t.data } { s with items := l } := by
  unfold sorting
  refine (Sorting.passes_at h.len.symm (h.len ▸ hn) h.data rfl).bind ?_
  rintro ⟨t, w⟩ ⟨l, hp, hw, hdata, hbuf⟩
  have hcount := hp.perm.length_eq
  refine yields_pure.2 ⟨hbuf, w, l, hp, h.len ▸ hw, .mk_of (v.cap - s.items.length) hdata (h.len.trans hcount.symm) ?_ h.cloned
    h.gone⟩
  show v.cap = _
  rw [hcount]
  exact (Nat.add_sub_cancel' h.room).symm

variable (cmp) in
theorem sortBy_holds (h : v.Holds s) (hn : s.items.length < 2 ^ 30) :
    (v.sortBy cmp).Yields fun u => ∃ w l, Passes (Sorting.MayLead cmp) (Sorting.MayFollow cmp) w s.items l ∧
      s.items.length ≤ w ∧ u.Holds { s with items := l } := by
  have hlen := h.len
  unfold sortBy
  split
  · exact yields_ok.2 ⟨1, s.items, .start _, by omega, h⟩
  · refine (sorting_holds h hn).bind ?_
    grind [yields_pure]

structure Compares (cmp : ℕ → α → α → ℤ) (le : α → α → Prop) : Prop where
  iff : ∀ c x y, cmp c x y ≤ 0 ↔ le x y
  total : ∀ x y, le x y ∨ le y x
  trans : ∀ {x y z}, le x y → le y z → le x z

theorem Compares.tells {le : α → α → Prop} (h : Compares cmp le) :
    Tells (Sorting.MayLead cmp) (Sorting.MayFollow cmp) le where
  le_of_first := fun ⟨c, hc⟩ => (h.iff c _ _).1 hc
  not_le_of_second := fun ⟨c, hc⟩ hle => hc ((h.iff c _ _).2 hle)
  total := h.total
  trans := h.trans

/-- `cmp` puts `y` neither behind nor in front of `x`. -/
def tied (cmp : ℕ → α → α → ℤ) (x y : α) : Bool := decide (cmp 0 x y ≤ 0) && decide (cmp 0 y x ≤ 0)

theorem Compares.of_tied {le : α → α → Prop} (h : Compares cmp le) {x y : α} (hxy : tied cmp x y = true) :
    le x y ∧ le y x := by
  obtain ⟨hx, hy⟩ := Bool.and_eq_true_iff.1 hxy
  exact ⟨(h.iff 0 x y).1 (of_decide_eq_true hx), (h.iff 0 y x).1 (of_decide_eq_true hy)⟩

/-- `k` has the elements of `l`, in ascending order, and those that are tied as they were in `l`. -/
structure StablySorted (cmp : ℕ → α → α → ℤ) (l k : List α) : Prop where
  perm : k.Perm l
  sorted : ∀ le, Compares cmp le → k.Pairwise le
  stable : ∀ le, Compares cmp le → ∀ x, k.filter (tied cmp x) = l.filter (tied cmp x)

theorem stablySorted {w : ℕ} {l k : List α} (h : Passes (Sorting.MayLead cmp) (Sorting.MayFollow cmp) w l k)
    (hw : l.length ≤ w) : StablySorted cmp l k where
  perm := h.perm
  sorted := fun _ hle => h.sorted hle.tells (h.perm.length_eq.symm ▸ hw)
  stable := fun _ hle _ =>
    h.filter hle.tells fun _ _ hy hz => hle.trans (hle.of_tied hy).2 (hle.of_tied hz).1

/-- `sort_by` is a stable sort, and with any `cmp` whatsoever it loses no element: each cell is written while it is
vacant and read while it is occupied, and nothing is left in the scratch buffer. -/
theorem sort_by_stable (cmp : ℕ → α → α → ℤ) (v : Vec α) (s : Stock α) (h : v.Holds s) (hn : s.items.length < 2 ^ 30) :
    (v.sortBy cmp).Yields (fun u => ∃ l, u.Holds { s with items := l } ∧ StablySorted cmp s.items l) ∧
      (v.sorting cmp).Yields fun t => t.buf = vacant v.len := by
  refine ⟨(sortBy_holds cmp h hn).mono ?_, (sorting_holds h hn).mono fun t ht => ht.1⟩
  rintro u ⟨w, l, hp, hw, hu⟩
  exact ⟨l, hu, stablySorted hp hw⟩

theorem sort_by_stable_three :
    (sortBy (fun _ x y => x - y) ⟨full [3, 1, 2] ++ vacant 1, 3, 4, [], []⟩ : Res (Vec ℤ)).Yields fun u =>
      ∃ l, u.Holds ⟨l, [], []⟩ ∧ StablySorted (fun _ x y => x - y) [3, 1, 2] l :=
  (sort_by_stable (fun _ x y => x - y) ⟨full [3, 1, 2] ++ vacant 1, 3, 4, [], []⟩ ⟨[3, 1, 2], [], []⟩
    ⟨rfl, rfl, by decide, rfl, rfl⟩ (by decide)).1

end Vec

end LsLang.Core
