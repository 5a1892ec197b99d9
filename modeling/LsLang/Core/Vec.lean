import LsLang.Core.Growth
import LsLang.Lib.Cells
import Mathlib.Data.List.Induction

/-! `Vec(T)` of `vec.lls`: a buffer of `cap` cells, of which the first `len` hold the elements. The functions keep a
record of the clones that they make and of the elements that they destroy. -/

namespace LsLang.Core

open LsLang.Lib LsLang.Undefined

structure Vec (α : Type) where
  data : Cells α
  len : ℕ
  cap : ℕ
  /-- every clone, the last one first -/
  cloned : List α
  /-- every element destroyed, the last one first -/
  gone : List α

namespace Vec

variable {α : Type} (clone : ℕ → α → α) (v : Vec α)

/-- `{}` -/
def empty : Vec α := ⟨[], 0, 0, [], []⟩

/-- `@take(self.data[i])` -/
def take (i : ℕ) : Res (α × Vec α) := do
  let (x, b) ← v.data.take i
  pure (x, { v with data := b })

/-- `self.data[i] = x` -/
def store (i : ℕ) (x : α) : Res (Vec α) := do
  let b ← v.data.store i x
  pure { v with data := b }

/-- `@dispose(self.data[i])` -/
def dispose (i : ℕ) : Res (Vec α) := do
  let (x, b) ← v.data.take i
  pure { v with data := b, gone := x :: v.gone }

/-- The end of a scope that still owns `x`. -/
def drop (x : α) : Vec α := { v with gone := x :: v.gone }

/-- `@dup(x)`, or a read that clones. What a clone is may depend on how many there have been. -/
def dup (x : α) : α × Vec α :=
  let y := clone v.cloned.length x
  (y, { v with cloned := y :: v.cloned })

/-- `T e = @take(self.data[i])  self.data[j] = e` -/
def move (i j : ℕ) : Res (Vec α) := do
  let (e, v) ← v.take i
  v.store j e

/-- `for i in [i, stop) { @dispose(self.data[i]) }` -/
def disposeFrom (i stop : ℕ) : Res (Vec α) := Res.forFrom (fun i v => v.dispose i) i (stop - i) v

def reserve (need : ℤ) : Res (Vec α) :=
  if need ≤ v.cap then .ok v
  else do
    let n ← Growth.doubled need 32 (if (v.cap : ℤ) < 4 then 4 else v.cap)
    -- `realloc` keeps the cells
    pure { v with data := v.data ++ Cells.vacant (n.toNat - v.cap), cap := n.toNat }

def push (x : α) : Res (Vec α) := do
  let v ← v.reserve (v.len + 1)
  let v ← v.store v.len x
  pure { v with len := v.len + 1 }

def insert (i : ℤ) (x : α) : Res (Vec α) :=
  if i < 0 ∨ (v.len : ℤ) < i then .fail
  else do
    let v ← v.reserve (v.len + 1)
    let v ← Res.forDown (fun j v => v.move j (j + 1)) i.toNat (v.len - i.toNat) v
    let v ← v.store i.toNat x
    pure { v with len := v.len + 1 }

def pop : Res (Option α × Vec α) :=
  if v.len = 0 then .ok (none, v)
  else do
    let v := { v with len := v.len - 1 }
    let (out, v) ← v.take v.len
    pure (some out, v)

def remove (i : ℤ) : Res (α × Vec α) :=
  if i < 0 ∨ (v.len : ℤ) ≤ i then .fail
  else do
    let (out, v) ← v.take i.toNat
    let v ← Res.forFrom (fun j v => v.move (j + 1) j) i.toNat (v.len - 1 - i.toNat) v
    pure (out, { v with len := v.len - 1 })

def truncate (n : ℤ) : Res (Vec α) :=
  if n < 0 then .fail
  else if v.len ≤ n then .ok v
  else do
    let v ← v.disposeFrom n.toNat v.len
    pure { v with len := n.toNat }

def clear : Res (Vec α) := do
  let v ← v.disposeFrom 0 v.len
  pure { v with len := 0 }

/-- `set!` -/
def setUnchecked (i : ℕ) (x : α) : Res (Vec α) := do
  let v ← v.dispose i
  v.store i x

def set (i : ℤ) (x : α) : Res (Vec α) :=
  if i < 0 ∨ (v.len : ℤ) ≤ i then .fail else v.setUnchecked i.toNat x

/-- The exchange of `swap` and `reverse`. -/
def exchange (i j : ℕ) : Res (Vec α) := do
  let (a, v) ← v.take i
  let (b, v) ← v.take j
  let v ← v.store i b
  v.store j a

def swap (i j : ℤ) : Res (Vec α) :=
  if i < 0 ∨ (v.len : ℤ) ≤ i ∨ j < 0 ∨ (v.len : ℤ) ≤ j then .fail
  else if i = j then .ok v
  else v.exchange i.toNat j.toNat

/-- The loop of `reverse`, from `i` up and from `j` down. -/
def reverseLoop : ℕ → Vec α × ℕ × ℕ → Res (Vec α × ℕ × ℕ) :=
  Res.whileLoop (fun s => decide (s.2.1 < s.2.2)) fun s => do
    let v ← s.1.exchange s.2.1 s.2.2
    pure (v, s.2.1 + 1, s.2.2 - 1)

def reverse : Res (Vec α) := do
  -- the last index of an empty one is -1, and 0 here: no turn for either
  let s ← reverseLoop (v.len + 1) (v, 0, v.len - 1)
  pure s.1

def pushLast : Res (Vec α) := do
  let x ← v.data.peek (v.len - 1)
  let (c, v) := v.dup clone x
  let v ← v.store v.len c
  pure { v with len := v.len + 1 }

def resize (n : ℤ) (fill : α) : Res (Vec α) :=
  if n < 0 then .fail
  else if n ≤ v.len then do
    let v ← v.disposeFrom n.toNat v.len
    pure (drop { v with len := n.toNat } fill)
  else do
    let v ← v.reserve n
    let v ← v.store v.len fill
    let v := { v with len := v.len + 1 }
    Res.forFrom (fun _ v => v.pushLast clone) v.len (n.toNat - v.len) v

/-- `if w != r { self.data[w] = @take(self.data[r]) }` -/
def moveDown (w r : ℕ) : Res (Vec α) := if w = r then .ok v else v.move r w

/-- One turn of `retain`, with the place of the next element kept. The predicate sees an element as the `r`-th. -/
def retainTurn (keep : ℕ → α → Bool) (r : ℕ) (s : Vec α × ℕ) : Res (Vec α × ℕ) := do
  let x ← s.1.data.peek r
  if keep r x then do
    let v ← s.1.moveDown s.2 r
    pure (v, s.2 + 1)
  else do
    let v ← s.1.dispose r
    pure (v, s.2)

def retain (keep : ℕ → α → Bool) : Res (Vec α) := do
  let s ← Res.forFrom (retainTurn keep) 0 v.len (v, 0)
  pure { s.1 with len := s.2 }

/-- One turn of `dedup`. -/
def dedupTurn (eq : α → α → Bool) (r : ℕ) (s : Vec α × ℕ) : Res (Vec α × ℕ) := do
  let x ← s.1.data.peek r
  let y ← s.1.data.peek (s.2 - 1)
  if eq x y then do
    let v ← s.1.dispose r
    pure (v, s.2)
  else do
    let v ← s.1.moveDown s.2 r
    pure (v, s.2 + 1)

def dedup (eq : α → α → Bool) : Res (Vec α) :=
  if v.len < 2 then .ok v
  else do
    let s ← Res.forFrom (dedupTurn eq) 1 (v.len - 1) (v, 1)
    pure { s.1 with len := s.2 }

/-- One turn of `fill`. -/
def fillTurn (x : α) (i : ℕ) (v : Vec α) : Res (Vec α) := do
  let v ← v.dispose i
  let (c, v) := v.dup clone x
  v.store i c

def fill (x : α) : Res (Vec α) := do
  let v ← Res.forFrom (fillTurn clone x) 0 v.len v
  pure (v.drop x)

def swapRemove (i : ℤ) : Res (α × Vec α) :=
  if i < 0 ∨ (v.len : ℤ) ≤ i then .fail
  else do
    let (out, v) ← v.take i.toNat
    let last := v.len - 1
    let v ← v.moveDown i.toNat last
    pure (out, { v with len := last })

/-- One turn of `extend`. -/
def extendTurn (src : Vec α) (i : ℕ) (v : Vec α) : Res (Vec α) := do
  let y ← src.data.peek i
  let (c, v) := v.dup clone y
  v.push c

def extend (src : Vec α) : Res (Vec α) := do
  let v ← v.reserve (v.len + src.len)
  Res.forFrom (extendTurn clone src) 0 src.len v

end Vec

/-! What each method of `Vec` does to the elements, the clones and the elements destroyed. -/

open LsLang.Lib LsLang.Lib.Cells LsLang.Undefined LsLang.Undefined.Res

/-- What a `Vec` stands for: its elements, and the record of the clones and of what was destroyed. -/
structure Stock (α : Type) where
  items : List α
  cloned : List α
  gone : List α

namespace Vec

variable {α : Type} {clone : ℕ → α → α} {v : Vec α} {s : Stock α} {p q m : Cells α} {x y : α} {i : ℕ}

/-- The first cells hold the elements, and the others are vacant. -/
structure Holds (v : Vec α) (s : Stock α) : Prop where
  data : v.data = full s.items ++ vacant (v.cap - s.items.length)
  len : v.len = s.items.length
  room : s.items.length ≤ v.cap
  cloned : v.cloned = s.cloned
  gone : v.gone = s.gone

/-! The steps, on a buffer in three parts. -/

theorem with_data {d : Cells α} (hd : v.data = d) : { v with data := d } = v := by
  cases v
  cases hd
  rfl

theorem take_at (hd : v.data = p ++ some x :: q) (hp : p.length = i) :
    v.take i = .ok (x, { v with data := p ++ none :: q }) := by
  unfold take
  rw [hd, Cells.take_at hp]
  rfl

theorem store_at (hd : v.data = p ++ none :: q) (hp : p.length = i) (x : α) :
    v.store i x = .ok { v with data := p ++ some x :: q } := by
  unfold store
  rw [hd, Cells.store_at hp]
  rfl

theorem dispose_at (hd : v.data = p ++ some x :: q) (hp : p.length = i) :
    v.dispose i = .ok { v with data := p ++ none :: q, gone := x :: v.gone } := by
  unfold dispose
  rw [hd, Cells.take_at hp]
  rfl

theorem move_up (hd : v.data = p ++ some x :: none :: q) (hp : p.length = i) :
    v.move i (i + 1) = .ok { v with data := p ++ none :: some x :: q } := by
  unfold move
  rw [take_at hd hp]
  refine (store_at (p := p ++ [none]) (List.append_cons p none _) ?_ x).trans ?_
  · grind
  grind

theorem move_down (hd : v.data = p ++ none :: (m ++ some x :: q)) (hp : p.length = i) :
    v.move (i + 1 + m.length) i = .ok { v with data := p ++ some x :: (m ++ none :: q) } := by
  unfold move
  have hd' : v.data = (p ++ none :: m) ++ some x :: q := by grind
  rw [take_at hd' (by grind)]
  refine (store_at (p := p) (q := m ++ none :: q) ?_ hp x).trans rfl
  grind

theorem exchange_eq {j : ℕ} (hi : v.data[i]? = some (some x)) (hj : v.data[j]? = some (some y)) (hij : i ≠ j) :
    v.exchange i j = .ok { v with data := (v.data.set i (some y)).set j (some x) } := by
  have hil := (List.getElem?_eq_some_iff.1 hi).1
  have hjl := (List.getElem?_eq_some_iff.1 hj).1
  unfold exchange take store
  rw [take_eq hi]
  simp only [ok_bind, pure_eq]
  rw [take_eq (x := y) (by grind)]
  simp only [ok_bind]
  rw [store_eq (by grind)]
  simp only [ok_bind]
  rw [store_eq (by grind), ok_bind,
    List.set_comm none (some y) hij.symm, List.set_set, List.set_set]

theorem disposeFrom_at {l : List α} (hd : v.data = p ++ (full l ++ q)) (hp : p.length = i) :
    v.disposeFrom i (i + l.length) =
      .ok { v with data := p ++ (vacant l.length ++ q), gone := l.reverse ++ v.gone } := by
  unfold disposeFrom
  rw [Nat.add_sub_cancel_left]
  induction l generalizing p i v with
  | nil => exact congrArg Res.ok (with_data hd).symm
  | cons x l ih =>
    have hd' : v.data = p ++ some x :: (full l ++ q) := hd
    rw [List.length_cons, forFrom_succ, dispose_at hd' hp, ok_bind,
      ih (p := p ++ [none]) (List.append_cons p none _) (by grind)]
    simp [vacant_succ]

theorem shiftUp_at {l : List α} (hd : v.data = p ++ (full l ++ none :: q)) (hp : p.length = i) :
    forDown (fun j v => v.move j (j + 1)) i l.length v = .ok { v with data := p ++ none :: (full l ++ q) } := by
  induction l using List.reverseRecOn generalizing v q with
  | nil => exact congrArg Res.ok (with_data hd).symm
  | append_singleton l x ih =>
    rw [List.length_append, List.length_singleton, forDown_succ,
      move_up (p := p ++ full l) (x := x) (q := q) (by rw [hd]; simp) (by simp [hp]), ok_bind]
    rw [ih (q := some x :: q) (by simp)]
    simp

theorem shiftDown_at {l : List α} (hd : v.data = p ++ none :: (full l ++ q)) (hp : p.length = i) :
    forFrom (fun j v => v.move (j + 1) j) i l.length v = .ok { v with data := p ++ (full l ++ none :: q) } := by
  induction l generalizing p i v with
  | nil => exact congrArg Res.ok (with_data hd).symm
  | cons x l ih =>
    rw [List.length_cons, forFrom_succ]
    have hmove := move_down (m := []) (x := x) (q := full l ++ q) hd hp
    rw [List.length_nil, Nat.add_zero] at hmove
    rw [hmove, ok_bind, ih (p := p ++ [some x]) (by simp) (by grind)]
    simp

/-! The methods. -/

theorem Holds.full_data (h : v.Holds s) (hlt : s.items.length < v.cap) :
    v.data = full s.items ++ none :: vacant (v.cap - (s.items.length + 1)) := by
  rw [h.data, ← vacant_succ]
  congr 2
  omega

theorem Holds.mk_of {l cl gn : List α} (n : ℕ) (hd : v.data = full l ++ vacant n) (hlen : v.len = l.length)
    (hcap : v.cap = l.length + n) (hcl : v.cloned = cl) (hgn : v.gone = gn) : v.Holds ⟨l, cl, gn⟩ := by
  refine ⟨?_, hlen, ?_, hcl, hgn⟩
  · grind
  grind

theorem empty_holds : (empty : Vec α).Holds ⟨[], [], []⟩ := ⟨rfl, rfl, Nat.le_refl 0, rfl, rfl⟩

theorem reserve_holds (h : v.Holds s) {need : ℤ} (hneed : need ≤ 2 ^ 30) :
    (v.reserve need).Yields fun w => w.Holds s ∧ need ≤ w.cap := by
  unfold reserve
  split
  · next hle => exact yields_ok.2 ⟨h, hle⟩
  · next hgt =>
    have hstart : 0 < (if (v.cap : ℤ) < 4 then 4 else (v.cap : ℤ)) := by split <;> omega
    have hlt : (if (v.cap : ℤ) < 4 then 4 else (v.cap : ℤ)) < 2 ^ 31 := by split <;> omega
    obtain ⟨j, hj, hj'⟩ := Growth.exists_doubling hstart hlt hneed
    refine (Growth.doubled_yields hstart hj hj' (Growth.doublings_lt hstart hj')).bind ?_
    rintro n ⟨hn, hpos, -⟩
    have hroom := h.room
    refine yields_pure.2 ⟨⟨?_, h.len, ?_, h.cloned, h.gone⟩, ?_⟩
    · show v.data ++ vacant (n.toNat - v.cap) = full s.items ++ vacant (n.toNat - s.items.length)
      rw [h.data, List.append_assoc, ← vacant_add]
      congr 2
      omega
    · grind
    grind

theorem append_holds (h : v.Holds s) (hlt : s.items.length < v.cap) (x : α) :
    ∃ w, v.store v.len x = .ok w ∧ w.cap = v.cap ∧
      Holds { w with len := w.len + 1 } { s with items := s.items ++ [x] } := by
  refine ⟨_, store_at (h.full_data hlt) (by rw [length_full, h.len]) x, rfl, ?_, ?_, ?_, h.cloned, h.gone⟩
  · show full s.items ++ some x :: vacant _ = full (s.items ++ [x]) ++ vacant (v.cap - (s.items ++ [x]).length)
    simp
  · show v.len + 1 = (s.items ++ [x]).length
    rw [h.len, List.length_append]
    rfl
  grind

theorem push_holds (h : v.Holds s) (hn : s.items.length + 1 ≤ 2 ^ 30) (x : α) :
    (v.push x).Yields (·.Holds { s with items := s.items ++ [x] }) := by
  have hlen := h.len
  unfold push
  refine (reserve_holds h (by omega)).bind ?_
  rintro w ⟨hw, hroom⟩
  obtain ⟨u, hu, -, hu'⟩ := append_holds hw (by omega) x
  rw [hu, ok_bind]
  exact yields_pure.2 hu'

theorem exists_split {l : List α} (h : i < l.length) : ∃ l₁ x l₂, l = l₁ ++ x :: l₂ ∧ l₁.length = i :=
  ⟨l.take i, l[i], l.drop (i + 1), by rw [List.getElem_cons_drop, List.take_append_drop],
    List.length_take_of_le (Nat.le_of_lt h)⟩

theorem insert_holds (h : v.Holds s) (hn : s.items.length + 1 ≤ 2 ^ 30) (hi : i ≤ s.items.length) (x : α) :
    (v.insert i x).Yields (·.Holds { s with items := s.items.take i ++ x :: s.items.drop i }) := by
  have hlen := h.len
  unfold insert
  rw [if_neg (by omega)]
  refine (reserve_holds h (by omega)).bind ?_
  rintro w ⟨hw, hroom⟩
  have hsplit : s.items.take i ++ s.items.drop i = s.items := List.take_append_drop i s.items
  have htake : (s.items.take i).length = i := List.length_take_of_le hi
  have hd : w.data = full (s.items.take i) ++ (full (s.items.drop i) ++ none :: vacant (w.cap - (s.items.length + 1))) := by
    rw [hw.full_data (by omega), ← List.append_assoc, ← full_append, hsplit]
  have hcount : w.len - (i : ℤ).toNat = (s.items.drop i).length := by
    rw [List.length_drop, hw.len]
    rfl
  rw [hcount, Int.toNat_natCast, shiftUp_at hd (by rw [length_full, htake]), ok_bind,
    store_at (p := full (s.items.take i)) rfl (by rw [length_full, htake]), ok_bind]
  refine yields_pure.2 (.mk_of (w.cap - (s.items.length + 1)) ?_ ?_ ?_ hw.cloned hw.gone)
  · simp
  · show w.len + 1 = _
    rw [hw.len, List.length_append, List.length_cons, htake, List.length_drop]
    omega
  grind

theorem pop_holds (h : v.Holds s) :
    v.pop.Yields fun r => r.1 = s.items.getLast? ∧ r.2.Holds { s with items := s.items.dropLast } := by
  have hlen := h.len
  have hroom := h.room
  have hdata := h.data
  unfold pop
  split
  · next hz =>
    have hnil : s.items = [] := List.length_eq_zero_iff.1 (hlen.symm.trans hz)
    refine yields_ok.2 ⟨by rw [hnil]; rfl, ?_⟩
    rw [hnil, List.dropLast_nil, ← hnil]
    exact h
  · next hz =>
    obtain ⟨l, x, hl⟩ := (List.eq_nil_or_concat s.items).resolve_left fun hnil => hz (by rw [hlen, hnil]; rfl)
    rw [List.concat_eq_append] at hl
    rw [hl, List.length_append, List.length_singleton] at hlen hroom hdata
    have hd : v.data = full l ++ some x :: vacant (v.cap - (l.length + 1)) := by simp [hdata]
    dsimp only
    rw [take_at (v := { v with len := v.len - 1 }) hd (by rw [length_full]; show _ = v.len - 1; omega), ok_bind]
    refine yields_pure.2 ⟨by grind, ?_⟩
    rw [hl, List.dropLast_concat]
    refine .mk_of (v.cap - (l.length + 1) + 1) ?_ ?_ ?_ h.cloned h.gone
    · rw [vacant_succ]
    · grind
    grind

theorem remove_holds (h : v.Holds s) (hi : i < s.items.length) :
    (v.remove i).Yields fun r => s.items[i]? = some r.1 ∧ r.2.Holds { s with items := s.items.eraseIdx i } := by
  have hlen := h.len
  have hroom := h.room
  have hdata := h.data
  obtain ⟨l₁, x, l₂, hl, hl₁⟩ := exists_split hi
  have hcount : l₁.length + (l₂.length + 1) = s.items.length := by grind
  unfold remove
  rw [if_neg (by omega), Int.toNat_natCast]
  rw [take_at (p := full l₁) (x := x) (q := full l₂ ++ vacant (v.cap - s.items.length)) (by simp [hdata, hl])
    (by rw [length_full, hl₁]), ok_bind]
  have hturns : v.len - 1 - i = l₂.length := by omega
  simp only [hturns]
  rw [shiftDown_at (p := full l₁) rfl (by rw [length_full, hl₁]), ok_bind]
  refine yields_pure.2 ⟨?_, ?_⟩
  · grind
  · have herase : s.items.eraseIdx i = l₁ ++ l₂ := by
      rw [hl, ← hl₁, List.eraseIdx_append_of_length_le (Nat.le_refl _), Nat.sub_self, List.eraseIdx_cons_zero]
    rw [herase]
    refine .mk_of (v.cap - s.items.length + 1) ?_ ?_ ?_ h.cloned h.gone
    · simp [vacant_succ]
    · grind
    grind

theorem disposeFrom_holds (h : v.Holds s) (hi : i ≤ s.items.length) :
    ∃ w, v.disposeFrom i v.len = .ok w ∧ w.cap = v.cap ∧
      Holds { w with len := i } ⟨s.items.take i, s.cloned, (s.items.drop i).reverse ++ s.gone⟩ := by
  have hroom := h.room
  have htake : (s.items.take i).length = i := List.length_take_of_le hi
  have hdrop : (s.items.drop i).length = s.items.length - i := List.length_drop
  have hstop : v.len = i + (s.items.drop i).length := by
    rw [h.len]
    omega
  have hd : v.data = full (s.items.take i) ++ (full (s.items.drop i) ++ vacant (v.cap - s.items.length)) := by
    rw [h.data, ← List.append_assoc, ← full_append, List.take_append_drop]
  rw [hstop]
  refine ⟨_, disposeFrom_at hd (by rw [length_full, htake]), rfl, ?_⟩
  refine .mk_of ((s.items.drop i).length + (v.cap - s.items.length)) ?_ htake.symm ?_ h.cloned ?_
  · rw [vacant_add]
  · grind
  · show (s.items.drop i).reverse ++ v.gone = _
    rw [h.gone]

theorem truncate_holds (h : v.Holds s) (n : ℕ) :
    (v.truncate n).Yields
      (·.Holds ⟨s.items.take n, s.cloned, (s.items.drop n).reverse ++ s.gone⟩) := by
  have hlen := h.len
  unfold truncate
  rw [if_neg (by omega)]
  split
  · next hle =>
    refine yields_ok.2 ?_
    rw [List.take_of_length_le (by omega), List.drop_of_length_le (by omega)]
    exact h
  · next hlt =>
    obtain ⟨w, hw, -, hholds⟩ := disposeFrom_holds h (i := n) (by omega)
    rw [Int.toNat_natCast, hw, ok_bind]
    exact yields_pure.2 hholds

theorem clear_holds (h : v.Holds s) : v.clear.Yields (·.Holds ⟨[], s.cloned, s.items.reverse ++ s.gone⟩) := by
  obtain ⟨w, hw, -, hholds⟩ := disposeFrom_holds h (Nat.zero_le _)
  unfold clear
  rw [hw, ok_bind]
  exact yields_pure.2 hholds

theorem set_holds (h : v.Holds s) (hi : i < s.items.length) (x : α) :
    ∃ y, s.items[i]? = some y ∧ (v.set i x).Yields (·.Holds ⟨s.items.set i x, s.cloned, y :: s.gone⟩) := by
  have hlen := h.len
  have hroom := h.room
  have hdata := h.data
  obtain ⟨l₁, y, l₂, hl, hl₁⟩ := exists_split hi
  have hy : s.items[i]? = some y := by grind
  have hp : (full l₁).length = i := by rw [length_full, hl₁]
  have hset : s.items.set i x = l₁ ++ x :: l₂ := by grind
  refine ⟨y, hy, ?_⟩
  unfold set setUnchecked
  rw [if_neg (by omega), Int.toNat_natCast]
  rw [dispose_at (p := full l₁) (x := y) (q := full l₂ ++ vacant (v.cap - s.items.length)) (by simp [hdata, hl]) hp,
    ok_bind, store_at rfl hp, hset]
  have hcount : (l₁ ++ x :: l₂).length = s.items.length := by grind
  refine yields_ok.2 (.mk_of (v.cap - s.items.length) (by simp) (hlen.trans hcount.symm) ?_ h.cloned ?_)
  · show v.cap = _
    omega
  · show y :: v.gone = _
    rw [h.gone]

/-! The capacity. -/

def Grown (v : Vec α) : Prop := v.cap = 0 ∨ ∃ k ≤ 30, v.cap = 2 ^ k

theorem Grown.cap_le (h : v.Grown) : v.cap ≤ 2 ^ 30 := by
  rcases h with h | ⟨k, hk, h⟩
  · omega
  · rw [h]
    exact Nat.pow_le_pow_right Nat.two_pos hk

theorem reserve_grown {w : Vec α} (h : v.Grown) {need : ℤ} (hr : v.reserve need = .ok w) : w.Grown ∧ need ≤ w.cap := by
  have hcap := h.cap_le
  unfold reserve at hr
  split at hr
  · grind
  · obtain ⟨n, hn, hw⟩ := bind_ok hr
    cases hw
    have hstart : ∃ k, (if (v.cap : ℤ) < 4 then 4 else (v.cap : ℤ)) = 2 ^ k := by
      split
      · exact ⟨2, rfl⟩
      · rcases h with h | ⟨k, -, h⟩
        · omega
        grind
    obtain ⟨k, hk⟩ := hstart
    obtain ⟨j, hj, hneed, hlt⟩ := Growth.doubled_ok hn (by split <;> omega)
    rw [hk, ← pow_add] at hj
    have hnat : n.toNat = 2 ^ (k + j) := by
      rw [hj]
      exact Int.toNat_natCast (2 ^ (k + j))
    refine ⟨.inr ⟨k + j, ?_, hnat⟩, ?_⟩
    · have hlt' : (2 : ℕ) ^ (k + j) < 2 ^ 31 := by rw [← hnat]; omega
      exact Nat.le_of_lt_succ ((Nat.pow_lt_pow_iff_right Nat.one_lt_two).1 hlt')
    grind

theorem take_cap {r : α × Vec α} (h : v.take i = .ok r) : r.2.cap = v.cap := by
  obtain ⟨q, -, hp⟩ := bind_ok h
  cases hp
  rfl

theorem store_cap {w : Vec α} (h : v.store i x = .ok w) : w.cap = v.cap := by
  obtain ⟨q, -, hp⟩ := bind_ok h
  cases hp
  rfl

theorem push_grown {w : Vec α} (h : v.Grown) (hs : v.Holds s) (hr : v.push x = .ok w) : w.Grown ∧ s.items.length + 1 ≤ 2 ^ 30 := by
  unfold push at hr
  obtain ⟨u, hu, hr⟩ := bind_ok hr
  obtain ⟨t, ht, hr⟩ := bind_ok hr
  obtain ⟨hgrown, hneed⟩ := reserve_grown h hu
  have hcap := hgrown.cap_le
  have hlen := hs.len
  cases hr
  refine ⟨?_, by omega⟩
  show t.cap = 0 ∨ ∃ k ≤ 30, t.cap = 2 ^ k
  rw [store_cap ht]
  exact hgrown

theorem exchange_cap {w : Vec α} {j : ℕ} (h : v.exchange i j = .ok w) : w.cap = v.cap := by
  unfold exchange at h
  obtain ⟨p, hp, h⟩ := bind_ok h
  obtain ⟨q, hq, h⟩ := bind_ok h
  obtain ⟨u, hu, h⟩ := bind_ok h
  rw [store_cap h, store_cap hu, take_cap hq, take_cap hp]

theorem swap_cap {w : Vec α} {i j : ℤ} (h : v.swap i j = .ok w) : w.cap = v.cap := by
  unfold swap at h
  grind [exchange_cap]

theorem pop_cap {r : Option α × Vec α} (h : v.pop = .ok r) : r.2.cap = v.cap := by
  unfold pop at h
  split at h
  · cases h
    rfl
  · obtain ⟨q, hq, h⟩ := bind_ok h
    cases h
    exact (take_cap hq).trans rfl

end Vec

end LsLang.Core
