import LsLang.Core.VecEdits
import LsLang.Core.VecSort
import LsLang.Lib.Exchange
import LsLang.Lib.Transition

/-! `BinaryHeap(T)` of `heap.lls`: a priority queue over a `Vec`. -/

namespace LsLang.Core

open LsLang.Lib LsLang.Lib.Cells LsLang.Undefined LsLang.Undefined.Res

structure BinaryHeap (α : Type) where
  data : Vec α

namespace BinaryHeap

variable {α : Type} (lt : α → α → Bool)

/-- `BinaryHeap(T) h = {}` -/
def empty : BinaryHeap α := ⟨.empty⟩

/-- The loop of `push`. -/
def siftUp : ℕ → Vec α → ℕ → Res (Vec α)
  | 0, _, _ => .stuck
  | fuel + 1, v, i =>
    if i = 0 then .ok v
    else do
      let parent := (i - 1) / 2
      let x ← v.data.peek parent
      let y ← v.data.peek i
      if lt x y then do
        let v ← v.swap parent i
        siftUp fuel v parent
      else .ok v

def push (h : BinaryHeap α) (x : α) : Res (BinaryHeap α) := do
  let v ← h.data.push x
  let v ← siftUp lt (v.len + 1) v (v.len - 1)
  pure ⟨v⟩

/-- `if c < sz { if self.data.data[largest] < self.data.data[c] { largest = c } }` -/
def larger (v : Vec α) (sz largest c : ℕ) : Res ℕ :=
  if c < sz then do
    let x ← v.data.peek largest
    let y ← v.data.peek c
    pure (if lt x y then c else largest)
  else .ok largest

/-- The loop of `pop`. -/
def siftDown (sz : ℕ) : ℕ → Vec α → ℕ → Res (Vec α)
  | 0, _, _ => .stuck
  | fuel + 1, v, i => do
    let l ← counter (2 * i + 1)
    let r ← counter (2 * i + 2)
    let largest ← larger lt v sz i l
    let largest ← larger lt v sz largest r
    if largest = i then .ok v
    else do
      let v ← v.swap i largest
      siftDown sz fuel v largest

def pop (h : BinaryHeap α) : Res (Option α × BinaryHeap α) :=
  let n := h.data.len
  if n = 0 then .ok (none, h)
  else do
    let v ← h.data.swap 0 ((n : ℤ) - 1)
    let (out, v) ← v.pop
    let v ← siftDown lt v.len (v.len + 1) v 0
    pure (out, ⟨v⟩)

/-- `BinaryHeap(T) h = [a, b, c]` -/
def fromList : List α → BinaryHeap α → Res (BinaryHeap α)
  | [], h => .ok h
  | x :: l, h => do
    let h ← h.push lt x
    fromList l h

variable {lt : α → α → Bool} {v : Vec α} {s : Stock α} {i : ℕ}

def Sifted (lt : α → α → Bool) (s : Stock α) (c : ℕ) (w : Vec α) : Prop :=
  ∃ l, w.Holds { s with items := l } ∧ HeapOrdered lt l ∧ l.Perm s.items ∧ w.cap = c

theorem peek_holds {x : α} (h : v.Holds s) (hx : s.items[i]? = some x) : v.data.peek i = .ok x := by
  have hi := (List.getElem?_eq_some_iff.1 hx).1
  refine peek_eq ?_
  rw [h.data, List.getElem?_append_left (by simpa using hi), get_full, hx]
  rfl

theorem siftUp_holds (hw : StrictWeak lt) (h : v.Holds s) (hi : i < s.items.length) (hu : UpTo lt s.items i) {fuel : ℕ}
    (hfuel : i < fuel) : (siftUp lt fuel v i).Yields (Sifted lt s v.cap) := by
  induction fuel generalizing v s i with
  | zero => grind
  | succ fuel ih =>
    unfold siftUp
    split
    · next h0 =>
      refine yields_ok.2 ⟨s.items, h, hu.done fun p hp => ?_, .refl _, rfl⟩
      have := parent_lt hp
      omega
    · next h0 =>
      have hchild := isChild_parent (Nat.pos_of_ne_zero h0)
      have hlt := parent_lt hchild
      have hx := List.getElem?_eq_getElem (Nat.lt_trans hlt hi)
      have hy := List.getElem?_eq_getElem hi
      dsimp only
      rw [peek_holds h hx, ok_bind, peek_holds h hy, ok_bind]
      split
      · next hless =>
        obtain ⟨w, hr, hholds⟩ := Vec.swap_holds h (Nat.lt_trans hlt hi) hi
        have hstep := hu.step hw hchild hx hy hless
        rw [hr, ok_bind]
        refine (ih hholds (by rw [length_swapped]; exact Nat.lt_trans hlt hi) hstep (by omega)).mono ?_
        rintro u ⟨l, hl, ho, hp, hc⟩
        exact ⟨l, hl, ho, hp.trans (swapped_perm (Nat.lt_trans hlt hi) hi), hc.trans (Vec.swap_cap hr)⟩
      · next hnot =>
        refine yields_ok.2 ⟨s.items, h, hu.done fun p hp => ?_, .refl _, rfl⟩
        obtain rfl := parent_unique hchild hp
        exact above_of hx hy (Bool.eq_false_iff.2 hnot)

variable (lt) in
theorem larger_holds {m c : ℕ} (h : v.Holds s) (hm : c < s.items.length → m < s.items.length) :
    ∃ k, larger lt v s.items.length m c = .ok k ∧ ((k = m ∧ Above lt s.items m c) ∨
      (k = c ∧ ∃ x y, s.items[m]? = some x ∧ s.items[c]? = some y ∧ lt x y = true)) := by
  unfold larger
  split
  · next hc =>
    have hx := List.getElem?_eq_getElem (hm hc)
    have hy := List.getElem?_eq_getElem hc
    rw [peek_holds h hx, ok_bind, peek_holds h hy, ok_bind]
    cases hlt : lt s.items[m] s.items[c] with
    | true => exact ⟨c, by rw [if_pos rfl]; rfl, .inr ⟨rfl, _, _, hx, hy, hlt⟩⟩
    | false => exact ⟨m, by rw [if_neg Bool.false_ne_true]; rfl, .inl ⟨rfl, above_of hx hy hlt⟩⟩
  · next hc =>
    refine ⟨m, rfl, .inl ⟨rfl, fun x y _ hy => ?_⟩⟩
    grind

/-- `k` is the child to exchange with `i`. -/
structure Rises (lt : α → α → Bool) (l : List α) (i k : ℕ) : Prop where
  child : IsChild k i
  less : ∃ x y, l[i]? = some x ∧ l[k]? = some y ∧ lt x y = true
  best : ∀ c, IsChild c i → c ≠ k → Above lt l k c

theorem largest_holds (hw : StrictWeak lt) (h : v.Holds s) (hi : i < s.items.length ∨ i = 0) :
    ∃ m k, larger lt v s.items.length i (2 * i + 1) = .ok m ∧ larger lt v s.items.length m (2 * i + 2) = .ok k ∧
      ((k = i ∧ ∀ c, IsChild c i → Above lt s.items i c) ∨ Rises lt s.items i k) := by
  obtain ⟨m, hm, hleft⟩ := larger_holds lt (m := i) (c := 2 * i + 1) h (by omega)
  obtain ⟨k, hk, hright⟩ := larger_holds lt (m := m) (c := 2 * i + 2) h (by grind)
  refine ⟨m, k, hm, hk, ?_⟩
  rcases hleft with ⟨rfl, hl⟩ | ⟨rfl, x, y, hx, hy, hxy⟩
  · rcases hright with ⟨rfl, hr⟩ | ⟨rfl, x, z, hx, hz, hxz⟩
    · exact .inl ⟨rfl, fun c hc => hc.elim (fun hc => hc ▸ hl) (fun hc => hc ▸ hr)⟩
    · refine .inr ⟨.inr rfl, ⟨x, z, hx, hz, hxz⟩, fun c hc hne => ?_⟩
      obtain rfl := hc.resolve_right hne
      intro z' y hz' hy
      rw [hz, Option.some.injEq] at hz'
      exact hz' ▸ hw.not_lt_of_lt hxz (hl x y hx hy)
  · rcases hright with ⟨rfl, hr⟩ | ⟨rfl, y', z, hy', hz, hyz⟩
    · refine .inr ⟨.inl rfl, ⟨x, y, hx, hy, hxy⟩, fun c hc hne => ?_⟩
      exact hc.resolve_left hne ▸ hr
    · rw [hy, Option.some.injEq] at hy'
      subst hy'
      refine .inr ⟨.inr rfl, ⟨x, z, hx, hz, hw.trans hxy hyz⟩, fun c hc hne => ?_⟩
      exact hc.resolve_right hne ▸ above_of hz hy (hw.asymm hyz)

theorem siftDown_holds (hw : StrictWeak lt) (h : v.Holds s) (hn : s.items.length < 2 ^ 30)
    (hi : i < s.items.length ∨ i = 0) (hd : DownFrom lt s.items i) {fuel : ℕ} (hfuel : s.items.length < i + fuel) :
    (siftDown lt s.items.length fuel v i).Yields (Sifted lt s v.cap) := by
  induction fuel generalizing v s i with
  | zero => omega
  | succ fuel ih =>
    obtain ⟨m, k, hm, hk, hcases⟩ := largest_holds hw h hi
    unfold siftDown
    rw [counter_eq (by omega), ok_bind, counter_eq (by omega), ok_bind, hm, ok_bind, hk, ok_bind]
    rcases hcases with ⟨rfl, hdone⟩ | ⟨hchild, ⟨x, y, hx, hy, hlt⟩, hbest⟩
    · rw [if_pos rfl]
      exact yields_ok.2 ⟨s.items, h, hd.done hdone, .refl _, rfl⟩
    · have hik := parent_lt hchild
      have hi' := (List.getElem?_eq_some_iff.1 hx).1
      have hk' := (List.getElem?_eq_some_iff.1 hy).1
      obtain ⟨w, hr, hholds⟩ := Vec.swap_holds h hi' hk'
      have hstep := hd.step hw hchild hx hy hlt hbest
      have hlen := length_swapped s.items i k
      rw [if_neg (Nat.ne_of_gt hik), hr, ok_bind]
      have hrest := ih hholds (by rw [hlen]; exact hn) (.inl (by rw [hlen]; exact hk')) hstep (by rw [hlen]; omega)
      rw [hlen] at hrest
      refine hrest.mono ?_
      rintro u ⟨l, hl, ho, hp, hc⟩
      exact ⟨l, hl, ho, hp.trans (swapped_perm hi' hk'), hc.trans (Vec.swap_cap hr)⟩

/-- The heap stores `l`, with no parent less than a child, and neither clones nor destroys an element. -/
structure Stores (lt : α → α → Bool) (h : BinaryHeap α) (l : List α) : Prop where
  holds : h.data.Holds ⟨l, [], []⟩
  grown : h.data.Grown
  ordered : HeapOrdered lt l

theorem empty_stores (lt : α → α → Bool) : Stores lt empty [] :=
  ⟨Vec.empty_holds, .inl rfl, fun _ _ _ _ _ hx => absurd hx (by simp)⟩

variable {h h' : BinaryHeap α} {l : List α} {x : α}

theorem Stores.bound (hs : Stores lt h l) : l.length ≤ 2 ^ 30 := Nat.le_trans hs.holds.room hs.grown.cap_le

theorem Stores.push_yields (hw : StrictWeak lt) (hs : Stores lt h l) (hn : l.length + 1 ≤ 2 ^ 30) (x : α) :
    (h.push lt x).Yields fun h' => ∃ l', Stores lt h' l' ∧ l'.Perm (x :: l) := by
  obtain ⟨v, hv, hholds⟩ := Vec.push_holds hs.holds hn x
  have hlen : v.len = l.length + 1 := by
    rw [hholds.len, List.length_append]
    rfl
  unfold push
  rw [hv, ok_bind, hlen, Nat.add_sub_cancel]
  have hlast : l.length < (l ++ [x]).length := by grind
  refine (siftUp_holds hw hholds hlast (hs.ordered.append x) (by omega)).bind ?_
  rintro w ⟨l', hl', ho, hp, hc⟩
  refine yields_pure.2 ⟨l', ⟨hl', ?_, ho⟩, hp.trans (List.perm_append_singleton x l)⟩
  have hgrown := (Vec.push_grown hs.grown hs.holds hv).1
  unfold Vec.Grown at hgrown ⊢
  rw [hc]
  exact hgrown

theorem Stores.push_ok (hw : StrictWeak lt) (hs : Stores lt h l) (hr : h.push lt x = .ok h') :
    ∃ l', Stores lt h' l' ∧ l'.Perm (x :: l) := by
  obtain ⟨v, hv, -⟩ := bind_ok hr
  obtain ⟨u, hu, hl'⟩ := hs.push_yields hw (Vec.push_grown hs.grown hs.holds hv).2 x
  grind

theorem Stores.pop_yields (hw : StrictWeak lt) (hs : Stores lt h l) :
    (h.pop lt).Yields fun r => ∃ l', Stores lt r.2 l' ∧ l.Perm (r.1.toList ++ l') ∧ (r.1 = none ↔ l = []) ∧
      ∀ x, r.1 = some x → ∀ y ∈ l, lt x y = false := by
  have hbound := hs.bound
  have hlen : h.data.len = l.length := hs.holds.len
  unfold pop
  dsimp only
  split
  · next h0 =>
    have hnil : l = [] := List.length_eq_zero_iff.1 (hlen.symm.trans h0)
    subst hnil
    exact yields_ok.2 ⟨[], hs, .nil, ⟨fun _ => rfl, fun _ => rfl⟩, fun x hx => by cases hx⟩
  · next h0 =>
    have hpos : 0 < l.length := by omega
    have hlast : l.length - 1 < l.length := Nat.sub_lt hpos Nat.one_pos
    have hidx : (h.data.len : ℤ) - 1 = ((l.length - 1 : ℕ) : ℤ) := by omega
    -- the root changes places with the last element, which then sifts down
    obtain ⟨v, hv, hswap⟩ := Vec.swap_holds hs.holds hpos hlast
    obtain ⟨⟨out, u⟩, hu, hout, hpop⟩ := Vec.pop_holds hswap
    have hroot := List.getElem?_eq_getElem hpos
    have hgetLast : (swapped l 0 (l.length - 1)).getLast? = some l[0] := by
      rw [List.getLast?_eq_getElem?, length_swapped, get_swapped hpos hlast, Equiv.swap_apply_right, hroot]
    obtain rfl : out = some l[0] := hout.trans hgetLast
    have hcount : (swapped l 0 (l.length - 1)).dropLast.length = l.length - 1 := by
      rw [List.length_dropLast, length_swapped]
    rw [hidx]
    have hv' : h.data.swap 0 ((l.length - 1 : ℕ) : ℤ) = .ok v := hv
    rw [hv', ok_bind, hu, ok_bind]
    dsimp only
    have hulen : u.len = (swapped l 0 (l.length - 1)).dropLast.length := hpop.len
    rw [hulen]
    refine (siftDown_holds hw hpop ?_ (.inr rfl) (hs.ordered.withoutRoot hpos) ?_).bind ?_
    · grind
    · grind
    rintro w ⟨l', hl', ho, hp, hc⟩
    refine yields_pure.2 ⟨l', ⟨hl', ?_, ho⟩, ?_, ?_, ?_⟩
    · have hcap : w.cap = h.data.cap := hc.trans ((Vec.pop_cap hu).trans (Vec.swap_cap hv))
      show w.cap = 0 ∨ ∃ k ≤ 30, w.cap = 2 ^ k
      rw [hcap]
      exact hs.grown
    · have hmid := (swapped_perm hpos hlast).symm
      rw [← List.dropLast_append_getLast? l[0] hgetLast] at hmid
      exact hmid.trans ((List.perm_append_singleton _ _).trans (hp.symm.cons _))
    · grind
    · intro x hx y hy
      cases hx
      obtain ⟨i, hi⟩ := List.mem_iff_getElem?.1 hy
      exact hs.ordered.root hw i _ _ hroot hi

theorem Stores.fromList_ok (hw : StrictWeak lt) {k : List α} (hs : Stores lt h l) (hr : fromList lt k h = .ok h') :
    ∃ l', Stores lt h' l' ∧ l'.Perm (k ++ l) := by
  induction k generalizing h l with
  | nil =>
    cases hr
    exact ⟨l, hs, .refl _⟩
  | cons x k ih =>
    obtain ⟨u, hu, hr⟩ := bind_ok hr
    obtain ⟨m, hm, hp⟩ := hs.push_ok hw hu
    obtain ⟨l', hl', hp'⟩ := ih hm hr
    exact ⟨l', hl', hp'.trans ((hp.append_left k).trans List.perm_middle)⟩

end BinaryHeap

/-- A heap, with what was pushed into it and what was popped from it. -/
structure HeapHistory (α : Type) where
  heap : BinaryHeap α
  pushed : List α
  popped : List α

inductive HeapOp (α : Type)
  | push (x : α)
  | pop
  /-- the elements of a literal -/
  | fromList (l : List α)

namespace HeapHistory

variable {α : Type} {lt : α → α → Bool} {s t : HeapHistory α}

def start : HeapHistory α := ⟨.empty, [], []⟩

/-- One operation that comes to an end. -/
inductive Step (lt : α → α → Bool) (s : HeapHistory α) : HeapOp α → HeapHistory α → Prop
  | push {x : α} {h : BinaryHeap α} : s.heap.push lt x = .ok h → Step lt s (.push x) ⟨h, x :: s.pushed, s.popped⟩
  | pop {out : Option α} {h : BinaryHeap α} : s.heap.pop lt = .ok (out, h) →
      Step lt s .pop ⟨h, s.pushed, out.toList ++ s.popped⟩
  | fromList {l : List α} {h : BinaryHeap α} : BinaryHeap.fromList lt l s.heap = .ok h →
      Step lt s (.fromList l) ⟨h, l ++ s.pushed, s.popped⟩

def Sound (lt : α → α → Bool) (s : HeapHistory α) (l : List α) : Prop :=
  s.heap.Stores lt l ∧ s.pushed.Perm (l ++ s.popped)

theorem Step.sound (hw : StrictWeak lt) {l : List α} {op : HeapOp α} (hs : s.Sound lt l) (h : Step lt s op t) :
    ∃ l', t.Sound lt l' := by
  obtain ⟨hstores, hperm⟩ := hs
  cases h with
  | push hr =>
    obtain ⟨l', hl', hp⟩ := hstores.push_ok hw hr
    exact ⟨l', hl', (hperm.cons _).trans (hp.symm.append_right _)⟩
  | pop hr =>
    obtain ⟨r, hr', l', hl', hp, -⟩ := hstores.pop_yields hw
    rw [hr] at hr'
    cases hr'
    refine ⟨l', hl', hperm.trans ((hp.append_right _).trans ?_)⟩
    show ((_ ++ l') ++ _).Perm (l' ++ (_ ++ _))
    rw [← List.append_assoc]
    exact List.perm_append_comm.append_right _
  | fromList hr =>
    obtain ⟨l', hl', hp⟩ := hstores.fromList_ok hw hr
    refine ⟨l', hl', (hperm.append_left _).trans ?_⟩
    rw [← List.append_assoc]
    exact hp.symm.append_right _

/-- After any operations on the empty heap that came to an end, no parent is less than a child, and the heap stores what
was pushed and not popped. A pop then comes to an end, with an element that none exceeds, or with none when the heap is
empty, and so does a push while there are fewer than 2^30 elements. -/
theorem heap_is_priority_queue (hw : StrictWeak lt) {ops : List (HeapOp α)}
    (h : Transition.Run (Step lt) start ops s) :
    ∃ l, s.heap.data.Holds ⟨l, [], []⟩ ∧ HeapOrdered lt l ∧ s.pushed.Perm (l ++ s.popped) ∧
      ((s.heap.pop lt).Yields fun r => (r.1 = none ↔ l = []) ∧ ∀ x, r.1 = some x → x ∈ l ∧ ∀ y ∈ l, lt x y = false) ∧
      ∀ x, l.length < 2 ^ 30 → (s.heap.push lt x).Yields fun _ => True := by
  obtain ⟨l, hstores, hperm⟩ := h.invariant (I := fun _ s => ∃ l, s.Sound lt l)
    ⟨[], BinaryHeap.empty_stores lt, .nil⟩ fun _ _ _ _ ⟨_, hl⟩ hs => hs.sound hw hl
  refine ⟨l, hstores.holds, hstores.ordered, hperm, (hstores.pop_yields hw).mono ?_, fun x hn => ?_⟩
  · rintro ⟨out, h'⟩ ⟨l', -, hp, hnone, hmax⟩
    refine ⟨hnone, fun x hx => ⟨?_, hmax x hx⟩⟩
    have hx : out = some x := hx
    rw [hp.mem_iff, hx]
    exact List.mem_append_left _ (List.mem_singleton.2 rfl)
  · exact (hstores.push_yields hw hn x).mono fun _ _ => trivial

theorem heap_is_priority_queue_two :
    ∃ l, Vec.Holds ⟨full [5, 2] ++ vacant 2, 2, 4, [], []⟩ ⟨l, [], []⟩ ∧ HeapOrdered (fun x y : ℕ => decide (x < y)) l ∧
      [5, 2].Perm (l ++ []) ∧
      ((BinaryHeap.pop (fun x y : ℕ => decide (x < y)) ⟨⟨full [5, 2] ++ vacant 2, 2, 4, [], []⟩⟩).Yields fun r =>
        (r.1 = none ↔ l = []) ∧ ∀ x, r.1 = some x → x ∈ l ∧ ∀ y ∈ l, decide (x < y) = false) ∧
      ∀ x, l.length < 2 ^ 30 → (BinaryHeap.push (fun x y : ℕ => decide (x < y))
        ⟨⟨full [5, 2] ++ vacant 2, 2, 4, [], []⟩⟩ x).Yields fun _ => True :=
  heap_is_priority_queue (s := ⟨⟨⟨full [5, 2] ++ vacant 2, 2, 4, [], []⟩⟩, [5, 2], []⟩)
    ⟨fun h => decide_eq_false (Nat.lt_asymm (of_decide_eq_true h)), fun h h' => decide_eq_false
      (Nat.not_lt.2 (Nat.le_trans (Nat.not_lt.1 (of_decide_eq_false h')) (Nat.not_lt.1 (of_decide_eq_false h))))⟩
    ((Transition.Run.single (Step.push (x := 2) rfl)).snoc (Step.push (x := 5) rfl))

end HeapHistory

end LsLang.Core
