import LsLang.Core.Vec
import LsLang.Lib.Exchange

/-! The methods of `Vec` that edit several elements in place, and those that clone. -/

namespace LsLang.Core.Vec

open LsLang.Lib LsLang.Lib.Cells LsLang.Undefined LsLang.Undefined.Res

variable {α : Type} {clone : ℕ → α → α} {v : Vec α} {s : Stock α} {p q m : Cells α} {x y : α} {i : ℕ}

/-! What the methods leave. -/

/-- `n` clones, each of the one before and the first one of `x`, after `k` others. -/
def copies (clone : ℕ → α → α) : ℕ → ℕ → α → List α
  | 0, _, _ => []
  | n + 1, k, x => clone k x :: copies clone n (k + 1) (clone k x)

/-- A clone of each element, after `k` others. -/
def clonesOf (clone : ℕ → α → α) : ℕ → List α → List α
  | _, [] => []
  | k, x :: l => clone k x :: clonesOf clone (k + 1) l

/-- The elements that the predicate keeps, of a list whose first is the `r`-th. -/
def kept (keep : ℕ → α → Bool) : ℕ → List α → List α
  | _, [] => []
  | r, x :: l => if keep r x then x :: kept keep (r + 1) l else kept keep (r + 1) l

/-- The elements that differ from the last one kept, which is `x` at first. -/
def uniq (eq : α → α → Bool) : α → List α → List α
  | _, [] => []
  | x, y :: l => if eq y x then uniq eq x l else y :: uniq eq y l

def repeats (eq : α → α → Bool) : α → List α → List α
  | _, [] => []
  | x, y :: l => if eq y x then y :: repeats eq x l else repeats eq y l

@[simp] theorem length_copies (n k : ℕ) (x : α) : (copies clone n k x).length = n := by
  induction n generalizing k x with
  | zero => rfl
  | succ n ih => exact congrArg (· + 1) (ih _ _)

@[simp] theorem length_clonesOf (k : ℕ) (l : List α) : (clonesOf clone k l).length = l.length := by
  induction l generalizing k with
  | nil => rfl
  | cons x l ih => exact congrArg (· + 1) (ih _)

theorem kept_perm (keep : ℕ → α → Bool) (r : ℕ) (l : List α) :
    (kept keep r l ++ kept (fun r x => !keep r x) r l).Perm l := by
  induction l generalizing r with
  | nil => exact .nil
  | cons x l ih =>
    unfold kept
    cases keep r x with
    | true => exact (ih (r + 1)).cons x
    | false => exact List.perm_middle.trans ((ih (r + 1)).cons x)

theorem uniq_perm (eq : α → α → Bool) (x : α) (l : List α) : (uniq eq x l ++ repeats eq x l).Perm l := by
  induction l generalizing x with
  | nil => exact .nil
  | cons y l ih =>
    unfold uniq repeats
    cases eq y x with
    | true => exact List.perm_middle.trans ((ih x).cons y)
    | false => exact (ih y).cons y

/-! The steps. -/

theorem exchange_at (hd : v.data = p ++ some x :: (m ++ some y :: q)) (hp : p.length = i) :
    v.exchange i (i + 1 + m.length) = .ok { v with data := p ++ some y :: (m ++ some x :: q) } := by
  have hsplit (a : Option α) (c : Option α) : p ++ a :: (m ++ c :: q) = (p ++ a :: m) ++ c :: q := by
    grind
  have hq (a : Option α) : (p ++ a :: m).length = i + 1 + m.length := by grind
  rw [exchange_eq (x := x) (y := y) (by rw [hd, get_at hp]) (by grind) (by omega), hd,
    set_at hp, hsplit, set_at (hq _), ← hsplit]

theorem reverseLoop_at {l : List α} (hd : v.data = p ++ (full l ++ q)) (hp : p.length = i) {fuel : ℕ}
    (hfuel : l.length < fuel) :
    ∃ a b, reverseLoop fuel (v, i, i + l.length - 1) =
      .ok ({ v with data := p ++ (full l.reverse ++ q) }, a, b) := by
  induction l using List.bidirectionalRec generalizing v p q i fuel with
  | nil =>
    obtain ⟨fuel, rfl⟩ := Nat.exists_eq_add_of_lt hfuel
    refine ⟨i, i + 0 - 1, ?_⟩
    unfold reverseLoop whileLoop
    rw [List.length_nil, if_neg (by simp)]
    exact congrArg (fun w => Res.ok (w, i, i + 0 - 1)) (with_data hd).symm
  | singleton x =>
    obtain ⟨fuel, rfl⟩ := Nat.exists_eq_add_of_lt hfuel
    refine ⟨i, i + 1 - 1, ?_⟩
    unfold reverseLoop whileLoop
    rw [List.length_singleton, if_neg (by simp)]
    exact congrArg (fun w => Res.ok (w, i, i + 1 - 1)) (with_data hd).symm
  | cons_append x l y ih =>
    have hlen : (x :: (l ++ [y])).length = l.length + 2 := by simp
    rw [hlen] at hfuel ⊢
    obtain ⟨fuel, rfl⟩ := Nat.exists_eq_add_of_lt hfuel
    have hd' : v.data = p ++ some x :: (full l ++ some y :: q) := by simp [hd]
    have hstep := exchange_at hd' hp
    rw [length_full] at hstep
    obtain ⟨a, b, hrest⟩ := ih (v := { v with data := p ++ some y :: (full l ++ some x :: q) }) (p := p ++ [some y])
      (i := i + 1) (List.append_cons p _ _)
      (by grind) (show l.length < l.length + 2 + fuel by omega)
    refine ⟨a, b, ?_⟩
    have hj : i + (l.length + 2) - 1 = i + 1 + l.length := by omega
    unfold reverseLoop whileLoop
    rw [hj, if_pos (by simp; omega)]
    simp only [hstep, ok_bind, pure_eq]
    refine hrest.trans ?_
    simp

theorem reverse_holds (h : v.Holds s) : v.reverse.Yields (·.Holds { s with items := s.items.reverse }) := by
  obtain ⟨a, b, hloop⟩ := reverseLoop_at (v := v) (p := []) (i := 0) h.data rfl (Nat.lt_succ_self _)
  rw [Nat.zero_add] at hloop
  unfold reverse
  rw [h.len, hloop, ok_bind]
  refine yields_pure.2 (.mk_of (v.cap - s.items.length) rfl ?_ ?_ h.cloned h.gone)
  · rw [List.length_reverse]
    exact h.len
  · have hroom := h.room
    grind

theorem swap_holds {j : ℕ} (h : v.Holds s) (hi : i < s.items.length) (hj : j < s.items.length) :
    (v.swap i j).Yields (·.Holds { s with items := swapped s.items i j }) := by
  have hlen := h.len
  have hroom := h.room
  unfold swap
  rw [if_neg (by omega)]
  split
  · next hij =>
    rw [Int.natCast_inj.1 hij, swapped_self]
    exact yields_ok.2 h
  · next hij =>
    have hget {k : ℕ} (hk : k < s.items.length) : v.data[k]? = some (some s.items[k]) := by
      rw [h.data, List.getElem?_append_left (by simpa using hk), get_full, List.getElem?_eq_getElem hk]
      rfl
    rw [Int.toNat_natCast, Int.toNat_natCast, exchange_eq (hget hi) (hget hj) (fun heq => hij (by rw [heq])),
      swapped_eq (List.getElem?_eq_getElem hi) (List.getElem?_eq_getElem hj)]
    refine yields_ok.2 (.mk_of (v.cap - s.items.length) ?_ ?_ ?_ h.cloned h.gone)
    · show (v.data.set i _).set j _ = _
      rw [h.data, List.set_append_left _ _ (by simpa using hi), List.set_append_left _ _ (by simpa using hj), set_full,
        set_full]
    · grind
    grind

/-! Clones. -/

variable (clone) in
theorem pushLast_holds {l : List α} (h : v.Holds s) (hl : s.items = l ++ [x]) (hlt : s.items.length < v.cap) :
    ∃ w, v.pushLast clone = .ok w ∧ w.cap = v.cap ∧
      w.Holds ⟨s.items ++ [clone s.cloned.length x], clone s.cloned.length x :: s.cloned, s.gone⟩ := by
  have hlast : v.data = full l ++ some x :: vacant (v.cap - s.items.length) := by simp [h.data, hl]
  have hidx : (full l).length = v.len - 1 := by
    rw [length_full, h.len, hl, List.length_append]
    rfl
  have hdup : Holds { v with cloned := clone v.cloned.length x :: v.cloned }
      { s with cloned := clone s.cloned.length x :: s.cloned } := by
    refine ⟨h.data, h.len, h.room, ?_, h.gone⟩
    rw [h.cloned]
  obtain ⟨w, hw, hcap, hholds⟩ := append_holds hdup hlt (clone v.cloned.length x)
  rw [h.cloned] at hholds
  refine ⟨{ w with len := w.len + 1 }, ?_, hcap, hholds⟩
  unfold pushLast
  rw [hlast, peek_at hidx, ok_bind]
  dsimp only [dup]
  rw [hw]
  rfl

theorem pushLasts_holds {l : List α} {r n : ℕ} (h : v.Holds s) (hl : s.items = l ++ [x])
    (hroom : s.items.length + n ≤ v.cap) :
    (forFrom (fun _ v => v.pushLast clone) r n v).Yields
      (·.Holds ⟨s.items ++ copies clone n s.cloned.length x,
        (copies clone n s.cloned.length x).reverse ++ s.cloned, s.gone⟩) := by
  induction n generalizing v s l x r with
  | zero =>
    refine yields_ok.2 ?_
    simpa [copies] using h
  | succ n ih =>
    obtain ⟨w, hw, hcap, hholds⟩ := pushLast_holds clone h hl (by omega)
    rw [forFrom_succ, hw, ok_bind]
    refine (ih hholds rfl ?_).mono fun u hu => ?_
    · grind
    · simpa [copies] using hu

variable (clone) in
theorem resize_holds (h : v.Holds s) {n : ℕ} (hn : n ≤ 2 ^ 30) (fill : α) :
    (v.resize clone n fill).Yields (·.Holds
      (if n ≤ s.items.length then ⟨s.items.take n, s.cloned, fill :: ((s.items.drop n).reverse ++ s.gone)⟩
      else
        let made := copies clone (n - (s.items.length + 1)) s.cloned.length fill
        ⟨s.items ++ fill :: made, made.reverse ++ s.cloned, s.gone⟩)) := by
  have hlen := h.len
  unfold resize
  rw [if_neg (by omega)]
  by_cases hle : n ≤ s.items.length
  · obtain ⟨w, hw, -, hholds⟩ := disposeFrom_holds h hle
    rw [if_pos (by omega), if_pos hle, Int.toNat_natCast, hw, ok_bind]
    refine yields_pure.2 ⟨hholds.data, hholds.len, hholds.room, hholds.cloned, ?_⟩
    exact congrArg (fill :: ·) hholds.gone
  · rw [if_neg (by omega), if_neg hle]
    refine (reserve_holds h (by omega)).bind ?_
    rintro w ⟨hw, hroom⟩
    obtain ⟨u, hu, hcap, hu'⟩ := append_holds hw (by omega) fill
    have hulen : u.len + 1 = (s.items ++ [fill]).length := hu'.len
    have hcount : (n : ℤ).toNat - (u.len + 1) = n - (s.items.length + 1) := by grind
    rw [hu, ok_bind]
    dsimp only
    rw [hcount]
    refine (pushLasts_holds hu' rfl ?_).mono fun z hz => ?_
    · grind
    · simpa using hz

theorem fillTurn_at (hd : v.data = p ++ some y :: q) (hp : p.length = i) (x : α) :
    v.fillTurn clone x i = .ok { v with
      data := p ++ some (clone v.cloned.length x) :: q
      cloned := clone v.cloned.length x :: v.cloned
      gone := y :: v.gone } := by
  unfold fillTurn
  rw [dispose_at hd hp, ok_bind]
  dsimp only [dup]
  rw [store_at rfl hp]

theorem fillTurns_at {l : List α} (hd : v.data = p ++ (full l ++ q)) (hp : p.length = i) (x : α) :
    forFrom (fillTurn clone x) i l.length v = .ok { v with
      data := p ++ (full (clonesOf clone v.cloned.length (List.replicate l.length x)) ++ q)
      cloned := (clonesOf clone v.cloned.length (List.replicate l.length x)).reverse ++ v.cloned
      gone := l.reverse ++ v.gone } := by
  induction l generalizing p i v with
  | nil => exact congrArg Res.ok (with_data hd).symm
  | cons y l ih =>
    rw [List.length_cons, forFrom_succ, fillTurn_at (p := p) (y := y) (q := full l ++ q) hd hp, ok_bind,
      ih (List.append_cons p _ _) (by grind)]
    simp [List.replicate_succ, clonesOf]

theorem fill_holds (h : v.Holds s) (x : α) :
    (v.fill clone x).Yields
      (·.Holds ⟨clonesOf clone s.cloned.length (List.replicate s.items.length x),
        (clonesOf clone s.cloned.length (List.replicate s.items.length x)).reverse ++ s.cloned,
        x :: (s.items.reverse ++ s.gone)⟩) := by
  have hroom := h.room
  unfold fill
  rw [h.len, fillTurns_at (p := []) (i := 0) h.data rfl, ok_bind]
  refine yields_pure.2 (.mk_of (v.cap - s.items.length) ?_ ?_ ?_ ?_ ?_)
  · show [] ++ _ = _
    rw [h.cloned]
    rfl
  · show v.len = _
    rw [h.len, length_clonesOf, List.length_replicate]
  · rw [length_clonesOf, List.length_replicate]
    exact (Nat.add_sub_cancel' hroom).symm
  · show _ ++ v.cloned = _
    rw [h.cloned]
  · show x :: (_ ++ v.gone) = _
    rw [h.gone]

theorem extendTurns_holds {src : Vec α} {l k : List α} (h : v.Holds s) (hsrc : src.data = full (k ++ l) ++ q)
    (hn : s.items.length + l.length ≤ 2 ^ 30) :
    (forFrom (extendTurn clone src) k.length l.length v).Yields
      (·.Holds ⟨s.items ++ clonesOf clone s.cloned.length l, (clonesOf clone s.cloned.length l).reverse ++ s.cloned,
        s.gone⟩) := by
  induction l generalizing k v s with
  | nil =>
    refine yields_ok.2 ?_
    simpa [clonesOf] using h
  | cons y l ih =>
    rw [List.length_cons] at hn
    have hdup : Holds { v with cloned := clone v.cloned.length y :: v.cloned }
        { s with cloned := clone s.cloned.length y :: s.cloned } := by
      refine ⟨h.data, h.len, h.room, ?_, h.gone⟩
      rw [h.cloned]
    have hy : src.data = full k ++ some y :: (full l ++ q) := by simp [hsrc]
    have hnext := push_holds hdup (by grind) (clone v.cloned.length y)
    have hturn : extendTurn clone src k.length v =
        push { v with cloned := clone v.cloned.length y :: v.cloned } (clone v.cloned.length y) := by
      unfold extendTurn
      rw [hy, peek_at (length_full k), ok_bind]
      rfl
    rw [List.length_cons, forFrom_succ, hturn]
    refine hnext.bind fun w hw => ?_
    rw [h.cloned] at hw
    have hk : k.length + 1 = (k ++ [y]).length := by grind
    rw [hk]
    refine (ih hw (by grind) ?_).mono fun u hu => ?_
    · grind
    · simpa [clonesOf] using hu

theorem extend_holds {src : Vec α} {t : Stock α} (h : v.Holds s) (hsrc : src.Holds t)
    (hn : s.items.length + t.items.length ≤ 2 ^ 30) :
    (v.extend clone src).Yields
      (·.Holds ⟨s.items ++ clonesOf clone s.cloned.length t.items,
        (clonesOf clone s.cloned.length t.items).reverse ++ s.cloned, s.gone⟩) := by
  have hlen := h.len
  have hlen' := hsrc.len
  unfold extend
  refine (reserve_holds h (by omega)).bind fun w hw => ?_
  rw [hsrc.len]
  exact extendTurns_holds (k := []) hw.1 hsrc.data hn

/-! Elements that move down over vacant cells. -/

theorem moveDown_at {d : ℕ} (hd : v.data = p ++ (vacant d ++ some x :: q)) (hp : p.length = i) :
    v.moveDown i (i + d) = .ok { v with data := p ++ some x :: (vacant d ++ q) } := by
  unfold moveDown
  cases d with
  | zero =>
    rw [if_pos (Nat.add_zero i).symm]
    exact congrArg Res.ok (with_data hd).symm
  | succ d =>
    have hmove := move_down (m := vacant d) (x := x) (q := q) (by rw [hd]; rfl) hp
    rw [length_vacant] at hmove
    rw [if_neg (by omega), Nat.add_comm d 1, ← Nat.add_assoc, hmove, Nat.add_comm 1 d, vacant_succ', List.append_assoc]
    rfl

theorem retainTurns_at {keep : ℕ → α → Bool} {l : List α} {d : ℕ} (hd : v.data = p ++ (vacant d ++ (full l ++ q)))
    (hp : p.length = i) :
    forFrom (retainTurn keep) (i + d) l.length (v, i) = .ok ({ v with
      data := p ++ (full (kept keep (i + d) l) ++ (vacant (d + (kept (fun r x => !keep r x) (i + d) l).length) ++ q))
      gone := (kept (fun r x => !keep r x) (i + d) l).reverse ++ v.gone }, i + (kept keep (i + d) l).length) := by
  induction l generalizing p d i v with
  | nil =>
    simp only [kept, full_nil, List.nil_append] at hd ⊢
    exact congrArg (fun w => Res.ok (w, i)) (with_data hd).symm
  | cons x l ih =>
    have hd' : v.data = (p ++ vacant d) ++ some x :: (full l ++ q) := by rw [hd, List.append_assoc]; rfl
    have hp' : (p ++ vacant d).length = i + d := by rw [List.length_append, length_vacant, hp]
    rw [List.length_cons, forFrom_succ]
    unfold retainTurn kept
    rw [hd', peek_at hp', ok_bind]
    cases hk : keep (i + d) x with
    | true =>
      rw [if_pos rfl, moveDown_at hd hp, ok_bind]
      have hnext := ih (v := { v with data := p ++ some x :: (vacant d ++ (full l ++ q)) }) (d := d)
        (List.append_cons p _ _) (by rw [List.length_append, hp])
      rw [Nat.add_right_comm] at hnext
      refine hnext.trans ?_
      simp [Nat.add_assoc, Nat.add_comm 1]
    | false =>
      rw [if_neg Bool.false_ne_true, dispose_at hd' hp', ok_bind]
      have hnext := ih (v := { v with data := (p ++ vacant d) ++ none :: (full l ++ q), gone := x :: v.gone })
        (d := d + 1) (by rw [vacant_succ']; simp) hp
      refine hnext.trans ?_
      grind

theorem retain_holds (h : v.Holds s) (keep : ℕ → α → Bool) :
    (v.retain keep).Yields
      (·.Holds ⟨kept keep 0 s.items, s.cloned, (kept (fun r x => !keep r x) 0 s.items).reverse ++ s.gone⟩) := by
  have hroom := h.room
  have hcount := (kept_perm keep 0 s.items).length_eq
  rw [List.length_append] at hcount
  unfold retain
  rw [h.len, retainTurns_at (p := []) (i := 0) (d := 0) h.data rfl, ok_bind]
  refine yields_pure.2 (.mk_of ((kept (fun r x => !keep r x) 0 s.items).length + (v.cap - s.items.length))
    ?_ ?_ ?_ h.cloned ?_)
  · simp [vacant_add]
  · exact Nat.zero_add _
  · show v.cap = _
    omega
  · show _ ++ v.gone = _
    rw [h.gone]

theorem dedupTurns_at {eq : α → α → Bool} {l : List α} {d : ℕ}
    (hd : v.data = (p ++ [some x]) ++ (vacant d ++ (full l ++ q))) (hp : p.length = i) :
    forFrom (dedupTurn eq) (i + 1 + d) l.length (v, i + 1) = .ok ({ v with
      data := (p ++ [some x]) ++ (full (uniq eq x l) ++ (vacant (d + (repeats eq x l).length) ++ q))
      gone := (repeats eq x l).reverse ++ v.gone }, i + 1 + (uniq eq x l).length) := by
  induction l generalizing p d i v x with
  | nil =>
    simp only [uniq, repeats, full_nil, List.nil_append] at hd ⊢
    exact congrArg (fun w => Res.ok (w, i + 1)) (with_data hd).symm
  | cons y l ih =>
    have hlast : (p ++ [some x]).length = i + 1 := by grind
    have hd' : v.data = (p ++ [some x] ++ vacant d) ++ some y :: (full l ++ q) := by simp [hd]
    have hp' : (p ++ [some x] ++ vacant d).length = i + 1 + d := by
      rw [List.length_append, length_vacant, hlast]
    have hx : v.data.peek (i + 1 - 1) = .ok x := by
      rw [hd, List.append_assoc, List.singleton_append]
      exact peek_at hp
    have hy : v.data.peek (i + 1 + d) = .ok y := by
      rw [hd']
      exact peek_at hp'
    rw [List.length_cons, forFrom_succ]
    unfold dedupTurn uniq repeats
    dsimp only
    rw [hy, ok_bind, hx, ok_bind]
    cases eq y x with
    -- a repeated element is dropped and leaves one more cell vacant
    | true =>
      rw [if_pos rfl, dispose_at hd' hp', ok_bind]
      have hnext := ih (v := { v with data := (p ++ [some x] ++ vacant d) ++ none :: (full l ++ q), gone := y :: v.gone })
        (x := x) (d := d + 1) (by rw [vacant_succ']; simp) hp
      refine hnext.trans ?_
      grind
    -- another one moves down over the vacant cells
    | false =>
      rw [if_neg Bool.false_ne_true, moveDown_at hd hlast, ok_bind]
      have hnext := ih (v := { v with data := (p ++ [some x]) ++ some y :: (vacant d ++ (full l ++ q)) }) (d := d)
        (p := p ++ [some x]) (x := y) (List.append_cons _ _ _) hlast
      rw [show i + 1 + 1 + d = i + 1 + d + 1 from Nat.add_right_comm _ _ _] at hnext
      refine hnext.trans ?_
      simp [Nat.add_assoc, Nat.add_comm 1, Nat.add_comm 2]

/-- What `dedup` keeps of a list. -/
def dedupKept (eq : α → α → Bool) : List α → List α
  | [] => []
  | x :: l => x :: uniq eq x l

/-- What `dedup` destroys of a list. -/
def dedupGone (eq : α → α → Bool) : List α → List α
  | [] => []
  | x :: l => repeats eq x l

theorem dedup_holds (h : v.Holds s) (eq : α → α → Bool) :
    (v.dedup eq).Yields
      (·.Holds ⟨dedupKept eq s.items, s.cloned, (dedupGone eq s.items).reverse ++ s.gone⟩) := by
  obtain ⟨hdata, hlen, hroom, hcl, hgn⟩ := h
  unfold dedup
  obtain ⟨items, cloned, gone⟩ := s
  cases items with
  | nil =>
    rw [if_pos (by grind)]
    exact yields_ok.2 ⟨hdata, hlen, hroom, hcl, hgn⟩
  | cons x l =>
    cases l with
    | nil =>
      rw [if_pos (by grind)]
      exact yields_ok.2 ⟨hdata, hlen, hroom, hcl, hgn⟩
    | cons y l =>
      have hcount := (uniq_perm eq x (y :: l)).length_eq
      rw [List.length_append] at hcount
      have hturns : v.len - 1 = (y :: l).length := by
        rw [hlen]
        rfl
      rw [if_neg (by grind), hturns,
        dedupTurns_at (p := []) (i := 0) (d := 0) hdata rfl, ok_bind]
      refine yields_pure.2 (.mk_of ((repeats eq x (y :: l)).length + (v.cap - (l.length + 2))) ?_ ?_ ?_ hcl ?_)
      · simp [vacant_add, dedupKept]
      · simp [dedupKept, Nat.add_comm 1]
      · simp only [dedupKept, List.length_cons] at hroom hcount ⊢
        omega
      · show _ ++ v.gone = _
        rw [hgn]
        rfl

/-- A list without the element at `i`, whose place the last one takes. -/
def lastInto (l : List α) (i : ℕ) : List α :=
  match l.getLast? with
  | some y => (l.set i y).dropLast
  | none => l

theorem swapRemove_holds (h : v.Holds s) (hi : i < s.items.length) :
    (v.swapRemove i).Yields fun r => s.items[i]? = some r.1 ∧ r.2.Holds { s with items := lastInto s.items i } := by
  have hlen := h.len
  have hroom := h.room
  have hdata := h.data
  obtain ⟨l₁, x, l₂, hl, hl₁⟩ := exists_split hi
  have hx : s.items[i]? = some x := by grind
  have hcount : s.items.length = i + (l₂.length + 1) := by grind
  have hp : (full l₁).length = i := by rw [length_full, hl₁]
  unfold swapRemove
  rw [if_neg (by omega), Int.toNat_natCast,
    take_at (p := full l₁) (x := x) (q := full l₂ ++ vacant (v.cap - s.items.length)) (by simp [hdata, hl]) hp, ok_bind]
  dsimp only
  obtain rfl | ⟨m, y, hm⟩ := List.eq_nil_or_concat l₂
  · -- the element removed is the last one
    have hlast : v.len - 1 = i := hlen ▸ hcount ▸ rfl
    have hinto : lastInto s.items i = l₁ := by
      unfold lastInto
      grind
    unfold moveDown
    rw [hlast, if_pos rfl, ok_bind, hinto]
    refine yields_pure.2 ⟨hx, .mk_of (v.cap - s.items.length + 1) ?_ hl₁.symm ?_ h.cloned h.gone⟩
    · rw [vacant_succ]
      rfl
    grind
  · rw [List.concat_eq_append] at hm
    subst hm
    rw [List.length_append, List.length_singleton] at hcount
    have hlast : v.len - 1 = i + 1 + m.length := by omega
    have hinto : lastInto s.items i = l₁ ++ y :: m := by
      have hl' : s.items = l₁ ++ x :: m ++ [y] := by simp [hl]
      have hset : (l₁ ++ x :: m ++ [y]).set i y = l₁ ++ y :: m ++ [y] := by
        rw [← hl₁]
        simp
      unfold lastInto
      grind
    have hmove := move_down (v := { v with data := full l₁ ++ none :: (full (m ++ [y]) ++ vacant (v.cap - s.items.length)) })
      (p := full l₁) (m := full m) (x := y) (q := vacant (v.cap - s.items.length)) (by simp) hp
    rw [length_full] at hmove
    unfold moveDown
    rw [hlast, if_neg (by omega), hmove, ok_bind, hinto]
    refine yields_pure.2 ⟨hx, .mk_of (v.cap - s.items.length + 1) ?_ ?_ ?_ h.cloned h.gone⟩
    · simp [vacant_succ]
    · grind
    grind

end LsLang.Core.Vec
