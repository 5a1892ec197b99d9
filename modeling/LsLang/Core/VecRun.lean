import LsLang.Core.VecEdits
import LsLang.Core.VecSort
import LsLang.Lib.Transition

/-! Runs of operations on a `Vec`: each leaves what the same operation leaves of a list, and no element is lost or
destroyed twice. -/

namespace LsLang.Core

open LsLang.Lib LsLang.Lib.Cells LsLang.Undefined LsLang.Undefined.Res

inductive VecOp (α : Type)
  | push (x : α)
  | insert (i : ℤ) (x : α)
  | pop
  | remove (i : ℤ)
  | truncate (n : ℤ)
  | clear
  | set (i : ℤ) (x : α)
  | swap (i j : ℤ)
  | reverse
  | resize (n : ℤ) (x : α)
  | retain (keep : ℕ → α → Bool)
  | dedup (eq : α → α → Bool)
  | fill (x : α)
  | swapRemove (i : ℤ)
  /-- `src` stands for `t` -/
  | extend (src : Vec α) (t : Stock α)
  | sortBy (cmp : ℕ → α → α → ℤ)

namespace VecOp

variable {α : Type} (clone : ℕ → α → α)

def quiet (r : Res (Vec α)) : Res (List α × Vec α) := do
  let v ← r
  pure ([], v)

/-- The call, with the elements that it hands back. -/
def run (v : Vec α) : VecOp α → Res (List α × Vec α)
  | push x => quiet (v.push x)
  | insert i x => quiet (v.insert i x)
  | pop => do
    let (out, v) ← v.pop
    pure (out.toList, v)
  | remove i => do
    let (out, v) ← v.remove i
    pure ([out], v)
  | truncate n => quiet (v.truncate n)
  | clear => quiet v.clear
  | set i x => quiet (v.set i x)
  | swap i j => quiet (v.swap i j)
  | reverse => quiet v.reverse
  | resize n x => quiet (v.resize clone n x)
  | retain keep => quiet (v.retain keep)
  | dedup eq => quiet (v.dedup eq)
  | fill x => quiet (v.fill clone x)
  | swapRemove i => do
    let (out, v) ← v.swapRemove i
    pure ([out], v)
  | extend src _ => quiet (v.extend clone src)
  | sortBy cmp => quiet (v.sortBy cmp)

/-- The elements that the caller moves in. -/
def given : VecOp α → List α
  | push x | insert _ x | set _ x | resize _ x | fill x => [x]
  | _ => []

/-- The arguments are in range for `n` elements, and no more than 2^30 come of it. -/
def Fits (n : ℕ) : VecOp α → Prop
  | push _ => n + 1 < 2 ^ 30
  | insert i _ => 0 ≤ i ∧ i ≤ n ∧ n + 1 < 2 ^ 30
  | remove i | set i _ | swapRemove i => 0 ≤ i ∧ i < n
  | truncate m => 0 ≤ m
  | swap i j => 0 ≤ i ∧ i < n ∧ 0 ≤ j ∧ j < n
  | resize m _ => 0 ≤ m ∧ m < 2 ^ 30
  | extend src t => src.Holds t ∧ n + t.items.length < 2 ^ 30
  | pop | clear | reverse | retain _ | dedup _ | fill _ | sortBy _ => True

/-- The same operation on the list of the elements. The clones are made after `k` others. -/
def OnList (k : ℕ) (l : List α) : VecOp α → List α → Prop
  | push x, l' => l' = l ++ [x]
  | insert i x, l' => l' = l.take i.toNat ++ x :: l.drop i.toNat
  | pop, l' => l' = l.dropLast
  | remove i, l' => l' = l.eraseIdx i.toNat
  | truncate n, l' => l' = l.take n.toNat
  | clear, l' => l' = []
  | set i x, l' => l' = l.set i.toNat x
  | swap i j, l' => l' = swapped l i.toNat j.toNat
  | reverse, l' => l' = l.reverse
  | resize n x, l' =>
    if n ≤ l.length then l' = l.take n.toNat
    else l' = l ++ x :: Vec.copies clone (n.toNat - (l.length + 1)) k x
  | retain keep, l' => l' = Vec.kept keep 0 l
  | dedup eq, l' => l' = Vec.dedupKept eq l
  | fill x, l' => l' = Vec.clonesOf clone k (List.replicate l.length x)
  | swapRemove i, l' => l' = Vec.lastInto l i.toNat
  | extend _ t, l' => l' = l ++ Vec.clonesOf clone k t.items
  | sortBy cmp, l' => Vec.StablySorted cmp l l'

/-- What the operation hands back of a list. -/
def taken (l : List α) : VecOp α → List α
  | pop => l.getLast?.toList
  | remove i | swapRemove i => l[i.toNat]?.toList
  | _ => []

variable {clone} {v : Vec α} {s t : Stock α}

theorem quiet_yields {r : Res (Vec α)} {P : Vec α → Prop} (h : r.Yields P) :
    (quiet r).Yields fun u => u.1 = [] ∧ P u.2 := by
  obtain ⟨v, rfl, hv⟩ := h
  exact ⟨([], v), rfl, rfl, hv⟩

/-- From `s` to `t`, what was moved in or cloned is what is there more, was handed back, or was destroyed. -/
def Accounted (given out : List α) (s t : Stock α) : Prop :=
  (given ++ (t.cloned ++ (s.items ++ s.gone))).Perm (t.items ++ (out ++ (t.gone ++ s.cloned)))

theorem accounted {given out : List α} (new old : List α) {l : List α}
    (h : (given ++ (new ++ s.items)).Perm (l ++ (out ++ old))) :
    Accounted given out s ⟨l, new.reverse ++ s.cloned, old.reverse ++ s.gone⟩ := by
  classical
  refine List.perm_iff_count.2 fun a => ?_
  have hc := List.perm_iff_count.1 h a
  grind

/-- What a call does: it comes to an end, with the list operation done and every element accounted for. -/
def Does (clone : ℕ → α → α) (op : VecOp α) (s : Stock α) (r : List α × Vec α) : Prop :=
  ∃ t, r.2.Holds t ∧ r.1 = op.taken s.items ∧ op.OnList clone s.cloned.length s.items t.items ∧
    Accounted op.given r.1 s t ∧ t.items.length < 2 ^ 30

theorem quiet_does {op : VecOp α} {r : Res (Vec α)} (new old : List α) {l : List α}
    (h : r.Yields (·.Holds ⟨l, new.reverse ++ s.cloned, old.reverse ++ s.gone⟩)) (htaken : op.taken s.items = [])
    (hlist : op.OnList clone s.cloned.length s.items l) (hacc : (op.given ++ (new ++ s.items)).Perm (l ++ old))
    (hlt : l.length < 2 ^ 30) : (quiet r).Yields (op.Does clone s) := by
  refine (quiet_yields h).mono ?_
  rintro ⟨out, v⟩ ⟨rfl, hv⟩
  exact ⟨_, hv, htaken.symm, hlist, accounted _ _ hacc, hlt⟩

theorem push_does (h : v.Holds s) (x : α) (hfit : (push x).Fits s.items.length) :
    ((push x).run clone v).Yields ((push x).Does clone s) := by
  have hlt : s.items.length + 1 < 2 ^ 30 := hfit
  refine quiet_does [] [] (Vec.push_holds h (Nat.le_of_lt hlt) x) rfl rfl ?_ ?_
  · rw [List.append_nil]
    exact (List.perm_append_singleton x s.items).symm
  grind

theorem insert_does (h : v.Holds s) (i : ℤ) (x : α) (hfit : (insert i x).Fits s.items.length) :
    ((insert i x).run clone v).Yields ((insert i x).Does clone s) := by
  obtain ⟨h0, hi, hlt⟩ := hfit
  obtain ⟨i, rfl⟩ := Int.eq_ofNat_of_zero_le h0
  have hacc : (x :: s.items).Perm (s.items.take i ++ x :: s.items.drop i) := by
    have := (@List.perm_middle _ x (s.items.take i) (s.items.drop i)).symm
    rwa [List.take_append_drop] at this
  refine quiet_does [] [] (Vec.insert_holds h (Nat.le_of_lt hlt) (Int.ofNat_le.1 hi) x) rfl rfl ?_ ?_
  · rw [List.append_nil]
    exact hacc
  grind

theorem handed_does {op : VecOp α} {r : Res (List α × Vec α)} (out : List α) {l : List α} (h : r.Yields fun u =>
    u.1 = out ∧ u.2.Holds { s with items := l }) (htaken : op.taken s.items = out)
    (hlist : op.OnList clone s.cloned.length s.items l) (hgiven : op.given = []) (hacc : s.items.Perm (l ++ out))
    (hn : s.items.length < 2 ^ 30) : r.Yields (op.Does clone s) := by
  refine h.mono ?_
  rintro ⟨out', v⟩ ⟨rfl, hv⟩
  refine ⟨_, hv, htaken.symm, hlist, accounted [] [] ?_, ?_⟩
  · grind
  · have hlen := hacc.length_eq
    grind

theorem pop_does (h : v.Holds s) (hn : s.items.length < 2 ^ 30) : (pop.run clone v).Yields (pop.Does clone s) := by
  refine handed_does s.items.getLast?.toList ((Vec.pop_holds h).bind ?_) rfl rfl rfl ?_ hn
  · rintro ⟨out, w⟩ ⟨hout, hw⟩
    exact yields_pure.2 ⟨congrArg Option.toList hout, hw⟩
  · cases hlast : s.items.getLast? with
    | none => rw [List.getLast?_eq_none_iff.1 hlast]; rfl
    | some x =>
      show s.items.Perm (s.items.dropLast ++ [x])
      rw [List.dropLast_append_getLast? x hlast]

theorem perm_eraseIdx {l : List α} {i : ℕ} {x : α} (hx : l[i]? = some x) : l.Perm (l.eraseIdx i ++ [x]) := by
  obtain ⟨hi, rfl⟩ := List.getElem?_eq_some_iff.1 hx
  exact ((List.getElem_cons_eraseIdx_perm hi).symm.trans (List.perm_append_singleton _ _).symm)

theorem perm_set {l : List α} {i : ℕ} {y : α} (x : α) (hy : l[i]? = some y) : (x :: l).Perm (l.set i x ++ [y]) := by
  obtain ⟨hi, rfl⟩ := List.getElem?_eq_some_iff.1 hy
  have herase := (List.getElem_cons_eraseIdx_perm hi).symm
  have hset := (List.set_perm_cons_eraseIdx hi x).symm
  calc (x :: l).Perm (x :: l[i] :: l.eraseIdx i) := herase.cons x
    _ |>.Perm (l[i] :: x :: l.eraseIdx i) := .swap _ _ _
    _ |>.Perm (l[i] :: l.set i x) := hset.cons _
    _ |>.Perm (l.set i x ++ [l[i]]) := (List.perm_append_singleton _ _).symm

theorem remove_does (h : v.Holds s) (hn : s.items.length < 2 ^ 30) (i : ℤ) (hfit : (remove i : VecOp α).Fits s.items.length) :
    ((remove i).run clone v).Yields ((remove i).Does clone s) := by
  obtain ⟨h0, hi⟩ := hfit
  obtain ⟨i, rfl⟩ := Int.eq_ofNat_of_zero_le h0
  have hi' : i < s.items.length := Int.ofNat_lt.1 hi
  have hx := List.getElem?_eq_getElem hi'
  refine handed_does s.items[i]?.toList ((Vec.remove_holds h hi').bind ?_) rfl rfl rfl ?_ hn
  · rintro ⟨out, w⟩ ⟨hout, hw⟩
    exact yields_pure.2 ⟨(congrArg Option.toList hout).symm, hw⟩
  · rw [hx]
    exact perm_eraseIdx hx

theorem perm_lastInto {l : List α} {i : ℕ} {x : α} (hx : l[i]? = some x) : l.Perm (Vec.lastInto l i ++ [x]) := by
  obtain rfl | ⟨k, y, hl⟩ := List.eq_nil_or_concat l
  · simp at hx
  rw [List.concat_eq_append] at hl
  subst hl
  have hlast : Vec.lastInto (k ++ [y]) i = ((k ++ [y]).set i y).dropLast := by
    unfold Vec.lastInto
    rw [List.getLast?_concat]
  rw [hlast]
  rcases Nat.lt_or_ge i k.length with hi | hi
  · rw [List.getElem?_append_left hi] at hx
    obtain ⟨hi', rfl⟩ := List.getElem?_eq_some_iff.1 hx
    rw [List.set_append_left _ _ hi, List.dropLast_concat]
    exact (List.perm_append_singleton y k).trans (perm_set y (List.getElem?_eq_getElem hi))
  · obtain rfl : i = k.length := by grind
    rw [List.getElem?_concat_length, Option.some.injEq] at hx
    subst hx
    simp

theorem swapRemove_does (h : v.Holds s) (hn : s.items.length < 2 ^ 30) (i : ℤ)
    (hfit : (swapRemove i : VecOp α).Fits s.items.length) :
    ((swapRemove i).run clone v).Yields ((swapRemove i).Does clone s) := by
  obtain ⟨h0, hi⟩ := hfit
  obtain ⟨i, rfl⟩ := Int.eq_ofNat_of_zero_le h0
  have hi' : i < s.items.length := Int.ofNat_lt.1 hi
  have hx := List.getElem?_eq_getElem hi'
  refine handed_does s.items[i]?.toList ((Vec.swapRemove_holds h hi').bind ?_) rfl rfl rfl ?_ hn
  · rintro ⟨out, w⟩ ⟨hout, hw⟩
    exact yields_pure.2 ⟨(congrArg Option.toList hout).symm, hw⟩
  · rw [hx]
    exact perm_lastInto hx

theorem truncate_does (h : v.Holds s) (hn : s.items.length < 2 ^ 30) (n : ℤ) (hfit : (truncate n : VecOp α).Fits s.items.length) :
    ((truncate n).run clone v).Yields ((truncate n).Does clone s) := by
  obtain ⟨n, rfl⟩ := Int.eq_ofNat_of_zero_le hfit
  refine quiet_does [] (s.items.drop n) (Vec.truncate_holds h n) rfl rfl ?_ ?_
  · show s.items.Perm (s.items.take n ++ s.items.drop n)
    rw [List.take_append_drop]
  grind

theorem clear_does (h : v.Holds s) : (clear.run clone v).Yields (clear.Does clone s) :=
  quiet_does [] s.items (Vec.clear_holds h) rfl rfl (.refl _) (Nat.two_pow_pos 30)

theorem set_does (h : v.Holds s) (hn : s.items.length < 2 ^ 30) (i : ℤ) (x : α)
    (hfit : (set i x).Fits s.items.length) : ((set i x).run clone v).Yields ((set i x).Does clone s) := by
  obtain ⟨h0, hi⟩ := hfit
  obtain ⟨i, rfl⟩ := Int.eq_ofNat_of_zero_le h0
  obtain ⟨y, hy, hset⟩ := Vec.set_holds h (Int.ofNat_lt.1 hi) x
  refine quiet_does [] [y] hset rfl rfl ?_ (by grind)
  exact perm_set x hy

theorem swap_does (h : v.Holds s) (hn : s.items.length < 2 ^ 30) (i j : ℤ) (hfit : (swap i j : VecOp α).Fits s.items.length) :
    ((swap i j).run clone v).Yields ((swap i j).Does clone s) := by
  obtain ⟨hi0, hi, hj0, hj⟩ := hfit
  obtain ⟨i, rfl⟩ := Int.eq_ofNat_of_zero_le hi0
  obtain ⟨j, rfl⟩ := Int.eq_ofNat_of_zero_le hj0
  have hi' : i < s.items.length := Int.ofNat_lt.1 hi
  have hj' : j < s.items.length := Int.ofNat_lt.1 hj
  refine quiet_does [] [] (Vec.swap_holds h hi' hj') rfl rfl ?_ (by rw [length_swapped]; exact hn)
  rw [List.append_nil]
  exact (swapped_perm hi' hj').symm

theorem reverse_does (h : v.Holds s) (hn : s.items.length < 2 ^ 30) :
    (reverse.run clone v).Yields (reverse.Does clone s) := by
  refine quiet_does [] [] (Vec.reverse_holds h) rfl rfl ?_ (by grind)
  rw [List.append_nil]
  exact s.items.reverse_perm.symm

theorem retain_does (h : v.Holds s) (hn : s.items.length < 2 ^ 30) (keep : ℕ → α → Bool) :
    ((retain keep).run clone v).Yields ((retain keep).Does clone s) := by
  have hperm := Vec.kept_perm keep 0 s.items
  have hlen := hperm.length_eq
  rw [List.length_append] at hlen
  exact quiet_does [] _ (Vec.retain_holds h keep) rfl rfl hperm.symm (by omega)

theorem resize_does (h : v.Holds s) (hn : s.items.length < 2 ^ 30) (n : ℤ) (x : α)
    (hfit : (resize n x).Fits s.items.length) :
    ((resize n x).run clone v).Yields ((resize n x).Does clone s) := by
  obtain ⟨h0, hlt⟩ := hfit
  obtain ⟨n, rfl⟩ := Int.eq_ofNat_of_zero_le h0
  have hresize := Vec.resize_holds clone h (n := n) (by omega) x
  by_cases hle : n ≤ s.items.length
  · rw [if_pos hle] at hresize
    refine quiet_does [] (s.items.drop n ++ [x]) (l := s.items.take n) (hresize.mono fun w hw => ?_) rfl ?_ ?_ ?_
    · grind
    · exact if_pos (Int.ofNat_le.2 hle) |>.mpr rfl
    · show (x :: s.items).Perm (s.items.take n ++ (s.items.drop n ++ [x]))
      rw [← List.append_assoc, List.take_append_drop]
      exact (List.perm_append_singleton x s.items).symm
    grind
  · rw [if_neg hle] at hresize
    refine quiet_does (Vec.copies clone (n - (s.items.length + 1)) s.cloned.length x) [] hresize rfl ?_ ?_ ?_
    · exact if_neg (fun hc => hle (Int.ofNat_le.1 hc)) |>.mpr rfl
    · rw [List.append_nil]
      show (x :: (_ ++ s.items)).Perm (s.items ++ x :: _)
      exact (List.perm_append_comm.cons x).trans List.perm_middle.symm
    · rw [List.length_append, List.length_cons, Vec.length_copies]
      omega

theorem dedup_does (h : v.Holds s) (hn : s.items.length < 2 ^ 30) (eq : α → α → Bool) :
    ((dedup eq).run clone v).Yields ((dedup eq).Does clone s) := by
  have hperm : (Vec.dedupKept eq s.items ++ Vec.dedupGone eq s.items).Perm s.items := by
    cases s.items with
    | nil => exact .nil
    | cons x l => exact (Vec.uniq_perm eq x l).cons x
  have hlen := hperm.length_eq
  rw [List.length_append] at hlen
  exact quiet_does [] _ (Vec.dedup_holds h eq) rfl rfl hperm.symm (by omega)

theorem fill_does (h : v.Holds s) (hn : s.items.length < 2 ^ 30) (x : α) :
    ((fill x).run clone v).Yields ((fill x).Does clone s) := by
  refine quiet_does (Vec.clonesOf clone s.cloned.length (List.replicate s.items.length x)) (s.items ++ [x])
    ((Vec.fill_holds h x).mono fun w hw => ?_) rfl rfl ?_ ?_
  · grind
  · show (x :: (_ ++ s.items)).Perm (_ ++ (s.items ++ [x]))
    rw [← List.append_assoc]
    exact (List.perm_append_singleton x _).symm
  · rw [Vec.length_clonesOf, List.length_replicate]
    exact hn

theorem extend_does {src : Vec α} (h : v.Holds s) (hfit : (extend src t).Fits s.items.length) :
    ((extend src t).run clone v).Yields ((extend src t).Does clone s) := by
  obtain ⟨hsrc, hlt⟩ := hfit
  refine quiet_does _ [] (Vec.extend_holds h hsrc (Nat.le_of_lt hlt)) rfl rfl ?_ ?_
  · rw [List.append_nil]
    show (_ ++ s.items).Perm (s.items ++ _)
    exact List.perm_append_comm
  · rw [List.length_append, Vec.length_clonesOf]
    exact hlt

theorem sortBy_does (h : v.Holds s) (hn : s.items.length < 2 ^ 30) (cmp : ℕ → α → α → ℤ) :
    ((sortBy cmp).run clone v).Yields ((sortBy cmp).Does clone s) := by
  obtain ⟨w, hw, _, l, hp, hle, hholds⟩ := Vec.sortBy_holds cmp h hn
  have hsorted := Vec.stablySorted hp hle
  refine quiet_does [] [] (l := l) ⟨w, hw, hholds⟩ rfl hsorted ?_ (by rw [hsorted.perm.length_eq]; exact hn)
  rw [List.append_nil]
  exact hsorted.perm.symm

theorem run_does (h : v.Holds s) (hn : s.items.length < 2 ^ 30) (op : VecOp α) (hfit : op.Fits s.items.length) :
    (op.run clone v).Yields (op.Does clone s) := by
  cases op with
  | push x => exact push_does h x hfit
  | insert i x => exact insert_does h i x hfit
  | pop => exact pop_does h hn
  | remove i => exact remove_does h hn i hfit
  | truncate n => exact truncate_does h hn n hfit
  | clear => exact clear_does h
  | set i x => exact set_does h hn i x hfit
  | swap i j => exact swap_does h hn i j hfit
  | reverse => exact reverse_does h hn
  | resize n x => exact resize_does h hn n x hfit
  | retain keep => exact retain_does h hn keep
  | dedup eq => exact dedup_does h hn eq
  | fill x => exact fill_does h hn x
  | swapRemove i => exact swapRemove_does h hn i hfit
  | extend src t => exact extend_does h hfit
  | sortBy cmp => exact sortBy_does h hn cmp

end VecOp

/-- A `Vec` with the elements that were moved in since it was empty and those that were handed back, the last ones
first. -/
structure Ledger (α : Type) where
  vec : Vec α
  given : List α
  taken : List α

namespace Ledger

variable {α : Type} {clone : ℕ → α → α} {s t : Ledger α}

def start : Ledger α := ⟨.empty, [], []⟩

/-- One call, with arguments in range. -/
def Step (clone : ℕ → α → α) (s : Ledger α) (op : VecOp α) (t : Ledger α) : Prop :=
  op.Fits s.vec.len ∧ ∃ out v, op.run clone s.vec = .ok (out, v) ∧ t = ⟨v, op.given ++ s.given, out ++ s.taken⟩

/-- The cells in front are those that are occupied, they hold `l`, and every element that was moved in or cloned is
there, was handed back once, or was destroyed once. -/
structure Sound (s : Ledger α) (l : List α) : Prop where
  data : s.vec.data = full l ++ vacant (s.vec.cap - l.length)
  len : s.vec.len = l.length
  room : l.length ≤ s.vec.cap
  bound : l.length < 2 ^ 30
  accounts : (s.given ++ s.vec.cloned).Perm (l ++ (s.taken ++ s.vec.gone))

theorem Sound.holds {l : List α} (h : s.Sound l) : s.vec.Holds ⟨l, s.vec.cloned, s.vec.gone⟩ :=
  ⟨h.data, h.len, h.room, rfl, rfl⟩

variable (clone) in
theorem Sound.call {l : List α} (h : s.Sound l) {op : VecOp α} (hfit : op.Fits l.length) :
    (op.run clone s.vec).Yields fun r => r.1 = op.taken l ∧ ∃ l', op.OnList clone s.vec.cloned.length l l' ∧
      Sound ⟨r.2, op.given ++ s.given, r.1 ++ s.taken⟩ l' := by
  refine (VecOp.run_does h.holds h.bound op hfit).mono ?_
  rintro ⟨out, v⟩ ⟨t, hv, hout, hlist, hacc, hlt⟩
  refine ⟨hout, t.items, hlist, hv.data, hv.len, hv.room, hlt, ?_⟩
  have hcloned : v.cloned = t.cloned := hv.cloned
  have hgone : v.gone = t.gone := hv.gone
  classical
  refine List.perm_iff_count.2 fun a => ?_
  have hold := List.perm_iff_count.1 h.accounts a
  have hnew := List.perm_iff_count.1 hacc a
  grind

theorem Step.sound {l : List α} {op : VecOp α} (h : s.Sound l) (hs : Step clone s op t) : ∃ l', t.Sound l' := by
  obtain ⟨hfit, out, v, hrun, rfl⟩ := hs
  obtain ⟨r, hr, -, l', -, hl'⟩ := h.call clone (h.len ▸ hfit)
  grind

end Ledger

end LsLang.Core
