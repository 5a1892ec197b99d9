import LsLang.Sci.Shaped
import Mathlib.Algebra.BigOperators.Group.Finset.Basic
import Mathlib.Data.List.GetD
import Mathlib.Order.Bounds.Basic

/-! `sum_axis` and `max_axis`: the elements of a slot are those whose multi-index agrees with its own off the axis. -/

namespace LsLang.Sci

open LsLang.Core LsLang.Lib LsLang.Lib.RowMajor LsLang.Undefined LsLang.Undefined.Res

section Across

variable {T : Type} {t out : Tensor T} {shape ix : List ℕ} {axis i a : ℕ}

theorem dropAxis_ok (hrank : shape.length ≤ 2 ^ 30) (axis : ℕ) : dropAxis shape axis = .ok (shape.eraseIdx axis) := by
  have hloop := forFrom_yields (b := fun k osh =>
      if k ≠ axis then do
        let d ← load shape k
        vecPush d osh
      else pure osh)
    (I := fun k osh => osh = (shape.take k).eraseIdx axis) (i := 0) (n := shape.length) (s := []) ?_ rfl
  · obtain ⟨osh, hosh, rfl⟩ := hloop
    rw [Nat.zero_add, List.take_length] at hosh
    exact hosh
  · rintro k osh - hk rfl
    rw [Nat.zero_add] at hk
    have htake : shape.take (k + 1) = shape.take k ++ [shape[k]] := List.take_succ_eq_append_getElem hk
    have hlen : (shape.take k).length = k := List.length_take_of_le hk.le
    by_cases hax : k = axis
    · subst hax
      rw [if_neg (not_not_intro rfl), htake, List.eraseIdx_append_of_length_le hlen.le, hlen, Nat.sub_self,
        List.eraseIdx_of_length_le hlen.le]
      exact yields_pure.2 (List.append_nil _).symm
    · have hle := List.length_eraseIdx_le (shape.take k) axis
      obtain ⟨osh, hosh, rfl⟩ := (vecPush_exactly shape[k] ((shape.take k).eraseIdx axis)).returns (by omega)
      rw [if_pos hax, load_getElem hk, ok_bind, hosh, htake]
      grind [List.eraseIdx_append_of_length_le, List.eraseIdx_of_length_le, List.eraseIdx_append_of_lt_length, yields_ok]

def across (shape : List ℕ) (axis i : ℕ) : ℕ := flat (shape.eraseIdx axis) ((unflat shape i).eraseIdx axis)

theorem across_lt {d : ℕ} (hi : i < shape.prod) : across shape d i < (shape.eraseIdx d).prod :=
  flat_lt ((isIndex_unflat hi).eraseIdx d)

theorem across_insert (hix : IsIndex ix (shape.eraseIdx axis)) (hax : axis < shape.length) (ha : a < shape[axis]) :
    across shape axis (flat shape (ix.insertIdx axis a)) = flat (shape.eraseIdx axis) ix := by
  rw [across, unflat_flat (hix.insertIdx hax ha), List.eraseIdx_insertIdx_self]

theorem across_eq_iff (hix : IsIndex ix (shape.eraseIdx axis)) (hax : axis < shape.length) :
    i < shape.prod ∧ across shape axis i = flat (shape.eraseIdx axis) ix ↔
      ∃ a < shape[axis], flat shape (ix.insertIdx axis a) = i := by
  constructor
  · rintro ⟨hi, heq⟩
    have hindex := isIndex_unflat hi
    have hlen : axis < (unflat shape i).length := by rwa [hindex.length_eq]
    have hrest := flat_inj (hindex.eraseIdx axis) hix heq
    refine ⟨(unflat shape i)[axis], List.Forall₂.get hindex hlen hax, ?_⟩
    rw [← hrest, List.insertIdx_eraseIdx_getElem, flat_unflat hi]
  · rintro ⟨a, ha, rfl⟩
    exact ⟨flat_lt (hix.insertIdx hax ha), across_insert hix hax ha⟩

theorem outflat_ok (hax : axis < t.shape.length) (hstr : out.strides = strides (t.shape.eraseIdx axis))
    (hfits : SetupFits (t.shape.eraseIdx axis)) (hi : i < t.shape.prod) :
    outflat t out axis i = .ok (across t.shape axis i) := by
  have hindex := isIndex_unflat hi
  have hlen : (strides (t.shape.eraseIdx axis)).length = t.shape.length - 1 := by
    rw [length_strides, List.length_eraseIdx_of_lt hax]
  have hdot : dot ((strides (t.shape.eraseIdx axis)).insertIdx axis 0) (unflat t.shape i) = across t.shape axis i := by
    rw [dot_insertIdx_zero (by rwa [hindex.length_eq]) (by omega), across, flat_eq_dot]
  have hlt := across_lt (d := axis) hi
  have hprod := hfits.prod_lt
  rw [← hdot]
  refine decode_dot hi ?_ hindex.length_eq (by omega) fun k idx w j off hidx hw hj hoff => ?_
  · grind
  · rw [hidx] at hj
    obtain rfl := Option.some.inj hj
    rw [List.getElem?_insertIdx] at hw
    by_cases hk : k = axis
    · rw [if_neg (by omega), if_pos hk, if_pos (by omega)] at hw
      obtain rfl := Option.some.inj hw
      rw [if_neg (not_not_intro hk)]
      rfl
    · have hload : out.strides[if k > axis then k - 1 else k]? = some w := by grind
      rw [if_pos hk]
      dsimp only
      rw [load_ok hload, ok_bind, addOffset_ok hoff]

end Across

section Tabulated

variable {α : Type} {f g : ℕ → α} {n k : ℕ}

theorem peek_tabulate (hk : k < n) : (Cells.full ((List.range n).map f)).peek k = .ok (f k) :=
  Cells.peek_eq (by rw [Cells.get_full, List.getElem?_map, List.getElem?_range hk]; rfl)

theorem set_tabulate (h : ∀ o < n, o ≠ k → g o = f o) : ((List.range n).map f).set k (g k) = (List.range n).map g := by
  apply List.ext_getElem
  · grind
  grind

theorem overwrite_tabulate (hk : k < n) (h : ∀ o < n, o ≠ k → g o = f o) :
    overwrite (Cells.full ((List.range n).map f)) k (g k) = .ok (Cells.full ((List.range n).map g)) := by
  rw [overwrite_ok (by simpa using hk), Cells.set_full, set_tabulate h]

end Tabulated

section Sums

variable {T : Type} [AddCommMonoid T] {t : Tensor T} {axis i o : ℕ} {ix : List ℕ}

/-- What a slot holds after the first `n` elements. -/
def partialSum (t : Tensor T) (axis n o : ℕ) : T :=
  ∑ j ∈ Finset.range n with across t.shape axis j = o, t.data.getD j 0

theorem partialSum_succ (t : Tensor T) (axis i o : ℕ) : partialSum t axis (i + 1) o =
    partialSum t axis i o + if across t.shape axis i = o then t.data.getD i 0 else 0 := by
  rw [partialSum, partialSum, Finset.sum_filter, Finset.sum_filter, Finset.sum_range_succ]

theorem sumSlot_ok (ht : t.Proper) (hax : axis < t.shape.length) {out : Tensor T}
    (hstr : out.strides = strides (t.shape.eraseIdx axis)) (hfits : SetupFits (t.shape.eraseIdx axis))
    (hi : i < t.shape.prod) :
    sumSlot t out axis i (Cells.full ((List.range (t.shape.eraseIdx axis).prod).map (partialSum t axis i))) =
      .ok (Cells.full ((List.range (t.shape.eraseIdx axis).prod).map (partialSum t axis (i + 1)))) := by
  have hlt := across_lt (d := axis) hi
  have hdata : i < t.data.length := by rwa [ht.data]
  have hvalue : t.data.getD i 0 = t.data[i] := List.getD_eq_getElem _ _ hdata
  have hsum : partialSum t axis i (across t.shape axis i) + t.data[i] =
      partialSum t axis (i + 1) (across t.shape axis i) := by
    rw [partialSum_succ, if_pos rfl, hvalue]
  unfold sumSlot
  rw [outflat_ok hax hstr hfits hi, ok_bind, peek_tabulate hlt, ok_bind, load_getElem hdata, ok_bind, hsum]
  refine overwrite_tabulate hlt fun o _ hne => ?_
  rw [partialSum_succ, if_neg (Ne.symm hne), add_zero]

theorem partialSum_all (hix : IsIndex ix (t.shape.eraseIdx axis)) (hax : axis < t.shape.length) :
    partialSum t axis t.shape.prod (flat (t.shape.eraseIdx axis) ix) =
      ∑ a ∈ Finset.range t.shape[axis], t.val (ix.insertIdx axis a) := by
  have hfibre : (Finset.range t.shape.prod).filter (across t.shape axis · = flat (t.shape.eraseIdx axis) ix) =
      (Finset.range t.shape[axis]).image fun a => flat t.shape (ix.insertIdx axis a) := by
    ext i
    rw [Finset.mem_filter, Finset.mem_range, Finset.mem_image, across_eq_iff hix hax]
    grind
  rw [partialSum, hfibre, Finset.sum_image]
  · rfl
  · intro a ha b hb heq
    have hindex := hix.insertIdx hax (Finset.mem_range.1 ha)
    have hsame := flat_inj hindex (hix.insertIdx hax (Finset.mem_range.1 hb)) heq
    have hle : axis ≤ ix.length := by
      rw [hix.length_eq, List.length_eraseIdx_of_lt hax]
      omega
    have hget := congrArg (·[axis]?) hsame
    grind

theorem sum_map_range (f : ℕ → T) (n : ℕ) : ((List.range n).map f).sum = ∑ i ∈ Finset.range n, f i := by
  exact (Multiset.sum_coe _).symm

theorem sum_partialSum (ht : t.Proper) :
    ((List.range (t.shape.eraseIdx axis).prod).map (partialSum t axis t.shape.prod)).sum = t.data.sum := by
  have hdata : t.data = (List.range t.shape.prod).map fun j => t.data.getD j 0 := by
    apply List.ext_getElem
    · rw [ht.data, List.length_map, List.length_range]
    grind
  have hmaps : ∀ j ∈ Finset.range t.shape.prod, across t.shape axis j ∈ Finset.range (t.shape.eraseIdx axis).prod :=
    fun j hj => Finset.mem_range.2 (across_lt (Finset.mem_range.1 hj))
  rw [sum_map_range]
  conv_rhs => rw [hdata, sum_map_range]
  exact Finset.sum_fiberwise_of_maps_to hmaps _

/-- What `sum_axis` is for. -/
structure SumsOver (t : Tensor T) (axis : Fin t.shape.length) (out : Tensor T) : Prop where
  proper : out.Proper
  shape : out.shape = t.shape.eraseIdx axis
  val : ∀ ix, IsIndex ix out.shape → out.val ix = ∑ a ∈ Finset.range t.shape[axis], t.val (ix.insertIdx axis a)
  total : out.data.sum = t.data.sum

theorem sumAxis_exactly (ht : t.Proper) (axis : Fin t.shape.length) :
    (sumAxis t (axis : ℕ)).Exactly (SetupFits (t.shape.eraseIdx axis)) (SumsOver t axis) := by
  have hvalid : ¬((axis : ℤ) < 0 ∨ (t.shape.length : ℤ) ≤ (axis : ℕ)) := by omega
  unfold sumAxis
  rw [if_neg hvalid, Int.toNat_natCast, dropAxis_ok ht.setup.rank, ok_bind]
  refine ⟨fun hfits => ?_, fun r hr => ?_⟩
  · obtain ⟨out, hout, rfl⟩ := (setup_exactly (T := T) (t.shape.eraseIdx axis)).returns hfits
    have hzero : (fun _ => 0) = partialSum t axis 0 := by
      funext o
      rfl
    have hfill := fill_ok (b := fun zz p => p.store zz 0) (f := partialSum t axis 0)
      (n := (t.shape.eraseIdx axis).prod) fun i _ p => by rw [← hzero]
    obtain ⟨p, hp, rfl⟩ := forFrom_yields (i := 0) (n := t.shape.prod)
      (b := sumSlot t ⟨[], t.shape.eraseIdx axis, strides (t.shape.eraseIdx axis), (t.shape.eraseIdx axis).prod⟩ axis)
      (I := fun i p => p = Cells.full ((List.range (t.shape.eraseIdx axis).prod).map (partialSum t axis i)))
      (fun i p _ hi hp => by grind [yields_ok, sumSlot_ok]) rfl
    rw [hout, ok_bind]
    dsimp only
    rw [hfill, ok_bind, ht.size, hp, ok_bind, Nat.zero_add, Cells.elems_full]
    refine yields_ok.2 ⟨proper_tabulate hfits _, rfl, fun ix hix => ?_, sum_partialSum ht⟩
    rw [val_tabulate _ hix]
    exact partialSum_all hix axis.isLt
  · obtain ⟨out, hout, -⟩ := Res.bind_ok hr
    exact (setup_exactly (t.shape.eraseIdx axis)).only out hout

end Sums

section Maxima

variable {T : Type} [Zero T] {t : Tensor T} {axis i o : ℕ} {ix : List ℕ}

def Among (t : Tensor T) (axis n o : ℕ) : Set T := {x | ∃ j < n, across t.shape axis j = o ∧ t.data.getD j 0 = x}

theorem among_succ_self : Among t axis (i + 1) (across t.shape axis i) =
    insert (t.data.getD i 0) (Among t axis i (across t.shape axis i)) := by
  ext x
  constructor
  · rintro ⟨j, hj, hacross, rfl⟩
    obtain hlt | rfl := Nat.lt_succ_iff_lt_or_eq.1 hj
    · exact .inr ⟨j, hlt, hacross, rfl⟩
    · exact .inl rfl
  · rintro (rfl | ⟨j, hj, hacross, rfl⟩)
    · exact ⟨i, Nat.lt_succ_self i, rfl, rfl⟩
    · exact ⟨j, Nat.lt_succ_of_lt hj, hacross, rfl⟩

theorem among_succ_of_ne (h : across t.shape axis i ≠ o) : Among t axis (i + 1) o = Among t axis i o := by
  ext x
  constructor
  · rintro ⟨j, hj, hacross, rfl⟩
    obtain hlt | rfl := Nat.lt_succ_iff_lt_or_eq.1 hj
    · exact ⟨j, hlt, hacross, rfl⟩
    · exact absurd hacross h
  · rintro ⟨j, hj, hacross, rfl⟩
    exact ⟨j, Nat.lt_succ_of_lt hj, hacross, rfl⟩

theorem among_all (hix : IsIndex ix (t.shape.eraseIdx axis)) (hax : axis < t.shape.length) :
    Among t axis t.shape.prod (flat (t.shape.eraseIdx axis) ix) =
      {x | ∃ a < t.shape[axis], t.val (ix.insertIdx axis a) = x} := by
  ext x
  constructor
  · rintro ⟨j, hj, hacross, rfl⟩
    obtain ⟨a, ha, rfl⟩ := (across_eq_iff hix hax).1 ⟨hj, hacross⟩
    exact ⟨a, ha, rfl⟩
  · rintro ⟨a, ha, rfl⟩
    obtain ⟨hlt, hacross⟩ := (across_eq_iff hix hax).2 ⟨a, ha, rfl⟩
    exact ⟨_, hlt, hacross, rfl⟩

variable [LinearOrder T]

def best (t : Tensor T) (axis : ℕ) : ℕ → ℕ → Option T
  | 0, _ => none
  | i + 1, o =>
    if across t.shape axis i = o then
      match best t axis i o with
      | some m => some (if t.data.getD i 0 > m then t.data.getD i 0 else m)
      | none => some (t.data.getD i 0)
    else best t axis i o

theorem best_spec (t : Tensor T) (axis i o : ℕ) :
    match best t axis i o with
    | some m => IsGreatest (Among t axis i o) m
    | none => Among t axis i o = ∅ := by
  induction i with
  | zero => exact Set.eq_empty_of_forall_notMem fun x ⟨j, hj, _⟩ => Nat.not_lt_zero j hj
  | succ i ih =>
    unfold best
    by_cases h : across t.shape axis i = o
    · subst h
      rw [if_pos rfl, among_succ_self]
      cases hbest : best t axis i (across t.shape axis i) with
      | none =>
        grind [isGreatest_singleton, insert_empty_eq]
      | some m =>
        rw [hbest] at ih
        dsimp only at ih ⊢
        have hmax := ih.insert (t.data.getD i 0)
        grind
    · rw [if_neg h, among_succ_of_ne h]
      exact ih

def maxState (t : Tensor T) (axis total i : ℕ) : MaxState T :=
  ⟨(List.range total).map fun o => (best t axis i o).isSome,
    Cells.full ((List.range total).map fun o => (best t axis i o).getD 0)⟩

theorem maxSlot_ok (ht : t.Proper) (hax : axis < t.shape.length) {out : Tensor T}
    (hstr : out.strides = strides (t.shape.eraseIdx axis)) (hfits : SetupFits (t.shape.eraseIdx axis))
    (hi : i < t.shape.prod) :
    maxSlot t out axis i (maxState t axis (t.shape.eraseIdx axis).prod i) =
      .ok (maxState t axis (t.shape.eraseIdx axis).prod (i + 1)) := by
  have hlt := across_lt (d := axis) hi
  have hdata : i < t.data.length := by rwa [ht.data]
  have hvalue : t.data.getD i 0 = t.data[i] := List.getD_eq_getElem _ _ hdata
  -- the other slots keep their maximum
  have hother : ∀ o, o ≠ across t.shape axis i → best t axis (i + 1) o = best t axis i o := by
    intro o hne
    rw [best, if_neg (Ne.symm hne)]
  have hself : best t axis (i + 1) (across t.shape axis i) =
      match best t axis i (across t.shape axis i) with
      | some m => some (if t.data[i] > m then t.data[i] else m)
      | none => some t.data[i] := by
    rw [best, if_pos rfl, hvalue]
  have hload : load (maxState t axis (t.shape.eraseIdx axis).prod i).seen (across t.shape axis i) =
      .ok (best t axis i (across t.shape axis i)).isSome := by
    refine load_ok ?_
    rw [maxState, List.getElem?_map, List.getElem?_range hlt]
    rfl
  have hpeek := peek_tabulate (f := fun o => (best t axis i o).getD 0) hlt
  have hwrite := overwrite_tabulate (f := fun o => (best t axis i o).getD 0)
    (g := fun o => (best t axis (i + 1) o).getD 0) hlt fun o _ hne => by rw [hother o hne]
  have hset := set_tabulate (f := fun o => (best t axis i o).isSome) (g := fun o => (best t axis (i + 1) o).isSome)
    (n := (t.shape.eraseIdx axis).prod) (k := across t.shape axis i) fun o _ hne => by rw [hother o hne]
  unfold maxSlot
  rw [outflat_ok hax hstr hfits hi, ok_bind, load_getElem hdata, ok_bind, hload, ok_bind]
  cases hbest : best t axis i (across t.shape axis i) with
  | none =>
    rw [hbest] at hself
    dsimp only at hself hwrite hset
    rw [hself] at hwrite hset
    exact (congrArg (· >>= _) hwrite).trans (congrArg (fun seen => Res.ok (MaxState.mk seen _)) hset)
  | some m =>
    rw [hbest] at hself
    change ((maxState t axis _ i).p.peek _ >>= _) = _
    rw [hbest] at hpeek
    dsimp only [maxState] at hself hwrite hpeek ⊢
    rw [hpeek, ok_bind, Option.getD_some]
    have hseen : ((List.range (t.shape.eraseIdx axis).prod).map fun o => (best t axis i o).isSome) =
        (List.range (t.shape.eraseIdx axis).prod).map fun o => (best t axis (i + 1) o).isSome := by
      grind
    by_cases hgt : t.data[i] > m
    · rw [if_pos hgt] at hself ⊢
      rw [hself] at hwrite
      rw [← hseen]
      exact congrArg (· >>= _) hwrite
    · rw [if_neg hgt] at hself ⊢
      rw [← hseen]
      have hsame : (fun o => (best t axis (i + 1) o).getD 0) = fun o => (best t axis i o).getD 0 := by
        grind
      rw [hsame]
      rfl

theorem maxInit_exactly (t : Tensor T) (axis total : ℕ) :
    (forFrom (fun zz (s : MaxState T) => do
      let seen ← vecPush false s.seen
      let p ← s.p.store zz 0
      pure ⟨seen, p⟩) 0 total ⟨[], Cells.vacant total⟩).Exactly (total ≤ 2 ^ 30) (· = maxState t axis total 0) := by
  have hloop := Exactly.forFrom (b := fun zz (s : MaxState T) => do
      let seen ← vecPush false s.seen
      let p ← s.p.store zz 0
      pure ⟨seen, p⟩)
    (I := fun k s => s = ⟨(List.range k).map fun _ => false,
      Cells.full ((List.range k).map fun _ => (0 : T)) ++ Cells.vacant (total - k)⟩)
    (c := fun k => k + 1 ≤ 2 ^ 30) (i := 0) (n := total) (s := ⟨[], Cells.vacant total⟩) ?_ rfl
  · rw [Nat.zero_add, Nat.sub_self, Cells.vacant_zero, List.append_nil] at hloop
    refine hloop.congr ⟨fun h => ?_, fun h k _ hk => by omega⟩
    grind
  · rintro k s - hk rfl
    have hpush := vecPush_exactly false ((List.range k).map fun _ => false)
    rw [List.length_map, List.length_range] at hpush
    have hvacant : total - k = total - (k + 1) + 1 := by omega
    refine (hpush.bind (d := True) fun seen hseen => ?_).congr (and_iff_left trivial)
    dsimp only
    rw [hvacant, Cells.vacant_succ, Cells.store_at (by simp), ok_bind, hseen, List.range_succ, List.map_append,
      List.map_append, Cells.full_append, List.append_assoc]
    exact .ok rfl

/-- What `max_axis` is for. Over an axis without coordinates, the slots keep their zero. -/
structure MaxOver (t : Tensor T) (axis : Fin t.shape.length) (out : Tensor T) : Prop where
  proper : out.Proper
  shape : out.shape = t.shape.eraseIdx axis
  val : ∀ ix, IsIndex ix out.shape → 0 < t.shape[axis] →
    IsGreatest {x | ∃ a < t.shape[axis], t.val (ix.insertIdx axis a) = x} (out.val ix)
  none : ∀ ix, IsIndex ix out.shape → t.shape[axis] = 0 → out.val ix = 0

theorem best_all (hix : IsIndex ix (t.shape.eraseIdx axis)) (hax : axis < t.shape.length) :
    (0 < t.shape[axis] → IsGreatest {x | ∃ a < t.shape[axis], t.val (ix.insertIdx axis a) = x}
      ((best t axis t.shape.prod (flat (t.shape.eraseIdx axis) ix)).getD 0)) ∧
    (t.shape[axis] = 0 → (best t axis t.shape.prod (flat (t.shape.eraseIdx axis) ix)).getD 0 = 0) := by
  have hspec := best_spec t axis t.shape.prod (flat (t.shape.eraseIdx axis) ix)
  rw [among_all hix hax] at hspec
  cases hbest : best t axis t.shape.prod (flat (t.shape.eraseIdx axis) ix) with
  | none =>
    rw [hbest] at hspec
    dsimp only at hspec
    refine ⟨fun hpos => ?_, fun _ => rfl⟩
    have hmem : t.val (ix.insertIdx axis 0) ∈ (∅ : Set T) := by grind
    grind
  | some m =>
    rw [hbest] at hspec
    refine ⟨fun _ => hspec, fun hzero => ?_⟩
    obtain ⟨a, ha, -⟩ := hspec.1
    omega

theorem maxAxis_exactly (ht : t.Proper) (axis : Fin t.shape.length) :
    (maxAxis t (axis : ℕ)).Exactly (SetupFits (t.shape.eraseIdx axis) ∧ (t.shape.eraseIdx axis).prod ≤ 2 ^ 30)
      (MaxOver t axis) := by
  have hvalid : ¬((axis : ℤ) < 0 ∨ (t.shape.length : ℤ) ≤ (axis : ℕ)) := by omega
  unfold maxAxis
  rw [if_neg hvalid, Int.toNat_natCast, dropAxis_ok ht.setup.rank, ok_bind]
  by_cases hfits : SetupFits (t.shape.eraseIdx axis)
  · obtain ⟨out, hout, rfl⟩ := (setup_exactly (T := T) (t.shape.eraseIdx axis)).returns hfits
    rw [hout, ok_bind]
    refine ((maxInit_exactly t axis (t.shape.eraseIdx axis).prod).bind (d := True) fun s hs => ?_).congr
      (by grind)
    obtain ⟨r, hr, rfl⟩ := forFrom_yields (i := 0) (n := t.shape.prod)
      (b := maxSlot t ⟨[], t.shape.eraseIdx axis, strides (t.shape.eraseIdx axis), (t.shape.eraseIdx axis).prod⟩ axis)
      (I := fun i s => s = maxState t axis (t.shape.eraseIdx axis).prod i)
      (fun i s _ hi hs => by grind [yields_ok, maxSlot_ok]) hs
    dsimp only
    rw [ht.size, hr, ok_bind, Nat.zero_add, maxState, Cells.elems_full]
    refine .ok ⟨proper_tabulate hfits _, rfl, fun ix hix hpos => ?_, fun ix hix hzero => ?_⟩
    · rw [val_tabulate _ hix]
      exact (best_all hix axis.isLt).1 hpos
    · rw [val_tabulate _ hix]
      exact (best_all hix axis.isLt).2 hzero
  · refine ⟨fun h => absurd h.1 hfits, fun r hr => ?_⟩
    obtain ⟨out, hout, -⟩ := Res.bind_ok hr
    exact absurd ((setup_exactly (t.shape.eraseIdx axis)).only out hout) hfits

end Maxima

end LsLang.Sci
