import LsLang.Sci.Reduce
import Mathlib.Algebra.Order.BigOperators.Group.List

/-! The operations on the axes of a tensor, each against the multi-indices that its result is made of. -/

namespace LsLang.Sci

open LsLang.Core LsLang.Lib LsLang.Lib.RowMajor LsLang.Undefined LsLang.Undefined.Res

section Slice

theorem SetupFits.mono {shape dims : List ℕ} (h : SetupFits dims) (hle : List.Forall₂ (· ≤ ·) shape dims) :
    SetupFits shape where
  rank := hle.length_eq ▸ h.rank
  take k hk := (List.Forall₂.prod_le_prod' (List.forall₂_take (k + 1) hle)).trans_lt (h.take k (hle.length_eq ▸ hk))
  drop k hk := (List.Forall₂.prod_le_prod' (List.forall₂_drop k hle)).trans_lt (h.drop k (hle.length_eq ▸ hk))

theorem forall₂_set_le {dims : List ℕ} {k len : ℕ} (hk : k < dims.length) (hle : len ≤ dims[k]) :
    List.Forall₂ (· ≤ ·) (dims.set k len) dims := by
  induction dims generalizing k with
  | nil => grind
  | cons d ds ih =>
    cases k with
    | zero => exact .cons hle (List.forall₂_refl ds)
    | succ k => exact .cons le_rfl (ih (Nat.lt_of_succ_lt_succ hk) hle)

variable {T : Type} {t : Tensor T} {shape ix : List ℕ} {axis len lo i : ℕ}

theorem sliceShape_ok (hrank : shape.length ≤ 2 ^ 30) (axis len : ℕ) :
    sliceShape shape axis len = .ok (shape.set axis len) := by
  have hloop := forFrom_yields (b := fun k osh =>
      if k = axis then vecPush len osh
      else do
        let d ← load shape k
        vecPush d osh)
    (I := fun k osh => osh = (shape.set axis len).take k) (i := 0) (n := shape.length) (s := []) ?_ rfl
  · obtain ⟨osh, hosh, rfl⟩ := hloop
    rw [Nat.zero_add, List.take_of_length_le (by rw [List.length_set])] at hosh
    exact hosh
  · rintro k osh - hk rfl
    rw [Nat.zero_add] at hk
    have hk' : k < (shape.set axis len).length := by rwa [List.length_set]
    have hlen : ((shape.set axis len).take k).length = k := List.length_take_of_le hk'.le
    have htake : (shape.set axis len).take (k + 1) = (shape.set axis len).take k ++ [(shape.set axis len)[k]] :=
      List.take_succ_eq_append_getElem hk'
    obtain ⟨osh, hosh, rfl⟩ :=
      (vecPush_exactly (shape.set axis len)[k] ((shape.set axis len).take k)).returns (by omega)
    rw [htake]
    rw [List.getElem_set] at hosh ⊢
    by_cases hax : k = axis
    · rw [if_pos hax.symm] at hosh ⊢
      rw [if_pos hax, hosh]
      exact yields_ok.2 rfl
    · rw [if_neg (Ne.symm hax)] at hosh ⊢
      rw [if_neg hax, load_getElem hk, ok_bind, hosh]
      exact yields_ok.2 rfl

theorem sliceOffset_ok (ht : t.Proper) (hax : axis < t.shape.length) (hle : len + lo ≤ t.shape[axis])
    (hi : i < (t.shape.set axis len).prod) :
    sliceOffset t (t.shape.set axis len) axis lo i =
      .ok (flat t.shape ((unflat (t.shape.set axis len) i).modify axis (· + lo))) := by
  have hindex := (isIndex_unflat hi).modify hax hle
  have hlt := flat_lt hindex
  have hprod := ht.setup.prod_lt
  rw [flat_eq_dot] at hlt ⊢
  refine decode_dot hi (by rw [length_strides, List.length_set]) (by rw [hindex.length_eq, List.length_set])
    (by omega) fun k idx w j off hidx hw hj hoff => ?_
  have hcoord : (if k = axis then idx + lo else idx) = j := by grind
  have hbound : j < t.shape.prod := by
    obtain ⟨hjk, hj⟩ := List.getElem?_eq_some_iff.1 hj
    have hk : k < t.shape.length := hindex.length_eq ▸ hjk
    have hdim : j < t.shape[k] := hj ▸ List.Forall₂.get hindex hjk hk
    exact hdim.trans_le (Nat.le_of_dvd (by omega) (List.dvd_prod (List.getElem_mem hk)))
  rw [hcoord, asCount_ok (hbound.trans hprod), ok_bind, ht.strides, load_ok hw, ok_bind, addOffset_ok hoff]

variable [Zero T]

/-- What `slice` is for. -/
structure BoxOf (t : Tensor T) (axis lo len : ℕ) (out : Tensor T) : Prop where
  proper : out.Proper
  shape : out.shape = t.shape.set axis len
  val : ∀ ix, IsIndex ix out.shape → out.val ix = t.val (ix.modify axis (· + lo))

theorem slice_yields (ht : t.Proper) (hax : axis < t.shape.length) {hi : ℕ} (hlo : lo < hi) (hle : hi ≤ t.shape[axis]) :
    (slice t axis lo hi).Yields (BoxOf t axis lo (hi - lo)) := by
  have hvalid : ¬((axis : ℤ) < 0 ∨ (t.shape.length : ℤ) ≤ (axis : ℕ)) := by omega
  have hrange : ¬((lo : ℤ) < 0 ∨ (t.shape[axis] : ℤ) < hi ∨ (hi : ℤ) ≤ lo) := by omega
  have hfits : SetupFits (t.shape.set axis (hi - lo)) := ht.setup.mono (forall₂_set_le hax (by omega))
  obtain ⟨out, hout, rfl⟩ := (setup_exactly (T := T) (t.shape.set axis (hi - lo))).returns hfits
  have hslot : ∀ i < (t.shape.set axis (hi - lo)).prod, ∀ p, sliceSlot t (t.shape.set axis (hi - lo)) axis lo i p =
      p.store i (t.val ((unflat (t.shape.set axis (hi - lo)) i).modify axis (· + lo))) := by
    intro i hi p
    unfold sliceSlot
    rw [sliceOffset_ok ht hax (by omega) hi, ok_bind, ht.load_flat ((isIndex_unflat hi).modify hax (by omega)), ok_bind]
  unfold slice
  rw [if_neg hvalid, Int.toNat_natCast, load_getElem hax, ok_bind, if_neg hrange, Int.toNat_sub, Int.toNat_natCast,
    sliceShape_ok ht.setup.rank, ok_bind, hout, ok_bind]
  dsimp only
  rw [fill_ok hslot, ok_bind, Cells.elems_full]
  refine yields_ok.2 ⟨proper_tabulate hfits _, rfl, fun ix hix => ?_⟩
  rw [val_tabulate _ hix, unflat_flat hix]

end Slice

section Matrices

variable {T : Type} [Zero T] {t o : Tensor T} {m k n i j s0 s1 : ℕ}

theorem offset2_ok (h : i * s0 + j * s1 < 2 ^ 31) : offset2 s0 s1 i j = .ok (i * s0 + j * s1) := by
  unfold offset2
  grind [asCount_ok, ok_bind]

theorem isIndex_two : IsIndex [i, j] [m, n] ↔ i < m ∧ j < n := by
  constructor
  · rintro (_ | ⟨hi, _ | ⟨hj, _⟩⟩)
    exact ⟨hi, hj⟩
  · rintro ⟨hi, hj⟩
    exact .cons hi (.cons hj .nil)

theorem IsIndex.two {ix : List ℕ} (h : IsIndex ix [m, n]) : ∃ i j, ix = [i, j] ∧ i < m ∧ j < n := by
  obtain _ | ⟨hi, _ | ⟨hj, _ | _⟩⟩ := h
  grind

theorem flat_two : flat [m, n] [i, j] = i * n + j := by
  simp [flat]

theorem strides_two : strides [m, n] = [n, 1] := by
  simp [strides]

theorem load_two (ht : t.Proper) (hshape : t.shape = [m, n]) (hi : i < m) (hj : j < n) :
    (do
      let off ← offset2 n 1 i j
      load t.data off) = .ok (t.val [i, j]) := by
  have hindex : IsIndex [i, j] t.shape := hshape ▸ isIndex_two.2 ⟨hi, hj⟩
  have hlt := (flat_lt hindex).trans ht.setup.prod_lt
  have hload := ht.load_flat hindex
  rw [hshape, flat_two] at hlt hload
  rw [offset2_ok (by rwa [Nat.mul_one]), ok_bind, Nat.mul_one, hload]

theorem at2_ok (ht : t.Proper) (hshape : t.shape = [m, n]) (hi : i < m) (hj : j < n) : at2 t i j = .ok (t.val [i, j]) := by
  have hload := load_two ht hshape hi hj
  unfold at2 ckdim
  rw [ht.strides, hshape, strides_two]
  change (if i ≥ m then Res.fail else pure ()) >>= (fun _ => (if j ≥ n then Res.fail else pure ()) >>= _) = _
  rw [if_neg (not_le.2 hi), if_neg (not_le.2 hj)]
  exact hload

theorem cell_lt (hi : i < m) (hj : j < n) : j * m + i < n * m := by
  calc j * m + i < j * m + m := Nat.add_lt_add_left hi _
    _ = (j + 1) * m := (Nat.succ_mul j m).symm
    _ ≤ n * m := Nat.mul_le_mul_right m hj

theorem cell_div (hi : i < m) : (j * m + i) / m = j := by
  rw [Nat.mul_comm, Nat.mul_add_div (Nat.zero_lt_of_lt hi), Nat.div_eq_of_lt hi, Nat.add_zero]

theorem cell_of_slot {c : ℕ} (hc : c < n * m) : c % m < m ∧ c / m < n ∧ c / m * m + c % m = c := by
  have hpos : 0 < m := Nat.pos_of_ne_zero fun h0 => by simp [h0] at hc
  exact ⟨Nat.mod_lt c hpos, (Nat.div_lt_iff_lt_mul hpos).2 hc, Nat.div_add_mod' c m⟩

/-- What `transpose` is for. -/
structure TransposeOf (t out : Tensor T) : Prop where
  proper : out.Proper
  shape : out.shape = t.shape.reverse
  val : ∀ i j, IsIndex [i, j] t.shape → out.val [j, i] = t.val [i, j]

theorem SetupFits.swap (h : SetupFits [m, n]) : SetupFits [n, m] := by
  obtain ⟨hm, hn⟩ := h.two_lt
  rw [setupFits_two hn hm, Nat.mul_comm]
  exact (setupFits_two hm hn).1 h

theorem transpose_yields (ht : t.Proper) (hshape : t.shape = [m, n]) : (transpose t).Yields (TransposeOf t) := by
  have hfits : SetupFits [n, m] := (hshape ▸ ht.setup).swap
  have hlt := hfits.prod_lt
  obtain ⟨out, hout, rfl⟩ := (setup_exactly (T := T) [n, m]).returns hfits
  rw [prod_two] at hlt
  have hslot : ∀ i < m, ∀ j < n, ∀ p, transposeSlot t m i j p = p.store (j * m + i) (t.val [i, j]) := by
    intro i hi j hj p
    have hbound := cell_lt hi hj
    unfold transposeSlot
    grind [at2_ok, ok_bind, asCount_ok]
  have hgrid := grid_ok (b := fun i j p => transposeSlot t m i j p) (z := fun i j => j * m + i)
    (f := fun i j => t.val [i, j]) (r := (· % m)) (c := (· / m)) (m := m) (n := n) (k := n * m) hslot ?_ ?_
  · unfold transpose
    rw [hshape, if_neg (by exact not_not_intro rfl)]
    change (setup [n, m] >>= _).Yields _
    rw [hout, ok_bind]
    dsimp only
    rw [prod_two, hgrid, ok_bind, Cells.elems_full, ← prod_two]
    refine yields_ok.2 ⟨proper_tabulate hfits _, by rw [hshape]; rfl, fun i j hij => ?_⟩
    rw [hshape, isIndex_two] at hij
    rw [val_tabulate _ (isIndex_two.2 hij.symm), flat_two, Nat.mul_add_mod_of_lt hij.1, cell_div hij.1]
  · exact fun i hi j hj => ⟨cell_lt hi hj, Nat.mul_add_mod_of_lt hi, cell_div hi⟩
  · exact fun c hc => cell_of_slot hc

theorem Tensor.Proper.ext (ht : t.Proper) (ho : o.Proper) (hshape : t.shape = o.shape)
    (h : ∀ ix, IsIndex ix t.shape → t.val ix = o.val ix) : t = o := by
  have hdata : t.data = o.data := by
    apply List.ext_getElem
    · rw [ht.data, ho.data, hshape]
    · intro c hc hc'
      have hlt : c < t.shape.prod := ht.data ▸ hc
      have hval := h _ (isIndex_unflat hlt)
      rw [Tensor.val, Tensor.val, ← hshape, flat_unflat hlt, List.getD_eq_getElem _ _ hc, List.getD_eq_getElem _ _ hc']
        at hval
      exact hval
  have hstrides : t.strides = o.strides := by rw [ht.strides, ho.strides, hshape]
  have hsize : t.size = o.size := by rw [ht.size, ho.size, hshape]
  cases t
  cases o
  grind

theorem transpose_transpose {out : Tensor T} (ht : t.Proper) (hshape : t.shape = [m, n]) (hout : TransposeOf t out) :
    transpose out = .ok t := by
  have houtShape : out.shape = [n, m] := by rw [hout.shape, hshape]; rfl
  obtain ⟨back, hback, hspec⟩ := transpose_yields hout.proper houtShape
  have hbackShape : back.shape = t.shape := by rw [hspec.shape, hout.shape, List.reverse_reverse]
  rw [hback, hspec.proper.ext ht hbackShape fun ix hix => ?_]
  rw [hbackShape, hshape] at hix
  obtain ⟨i, j, rfl, hi, hj⟩ := IsIndex.two hix
  rw [hspec.val j i (houtShape ▸ isIndex_two.2 ⟨hj, hi⟩), hout.val i j (hshape ▸ isIndex_two.2 ⟨hi, hj⟩)]

end Matrices

section Product

variable {T : Type} [AddCommMonoid T] [Mul T] {t o : Tensor T} {m k n r cc : ℕ}

/-- What `matmul` is for. -/
structure ProductOf (t o : Tensor T) (m k n : ℕ) (out : Tensor T) : Prop where
  proper : out.Proper
  shape : out.shape = [m, n]
  val : ∀ i < m, ∀ j < n, out.val [i, j] = ∑ x ∈ Finset.range k, t.val [i, x] * o.val [x, j]

theorem matTerms_ok (ht : t.Proper) (ho : o.Proper) (hts : t.shape = [m, k]) (hos : o.shape = [k, n]) (hr : r < m)
    (hcc : cc < n) :
    forFrom (matTerm t o ⟨k, 1, n, 1⟩ r cc) 0 k 0 = .ok (∑ x ∈ Finset.range k, t.val [r, x] * o.val [x, cc]) := by
  have hloop := forFrom_yields (b := matTerm t o ⟨k, 1, n, 1⟩ r cc)
    (I := fun i acc => acc = ∑ x ∈ Finset.range i, t.val [r, x] * o.val [x, cc]) (i := 0) (n := k) (s := 0) ?_ rfl
  · obtain ⟨acc, hacc, rfl⟩ := hloop
    rw [hacc, Nat.zero_add]
  · rintro x acc - hx rfl
    rw [Nat.zero_add] at hx
    obtain ⟨oa, hoa, hav⟩ := Res.bind_ok (load_two ht hts hr hx)
    obtain ⟨ob, hob, hbv⟩ := Res.bind_ok (load_two ho hos hx hcc)
    unfold matTerm
    dsimp only
    rw [hoa, ok_bind, hav, ok_bind, hob, ok_bind, hbv, ok_bind]
    exact yields_pure.2 (Finset.sum_range_succ _ x).symm

theorem matmul_exactly (ht : t.Proper) (ho : o.Proper) (hts : t.shape = [m, k]) (hos : o.shape = [k, n]) :
    (matmul t o).Exactly (m * n < 2 ^ 31) (ProductOf t o m k n) := by
  have hm : m < 2 ^ 31 := (hts ▸ ht.setup).two_lt.1
  have hn : n < 2 ^ 31 := (hos ▸ ho.setup).two_lt.2
  refine Exactly.congr ?_ (setupFits_two hm hn)
  unfold matmul
  rw [ht.strides, ho.strides, hts, hos, strides_two, strides_two, if_neg (by simp)]
  change (if k ≠ k then Res.fail else setup [m, n] >>= _).Exactly _ _
  rw [if_neg (not_not_intro rfl)]
  refine ⟨fun hfits => ?_, fun r hr => ?_⟩
  · obtain ⟨out, hout, rfl⟩ := (setup_exactly (T := T) [m, n]).returns hfits
    have hlt := hfits.prod_lt
    rw [prod_two] at hlt
    have hslot : ∀ r < m, ∀ cc < n, ∀ p, matSlot t o ⟨k, 1, n, 1⟩ k n r cc p =
        p.store (r * n + cc) (∑ x ∈ Finset.range k, t.val [r, x] * o.val [x, cc]) := by
      intro r hr cc hcc p
      have hbound := cell_lt hcc hr
      unfold matSlot
      grind [matTerms_ok, ok_bind, asCount_ok]
    have hgrid := grid_ok (b := fun r cc p => matSlot t o ⟨k, 1, n, 1⟩ k n r cc p) (z := fun r cc => r * n + cc)
      (r := (· / n)) (c := (· % n)) (m := m) (n := n) (k := m * n) hslot
      (fun r hr cc hcc => ⟨cell_lt hcc hr, cell_div hcc, Nat.mul_add_mod_of_lt hcc⟩)
      (fun c hc => ⟨(cell_of_slot hc).2.1, (cell_of_slot hc).1, (cell_of_slot hc).2.2⟩)
    rw [hout, ok_bind]
    dsimp only
    rw [prod_two, hgrid, ok_bind, Cells.elems_full, ← prod_two]
    refine yields_ok.2 ⟨proper_tabulate hfits _, rfl, fun i hi j hj => ?_⟩
    rw [val_tabulate _ (isIndex_two.2 ⟨hi, hj⟩), flat_two, Nat.mul_add_mod_of_lt hj, cell_div hj]
  · obtain ⟨out, hout, -⟩ := Res.bind_ok hr
    exact (setup_exactly [m, n]).only out hout

end Product

section Calls

/-- A call with a valid axis, valid bounds or a matching partner. -/
inductive AxisCall (T : Type) where
  | sumAxis (t : Shaped T) (axis : Fin t.tensor.shape.length)
  | maxAxis (t : Shaped T) (axis : Fin t.tensor.shape.length)
  | slice (t : Shaped T) (axis : Fin t.tensor.shape.length) (lo hi : ℕ) (hlo : lo < hi) (hhi : hi ≤ t.tensor.shape[axis])
  | transpose (t : Shaped T) (m n : ℕ) (h : t.tensor.shape = [m, n])
  | matmul (t o : Shaped T) (m k n : ℕ) (ht : t.tensor.shape = [m, k]) (ho : o.tensor.shape = [k, n])

namespace AxisCall

variable {T : Type} [AddCommMonoid T] [Mul T] [LinearOrder T]

def run : AxisCall T → Res (Tensor T)
  | sumAxis t axis => Sci.sumAxis t.tensor (axis : ℕ)
  | maxAxis t axis => Sci.maxAxis t.tensor (axis : ℕ)
  | slice t axis lo hi _ _ => Sci.slice t.tensor (axis : ℕ) lo hi
  | transpose t _ _ _ => Sci.transpose t.tensor
  | matmul t o _ _ _ _ _ => Sci.matmul t.tensor o.tensor

/-- The result is the one that the multi-indices define. -/
def Defines : AxisCall T → Tensor T → Prop
  | sumAxis t axis, out => SumsOver t.tensor axis out
  | maxAxis t axis, out => MaxOver t.tensor axis out
  | slice t axis lo hi _ _, out => BoxOf t.tensor axis lo (hi - lo) out
  | transpose t _ _ _, out => TransposeOf t.tensor out ∧ Sci.transpose out = .ok t.tensor
  | matmul t o m k n _ _, out => ProductOf t.tensor o.tensor m k n out

/-- The result is within the range of the ints and of the `Vec` that the operation keeps. -/
def Fits : AxisCall T → Prop
  | sumAxis t axis => SetupFits (t.tensor.shape.eraseIdx axis)
  | maxAxis t axis => SetupFits (t.tensor.shape.eraseIdx axis) ∧ (t.tensor.shape.eraseIdx axis).prod ≤ 2 ^ 30
  | slice .. => True
  | transpose .. => True
  | matmul _ _ m _ n _ _ => m * n < 2 ^ 31

/-- An operation returns the tensor that the multi-indices define exactly if its result fits. -/
theorem defines_iff_fits (c : AxisCall T) : c.run.Yields c.Defines ↔ c.Fits := by
  cases c with
  | sumAxis t axis =>
    have hexactly := sumAxis_exactly t.proper axis
    exact ⟨fun ⟨out, hout, _⟩ => hexactly.only out hout, hexactly.returns⟩
  | maxAxis t axis =>
    have hexactly := maxAxis_exactly t.proper axis
    exact ⟨fun ⟨out, hout, _⟩ => hexactly.only out hout, hexactly.returns⟩
  | slice t axis lo hi hlo hhi => exact iff_of_true (slice_yields t.proper axis.isLt hlo hhi) trivial
  | transpose t m n h =>
    refine iff_of_true ((transpose_yields t.proper h).mono fun out hout => ?_) trivial
    exact ⟨hout, transpose_transpose t.proper h hout⟩
  | matmul t o m k n ht ho =>
    have hexactly := matmul_exactly t.proper o.proper ht ho
    exact ⟨fun ⟨out, hout, _⟩ => hexactly.only out hout, hexactly.returns⟩

/-- A column of 2^16 elements times a row of as many. -/
theorem not_defines : ¬ ∀ c : AxisCall ℤ, c.run.Yields c.Defines := by
  intro h
  have hcolumn : SetupFits [2 ^ 16, 1] := (setupFits_two (by norm_num) (by norm_num)).2 (by norm_num)
  have hrow : SetupFits [1, 2 ^ 16] := (setupFits_two (by norm_num) (by norm_num)).2 (by norm_num)
  have hproper := fun {shape} (hfits : SetupFits shape) => proper_tabulate hfits fun _ => (0 : ℤ)
  obtain ⟨out, hout, -⟩ := h (.matmul ⟨_, hproper hcolumn⟩ ⟨_, hproper hrow⟩ (2 ^ 16) 1 (2 ^ 16) rfl rfl)
  have hlt := (matmul_exactly (hproper hcolumn) (hproper hrow) rfl rfl).only out hout
  exact absurd hlt (by norm_num)

end AxisCall

end Calls

end LsLang.Sci
