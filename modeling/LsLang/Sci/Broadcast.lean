import Mathlib
import LsLang.Sci.Shaped

/-! Broadcasting: what the binary operations of a tensor compute on operands of different shapes. -/

namespace LsLang.Sci

open LsLang.Core LsLang.Lib LsLang.Lib.RowMajor LsLang.Undefined LsLang.Undefined.Res

section Shapes

def padLeft (r : ℕ) (dims : List ℕ) : List ℕ := List.replicate (r - dims.length) 1 ++ dims

def Compatible (da db : ℕ) : Prop := da = db ∨ da = 1 ∨ db = 1

/-- The dimensions of both, aligned from the last axis. -/
def Compatibles (sa sb : List ℕ) : Prop :=
  List.Forall₂ Compatible (padLeft (max sa.length sb.length) sa) (padLeft (max sa.length sb.length) sb)

def bdim (da db : ℕ) : ℕ := if da = 0 ∨ db = 0 then 0 else max da db

def bshape (sa sb : List ℕ) : List ℕ :=
  List.zipWith bdim (padLeft (max sa.length sb.length) sa) (padLeft (max sa.length sb.length) sb)

/-- An index of the result as an index of an operand: the axes that it has, and 0 where its dimension is 1. -/
def clip (dims ix : List ℕ) : List ℕ :=
  List.zipWith (fun d i => if d = 1 then 0 else i) dims (ix.drop (ix.length - dims.length))

variable {r : ℕ} {dims : List ℕ}

theorem length_padLeft (h : dims.length ≤ r) : (padLeft r dims).length = r := by
  rw [padLeft, List.length_append, List.length_replicate]
  omega

theorem length_bshape (sa sb : List ℕ) : (bshape sa sb).length = max sa.length sb.length := by
  rw [bshape, List.length_zipWith, length_padLeft (le_max_left _ _), length_padLeft (le_max_right _ _), Nat.min_self]

end Shapes

section Plan

variable {T : Type}

def bstrides (r : ℕ) (t : Tensor T) : List ℕ :=
  List.zipWith (fun d s => if d = 1 then 0 else s) (padLeft r t.shape)
    (List.replicate (r - t.shape.length) 0 ++ t.strides)

variable {t a b : Tensor T} {r k : ℕ}

theorem length_bstrides (h : t.shape.length ≤ r) (hs : t.strides.length = t.shape.length) :
    (bstrides r t).length = r := by
  rw [bstrides, List.length_zipWith, length_padLeft h, List.length_append, List.length_replicate, hs]
  omega

theorem axisOf_ok (h : t.shape.length ≤ r) (hs : t.strides.length = t.shape.length) (hk : k < r) :
    ∃ d s, axisOf t ((t.shape.length : ℤ) - 1 - (r - (k + 1))) = .ok (d, s) ∧ (padLeft r t.shape)[k]? = some d ∧
      (bstrides r t)[k]? = some (if d = 1 then 0 else s) := by
  unfold axisOf bstrides padLeft
  by_cases hin : r - t.shape.length ≤ k
  · have hpos : ((t.shape.length : ℤ) - 1 - (r - (k + 1))).toNat = k - (r - t.shape.length) := by omega
    have hd : k - (r - t.shape.length) < t.shape.length := by omega
    have hd' : k - (r - t.shape.length) < t.strides.length := hs ▸ hd
    have hget : (List.replicate (r - t.shape.length) 1 ++ t.shape)[k]? = some t.shape[k - (r - t.shape.length)] := by
      grind
    have hgets : (List.replicate (r - t.shape.length) 0 ++ t.strides)[k]? =
        some t.strides[k - (r - t.shape.length)] := by grind
    refine ⟨t.shape[k - (r - t.shape.length)], t.strides[k - (r - t.shape.length)], ?_, hget, ?_⟩
    · rw [if_pos (by omega), hpos, load_getElem hd, ok_bind, load_getElem (hs ▸ hd)]
      rfl
    grind
  · have hget : (List.replicate (r - t.shape.length) 1 ++ t.shape)[k]? = some 1 := by grind
    have hgets : (List.replicate (r - t.shape.length) 0 ++ t.strides)[k]? = some 0 := by grind
    refine ⟨1, 0, if_neg (by omega), hget, ?_⟩
    grind

theorem resultDim_ok {da db : ℕ} (h : Compatible da db) : resultDim da db = .ok (bdim da db) := by
  unfold resultDim bdim
  obtain rfl | rfl | rfl := h
  · grind
  · grind
  grind

theorem resultDim_fail {da db : ℕ} (h : ¬Compatible da db) : resultDim da db = .fail := by
  unfold Compatible at h
  unfold resultDim
  grind

theorem set_filled {xs : List ℕ} {x : ℕ} (hx : xs[k]? = some x) :
    (List.replicate (k + 1) 0 ++ xs.drop (k + 1)).set k x = List.replicate k 0 ++ xs.drop k := by
  obtain ⟨hk, rfl⟩ := List.getElem?_eq_some_iff.1 hx
  have hlen : (List.replicate k 0).length = k := List.length_replicate
  rw [List.replicate_succ', List.append_assoc, List.set_append_right _ _ (by omega), hlen, Nat.sub_self,
    List.drop_eq_getElem_cons hk]
  rfl

/-- The plan of the axes from `k` on. -/
def planned (r : ℕ) (a b : Tensor T) (k : ℕ) : PlanState where
  ax := (a.shape.length : ℤ) - 1 - (r - k)
  bx := (b.shape.length : ℤ) - 1 - (r - k)
  osh := List.replicate k 0 ++ (List.zipWith bdim (padLeft r a.shape) (padLeft r b.shape)).drop k
  sa := List.replicate k 0 ++ (bstrides r a).drop k
  sb := List.replicate k 0 ++ (bstrides r b).drop k

/-- Two operands of a result with `r` axes. -/
structure Aligned (r : ℕ) (a b : Tensor T) : Prop where
  ha : a.shape.length ≤ r
  hb : b.shape.length ≤ r
  hsa : a.strides.length = a.shape.length
  hsb : b.strides.length = b.shape.length

theorem planAxis_planned (h : Aligned r a b) (hk : k < r) :
    ∃ da db, (padLeft r a.shape)[k]? = some da ∧ (padLeft r b.shape)[k]? = some db ∧
      (Compatible da db → planAxis a b k (planned r a b (k + 1)) = .ok (planned r a b k)) ∧
      (¬Compatible da db → planAxis a b k (planned r a b (k + 1)) = .fail) := by
  obtain ⟨da, stra, hax, hda, hwa⟩ := axisOf_ok h.ha h.hsa hk
  obtain ⟨db, strb, hbx, hdb, hwb⟩ := axisOf_ok h.hb h.hsb hk
  refine ⟨da, db, hda, hdb, fun hcompat => ?_, fun hnot => ?_⟩
  · have hosh : (List.zipWith bdim (padLeft r a.shape) (padLeft r b.shape))[k]? = some (bdim da db) := by
      grind
    have hlen : ∀ xs : List ℕ, k < (List.replicate (k + 1) 0 ++ xs).length := fun xs => by grind
    unfold planAxis planned
    dsimp only
    rw [Nat.cast_add, Nat.cast_one, hax, ok_bind]
    dsimp only
    rw [hbx, ok_bind]
    dsimp only
    rw [resultDim_ok hcompat, ok_bind, setAt_ok (hlen _), ok_bind, setAt_ok (hlen _), ok_bind, setAt_ok (hlen _), ok_bind,
      set_filled hosh, set_filled hwa, set_filled hwb]
    congr 2 <;> ring
  · unfold planAxis planned
    dsimp only
    rw [Nat.cast_add, Nat.cast_one, hax, ok_bind]
    dsimp only
    rw [hbx, ok_bind]
    dsimp only
    rw [resultDim_fail hnot]
    rfl

theorem planned_start (h : Aligned r a b) :
    planned r a b r = ⟨a.shape.length - 1, b.shape.length - 1, List.replicate r 0, List.replicate r 0, List.replicate r 0⟩ := by
  have hosh : (List.zipWith bdim (padLeft r a.shape) (padLeft r b.shape)).length ≤ r := by
    rw [List.length_zipWith, length_padLeft h.ha, length_padLeft h.hb, Nat.min_self]
  unfold planned
  rw [List.drop_eq_nil_of_le hosh, List.drop_eq_nil_of_le (length_bstrides h.ha h.hsa).le,
    List.drop_eq_nil_of_le (length_bstrides h.hb h.hsb).le, List.append_nil]
  congr 1 <;> ring

theorem compatible_axes (h : Aligned r a b) :
    List.Forall₂ Compatible (padLeft r a.shape) (padLeft r b.shape) ↔
      ∀ k < r, ∀ da db, (padLeft r a.shape)[k]? = some da → (padLeft r b.shape)[k]? = some db → Compatible da db := by
  have hla := length_padLeft h.ha
  have hlb := length_padLeft h.hb
  rw [List.forall₂_iff_get]
  constructor
  · grind
  · intro hall
    refine ⟨hla.trans hlb.symm, fun k hka hkb => ?_⟩
    exact hall k (hla ▸ hka) _ _ (List.getElem?_eq_getElem _) (List.getElem?_eq_getElem _)

theorem planLoop_ok (h : Aligned r a b)
    (hcompat : List.Forall₂ Compatible (padLeft r a.shape) (padLeft r b.shape)) :
    forDown (planAxis a b) 0 r (planned r a b r) = .ok (planned r a b 0) := by
  have hloop := forDown_yields (b := planAxis a b) (i := 0) (n := r) (s := planned r a b r)
    (I := fun k s => s = planned r a b k) ?_ (by rw [Nat.zero_add])
  · obtain ⟨s, hs, rfl⟩ := hloop
    exact hs
  grind [planAxis_planned, compatible_axes, yields_ok]

theorem planLoop_fail (h : Aligned r a b)
    (hnot : ¬List.Forall₂ Compatible (padLeft r a.shape) (padLeft r b.shape)) :
    forDown (planAxis a b) 0 r (planned r a b r) = .fail := by
  refine forDown_fails (I := fun k s => s = planned r a b k)
    (c := fun k => ∀ da db, (padLeft r a.shape)[k]? = some da → (padLeft r b.shape)[k]? = some db → Compatible da db)
    ?_ ?_ rfl (fun hall => hnot ((compatible_axes h).2 hall))
  · grind [yields_ok, planAxis_planned]
  grind [planAxis_planned]

end Plan

section Slots

def Stretches (d dr : ℕ) : Prop := d = 1 ∨ d = dr

theorem stretches_left {da db : ℕ} (h : Compatible da db) : Stretches da (bdim da db) := by
  unfold Compatible at h
  unfold Stretches bdim
  split <;> omega

theorem stretches_right {da db : ℕ} (h : Compatible da db) : Stretches db (bdim da db) := by
  unfold Compatible at h
  unfold Stretches bdim
  split <;> omega

theorem forall₂_zipWith_left {R : ℕ → ℕ → Prop} {S : ℕ → ℕ → Prop} {f : ℕ → ℕ → ℕ} {xs ys : List ℕ}
    (h : List.Forall₂ R xs ys) (hf : ∀ x y, R x y → S x (f x y)) : List.Forall₂ S xs (List.zipWith f xs ys) := by
  induction h with
  | nil => exact .nil
  | @cons x y xs ys hxy _ ih => exact .cons (hf x y hxy) ih

theorem forall₂_zipWith_right {R : ℕ → ℕ → Prop} {S : ℕ → ℕ → Prop} {f : ℕ → ℕ → ℕ} {xs ys : List ℕ}
    (h : List.Forall₂ R xs ys) (hf : ∀ x y, R x y → S y (f x y)) : List.Forall₂ S ys (List.zipWith f xs ys) := by
  induction h with
  | nil => exact .nil
  | @cons x y xs ys hxy _ ih => exact .cons (hf x y hxy) ih

theorem isIndex_zipWith {dims drs ix : List ℕ} (h : List.Forall₂ Stretches dims drs) (hix : IsIndex ix drs) :
    IsIndex (List.zipWith (fun d i => if d = 1 then 0 else i) dims ix) dims := by
  induction h generalizing ix with
  | nil =>
    cases hix
    exact .nil
  | @cons d dr dims drs hd _ ih =>
    cases hix with
    | @cons i _ ix _ hi hrest =>
      refine .cons ?_ (ih hrest)
      unfold Stretches at hd
      grind

theorem dot_zipWith (dims ws ix : List ℕ) :
    dot (List.zipWith (fun d s => if d = 1 then 0 else s) dims ws) ix =
      dot ws (List.zipWith (fun d i => if d = 1 then 0 else i) dims ix) := by
  induction dims generalizing ws ix with
  | nil => cases ws <;> rfl
  | cons d dims ih =>
    cases ws with
    | nil => rfl
    | cons w ws =>
      cases ix with
      | nil => rfl
      | cons i ix =>
        rw [List.zipWith_cons_cons, List.zipWith_cons_cons, dot, dot, ih]
        split <;> simp

theorem dot_zeros (k : ℕ) (ix : List ℕ) : dot (List.replicate k 0) ix = 0 := by
  induction k generalizing ix with
  | zero => rfl
  | succ k ih =>
    cases ix with
    | nil => rfl
    | cons i ix =>
      rw [List.replicate_succ, dot, ih]
      rfl

variable {T : Type} {t : Tensor T} {r : ℕ} {drs ix : List ℕ}

theorem stretches_drop (hs : List.Forall₂ Stretches (padLeft r t.shape) drs) :
    List.Forall₂ Stretches t.shape (drs.drop (r - t.shape.length)) := by
  have hdrop := List.forall₂_drop (r - t.shape.length) hs
  rwa [padLeft, List.drop_left' List.length_replicate] at hdrop

theorem clip_isIndex (h : t.shape.length ≤ r) (hs : List.Forall₂ Stretches (padLeft r t.shape) drs)
    (hix : IsIndex ix drs) : IsIndex (clip t.shape ix) t.shape := by
  have hlen : ix.length = r := by
    rw [hix.length_eq, ← hs.length_eq, length_padLeft h]
  unfold clip
  rw [hlen]
  exact isIndex_zipWith (stretches_drop hs) (List.forall₂_drop _ hix)

theorem dot_bstrides (hstr : t.strides = strides t.shape)
    (hlen : ix.length = r) : dot (bstrides r t) ix = flat t.shape (clip t.shape ix) := by
  have hsplit : bstrides r t = List.replicate (r - t.shape.length) 0 ++
      List.zipWith (fun d s => if d = 1 then 0 else s) t.shape t.strides := by
    rw [bstrides, padLeft, List.zipWith_append (by grind)]
    grind
  have htake : (List.replicate (r - t.shape.length) 0).length = (ix.take (r - t.shape.length)).length := by
    grind
  rw [hsplit, ← List.take_append_drop (r - t.shape.length) ix, dot_append htake, dot_zeros, Nat.zero_add,
    List.take_append_drop, dot_zipWith, hstr, flat_eq_dot, clip, hlen]

end Slots

section Offsets

variable {T : Type} {a b : Tensor T}

theorem aligned (ha : a.Proper) (hb : b.Proper) :
    Aligned (max a.shape.length b.shape.length) a b where
  ha := le_max_left _ _
  hb := le_max_right _ _
  hsa := by rw [ha.strides, length_strides]
  hsb := by rw [hb.strides, length_strides]

def planOf (a b : Tensor T) : BCast :=
  ⟨bshape a.shape b.shape, bstrides (max a.shape.length b.shape.length) a,
    bstrides (max a.shape.length b.shape.length) b, (bshape a.shape b.shape).prod⟩

theorem bcastPlan_exactly (ha : a.Proper) (hb : b.Proper)
    (h : Compatibles a.shape b.shape) :
    (bcastPlan a b).Exactly
      (∀ k < (bshape a.shape b.shape).length, ((bshape a.shape b.shape).take (k + 1)).prod < 2 ^ 31)
      (· = planOf a b) := by
  have halign := aligned ha hb
  have hrank : max a.shape.length b.shape.length ≤ 2 ^ 30 := max_le ha.setup.rank hb.setup.rank
  obtain ⟨z, hz, rfl⟩ := (zeros_exactly (max a.shape.length b.shape.length)).returns hrank
  have hloop := planLoop_ok halign h
  rw [planned_start halign] at hloop
  unfold bcastPlan
  dsimp only
  rw [hz, ok_bind, ok_bind, ok_bind, hloop, ok_bind]
  have hcount := countOf_exactly (bshape a.shape b.shape)
  refine (hcount.bind (d := True) fun n hn => ?_).congr (and_iff_left trivial)
  rw [hn]
  exact .ok rfl

theorem bcastPlan_fail (ha : a.Proper) (hb : b.Proper)
    (h : ¬Compatibles a.shape b.shape) : bcastPlan a b = .fail := by
  have halign := aligned ha hb
  have hrank : max a.shape.length b.shape.length ≤ 2 ^ 30 := max_le ha.setup.rank hb.setup.rank
  obtain ⟨z, hz, rfl⟩ := (zeros_exactly (max a.shape.length b.shape.length)).returns hrank
  have hloop := planLoop_fail halign h
  rw [planned_start halign] at hloop
  unfold bcastPlan
  dsimp only
  rw [hz, ok_bind, ok_bind, ok_bind, hloop]
  rfl

theorem bcastOffsets_ok (ha : a.Proper) (hb : b.Proper) (h : Compatibles a.shape b.shape) {i : ℕ} (hi : i < (bshape a.shape b.shape).prod) :
    bcastOffsets (planOf a b) i = .ok (flat a.shape (clip a.shape (unflat (bshape a.shape b.shape) i)),
      flat b.shape (clip b.shape (unflat (bshape a.shape b.shape) i))) := by
  have halign := aligned ha hb
  have hix := isIndex_unflat hi
  set ix := unflat (bshape a.shape b.shape) i with hixdef
  have hlen : ix.length = max a.shape.length b.shape.length := by rw [hix.length_eq, length_bshape]
  have hsa : List.Forall₂ Stretches (padLeft (max a.shape.length b.shape.length) a.shape) (bshape a.shape b.shape) :=
    forall₂_zipWith_left h fun _ _ => stretches_left
  have hsb : List.Forall₂ Stretches (padLeft (max a.shape.length b.shape.length) b.shape) (bshape a.shape b.shape) :=
    forall₂_zipWith_right h fun _ _ => stretches_right
  have hda := dot_bstrides ha.strides hlen
  have hdb := dot_bstrides hb.strides hlen
  have hflata := flat_lt (clip_isIndex halign.ha hsa hix)
  have hflatb := flat_lt (clip_isIndex halign.hb hsb hix)
  have hlta := ha.setup.prod_lt
  have hltb := hb.setup.prod_lt
  -- the loop over the axes: before axis `k` both offsets are the sums over the axes from `k` on
  have hyields := decode_yields (l := bshape a.shape b.shape) (n := i)
    (g := fun k idx (o : ℕ × ℕ) => do
      let wa ← load (planOf a b).sa k
      let oa ← addOffset wa idx o.1
      let wb ← load (planOf a b).sb k
      let ob ← addOffset wb idx o.2
      pure (oa, ob))
    (I := fun k s => s = (dot ((planOf a b).sa.drop k) (ix.drop k), dot ((planOf a b).sb.drop k) (ix.drop k)))
    (s := (0, 0)) hi ?_ ?_
  · obtain ⟨s, hs, rfl⟩ := hyields
    refine hs.trans ?_
    rw [List.drop_zero, List.drop_zero, List.drop_zero, ← hda, ← hdb]
    rfl
  · rintro k idx s hk hidx rfl
    rw [length_bshape] at hk
    rw [← hixdef] at hidx
    have hka : k < (planOf a b).sa.length := by
      rw [planOf, length_bstrides halign.ha halign.hsa]
      exact hk
    have hkb : k < (planOf a b).sb.length := by
      rw [planOf, length_bstrides halign.hb halign.hsb]
      exact hk
    have hwa : (planOf a b).sa[k]? = some (planOf a b).sa[k] := List.getElem?_eq_getElem _
    have hwb : (planOf a b).sb[k]? = some (planOf a b).sb[k] := List.getElem?_eq_getElem _
    have hsuma := dot_drop hwa hidx
    have hsumb := dot_drop hwb hidx
    have hlea := dot_drop_le (planOf a b).sa ix k
    have hleb := dot_drop_le (planOf a b).sb ix k
    have hda' : dot (planOf a b).sa ix = flat a.shape (clip a.shape ix) := hda
    have hdb' : dot (planOf a b).sb ix = flat b.shape (clip b.shape ix) := hdb
    dsimp only
    rw [load_ok hwa, ok_bind, addOffset_ok (by omega), ok_bind, load_ok hwb, ok_bind, addOffset_ok (by omega), ok_bind,
      ← hsuma, ← hsumb]
    exact yields_ok.2 rfl
  · have hix0 : ix.drop (bshape a.shape b.shape).length = [] := List.drop_eq_nil_of_le hix.length_eq.le
    have hsa0 : (planOf a b).sa.drop (bshape a.shape b.shape).length = [] :=
      List.drop_eq_nil_of_le (by rw [length_bshape, planOf, length_bstrides halign.ha halign.hsa])
    have hsb0 : (planOf a b).sb.drop (bshape a.shape b.shape).length = [] :=
      List.drop_eq_nil_of_le (by rw [length_bshape, planOf, length_bstrides halign.hb halign.hsb])
    rw [hix0, hsa0, hsb0]
    rfl

theorem clip_left (ha : a.Proper) (hb : b.Proper) (h : Compatibles a.shape b.shape) {ix : List ℕ}
    (hix : IsIndex ix (bshape a.shape b.shape)) : IsIndex (clip a.shape ix) a.shape :=
  clip_isIndex (aligned ha hb).ha (forall₂_zipWith_left h fun _ _ => stretches_left) hix

theorem clip_right (ha : a.Proper) (hb : b.Proper) (h : Compatibles a.shape b.shape) {ix : List ℕ}
    (hix : IsIndex ix (bshape a.shape b.shape)) : IsIndex (clip b.shape ix) b.shape :=
  clip_isIndex (aligned ha hb).hb (forall₂_zipWith_right h fun _ _ => stretches_right) hix

end Offsets

section Result

variable {T : Type} [Zero T] [Add T] [Sub T] [Mul T] [Div T]

structure Broadcasts (a b : Tensor T) (opcode : ℤ) (out : Tensor T) : Prop where
  proper : out.Proper
  shape : out.shape = bshape a.shape b.shape
  val : ∀ ix, IsIndex ix out.shape → IsIndex (clip a.shape ix) a.shape ∧ IsIndex (clip b.shape ix) b.shape ∧
    out.val ix = opOf opcode (a.val (clip a.shape ix)) (b.val (clip b.shape ix))

variable {a b : Tensor T}

def bcastVal (a b : Tensor T) (opcode : ℤ) (i : ℕ) : T :=
  opOf opcode (a.val (clip a.shape (unflat (bshape a.shape b.shape) i)))
    (b.val (clip b.shape (unflat (bshape a.shape b.shape) i)))

theorem bcastSlot_eq (ha : a.Proper) (hb : b.Proper) (h : Compatibles a.shape b.shape) (opcode : ℤ) {i : ℕ}
    (hi : i < (bshape a.shape b.shape).prod) (p : Cells T) :
    bcastSlot a b (planOf a b) opcode i p = p.store i (bcastVal a b opcode i) := by
  have hix := isIndex_unflat hi
  unfold bcastSlot
  rw [bcastOffsets_ok ha hb h hi, ok_bind]
  dsimp only
  rw [ha.load_flat (clip_left ha hb h hix), ok_bind, hb.load_flat (clip_right ha hb h hix), ok_bind]
  rfl

theorem bcast_exactly (ha : a.Proper) (hb : b.Proper) (h : Compatibles a.shape b.shape) (opcode : ℤ) :
    (bcast a b opcode).Exactly (SetupFits (bshape a.shape b.shape)) (Broadcasts a b opcode) := by
  unfold bcast
  refine ((bcastPlan_exactly ha hb h).bind (d := SetupFits (bshape a.shape b.shape)) fun bc hbc => ?_).congr
    (and_iff_right_of_imp fun hfits => hfits.take)
  rw [hbc]
  refine ⟨fun hfits => ?_, fun t ht => ?_⟩
  · obtain ⟨out, hout, rfl⟩ := (setup_exactly (T := T) (bshape a.shape b.shape)).returns hfits
    have hfill := fill_ok (b := bcastSlot a b (planOf a b) opcode) (f := bcastVal a b opcode)
      (n := (bshape a.shape b.shape).prod) fun i hi p => bcastSlot_eq ha hb h opcode hi p
    change (setup (bshape a.shape b.shape) >>= _).Yields _
    rw [hout, ok_bind]
    dsimp only
    rw [hfill, ok_bind, Cells.elems_full]
    refine yields_ok.2 ⟨proper_tabulate hfits _, rfl, fun ix hix => ?_⟩
    refine ⟨clip_left ha hb h hix, clip_right ha hb h hix, ?_⟩
    rw [val_tabulate _ hix, bcastVal, unflat_flat hix]
  · obtain ⟨out, hout, -⟩ := Res.bind_ok ht
    exact (setup_exactly (bshape a.shape b.shape)).only out hout

theorem bcast_fail (ha : a.Proper) (hb : b.Proper) (h : ¬Compatibles a.shape b.shape) (opcode : ℤ) :
    bcast a b opcode = .fail := by
  unfold bcast
  rw [bcastPlan_fail ha hb h]
  rfl

namespace Shaped

/-- The operation aborts exactly on shapes that are not compatible, and follows the rule on the others. -/
def FollowsNumPy (a b : Shaped T) (opcode : ℤ) : Prop :=
  (bcast a.tensor b.tensor opcode = .fail ↔ ¬Compatibles a.tensor.shape b.tensor.shape) ∧
    (Compatibles a.tensor.shape b.tensor.shape →
      (bcast a.tensor b.tensor opcode).Yields (Broadcasts a.tensor b.tensor opcode))

/-- Broadcasting follows the rule unless the dimensions of the result overflow. -/
theorem followsNumPy_iff (a b : Shaped T) (opcode : ℤ) :
    FollowsNumPy a b opcode ↔
      (Compatibles a.tensor.shape b.tensor.shape → SetupFits (bshape a.tensor.shape b.tensor.shape)) := by
  constructor
  · rintro ⟨-, hyields⟩ hcompat
    obtain ⟨out, hout, -⟩ := hyields hcompat
    exact (bcast_exactly a.proper b.proper hcompat opcode).only out hout
  · intro hfits
    refine ⟨⟨fun hfail hcompat => ?_, fun hnot => bcast_fail a.proper b.proper hnot opcode⟩, fun hcompat => ?_⟩
    · obtain ⟨out, hout, -⟩ := (bcast_exactly a.proper b.proper hcompat opcode).returns (hfits hcompat)
      rw [hfail] at hout
      cases hout
    · exact (bcast_exactly a.proper b.proper hcompat opcode).returns (hfits hcompat)

end Shaped

end Result

section Overflow

def zerosOf (shape : List ℕ) : Tensor ℤ := ⟨(List.range shape.prod).map fun _ => 0, shape, strides shape, shape.prod⟩

theorem setupFits_column : SetupFits [2 ^ 16, 1] := (setupFits_two (by norm_num) (by norm_num)).2 (by norm_num)

theorem setupFits_row : SetupFits [1, 2 ^ 16] := (setupFits_two (by norm_num) (by norm_num)).2 (by norm_num)

/-- A column of 2^16 elements and a row of as many. -/
theorem not_followsNumPy : ¬ ∀ (a b : Shaped ℤ) (opcode : ℤ), a.FollowsNumPy b opcode := by
  intro h
  have hcompat : Compatibles [2 ^ 16, 1] [1, 2 ^ 16] := .cons (.inr (.inr rfl)) (.cons (.inr (.inl rfl)) .nil)
  obtain ⟨-, hyields⟩ := h ⟨zerosOf [2 ^ 16, 1], proper_tabulate setupFits_column _⟩
    ⟨zerosOf [1, 2 ^ 16], proper_tabulate setupFits_row _⟩ 0
  obtain ⟨out, hout, -⟩ := hyields hcompat
  have hfits := (bcast_exactly (a := zerosOf [2 ^ 16, 1]) (b := zerosOf [1, 2 ^ 16])
    (proper_tabulate setupFits_column _) (proper_tabulate setupFits_row _) hcompat 0).only out hout
  have hlt : ([2 ^ 16, 2 ^ 16] : List ℕ).prod < 2 ^ 31 := hfits.prod_lt
  exact absurd hlt (by norm_num)

end Overflow

end LsLang.Sci
