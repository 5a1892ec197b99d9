import LsLang.Sci.Tensor

/-! What `_setup` leaves, and the walk over the axes that every operation on a tensor makes. -/

namespace LsLang.Sci

open LsLang.Core LsLang.Lib LsLang.Lib.RowMajor LsLang.Undefined LsLang.Undefined.Res

section Ints

theorem asCount_exactly (n : ℕ) : (asCount n).Exactly (n < 2 ^ 31) (· = n) := by
  unfold asCount
  by_cases h : n < 2 ^ 31
  · exact (Exactly.of_eq (if_pos h)).congr (iff_of_true trivial h)
  · rw [if_neg h]
    exact ⟨fun hc => absurd hc h, fun _ hr => by cases hr⟩

theorem asCount_ok {n : ℕ} (h : n < 2 ^ 31) : asCount n = .ok n := if_pos h

variable {α : Type} {xs : List α} {k : ℕ} {x : α}

theorem load_ok (h : xs[k]? = some x) : load xs k = .ok x := by
  unfold load
  rw [h]

theorem load_getElem (h : k < xs.length) : load xs k = .ok xs[k] := load_ok (List.getElem?_eq_getElem h)

theorem setAt_ok (h : k < xs.length) : setAt xs k x = .ok (xs.set k x) := if_pos h

theorem overwrite_ok {p : Cells α} (h : k < p.length) : overwrite p k x = .ok (p.set k (some x)) := if_pos h

theorem addOffset_ok {w idx off : ℕ} (h : off + idx * w < 2 ^ 31) : addOffset w idx off = .ok (off + idx * w) := by
  unfold addOffset
  rw [asCount_ok (by omega), ok_bind, asCount_ok h]

end Ints

section Setup

/-- `_setup` can shape a tensor so: it pushes a stride for each axis, and multiplies the dimensions from either end. -/
structure SetupFits (shape : List ℕ) : Prop where
  rank : shape.length ≤ 2 ^ 30
  take : ∀ k < shape.length, (shape.take (k + 1)).prod < 2 ^ 31
  drop : ∀ k < shape.length, (shape.drop k).prod < 2 ^ 31

variable {shape : List ℕ}

theorem zeros_exactly (r : ℕ) : (zeros r).Exactly (r ≤ 2 ^ 30) (· = List.replicate r 0) := by
  have hloop := Exactly.forFrom (b := fun _ st => vecPush 0 st) (I := fun k st => st = List.replicate k 0)
    (c := fun k => k + 1 ≤ 2 ^ 30) (i := 0) (n := r) (s := []) ?_ rfl
  · rw [Nat.zero_add] at hloop
    refine hloop.congr ⟨fun h => ?_, fun h k _ hk => by omega⟩
    grind
  grind [vecPush_exactly, List.length_replicate, List.replicate_succ']

theorem countOf_exactly (shape : List ℕ) :
    (countOf shape).Exactly (∀ k < shape.length, (shape.take (k + 1)).prod < 2 ^ 31) (· = shape.prod) := by
  have hloop := Exactly.forFrom (b := fun k n => do
      let d ← load shape k
      asCount (n * d)) (I := fun k n => n = (shape.take k).prod) (c := fun k => (shape.take (k + 1)).prod < 2 ^ 31)
    (i := 0) (n := shape.length) (s := 1) ?_ rfl
  · rw [Nat.zero_add, List.take_length] at hloop
    exact hloop.congr ⟨fun h k hk => h k (Nat.zero_le k) (by omega), fun h k _ hk => h k (by omega)⟩
  grind [load_getElem, ok_bind, List.prod_take_succ, asCount_exactly]

theorem drop_strides {k : ℕ} (hk : k < shape.length) :
    (strides shape).drop k = (shape.drop (k + 1)).prod :: (strides shape).drop (k + 1) := by
  induction shape generalizing k with
  | nil => grind
  | cons d ds ih =>
    cases k with
    | zero => rfl
    | succ k => exact ih (Nat.lt_of_succ_lt_succ hk)

theorem stridesOf_exactly (shape : List ℕ) :
    (stridesOf shape (List.replicate shape.length 0)).Exactly (∀ k < shape.length, (shape.drop k).prod < 2 ^ 31)
      (fun s => s.1 = strides shape) := by
  have hloop := Exactly.forDown (b := fun q (s : List ℕ × ℕ) => do
      let st ← setAt s.1 q s.2
      let d ← load shape q
      let acc ← asCount (s.2 * d)
      pure (st, acc))
    (I := fun k s => s = (List.replicate k 0 ++ (strides shape).drop k, (shape.drop k).prod))
    (c := fun k => (shape.drop k).prod < 2 ^ 31) (n := shape.length) (s := (List.replicate shape.length 0, 1)) ?_ ?_
  · refine hloop.mono ?_
    rintro s rfl
    rfl
  · rintro k s hk rfl
    have hset : (List.replicate (k + 1) 0 ++ (strides shape).drop (k + 1)).set k (shape.drop (k + 1)).prod =
        List.replicate k 0 ++ (strides shape).drop k := by
      rw [List.replicate_succ', List.append_assoc, drop_strides hk]
      have hlen : (List.replicate k 0).length = k := List.length_replicate
      rw [List.set_append_right _ _ (by omega), hlen, Nat.sub_self]
      rfl
    have hacc : (shape.drop (k + 1)).prod * shape[k] = (shape.drop k).prod := by
      rw [List.drop_eq_getElem_cons hk, List.prod_cons, Nat.mul_comm]
    dsimp only
    rw [setAt_ok (by grind), ok_bind, load_getElem hk, ok_bind, hset, hacc]
    refine ((asCount_exactly _).bind (d := True) fun acc hacc => ?_).congr (and_iff_left trivial)
    rw [hacc]
    exact .ok rfl
  · rw [List.drop_length, List.drop_eq_nil_of_le (length_strides shape).le, List.append_nil]
    rfl

theorem setup_exactly {T : Type} (shape : List ℕ) :
    (setup (T := T) shape).Exactly (SetupFits shape)
      (· = { data := [], shape, strides := strides shape, size := shape.prod }) := by
  unfold setup
  have hboth := (countOf_exactly shape).bind (f := fun n => do
      let st ← zeros shape.length
      let s ← stridesOf shape st
      pure ({ data := [], shape, strides := s.1, size := n } : Tensor T))
    (d := shape.length ≤ 2 ^ 30 ∧ ∀ k < shape.length, (shape.drop k).prod < 2 ^ 31)
    (R := (· = { data := [], shape, strides := strides shape, size := shape.prod })) ?_
  · exact hboth.congr ⟨fun h => ⟨h.2.1, h.1, h.2.2⟩, fun h => ⟨h.take, h.rank, h.drop⟩⟩
  · rintro n rfl
    refine (zeros_exactly shape.length).bind fun st hst => ?_
    rw [hst]
    refine ((stridesOf_exactly shape).bind (d := True) fun s hs => ?_).congr (and_iff_left trivial)
    rw [← hs]
    exact .ok rfl

theorem SetupFits.prod_lt (h : SetupFits shape) : shape.prod < 2 ^ 31 := by
  cases shape with
  | nil => grind
  | cons d ds => exact h.drop 0 (Nat.succ_pos _)

variable {m n : ℕ}

theorem prod_two : [m, n].prod = m * n := by
  simp

theorem SetupFits.two_lt (h : SetupFits [m, n]) : m < 2 ^ 31 ∧ n < 2 ^ 31 := by
  have hm := h.take 0 (Nat.succ_pos 1)
  have hn := h.drop 1 (Nat.lt_succ_self 1)
  grind

theorem setupFits_two (hm : m < 2 ^ 31) (hn : n < 2 ^ 31) : SetupFits [m, n] ↔ m * n < 2 ^ 31 := by
  constructor
  · exact fun h => prod_two ▸ h.prod_lt
  · intro hmn
    refine ⟨by norm_num, fun k hk => ?_, fun k hk => ?_⟩
    · obtain rfl | rfl : k = 0 ∨ k = 1 := by grind
      · simpa using hm
      · simpa using hmn
    · obtain rfl | rfl : k = 0 ∨ k = 1 := by grind
      · simpa using hmn
      · simpa using hn

end Setup

section Decode

variable {σ : Type} {dims ws jx : List ℕ} {n : ℕ}

theorem decode_yields {l : List ℕ} {g : ℕ → ℕ → σ → Res σ} {I : ℕ → σ → Prop} {s : σ} (hn : n < l.prod)
    (hstep : ∀ k i s, k < l.length → (unflat l n)[k]? = some i → I (k + 1) s → (g k i s).Yields (I k))
    (h : I l.length s) : (decode l g n s).Yields (I 0) := by
  have hloop := forDown_yields (b := fun k (t : ℕ × σ) => do
      let d ← load l k
      if d = 0 then .stuck
      else do
        let s ← g k (t.1 % d) t.2
        pure (t.1 / d, s))
    (I := fun k s => s.1 = n / (l.drop k).prod ∧ I k s.2) (i := 0) (n := l.length) (s := (n, s)) ?_ ?_
  · exact hloop.bind fun t ht => yields_pure.2 ht.2
  · rintro k ⟨rem, s⟩ - hk ⟨hrem, hs⟩
    rw [Nat.zero_add] at hk
    dsimp only at hrem hs ⊢
    have hpos := pos_of_lt_prod hn (List.getElem_mem hk)
    have hcoord := getElem?_unflat hn hk
    rw [← hrem] at hcoord
    have hnext : rem / l[k] = n / (l.drop k).prod := by
      rw [hrem, Nat.div_div_eq_div_mul, List.drop_eq_getElem_cons hk, List.prod_cons, Nat.mul_comm l[k]]
    rw [load_getElem hk, ok_bind, if_neg hpos.ne']
    exact (hstep k _ s hk hcoord hs).bind fun t ht => yields_pure.2 ⟨hnext, ht⟩
  grind

theorem decode_dot {add : ℕ → ℕ → ℕ → Res ℕ} (hn : n < dims.prod) (hws : ws.length = dims.length)
    (hjx : jx.length = dims.length) (hlt : dot ws jx < 2 ^ 31)
    (hadd : ∀ k i w j off, (unflat dims n)[k]? = some i → ws[k]? = some w → jx[k]? = some j → off + j * w < 2 ^ 31 →
      add k i off = .ok (off + j * w)) : decode dims add n 0 = .ok (dot ws jx) := by
  have hyields := decode_yields (g := add) (I := fun k off => off = dot (ws.drop k) (jx.drop k)) (s := 0) hn ?_ ?_
  · obtain ⟨off, hoff, rfl⟩ := hyields
    exact hoff
  · rintro k i off hk hi rfl
    have hw := List.getElem?_eq_getElem (hws ▸ hk)
    have hj := List.getElem?_eq_getElem (hjx ▸ hk)
    have hsum := dot_drop hw hj
    have hle := dot_drop_le ws jx k
    rw [hadd k i _ _ _ hi hw hj (by omega), ← hsum]
    exact yields_ok.2 rfl
  · rw [List.drop_eq_nil_of_le hws.le]
    rfl

end Decode

section Tensors

variable {T : Type}

/-- A tensor that `_setup` shaped, with an element in every slot. -/
structure Tensor.Proper (t : Tensor T) : Prop where
  setup : SetupFits t.shape
  strides : t.strides = RowMajor.strides t.shape
  size : t.size = t.shape.prod
  data : t.data.length = t.shape.prod

theorem proper_tabulate {shape : List ℕ} (h : SetupFits shape) (f : ℕ → T) :
    Tensor.Proper ⟨(List.range shape.prod).map f, shape, RowMajor.strides shape, shape.prod⟩ where
  setup := h
  strides := rfl
  size := rfl
  data := by grind

/-- A tensor that `_setup` shaped. -/
structure Shaped (T : Type) where
  tensor : Tensor T
  proper : tensor.Proper

def Tensor.val [Zero T] (t : Tensor T) (ix : List ℕ) : T := t.data.getD (flat t.shape ix) 0

variable [Zero T] {t : Tensor T} {ix : List ℕ}

theorem Tensor.Proper.load_flat (h : t.Proper) (hix : IsIndex ix t.shape) :
    load t.data (flat t.shape ix) = .ok (t.val ix) := by
  have hlt := flat_lt hix
  rw [← h.data] at hlt
  rw [load_getElem hlt, Tensor.val, List.getD_eq_getElem?_getD, List.getElem?_eq_getElem hlt]
  rfl

theorem val_tabulate {shape ix : List ℕ} (f : ℕ → T) (hix : IsIndex ix shape) :
    Tensor.val ⟨(List.range shape.prod).map f, shape, RowMajor.strides shape, shape.prod⟩ ix = f (flat shape ix) := by
  have hlt := flat_lt hix
  unfold Tensor.val
  grind

end Tensors

section Filling

variable {T : Type}

theorem fill_ok {b : ℕ → Cells T → Res (Cells T)} {f : ℕ → T} {n : ℕ} (h : ∀ i < n, ∀ p, b i p = p.store i (f i)) :
    forFrom b 0 n (Cells.vacant n) = .ok (Cells.full ((List.range n).map f)) := by
  have hloop := forFrom_yields (b := b) (i := 0) (n := n) (s := Cells.vacant n)
    (I := fun i p => p = Cells.full ((List.range i).map f) ++ Cells.vacant (n - i)) ?_ rfl
  · obtain ⟨p, hp, rfl⟩ := hloop
    rw [hp, Nat.zero_add, Nat.sub_self, Cells.vacant_zero, List.append_nil]
  · rintro i p - hi rfl
    have hvacant : n - i = n - (i + 1) + 1 := by omega
    rw [h i (by omega), hvacant, Cells.vacant_succ, Cells.store_at (by simp)]
    refine yields_ok.2 ?_
    rw [List.range_succ, List.map_append, Cells.full_append, List.append_assoc]
    rfl

/-- The slots of a grid that are filled before the turn `(i, j)`. -/
def Filled (row col : ℕ → ℕ) (f : ℕ → ℕ → T) (total i j : ℕ) (p : Cells T) : Prop :=
  p.length = total ∧
    ∀ o < total, p[o]? = some (if row o < i ∨ row o = i ∧ col o < j then some (f (row o) (col o)) else none)

variable {slot : ℕ → ℕ → ℕ} {row col : ℕ → ℕ} {f : ℕ → ℕ → T} {m n total i j : ℕ} {p : Cells T}

theorem Filled.store (h : Filled row col f total i j p) (hlt : slot i j < total) (hrow : row (slot i j) = i)
    (hcol : col (slot i j) = j) (hinj : ∀ o < total, row o = i → col o = j → o = slot i j) :
    (p.store (slot i j) (f i j)).Yields (Filled row col f total i (j + 1)) := by
  have hvacant : p[slot i j]? = some none := by
    rw [h.2 _ hlt, if_neg (by omega)]
  rw [Cells.store_eq hvacant]
  refine yields_ok.2 ⟨by rw [List.length_set]; exact h.1, fun o ho => ?_⟩
  by_cases heq : slot i j = o
  · grind
  · have hne : ¬(row o = i ∧ col o = j) := fun hboth => heq (hinj o ho hboth.1 hboth.2).symm
    have hiff : (row o < i ∨ row o = i ∧ col o < j + 1) ↔ row o < i ∨ row o = i ∧ col o < j := by omega
    rw [List.getElem?_set_ne heq, h.2 o ho]
    grind

theorem grid_ok {c : ℕ → ℕ} {r : ℕ → ℕ} {z : ℕ → ℕ → ℕ} {k : ℕ} {b : ℕ → ℕ → Cells T → Res (Cells T)}
    (h : ∀ i < m, ∀ j < n, ∀ p, b i j p = p.store (z i j) (f i j))
    (hslot : ∀ i < m, ∀ j < n, z i j < k ∧ r (z i j) = i ∧ c (z i j) = j)
    (hgrid : ∀ o < k, r o < m ∧ c o < n ∧ z (r o) (c o) = o) :
    forFrom (fun i => forFrom (b i) 0 n) 0 m (Cells.vacant k) =
      .ok (Cells.full ((List.range k).map fun o => f (r o) (c o))) := by
  have hinner : ∀ i < m, ∀ p, Filled r c f k i 0 p →
      (forFrom (b i) 0 n p).Yields (Filled r c f k (i + 1) 0) := by
    intro i hi p hp
    have hloop := forFrom_yields (b := b i) (i := 0) (n := n) (s := p) (I := Filled r c f k i) ?_ hp
    · refine hloop.mono fun q hq => ⟨hq.1, fun o ho => ?_⟩
      have hcol := (hgrid o ho).2.1
      rw [hq.2 o ho]
      exact congrArg some (if_congr (by omega) rfl rfl)
    · intro j q _ hj hq
      rw [Nat.zero_add] at hj
      obtain ⟨hlt, hrow, hcol⟩ := hslot i hi j hj
      rw [h i hi j hj]
      refine hq.store hlt hrow hcol fun o ho hr hc => ?_
      grind
  have hstart : Filled r c f k 0 0 (Cells.vacant k) := by
    refine ⟨Cells.length_vacant k, fun o ho => ?_⟩
    rw [if_neg (by omega)]
    exact List.getElem?_replicate_of_lt ho
  obtain ⟨p, hp, hfilled⟩ := forFrom_yields (b := fun i => forFrom (b i) 0 n) (i := 0) (n := m)
    (I := fun i => Filled r c f k i 0) (fun i p _ hi => hinner i (by omega) p) hstart
  rw [hp]
  congr 1
  apply List.ext_getElem?
  intro o
  by_cases ho : o < k
  · have hrow := (hgrid o ho).1
    rw [hfilled.2 o ho, if_pos (by omega), Cells.get_full, List.getElem?_map, List.getElem?_range ho]
    rfl
  · rw [List.getElem?_eq_none (by rw [hfilled.1]; omega), List.getElem?_eq_none (by simp; omega)]

end Filling

end LsLang.Sci
