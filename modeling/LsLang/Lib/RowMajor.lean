import Mathlib.Algebra.BigOperators.Group.List.Basic
import Mathlib.Algebra.BigOperators.Ring.List
import Mathlib.Algebra.Order.BigOperators.Group.List
import Mathlib.Data.List.Forall2
import Mathlib.Tactic.Ring

/-! Multi-indices and their flat offsets, in row-major order. -/

namespace LsLang.Lib.RowMajor

def IsIndex (ix dims : List ℕ) : Prop := List.Forall₂ (· < ·) ix dims

def strides : List ℕ → List ℕ
  | [] => []
  | _ :: ds => ds.prod :: strides ds

def flat : List ℕ → List ℕ → ℕ
  | _ :: ds, i :: ix => i * ds.prod + flat ds ix
  | _, _ => 0

def unflat : List ℕ → ℕ → List ℕ
  | [], _ => []
  | _ :: ds, n => n / ds.prod :: unflat ds (n % ds.prod)

def dot : List ℕ → List ℕ → ℕ
  | w :: ws, i :: ix => i * w + dot ws ix
  | _, _ => 0

variable {dims ix ws : List ℕ} {n : ℕ}

@[simp] theorem length_strides (dims : List ℕ) : (strides dims).length = dims.length := by
  induction dims with
  | nil => rfl
  | cons d ds ih => exact congrArg Nat.succ ih

theorem flat_eq_dot (dims ix : List ℕ) : flat dims ix = dot (strides dims) ix := by
  induction dims generalizing ix with
  | nil => rfl
  | cons d ds ih =>
    cases ix with
    | nil => rfl
    | cons i ix => exact congrArg (i * ds.prod + ·) (ih ix)

theorem IsIndex.length_eq (h : IsIndex ix dims) : ix.length = dims.length := List.Forall₂.length_eq h

theorem flat_lt (h : IsIndex ix dims) : flat dims ix < dims.prod := by
  induction h with
  | nil => exact Nat.one_pos
  | @cons i d ix ds hi _ ih =>
    rw [List.prod_cons, flat]
    calc i * ds.prod + flat ds ix < i * ds.prod + ds.prod := Nat.add_lt_add_left ih _
      _ = (i + 1) * ds.prod := by ring
      _ ≤ d * ds.prod := Nat.mul_le_mul_right _ hi

theorem isIndex_unflat (h : n < dims.prod) : IsIndex (unflat dims n) dims := by
  induction dims generalizing n with
  | nil => exact .nil
  | cons d ds ih =>
    rw [List.prod_cons] at h
    have hpos : 0 < ds.prod := Nat.pos_of_ne_zero fun h0 => by simp [h0] at h
    exact .cons ((Nat.div_lt_iff_lt_mul hpos).2 h) (ih (Nat.mod_lt n hpos))

theorem flat_unflat (h : n < dims.prod) : flat dims (unflat dims n) = n := by
  induction dims generalizing n with
  | nil => exact (Nat.lt_one_iff.1 h).symm
  | cons d ds ih =>
    rw [List.prod_cons] at h
    have hpos : 0 < ds.prod := Nat.pos_of_ne_zero fun h0 => by simp [h0] at h
    rw [unflat, flat, ih (Nat.mod_lt n hpos), Nat.mul_comm]
    exact Nat.div_add_mod n ds.prod

theorem unflat_flat (h : IsIndex ix dims) : unflat dims (flat dims ix) = ix := by
  induction h with
  | nil => rfl
  | @cons i d ix ds _ hrest ih =>
    have hlt := flat_lt hrest
    have hpos : 0 < ds.prod := Nat.lt_of_le_of_lt (Nat.zero_le _) hlt
    rw [flat, unflat, Nat.mul_comm, Nat.mul_add_div hpos, Nat.div_eq_of_lt hlt, Nat.add_zero, Nat.mul_add_mod,
      Nat.mod_eq_of_lt hlt, ih]

theorem flat_inj {jx : List ℕ} (h : IsIndex ix dims) (h' : IsIndex jx dims) (heq : flat dims ix = flat dims jx) :
    ix = jx := by
  rw [← unflat_flat h, heq, unflat_flat h']

theorem getElem?_unflat (h : n < dims.prod) {k : ℕ} (hk : k < dims.length) :
    (unflat dims n)[k]? = some (n / (dims.drop (k + 1)).prod % dims[k]) := by
  induction dims generalizing n k with
  | nil => grind
  | cons d ds ih =>
    rw [List.prod_cons] at h
    have hpos : 0 < ds.prod := Nat.pos_of_ne_zero fun h0 => by simp [h0] at h
    cases k with
    | zero =>
      have hlt : n / ds.prod < d := (Nat.div_lt_iff_lt_mul hpos).2 h
      exact congrArg some (Nat.mod_eq_of_lt hlt).symm
    | succ k =>
      have hk' : k < ds.length := Nat.lt_of_succ_lt_succ hk
      have hsplit : ds.prod = (ds.drop (k + 1)).prod * ((ds.take k).prod * ds[k]) := by
        rw [← List.prod_take_mul_prod_drop ds (k + 1), List.prod_take_succ ds k hk']
        ring
      rw [unflat, List.getElem?_cons_succ, ih (Nat.mod_lt n hpos) hk']
      grind [Nat.mod_mul_left_mod, Nat.mod_mul_right_div_self]

theorem dot_append {us jx : List ℕ} (h : ws.length = ix.length) : dot (ws ++ us) (ix ++ jx) = dot ws ix + dot us jx := by
  induction ws generalizing ix with
  | nil =>
    have hnil : ix = [] := List.eq_nil_of_length_eq_zero h.symm
    rw [hnil]
    exact (Nat.zero_add _).symm
  | cons w ws ih =>
    cases ix with
    | nil => cases h
    | cons i ix =>
      rw [List.cons_append, List.cons_append, dot, dot, ih (Nat.succ.inj h), Nat.add_assoc]

theorem dot_drop_le (ws ix : List ℕ) (k : ℕ) : dot (ws.drop k) (ix.drop k) ≤ dot ws ix := by
  induction k generalizing ws ix with
  | zero => exact le_rfl
  | succ k ih =>
    cases ws with
    | nil => exact le_rfl
    | cons w ws =>
      cases ix with
      | nil =>
        rw [List.drop_nil]
        cases (w :: ws).drop (k + 1) <;> exact Nat.zero_le _
      | cons i ix => exact (ih ws ix).trans (Nat.le_add_left _ _)

theorem dot_drop {k w i : ℕ} (hw : ws[k]? = some w) (hi : ix[k]? = some i) :
    dot (ws.drop k) (ix.drop k) = dot (ws.drop (k + 1)) (ix.drop (k + 1)) + i * w := by
  obtain ⟨hwk, rfl⟩ := List.getElem?_eq_some_iff.1 hw
  obtain ⟨hik, rfl⟩ := List.getElem?_eq_some_iff.1 hi
  rw [List.drop_eq_getElem_cons hwk, List.drop_eq_getElem_cons hik, dot, Nat.add_comm]

theorem IsIndex.eraseIdx (h : IsIndex ix dims) (k : ℕ) : IsIndex (ix.eraseIdx k) (dims.eraseIdx k) := by
  induction h generalizing k with
  | nil => exact .nil
  | @cons i d ix ds hi hrest ih =>
    cases k with
    | zero => exact hrest
    | succ k => exact .cons hi (ih k)

theorem IsIndex.insertIdx {k a : ℕ} (h : IsIndex ix (dims.eraseIdx k)) (hk : k < dims.length) (ha : a < dims[k]) :
    IsIndex (ix.insertIdx k a) dims := by
  induction dims generalizing k ix with
  | nil => grind
  | cons d ds ih =>
    cases k with
    | zero => exact .cons ha h
    | succ k =>
      cases h with
      | @cons i _ ix _ hi hrest => exact .cons hi (ih hrest (Nat.lt_of_succ_lt_succ hk) ha)

theorem IsIndex.modify {k len lo : ℕ} (h : IsIndex ix (dims.set k len)) (hk : k < dims.length) (hle : len + lo ≤ dims[k]) :
    IsIndex (ix.modify k (· + lo)) dims := by
  induction dims generalizing k ix with
  | nil => grind
  | cons d ds ih =>
    cases k with
    | zero =>
      cases h with
      | @cons i _ ix _ hi hrest => exact .cons ((Nat.add_lt_add_right hi lo).trans_le hle) hrest
    | succ k =>
      cases h with
      | @cons i _ ix _ hi hrest => exact .cons hi (ih hrest (Nat.lt_of_succ_lt_succ hk) hle)

theorem dot_insertIdx_zero {k : ℕ} (hk : k < ix.length) (hws : k ≤ ws.length) :
    dot (ws.insertIdx k 0) ix = dot ws (ix.eraseIdx k) := by
  induction k generalizing ws ix with
  | zero =>
    cases ix with
    | nil => grind
    | cons i ix => exact Nat.zero_add _
  | succ k ih =>
    cases ix with
    | nil => grind
    | cons i ix =>
      cases ws with
      | nil => grind
      | cons w ws => exact congrArg (i * w + ·) (ih (Nat.lt_of_succ_lt_succ hk) (Nat.le_of_succ_le_succ hws))

theorem pos_of_lt_prod (h : n < dims.prod) {d : ℕ} (hd : d ∈ dims) : 0 < d := by
  refine Nat.pos_of_ne_zero fun h0 => ?_
  rw [List.prod_eq_zero (h0 ▸ hd)] at h
  exact Nat.not_lt_zero n h

end LsLang.Lib.RowMajor
