import LsLang.Core.Deque
import LsLang.Core.VecEdits
import LsLang.Lib.Cells
import LsLang.Lib.Transition

/-! What each method of `Deque` does to the list of its elements. -/

namespace LsLang.Core.Deque

open LsLang.Lib LsLang.Lib.Cells LsLang.Undefined LsLang.Undefined.Res

variable {α : Type} {clone : ℕ → α → α} {d : Deque α} {l : List α} {p q : Cells α} {x : α} {i cap : ℕ}

def Pow (cap : ℕ) : Prop := ∃ k, 3 ≤ k ∧ k ≤ 30 ∧ cap = 2 ^ k

theorem Pow.le (h : Pow cap) : cap ≤ 2 ^ 30 := by
  obtain ⟨k, -, hk, rfl⟩ := h
  exact Nat.pow_le_pow_right Nat.two_pos hk

theorem Pow.ge (h : Pow cap) : 8 ≤ cap := by
  obtain ⟨k, hk, -, rfl⟩ := h
  exact Nat.pow_le_pow_right Nat.two_pos hk

theorem Pow.double (h : Pow cap) (hlt : cap < 2 ^ 30) : Pow (cap * 2) := by
  obtain ⟨k, hk, -, rfl⟩ := h
  have hk' : k < 30 := (Nat.pow_lt_pow_iff_right Nat.one_lt_two).1 hlt
  exact ⟨k + 1, by omega, hk', (Nat.pow_succ 2 k).symm⟩

theorem Pow.dvd (h : Pow cap) : (cap : ℤ) ∣ 2 ^ 32 := by
  obtain ⟨k, -, hk, rfl⟩ := h
  rw [Nat.cast_pow]
  exact pow_dvd_pow 2 (by omega)

theorem masked_eq (h : Pow cap) {x : ℤ} (hl : -2 ^ 31 ≤ x) (hu : x < 2 ^ 31) : masked cap x = .ok (x % cap).toNat := by
  have hge := h.ge
  have hle := h.le
  have hmask : word ((cap : ℤ) - 1) = cap - 1 := by
    unfold word
    grind
  have hword : word x % cap = (x % cap).toNat := by
    unfold word
    rw [← Int.emod_emod_of_dvd x h.dvd, Int.toNat_emod (Int.emod_nonneg x (by norm_num)) (Int.natCast_nonneg cap)]
    rfl
  unfold masked
  rw [asInt_eq hl hu, ok_bind, hmask]
  obtain ⟨k, -, -, rfl⟩ := h
  rw [Nat.and_two_pow_sub_one_eq_mod, hword]
  rfl

theorem masked_natCast (h : Pow cap) {n : ℕ} (hn : n < 2 ^ 31) : masked cap n = .ok (n % cap) := by
  rw [masked_eq h (by omega) (by omega)]
  grind

theorem masked_pred (h : Pow cap) {n : ℕ} (hn : n < cap) :
    masked cap ((n : ℤ) - 1) = .ok ((n + (cap - 1)) % cap) := by
  have hge := h.ge
  have hle := h.le
  have hcast : (n : ℤ) - 1 + cap = ((n + (cap - 1) : ℕ) : ℤ) := by omega
  rw [masked_eq h (by omega) (by omega), ← Int.add_emod_right, hcast]
  grind

/-- The buffer, turned to its head, holds the elements in the first cells and nothing in the others. -/
structure Holds (d : Deque α) (l : List α) : Prop where
  ring : d.data.rotate d.head = full l ++ vacant (d.cap - l.length)
  size : d.data.length = d.cap
  len : d.len = l.length
  room : l.length ≤ d.cap
  cap : d.cap = 0 ∧ d.head = 0 ∨ Pow d.cap ∧ d.head < d.cap

theorem slot_eq (hp : Pow d.cap) (hh : d.head < d.cap) (hi : i ≤ d.cap) :
    d.slot i = .ok ((d.head + i) % d.cap) := by
  have hle := hp.le
  unfold slot
  exact masked_natCast hp (by omega)

theorem lastSlot_eq (hp : Pow d.cap) (hh : d.head < d.cap) (h0 : 0 < d.len) (hlen : d.len ≤ d.cap) :
    d.lastSlot = .ok ((d.head + (d.len - 1)) % d.cap) := by
  have hle := hp.le
  have hcast : (d.head : ℤ) + d.len - 1 = ((d.head + (d.len - 1) : ℕ) : ℤ) := by omega
  unfold lastSlot
  rw [asInt_eq (by omega) (by omega), ok_bind, hcast]
  exact masked_natCast hp (by omega)

theorem Holds.pow (h : d.Holds l) (hne : d.len ≠ 0) : Pow d.cap ∧ d.head < d.cap := by
  have hlen := h.len
  have hroom := h.room
  rcases h.cap with ⟨h0, -⟩ | hp
  · omega
  · exact hp

theorem empty_holds : (empty : Deque α).Holds [] := ⟨rfl, rfl, rfl, Nat.le_refl 0, .inl ⟨rfl, rfl⟩⟩

theorem Holds.ring_at (h : d.Holds l) (l₁ l₂ : List α) (hl : l = l₁ ++ x :: l₂) :
    d.data.rotate d.head = full l₁ ++ some x :: (full l₂ ++ vacant (d.cap - l.length)) := by
  rw [h.ring, hl]
  simp

/-! Growth. -/

theorem relocate_at {k : List α} {n r : ℕ} (hp : Pow d.cap) (hh : d.head < d.cap) (hsize : d.data.length = d.cap)
    (hr : d.data.rotate d.head = p ++ (full l ++ q)) (hi : p.length = i) (hk : k.length = i) (hn : l.length + r = n)
    (hcap : i + l.length ≤ d.cap) :
    ∃ b, forFrom growTurn i l.length (d, full k ++ vacant n) =
        .ok ({ d with data := b }, full (k ++ l) ++ vacant r) ∧
      b.rotate d.head = p ++ (vacant l.length ++ q) ∧ b.length = d.cap := by
  induction l generalizing d p i k n with
  | nil =>
    refine ⟨d.data, ?_, hr, hsize⟩
    rw [List.length_nil, Nat.zero_add] at hn
    rw [List.append_nil, hn]
    rfl
  | cons x l ih =>
    rw [List.length_cons] at hn hcap
    obtain ⟨b, hb, hrot, hlen⟩ := take_ring d.head (b := d.data) (i := i) (x := x)
      (c := p ++ none :: (full l ++ q)) (by rw [hr]; exact Cells.take_at hi)
    have hturn : growTurn i (d, full k ++ vacant n) =
        .ok ({ d with data := b }, full (k ++ [x]) ++ vacant (l.length + r)) := by
      unfold growTurn
      dsimp only
      rw [slot_eq hp hh (by omega), ok_bind, ← hsize, hb, ok_bind]
      have hvac : vacant n = (none :: vacant (l.length + r) : Cells α) := by
        rw [← vacant_succ]
        congr 1
        omega
      dsimp only
      rw [hvac, Cells.store_at (by rw [length_full, hk])]
      simp
    obtain ⟨b', hloop, hrot', hlen'⟩ := ih (d := { d with data := b }) (p := p ++ [none]) (k := k ++ [x])
      (i := i + 1) (n := l.length + r) hp hh (hlen.trans hsize) (hrot.trans (List.append_cons p _ _))
      (by grind) (by grind) rfl (by grind)
    grind [vacant_succ, List.length_cons, forFrom_succ, ok_bind]

theorem eq_vacant {b : Cells α} {n : ℕ} (base : ℕ) (h : b.rotate base = vacant n) : b = vacant n := by
  refine List.rotate_injective base (h.trans ?_)
  exact (List.rotate_replicate none n base).symm

theorem relocate_holds (h : d.Holds l) {n : ℕ} (hn : l.length ≤ n) :
    ∃ e, d.relocate n = .ok (e, full l ++ vacant (n - l.length)) ∧ e.data = vacant d.cap := by
  have hroom := h.room
  unfold relocate
  rw [h.len]
  rcases h.cap with ⟨h0, -⟩ | ⟨hp, hh⟩
  · have hnil : l = [] := List.length_eq_zero_iff.1 (by omega)
    subst hnil
    refine ⟨d, rfl, ?_⟩
    rw [h0]
    exact List.length_eq_zero_iff.1 (h.size.trans h0)
  · obtain ⟨b, hloop, hrot, -⟩ := relocate_at (p := []) (k := []) (i := 0) (n := n) (r := n - l.length) hp hh h.size h.ring
      rfl rfl (by omega) (by omega)
    refine ⟨_, hloop, eq_vacant d.head (hrot.trans ?_)⟩
    rw [List.nil_append, ← vacant_add]
    congr 1
    omega

theorem makeRoom_holds (h : d.Holds l) (hn : l.length < 2 ^ 30) :
    d.makeRoom.Yields fun e => e.Holds l ∧ l.length < e.cap ∧ e.cloned = d.cloned ∧ e.gone = d.gone := by
  have hlen := h.len
  have hroom := h.room
  unfold makeRoom
  split
  · next hfull =>
    have hcap : ∃ c : ℕ, Growth.newcap d.cap = .ok (c : ℤ) ∧ Pow c ∧ l.length < c := by
      unfold Growth.newcap
      rcases h.cap with ⟨h0, -⟩ | ⟨hp, -⟩
      · exact ⟨8, by rw [h0]; rfl, ⟨3, Nat.le_refl 3, by omega, rfl⟩, by omega⟩
      · have hge := hp.ge
        refine ⟨d.cap * 2, ?_, hp.double (by omega), by omega⟩
        rw [if_pos (by omega), asInt_eq (by omega) (by omega), Nat.cast_mul]
        rfl
    obtain ⟨c, hnew, hp, hlt⟩ := hcap
    obtain ⟨e, he, -⟩ := relocate_holds h (Nat.le_of_lt hlt)
    unfold grow
    rw [hnew, ok_bind, Int.toNat_natCast, he, ok_bind]
    refine yields_pure.2 ⟨⟨List.rotate_zero _, ?_, h.len, Nat.le_of_lt hlt, .inr ⟨hp, ?_⟩⟩, hlt, rfl, rfl⟩
    · grind [List.length_append, length_full, length_vacant]
    grind
  grind [yields_ok]

/-! Both ends. -/

theorem Holds.pow_of_lt (h : d.Holds l) (hlt : l.length < d.cap) : Pow d.cap ∧ d.head < d.cap :=
  h.cap.resolve_left fun h0 => by omega

structure SameRecord (d e : Deque α) : Prop where
  cloned : e.cloned = d.cloned
  gone : e.gone = d.gone

theorem pushBack_holds (h : d.Holds l) (hn : l.length < 2 ^ 30) (x : α) :
    (d.pushBack x).Yields fun e => e.Holds (l ++ [x]) ∧ SameRecord d e := by
  unfold pushBack
  refine (makeRoom_holds h hn).bind ?_
  rintro e ⟨he, hlt, hcloned, hgone⟩
  obtain ⟨hp, hh⟩ := he.pow_of_lt hlt
  have hring : e.data.rotate e.head = full l ++ none :: vacant (e.cap - (l.length + 1)) := by
    rw [he.ring, ← vacant_succ]
    congr 2
    omega
  obtain ⟨b, hb, hrot, hsize⟩ := store_ring e.head (x := x) (b := e.data) (i := l.length)
    (by rw [hring]; exact Cells.store_at (length_full l))
  rw [he.size] at hb
  rw [he.len, slot_eq hp hh (Nat.le_of_lt hlt), ok_bind, hb, ok_bind]
  refine yields_pure.2 ⟨⟨?_, hsize.trans he.size, ?_, ?_, .inr ⟨hp, hh⟩⟩, hcloned, hgone⟩
  · refine hrot.trans ?_
    simp
  · grind
  grind

theorem pushFront_holds (h : d.Holds l) (hn : l.length < 2 ^ 30) (x : α) :
    (d.pushFront x).Yields fun e => e.Holds (x :: l) ∧ SameRecord d e := by
  unfold pushFront
  refine (makeRoom_holds h hn).bind ?_
  rintro e ⟨he, hlt, hcloned, hgone⟩
  obtain ⟨hp, hh⟩ := he.pow_of_lt hlt
  have hpos : 0 < e.cap := Nat.lt_of_le_of_lt (Nat.zero_le _) hlt
  -- turned to the new head, the vacant cell at the end comes first
  have hring : e.data.rotate ((e.head + (e.cap - 1)) % e.cap) = none :: (full l ++ vacant (e.cap - (l.length + 1))) := by
    refine List.rotate_injective 1 ?_
    have hprev := rotate_prev (b := e.data) (by rw [he.size]; exact hpos) e.head
    rw [he.size] at hprev
    refine hprev.trans ?_
    show _ = (none :: (full l ++ vacant (e.cap - (l.length + 1)))).rotate 1
    rw [he.ring, List.rotate_cons_succ, List.rotate_zero, List.append_assoc, ← vacant_succ']
    congr 2
    omega
  have hhead : (e.head + (e.cap - 1)) % e.cap < e.cap := Nat.mod_lt _ hpos
  obtain ⟨b, hb, hrot, hsize⟩ := store_ring ((e.head + (e.cap - 1)) % e.cap) (x := x) (b := e.data) (i := 0)
    (by rw [hring]; exact Cells.store_at (p := []) rfl)
  rw [he.size, Nat.add_zero, Nat.mod_eq_of_lt hhead] at hb
  rw [masked_pred hp hh, ok_bind, hb, ok_bind]
  refine yields_pure.2 ⟨⟨?_, hsize.trans he.size, ?_, hlt, .inr ⟨hp, hhead⟩⟩, hcloned, hgone⟩
  · exact hrot
  · show e.len + 1 = _
    rw [he.len]
    rfl

theorem popFront_holds (h : d.Holds l) :
    d.popFront.Yields fun r => r.1 = l.head? ∧ r.2.Holds l.tail ∧ SameRecord d r.2 := by
  have hlen := h.len
  unfold popFront
  split
  · next h0 =>
    obtain rfl := List.length_eq_zero_iff.1 (hlen.symm.trans h0)
    exact yields_ok.2 ⟨rfl, h, rfl, rfl⟩
  · next hne =>
    obtain ⟨hp, hh⟩ := h.pow hne
    cases l with
    | nil => exact absurd hlen hne
    | cons x l =>
      obtain ⟨b, hb, hrot, hsize⟩ := take_ring d.head (x := x) (b := d.data) (i := 0)
        (by rw [h.ring_at [] l rfl]; exact Cells.take_at (p := []) rfl)
      rw [h.size, Nat.add_zero, Nat.mod_eq_of_lt hh] at hb
      have hge := hp.ge
      have hroom := h.room
      rw [List.length_cons] at hroom hlen
      rw [hb, ok_bind]
      dsimp only
      rw [slot_eq hp hh (by omega), ok_bind]
      refine yields_pure.2 ⟨rfl, ⟨?_, hsize.trans h.size, ?_, ?_, .inr ⟨hp, ?_⟩⟩, rfl, rfl⟩
      · show b.rotate ((d.head + 1) % d.cap) = full l ++ vacant (d.cap - l.length)
        rw [← h.size, ← hsize, rotate_next, hrot, hsize, h.size]
        have hvac : (vacant (d.cap - l.length) : Cells α) = vacant (d.cap - (l.length + 1)) ++ [none] := by
          rw [← vacant_succ']
          congr 1
          omega
        rw [hvac]
        simp
      · grind
      · grind
      · exact Nat.mod_lt _ (by show 0 < d.cap; omega)

theorem popBack_holds (h : d.Holds l) :
    d.popBack.Yields fun r => r.1 = l.getLast? ∧ r.2.Holds l.dropLast ∧ SameRecord d r.2 := by
  have hlen := h.len
  unfold popBack
  split
  · next h0 =>
    obtain rfl := List.length_eq_zero_iff.1 (hlen.symm.trans h0)
    exact yields_ok.2 ⟨rfl, h, rfl, rfl⟩
  · next hne =>
    obtain ⟨hp, hh⟩ := h.pow hne
    obtain ⟨k, x, hk⟩ := (List.eq_nil_or_concat l).resolve_left fun hnil => hne (by rw [hlen, hnil]; rfl)
    rw [List.concat_eq_append] at hk
    subst hk
    have hroom := h.room
    rw [List.length_append, List.length_singleton] at hlen hroom
    have hlast : d.len - 1 = k.length := by omega
    obtain ⟨b, hb, hrot, hsize⟩ := take_ring d.head (x := x) (b := d.data) (i := k.length)
      (by rw [h.ring_at k [] rfl]; exact Cells.take_at (length_full k))
    rw [h.size, ← hlast] at hb
    rw [lastSlot_eq hp hh (Nat.pos_of_ne_zero hne) (by omega), ok_bind, hb, ok_bind]
    refine yields_pure.2 ⟨by rw [List.getLast?_concat], ?_, rfl, rfl⟩
    rw [List.dropLast_concat]
    refine ⟨?_, hsize.trans h.size, hlast, ?_, .inr ⟨hp, hh⟩⟩
    · refine hrot.trans ?_
      show _ = full k ++ vacant (d.cap - k.length)
      have hvac : (vacant (d.cap - k.length) : Cells α) = none :: vacant (d.cap - (k.length + 1)) := by
        rw [← vacant_succ]
        congr 1
        omega
      rw [hvac]
      simp
    grind

/-! All elements. -/

theorem disposeTurns_at {l : List α} (hp : Pow d.cap) (hh : d.head < d.cap) (hsize : d.data.length = d.cap)
    (hr : d.data.rotate d.head = p ++ (full l ++ q)) (hi : p.length = i) (hcap : i + l.length ≤ d.cap) :
    ∃ b, forFrom disposeTurn i l.length d = .ok { d with data := b, gone := l.reverse ++ d.gone } ∧
      b.rotate d.head = p ++ (vacant l.length ++ q) ∧ b.length = d.cap := by
  induction l generalizing d p i with
  | nil => exact ⟨d.data, rfl, hr, hsize⟩
  | cons x l ih =>
    rw [List.length_cons] at hcap
    obtain ⟨b, hb, hrot, hlen⟩ := take_ring d.head (b := d.data) (i := i) (x := x)
      (c := p ++ none :: (full l ++ q)) (by rw [hr]; exact Cells.take_at hi)
    have hturn : disposeTurn i d = .ok { d with data := b, gone := x :: d.gone } := by
      unfold disposeTurn
      rw [slot_eq hp hh (by omega), ok_bind, ← hsize, hb, ok_bind]
      rfl
    obtain ⟨b', hloop, hrot', hlen'⟩ := ih (d := { d with data := b, gone := x :: d.gone }) (p := p ++ [none])
      (i := i + 1) hp hh (hlen.trans hsize) (hrot.trans (List.append_cons p _ _))
      (by grind) (by grind)
    grind [vacant_succ, List.length_cons, forFrom_succ, ok_bind]

theorem disposeAll_holds (h : d.Holds l) :
    ∃ e, forFrom disposeTurn 0 d.len d = .ok e ∧ e.data = vacant d.cap ∧ e.cap = d.cap ∧ e.cloned = d.cloned ∧
      e.gone = l.reverse ++ d.gone := by
  have hroom := h.room
  rw [h.len]
  rcases h.cap with ⟨h0, -⟩ | ⟨hp, hh⟩
  · obtain rfl := List.length_eq_zero_iff.1 (by omega : l.length = 0)
    refine ⟨d, rfl, ?_, rfl, rfl, rfl⟩
    rw [h0]
    exact List.length_eq_zero_iff.1 (h.size.trans h0)
  · obtain ⟨b, hloop, hrot, -⟩ := disposeTurns_at (p := []) (i := 0) hp hh h.size h.ring rfl (by omega)
    refine ⟨_, hloop, eq_vacant d.head (hrot.trans ?_), rfl, rfl, rfl⟩
    rw [List.nil_append, ← vacant_add]
    congr 1
    omega

theorem clear_holds (h : d.Holds l) :
    d.clear.Yields fun e => e.Holds [] ∧ e.cloned = d.cloned ∧ e.gone = l.reverse ++ d.gone := by
  obtain ⟨e, he, hdata, hcap, hcloned, hgone⟩ := disposeAll_holds h
  unfold clear
  rw [he, ok_bind]
  refine yields_pure.2 ⟨⟨?_, ?_, rfl, Nat.zero_le _, ?_⟩, hcloned, hgone⟩
  · show e.data.rotate 0 = vacant (e.cap - 0)
    rw [List.rotate_zero, hdata, hcap]
    rfl
  · show e.data.length = e.cap
    rw [hdata, hcap, length_vacant]
  · show e.cap = 0 ∧ 0 = 0 ∨ Pow e.cap ∧ 0 < e.cap
    rw [hcap]
    rcases h.cap with ⟨h0, -⟩ | ⟨hp, hh⟩
    · exact .inl ⟨h0, rfl⟩
    grind

theorem Holds.peek (h : d.Holds l) {i : ℕ} (hx : l[i]? = some x) :
    d.slot i = .ok ((d.head + i) % d.cap) ∧ d.data.peek ((d.head + i) % d.cap) = .ok x := by
  have hi := (List.getElem?_eq_some_iff.1 hx).1
  have hroom := h.room
  obtain ⟨hp, hh⟩ := h.pow (by rw [h.len]; omega)
  refine ⟨slot_eq hp hh (by omega), ?_⟩
  rw [← h.size, peek_ring (by rw [h.size]; omega), h.ring]
  refine peek_eq ?_
  rw [List.getElem?_append_left (by rwa [length_full]), get_full, hx]
  rfl

/-! Reads. -/

theorem read_eq {i : ℕ} (hx : d.data.peek i = .ok x) : d.read clone i = .ok (clone d.cloned.length x) := by
  unfold read
  rw [hx]
  rfl

theorem front_holds (h : d.Holds l) : d.front clone = .ok (l.head?.map (clone d.cloned.length)) := by
  have hlen := h.len
  unfold front
  split
  · grind
  · next hne =>
    obtain ⟨-, hh⟩ := h.pow hne
    cases l with
    | nil => exact absurd hlen hne
    | cons x l =>
      have hx := (h.peek (i := 0) (x := x) rfl).2
      rw [Nat.add_zero, Nat.mod_eq_of_lt hh] at hx
      rw [read_eq hx]
      rfl

theorem back_holds (h : d.Holds l) : d.back clone = .ok (l.getLast?.map (clone d.cloned.length)) := by
  have hlen := h.len
  have hroom := h.room
  unfold back
  split
  · grind
  · next hne =>
    obtain ⟨hp, hh⟩ := h.pow hne
    have hlast : d.len - 1 < l.length := by omega
    have hx := List.getElem?_eq_getElem hlast
    rw [lastSlot_eq hp hh (Nat.pos_of_ne_zero hne) (by omega), ok_bind, read_eq (h.peek hx).2,
      List.getLast?_eq_getElem?, ← hlen, hx]
    rfl

theorem get_holds (h : d.Holds l) (i : ℤ) :
    d.get clone i = .ok (if i < 0 then none else l[i.toNat]?.map (clone d.cloned.length)) := by
  have hlen := h.len
  unfold get
  by_cases hi : i < 0
  · grind
  · rw [if_neg hi]
    by_cases hge : (d.len : ℤ) ≤ i
    · grind
    · have hx := List.getElem?_eq_getElem (show i.toNat < l.length by omega)
      rw [if_neg (by omega), (h.peek hx).1, ok_bind, read_eq (h.peek hx).2, hx]
      rfl

theorem toVecTurns_holds {k rest : List α} {v : Vec α} {s : Stock α} (h : d.Holds l) (hl : l = k ++ rest)
    (hv : v.Holds s) (hn : s.items.length + rest.length ≤ 2 ^ 30) :
    (forFrom (d.toVecTurn clone) k.length rest.length v).Yields
      (·.Holds ⟨s.items ++ Vec.clonesOf clone s.cloned.length rest,
        (Vec.clonesOf clone s.cloned.length rest).reverse ++ s.cloned, s.gone⟩) := by
  induction rest generalizing k v s with
  | nil =>
    refine yields_ok.2 ?_
    simpa [Vec.clonesOf] using hv
  | cons y rest ih =>
    rw [List.length_cons] at hn
    have hdup : Vec.Holds { v with cloned := clone v.cloned.length y :: v.cloned }
        { s with cloned := clone s.cloned.length y :: s.cloned } := by
      refine ⟨hv.data, hv.len, hv.room, ?_, hv.gone⟩
      rw [hv.cloned]
    have hy : l[k.length]? = some y := by grind
    have hturn : d.toVecTurn clone k.length v =
        Vec.push { v with cloned := clone v.cloned.length y :: v.cloned } (clone v.cloned.length y) := by
      unfold toVecTurn
      rw [(h.peek hy).1, ok_bind, (h.peek hy).2, ok_bind]
      rfl
    rw [List.length_cons, forFrom_succ, hturn]
    refine (Vec.push_holds hdup (by grind) (clone v.cloned.length y)).bind fun w hw => ?_
    rw [hv.cloned] at hw
    have hk : k.length + 1 = (k ++ [y]).length := by grind
    rw [hk]
    refine (ih (hl.trans (List.append_cons k y rest)) hw ?_).mono fun u hu => ?_
    · grind
    · simpa [Vec.clonesOf] using hu

theorem toVec_holds (h : d.Holds l) (hn : l.length ≤ 2 ^ 30) :
    (d.toVec clone).Yields (·.Holds ⟨Vec.clonesOf clone 0 l, (Vec.clonesOf clone 0 l).reverse, []⟩) := by
  have hlen := h.len
  unfold toVec
  refine (Vec.reserve_holds Vec.empty_holds (by omega)).bind ?_
  rintro v ⟨hv, -⟩
  rw [hlen]
  refine (toVecTurns_holds (k := []) h rfl hv (by grind)).mono fun u hu => ?_
  simpa using hu

variable (clone) in
theorem cloneTurns_at {k rest : List α} (made : List α) {e : Deque α} {m r : ℕ} (h : d.Holds l) (hl : l = k ++ rest)
    (hdata : e.data = full made ++ vacant m) (hmade : made.length = k.length) (hm : rest.length + r = m) :
    forFrom (d.cloneTurn clone) k.length rest.length e = .ok { e with
      data := full (made ++ Vec.clonesOf clone e.cloned.length rest) ++ vacant r
      cloned := (Vec.clonesOf clone e.cloned.length rest).reverse ++ e.cloned } := by
  induction rest generalizing k made e m with
  | nil =>
    obtain ⟨data, cap, head, len, cloned, gone⟩ := e
    rw [List.length_nil, Nat.zero_add] at hm
    subst hm
    subst hdata
    simp only [Vec.clonesOf, List.append_nil]
    rfl
  | cons y rest ih =>
    rw [List.length_cons] at hm
    have hy : l[k.length]? = some y := by grind
    have hvac : e.data = full made ++ none :: vacant (rest.length + r) := by
      rw [hdata, ← vacant_succ]
      congr 2
      omega
    have hturn : d.cloneTurn clone k.length e = .ok { e with
        data := full (made ++ [clone e.cloned.length y]) ++ vacant (rest.length + r)
        cloned := clone e.cloned.length y :: e.cloned } := by
      unfold cloneTurn
      rw [(h.peek hy).1, ok_bind, (h.peek hy).2, ok_bind]
      dsimp only
      rw [hvac, Cells.store_at (by rw [length_full, hmade])]
      simp
    have hk : k.length + 1 = (k ++ [y]).length := by grind
    rw [List.length_cons, forFrom_succ, hturn, ok_bind, hk]
    refine (ih _ (hl.trans (List.append_cons k y rest)) rfl ?_ rfl).trans ?_
    · grind
    · simp [Vec.clonesOf]

variable (clone) in
theorem copy_holds (h : d.Holds l) :
    (d.copy clone).Yields fun e => e.Holds (Vec.clonesOf clone d.cloned.length l) ∧
      e.cloned = (Vec.clonesOf clone d.cloned.length l).reverse ++ d.cloned ∧ e.gone = d.gone := by
  have hlen := h.len
  have hroom := h.room
  unfold copy
  dsimp only
  split
  · next h0 =>
    obtain rfl := List.length_eq_zero_iff.1 (by omega : l.length = 0)
    exact yields_ok.2 ⟨⟨rfl, rfl, rfl, Nat.le_refl 0, .inl ⟨rfl, rfl⟩⟩, rfl, rfl⟩
  · next hne =>
    obtain ⟨hp, hh⟩ := h.cap.resolve_left fun h0 => hne h0.1
    have hturns := cloneTurns_at clone [] (k := []) (r := d.cap - l.length)
      (e := { (empty : Deque α) with
        data := vacant d.cap, cap := d.cap, len := d.len, cloned := d.cloned, gone := d.gone }) h rfl rfl rfl (by omega)
    rw [← hlen] at hturns
    refine ⟨_, hturns, ⟨?_, ?_, ?_, ?_, .inr ⟨hp, Nat.zero_lt_of_lt hh⟩⟩, rfl, rfl⟩
    · show (full _ ++ vacant _).rotate 0 = full _ ++ vacant (d.cap - _)
      rw [List.rotate_zero, Vec.length_clonesOf, hlen]
      rfl
    · show (full _ ++ vacant _ : Cells α).length = d.cap
      rw [List.length_append, length_full, length_vacant, List.nil_append, Vec.length_clonesOf]
      omega
    · rw [Vec.length_clonesOf]
      exact hlen
    · rw [Vec.length_clonesOf]
      exact hroom

theorem next_some (h : d.Holds l) {i : ℕ} (hx : l[i]? = some x) :
    DequeIter.next clone ⟨d, i⟩ = .ok (some (clone (d.cloned.length + i) x), ⟨d, i + 1⟩) := by
  have hlen := h.len
  have hi := (List.getElem?_eq_some_iff.1 hx).1
  unfold DequeIter.next
  dsimp only
  rw [if_neg (by omega), (h.peek hx).1, ok_bind, (h.peek hx).2, ok_bind]
  rfl

theorem next_none (h : d.Holds l) : DequeIter.next clone ⟨d, l.length⟩ = .ok (none, ⟨d, l.length⟩) := by
  unfold DequeIter.next
  exact if_pos (Nat.le_of_eq h.len)

theorem collect_holds (h : d.Holds l) {k rest : List α} (hl : l = k ++ rest) {fuel : ℕ} (hfuel : rest.length < fuel) :
    DequeIter.collect clone fuel ⟨d, k.length⟩ = .ok (Vec.clonesOf clone (d.cloned.length + k.length) rest) := by
  induction rest generalizing k fuel with
  | nil =>
    obtain ⟨fuel, rfl⟩ := Nat.exists_eq_add_of_lt hfuel
    rw [List.append_nil] at hl
    subst hl
    unfold DequeIter.collect
    rw [next_none h, ok_bind]
    rfl
  | cons x rest ih =>
    rw [List.length_cons] at hfuel
    obtain ⟨fuel, rfl⟩ := Nat.exists_eq_add_of_lt hfuel
    have hx : l[k.length]? = some x := by grind
    have hrest := ih (hl.trans (List.append_cons k x rest)) (show rest.length < rest.length + 1 + fuel by omega)
    rw [List.length_append, List.length_singleton] at hrest
    unfold DequeIter.collect
    rw [next_some h hx, ok_bind]
    dsimp only
    rw [hrest, ok_bind]
    rfl

end LsLang.Core.Deque

/-! Runs of operations on a `Deque`: it goes on as a list does. -/

namespace LsLang.Core

open LsLang.Lib LsLang.Lib.Cells LsLang.Undefined LsLang.Undefined.Res

inductive DequeOp (α : Type)
  | pushBack (x : α)
  | pushFront (x : α)
  | popFront
  | popBack
  | clear
  /-- the run goes on with the copy -/
  | clone

namespace DequeOp

variable {α : Type} (clone : ℕ → α → α)

def quiet (r : Res (Deque α)) : Res (Option α × Deque α) := do
  let d ← r
  pure (none, d)

/-- The call, with the element that it hands back. -/
def run (d : Deque α) : DequeOp α → Res (Option α × Deque α)
  | pushBack x => quiet (d.pushBack x)
  | pushFront x => quiet (d.pushFront x)
  | popFront => d.popFront
  | popBack => d.popBack
  | clear => quiet d.clear
  | DequeOp.clone => quiet (d.copy clone)

/-- No more than 2^30 elements come of it. -/
def Fits (n : ℕ) : DequeOp α → Prop
  | pushBack _ | pushFront _ => n + 1 < 2 ^ 30
  | _ => True

def onList : List α × ℕ → DequeOp α → List α × ℕ
  | (l, k), pushBack x => (l ++ [x], k)
  | (l, k), pushFront x => (x :: l, k)
  | (l, k), popFront => (l.tail, k)
  | (l, k), popBack => (l.dropLast, k)
  | (_, k), clear => ([], k)
  | (l, k), DequeOp.clone => (Vec.clonesOf clone k l, k + l.length)

/-- What the operation hands back of a sequence. -/
def taken (l : List α) : DequeOp α → Option α
  | popFront => l.head?
  | popBack => l.getLast?
  | _ => none

/-- One call that comes to an end. -/
def Step (d : Deque α) (op : DequeOp α) (e : Deque α) : Prop :=
  op.Fits d.len ∧ ∃ out, op.run clone d = .ok (out, e)

end DequeOp

namespace Deque

variable {α : Type} {clone : ℕ → α → α} {d e : Deque α} {l : List α} {k : ℕ}

/-- What the reads show of the sequence: clones, of which there were `k` before. -/
structure Shows (clone : ℕ → α → α) (d : Deque α) (l : List α) : Prop where
  get : ∀ i : ℤ, d.get clone i = .ok (if i < 0 then none else l[i.toNat]?.map (clone d.cloned.length))
  front : d.front clone = .ok (l.head?.map (clone d.cloned.length))
  back : d.back clone = .ok (l.getLast?.map (clone d.cloned.length))
  toVec : (d.toVec clone).Yields (·.Holds ⟨Vec.clonesOf clone 0 l, (Vec.clonesOf clone 0 l).reverse, []⟩)
  iter : DequeIter.collect clone (l.length + 1) (DequeIter.iter d) = .ok (Vec.clonesOf clone d.cloned.length l)

theorem and_mask (hp : Pow d.cap) (n : ℕ) : n &&& (d.cap - 1) = n % d.cap := by
  obtain ⟨k, -, -, hk⟩ := hp
  rw [hk, Nat.and_two_pow_sub_one_eq_mod]

theorem Holds.shows (h : d.Holds l) (hn : l.length ≤ 2 ^ 30) : d.Shows clone l where
  get := get_holds h
  front := front_holds h
  back := back_holds h
  toVec := toVec_holds h hn
  iter := collect_holds h (k := []) rfl (Nat.lt_succ_self _)

/-- The sequence after a run of operations on the empty one. -/
def sequence (clone : ℕ → α → α) (ops : List (DequeOp α)) : List α × ℕ :=
  ops.foldl (DequeOp.onList clone) ([], 0)

variable (clone) in
theorem Holds.call (h : d.Holds l) {op : DequeOp α} (hn : l.length < 2 ^ 30) (hfit : op.Fits l.length) :
    (op.run clone d).Yields fun r => r.1 = op.taken l ∧
      r.2.Holds (op.onList clone (l, d.cloned.length)).1 ∧
      r.2.cloned.length = (op.onList clone (l, d.cloned.length)).2 ∧
      (op.onList clone (l, d.cloned.length)).1.length < 2 ^ 30 := by
  cases op with
  | pushBack x =>
    obtain ⟨e, he, hl, hsame⟩ := pushBack_holds h hn x
    refine ⟨(none, e), ?_, rfl, hl, congrArg List.length hsame.cloned, ?_⟩
    · show DequeOp.quiet (d.pushBack x) = _
      rw [he]
      rfl
    · show (l ++ [x]).length < 2 ^ 30
      rw [List.length_append]
      exact hfit
  | pushFront x =>
    obtain ⟨e, he, hl, hsame⟩ := pushFront_holds h hn x
    refine ⟨(none, e), ?_, rfl, hl, congrArg List.length hsame.cloned, hfit⟩
    show DequeOp.quiet (d.pushFront x) = _
    rw [he]
    rfl
  | popFront =>
    refine (popFront_holds h).mono ?_
    rintro ⟨out, e⟩ ⟨hout, hl, hsame⟩
    refine ⟨hout, hl, congrArg List.length hsame.cloned, ?_⟩
    show l.tail.length < 2 ^ 30
    grind
  | popBack =>
    refine (popBack_holds h).mono ?_
    rintro ⟨out, e⟩ ⟨hout, hl, hsame⟩
    refine ⟨hout, hl, congrArg List.length hsame.cloned, ?_⟩
    show l.dropLast.length < 2 ^ 30
    grind
  | clear =>
    obtain ⟨e, he, hl, hcloned, -⟩ := clear_holds h
    refine ⟨(none, e), ?_, rfl, hl, congrArg List.length hcloned, Nat.two_pow_pos 30⟩
    show DequeOp.quiet d.clear = _
    rw [he]
    rfl
  | clone =>
    obtain ⟨e, he, hl, hcloned, -⟩ := copy_holds clone h
    refine ⟨(none, e), ?_, rfl, hl, ?_, ?_⟩
    · show DequeOp.quiet (d.copy clone) = _
      rw [he]
      rfl
    · show e.cloned.length = d.cloned.length + l.length
      rw [hcloned, List.length_append, List.length_reverse, Vec.length_clonesOf, Nat.add_comm]
    · show (Vec.clonesOf clone d.cloned.length l).length < 2 ^ 30
      rw [Vec.length_clonesOf]
      exact hn

def Follows (clone : ℕ → α → α) (ops : List (DequeOp α)) (d : Deque α) : Prop :=
  d.Holds (sequence clone ops).1 ∧ d.cloned.length = (sequence clone ops).2 ∧ (sequence clone ops).1.length < 2 ^ 30

theorem Follows.step {ops : List (DequeOp α)} {op : DequeOp α} (h : Follows clone ops d)
    (hs : DequeOp.Step clone d op e) : Follows clone (ops ++ [op]) e := by
  obtain ⟨hl, hk, hn⟩ := h
  obtain ⟨hfit, out, hrun⟩ := hs
  obtain ⟨r, hr, -, hl', hk', hn'⟩ := hl.call clone hn (hl.len ▸ hfit)
  rw [hrun] at hr
  cases hr
  unfold Follows sequence
  rw [List.foldl_append]
  show e.Holds (DequeOp.onList clone (sequence clone ops) op).1 ∧ _
  rw [hk] at hl' hk' hn'
  exact ⟨hl', hk', hn'⟩

end Deque

end LsLang.Core
