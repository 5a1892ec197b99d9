import LsLang.Regex.Emitted
import Mathlib.Data.Bool.AllAny

/-! Which bytes a character class accepts, with the other classes of the pattern around it. -/

namespace LsLang.Regex

theorem classTest_eq {re : ReHandle} {bodies : List (Bool × List UInt8)} (h : ClassMem re bodies) {k : Nat}
    {body : Bool × List UInt8} (hk : bodies[k]? = some body) (b : UInt8) (hb : b < 128 ∨ k + 1 < maxClasses) :
    re.classTest k b = if b < 128 then bodyBit body b else cell bodies ((k + 1) * 128 + (b.toNat - 128)) := by
  have hroom := h.room
  obtain ⟨hlt, -⟩ := List.getElem?_eq_some_iff.1 hk
  have hbyte := b.toNat_lt
  unfold ReHandle.classTest ReHandle.classBit
  simp only [maxClasses] at hb hroom ⊢
  by_cases hlow : b < 128
  · have hnat : b.toNat < 128 := UInt8.lt_iff_toNat_lt.1 hlow
    rw [if_pos hlow, if_pos (by omega), h.cells _ (by grind)]
    unfold cell
    grind [UInt8.ofNat_toNat]
  · have hnat : 128 ≤ b.toNat := Nat.not_lt.1 fun hn => hlow (UInt8.lt_iff_toNat_lt.2 hn)
    have hk' : k + 1 < 64 := hb.resolve_left hlow
    rw [if_neg hlow, if_pos (by omega), h.cells _ (by grind),
      show (k + 1) * 128 + (b.toNat - 128) = k * 128 + b.toNat by omega]

theorem classTest_last {re : ReHandle} {bodies : List (Bool × List UInt8)} (h : ClassMem re bodies)
    (hlen : bodies.length = maxClasses) : re.classTest 63 134 = true := by
  have hbit : re.nClasses.testBit 6 = true := by
    rcases h.count with heq | ⟨-, hbit, -⟩
    · rw [heq, hlen]
      decide
    · exact hbit
  unfold ReHandle.classTest ReHandle.classBit
  grind

theorem cell_next {bodies : List (Bool × List UInt8)} {k : Nat} (hk : k + 1 = bodies.length)
    {body : Bool × List UInt8} (hbody : bodies[k]? = some body) {i : Nat} (hi : i < 128) :
    cell bodies ((k + 1) * 128 + i) = decide (UInt8.ofNat (128 + i) ∈ body.2) := by
  have hlast : bodies.getLast? = some body := by grind
  unfold cell
  grind

theorem toNat_high {i : Nat} (hi : i < 128) : (UInt8.ofNat (128 + i)).toNat = 128 + i := by
  rw [UInt8.toNat_ofNat', Nat.mod_eq_of_lt (by omega)]

theorem forall_high {P : Nat → Prop} : (∀ b : UInt8, ¬ b < 128 → P (b.toNat - 128)) ↔ ∀ i < 128, P i := by
  constructor
  · intro h i hi
    have hhigh : ¬ UInt8.ofNat (128 + i) < 128 := by grind [toNat_high, UInt8.lt_iff_toNat_lt]
    have := h _ hhigh
    rwa [toNat_high hi, Nat.add_sub_cancel_left] at this
  · intro h b hb
    have := b.toNat_lt
    exact h _ (by omega)

theorem forall_low {P : UInt8 → Prop} : (∀ c < 128, P c) ↔ ∀ i < 128, P (UInt8.ofNat i) := by
  grind [UInt8.lt_iff_toNat_lt, UInt8.ofNat_toNat, UInt8.toNat_ofNat', Nat.mod_eq_of_lt]

/-- A class accepts exactly its own bytes when the class behind it accepts none, or, where it is the
last one, when its body has no byte from 128 on. -/
theorem class_exact_iff {pattern : List UInt8} {flags : Nat} {re : ReHandle} {x : Node} {r : Reader}
    (h : compile pattern flags = .ok re) (hread : readPattern pattern flags = some (x, r))
    (hcase : re.ignorecase = false) {k : Nat} {body : Bool × List UInt8} (hk : r.classes[k]? = some body) :
    (∀ b, re.matchChar (.cls k) b = true ↔ b < 128 ∧ bodyBit body b = true) ↔
      k + 1 < maxClasses ∧
        match r.classes[k + 1]? with
        | some next => ∀ c < 128, bodyBit next c = false
        | none => ∀ b ∈ body.2, b < 128 := by
  obtain ⟨t, r', tail, hread', hholds⟩ := compile_holds h
  rw [hread] at hread'
  cases hread'
  have hmem := hholds.classes
  have hroom := hmem.room
  have hlt := (List.getElem?_eq_some_iff.1 hk).1
  have hmatch : ∀ b, re.matchChar (.cls k) b = re.classTest k b := fun b => by
    show re.classTest k (if re.ignorecase = true then tolower b else b) = _
    rw [hcase]
    rfl
  by_cases hlast : k + 1 < maxClasses
  -- a byte from 128 on is looked up in the cells of the next class
  · have hreduce : (∀ b, re.matchChar (.cls k) b = true ↔ b < 128 ∧ bodyBit body b = true) ↔
        ∀ i < 128, cell r.classes ((k + 1) * 128 + i) = false := by
      rw [← forall_high]
      refine forall_congr' fun b => ?_
      rw [hmatch b, classTest_eq hmem hk b (.inr hlast)]
      by_cases hb : b < 128 <;> simp [hb]
    rw [hreduce, and_iff_right hlast]
    cases hnext : r.classes[k + 1]? with
    | some next =>
      dsimp only
      rw [forall_low]
      refine forall₂_congr fun i hi => ?_
      unfold cell
      rw [show ((k + 1) * 128 + i) / 128 = k + 1 by omega, hnext,
        show ((k + 1) * 128 + i) % 128 = i by omega]
    | none =>
      dsimp only
      -- without a next class its cells hold the high bytes of the body itself
      have hend : k + 1 = r.classes.length := by
        have := List.getElem?_eq_none_iff.1 hnext
        omega
      have hbytes : (∀ b ∈ body.2, b < 128) ↔ ∀ i < 128, UInt8.ofNat (128 + i) ∉ body.2 := by
        rw [← forall_high]
        refine forall_congr' fun b => ?_
        by_cases hb : b < 128
        · exact iff_of_true (fun _ => hb) fun hn => absurd hb hn
        · have hnat : 128 ≤ b.toNat := Nat.not_lt.1 fun hn => hb (UInt8.lt_iff_toNat_lt.2 hn)
          rw [Nat.add_sub_cancel' hnat, UInt8.ofNat_toNat]
          exact ⟨fun h _ hmem => hb (h hmem), fun h hmem => absurd hmem (h hb)⟩
      rw [hbytes]
      refine forall₂_congr fun i hi => ?_
      rw [cell_next hend hk hi, decide_eq_false_iff_not]
  · have hfull : r.classes.length = maxClasses := by omega
    refine iff_of_false (fun hall => ?_) fun hcond => hlast hcond.1
    -- behind the last bitmap stands the number of classes, in which the bit of 64 is set
    have h134 := classTest_last hmem hfull
    have hk63 : k = 63 := by
      simp only [maxClasses] at hlast hfull
      omega
    have := (hall 134).1 (by rw [hmatch, hk63]; exact h134)
    exact absurd this.1 (by decide)

theorem class_exact_iff_abc : ∃ re, compile [91, 97, 45, 99, 93] 0 = .ok re ∧
    ∀ b, re.matchChar (.cls 0) b = true ↔ b < 128 ∧ bodyBit (false, [97, 98, 99]) b = true := by
  obtain ⟨x, r, hread, hclasses⟩ : ∃ x r, readPattern [91, 97, 45, 99, 93] 0 = some (x, r) ∧
      r.classes = [(false, [97, 98, 99])] := ⟨_, _, rfl, rfl⟩
  refine ⟨_, rfl, (class_exact_iff rfl hread rfl (by rw [hclasses]; rfl)).2 ⟨by decide, ?_⟩⟩
  rw [hclasses]
  show ∀ b ∈ ([97, 98, 99] : List UInt8), b < 128
  exact List.all_iff_forall_prop.1 rfl

/-- In `[a][b]` the class `[a]` accepts the byte 226, which is `b` and 128. -/
theorem class_reads_neighbour : ∃ re, compile [91, 97, 93, 91, 98, 93] 0 = .ok re ∧ re.ignorecase = false ∧
    ¬ ∀ b, re.matchChar (.cls 0) b = true ↔ b < 128 ∧ bodyBit (false, [97]) b = true :=
  ⟨_, rfl, rfl, fun h => absurd ((h 226).1 (by decide)).1 (by decide)⟩

end LsLang.Regex
