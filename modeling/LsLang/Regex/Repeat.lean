import LsLang.Regex.Emitted
import Mathlib.Data.ENat.Basic

/-! Counted repetition: how the bounds are read, when the expansion fits, and how often the
expanded code runs its body. -/

namespace LsLang.Regex

structure Numeral where
  digits : List UInt8
  ne_nil : digits ≠ []
  all_digits : ∀ ch ∈ digits, isdigit ch = true

/-- The number with the digits `ds` behind the digits of `v`. -/
def decimal (v : Nat) (ds : List UInt8) : Nat :=
  ds.foldl (fun v ch => v * 10 + (ch.toNat - (byte '0').toNat)) v

def Numeral.value (n : Numeral) : Nat := decimal 0 n.digits

/-- What stands behind the brace of a counted repetition. -/
inductive Form
  | exact (n : Numeral)
  | atLeast (n : Numeral)
  | between (n m : Numeral)

namespace Form

def text : Form → List UInt8
  | exact n => n.digits ++ [byte '}']
  | atLeast n => n.digits ++ [byte ',', byte '}']
  | between n m => n.digits ++ byte ',' :: (m.digits ++ [byte '}'])

def low : Form → Nat
  | exact n => n.value
  | atLeast n => n.value
  | between n _ => n.value

def high : Form → ℕ∞
  | exact n => n.value
  | atLeast _ => ⊤
  | between _ m => m.value

/-- The upper bound, where there is one, is not below the lower one and at most 255. -/
def InRange : Form → Prop
  | exact n => n.value ≤ 255
  | atLeast _ => True
  | between n m => n.value ≤ m.value ∧ m.value ≤ 255

/-- The `n` that `parse_piece` holds. -/
def nMin (f : Form) : Int := i32 f.low

/-- The `m` that `parse_piece` holds. -/
def nMax : Form → Int
  | exact n => i32 n.value
  | atLeast _ => -1
  | between _ m => i32 m.value

end Form

section Read

theorem i32_digit (x d : Int) : i32 (i32 x * 10 + d) = i32 (x * 10 + d) := by
  unfold i32
  grind

theorem digit_value {ch : UInt8} (h : isdigit ch = true) :
    ((ch.toNat - (byte '0').toNat : Nat) : Int) = ch.toNat - (byte '0').toNat := by
  unfold isdigit at h
  have hle : byte '0' ≤ ch := by grind
  have := UInt8.le_iff_toNat_le.1 hle
  omega

theorem scanDigits_append {ds rest : List UInt8} (hds : ∀ ch ∈ ds, isdigit ch = true)
    (hrest : ∀ ch ∈ rest.head?, isdigit ch = false) (v : Nat) :
    scanDigits (ds ++ rest) (i32 v) = (i32 (decimal v ds), rest) := by
  induction ds generalizing v with
  | nil =>
    cases rest with
    | nil => rfl
    | cons ch rest =>
      rw [List.nil_append, scanDigits, hrest ch rfl]
      rfl
  | cons ch ds ih =>
    have hch := hds ch List.mem_cons_self
    rw [List.cons_append, scanDigits, if_pos hch, i32_digit, ← digit_value hch]
    have hnext := ih (fun c hc => hds c (List.mem_cons_of_mem _ hc)) (v * 10 + (ch.toNat - (byte '0').toNat))
    push_cast at hnext ⊢
    exact hnext

theorem Numeral.scan (n : Numeral) {rest : List UInt8} (hrest : ∀ ch ∈ rest.head?, isdigit ch = false) :
    scanDigits (n.digits ++ rest) 0 = (i32 n.value, rest) :=
  scanDigits_append n.all_digits hrest 0

/-- The checks on the bounds. -/
def BoundsPass (n m : Int) : Prop := m = -1 ∨ (m ≤ 255 ∧ n ≤ m)

/-- What `parse_piece` does with the bounds it has read, in front of `rest`. -/
def checkCount (n m : Int) (rest : List UInt8) : Except Stop (Count × List UInt8) :=
  if m ≠ -1 ∧ 255 < m then fail "\x7bn,m\x7d: m exceeds limit 255"
  else if m ≠ -1 ∧ m < n then fail "\x7bn,m\x7d: m < n"
  else .ok (⟨n, m, (scanLazy rest).1⟩, (scanLazy rest).2)

theorem head?_append_cons {ds : List UInt8} {ch : UInt8} {rest : List UInt8} (hne : ds ≠ []) :
    ∃ d rest', ds ++ ch :: rest = d :: rest' ∧ d ∈ ds := by
  obtain ⟨d, ds', rfl⟩ := List.exists_cons_of_ne_nil hne
  grind

theorem scanCount_text (f : Form) (rest : List UInt8) :
    scanCount (f.text ++ rest) = checkCount f.nMin f.nMax rest := by
  have hend : ∀ ch ∈ (byte '}' :: rest).head?, isdigit ch = false := by
    intro ch hch
    obtain rfl : byte '}' = ch := by simpa using hch
    rfl
  have hcomma : ∀ tail, ∀ ch ∈ (byte ',' :: tail).head?, isdigit ch = false := by
    intro tail ch hch
    obtain rfl : byte ',' = ch := by simpa using hch
    rfl
  cases f with
  | exact n =>
    have hscan := n.scan hend
    unfold scanCount
    rw [Form.text, List.append_assoc, List.singleton_append, hscan]
    simp only [show ¬ byte '}' = byte ',' by decide, if_false, if_true, Bool.false_eq_true]
    rfl
  | atLeast n =>
    have hscan := n.scan (hcomma (byte '}' :: rest))
    unfold scanCount
    rw [Form.text, List.append_assoc, List.cons_append, List.singleton_append, hscan]
    simp only [if_true]
    rfl
  | between n m =>
    have hscan := n.scan (hcomma (m.digits ++ byte '}' :: rest))
    have hscan' := m.scan hend
    obtain ⟨d, tail, heq, hd⟩ := @head?_append_cons m.digits (byte '}') rest m.ne_nil
    have hbrace : d ≠ byte '}' := by
      rintro rfl
      exact absurd (m.all_digits _ hd) (by decide)
    unfold scanCount
    rw [Form.text, List.append_assoc, List.cons_append, List.append_assoc, List.singleton_append, hscan]
    rw [heq] at hscan' ⊢
    simp only [if_true, if_neg hbrace, hscan']
    rfl

theorem checkCount_ok {n m : Int} {rest rest' : List UInt8} {k : Count} (h : checkCount n m rest = .ok (k, rest')) :
    BoundsPass n m ∧ k.nMin = n ∧ k.nMax = m ∧ rest' = (scanLazy rest).2 := by
  unfold checkCount at h
  split at h
  · cases h
  next hlarge =>
  split at h
  · cases h
  next hlow =>
  cases h
  refine ⟨?_, rfl, rfl, rfl⟩
  unfold BoundsPass
  omega

theorem checkCount_pass {n m : Int} (h : BoundsPass n m) (rest : List UInt8) :
    checkCount n m rest = .ok (⟨n, m, (scanLazy rest).1⟩, (scanLazy rest).2) := by
  unfold BoundsPass at h
  unfold checkCount
  grind

end Read

section Expand

/-- The code runs the body `body` at least `low` and at most `high` times. -/
inductive Repeats (body : Code) : Code → Nat → ℕ∞ → Prop
  | none : Repeats body [] 0 0
  | once : Repeats body body 1 1
  | opt (lazy : Bool) : Repeats body (quantCode .opt lazy body) 0 1
  | star (lazy : Bool) : Repeats body (quantCode .star lazy body) 0 ⊤
  | seq {c d : Code} {low low' : Nat} {high high' : ℕ∞} :
      Repeats body c low high → Repeats body d low' high' → Repeats body (c ++ d) (low + low') (high + high')

variable {body c : Code} {low : Nat} {high : ℕ∞}

theorem Repeats.length_le (h : Repeats body c low high) : low * body.length ≤ c.length := by
  induction h with
  | none => grind
  | once => grind
  | opt => grind
  | star => grind
  | seq _ _ ih ih' =>
    grind

theorem Repeats.times (h : Repeats body c low high) (k : Nat) :
    Repeats body (times k c) (k * low) (k * high) := by
  induction k with
  | zero =>
    rw [Nat.zero_mul, Nat.cast_zero, zero_mul]
    exact .none
  | succ k ih =>
    rw [times_succ, Nat.succ_mul, Nat.add_comm, Nat.cast_succ, add_mul, one_mul, add_comm (_ * high)]
    exact .seq h ih

theorem repeats_countCode {n m : Int} (hn : 0 ≤ n) (hm : m = -1 ∨ n ≤ m) (lazy : Bool) (body : Code) :
    Repeats body (countCode n m lazy body) n.toNat (if m = -1 then ⊤ else (m.toNat : ℕ∞)) := by
  have hopt := fun k => (@Repeats.opt body lazy).times k
  unfold countCode
  by_cases hzero : n = 0
  · rw [if_pos hzero, hzero]
    by_cases hm₀ : m = 0
    · rw [if_pos hm₀, hm₀]
      exact .none
    · rw [if_neg hm₀]
      split
      · exact .star lazy
      · have h := (@Repeats.opt body lazy).seq (hopt (m - 1).toNat)
        rw [Nat.mul_zero, mul_one] at h
        rw [show m.toNat = 1 + (m - 1).toNat by omega]
        exact_mod_cast h
  · rw [if_neg hzero]
    have h := Repeats.once.seq ((@Repeats.once body).times (n - 1).toNat)
    rw [Nat.mul_one, mul_one, show 1 + (n - 1).toNat = n.toNat by omega,
      show (1 : ℕ∞) + ((n - 1).toNat : ℕ∞) = (n.toNat : ℕ∞) by
        rw [show n.toNat = 1 + (n - 1).toNat by omega]
        push_cast
        rfl] at h
    split
    · have h' := h.seq (.star lazy)
      rw [Nat.add_zero, add_top] at h'
      exact h'
    · have h' := h.seq (hopt (m - n).toNat)
      rw [Nat.mul_zero, Nat.add_zero, mul_one] at h'
      rw [show m.toNat = n.toNat + (m - n).toNat by omega]
      exact_mod_cast h'

end Expand

/-! When the moves of the compiler find room. -/

section Room

/-- The step succeeds exactly when `P`, and then with a handle that satisfies `Q`. -/
structure Runs (x : Except Stop ReHandle) (P : Prop) (Q : ReHandle → Prop) : Prop where
  sound : ∀ re, x = .ok re → P ∧ Q re
  succeeds : P → ∃ re, x = .ok re

variable {x : Except Stop ReHandle} {f : ReHandle → Except Stop ReHandle} {P P' : Prop} {Q Q' : ReHandle → Prop}
  {re : ReHandle}

theorem Runs.ok (h : Q re) : Runs (.ok re) True Q := by
  refine ⟨fun re' heq => ?_, fun _ => ⟨re, rfl⟩⟩
  grind

theorem Runs.bind (h : Runs x P Q) {R : Prop} {S : ReHandle → Prop} (k : ∀ re, Q re → Runs (f re) R S) :
    Runs (x >>= f) (P ∧ R) S := by
  constructor
  · intro re' heq
    obtain ⟨re, hx, hf⟩ := bind_ok heq
    grind [sound]
  · rintro ⟨hP, hR⟩
    obtain ⟨re, hx⟩ := h.succeeds hP
    obtain ⟨re', hf⟩ := (k re (h.sound re hx).2).succeeds hR
    rw [hx]
    exact ⟨re', hf⟩

theorem Runs.guard {p : Prop} [Decidable p] {msg : String} (h : Runs x P Q) :
    Runs (if p then (do fail msg; x) else x) (¬ p ∧ P) Q := by
  by_cases hp : p
  · rw [if_pos hp]
    exact ⟨nofun, fun h => absurd hp h.1⟩
  grind

theorem Runs.congr (h : Runs x P Q) (hP : P ↔ P') (hQ : ∀ re, Q re → Q' re) : Runs x P' Q' :=
  ⟨fun re heq => ⟨hP.1 (h.sound re heq).1, hQ re (h.sound re heq).2⟩, fun hP' => h.succeeds (hP.2 hP')⟩

theorem runs_emitOrFail (re : ReHandle) (ins : ReInstr) :
    Runs (emitOrFail re ins) (re.prog.length < maxInstrs - 1) fun re' => re'.prog.length = re.prog.length + 1 := by
  constructor
  · intro re' heq
    obtain ⟨hroom, hprog, -, -⟩ := emitOrFail_ok heq
    grind
  · intro hroom
    rcases emit_cases re ins with ⟨hfull, -⟩ | ⟨-, re', he, -⟩
    · grind
    · unfold emitOrFail
      rw [he]
      exact ⟨re', rfl⟩

theorem runs_reserveOr (msg : String) (re : ReHandle) (extra : Nat) :
    Runs (reserveOr msg re extra) (re.prog.length + extra ≤ maxInstrs) fun re' =>
      re'.prog.length = re.prog.length ∧ re.prog.length + extra ≤ re'.progCap := by
  constructor
  · intro re' heq
    obtain ⟨hroom, hprog, -, hcap, -⟩ := reserveOr_ok heq
    grind
  · intro hroom
    unfold reserveOr progReserve
    dsimp only
    rw [if_neg (Nat.not_lt.2 hroom)]
    by_cases hcap : re.prog.length + extra ≤ re.progCap
    · rw [if_pos hcap]
      exact ⟨_, rfl⟩
    · rw [if_neg hcap]
      exact ⟨_, rfl⟩

theorem runs_openSlot (hcap : re.prog.length + 1 ≤ re.progCap) (start : Nat) :
    Runs (openSlot re start) True fun re' => re'.prog.length = re.prog.length + 1 := by
  refine ⟨fun re' heq => ⟨trivial, length_openSlot heq⟩, fun _ => ?_⟩
  unfold openSlot
  rw [if_neg (Nat.not_lt.2 hcap)]
  exact ⟨_, rfl⟩

theorem runs_copyBody {src len : Nat} (hcap : re.prog.length + len ≤ re.progCap) (hsrc : src + len ≤ re.prog.length) :
    Runs (copyBody re src len) True fun re' => re'.prog.length = re.prog.length + len := by
  unfold copyBody
  rw [if_neg (Nat.not_lt.2 hcap)]
  refine .ok ?_
  grind

theorem runs_opt (re : ReHandle) (start : Nat) (lazy : Bool) :
    Runs (applyQuantifier re start .opt lazy)
      (re.prog.length - start ≤ maxInstrs - 3 ∧ re.prog.length + 1 ≤ maxInstrs) fun re' =>
        re'.prog.length = re.prog.length + 1 := by
  unfold applyQuantifier
  refine (Runs.guard ((runs_reserveOr _ re 1).bind (R := True) (S := fun re' =>
    re'.prog.length = re.prog.length + 1) fun re₁ h₁ => ?_)).congr ?_ fun _ => id
  · have hlen : re₁.prog.length + 1 ≤ re₁.progCap := h₁.1 ▸ h₁.2
    refine ((runs_openSlot hlen start).bind (R := True) fun re₂ h₂ => .ok ?_).congr (and_self_iff) fun _ => id
    rw [setInstr, List.length_set, h₂, h₁.1]
  grind

theorem runs_star (re : ReHandle) (start : Nat) (lazy : Bool) :
    Runs (applyQuantifier re start .star lazy) (re.prog.length + 2 < maxInstrs) fun re' =>
      re'.prog.length = re.prog.length + 2 := by
  unfold applyQuantifier
  refine ((runs_reserveOr _ re 1).bind (R := re.prog.length + 1 < maxInstrs - 1) (S := fun re' =>
    re'.prog.length = re.prog.length + 2) fun re₁ h₁ => ?_).congr ?_ fun _ => id
  · have hlen : re₁.prog.length + 1 ≤ re₁.progCap := h₁.1 ▸ h₁.2
    refine ((runs_openSlot hlen start).bind (R := re.prog.length + 1 < maxInstrs - 1) fun re₂ h₂ => ?_).congr
      (iff_of_eq (true_and _)) fun _ => id
    refine ((runs_emitOrFail re₂ (.jump start)).bind (R := True) fun re₃ h₃ => .ok ?_).congr ?_ fun _ => id
    · rw [setInstr, List.length_set, h₃, h₂, h₁.1]
    grind
  grind

theorem runs_mandatoryCopies {src len : Nat} (k : Nat) (hsrc : src + len ≤ re.prog.length) :
    Runs (mandatoryCopies src len k re) (k = 0 ∨ re.prog.length + k * len < maxInstrs - 4) fun re' =>
      re'.prog.length = re.prog.length + k * len := by
  induction k generalizing re with
  | zero =>
    refine (Runs.ok ?_).congr ⟨fun _ => .inl rfl, fun _ => trivial⟩ fun _ => id
    grind
  | succ k ih =>
    unfold mandatoryCopies
    refine (Runs.guard ((runs_reserveOr _ re len).bind (R := k = 0 ∨ re.prog.length + len + k * len < maxInstrs - 4)
      (S := fun re' => re'.prog.length = re.prog.length + len + k * len) fun re₁ h₁ => ?_)).congr ?_ fun re' h => ?_
    · have hcap : re₁.prog.length + len ≤ re₁.progCap := h₁.1 ▸ h₁.2
      have hin : src + len ≤ re₁.prog.length := h₁.1 ▸ hsrc
      refine ((runs_copyBody hcap hin).bind fun re₂ h₂ => ?_).congr (iff_of_eq (true_and _)) fun _ => id
      grind
    · grind
    grind

theorem runs_optionalCopies {src len : Nat} (lazy : Bool) (k : Nat) (hsrc : src + len ≤ re.prog.length) :
    Runs (optionalCopies src len lazy k re) (k = 0 ∨ re.prog.length + k * (len + 1) + 1 < maxInstrs - 4) fun re' =>
      re'.prog.length = re.prog.length + k * (len + 1) := by
  induction k generalizing re with
  | zero =>
    refine (Runs.ok ?_).congr ⟨fun _ => .inl rfl, fun _ => trivial⟩ fun _ => id
    grind
  | succ k ih =>
    unfold optionalCopies
    refine (Runs.guard ((runs_reserveOr _ re (len + 2)).bind
      (R := (len ≤ maxInstrs - 3 ∧ re.prog.length + len + 1 ≤ maxInstrs) ∧
        (k = 0 ∨ re.prog.length + (len + 1) + k * (len + 1) + 1 < maxInstrs - 4))
      (S := fun re' => re'.prog.length = re.prog.length + (len + 1) + k * (len + 1))
      fun re₁ h₁ => ?_)).congr ?_ fun re' h => ?_
    · have hcap : re₁.prog.length + len ≤ re₁.progCap := by omega
      have hin : src + len ≤ re₁.prog.length := h₁.1 ▸ hsrc
      refine ((runs_copyBody hcap hin).bind fun re₂ h₂ => ?_).congr (iff_of_eq (true_and _)) fun _ => id
      have hopt := runs_opt re₂ re₁.prog.length lazy
      rw [h₂, h₁.1, Nat.add_sub_cancel_left] at hopt
      rw [h₁.1]
      refine hopt.bind fun re₃ h₃ => ?_
      have := @ih re₃ (by omega)
      rw [h₃] at this
      exact this
    · grind
    grind

/-- Room for the expansion of a body of `body` instructions at the end of a program of `len`. -/
def CountFits (len body : Nat) (n m : Int) : Prop :=
  if n = 0 then
    if m = 0 then True
    else if m = -1 then len + 2 < maxInstrs
    else (body ≤ maxInstrs - 3 ∧ len + 1 ≤ maxInstrs) ∧
      ((m - 1).toNat = 0 ∨ len + 1 + (m - 1).toNat * (body + 1) + 1 < maxInstrs - 4)
  else ((n - 1).toNat = 0 ∨ len + (n - 1).toNat * body < maxInstrs - 4) ∧
    if m = -1 then len + (n - 1).toNat * body + body + 2 < maxInstrs
    else (m - n).toNat = 0 ∨ len + (n - 1).toNat * body + (m - n).toNat * (body + 1) + 1 < maxInstrs - 4

instance (len body : Nat) (n m : Int) : Decidable (CountFits len body n m) := by
  unfold CountFits
  infer_instance

theorem runs_applyCount {start : Nat} (hstart : start ≤ re.prog.length) (n m : Int) (lazy : Bool) :
    Runs (applyCount re start re.prog.length n m lazy) (CountFits re.prog.length (re.prog.length - start) n m)
      fun _ => True := by
  have hsrc : start + (re.prog.length - start) = re.prog.length := Nat.add_sub_cancel' hstart
  unfold applyCount CountFits
  dsimp only
  generalize re.prog.length - start = len at hsrc
  by_cases hn : n = 0
  · rw [if_pos hn, if_pos hn]
    by_cases hm : m = 0
    · rw [if_pos hm, if_pos hm]
      exact .ok trivial
    rw [if_neg hm, if_neg hm]
    by_cases hm₁ : m = -1
    · rw [if_pos hm₁, if_pos hm₁]
      exact (runs_star re start lazy).congr .rfl fun _ _ => trivial
    · rw [if_neg hm₁, if_neg hm₁]
      have hopt := runs_opt re start lazy
      rw [show re.prog.length - start = len by omega] at hopt
      refine hopt.bind fun re₁ h₁ => ?_
      have hcopies := @runs_optionalCopies re₁ (start + 1) len lazy (m - 1).toNat (by omega)
      rw [h₁] at hcopies
      exact hcopies.congr .rfl fun _ _ => trivial
  · rw [if_neg hn, if_neg hn]
    refine (runs_mandatoryCopies (n - 1).toNat (Nat.le_of_eq hsrc)).bind fun re₁ h₁ => ?_
    have hin : start + len ≤ re₁.prog.length := by omega
    rw [← h₁]
    by_cases hm : m = -1
    · rw [if_pos hm, if_pos hm]
      refine ((runs_reserveOr _ re₁ (len + 2)).bind (R := re₁.prog.length + len + 2 < maxInstrs)
        (S := fun _ => True) fun re₂ h₂ => ?_).congr ?_ fun _ => id
      · have hcap : re₂.prog.length + len ≤ re₂.progCap := by omega
        refine ((runs_copyBody hcap (h₂.1 ▸ hin)).bind fun re₃ h₃ => ?_).congr (iff_of_eq (true_and _)) fun _ => id
        have hstar := runs_star re₃ re₂.prog.length lazy
        rw [h₃, h₂.1] at hstar
        rw [h₂.1]
        exact hstar.congr .rfl fun _ _ => trivial
      grind
    · rw [if_neg hm, if_neg hm]
      exact (runs_optionalCopies lazy (m - n).toNat hin).congr .rfl fun _ _ => trivial

end Room

section Piece

/-- Instructions laid out from address `b` on, with relative operands. -/
def relative (b : Nat) (prog : List ReInstr) : Code :=
  prog.mapIdx fun i ins => ins.map fun a : Nat => (a : Int) - (b + i : Nat)

theorem relative_place {d : Code} (h : Inward d) (b : Nat) : relative b (place b d) = d := by
  refine List.ext_getElem? fun i => ?_
  unfold relative
  rw [List.getElem?_mapIdx, place_get]
  cases hi : d[i]? with
  | none => rfl
  | some ins =>
    simp only [Option.map_some, Instr.map_map]
    refine congrArg some (Instr.map_id' fun off ho => ?_)
    have := h i ins hi off ho
    unfold absolute
    grind

/-- The code that `parse_atom` has emitted between `c` and `a`. -/
def atomCode (c a : Compiler) : Code := relative c.re.prog.length (a.re.prog.drop c.re.prog.length)

variable {c a c' : Compiler} {r : Reader} {d : Nat} {f : Form} {rest : List UInt8}

theorem atomCode_eq (h : Agrees c r) (hatom : parseAtom (parseExpr d) c = .ok a) :
    ∃ t : Node, atomCode c a = t.code ∧ a.re.prog = c.re.prog ++ place c.re.prog.length t.code ∧
      (t.code ≠ [] → NotFull c.re.prog) ∧ (NotFull a.re.prog → t.Whole) ∧ CapOk a.re := by
  obtain ⟨x, r', -, hagrees, t, -, hprog, hroom, hwhole, -⟩ := follows_atom (follows_expr d) c r a h hatom
  refine ⟨t, ?_, hprog, hroom, hwhole, hagrees.cap⟩
  unfold atomCode
  rw [hprog, List.drop_left]
  exact relative_place t.inward_code _

/-- What `parse_piece` does behind an atom with the bounds it has read, in front of `rest`. -/
def applyBounds (c a : Compiler) (n m : Int) (rest : List UInt8) : Except Stop Compiler := do
  let (k, rest) ← checkCount n m rest
  if k.nMin = 0 ∧ k.nMax = 0 then
    .ok { a with rest := rest, re := { a.re with prog := a.re.prog.take c.re.prog.length } }
  else
    let re ← applyCount a.re c.re.prog.length a.re.prog.length k.nMin k.nMax k.lazy
    .ok { a with rest := rest, re := re }

theorem parsePiece_count {expr : Compiler → Except Stop Compiler} (hatom : parseAtom expr c = .ok a)
    (hrest : a.rest = byte '{' :: (f.text ++ rest)) : parsePiece expr c =
      if a.re.prog.length = c.re.prog.length then .ok a else applyBounds c a f.nMin f.nMax rest := by
  have hq : quantifierOf (byte '{') = none := rfl
  unfold parsePiece applyBounds
  rw [hatom]
  show (if _ then _ else _) = _
  rw [hrest, ← scanCount_text]
  dsimp only
  rw [hq]
  rfl

theorem length_scanLazy (rest : List UInt8) : (scanLazy rest).2.length ≤ rest.length := by
  cases rest with
  | nil => exact Nat.le_refl _
  | cons ch rest =>
    simp only [scanLazy]
    grind

section Bounds

variable {n m : Int} {t : Node}

theorem applyBounds_ok (hprog : a.re.prog = c.re.prog ++ place c.re.prog.length t.code) (hb : Behind c.re.prog)
    (hwhole : NotFull a.re.prog → t.Whole) (hcap : CapOk a.re) (hp : applyBounds c a n m rest = .ok c') :
    BoundsPass n m ∧ CountFits a.re.prog.length t.code.length n m ∧ c'.re.prog.length ≤ maxInstrs ∧
      ∃ lazy, c'.re.prog = c.re.prog ++ place c.re.prog.length (countCode n m lazy t.code) := by
  have hlen : a.re.prog.length = c.re.prog.length + t.code.length := by
    rw [hprog, List.length_append, length_place]
  unfold applyBounds at hp
  obtain ⟨⟨k, rest'⟩, hcheck, hstep⟩ := bind_ok hp
  clear hp
  obtain ⟨hpass, rfl, rfl, -⟩ := checkCount_ok hcheck
  dsimp only at hstep
  refine ⟨hpass, ?_⟩
  split at hstep
  · next hzero =>
    cases hstep
    rw [hzero.1, hzero.2]
    refine ⟨trivial, Nat.le_trans (List.length_take_le' _ _) (Nat.le_trans hcap.1 hcap.2), k.lazy, ?_⟩
    dsimp only
    rw [hprog, List.take_left]
    exact (List.append_nil _).symm
  · obtain ⟨re, hre, hend⟩ := bind_ok hstep
    cases hend
    have hruns := runs_applyCount (Nat.le.intro hlen.symm) k.nMin k.nMax k.lazy
    rw [Nat.sub_eq_of_eq_add' hlen] at hruns
    obtain ⟨hcount, -, hcap'⟩ := applyCount_ok hprog hb t.inward_code (fun hnf => (hwhole hnf).closed_code) hre
    exact ⟨(hruns.sound re hre).1, Nat.le_trans (hcap' hcap).1 (hcap' hcap).2, k.lazy, hcount⟩

theorem applyBounds_pass (hprog : a.re.prog = c.re.prog ++ place c.re.prog.length t.code) (hpass : BoundsPass n m)
    (hfits : CountFits a.re.prog.length t.code.length n m) :
    ∃ re, applyBounds c a n m rest = .ok { a with rest := (scanLazy rest).2, re := re } := by
  have hlen : a.re.prog.length = c.re.prog.length + t.code.length := by
    rw [hprog, List.length_append, length_place]
  unfold applyBounds
  rw [checkCount_pass hpass]
  by_cases hzero : n = 0 ∧ m = 0
  · exact ⟨_, if_pos hzero⟩
  · have hruns := runs_applyCount (Nat.le.intro hlen.symm) n m (scanLazy rest).1
    rw [Nat.sub_eq_of_eq_add' hlen] at hruns
    obtain ⟨re, hre⟩ := hruns.succeeds hfits
    refine ⟨re, (if_neg hzero).trans ?_⟩
    show applyCount _ _ _ _ _ _ >>= _ = _
    rw [hre]
    rfl

end Bounds

/-- The bounds keep their values as `int`s. -/
def Form.Small : Form → Prop
  | .exact n => n.value ≤ 255
  | .atLeast n => n.value < 2 ^ 31
  | .between n m => n.value ≤ m.value ∧ m.value ≤ 255

theorem i32_nat {v : Nat} (h : v < 2 ^ 31) : i32 v = v := i32_eq (by omega) (by omega)

theorem Form.Small.inRange (h : f.Small) : f.InRange := by
  cases f with
  | exact n => exact h
  | atLeast n => trivial
  | between n m => exact h

theorem Form.Small.repeats (h : f.Small) (lazy : Bool) (body : Code) :
    Repeats body (countCode f.nMin f.nMax lazy body) f.low f.high := by
  have hupper : ∀ v : Nat, (if (v : Int) = -1 then ⊤ else ((v : Int).toNat : ℕ∞)) = v := by
    intro v
    rw [if_neg (by omega), Int.toNat_natCast]
  cases f with
  | exact n =>
    have hn : i32 n.value = n.value := i32_nat (Nat.lt_of_le_of_lt h (by decide))
    have hrep := repeats_countCode (n := n.value) (m := n.value) (by omega) (.inr (Int.le_refl _)) lazy body
    rw [hupper, Int.toNat_natCast] at hrep
    rw [nMin, nMax, low, high, hn]
    exact hrep
  | atLeast n =>
    have hrep := repeats_countCode (n := n.value) (m := -1) (by omega) (.inl rfl) lazy body
    rw [if_pos rfl, Int.toNat_natCast] at hrep
    rw [nMin, nMax, low, high, i32_nat h]
    exact hrep
  | between n m =>
    have hm : i32 m.value = m.value := i32_nat (Nat.lt_of_le_of_lt h.2 (by decide))
    have hn : i32 n.value = n.value := i32_nat (Nat.lt_of_le_of_lt (Nat.le_trans h.1 h.2) (by decide))
    have hrep := repeats_countCode (n := n.value) (m := m.value) (by omega) (.inr (Int.ofNat_le.2 h.1)) lazy body
    rw [hupper, Int.toNat_natCast] at hrep
    rw [nMin, nMax, low, high, hn, hm]
    exact hrep

/-- An accepted repetition is in range, and its code runs the atom as often as the bounds say. -/
def CountRead (expr : Compiler → Except Stop Compiler) (c a : Compiler) (f : Form) : Prop :=
  ∀ c', parsePiece expr c = .ok c' → c'.rest ≠ a.rest → f.InRange ∧
    ∃ code, c'.re.prog = c.re.prog ++ place c.re.prog.length code ∧ Repeats (atomCode c a) code f.low f.high

theorem Form.InRange.small {code : Code} (h : f.InRange) (hne : atomCode c a ≠ [])
    (hprog : c'.re.prog = c.re.prog ++ place c.re.prog.length code) (hlen : c'.re.prog.length ≤ maxInstrs)
    (hrep : Repeats (atomCode c a) code f.low f.high) : f.Small := by
  cases f with
  | exact n => exact h
  | between n m => exact h
  | atLeast n =>
    have hpos : 0 < (atomCode c a).length := List.length_pos_iff.2 hne
    have hlow := Nat.le_trans (Nat.le_mul_of_pos_right _ hpos) hrep.length_le
    rw [hprog, List.length_append, length_place] at hlen
    have hle : n.value ≤ maxInstrs := Nat.le_trans hlow (Nat.le_trans (Nat.le_add_left _ _) hlen)
    exact Nat.lt_of_le_of_lt hle (by decide)

/-- A counted repetition is read exactly when its atom emits nothing, its bounds keep their values,
or the bounds that `parse_piece` holds are refused or expand beyond the program. -/
theorem count_read_iff (h : Agrees c r) (hatom : parseAtom (parseExpr d) c = .ok a)
    (hrest : a.rest = byte '{' :: (f.text ++ rest)) : CountRead (parseExpr d) c a f ↔
      atomCode c a = [] ∨ f.Small ∨ ¬ BoundsPass f.nMin f.nMax ∨
        ¬ CountFits a.re.prog.length (atomCode c a).length f.nMin f.nMax := by
  obtain ⟨t, hcode, hprog, hroom, hwhole, hcap⟩ := atomCode_eq h hatom
  have hlen : a.re.prog.length = c.re.prog.length + t.code.length := by
    rw [hprog, List.length_append, length_place]
  have hempty : a.re.prog.length = c.re.prog.length ↔ t.code = [] := by
    rw [hlen, Nat.add_eq_left, List.length_eq_zero_iff]
  have hrepeats := fun (hsmall : f.Small) lazy => hsmall.repeats lazy t.code
  unfold CountRead
  rw [parsePiece_count hatom hrest, hcode]
  generalize f.nMin = n at hrepeats ⊢
  generalize f.nMax = m at hrepeats ⊢
  constructor
  · intro hread
    by_contra hcond
    push Not at hcond
    obtain ⟨hne, hsmall, hpass, hfits⟩ := hcond
    obtain ⟨re, hok⟩ := @applyBounds_pass _ _ rest _ _ _ hprog hpass hfits
    rw [if_neg (mt hempty.1 hne)] at hread
    -- the braces have been read, so less is left
    have hmoved : (scanLazy rest).2 ≠ a.rest := by
      intro heq
      have hcons := congrArg List.length (heq.trans hrest)
      rw [List.length_cons, List.length_append] at hcons
      exact absurd (length_scanLazy rest) (by rw [hcons]; exact Nat.not_le.2 (Nat.lt_succ_of_le (Nat.le_add_left _ _)))
    obtain ⟨hrange, code, hcode', hrep⟩ := hread _ hok hmoved
    obtain ⟨-, -, hle, -⟩ := applyBounds_ok hprog (h.behind (hroom hne)) hwhole hcap hok
    exact hsmall (hrange.small (hcode ▸ hne) hcode' hle (hcode ▸ hrep))
  · intro hcond c' hp hread
    by_cases hne : t.code = []
    · rw [if_pos (hempty.2 hne)] at hp
      cases hp
      exact absurd rfl hread
    · rw [if_neg (mt hempty.1 hne)] at hp
      obtain ⟨hpass, hfits, -, lazy, hcode'⟩ := applyBounds_ok hprog (h.behind (hroom hne)) hwhole hcap hp
      have hsmall : f.Small := by
        rcases hcond with hnil | hsmall | hfail | hfull
        · exact absurd hnil hne
        · exact hsmall
        · exact absurd hpass hfail
        · exact absurd hfits hfull
      exact ⟨hsmall.inRange, _, hcode', hrepeats hsmall lazy⟩

theorem count_read_three :
    CountRead (parseExpr 255) ⟨['a', '{', '3', '}'].map byte, compileStart 0, 0⟩
      ⟨['{', '3', '}'].map byte, (emit (compileStart 0) (.char (byte 'a'))).1, 0⟩
      (.exact ⟨[byte '3'], by decide, List.all_eq_true.1 rfl⟩) :=
  (@count_read_iff _ _ _ _ _ [] (compileStart_agrees (['a', '{', '3', '}'].map byte) 0).2 rfl rfl).2
    (.inr (.inl (show (3 : Nat) ≤ 255 by decide)))

/-- The bound 2^32 is read as 0, and the atom is erased. -/
theorem count_wraps :
    ¬ CountRead (parseExpr 255)
      ⟨['a', '{', '4', '2', '9', '4', '9', '6', '7', '2', '9', '6', '}'].map byte, compileStart 0, 0⟩
      ⟨['{', '4', '2', '9', '4', '9', '6', '7', '2', '9', '6', '}'].map byte,
        (emit (compileStart 0) (.char (byte 'a'))).1, 0⟩
      (.exact ⟨['4', '2', '9', '4', '9', '6', '7', '2', '9', '6'].map byte, by decide, List.all_eq_true.1 rfl⟩) := by
  intro h
  obtain ⟨hrange, -⟩ := h ⟨[], compileStart 0, 0⟩ rfl (by decide)
  exact absurd hrange (show ¬ (4294967296 : Nat) ≤ 255 by decide)

end Piece

end LsLang.Regex
