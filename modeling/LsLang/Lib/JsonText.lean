import Mathlib.Data.List.Basic

/-! JSON text as bytes. A dialect says which numbers and which pieces of a string are let
through; arrays, objects, separators and whitespace are the same in all of them. -/

namespace JsonText

abbrev Bytes : Type := List UInt8

def isWs (b : UInt8) : Bool := b == 32 || b == 9 || b == 10 || b == 13

def Ws (w : Bytes) : Prop := ∀ b ∈ w, isWs b = true

theorem ws_nil : Ws [] := nofun

def skip (s : Bytes) : Bytes := s.dropWhile isWs

def isDigit (b : UInt8) : Bool := 48 ≤ b && b ≤ 57

def isNumByte (b : UInt8) : Bool :=
  isDigit b || b == 46 || b == 101 || b == 69 || b == 43 || b == 45

/-- What a string is made of: a byte that stands for itself, a backslash and one byte, or
`\u` and four bytes. -/
inductive Piece
  | plain (b : UInt8)
  | escape (e : UInt8)
  | unicode (h₁ h₂ h₃ h₄ : UInt8)
  deriving DecidableEq

def Piece.bytes : Piece → Bytes
  | plain b => [b]
  | escape e => [92, e]
  | unicode h₁ h₂ h₃ h₄ => [92, 117, h₁, h₂, h₃, h₄]

def body (ps : List Piece) : Bytes := ps.flatMap Piece.bytes

def quoted (ps : List Piece) : Bytes := 34 :: (body ps ++ [34])

/-- A value as it stands in a text. -/
inductive Raw
  | null
  | bool (b : Bool)
  | number (token : Bytes)
  | string (pieces : List Piece)
  | array (items : List Raw)
  | object (fields : List (List Piece × Raw))

/-- What a text can stand for: a value, the inside of an array, or that of an object. -/
inductive Form
  | value (t : Raw)
  | items (ts : List Raw)
  | fields (fs : List (List Piece × Raw))

structure Dialect where
  number : Bytes → Prop
  piece : Piece → Prop
  ne_nil : ∀ tok, number tok → tok ≠ []
  numBytes : ∀ tok, number tok → ∀ b ∈ tok, isNumByte b = true

def Digits (s : Bytes) : Prop := s ≠ [] ∧ ∀ b ∈ s, isDigit b = true

def IsFraction (s : Bytes) : Prop := s = [] ∨ ∃ ds, Digits ds ∧ s = 46 :: ds

def IsExponent (s : Bytes) : Prop :=
  s = [] ∨ ∃ e sg ds, (e = 101 ∨ e = 69) ∧ (sg = [] ∨ sg = [43] ∨ sg = [45]) ∧ Digits ds ∧
    s = e :: (sg ++ ds)

/-- A number whose integer part satisfies `I`. -/
def IsNumber (I : Bytes → Prop) (tok : Bytes) : Prop :=
  ∃ sg i frac exp, (sg = [] ∨ sg = [45]) ∧ I i ∧ IsFraction frac ∧ IsExponent exp ∧
    tok = sg ++ (i ++ (frac ++ exp))

theorem numByte_of_digit {b : UInt8} (h : isDigit b = true) : isNumByte b = true := by
  unfold isNumByte
  rw [h]
  rfl

theorem IsFraction.numBytes {s : Bytes} (h : IsFraction s) : ∀ b ∈ s, isNumByte b = true := by
  obtain rfl | ⟨ds, hd, rfl⟩ := h
  · exact nofun
  · intro b hb
    rcases List.mem_cons.mp hb with rfl | hb
    · decide
    · exact numByte_of_digit (hd.2 b hb)

theorem IsExponent.numBytes {s : Bytes} (h : IsExponent s) : ∀ b ∈ s, isNumByte b = true := by
  obtain rfl | ⟨e, sg, ds, he, hsg, hd, rfl⟩ := h
  · exact nofun
  · intro b hb
    rcases List.mem_cons.mp hb with rfl | hb
    · rcases he with rfl | rfl <;> decide
    rcases List.mem_append.mp hb with hb | hb
    · rcases hsg with rfl | rfl | rfl
      · cases hb
      · rw [List.mem_singleton.mp hb]; decide
      · rw [List.mem_singleton.mp hb]; decide
    · exact numByte_of_digit (hd.2 b hb)

def Dialect.ofInts (I : Bytes → Prop) (hI : ∀ s, I s → Digits s) (piece : Piece → Prop) : Dialect where
  number := IsNumber I
  piece := piece
  ne_nil := by
    rintro tok ⟨sg, i, frac, exp, -, hi, -, -, rfl⟩ h
    obtain ⟨-, h⟩ := List.append_eq_nil_iff.mp h
    exact (hI i hi).1 (List.append_eq_nil_iff.mp h).1
  numBytes := by
    rintro tok ⟨sg, i, frac, exp, hsg, hi, hf, he, rfl⟩ b hb
    rcases List.mem_append.mp hb with hb | hb
    · rcases hsg with rfl | rfl
      · cases hb
      · rw [List.mem_singleton.mp hb]; decide
    rcases List.mem_append.mp hb with hb | hb
    · exact numByte_of_digit ((hI i hi).2 b hb)
    rcases List.mem_append.mp hb with hb | hb
    · exact hf.numBytes b hb
    · exact he.numBytes b hb

def escapes : Bytes := [34, 92, 47, 98, 102, 110, 114, 116]

/-- The grammar. `d` bounds how deep the values of arrays and objects are nested. -/
inductive Derives (D : Dialect) : Nat → Form → Bytes → Prop
  | null {d} : Derives D d (.value .null) [110, 117, 108, 108]
  | tru {d} : Derives D d (.value (.bool true)) [116, 114, 117, 101]
  | fls {d} : Derives D d (.value (.bool false)) [102, 97, 108, 115, 101]
  | number {d tok} (h : D.number tok) : Derives D d (.value (.number tok)) tok
  | string {d ps} (h : ∀ p ∈ ps, D.piece p) : Derives D d (.value (.string ps)) (quoted ps)
  | emptyArray {d w} (hw : Ws w) : Derives D d (.value (.array [])) (91 :: (w ++ [93]))
  | array {d ts s} (h : Derives D d (.items ts) s) :
      Derives D (d + 1) (.value (.array ts)) (91 :: (s ++ [93]))
  | emptyObject {d w} (hw : Ws w) : Derives D d (.value (.object [])) (123 :: (w ++ [125]))
  | object {d fs s} (h : Derives D d (.fields fs) s) :
      Derives D (d + 1) (.value (.object fs)) (123 :: (s ++ [125]))
  | lastItem {d w t s w'} (hw : Ws w) (h : Derives D d (.value t) s) (hw' : Ws w') :
      Derives D d (.items [t]) (w ++ (s ++ w'))
  | item {d w t s w' ts s'} (hw : Ws w) (h : Derives D d (.value t) s) (hw' : Ws w')
      (ht : Derives D d (.items ts) s') : Derives D d (.items (t :: ts)) (w ++ (s ++ (w' ++ 44 :: s')))
  | lastField {d w ps w₁ w₂ t s w'} (hw : Ws w) (hp : ∀ p ∈ ps, D.piece p) (hw₁ : Ws w₁)
      (hw₂ : Ws w₂) (h : Derives D d (.value t) s) (hw' : Ws w') :
      Derives D d (.fields [(ps, t)]) (w ++ (quoted ps ++ (w₁ ++ 58 :: (w₂ ++ (s ++ w')))))
  | field {d w ps w₁ w₂ t s w' fs s'} (hw : Ws w) (hp : ∀ p ∈ ps, D.piece p) (hw₁ : Ws w₁)
      (hw₂ : Ws w₂) (h : Derives D d (.value t) s) (hw' : Ws w')
      (ht : Derives D d (.fields fs) s') :
      Derives D d (.fields ((ps, t) :: fs))
        (w ++ (quoted ps ++ (w₁ ++ 58 :: (w₂ ++ (s ++ (w' ++ 44 :: s'))))))

/-- A whole text: a value between whitespace. -/
def IsText (D : Dialect) (d : Nat) (s : Bytes) (t : Raw) : Prop :=
  ∃ w s' w', s = w ++ (s' ++ w') ∧ Ws w ∧ Ws w' ∧ Derives D d (.value t) s'

section All

variable (N : Bytes → Prop) (S : List Piece → Prop)

mutual

/-- Every number in the value satisfies `N`, and every string and key satisfies `S`. -/
def Raw.All : Raw → Prop
  | .null => True
  | .bool _ => True
  | .number tok => N tok
  | .string ps => S ps
  | .array ts => allItems ts
  | .object fs => allFields fs

def allItems : List Raw → Prop
  | [] => True
  | t :: ts => t.All ∧ allItems ts

def allFields : List (List Piece × Raw) → Prop
  | [] => True
  | (ps, t) :: fs => S ps ∧ t.All ∧ allFields fs

end

def Form.All : Form → Prop
  | .value t => t.All N S
  | .items ts => allItems N S ts
  | .fields fs => allFields N S fs

end All

section Zip

set_option linter.unusedSectionVars false

variable {N N' M : Bytes → Prop} {S S' T : List Piece → Prop} (hN : ∀ tok, N tok → N' tok → M tok)
  (hS : ∀ ps, S ps → S' ps → T ps)

include hN hS

mutual

theorem Raw.All.zip : ∀ t : Raw, t.All N S → t.All N' S' → t.All M T
  | .null, _, _ => trivial
  | .bool _, _, _ => trivial
  | .number tok, h, h' => hN tok h h'
  | .string ps, h, h' => hS ps h h'
  | .array ts, h, h' => allItems_zip ts h h'
  | .object fs, h, h' => allFields_zip fs h h'

theorem allItems_zip : ∀ ts : List Raw, allItems N S ts → allItems N' S' ts → allItems M T ts
  | [], _, _ => trivial
  | t :: ts, h, h' => ⟨Raw.All.zip t h.1 h'.1, allItems_zip ts h.2 h'.2⟩

theorem allFields_zip : ∀ fs : List (List Piece × Raw), allFields N S fs → allFields N' S' fs →
    allFields M T fs
  | [], _, _ => trivial
  | (ps, t) :: fs, h, h' =>
    ⟨hS ps h.1 h'.1, Raw.All.zip t h.2.1 h'.2.1, allFields_zip fs h.2.2 h'.2.2⟩

end

end Zip

variable {D E : Dialect} {d e : Nat} {s r : Bytes} {f : Form}

theorem Derives.all {N : Bytes → Prop} {S : List Piece → Prop} (h : Derives D d f s)
    (hN : ∀ tok, D.number tok → N tok) (hS : ∀ ps, (∀ p ∈ ps, D.piece p) → S ps) : f.All N S := by
  induction h with
  | null => trivial
  | tru => trivial
  | fls => trivial
  | number h => exact hN _ h
  | string h => exact hS _ h
  | emptyArray => trivial
  | array _ ih => exact ih
  | emptyObject => trivial
  | object _ ih => exact ih
  | lastItem _ _ _ ih => exact ⟨ih, trivial⟩
  | item _ _ _ _ ih iht => exact ⟨ih, iht⟩
  | lastField _ hp _ _ _ _ ih => exact ⟨hS _ hp, ih, trivial⟩
  | field _ hp _ _ _ _ _ ih iht => exact ⟨hS _ hp, ih, iht⟩

theorem Derives.change (h : Derives D d f s) (hd : d ≤ e)
    (hE : f.All E.number fun ps => ∀ p ∈ ps, E.piece p) : Derives E e f s := by
  induction h generalizing e with
  | null => exact .null
  | tru => exact .tru
  | fls => exact .fls
  | number => exact .number hE
  | string => exact .string hE
  | emptyArray hw => exact .emptyArray hw
  | array _ ih =>
    obtain ⟨e, rfl⟩ : ∃ n, e = n + 1 := ⟨e - 1, by omega⟩
    exact .array (ih (by omega) hE)
  | emptyObject hw => exact .emptyObject hw
  | object _ ih =>
    obtain ⟨e, rfl⟩ : ∃ n, e = n + 1 := ⟨e - 1, by omega⟩
    exact .object (ih (by omega) hE)
  | lastItem hw _ hw' ih => exact .lastItem hw (ih hd hE.1) hw'
  | item hw _ hw' _ ih iht => exact .item hw (ih hd hE.1) hw' (iht hd hE.2)
  | lastField hw _ hw₁ hw₂ _ hw' ih => exact .lastField hw hE.1 hw₁ hw₂ (ih hd hE.2.1) hw'
  | field hw _ hw₁ hw₂ _ hw' _ ih iht =>
    exact .field hw hE.1 hw₁ hw₂ (ih hd hE.2.1) hw' (iht hd hE.2.2)

theorem Derives.weaken (h : Derives D d f s) (hN : ∀ tok, D.number tok → E.number tok)
    (hS : ∀ p, D.piece p → E.piece p) (hd : d ≤ e) : Derives E e f s :=
  h.change hd (h.all hN fun _ hps p hp => hS p (hps p hp))

theorem Derives.deeper (h : Derives D d f s) (hd : d ≤ e) : Derives D e f s :=
  h.weaken (fun _ h => h) (fun _ h => h) hd

mutual

def Raw.depth : Raw → Nat
  | .array ts => depthItems ts
  | .object fs => depthFields fs
  | _ => 0

def depthItems : List Raw → Nat
  | [] => 0
  | t :: ts => max (t.depth + 1) (depthItems ts)

def depthFields : List (List Piece × Raw) → Nat
  | [] => 0
  | (_, t) :: fs => max (t.depth + 1) (depthFields fs)

end

/-- The values of the form are nested no deeper than `d`. -/
def Form.Within (d : Nat) : Form → Prop
  | .value t => t.depth ≤ d
  | .items ts => depthItems ts ≤ d + 1
  | .fields fs => depthFields fs ≤ d + 1

theorem Derives.within (h : Derives D d f s) (he : f.Within e) : Derives D e f s := by
  induction h generalizing e with
  | null => exact .null
  | tru => exact .tru
  | fls => exact .fls
  | number h => exact .number h
  | string h => exact .string h
  | emptyArray hw => exact .emptyArray hw
  | @array _ ts _ h ih =>
    have hpos : 1 ≤ depthItems ts := by
      cases h with
      | lastItem => rw [depthItems]; omega
      | item => rw [depthItems]; omega
    have he : depthItems ts ≤ e := he
    obtain ⟨e, rfl⟩ : ∃ n, e = n + 1 := ⟨e - 1, by omega⟩
    exact .array (ih he)
  | emptyObject hw => exact .emptyObject hw
  | @object _ fs _ h ih =>
    have hpos : 1 ≤ depthFields fs := by
      cases h with
      | lastField => rw [depthFields]; omega
      | field => rw [depthFields]; omega
    have he : depthFields fs ≤ e := he
    obtain ⟨e, rfl⟩ : ∃ n, e = n + 1 := ⟨e - 1, by omega⟩
    exact .object (ih he)
  | lastItem hw _ hw' ih =>
    change max (_ + 1) _ ≤ e + 1 at he
    exact .lastItem hw (ih (show _ ≤ e by omega)) hw'
  | item hw _ hw' _ ih iht =>
    change max (_ + 1) _ ≤ e + 1 at he
    exact .item hw (ih (show _ ≤ e by omega)) hw' (iht (show _ ≤ e + 1 by omega))
  | lastField hw hp hw₁ hw₂ _ hw' ih =>
    change max (_ + 1) _ ≤ e + 1 at he
    exact .lastField hw hp hw₁ hw₂ (ih (show _ ≤ e by omega)) hw'
  | field hw hp hw₁ hw₂ _ hw' _ ih iht =>
    change max (_ + 1) _ ≤ e + 1 at he
    exact .field hw hp hw₁ hw₂ (ih (show _ ≤ e by omega)) hw' (iht (show _ ≤ e + 1 by omega))

theorem Ws.append {w w' : Bytes} (h : Ws w) (h' : Ws w') : Ws (w ++ w') := by
  intro b hb
  rcases List.mem_append.mp hb with hb | hb
  · exact h b hb
  · exact h' b hb

theorem Derives.ws_items {w : Bytes} {ts : List Raw} (hw : Ws w) (h : Derives D d (.items ts) s) :
    Derives D d (.items ts) (w ++ s) := by
  cases h with
  | lastItem hw₁ h hw' =>
    rw [← List.append_assoc]
    exact .lastItem (hw.append hw₁) h hw'
  | item hw₁ h hw' ht =>
    rw [← List.append_assoc]
    exact .item (hw.append hw₁) h hw' ht

/-! Reading from the left. -/

@[simp] theorem skip_nil : skip [] = [] := rfl

theorem skip_cons {b : UInt8} (h : isWs b = false) : skip (b :: s) = b :: s := by
  unfold skip
  rw [List.dropWhile_cons, h]
  rfl

theorem skip_append {w : Bytes} (hw : Ws w) : skip (w ++ s) = skip s := by
  induction w with
  | nil => rfl
  | cons b w ih =>
    unfold skip
    rw [List.cons_append, List.dropWhile_cons, hw b (List.mem_cons_self ..)]
    exact ih fun c hc => hw c (List.mem_cons_of_mem _ hc)

theorem exists_skip (s : Bytes) : ∃ w, Ws w ∧ s = w ++ skip s := by
  refine ⟨s.takeWhile isWs, fun b hb => ?_, (List.takeWhile_append_dropWhile).symm⟩
  exact List.all_eq_true.mp (List.all_takeWhile ..) b hb

theorem isWs_of_skip {b : UInt8} (h : skip s = b :: r) : isWs b = false := by
  induction s with
  | nil => cases h
  | cons c s ih =>
    unfold skip at h
    rw [List.dropWhile_cons] at h
    split at h
    · exact ih h
    grind

theorem not_numByte_of_ws {b : UInt8} (h : isWs b = true) : isNumByte b = false := by
  unfold isWs at h
  simp only [Bool.or_eq_true, beq_iff_eq] at h
  rcases h with ((rfl | rfl) | rfl) | rfl <;> decide

theorem Derives.head {t : Raw} (h : Derives D d (.value t) s) :
    ∃ b s', s = b :: s' ∧ isWs b = false ∧ b ≠ 93 := by
  cases h with
  | null => exact ⟨_, _, rfl, by decide⟩
  | tru => exact ⟨_, _, rfl, by decide⟩
  | fls => exact ⟨_, _, rfl, by decide⟩
  | number h =>
    cases s with
    | nil => exact absurd rfl (D.ne_nil _ h)
    | cons b s =>
      have hb := D.numBytes _ h b (List.mem_cons_self ..)
      refine ⟨b, s, rfl, Bool.eq_false_iff.mpr fun hw => ?_, ?_⟩
      · grind [not_numByte_of_ws]
      · rintro rfl
        exact absurd hb (by decide)
  | string => exact ⟨_, _, rfl, by decide⟩
  | emptyArray => exact ⟨_, _, rfl, by decide⟩
  | array => exact ⟨_, _, rfl, by decide⟩
  | emptyObject => exact ⟨_, _, rfl, by decide⟩
  | object => exact ⟨_, _, rfl, by decide⟩

theorem getLast_append {x y : Bytes} {b : UInt8} (hx : y = [] → x.getLast? ≠ some b)
    (hy : y.getLast? ≠ some b) : (x ++ y).getLast? ≠ some b := by
  rw [List.getLast?_append]
  cases y with
  | nil => exact hx rfl
  | cons c y =>
    grind

theorem Ws.getLast {w : Bytes} (hw : Ws w) : w.getLast? ≠ some 58 := fun he =>
  absurd (hw 58 (List.mem_of_getLast? he)) (by decide)

theorem Derives.getLast (h : Derives D d f s) : s.getLast? ≠ some 58 := by
  have hlast : ∀ {x : Bytes} {b : UInt8}, b ≠ 58 → (x ++ [b]).getLast? ≠ some 58 := by grind
  have hvalue : ∀ {d t s x w'}, Derives D d (.value t) s → s.getLast? ≠ some 58 → Ws w' →
      (x ++ (s ++ w')).getLast? ≠ some 58 := by
    intro d t s x w' h hs hw'
    obtain ⟨b, s', rfl, -⟩ := h.head
    exact getLast_append (fun he => by cases he) (getLast_append (fun _ => hs) hw'.getLast)
  have hcomma : ∀ {x s : Bytes}, s.getLast? ≠ some 58 → (x ++ 44 :: s).getLast? ≠ some 58 := by
    grind
  induction h with
  | null => decide
  | tru => decide
  | fls => decide
  | number h => exact fun he => absurd (D.numBytes _ h 58 (List.mem_of_getLast? he)) (by decide)
  | @string _ ps => exact hlast (x := 34 :: body ps) (by decide)
  | @emptyArray _ w => grind
  | @array _ _ s => grind
  | @emptyObject _ w => grind
  | @object _ _ s => grind
  | lastItem _ h hw' ih => exact hvalue h ih hw'
  | @item _ w _ s w' _ s' _ _ _ _ _ iht =>
    grind
  | @lastField _ w ps w₁ w₂ _ s w' _ _ _ _ h hw' ih =>
    grind
  | @field _ w ps w₁ w₂ _ s w' _ s' _ _ _ _ _ _ _ _ iht =>
    grind

theorem Derives.skip_append {t : Raw} {w : Bytes} (h : Derives D d (.value t) s) (hw : Ws w) :
    skip (w ++ (s ++ r)) = s ++ r := by
  obtain ⟨b, s', rfl, hb, _⟩ := h.head
  rw [JsonText.skip_append hw, List.cons_append, skip_cons hb]

theorem Derives.skip_items {ts : List Raw} (h : Derives D d (.items ts) s) :
    (skip (s ++ r)).head? ≠ some 93 := by
  have key : ∀ {t w s x}, Ws w → Derives D d (.value t) s → (skip (w ++ (s ++ x))).head? ≠ some 93 := by
    intro t w s x hw h
    obtain ⟨b, s', rfl, hb, hne⟩ := h.head
    rw [h.skip_append hw]
    grind
  cases h with
  | lastItem hw h hw' =>
    grind
  | item hw h hw' ht =>
    grind

theorem Derives.skip_fields {fs : List (List Piece × Raw)} (h : Derives D d (.fields fs) s) :
    (skip (s ++ r)).head? ≠ some 125 := by
  have key : ∀ {w ps x}, Ws w → (skip (w ++ (quoted ps ++ x))).head? ≠ some 125 := by
    intro w ps x hw
    rw [JsonText.skip_append hw, quoted, List.cons_append, skip_cons (by decide)]
    grind
  cases h with
  | lastField hw =>
    grind
  | field hw =>
    grind

theorem IsText.change {t : Raw} (h : IsText D d s t) (hd : d ≤ e)
    (hE : t.All E.number fun ps => ∀ p ∈ ps, E.piece p) : IsText E e s t := by
  obtain ⟨w, s', w', hs, hw, hw', h⟩ := h
  exact ⟨w, s', w', hs, hw, hw', h.change hd hE⟩

theorem IsText.within {t : Raw} (h : IsText D d s t) (he : t.depth ≤ e) : IsText D e s t := by
  obtain ⟨w, s', w', hs, hw, hw', h⟩ := h
  exact ⟨w, s', w', hs, hw, hw', h.within he⟩

theorem IsText.all {t : Raw} {N : Bytes → Prop} {S : List Piece → Prop} (h : IsText D d s t)
    (hN : ∀ tok, D.number tok → N tok) (hS : ∀ ps, (∀ p ∈ ps, D.piece p) → S ps) : t.All N S := by
  obtain ⟨w, s', w', hs, hw, hw', h⟩ := h
  exact h.all hN hS

theorem IsText.derives {t : Raw} {b c : UInt8} {s x : Bytes} (h : IsText D d s t) (hs : s = b :: x)
    (hb : isWs b = false) {y : Bytes} (hy : s = y ++ [c]) (hc : isWs c = false) :
    Derives D d (.value t) s := by
  obtain ⟨w, s', w', rfl, hw, hw', hd⟩ := h
  cases w with
  | cons a w =>
    rw [← (List.cons.inj hs).1, hw a (List.mem_cons_self ..)] at hb
    cases hb
  | nil =>
    rcases List.eq_nil_or_concat w' with rfl | ⟨z, a, rfl⟩
    · grind
    · rw [List.concat_eq_append, List.nil_append, ← List.append_assoc] at hy
      obtain ⟨-, ha⟩ := List.append_inj' hy rfl
      rw [← (List.cons.inj ha).1, hw' a (by simp)] at hc
      cases hc

def Ends (r : Bytes) : Prop := ∀ b ∈ r.head?, isNumByte b = false

theorem ends_nil : Ends [] := nofun

theorem ends_cons {b : UInt8} (h : isNumByte b = false) : Ends (b :: r) := by
  intro c hc
  grind

theorem ends_append {w : Bytes} (hw : Ws w) (hr : Ends r) : Ends (w ++ r) := by
  cases w with
  | nil => exact hr
  | cons b w =>
    exact ends_cons (not_numByte_of_ws (hw b (List.mem_cons_self ..)))

end JsonText
