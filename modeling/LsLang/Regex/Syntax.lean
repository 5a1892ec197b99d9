import LsLang.Regex.Code

/-! The syntax tree of a pattern, the code it asks for, and the reading of a pattern as a
tree with no program in view. -/

namespace LsLang.Regex

/-- What a piece of a pattern compiles to. The flags `jumped` and `closed` are off where a
full program has refused the `JUMP` of a branch, or the instruction that closes a group or a
lookahead. -/
inductive Node
  | empty
  | item (ins : Instr Empty) (h : ins.consuming = true ∨ ins.isAnchor = true)
  | cat (l r : Node)
  | alt (jumped : Bool) (l r : Node)
  | quant (q : Quantifier) (lazy : Bool) (x : Node)
  | count (n m : Int) (lazy : Bool) (x : Node)
  | group (g : Nat) (closed : Bool) (x : Node)
  | look (isNeg closed : Bool) (x : Node)

namespace Node

def altCode (jumped : Bool) (l r : Code) : Code :=
  let past : Int := if jumped then l.length + 2 else l.length + 1
  .split 1 past :: (l ++ (if jumped then [.jump (r.length + 1 : Int)] else []) ++ r)

def groupCode (g : Nat) (closed : Bool) (c : Code) : Code :=
  .save (g * 2) :: (c ++ if closed then [.save (g * 2 + 1)] else [])

def lookCode (isNeg closed : Bool) (c : Code) : Code :=
  .lookahead (c.length + 2 : Int) isNeg :: (c ++ if closed then [.matched] else [])

def code : Node → Code
  | empty => []
  | item ins _ => [ins.map Empty.elim]
  | cat l r => l.code ++ r.code
  | alt jumped l r => altCode jumped l.code r.code
  | quant q lazy x => quantCode q lazy x.code
  | count n m lazy x => countCode n m lazy x.code
  | group g closed x => groupCode g closed x.code
  | look isNeg closed x => lookCode isNeg closed x.code

def Whole : Node → Prop
  | empty => True
  | item _ _ => True
  | cat l r => l.Whole ∧ r.Whole
  | alt jumped l r => jumped = true ∧ l.Whole ∧ r.Whole
  | quant _ _ x => x.Whole
  | count _ _ _ x => x.Whole
  | group _ closed x => closed = true ∧ x.Whole
  | look _ closed x => closed = true ∧ x.Whole

/-- The capture groups are numbered from 1 to `groups`, the classes below `classes`. -/
def Uses (groups classes : Nat) : Node → Prop
  | empty => True
  | item ins _ => ∀ id, ins = .cls id ∨ ins = .ncls id → id < classes
  | cat l r => l.Uses groups classes ∧ r.Uses groups classes
  | alt _ l r => l.Uses groups classes ∧ r.Uses groups classes
  | quant _ _ x => x.Uses groups classes
  | count _ _ _ x => x.Uses groups classes
  | group g _ x => 1 ≤ g ∧ g ≤ groups ∧ x.Uses groups classes
  | look _ _ x => x.Uses groups classes

theorem Uses.mono {g g' k k' : Nat} (hg : g ≤ g') (hk : k ≤ k') {t : Node} (h : t.Uses g k) :
    t.Uses g' k' := by
  induction t with
  | empty => trivial
  | item ins _ => exact fun id hid => Nat.lt_of_lt_of_le (h id hid) hk
  | cat l r ihl ihr => exact ⟨ihl h.1, ihr h.2⟩
  | alt _ l r ihl ihr => exact ⟨ihl h.1, ihr h.2⟩
  | quant _ _ x ih => exact ih h
  | count _ _ _ x ih => exact ih h
  | group _ _ x ih => exact ⟨h.1, Nat.le_trans h.2.1 hg, ih h.2.2⟩
  | look _ _ x ih => exact ih h

theorem targets_of_empty (ins : Instr Empty) (h : ins.consuming = true ∨ ins.isAnchor = true) :
    (ins.map Empty.elim : Instr Int).targets = [] := by
  cases ins with
  | split a => exact a.elim
  | jump a => exact a.elim
  | lookahead a => exact a.elim
  | _ => rfl

theorem inward_code (t : Node) : Inward t.code := by
  induction t with
  | empty => exact targetsIn_nil _
  | item ins h =>
    refine targetsIn_singleton fun off ho => ?_
    rw [targets_of_empty ins h] at ho
    nomatch ho
  | cat l r ihl ihr => exact ihl.append ihr
  | alt jumped l r ihl ihr =>
    refine TargetsIn.cons ?_ ?_
    · intro off ho
      cases jumped <;> simp [Instr.targets] at ho <;> omega
    · refine TargetsIn.append (TargetsIn.append (ihl.imp fun t ht => by omega) ?_)
        (ihr.imp fun t ht => by omega)
      cases jumped with
      | false => exact targetsIn_nil _
      | true =>
        refine targetsIn_singleton fun off ho => ?_
        simp [Instr.targets] at ho
        omega
  | quant q lazy x ih => exact ih.quant q lazy
  | count n m lazy x ih => exact ih.count n m lazy
  | group g closed x ih =>
    refine TargetsIn.cons (by simp [Instr.targets]) ?_
    refine TargetsIn.append (ih.imp fun t ht => by omega) ?_
    cases closed with
    | false => exact targetsIn_nil _
    | true => exact targetsIn_singleton (by simp [Instr.targets])
  | look isNeg closed x ih =>
    refine TargetsIn.cons ?_ ?_
    · intro off ho
      simp [Instr.targets] at ho
      omega
    · refine TargetsIn.append (ih.imp fun t ht => by omega) ?_
      cases closed with
      | false => exact targetsIn_nil _
      | true => exact targetsIn_singleton (by simp [Instr.targets])

theorem Whole.closed_code {t : Node} (h : t.Whole) : Closed t.code := by
  induction t with
  | empty => exact targetsIn_nil _
  | item ins hi =>
    refine targetsIn_singleton fun off ho => ?_
    rw [targets_of_empty ins hi] at ho
    nomatch ho
  | cat l r ihl ihr => exact (ihl h.1).append (ihr h.2)
  | alt jumped l r ihl ihr =>
    obtain ⟨rfl, hl, hr⟩ := h
    have hlen : (altCode true l.code r.code).length = l.code.length + r.code.length + 2 := by
      simp [altCode]
      omega
    refine TargetsIn.cons ?_ ?_
    · intro off ho
      simp [Instr.targets] at ho
      show 0 ≤ off ∧ off ≤ ((altCode true l.code r.code).length : Int)
      omega
    · refine TargetsIn.append (TargetsIn.append ((ihl hl).imp fun t ht => ?_) ?_)
        ((ihr hr).imp fun t ht => ?_)
      · show 0 ≤ 1 + t ∧ 1 + t ≤ ((altCode true l.code r.code).length : Int)
        omega
      · refine targetsIn_singleton fun off ho => ?_
        simp [Instr.targets] at ho
        show 0 ≤ 1 + (_ + off) ∧ 1 + (_ + off) ≤ ((altCode true l.code r.code).length : Int)
        omega
      · show 0 ≤ 1 + (_ + t) ∧ 1 + (_ + t) ≤ ((altCode true l.code r.code).length : Int)
        simp
        omega
  | quant q lazy x ih => exact (ih h).quant q lazy
  | count n m lazy x ih => exact (ih h).count n m lazy
  | group g closed x ih =>
    obtain ⟨rfl, hx⟩ := h
    have hlen : (groupCode g true x.code).length = x.code.length + 2 := by simp [groupCode]
    refine TargetsIn.cons (by simp [Instr.targets]) ?_
    refine TargetsIn.append ((ih hx).imp fun t ht => ?_)
      (targetsIn_singleton (by simp [Instr.targets]))
    show 0 ≤ 1 + t ∧ 1 + t ≤ ((groupCode g true x.code).length : Int)
    omega
  | look isNeg closed x ih =>
    obtain ⟨rfl, hx⟩ := h
    have hlen : (lookCode isNeg true x.code).length = x.code.length + 2 := by simp [lookCode]
    refine TargetsIn.cons ?_ ?_
    · intro off ho
      simp [Instr.targets] at ho
      show 0 ≤ off ∧ off ≤ ((lookCode isNeg true x.code).length : Int)
      omega
    · refine TargetsIn.append ((ih hx).imp fun t ht => ?_)
        (targetsIn_singleton (by simp [Instr.targets]))
      show 0 ≤ 1 + t ∧ 1 + t ≤ ((lookCode isNeg true x.code).length : Int)
      omega

end Node

/-! The reading of a pattern. It takes the same turns as the compiler, with a tree in place
of the program. -/

/-- The state of a reading: the pattern left, the groups counted, the classes read so far
(whether negated, and the bytes set), and the flags. -/
structure Reader where
  rest : List UInt8
  groups : Nat
  classes : List (Bool × List UInt8)
  flags : Nat

def toOption {α : Type} (x : Except Stop α) : Option α :=
  match x with
  | .ok a => some a
  | .error _ => none

namespace Reader

def allocGroup (r : Reader) : Option (Nat × Reader) :=
  if maxGroups ≤ r.groups + 1 then none
  else some (r.groups + 1, { r with groups := r.groups + 1 })

def readClass (r : Reader) : Option (Node × Reader) :=
  if maxClasses ≤ r.classes.length then none
  else do
    let (body, rest) ← toOption (scanClassBody r.rest)
    some (.item (.cls r.classes.length) (.inl rfl),
      { r with rest := rest, classes := r.classes ++ [body] })

end Reader

section Read

variable (expr : Reader → Option (Node × Reader))

def readGroupBody (r : Reader) (group : Option Nat) : Option (Node × Reader) := do
  let (x, r) ← expr r
  match r.rest with
  | ch :: rest =>
    if ch = byte ')' then
      match group with
      | some g => some (.group g true x, { r with rest := rest })
      | none => some (x, { r with rest := rest })
    else none
  | [] => none

def readLookahead (r : Reader) (isNeg : Bool) : Option (Node × Reader) := do
  let (x, r) ← expr r
  match r.rest with
  | ch :: rest =>
    if ch = byte ')' then some (.look isNeg true x, { r with rest := rest }) else none
  | [] => none

def readGroup (r : Reader) : Option (Node × Reader) :=
  match r.rest with
  | q :: rest =>
    if q = byte '?' then
      match rest with
      | [] => none
      | nxt :: rest' =>
        if nxt = byte ':' then readGroupBody expr { r with rest := rest' } none
        else if nxt = byte '<' then do
          let (_, rest'') ← toOption (scanName rest')
          let (g, r) ← { r with rest := rest'' }.allocGroup
          readGroupBody expr r (some g)
        else if nxt = byte '=' then readLookahead expr { r with rest := rest' } false
        else if nxt = byte '!' then readLookahead expr { r with rest := rest' } true
        else if nxt = byte 'i' ∨ nxt = byte 'm' ∨ nxt = byte 's' then
          let (flags, rest'') := scanFlags rest r.flags
          some (.empty, { r with rest := rest'', flags := flags })
        else none
    else do
      let (g, r) ← r.allocGroup
      readGroupBody expr r (some g)
  | [] => do
    let (g, r) ← r.allocGroup
    readGroupBody expr r (some g)

def escapeItem (ins : ReInstr) : Option Node :=
  match ins with
  | .char c => some (.item (.char c) (.inl rfl))
  | .digit => some (.item .digit (.inl rfl))
  | .ndigit => some (.item .ndigit (.inl rfl))
  | .word => some (.item .word (.inl rfl))
  | .nword => some (.item .nword (.inl rfl))
  | .space => some (.item .space (.inl rfl))
  | .nspace => some (.item .nspace (.inl rfl))
  | .wordbnd => some (.item .wordbnd (.inr rfl))
  | .nwordbnd => some (.item .nwordbnd (.inr rfl))
  | .bos => some (.item .bos (.inr rfl))
  | .eos => some (.item .eos (.inr rfl))
  | _ => none

def readAtom (r : Reader) : Option (Node × Reader) :=
  match r.rest with
  | [] => some (.empty, r)
  | ch :: rest =>
    let r := { r with rest := rest }
    if ch = byte '(' then readGroup expr r
    else if ch = byte '[' then r.readClass
    else if ch = byte '.' then some (.item .any (.inl rfl), r)
    else if ch = byte '^' then some (.item .bol (.inr rfl), r)
    else if ch = byte '$' then some (.item .eol (.inr rfl), r)
    else if ch = byte '\\' then do
      let (ins, rest') ← toOption (scanEscape rest)
      let x ← escapeItem ins
      some (x, { r with rest := rest' })
    else some (.item (.char ch) (.inl rfl), r)

def readPiece (r : Reader) : Option (Node × Reader) := do
  let (x, r) ← readAtom expr r
  if x.code.length = 0 then some (x, r)
  else
    match r.rest with
    | [] => some (x, r)
    | qc :: rest =>
      match quantifierOf qc with
      | some q =>
        let (lazy, rest) := scanLazy rest
        some (.quant q lazy x, { r with rest := rest })
      | none =>
        if qc = byte '{' then do
          let (n, rest) ← toOption (scanCount rest)
          some (.count n.nMin n.nMax n.lazy x, { r with rest := rest })
        else some (x, r)

def readConcat : Nat → Reader → Option (Node × Reader)
  | fuel, r =>
    match r.rest with
    | [] => some (.empty, r)
    | ch :: _ =>
      if ch = byte ')' ∨ ch = byte '|' then some (.empty, r)
      else
        match fuel with
        | 0 => none
        | fuel + 1 => do
          let (x, r) ← readPiece expr r
          let (y, r) ← readConcat fuel r
          some (.cat x y, r)

/-- The branches behind a `|` at the front, after the branch `l`. -/
def readBranches : Nat → Node → Reader → Option (Node × Reader)
  | fuel, l, r =>
    match r.rest with
    | ch :: rest =>
      if ch = byte '|' then
        match fuel with
        | 0 => none
        | fuel + 1 => do
          let (x, r) ← readConcat expr rest.length { r with rest := rest }
          let (y, r) ← readBranches fuel x r
          some (.alt true l y, r)
      else some (l, r)
    | [] => some (l, r)

def readExprInner (r : Reader) : Option (Node × Reader) := do
  let (x, r) ← readConcat expr r.rest.length r
  readBranches expr r.rest.length x r

end Read

def readExpr : Nat → Reader → Option (Node × Reader)
  | 0, _ => none
  | d + 1, r => readExprInner (readExpr d) r

/-- The tree of a pattern, and the reading it took. -/
def readPattern (pattern : List UInt8) (flags : Nat) : Option (Node × Reader) := do
  let (x, r) ← readExpr reMaxDepth ⟨pattern.takeWhile (· ≠ 0), 0, [], flags⟩
  if r.rest = [] then some (x, r) else none

/-! The memory of the character classes, as the bodies of the classes fill it. -/

/-- A byte below 128 is in the set of a class body. -/
def bodyBit (body : Bool × List UInt8) (c : UInt8) : Bool := decide (c ∈ body.2) != body.1

/-- The bit `i` of `classes` after the given class bodies. The bytes from 128 on of the last class lie
where the next one would. -/
def cell (bodies : List (Bool × List UInt8)) (i : Nat) : Bool :=
  match bodies[i / 128]? with
  | some body => bodyBit body (UInt8.ofNat (i % 128))
  | none =>
    if i / 128 = bodies.length then
      bodies.getLast?.any fun body => decide (UInt8.ofNat (128 + i % 128) ∈ body.2)
    else false

/-- The class memory of a handle. Behind the last class lies `n_classes`. -/
structure ClassMem (re : ReHandle) (bodies : List (Bool × List UInt8)) : Prop where
  cells : ∀ i < maxClasses * 128, re.classes i = cell bodies i
  room : bodies.length ≤ maxClasses
  count : re.nClasses = bodies.length ∨ (bodies.length = maxClasses ∧ re.nClasses.testBit 6 ∧ re.nClasses < 2 ^ 32)

section Fill

variable {re : ReHandle} {bodies : List (Bool × List UInt8)} {neg : Bool} {bytes : List UInt8}

theorem setClassBit_classes (re : ReHandle) (j : Nat) {i : Nat} (hi : i < maxClasses * 128) :
    (re.setClassBit j).classes i = (decide (i = j) || re.classes i) := by
  unfold ReHandle.setClassBit
  by_cases hj : j < maxClasses * 128
  · rw [if_pos hj]
    grind
  · rw [if_neg hj, decide_eq_false (by omega), Bool.false_or]
    split <;> rfl

/-- The `class_set` calls of a class. -/
def setAll (re : ReHandle) (cid : Nat) (bytes : List UInt8) : ReHandle :=
  bytes.foldl (fun re b => ReHandle.classSet re cid b) re

/-- The bits of a class put through `f`. -/
def mapClass (re : ReHandle) (cid : Nat) (f : Bool → Bool) : ReHandle :=
  { re with classes := fun i =>
      if decide (cid * 128 ≤ i ∧ i < (cid + 1) * 128) then f (re.classes i) else re.classes i }

theorem fillClass_eq (re : ReHandle) (cid : Nat) (neg : Bool) (bytes : List UInt8) :
    Compiler.fillClass re cid neg bytes =
      if neg then mapClass (setAll (mapClass re cid fun _ => false) cid bytes) cid not
      else setAll (mapClass re cid fun _ => false) cid bytes := rfl

theorem setAll_cons (re : ReHandle) (cid : Nat) (b : UInt8) (bytes : List UInt8) :
    setAll re cid (b :: bytes) = setAll (re.setClassBit (cid * 128 + b.toNat)) cid bytes := rfl

theorem setAll_classes (re : ReHandle) (cid : Nat) (bytes : List UInt8) {i : Nat} (hi : i < maxClasses * 128) :
    (setAll re cid bytes).classes i =
      (re.classes i || bytes.any fun b => decide (i = cid * 128 + b.toNat)) := by
  induction bytes generalizing re with
  | nil => simp [setAll]
  | cons b bytes ih =>
    grind [setAll_cons, setClassBit_classes, List.any_cons]

/-- The handles differ in the memory from `classes` on only. -/
def Outside (re re' : ReHandle) : Prop :=
  re' = { re with classes := re'.classes, nClasses := re'.nClasses, name0 := re'.name0 }

theorem Outside.trans {re₁ re₂ re₃ : ReHandle} (h : Outside re₁ re₂) (k : Outside re₂ re₃) :
    Outside re₁ re₃ := by
  unfold Outside at *
  rw [k, h]

theorem outside_setClassBit (re : ReHandle) (j : Nat) : Outside re (re.setClassBit j) := by
  unfold ReHandle.setClassBit
  split
  · rfl
  split <;> rfl

theorem outside_setAll (re : ReHandle) (cid : Nat) (bytes : List UInt8) : Outside re (setAll re cid bytes) := by
  induction bytes generalizing re with
  | nil => rfl
  | cons b bytes ih => exact (outside_setClassBit re _).trans (ih _)

theorem outside_mapClass (re : ReHandle) (cid : Nat) (f : Bool → Bool) : Outside re (mapClass re cid f) := rfl

theorem outside_fillClass (re : ReHandle) (cid : Nat) (neg : Bool) (bytes : List UInt8) :
    Outside re (Compiler.fillClass re cid neg bytes) := by
  have hset := (outside_mapClass re cid fun _ => false).trans (outside_setAll _ cid bytes)
  rw [fillClass_eq]
  split
  · exact hset.trans (outside_mapClass _ _ _)
  · exact hset

theorem setAll_nClasses (re : ReHandle) {cid : Nat} (bytes : List UInt8) (hcid : cid + 1 < maxClasses) :
    (setAll re cid bytes).nClasses = re.nClasses := by
  induction bytes generalizing re with
  | nil => rfl
  | cons b bytes ih =>
    have hb := b.toNat_lt
    rw [setAll_cons, ih, ReHandle.setClassBit, if_pos (by grind)]

theorem setAll_nClasses_last (re : ReHandle) (cid : Nat) (bytes : List UInt8)
    (h : re.nClasses.testBit 6 ∧ re.nClasses < 2 ^ 32) :
    (setAll re cid bytes).nClasses.testBit 6 ∧ (setAll re cid bytes).nClasses < 2 ^ 32 := by
  induction bytes generalizing re with
  | nil => exact h
  | cons b bytes ih =>
    rw [setAll_cons]
    refine ih _ ?_
    unfold ReHandle.setClassBit
    split
    · exact h
    split
    · next hlo hhi =>
      dsimp only
      refine ⟨by rw [Nat.testBit_or, h.1, Bool.true_or], Nat.or_lt_two_pow h.2 ?_⟩
      exact Nat.pow_lt_pow_right (by decide) (by omega)
    · exact h

theorem fillClass_nClasses (re : ReHandle) (cid : Nat) (neg : Bool) (bytes : List UInt8) :
    (Compiler.fillClass re cid neg bytes).nClasses =
      (setAll (mapClass re cid fun _ => false) cid bytes).nClasses := by
  rw [fillClass_eq]
  split <;> rfl

theorem mapClass_classes (re : ReHandle) (cid : Nat) (f : Bool → Bool) (i : Nat) :
    (mapClass re cid f).classes i = if i / 128 = cid then f (re.classes i) else re.classes i := by
  have hown : (cid * 128 ≤ i ∧ i < (cid + 1) * 128) ↔ i / 128 = cid := by omega
  unfold mapClass
  grind

theorem any_byte (bytes : List UInt8) {n i : Nat} (hn : i < n + 256) (hin : n ≤ i) :
    (bytes.any fun b => decide (i = n + b.toNat)) = decide (UInt8.ofNat (i - n) ∈ bytes) := by
  rw [Bool.eq_iff_iff, List.any_eq_true, decide_eq_true_iff]
  constructor
  · rintro ⟨b, hb, hbi⟩
    have hbyte : UInt8.ofNat (i - n) = b := by
      rw [decide_eq_true_iff] at hbi
      rw [show i - n = b.toNat by omega, UInt8.ofNat_toNat]
    exact hbyte ▸ hb
  grind [decide_eq_true, UInt8.toNat_ofNat', Nat.mod_eq_of_lt]

theorem fillClass_classes (re : ReHandle) (cid : Nat) (neg : Bool) (bytes : List UInt8) {i : Nat}
    (hi : i < maxClasses * 128) : (Compiler.fillClass re cid neg bytes).classes i =
      if i / 128 = cid then decide (UInt8.ofNat (i % 128) ∈ bytes) != neg
      else (re.classes i || bytes.any fun b => decide (i = cid * 128 + b.toNat)) := by
  have hset : (setAll (mapClass re cid fun _ => false) cid bytes).classes i =
      if i / 128 = cid then decide (UInt8.ofNat (i % 128) ∈ bytes)
      else (re.classes i || bytes.any fun b => decide (i = cid * 128 + b.toNat)) := by
    rw [setAll_classes _ _ _ hi, mapClass_classes]
    split
    · next hcid => rw [Bool.false_or, any_byte bytes (by omega) (by omega), show i - cid * 128 = i % 128 by omega]
    · rfl
  rw [fillClass_eq]
  cases neg with
  | true =>
    rw [if_pos rfl, mapClass_classes, hset]
    split <;> simp
  | false =>
    grind

theorem cell_append (bodies : List (Bool × List UInt8)) (body : Bool × List UInt8) (i : Nat) :
    cell (bodies ++ [body]) i =
      if i / 128 = bodies.length then bodyBit body (UInt8.ofNat (i % 128))
      else if i / 128 = bodies.length + 1 then decide (UInt8.ofNat (128 + i % 128) ∈ body.2)
      else cell bodies i := by
  have hlen : (bodies ++ [body]).length = bodies.length + 1 := by grind
  rcases Nat.lt_trichotomy (i / 128) bodies.length with h | h | h
  · rw [if_neg (Nat.ne_of_lt h), if_neg (by omega)]
    unfold cell
    grind
  · rw [if_pos h]
    unfold cell
    grind
  · have hend : (bodies ++ [body])[i / 128]? = none := List.getElem?_eq_none (by omega)
    have hend' : bodies[i / 128]? = none := List.getElem?_eq_none (by omega)
    rw [if_neg (Nat.ne_of_gt h)]
    unfold cell
    grind

theorem ClassMem.fill (h : ClassMem re bodies) (hlt : bodies.length < maxClasses) :
    ClassMem (Compiler.fillClass { re with nClasses := bodies.length + 1 } bodies.length neg bytes)
      (bodies ++ [(neg, bytes)]) where
  cells i hi := by
    rw [fillClass_classes _ _ _ _ hi, cell_append]
    by_cases hk : i / 128 = bodies.length
    · rw [if_pos hk, if_pos hk]
      rfl
    rw [if_neg hk, if_neg hk]
    dsimp only
    rw [h.cells i hi]
    by_cases hk' : i / 128 = bodies.length + 1
    · rw [if_pos hk']
      have hcell : cell bodies i = false := by
        unfold cell
        grind
      rw [hcell, Bool.false_or, any_byte bytes (by omega) (by omega),
        show i - bodies.length * 128 = 128 + i % 128 by omega]
    · rw [if_neg hk']
      have hany : (bytes.any fun b => decide (i = bodies.length * 128 + b.toNat)) = false := by
        rw [List.any_eq_false]
        intro b _
        have hb := b.toNat_lt
        grind
      rw [hany, Bool.or_false]
  room := by grind
  count := by
    rw [fillClass_nClasses, List.length_append, List.length_singleton]
    by_cases hlast : bodies.length + 1 < maxClasses
    · exact .inl (setAll_nClasses _ _ hlast)
    · have heq : bodies.length + 1 = maxClasses := by omega
      refine .inr ⟨heq, setAll_nClasses_last _ _ _ ?_⟩
      rw [show (mapClass { re with nClasses := bodies.length + 1 } bodies.length fun _ => false).nClasses = maxClasses
        from heq]
      decide

theorem no_room_of_testBit {n : Nat} (hbit : n.testBit 6) (hbound : n < 2 ^ 32) (hlt : i32 n < maxClasses) : i32 n < 0 := by
  have hge : 2 ^ 6 ≤ n := Nat.ge_two_pow_of_testBit hbit
  simp only [maxClasses] at hlt
  unfold i32 at hlt ⊢
  grind

theorem ClassMem.count_eq (h : ClassMem re bodies) (hlt : i32 re.nClasses < maxClasses)
    (hpos : ¬ i32 re.nClasses < 0) : re.nClasses = bodies.length ∧ bodies.length < maxClasses := by
  have hroom := h.room
  rcases h.count with heq | ⟨-, hbit, hbound⟩
  · refine ⟨heq, ?_⟩
    simp only [maxClasses] at hroom hlt ⊢
    unfold i32 at hlt
    grind
  · exact absurd (no_room_of_testBit hbit hbound hlt) hpos

end Fill

end LsLang.Regex
