import LsLang.Lib.LexOrder

/-! `@derive(Equal, Order, Hash)`: the methods that `derive_emit_struct` and `derive_emit_enum` write, as the parser reads
them, and what a call of them returns. -/

namespace LsLang.Derive

open LsLang.Lib

section Declarations

/-- The type of a field or of a payload slot. Its operators may be written by hand, `!=` among them. -/
structure Component (V : Type) where
  mem : V → Prop
  eq : V → V → Bool
  ne : V → V → Bool
  lt : V → V → Bool
  hash : V → UInt64

structure StructDecl (V : Type) where
  fields : List (String × Component V)
  nodup : (fields.map Prod.fst).Nodup

structure Variant (V : Type) where
  name : String
  payload : List (Component V)

structure EnumDecl (V : Type) where
  variants : List (Variant V)
  nodup : (variants.map Variant.name).Nodup

abbrev Value (V : Type) := ℕ × List V

end Declarations

section Syntax

inductive Side where
  | self
  | rhs

/-- `self.f` and `rhs.f`; the binders `x0` and `y0` of a payload. -/
inductive Atom where
  | field (side : Side) (name : String)
  | slot (side : Side) (i : ℕ)

inductive Comparison where
  | eq
  | ne
  | lt

inductive Cond where
  | lit (b : Bool)
  | cmp (op : Comparison) (l r : Atom)
  | and (l r : Cond)

inductive Stmt where
  | ret (c : Cond)
  | retIf (c r : Cond)

/-- The second argument of `fx_mix`: `n as u64`, or the hash of a component. -/
inductive Word where
  | lit (n : ℕ)
  | hash (a : Atom)

/-- The arms of a `match`, each for a variant or for the wildcard. -/
abbrev Arms (β : Type) := List (Option String × β)

end Syntax

section Generator

variable {V : Type}

/-- The comparisons, with `&&` between them. -/
def conj : List Cond → Cond
  | [] => .lit true
  | c :: cs => cs.foldl .and c

/-- One comparison by `==` for each pair. -/
def equalOf (pairs : List (Atom × Atom)) : Cond := conj (pairs.map fun p => .cmp .eq p.1 p.2)

def lessOf (pairs : List (Atom × Atom)) : List Stmt :=
  pairs.map (fun p => .retIf (.cmp .ne p.1 p.2) (.cmp .lt p.1 p.2)) ++ [.ret (.lit false)]

namespace StructDecl

variable (d : StructDecl V)

def pairs : List (Atom × Atom) := d.fields.map fun f => (.field .self f.1, .field .rhs f.1)

def equalBody : Cond := equalOf d.pairs

def lessBody : List Stmt := lessOf d.pairs

def hashBody : List Word := d.fields.map fun f => .hash (.field .self f.1)

end StructDecl

def Variant.pairs (v : Variant V) : List (Atom × Atom) :=
  (List.range v.payload.length).map fun p => (.slot .self p, .slot .rhs p)

namespace EnumDecl

variable (d : EnumDecl V)

def armsOf {β : Type} (body : Variant V → ℕ → β) : Arms β := d.variants.zipIdx.map fun (v, i) => (some v.name, body v i)

def equalArms : Arms (Arms Cond) := d.armsOf fun v _ => [(some v.name, equalOf v.pairs), (none, .lit false)]

/-- `__si` and `__ri` -/
def indexArms : Arms ℕ := d.armsOf fun _ i => i

def lessArms : Arms (Arms (List Stmt)) :=
  d.armsOf fun v _ => [(some v.name, lessOf v.pairs), (none, [.ret (.lit false)])]

def hashArms : Arms (List Word) :=
  d.armsOf fun v i => .lit (i + 1) :: (List.range v.payload.length).map fun p => .hash (.slot .self p)

end EnumDecl

end Generator

section Calls

variable {V : Type}

abbrev Env (V : Type) := Atom → Option (Component V × V)

def Component.compare (c : Component V) : Comparison → V → V → Bool
  | .eq => c.eq
  | .ne => c.ne
  | .lt => c.lt

def Cond.eval (env : Env V) : Cond → Option Bool
  | .lit b => some b
  | .cmp op l r => do
    let (c, a) ← env l
    let (_, b) ← env r
    some (c.compare op a b)
  | .and l r => do
    let b ← l.eval env
    if b then r.eval env else some false

def run (env : Env V) : List Stmt → Option Bool
  | [] => none
  | .ret c :: _ => c.eval env
  | .retIf c r :: rest => do
    let b ← c.eval env
    if b then r.eval env else run env rest

def fxSeed : UInt64 := 0x517cc1b727220a95

/-- `fx_mix` -/
def fxMix (h word : UInt64) : UInt64 :=
  let x := h ^^^ word
  let r := (x <<< 5) ||| (x >>> 59)
  r * fxSeed

def Word.eval (env : Env V) : Word → Option UInt64
  | .lit n => some n.toUInt64
  | .hash a => do
    let (c, v) ← env a
    some (c.hash v)

/-- `h = std.core.hash.fx_mix(h, ..)`, once for each word. -/
def mixAll (env : Env V) : UInt64 → List Word → Option UInt64
  | h, [] => some h
  | h, w :: ws => do
    let word ← w.eval env
    mixAll env (fxMix h word) ws

def lookup (name : String) : List (String × Component V) → List V → Option (Component V × V)
  | (n, c) :: fs, v :: vs => if n = name then some (c, v) else lookup name fs vs
  | _, _ => none

namespace StructDecl

variable (d : StructDecl V)

def env (self : List V) (rhs : Option (List V)) : Env V
  | .field .self name => lookup name d.fields self
  | .field .rhs name => rhs.bind (lookup name d.fields)
  | .slot .. => none

def equal (a b : Value V) : Option Bool := d.equalBody.eval (d.env a.2 (some b.2))

def less (a b : Value V) : Option Bool := run (d.env a.2 (some b.2)) d.lessBody

def hash (a : Value V) : Option UInt64 := mixAll (d.env a.2 none) 0 d.hashBody

end StructDecl

namespace EnumDecl

variable (d : EnumDecl V)

def select {β : Type} (tag : ℕ) : Arms β → Option β
  | [] => none
  | (none, body) :: _ => some body
  | (some name, body) :: rest =>
    if (d.variants.map Variant.name).idxOf name = tag then some body else select tag rest

def slot (a : Value V) (i : ℕ) : Option (Component V × V) := do
  let v ← d.variants[a.1]?
  let c ← v.payload[i]?
  let x ← a.2[i]?
  some (c, x)

def env (self : Value V) (rhs : Option (Value V)) : Env V
  | .slot .self i => d.slot self i
  | .slot .rhs i => rhs.bind (d.slot · i)
  | .field .. => none

def equal (a b : Value V) : Option Bool := do
  let inner ← d.select a.1 d.equalArms
  let body ← d.select b.1 inner
  body.eval (d.env a (some b))

def less (a b : Value V) : Option Bool := do
  let si ← d.select a.1 d.indexArms
  let ri ← d.select b.1 d.indexArms
  if si ≠ ri then some (si < ri)
  else do
    let inner ← d.select a.1 d.lessArms
    let body ← d.select b.1 inner
    run (d.env a (some b)) body

def hash (a : Value V) : Option UInt64 := do
  let words ← d.select a.1 d.hashArms
  mixAll (d.env a none) 0 words

end EnumDecl

/-- A declaration with `@derive(Equal, Order, Hash)`. -/
inductive Decl (V : Type) where
  | struct (d : StructDecl V)
  | enum (d : EnumDecl V)

namespace Decl

def equal : Decl V → Value V → Value V → Option Bool
  | struct d => d.equal
  | enum d => d.equal

def less : Decl V → Value V → Value V → Option Bool
  | struct d => d.less
  | enum d => d.less

def hash : Decl V → Value V → Option UInt64
  | struct d => d.hash
  | enum d => d.hash

def shapes : Decl V → List (List (Component V))
  | struct d => [d.fields.map Prod.snd]
  | enum d => d.variants.map Variant.payload

end Decl

end Calls

/-! The derived operators agree with each other. -/

variable {V : Type}

section Specification

/-- The values of a type, with its `==` and its `<`. -/
def Component.set (c : Component V) : OrderedSet V := ⟨c.mem, fun a b => c.eq a b = true, fun a b => c.lt a b = true⟩

/-- `==` is an equivalence, `<` a strict total order compatible with it, and the hash respects it. -/
structure Component.Coherent (c : Component V) : Prop where
  lawful : c.set.Lawful
  hash : ∀ a b, c.mem a → c.mem b → c.eq a b = true → c.hash a = c.hash b

/-- `!=` is the negation of `==`, as it is unless it is written by hand. -/
def Component.Negates (c : Component V) : Prop := ∀ a b, c.mem a → c.mem b → c.ne a b = !c.eq a b

def tupleOf (cs : List (Component V)) : OrderedSet (List V) := OrderedSet.lex (cs.map Component.set)

/-- The values of a declaration: by their variants, and then by their components, in declaration order. -/
def Decl.set (d : Decl V) : OrderedSet (Value V) := OrderedSet.tagged (d.shapes.map tupleOf)

end Specification

section Tuples

variable {c : Component V} {cs : List (Component V)} {a b : V} {as bs : List V}

theorem tupleOf_mem_cons : (tupleOf (c :: cs)).mem (a :: as) ↔ c.mem a ∧ (tupleOf cs).mem as := OrderedSet.lex_mem_cons

theorem tupleOf_eq_cons : (tupleOf (c :: cs)).eq (a :: as) (b :: bs) ↔ c.eq a b = true ∧ (tupleOf cs).eq as bs :=
  OrderedSet.lex_eq_cons

theorem tupleOf_lt_cons : (tupleOf (c :: cs)).lt (a :: as) (b :: bs) ↔
    c.lt a b = true ∨ c.eq a b = true ∧ (tupleOf cs).lt as bs := OrderedSet.lex_lt_cons

end Tuples

section Bodies

variable {env : Env V} {atoms : List Atom} {pairs : List (Atom × Atom)} {cs : List (Component V)} {as bs : List V}

inductive Reads (env : Env V) : List Atom → List (Component V) → List V → Prop where
  | nil : Reads env [] [] []
  | cons {l ls c cs a as} (hl : env l = some (c, a)) (ha : c.mem a) (h : Reads env ls cs as) :
      Reads env (l :: ls) (c :: cs) (a :: as)

theorem cmp_eval {l r : Atom} {c c' : Component V} {a b : V} (hl : env l = some (c, a)) (hr : env r = some (c', b))
    (op : Comparison) : (Cond.cmp op l r).eval env = some (c.compare op a b) := by
  rw [Cond.eval, hl, hr]
  rfl

theorem foldl_and_eval {c : Cond} {b : Bool} (hc : c.eval env = some b) (hl : Reads env (pairs.map Prod.fst) cs as)
    (hr : Reads env (pairs.map Prod.snd) cs bs) :
    ∃ r, ((pairs.map fun p => Cond.cmp .eq p.1 p.2).foldl .and c).eval env = some r ∧
      (r = true ↔ b = true ∧ (tupleOf cs).eq as bs) := by
  induction pairs generalizing c b cs as bs with
  | nil =>
    cases hl
    cases hr
    exact ⟨b, hc, (and_iff_left trivial).symm⟩
  | cons p pairs ih =>
    cases hl with
    | @cons _ _ c' _ x _ hl hx hls =>
    cases hr with
    | @cons _ _ _ _ y _ hr hy hrs =>
    have hnext : (Cond.and c (.cmp .eq p.1 p.2)).eval env = some (b && c'.eq x y) := by
      rw [Cond.eval, hc, cmp_eval hl hr]
      cases b <;> rfl
    obtain ⟨res, hres, hiff⟩ := ih hnext hls hrs
    refine ⟨res, hres, hiff.trans ?_⟩
    rw [Bool.and_eq_true, and_assoc, tupleOf_eq_cons]

theorem equalOf_eval (hl : Reads env (pairs.map Prod.fst) cs as) (hr : Reads env (pairs.map Prod.snd) cs bs) :
    ∃ r, (equalOf pairs).eval env = some r ∧ (r = true ↔ (tupleOf cs).eq as bs) := by
  cases pairs with
  | nil =>
    cases hl
    exact ⟨true, rfl, iff_of_true rfl trivial⟩
  | cons p pairs =>
    cases hl with
    | @cons _ _ c _ x _ hl hx hls =>
    cases hr with
    | @cons _ _ _ _ y _ hr hy hrs =>
    obtain ⟨res, hres, hiff⟩ := foldl_and_eval (cmp_eval hl hr .eq) hls hrs
    exact ⟨res, hres, hiff.trans tupleOf_eq_cons.symm⟩

theorem lessOf_eval (hl : Reads env (pairs.map Prod.fst) cs as) (hr : Reads env (pairs.map Prod.snd) cs bs)
    (hs : ∀ c ∈ cs, c.Coherent) (hne : ∀ c ∈ cs, c.Negates) :
    ∃ r, run env (lessOf pairs) = some r ∧ (r = true ↔ (tupleOf cs).lt as bs) := by
  induction pairs generalizing cs as bs with
  | nil =>
    cases hl
    exact ⟨false, rfl, iff_of_false Bool.false_ne_true id⟩
  | cons p pairs ih =>
    cases hl with
    | @cons _ _ c cs x _ hl hx hls =>
    cases hr with
    | @cons _ _ _ _ y _ hr hy hrs =>
    obtain ⟨res, hres, hiff⟩ := ih hls hrs (fun c hc => hs c (List.mem_cons_of_mem _ hc))
      fun c hc => hne c (List.mem_cons_of_mem _ hc)
    have hstep : run env (lessOf (p :: pairs)) = if c.ne x y then some (c.lt x y) else run env (lessOf pairs) := by
      change (do
        let b ← (Cond.cmp .ne p.1 p.2).eval env
        if b then (Cond.cmp .lt p.1 p.2).eval env else run env (lessOf pairs)) = _
      rw [cmp_eval hl hr, cmp_eval hl hr]
      rfl
    rw [hstep, hne c List.mem_cons_self x y hx hy, tupleOf_lt_cons]
    cases heq : c.eq x y with
    | false => grind
    | true =>
      have hnot : ¬c.lt x y = true := fun hlt =>
        (hs c List.mem_cons_self).lawful.not_eq_of_lt hx hy hlt heq
      grind

/-- The hash of the components, on top of `h`. -/
def hashFrom : UInt64 → List (Component V) → List V → UInt64
  | h, c :: cs, a :: as => hashFrom (fxMix h (c.hash a)) cs as
  | h, _, _ => h

theorem mixAll_eval (hl : Reads env atoms cs as) (h : UInt64) :
    mixAll env h (atoms.map .hash) = some (hashFrom h cs as) := by
  induction hl generalizing h with
  | nil => rfl
  | @cons l ls c cs a as hl ha hls ih =>
    rw [List.map_cons, mixAll, Word.eval, hl]
    exact ih (fxMix h (c.hash a))

theorem hashFrom_congr (hs : ∀ c ∈ cs, c.Coherent) (has : (tupleOf cs).mem as) (hbs : (tupleOf cs).mem bs)
    (heq : (tupleOf cs).eq as bs) (h : UInt64) : hashFrom h cs as = hashFrom h cs bs := by
  induction cs generalizing as bs h with
  | nil =>
    cases as <;> cases bs <;> rfl
  | cons c cs ih =>
    obtain ⟨a, as, rfl, ha, has⟩ := has
    obtain ⟨b, bs, rfl, hb, hbs⟩ := hbs
    obtain ⟨hab, habs⟩ := tupleOf_eq_cons.1 heq
    rw [hashFrom, hashFrom, (hs c List.mem_cons_self).hash a b ha hb hab]
    exact ih (fun c hc => hs c (List.mem_cons_of_mem _ hc)) has hbs habs _

end Bodies

section Structs

variable {fields : List (String × Component V)} {as : List V}

theorem reads_fields {side : Side} {env : Env V} (hnodup : (fields.map Prod.fst).Nodup)
    (has : (tupleOf (fields.map Prod.snd)).mem as)
    (henv : ∀ name ∈ fields.map Prod.fst, env (.field side name) = lookup name fields as) :
    Reads env (fields.map fun f => .field side f.1) (fields.map Prod.snd) as := by
  induction fields generalizing as env with
  | nil =>
    have hnil : as = [] := has
    rw [hnil]
    exact .nil
  | cons f fields ih =>
    obtain ⟨a, as, rfl, ha, has⟩ := has
    rw [List.map_cons, List.nodup_cons] at hnodup
    have hself : env (.field side f.1) = some (f.2, a) := by
      rw [henv f.1 List.mem_cons_self, lookup, if_pos rfl]
    refine .cons hself ha (ih hnodup.2 has fun name hname => ?_)
    have hne : f.1 ≠ name := fun heq => hnodup.1 (heq ▸ hname)
    rw [henv name (List.mem_cons_of_mem _ hname), lookup, if_neg hne]

namespace StructDecl

variable (d : StructDecl V) {bs : List V}

theorem reads_self (has : (tupleOf (d.fields.map Prod.snd)).mem as) (rhs : Option (List V)) :
    Reads (d.env as rhs) (d.fields.map fun f => .field .self f.1) (d.fields.map Prod.snd) as :=
  reads_fields d.nodup has fun _ _ => rfl

theorem reads_rhs (hbs : (tupleOf (d.fields.map Prod.snd)).mem bs) :
    Reads (d.env as (some bs)) (d.fields.map fun f => .field .rhs f.1) (d.fields.map Prod.snd) bs :=
  reads_fields d.nodup hbs fun _ _ => rfl

theorem pairs_fst : d.pairs.map Prod.fst = d.fields.map fun f => .field .self f.1 := List.map_map

theorem pairs_snd : d.pairs.map Prod.snd = d.fields.map fun f => .field .rhs f.1 := List.map_map

end StructDecl

end Structs

section Enums

variable {d : EnumDecl V}

theorem idxOf_name {k : ℕ} (hk : k < d.variants.length) : (d.variants.map Variant.name).idxOf d.variants[k].name = k := by
  have hget := d.nodup.idxOf_getElem k (by rwa [List.length_map])
  grind

theorem select_inner {β : Type} {k tag : ℕ} (hk : k < d.variants.length) (x y : β) :
    d.select tag [(some d.variants[k].name, x), (none, y)] = some (if k = tag then x else y) := by
  rw [EnumDecl.select, idxOf_name hk]
  split <;> rfl

theorem select_armsOf {β : Type} {tag : ℕ} (htag : tag < d.variants.length) (body : Variant V → ℕ → β) :
    d.select tag (d.armsOf body) = some (body d.variants[tag] tag) := by
  have hsuffix : ∀ n k, k + n = d.variants.length → k ≤ tag →
      d.select tag (((d.variants.drop k).zipIdx k).map fun (v, i) => (some v.name, body v i)) =
        some (body d.variants[tag] tag) := by
    intro n
    induction n with
    | zero => intro k hk hle; omega
    | succ n ih =>
      intro k hk hle
      rw [List.drop_eq_getElem_cons (by omega), List.zipIdx_cons, List.map_cons, EnumDecl.select, idxOf_name]
      grind
  exact hsuffix d.variants.length 0 (Nat.zero_add _) (Nat.zero_le _)

theorem slot_eq {v : Variant V} {c : Component V} {a : Value V} {x : V} {i : ℕ} (hv : d.variants[a.1]? = some v)
    (hc : v.payload[i]? = some c) (hx : a.2[i]? = some x) : d.slot a i = some (c, x) := by
  unfold EnumDecl.slot
  grind

theorem reads_slots {s : Side} {e : Env V} {v : Variant V} {a : Value V} (hv : d.variants[a.1]? = some v)
    (ha : (tupleOf v.payload).mem a.2) (henv : ∀ i, e (.slot s i) = d.slot a i) :
    Reads e ((List.range v.payload.length).map (.slot s)) v.payload a.2 := by
  have hsuffix : ∀ (cs : List (Component V)) (as : List V) (k : ℕ), v.payload.drop k = cs → a.2.drop k = as →
      (tupleOf cs).mem as → Reads e ((List.range' k cs.length).map (.slot s)) cs as := by
    intro cs
    induction cs with
    | nil =>
      intro as k _ _ has
      have hnil : as = [] := has
      rw [hnil]
      exact .nil
    | cons c cs ih =>
      rintro _ k hcs has ⟨x, as, rfl, hx, hrest⟩
      have hc : v.payload[k]? = some c := by
        rw [← List.head?_drop, hcs]
        rfl
      have hget : a.2[k]? = some x := by
        rw [← List.head?_drop, has]
        rfl
      have hcs' : v.payload.drop (k + 1) = cs := by rw [← List.drop_drop, hcs]; rfl
      have has' : a.2.drop (k + 1) = as := by rw [← List.drop_drop, has]; rfl
      rw [List.length_cons, List.range'_succ, List.map_cons]
      exact .cons ((henv k).trans (slot_eq hv hc hget)) hx (ih as (k + 1) hcs' has' hrest)
  rw [List.range_eq_range']
  grind

namespace EnumDecl

variable {v w : Variant V} {a b : Value V}

theorem pairs_fst (v : Variant V) : v.pairs.map Prod.fst = (List.range v.payload.length).map (.slot .self) := List.map_map

theorem pairs_snd (v : Variant V) : v.pairs.map Prod.snd = (List.range v.payload.length).map (.slot .rhs) := List.map_map

theorem select_both {β : Type} {f : Variant V → β} {y : β} (hv : d.variants[a.1]? = some v) :
    (do
      let inner ← d.select a.1 (d.armsOf fun v _ => [(some v.name, f v), (none, y)])
      d.select b.1 inner) = some (if a.1 = b.1 then f v else y) := by
  grind [select_inner, select_armsOf, List.getElem?_eq_some_iff]

theorem equal_spec (hv : d.variants[a.1]? = some v) (ha : (tupleOf v.payload).mem a.2)
    (hw : d.variants[b.1]? = some w) (hb : (tupleOf w.payload).mem b.2) :
    ∃ r, d.equal a b = some r ∧ (r = true ↔ a.1 = b.1 ∧ (tupleOf v.payload).eq a.2 b.2) := by
  have hselect : d.equal a b = (if a.1 = b.1 then equalOf v.pairs else .lit false).eval (d.env a (some b)) := by
    unfold EnumDecl.equal EnumDecl.equalArms
    rw [← bind_assoc, select_both hv]
    rfl
  rw [hselect]
  by_cases htag : a.1 = b.1
  · rw [← htag, hv] at hw
    cases hw
    have hl := reads_slots (s := .self) (e := d.env a (some b)) hv ha fun _ => rfl
    have hr := reads_slots (s := .rhs) (e := d.env a (some b)) (htag ▸ hv) hb fun _ => rfl
    rw [← pairs_fst] at hl
    rw [← pairs_snd] at hr
    rw [if_pos htag, and_iff_right htag]
    exact equalOf_eval hl hr
  · rw [if_neg htag]
    exact ⟨false, rfl, iff_of_false Bool.false_ne_true fun h => htag h.1⟩

theorem less_spec (hv : d.variants[a.1]? = some v) (ha : (tupleOf v.payload).mem a.2)
    (hw : d.variants[b.1]? = some w) (hb : (tupleOf w.payload).mem b.2) (hs : ∀ c ∈ v.payload, c.Coherent)
    (hne : ∀ c ∈ v.payload, c.Negates) :
    ∃ r, d.less a b = some r ∧ (r = true ↔ a.1 < b.1 ∨ a.1 = b.1 ∧ (tupleOf v.payload).lt a.2 b.2) := by
  obtain ⟨hlta, -⟩ := List.getElem?_eq_some_iff.1 hv
  obtain ⟨hltb, -⟩ := List.getElem?_eq_some_iff.1 hw
  have hless : d.less a b = if a.1 ≠ b.1 then some (decide (a.1 < b.1)) else
      run (d.env a (some b)) (if a.1 = b.1 then lessOf v.pairs else [.ret (.lit false)]) := by
    have hboth := select_both (f := fun v => lessOf v.pairs) (y := [Stmt.ret (.lit false)]) (b := b) hv
    unfold EnumDecl.less EnumDecl.indexArms EnumDecl.lessArms
    rw [select_armsOf hlta, select_armsOf hltb]
    change (if a.1 ≠ b.1 then _ else _) = _
    refine if_congr Iff.rfl rfl ?_
    rw [← bind_assoc, hboth]
    rfl
  rw [hless]
  by_cases htag : a.1 = b.1
  · rw [← htag, hv] at hw
    cases hw
    have hl := reads_slots (s := .self) (e := d.env a (some b)) hv ha fun _ => rfl
    have hr := reads_slots (s := .rhs) (e := d.env a (some b)) (htag ▸ hv) hb fun _ => rfl
    rw [← pairs_fst] at hl
    rw [← pairs_snd] at hr
    obtain ⟨r, hr, hiff⟩ := lessOf_eval hl hr hs hne
    grind
  grind

theorem hash_eval (hv : d.variants[a.1]? = some v) (ha : (tupleOf v.payload).mem a.2) :
    d.hash a = some (hashFrom (fxMix 0 (a.1 + 1).toUInt64) v.payload a.2) := by
  obtain ⟨hlt, rfl⟩ := List.getElem?_eq_some_iff.1 hv
  have hl := reads_slots (s := .self) (e := d.env a none) hv ha fun _ => rfl
  have hmix := mixAll_eval hl (fxMix 0 (a.1 + 1).toUInt64)
  rw [List.map_map] at hmix
  unfold EnumDecl.hash EnumDecl.hashArms
  rw [select_armsOf hlt]
  exact hmix

end EnumDecl

end Enums

section Declarations

/-- What a derived declaration promises for any two of its values. -/
structure Decl.Coherent (d : Decl V) : Prop where
  equal : ∀ a b, d.set.mem a → d.set.mem b → ∃ r, d.equal a b = some r ∧ (r = true ↔ d.set.eq a b)
  less : ∀ a b, d.set.mem a → d.set.mem b → ∃ r, d.less a b = some r ∧ (r = true ↔ d.set.lt a b)
  hash : ∀ a b, d.set.mem a → d.set.mem b → d.set.eq a b → ∃ h, d.hash a = some h ∧ d.hash b = some h
  lawful : d.set.Lawful
  one : ∀ a b, d.set.mem a → d.set.mem b →
    d.set.lt a b ∧ ¬d.set.eq a b ∧ ¬d.set.lt b a ∨ ¬d.set.lt a b ∧ d.set.eq a b ∧ ¬d.set.lt b a ∨
      ¬d.set.lt a b ∧ ¬d.set.eq a b ∧ d.set.lt b a

/-- The types of all the components. -/
def Decl.components (d : Decl V) : List (Component V) := d.shapes.flatten

theorem Decl.mem_set {d : Decl V} {a : Value V} (ha : d.set.mem a) :
    ∃ cs, d.shapes[a.1]? = some cs ∧ (tupleOf cs).mem a.2 := by
  obtain ⟨s, hs, hmem⟩ := ha
  grind

theorem Decl.getElem?_tuples {d : Decl V} {tag : ℕ} {cs : List (Component V)} (h : d.shapes[tag]? = some cs) :
    (d.shapes.map tupleOf)[tag]? = some (tupleOf cs) := by grind

variable {d : Decl V} {a b : Value V} {cs : List (Component V)}

namespace Decl

theorem set_eq (hcs : d.shapes[a.1]? = some cs) : d.set.eq a b ↔ a.1 = b.1 ∧ (tupleOf cs).eq a.2 b.2 :=
  OrderedSet.tagged_eq_iff (getElem?_tuples hcs)

theorem set_lt (hcs : d.shapes[a.1]? = some cs) : d.set.lt a b ↔ a.1 < b.1 ∨ a.1 = b.1 ∧ (tupleOf cs).lt a.2 b.2 :=
  OrderedSet.tagged_lt_iff (getElem?_tuples hcs)

theorem struct_shape {d : StructDecl V} {tag : ℕ} (h : (struct d).shapes[tag]? = some cs) :
    tag = 0 ∧ cs = d.fields.map Prod.snd := by
  cases tag with
  | zero =>
    cases h
    exact ⟨rfl, rfl⟩
  | succ tag => cases h

theorem enum_shape {d : EnumDecl V} {tag : ℕ} (h : (enum d).shapes[tag]? = some cs) :
    ∃ v, d.variants[tag]? = some v ∧ v.payload = cs := by
  rw [shapes, List.getElem?_map, Option.map_eq_some_iff] at h
  exact h

theorem equal_spec (ha : d.set.mem a) (hb : d.set.mem b) : ∃ r, d.equal a b = some r ∧ (r = true ↔ d.set.eq a b) := by
  obtain ⟨cs, hcs, has⟩ := mem_set ha
  obtain ⟨cs', hcs', hbs⟩ := mem_set hb
  rw [set_eq hcs]
  cases d with
  | struct d =>
    obtain ⟨ha0, rfl⟩ := struct_shape hcs
    obtain ⟨hb0, rfl⟩ := struct_shape hcs'
    rw [and_iff_right (ha0.trans hb0.symm)]
    exact equalOf_eval (d.pairs_fst ▸ d.reads_self has (some b.2)) (d.pairs_snd ▸ d.reads_rhs hbs)
  | enum d =>
    obtain ⟨v, hv, rfl⟩ := enum_shape hcs
    obtain ⟨w, hw, rfl⟩ := enum_shape hcs'
    exact d.equal_spec hv has hw hbs

theorem mem_components (hcs : d.shapes[a.1]? = some cs) {c : Component V} (hc : c ∈ cs) : c ∈ d.components :=
  List.mem_flatten.2 ⟨cs, List.mem_of_getElem? hcs, hc⟩

theorem less_spec (hs : ∀ c ∈ d.components, c.Coherent) (hne : ∀ c ∈ d.components, c.Negates) (ha : d.set.mem a)
    (hb : d.set.mem b) : ∃ r, d.less a b = some r ∧ (r = true ↔ d.set.lt a b) := by
  obtain ⟨cs, hcs, has⟩ := mem_set ha
  obtain ⟨cs', hcs', hbs⟩ := mem_set hb
  have hsv := fun c hc => hs c (mem_components hcs hc)
  have hnev := fun c hc => hne c (mem_components hcs hc)
  rw [set_lt hcs]
  cases d with
  | struct d =>
    obtain ⟨ha0, rfl⟩ := struct_shape hcs
    obtain ⟨hb0, rfl⟩ := struct_shape hcs'
    rw [ha0, hb0, or_iff_right (Nat.lt_irrefl 0), and_iff_right rfl]
    exact lessOf_eval (d.pairs_fst ▸ d.reads_self has (some b.2)) (d.pairs_snd ▸ d.reads_rhs hbs) hsv hnev
  | enum d =>
    obtain ⟨v, hv, rfl⟩ := enum_shape hcs
    obtain ⟨w, hw, rfl⟩ := enum_shape hcs'
    exact d.less_spec hv has hw hbs hsv hnev

theorem hash_spec (hs : ∀ c ∈ d.components, c.Coherent) (ha : d.set.mem a) (hb : d.set.mem b) (heq : d.set.eq a b) :
    ∃ h, d.hash a = some h ∧ d.hash b = some h := by
  obtain ⟨cs, hcs, has⟩ := mem_set ha
  obtain ⟨cs', hcs', hbs⟩ := mem_set hb
  obtain ⟨htag, heqs⟩ := (set_eq hcs).1 heq
  rw [← htag, hcs] at hcs'
  cases hcs'
  have hsv := fun c hc => hs c (mem_components hcs hc)
  cases d with
  | struct d =>
    obtain ⟨-, rfl⟩ := struct_shape hcs
    have hself := mixAll_eval (d.reads_self has none) 0
    have hrhs := mixAll_eval (d.reads_self hbs none) 0
    rw [List.map_map] at hself hrhs
    rw [← hashFrom_congr hsv has hbs heqs] at hrhs
    exact ⟨_, hself, hrhs⟩
  | enum d =>
    obtain ⟨v, hv, rfl⟩ := enum_shape hcs
    refine ⟨_, d.hash_eval hv has, ?_⟩
    rw [show (enum d).hash b = d.hash b from rfl, d.hash_eval (htag ▸ hv) hbs, ← htag,
      hashFrom_congr hsv has hbs heqs]

theorem lawful (hs : ∀ c ∈ d.components, c.Coherent) : d.set.Lawful := by
  refine OrderedSet.Lawful.tagged fun s hmem => ?_
  obtain ⟨cs, hcs, rfl⟩ := List.mem_map.1 hmem
  refine OrderedSet.Lawful.lex fun s hmem => ?_
  obtain ⟨c, hc, rfl⟩ := List.mem_map.1 hmem
  exact (hs c (List.mem_flatten.2 ⟨cs, hcs, hc⟩)).lawful

/-- The derived operators are coherent if those of the components are, and `!=` is the negation of `==`. -/
theorem coherent (hs : ∀ c ∈ d.components, c.Coherent) (hne : ∀ c ∈ d.components, c.Negates) : d.Coherent where
  equal _ _ ha hb := equal_spec ha hb
  less _ _ ha hb := less_spec hs hne ha hb
  hash _ _ ha hb heq := hash_spec hs ha hb heq
  lawful := lawful hs
  one a b ha hb := by
    have h := lawful hs
    obtain hlt | heq | hgt := h.total a b ha hb
    · exact .inl ⟨hlt, h.not_eq_of_lt ha hb hlt, h.not_lt_of_lt ha hb hlt⟩
    · refine .inr (.inl ⟨fun hlt => h.not_eq_of_lt ha hb hlt heq, heq, fun hgt => ?_⟩)
      exact h.not_eq_of_lt hb ha hgt (h.symm a b ha hb heq)
    · refine .inr (.inr ⟨h.not_lt_of_lt hb ha hgt, fun heq => ?_, hgt⟩)
      exact h.not_eq_of_lt hb ha hgt (h.symm a b ha hb heq)

end Decl

end Declarations

section Overriding

/-- Numbers, with a `!=` that is written by hand. -/
def numbers (ne : ℕ → ℕ → Bool) : Component ℕ where
  mem _ := True
  eq a b := decide (a = b)
  ne := ne
  lt a b := decide (a < b)
  hash a := a.toUInt64

theorem numbers_coherent (ne : ℕ → ℕ → Bool) : (numbers ne).Coherent where
  lawful := by
    refine ⟨?_, ?_, ?_, ?_, ?_, ?_, ?_, ?_⟩ <;>
    · simp only [Component.set, numbers, decide_eq_true_iff]
      intros
      omega
  hash a b _ _ h := by rw [of_decide_eq_true h]

def numberOrNone : EnumDecl ℕ where
  variants := [⟨"Num", [numbers fun a b => decide (a ≠ b)]⟩, ⟨"End", []⟩]
  nodup := by decide

theorem numberOrNone_coherent : (Decl.enum numberOrNone).Coherent := by
  have hmem : ∀ c ∈ (Decl.enum numberOrNone).components, c = numbers fun a b => decide (a ≠ b) :=
    fun c hc => List.mem_singleton.1 hc
  refine Decl.coherent (fun c hc => hmem c hc ▸ numbers_coherent _) fun c hc a b _ _ => ?_
  rw [hmem c hc]
  exact decide_not

/-- A struct around a type whose `!=` is never true. -/
def wrapper : StructDecl ℕ where
  fields := [("p", numbers fun _ _ => false)]
  nodup := by decide

/-- Neither of two different values is less than the other. -/
theorem not_coherent : ¬ ∀ d : Decl ℕ, (∀ c ∈ d.components, c.Coherent) → d.Coherent := by
  intro h
  have hmem : ∀ n, (Decl.struct wrapper).set.mem (0, [n]) :=
    fun n => ⟨_, rfl, tupleOf_mem_cons.2 ⟨trivial, rfl⟩⟩
  have hlt : (Decl.struct wrapper).set.lt (0, [1]) (0, [2]) := (Decl.set_lt rfl).2 (.inr ⟨rfl, tupleOf_lt_cons.2 (.inl rfl)⟩)
  have hspec := h (.struct wrapper) fun c hc => List.mem_singleton.1 hc ▸ numbers_coherent _
  obtain ⟨r, hr, hiff⟩ := hspec.less (0, [1]) (0, [2]) (hmem 1) (hmem 2)
  have hfalse : (Decl.struct wrapper).less (0, [1]) (0, [2]) = some false := rfl
  rw [hfalse] at hr
  cases hr
  exact Bool.false_ne_true (hiff.2 hlt)

end Overriding

end LsLang.Derive
