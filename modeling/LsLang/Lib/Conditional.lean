import Mathlib.Data.List.Basic

/-! Texts with conditional blocks: which pieces stand where all conditions around them hold. -/

namespace Conditional

variable {α ω : Type*}

inductive Item (α ω : Type*)
  | piece (a : α)
  | cond (w : ω)
  | other
  | close
  deriving DecidableEq

inductive Text (α ω : Type*)
  | nil
  | piece (a : α) (rest : Text α ω)
  | block (w : ω) (body rest : Text α ω)
  | branch (w : ω) (body other rest : Text α ω)

namespace Text

def items : Text α ω → List (Item α ω)
  | nil => []
  | piece a rest => .piece a :: rest.items
  | block w body rest => .cond w :: (body.items ++ .close :: rest.items)
  | branch w body other rest =>
    .cond w :: (body.items ++ .other :: (other.items ++ .close :: rest.items))

def depth : Text α ω → Nat
  | nil => 0
  | piece _ rest => rest.depth
  | block _ body rest => max (body.depth + 1) rest.depth
  | branch _ body other rest => max (max body.depth other.depth + 1) rest.depth

/-- The pieces, each under the conditions around it: a word, and whether it is to hold. -/
def guarded (path : List (ω × Bool)) : Text α ω → List (List (ω × Bool) × α)
  | nil => []
  | piece a rest => (path, a) :: guarded path rest
  | block w body rest => guarded ((w, true) :: path) body ++ guarded path rest
  | branch w body other rest =>
    guarded ((w, true) :: path) body ++
      (guarded ((w, false) :: path) other ++ guarded path rest)

theorem close_mem {t : Text α ω} {w : ω} {is : List (Item α ω)} (h : t.items = .cond w :: is) :
    .close ∈ is := by
  cases t with
  | nil => cases h
  | piece => cases h
  | block _ body rest =>
    obtain rfl := List.tail_eq_of_cons_eq h
    grind
  | branch _ body other rest =>
    obtain rfl := List.tail_eq_of_cons_eq h
    grind

variable (holds : ω → Bool)

def allHold (path : List (ω × Bool)) : Bool := path.all fun c => holds c.1 == c.2

def select (t : Text α ω) : List α :=
  ((t.guarded []).filter fun g => allHold holds g.1).map Prod.snd

def choose (active : Bool) : Text α ω → List α
  | nil => []
  | piece a rest => (if active then [a] else []) ++ choose active rest
  | block w body rest => choose (active && holds w) body ++ choose active rest
  | branch w body other rest =>
    choose (active && holds w) body ++
      (choose (active && !holds w) other ++ choose active rest)

theorem allHold_cons (w : ω) (b : Bool) (path : List (ω × Bool)) :
    allHold holds ((w, b) :: path) = (allHold holds path && (holds w == b)) :=
  Bool.and_comm _ _

theorem choose_guarded (t : Text α ω) (path : List (ω × Bool)) :
    t.choose holds (allHold holds path) =
      ((t.guarded path).filter fun g => allHold holds g.1).map Prod.snd := by
  induction t generalizing path with
  | nil => rfl
  | piece a rest ih =>
    unfold choose guarded
    grind
  | block w body rest ihb ihr =>
    unfold choose guarded
    rw [List.filter_append, List.map_append, ← ihr path, ← ihb, allHold_cons, beq_true]
  | branch w body other rest ihb iho ihr =>
    unfold choose guarded
    rw [List.filter_append, List.map_append, List.filter_append, List.map_append, ← ihr path,
      ← ihb, ← iho, allHold_cons, allHold_cons, beq_true, beq_false]

theorem select_eq (t : Text α ω) : t.select holds = t.choose holds true :=
  (choose_guarded holds t []).symm

end Text

end Conditional
