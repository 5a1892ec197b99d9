import Mathlib.Data.List.Infix
import Mathlib.Tactic.Common

/-! Trees of tags with text between them, how they are spelt, and a reader that finds the tags in a text. -/

namespace LsLang.Lib

/-- Texts of type `X`, tags of type `S` that hold nothing, and tags of type `T` around other markup. -/
inductive Markup (T S X : Type*)
  | text (t : X)
  | single (s : S)
  | element (tag : T) (children : List (Markup T S X))

/-- How the parts are spelt: a tag stands between `lt` and `gt`, and a `quote` opens and closes a value. -/
structure Spelling (α T S X : Type*) where
  lt : α
  gt : α
  quote : α
  text : X → List α
  single : S → List α
  opening : T → List α
  closing : T → List α

section Reader

variable {α : Type*} [DecidableEq α] (lt gt quote : α)

/-- What stands in the tags of a text, in their order. Inside a tag it keeps whether a value is open, and what has
been read of the tag. -/
def readTags : Option (Bool × List α) → List α → List (List α)
  | _, [] => []
  | none, c :: s => if c = lt then readTags (some (false, [])) s else readTags none s
  | some (inValue, w), c :: s =>
    if c = gt ∧ inValue = false then w :: readTags none s
    else readTags (some (inValue ^^ decide (c = quote), w ++ [c])) s

def InTag (w : List α) : Prop :=
  ∀ v s, readTags lt gt quote (some (false, v)) (w ++ s) = readTags lt gt quote (some (false, v ++ w)) s

variable {lt gt quote}

theorem inTag_nil : InTag lt gt quote [] := fun v s => by grind

theorem InTag.append {w w' : List α} (h : InTag lt gt quote w) (h' : InTag lt gt quote w') :
    InTag lt gt quote (w ++ w') := by
  intro v s
  rw [List.append_assoc, h, h', List.append_assoc]

theorem inTag_plain {w : List α} (hgt : gt ∉ w) (hquote : quote ∉ w) : InTag lt gt quote w := by
  induction w with
  | nil => exact inTag_nil
  | cons c w ih =>
    rw [List.mem_cons, not_or] at hgt hquote
    intro v s
    rw [List.cons_append, readTags, if_neg fun h => hgt.1 h.1.symm,
      decide_eq_false (Ne.symm hquote.1), Bool.xor_false, ih hgt.2 hquote.2 (v ++ [c]) s,
      List.append_assoc, List.singleton_append]

theorem readTags_value {w : List α} (h : quote ∉ w) : ∀ v s,
    readTags lt gt quote (some (true, v)) (w ++ s) = readTags lt gt quote (some (true, v ++ w)) s := by
  induction w with
  | nil =>
    grind
  | cons c w ih =>
    rw [List.mem_cons, not_or] at h
    intro v s
    rw [List.cons_append, readTags, if_neg fun h => Bool.noConfusion h.2,
      decide_eq_false (Ne.symm h.1), Bool.xor_false, ih h.2 (v ++ [c]) s, List.append_assoc,
      List.singleton_append]

theorem inTag_value {w : List α} (hne : quote ≠ gt) (h : quote ∉ w) :
    InTag lt gt quote (quote :: w ++ [quote]) := by
  intro v s
  rw [List.append_assoc, List.cons_append, readTags, if_neg fun hc => hne hc.1,
    decide_eq_true rfl, Bool.false_xor, readTags_value h, List.singleton_append, readTags,
    if_neg fun hc => Bool.noConfusion hc.2, decide_eq_true rfl, Bool.xor_self, List.append_assoc,
    List.append_assoc, List.singleton_append, List.cons_append]

theorem readTags_text {t : List α} (h : lt ∉ t) (s : List α) :
    readTags lt gt quote none (t ++ s) = readTags lt gt quote none s := by
  induction t with
  | nil => rw [List.nil_append]
  | cons c t ih =>
    rw [List.mem_cons, not_or] at h
    rw [List.cons_append, readTags, if_neg (Ne.symm h.1), ih h.2]

theorem readTags_tag {w : List α} (h : InTag lt gt quote w) (s : List α) :
    readTags lt gt quote none (lt :: w ++ gt :: s) = w :: readTags lt gt quote none s := by
  rw [List.cons_append, readTags, if_pos rfl, h, List.nil_append, readTags, if_pos ⟨rfl, rfl⟩]

end Reader

namespace Spelling

variable {α T S X : Type*} (sp : Spelling α T S X)

def bracket (w : List α) : List α := sp.lt :: w ++ [sp.gt]

mutual

def spell : Markup T S X → List α
  | .text t => sp.text t
  | .single s => sp.bracket (sp.single s)
  | .element tag children =>
    sp.bracket (sp.opening tag) ++ spellAll children ++ sp.bracket (sp.closing tag)

def spellAll : List (Markup T S X) → List α
  | [] => []
  | m :: ms => spell m ++ spellAll ms

end

mutual

/-- The tags of a tree, each opening one with its closing one behind those of what it holds. -/
def tags : Markup T S X → List (List α)
  | .text _ => []
  | .single s => [sp.single s]
  | .element tag children => sp.opening tag :: (tagsAll children ++ [sp.closing tag])

def tagsAll : List (Markup T S X) → List (List α)
  | [] => []
  | m :: ms => tags m ++ tagsAll ms

end

structure Lawful [DecidableEq α] : Prop where
  text : ∀ t, sp.lt ∉ sp.text t
  single : ∀ s, InTag sp.lt sp.gt sp.quote (sp.single s)
  opening : ∀ t, InTag sp.lt sp.gt sp.quote (sp.opening t)
  closing : ∀ t, InTag sp.lt sp.gt sp.quote (sp.closing t)

theorem spellAll_append (ms ns : List (Markup T S X)) :
    sp.spellAll (ms ++ ns) = sp.spellAll ms ++ sp.spellAll ns := by
  induction ms with
  | nil => rfl
  | cons m ms ih => rw [List.cons_append, spellAll, spellAll, ih, List.append_assoc]

theorem spellAll_singleton (m : Markup T S X) : sp.spellAll [m] = sp.spell m := by
  rw [spellAll, spellAll, List.append_nil]

theorem spellAll_map {A : Type*} (f : A → Markup T S X) (as : List A) :
    sp.spellAll (as.map f) = as.flatMap fun a => sp.spell (f a) := by
  induction as with
  | nil => rfl
  | cons a as ih => rw [List.map_cons, spellAll, ih, List.flatMap_cons]

theorem spellAll_flatMap {A : Type*} (f : A → List (Markup T S X)) (as : List A) :
    sp.spellAll (as.flatMap f) = as.flatMap fun a => sp.spellAll (f a) := by
  induction as with
  | nil => rfl
  | cons a as ih => rw [List.flatMap_cons, spellAll_append, ih, List.flatMap_cons]

variable {sp} [DecidableEq α]

theorem readTags_bracket {w : List α} (h : InTag sp.lt sp.gt sp.quote w) (s : List α) :
    readTags sp.lt sp.gt sp.quote none (sp.bracket w ++ s) =
      w :: readTags sp.lt sp.gt sp.quote none s := by
  unfold bracket
  rw [List.append_assoc, List.singleton_append]
  exact readTags_tag h s

mutual

theorem readTags_spell (h : sp.Lawful) : ∀ (m : Markup T S X) (s : List α),
    readTags sp.lt sp.gt sp.quote none (sp.spell m ++ s) =
      sp.tags m ++ readTags sp.lt sp.gt sp.quote none s
  | .text t, s => by
    rw [spell, tags, List.nil_append]
    exact readTags_text (h.text t) s
  | .single x, s => by
    rw [spell, tags, List.singleton_append]
    exact readTags_bracket (h.single x) s
  | .element tag children, s => by
    rw [spell, tags, List.append_assoc, List.append_assoc, readTags_bracket (h.opening tag),
      readTags_spellAll h children, readTags_bracket (h.closing tag), List.cons_append,
      List.append_assoc, List.singleton_append]

theorem readTags_spellAll (h : sp.Lawful) : ∀ (ms : List (Markup T S X)) (s : List α),
    readTags sp.lt sp.gt sp.quote none (sp.spellAll ms ++ s) =
      sp.tagsAll ms ++ readTags sp.lt sp.gt sp.quote none s
  | [], s => by rw [spellAll, tagsAll, List.nil_append, List.nil_append]
  | m :: ms, s => by
    rw [spellAll, tagsAll, List.append_assoc, List.append_assoc, readTags_spell h m,
      readTags_spellAll h ms]

end

end Spelling

end LsLang.Lib
