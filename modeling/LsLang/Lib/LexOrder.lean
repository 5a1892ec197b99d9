import Mathlib.Data.List.Basic
import Mathlib.Data.List.Forall2

/-! Equivalences with a strict total order on their classes: on tuples, component by component, and on tagged values,
where the tags come first. -/

namespace LsLang.Lib

structure OrderedSet (α : Type) where
  mem : α → Prop
  eq : α → α → Prop
  lt : α → α → Prop

namespace OrderedSet

variable {α : Type}

structure Lawful (s : OrderedSet α) : Prop where
  refl : ∀ a, s.mem a → s.eq a a
  symm : ∀ a b, s.mem a → s.mem b → s.eq a b → s.eq b a
  trans : ∀ a b c, s.mem a → s.mem b → s.mem c → s.eq a b → s.eq b c → s.eq a c
  irrefl : ∀ a, s.mem a → ¬s.lt a a
  lt_trans : ∀ a b c, s.mem a → s.mem b → s.mem c → s.lt a b → s.lt b c → s.lt a c
  total : ∀ a b, s.mem a → s.mem b → s.lt a b ∨ s.eq a b ∨ s.lt b a
  congr_left : ∀ a b c, s.mem a → s.mem b → s.mem c → s.eq a b → s.lt a c → s.lt b c
  congr_right : ∀ a b c, s.mem a → s.mem b → s.mem c → s.eq a b → s.lt c a → s.lt c b

namespace Lawful

variable {s : OrderedSet α} {a b : α}

theorem not_eq_of_lt (h : s.Lawful) (ha : s.mem a) (hb : s.mem b) (hlt : s.lt a b) : ¬s.eq a b :=
  fun heq => h.irrefl b hb (h.congr_left a b b ha hb hb heq hlt)

theorem not_lt_of_lt (h : s.Lawful) (ha : s.mem a) (hb : s.mem b) (hlt : s.lt a b) : ¬s.lt b a :=
  fun hgt => h.irrefl a ha (h.lt_trans a b a ha hb ha hlt hgt)

end Lawful

def lex : List (OrderedSet α) → OrderedSet (List α)
  | [] => ⟨(· = []), fun _ _ => True, fun _ _ => False⟩
  | s :: ss =>
    { mem := fun xs => ∃ a as, xs = a :: as ∧ s.mem a ∧ (lex ss).mem as
      eq := fun xs ys => ∃ a as b bs, xs = a :: as ∧ ys = b :: bs ∧ s.eq a b ∧ (lex ss).eq as bs
      lt := fun xs ys => ∃ a as b bs, xs = a :: as ∧ ys = b :: bs ∧ (s.lt a b ∨ s.eq a b ∧ (lex ss).lt as bs) }

variable {s : OrderedSet α} {ss : List (OrderedSet α)} {a b : α} {as bs : List α}

@[simp] theorem lex_mem_cons : (lex (s :: ss)).mem (a :: as) ↔ s.mem a ∧ (lex ss).mem as := by
  constructor
  · rintro ⟨_, _, heq, h⟩
    cases heq
    exact h
  · exact fun h => ⟨a, as, rfl, h⟩

@[simp] theorem lex_eq_cons : (lex (s :: ss)).eq (a :: as) (b :: bs) ↔ s.eq a b ∧ (lex ss).eq as bs := by
  constructor
  · rintro ⟨_, _, _, _, heq, heq', h⟩
    grind
  · exact fun h => ⟨a, as, b, bs, rfl, rfl, h⟩

@[simp] theorem lex_lt_cons :
    (lex (s :: ss)).lt (a :: as) (b :: bs) ↔ s.lt a b ∨ s.eq a b ∧ (lex ss).lt as bs := by
  constructor
  · rintro ⟨_, _, _, _, heq, heq', h⟩
    grind
  · exact fun h => ⟨a, as, b, bs, rfl, rfl, h⟩

theorem Lawful.lex_nil : (lex ([] : List (OrderedSet α))).Lawful where
  refl _ _ := trivial
  symm _ _ _ _ _ := trivial
  trans _ _ _ _ _ _ _ _ := trivial
  irrefl _ _ h := h
  lt_trans _ _ _ _ _ _ h _ := h
  total _ _ _ _ := .inr (.inl trivial)
  congr_left _ _ _ _ _ _ _ h := h
  congr_right _ _ _ _ _ _ _ h := h

theorem Lawful.lex_cons (h : s.Lawful) (hs : (lex ss).Lawful) : (lex (s :: ss)).Lawful where
  refl := by
    rintro _ ⟨a, as, rfl, ha, has⟩
    exact lex_eq_cons.2 ⟨h.refl a ha, hs.refl as has⟩
  symm := by
    rintro _ _ ⟨a, as, rfl, ha, has⟩ ⟨b, bs, rfl, hb, hbs⟩ heq
    obtain ⟨hab, habs⟩ := lex_eq_cons.1 heq
    exact lex_eq_cons.2 ⟨h.symm a b ha hb hab, hs.symm as bs has hbs habs⟩
  trans := by
    rintro _ _ _ ⟨a, as, rfl, ha, has⟩ ⟨b, bs, rfl, hb, hbs⟩ ⟨c, cs, rfl, hc, hcs⟩ hab hbc
    obtain ⟨hab, habs⟩ := lex_eq_cons.1 hab
    obtain ⟨hbc, hbcs⟩ := lex_eq_cons.1 hbc
    exact lex_eq_cons.2 ⟨h.trans a b c ha hb hc hab hbc, hs.trans as bs cs has hbs hcs habs hbcs⟩
  irrefl := by
    rintro _ ⟨a, as, rfl, ha, has⟩ hlt
    obtain hlt | ⟨-, hlt⟩ := lex_lt_cons.1 hlt
    · exact h.irrefl a ha hlt
    · exact hs.irrefl as has hlt
  lt_trans := by
    rintro _ _ _ ⟨a, as, rfl, ha, has⟩ ⟨b, bs, rfl, hb, hbs⟩ ⟨c, cs, rfl, hc, hcs⟩ hab hbc
    obtain hab | ⟨hab, habs⟩ := lex_lt_cons.1 hab
    · obtain hbc | ⟨hbc, -⟩ := lex_lt_cons.1 hbc
      · exact lex_lt_cons.2 (.inl (h.lt_trans a b c ha hb hc hab hbc))
      · exact lex_lt_cons.2 (.inl (h.congr_right b c a hb hc ha hbc hab))
    · obtain hbc | ⟨hbc, hbcs⟩ := lex_lt_cons.1 hbc
      · exact lex_lt_cons.2 (.inl (h.congr_left b a c hb ha hc (h.symm a b ha hb hab) hbc))
      · exact lex_lt_cons.2 (.inr ⟨h.trans a b c ha hb hc hab hbc, hs.lt_trans as bs cs has hbs hcs habs hbcs⟩)
  total := by
    rintro _ _ ⟨a, as, rfl, ha, has⟩ ⟨b, bs, rfl, hb, hbs⟩
    obtain hlt | heq | hgt := h.total a b ha hb
    · exact .inl (lex_lt_cons.2 (.inl hlt))
    · obtain hlts | heqs | hgts := hs.total as bs has hbs
      · exact .inl (lex_lt_cons.2 (.inr ⟨heq, hlts⟩))
      · exact .inr (.inl (lex_eq_cons.2 ⟨heq, heqs⟩))
      · exact .inr (.inr (lex_lt_cons.2 (.inr ⟨h.symm a b ha hb heq, hgts⟩)))
    · exact .inr (.inr (lex_lt_cons.2 (.inl hgt)))
  congr_left := by
    rintro _ _ _ ⟨a, as, rfl, ha, has⟩ ⟨b, bs, rfl, hb, hbs⟩ ⟨c, cs, rfl, hc, hcs⟩ heq hlt
    obtain ⟨hab, habs⟩ := lex_eq_cons.1 heq
    obtain hac | ⟨hac, hacs⟩ := lex_lt_cons.1 hlt
    · exact lex_lt_cons.2 (.inl (h.congr_left a b c ha hb hc hab hac))
    · exact lex_lt_cons.2 (.inr ⟨h.trans b a c hb ha hc (h.symm a b ha hb hab) hac,
        hs.congr_left as bs cs has hbs hcs habs hacs⟩)
  congr_right := by
    rintro _ _ _ ⟨a, as, rfl, ha, has⟩ ⟨b, bs, rfl, hb, hbs⟩ ⟨c, cs, rfl, hc, hcs⟩ heq hlt
    obtain ⟨hab, habs⟩ := lex_eq_cons.1 heq
    obtain hca | ⟨hca, hcas⟩ := lex_lt_cons.1 hlt
    · exact lex_lt_cons.2 (.inl (h.congr_right a b c ha hb hc hab hca))
    · exact lex_lt_cons.2 (.inr ⟨h.trans c a b hc ha hb hca hab, hs.congr_right as bs cs has hbs hcs habs hcas⟩)

theorem Lawful.lex (h : ∀ s ∈ ss, s.Lawful) : (lex ss).Lawful := by
  induction ss with
  | nil => exact Lawful.lex_nil
  | cons s ss ih => exact (h s List.mem_cons_self).lex_cons (ih fun s hs => h s (List.mem_cons_of_mem _ hs))

def tagged (ss : List (OrderedSet α)) : OrderedSet (ℕ × α) where
  mem x := ∃ s, ss[x.1]? = some s ∧ s.mem x.2
  eq x y := x.1 = y.1 ∧ ∃ s, ss[x.1]? = some s ∧ s.eq x.2 y.2
  lt x y := x.1 < y.1 ∨ x.1 = y.1 ∧ ∃ s, ss[x.1]? = some s ∧ s.lt x.2 y.2

variable {t : ℕ}

theorem tagged_mem (hs : ss[t]? = some s) : (tagged ss).mem (t, a) ↔ s.mem a := by
  constructor
  · rintro ⟨s', hs', h⟩
    grind
  · exact fun h => ⟨s, hs, h⟩

theorem tagged_eq (hs : ss[t]? = some s) : (tagged ss).eq (t, a) (t, b) ↔ s.eq a b := by
  constructor
  · rintro ⟨-, s', hs', h⟩
    grind
  · exact fun h => ⟨rfl, s, hs, h⟩

theorem tagged_lt (hs : ss[t]? = some s) : (tagged ss).lt (t, a) (t, b) ↔ s.lt a b := by
  constructor
  · rintro (h | ⟨-, s', hs', h⟩)
    · grind
    grind
  · exact fun h => .inr ⟨rfl, s, hs, h⟩

theorem tagged_lt_iff {u : ℕ} (hs : ss[t]? = some s) :
    (tagged ss).lt (t, a) (u, b) ↔ t < u ∨ t = u ∧ s.lt a b := by
  constructor
  · rintro (h | ⟨rfl, s', hs', h⟩)
    · exact .inl h
    grind
  · rintro (h | ⟨rfl, h⟩)
    · exact .inl h
    · exact .inr ⟨rfl, s, hs, h⟩

theorem tagged_eq_iff {u : ℕ} (hs : ss[t]? = some s) : (tagged ss).eq (t, a) (u, b) ↔ t = u ∧ s.eq a b := by
  constructor
  · rintro ⟨rfl, h⟩
    grind
  · rintro ⟨rfl, h⟩
    exact (tagged_eq hs).2 h

theorem Lawful.tagged (h : ∀ s ∈ ss, s.Lawful) : (tagged ss).Lawful where
  refl := by
    rintro ⟨t, a⟩ ⟨s, hs, ha⟩
    exact (tagged_eq hs).2 ((h s (List.mem_of_getElem? hs)).refl a ha)
  symm := by
    rintro ⟨t, a⟩ ⟨u, b⟩ ⟨s, hs, ha⟩ hb heq
    obtain ⟨rfl, heqs⟩ := (tagged_eq_iff hs).1 heq
    grind [tagged_eq, List.mem_of_getElem?, symm, tagged_mem]
  trans := by
    rintro ⟨t, a⟩ ⟨u, b⟩ ⟨v, c⟩ ⟨s, hs, ha⟩ hb hc hab hbc
    obtain ⟨rfl, habs⟩ := (tagged_eq_iff hs).1 hab
    obtain ⟨rfl, hbcs⟩ := (tagged_eq_iff hs).1 hbc
    grind [tagged_eq, List.mem_of_getElem?, trans, tagged_mem]
  irrefl := by
    rintro ⟨t, a⟩ ⟨s, hs, ha⟩ hlt
    exact (h s (List.mem_of_getElem? hs)).irrefl a ha ((tagged_lt hs).1 hlt)
  lt_trans := by
    rintro ⟨t, a⟩ ⟨u, b⟩ ⟨v, c⟩ ⟨s, hs, ha⟩ hb hc hab hbc
    obtain ⟨s', hs', hb'⟩ := hb
    obtain hab | ⟨rfl, habs⟩ := (tagged_lt_iff hs).1 hab
    · obtain hbc | ⟨rfl, -⟩ := (tagged_lt_iff hs').1 hbc
      · exact .inl (Nat.lt_trans hab hbc)
      · exact .inl hab
    · cases hs.symm.trans hs'
      obtain hbc | ⟨rfl, hbcs⟩ := (tagged_lt_iff hs).1 hbc
      · exact .inl hbc
      grind [tagged_mem, tagged_lt, List.mem_of_getElem?, lt_trans]
  total := by
    rintro ⟨t, a⟩ ⟨u, b⟩ ⟨s, hs, ha⟩ hb
    -- of two tags the smaller decides, and within one tag its own order
    obtain hlt | rfl | hgt := Nat.lt_trichotomy t u
    · exact .inl (.inl hlt)
    · rw [tagged_mem hs] at hb
      rw [tagged_lt hs, tagged_eq hs, tagged_lt hs]
      exact (h s (List.mem_of_getElem? hs)).total a b ha hb
    · exact .inr (.inr (.inl hgt))
  congr_left := by
    rintro ⟨t, a⟩ ⟨u, b⟩ ⟨v, c⟩ ⟨s, hs, ha⟩ hb hc heq hlt
    obtain ⟨rfl, heqs⟩ := (tagged_eq_iff hs).1 heq
    obtain hlt | ⟨rfl, hlts⟩ := (tagged_lt_iff hs).1 hlt
    · exact .inl hlt
    · rw [tagged_mem hs] at hb hc
      exact (tagged_lt hs).2 ((h s (List.mem_of_getElem? hs)).congr_left a b c ha hb hc heqs hlts)
  congr_right := by
    rintro ⟨t, a⟩ ⟨u, b⟩ ⟨v, c⟩ ⟨s, hs, ha⟩ hb hc heq hlt
    obtain ⟨rfl, heqs⟩ := (tagged_eq_iff hs).1 heq
    obtain ⟨s', hs', hc'⟩ := hc
    obtain hlt | ⟨rfl, hlts⟩ := (tagged_lt_iff hs').1 hlt
    · exact .inl hlt
    · cases hs.symm.trans hs'
      rw [tagged_mem hs] at hb
      grind [tagged_lt, List.mem_of_getElem?, congr_right]

end OrderedSet

end LsLang.Lib
