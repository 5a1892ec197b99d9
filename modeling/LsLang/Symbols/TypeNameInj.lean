import LsLang.Symbols.TypeName

/-! Which types share a name. -/

namespace LsLang.Symbols
open LsLang.Core LsLang.Scan

/-! Texts that can be read from the left. -/

/-- What can follow the name of a type: the end, a comma or a closing parenthesis. -/
def Ends (r : Str) : Prop := ∀ c ∈ r.head?, c = ch ',' ∨ c = ch ')'

theorem ends_comma (r : Str) : Ends (ch ',' :: r) := by
  intro c hc
  cases hc
  exact .inl rfl

theorem ends_close (r : Str) : Ends (ch ')' :: r) := by
  intro c hc
  cases hc
  exact .inr rfl

theorem ends_nil : Ends [] := by
  intro c hc
  cases hc

def word (s : Str) : Str := s.takeWhile nameByte

theorem word_append {w r : Str} (hw : ∀ b ∈ w, nameByte b = true)
    (hr : ∀ c ∈ r.head?, nameByte c = false) : word (w ++ r) = w := by
  unfold word
  rw [List.takeWhile_append_of_pos hw]
  cases r with
  | nil => simp
  | cons c r =>
    rw [List.takeWhile_cons_of_neg (by simp [hr c rfl]), List.append_nil]

theorem Ends.not_nameByte {r : Str} (h : Ends r) : ∀ c ∈ r.head?, nameByte c = false := by
  intro c hc
  rcases h c hc with rfl | rfl <;> decide

theorem balanced_inj {n : Nat} {a b r r' : Str} (ha : balanced n a = true) (hb : balanced n b = true)
    (h : a ++ ch ')' :: r = b ++ ch ')' :: r') : a = b ∧ r = r' := by
  induction a generalizing n b with
  | nil =>
    cases b with
    | nil => grind
    | cons c b =>
      have hn : n = 0 := by simpa [balanced] using ha
      obtain ⟨rfl, -⟩ := List.cons.inj h
      rw [balanced, if_neg (by decide), if_pos rfl, hn] at hb
      cases hb
  | cons c a ih =>
    cases b with
    | nil =>
      have hn : n = 0 := by simpa [balanced] using hb
      obtain ⟨rfl, -⟩ := List.cons.inj h
      rw [balanced, if_neg (by decide), if_pos rfl, hn] at ha
      cases ha
    | cons c' b =>
      obtain ⟨rfl, htail⟩ := List.cons.inj h
      rw [balanced] at ha hb
      have hrest : ∀ m, balanced m a = true → balanced m b = true → c :: a = c :: b ∧ r = r' := by
        grind
      split at ha
      · grind
      · grind

theorem ArgsOk.inj {a b r r' : Str} (ha : ArgsOk a) (hb : ArgsOk b) (hr : Ends r) (hr' : Ends r')
    (h : a ++ r = b ++ r') : a = b ∧ r = r' := by
  have hopen : ∀ {s t : Str}, Ends s → s = ch '(' :: t → False := by
    intro s t hs he
    rw [he] at hs
    rcases hs _ rfl with h | h
    · exact absurd h (by decide)
    grind
  rcases ha with rfl | ⟨a, rfl, ha⟩
  · rcases hb with rfl | ⟨b, rfl, hb⟩
    · exact ⟨rfl, h⟩
    · exact (hopen hr h).elim
  · rcases hb with rfl | ⟨b, rfl, hb⟩
    · grind
    grind [List.cons_append, List.append_assoc, balanced_inj, List.cons.inj]

theorem name_inj {w w' a a' r r' : Str} (hw : ∀ b ∈ w, nameByte b = true)
    (hw' : ∀ b ∈ w', nameByte b = true) (ha : ArgsOk a) (ha' : ArgsOk a') (hr : Ends r)
    (hr' : Ends r') (h : w ++ a ++ r = w' ++ a' ++ r') : w = w' ∧ a = a' ∧ r = r' := by
  have hnext : ∀ {a r : Str}, ArgsOk a → Ends r → ∀ c ∈ (a ++ r).head?, nameByte c = false := by
    intro a r ha hr c hc
    rcases ha with rfl | ⟨inner, rfl, -⟩
    · exact hr.not_nameByte c hc
    · cases hc
      decide
  rw [List.append_assoc, List.append_assoc] at h
  have hword := congrArg word h
  rw [word_append hw (hnext ha hr), word_append hw' (hnext ha' hr')] at hword
  subst hword
  exact ⟨rfl, ha.inj ha' hr hr' (List.append_cancel_left h)⟩

theorem balanced_of_forall {s : Str} (h : ∀ b ∈ s, b ≠ ch '(' ∧ b ≠ ch ')') :
    balanced 0 s = true := by
  induction s with
  | nil => rfl
  | cons c s ih =>
    rw [List.forall_mem_cons] at h
    rw [balanced, if_neg h.1.1, if_neg h.1.2, ih h.2]

theorem showNat_bytes (n : Nat) : ∀ b ∈ showNat n, b ≠ ch '(' ∧ b ≠ ch ')' ∧ b ≠ 45 := by
  intro b hb
  have hd := showNat_digits n b hb
  refine ⟨?_, ?_, ?_⟩ <;> rintro rfl <;> exact absurd hd (by decide)

theorem showInt_balanced (n : Int) : balanced 0 (showInt n) = true := by
  apply balanced_of_forall
  intro b hb
  unfold showInt at hb
  grind [showNat_bytes]

theorem showNat_injective {m n : Nat} (h : showNat m = showNat n) : m = n := by
  rw [← natOf_showNat m, h, natOf_showNat]

theorem minus_showNat_ne (m n : Nat) : 45 :: showNat m ≠ showNat n := by
  grind [showNat_bytes, List.mem_cons_self]

theorem showInt_injective {m n : Int} (h : showInt m = showInt n) : m = n := by
  unfold showInt at h
  split at h <;> split at h
  · have := showNat_injective (List.cons.inj h).2
    omega
  · exact absurd h (minus_showNat_ne _ _)
  · exact absurd h.symm (minus_showNat_ne _ _)
  · have := showNat_injective h
    omega

theorem size_inj {m n : Int} {r r' : Str}
    (h : showInt m ++ lit [')'] ++ r = showInt n ++ lit [')'] ++ r') : m = n ∧ r = r' := by
  grind [showInt_injective, balanced_inj, showInt_balanced, List.append_assoc]

namespace Ty

mutual

def erase : Ty → Ty
  | basic b => basic b
  | nominal _ name _ => nominal false name none
  | pointer target => pointer (erase target)
  | reference isMut target => reference isMut (erase target)
  | array elem size => array (erase elem) size
  | simd elem lanes => simd (erase elem) lanes
  | slice isMut elem => slice isMut (erase elem)
  | function isBlock params isVararg ret => function isBlock (eraseAll params) isVararg (erase ret)

def eraseAll : List Ty → List Ty
  | [] => []
  | p :: ps => erase p :: eraseAll ps

end

mutual

theorem fullName_erase : ∀ t : Ty, t.erase.fullName = t.fullName
  | basic _ => rfl
  | nominal _ _ _ => by rw [erase, fullName, fullName]
  | pointer target => by rw [erase, fullName, fullName, fullName_erase target]
  | reference _ target => by rw [erase, fullName, fullName, fullName_erase target]
  | array elem _ => by rw [erase, fullName, fullName, fullName_erase elem]
  | simd elem _ => by rw [erase, fullName, fullName, fullName_erase elem]
  | slice _ elem => by rw [erase, fullName, fullName, fullName_erase elem]
  | function _ params _ ret => by
    rw [erase, fullName, fullName, paramsText_erase true params, fullName_erase ret]

theorem paramsText_erase : ∀ (first : Bool) (ps : List Ty),
    paramsText first (eraseAll ps) = paramsText first ps
  | _, [] => rfl
  | _, p :: ps => by rw [eraseAll, paramsText, paramsText, fullName_erase p, paramsText_erase false ps]

end

inductive Tag
  | pointer | amp | array | simd
  | function (isBlock : Bool)
  | leaf
  deriving DecidableEq

def tag : Ty → Tag
  | pointer _ => .pointer
  | reference _ _ | slice _ _ => .amp
  | array _ _ => .array
  | simd _ _ => .simd
  | function isBlock _ _ _ => .function isBlock
  | basic _ | nominal _ _ _ => .leaf

def tagOf (s : Str) : Tag :=
  if s.head? = some (ch '*') then .pointer
  else if s.head? = some (ch '&') then .amp
  else if word s = wordArray then .array
  else if word s = wordSimd then .simd
  else if word s = wordFn true then .function true
  else if word s = wordFn false then .function false
  else .leaf

theorem isAlpha_nameByte {c : UInt8} (h : isAlpha c = true ∨ c = ch '_') : nameByte c = true := by
  unfold nameByte isWord isAlnum
  grind

theorem head_ne {c : UInt8} (h : isAlpha c = true ∨ c = ch '_') :
    c ≠ ch '*' ∧ c ≠ ch '&' ∧ c ≠ ch '!' ∧ c ≠ ch '.' ∧ c ≠ ch ',' ∧ c ≠ ch ')' := by
  refine ⟨?_, ?_, ?_, ?_, ?_, ?_⟩ <;> rintro rfl <;> exact absurd h (by decide)

theorem mem_all (b : Basic) : b ∈ Basic.all := by
  cases b with
  | scalar t => cases t <;> decide
  | void | nil | lib | object => decide

def composedWords : List Str := [wordArray, wordSimd, wordFn true, wordFn false]

theorem basic_split (b : Basic) : ∃ c w, b.name = c :: w ∧ isAlpha c = true ∧
    (∀ b ∈ c :: w, nameByte b = true) ∧ c :: w ∉ composedWords := by
  have hcheck : (Basic.all.all fun b => isAlpha (b.name.headD 0) && b.name.all nameByte &&
      !composedWords.contains b.name && b.name != []) = true := by decide
  have hb := List.all_eq_true.mp hcheck b (mem_all b)
  simp only [Bool.and_eq_true, List.all_eq_true] at hb
  obtain ⟨⟨⟨hc, hw⟩, hres⟩, hne⟩ := hb
  cases hname : b.name with
  | nil =>
    grind
  | cons c w =>
    grind

theorem leaf_split {t : Ty} (h : t.Fits) (ht : t.tag = .leaf) : ∃ c w args,
    t.fullName = c :: w ++ args ∧ (isAlpha c = true ∨ c = ch '_') ∧
      (∀ b ∈ c :: w, nameByte b = true) ∧ c :: w ∉ composedWords ∧ ArgsOk args := by
  cases t with
  | basic b =>
    obtain ⟨c, w, hname, hc, hw, hres⟩ := basic_split b
    exact ⟨c, w, [], by rw [fullName, hname, List.append_nil], .inl hc, hw, hres, .inl rfl⟩
  | nominal isEnum name llvmName =>
    rw [Fits] at h
    obtain ⟨⟨c, w, args, hname, hc, hw, hres, ha⟩, -⟩ := h
    refine ⟨c, w, args, hname, hc, ?_, fun hmem => hres (List.mem_append_right _ hmem), ha⟩
    rw [List.forall_mem_cons]
    exact ⟨isAlpha_nameByte hc, hw⟩
  | pointer | reference | array | simd | slice | function => cases ht

theorem tagOf_word {c : UInt8} {w r : Str} (hc : isAlpha c = true ∨ c = ch '_')
    (hw : ∀ b ∈ c :: w, nameByte b = true) (hr : ∀ b ∈ r.head?, nameByte b = false) :
    tagOf (c :: w ++ r) =
      if c :: w = wordArray then .array
      else if c :: w = wordSimd then .simd
      else if c :: w = wordFn true then .function true
      else if c :: w = wordFn false then .function false
      else .leaf := by
  obtain ⟨h1, h2, -⟩ := head_ne hc
  unfold tagOf
  rw [word_append hw hr, if_neg (by simpa using h1), if_neg (by simpa using h2)]

theorem tagOf_open {c : UInt8} {w : Str} (hc : isAlpha c = true)
    (hw : (c :: w).all nameByte = true) (r : Str) : tagOf (c :: w ++ ch '(' :: r) =
      if c :: w = wordArray then .array
      else if c :: w = wordSimd then .simd
      else if c :: w = wordFn true then .function true
      else if c :: w = wordFn false then .function false
      else .leaf := by
  refine tagOf_word (.inl hc) (List.all_eq_true.mp hw) ?_
  intro b hb
  cases hb
  decide

theorem tagOf_array (r : Str) : tagOf (wordArray ++ ch '(' :: r) = .array :=
  tagOf_open (c := ch 'a') (w := lit ['r', 'r', 'a', 'y']) (by decide) (by decide) r

theorem tagOf_simd (r : Str) : tagOf (wordSimd ++ ch '(' :: r) = .simd :=
  tagOf_open (c := ch 'S') (w := lit ['i', 'm', 'd']) (by decide) (by decide) r

theorem tagOf_function (isBlock : Bool) (r : Str) :
    tagOf (wordFn isBlock ++ ch '(' :: r) = .function isBlock := by
  cases isBlock with
  | true => exact tagOf_open (c := ch 'B') (w := lit ['l', 'o', 'c', 'k']) (by decide) (by decide) r
  | false => exact tagOf_open (c := ch 'd') (w := lit ['e', 'f']) (by decide) (by decide) r

theorem tagOf_leaf {t : Ty} (h : t.Fits) (ht : t.tag = .leaf) {r : Str} (hr : Ends r) :
    tagOf (t.fullName ++ r) = .leaf := by
  obtain ⟨c, w, args, hname, hc, hw, hres, ha⟩ := leaf_split h ht
  have hnext : ∀ b ∈ (args ++ r).head?, nameByte b = false := by
    intro b hb
    rcases ha with rfl | ⟨inner, rfl, -⟩
    · exact hr.not_nameByte b hb
    · cases hb
      decide
  simp only [composedWords, List.mem_cons, List.not_mem_nil, or_false, not_or] at hres
  rw [hname, List.append_assoc, tagOf_word hc hw hnext, if_neg hres.1, if_neg hres.2.1,
    if_neg hres.2.2.1, if_neg hres.2.2.2]

theorem tagOf_fullName {t : Ty} (h : t.Fits) {r : Str} (hr : Ends r) :
    tagOf (t.fullName ++ r) = t.tag := by
  cases t with
  | basic | nominal => exact tagOf_leaf h rfl hr
  | pointer target =>
    rw [fullName]
    rfl
  | reference isMut target =>
    rw [fullName]
    rfl
  | slice isMut elem =>
    rw [fullName]
    rfl
  | array elem size =>
    rw [fullName, sized, List.append_assoc]
    exact tagOf_array _
  | simd elem lanes =>
    rw [fullName, sized, List.append_assoc]
    exact tagOf_simd _
  | function isBlock params isVararg ret =>
    rw [fullName]
    simp only [List.append_assoc]
    exact tagOf_function isBlock _

theorem fullName_head {t : Ty} (h : t.Fits) : ∃ c s, t.fullName = c :: s ∧
    c ≠ ch '!' ∧ c ≠ ch '.' ∧ c ≠ ch ',' ∧ c ≠ ch ')' := by
  have hleaf : t.tag = .leaf → ∃ c s, t.fullName = c :: s ∧
      c ≠ ch '!' ∧ c ≠ ch '.' ∧ c ≠ ch ',' ∧ c ≠ ch ')' := by grind [head_ne, leaf_split]
  cases t with
  | basic | nominal => exact hleaf rfl
  | pointer | reference | slice =>
    rw [fullName]
    exact ⟨_, _, rfl, by decide⟩
  | array =>
    rw [fullName]
    exact ⟨ch 'a', _, rfl, by decide⟩
  | simd =>
    rw [fullName]
    exact ⟨ch 'S', _, rfl, by decide⟩
  | function isBlock =>
    rw [fullName]
    cases isBlock with
    | true => exact ⟨ch 'B', _, rfl, by decide⟩
    | false => exact ⟨ch 'd', _, rfl, by decide⟩

/-! A name shows the type but for what `erase` leaves out. -/

def Reads (t : Ty) : Prop :=
  ∀ (t' : Ty) (r r' : Str), t'.Fits → Ends r → Ends r' → t.fullName ++ r = t'.fullName ++ r' →
    t.erase = t'.erase ∧ r = r'

theorem tag_eq {t t' : Ty} {r r' : Str} (h : t.Fits) (h' : t'.Fits) (hr : Ends r) (hr' : Ends r')
    (he : t.fullName ++ r = t'.fullName ++ r') : t'.tag = t.tag := by
  rw [← tagOf_fullName h hr, ← tagOf_fullName h' hr', he]

theorem Basic.name_injective {a b : Basic} (h : a.name = b.name) : a = b :=
  List.inj_on_of_nodup_map (f := Basic.name) (by decide) (mem_all a) (mem_all b) h

theorem name_ne_basic {b : Basic} {name : Str} (h : NameOk name) : name ≠ b.name := by
  obtain ⟨c, w, args, rfl, hc, hw, hres, ha⟩ := h
  obtain ⟨c', w', hname, -, hw', -⟩ := basic_split b
  intro he
  have hsplit : c :: w ++ args ++ [] = c' :: w' ++ [] ++ [] := by grind
  have hwc : ∀ b ∈ c :: w, nameByte b = true :=
    List.forall_mem_cons.mpr ⟨isAlpha_nameByte hc, hw⟩
  have := (name_inj hwc hw' ha (.inl rfl) ends_nil ends_nil hsplit).1
  apply hres
  rw [this, ← hname]
  exact List.mem_append_left _ (List.mem_map_of_mem (mem_all b))

theorem erase_leaf {t t' : Ty} (h : t.Fits) (h' : t'.Fits) (ht : t.tag = .leaf)
    (ht' : t'.tag = .leaf) (he : t.fullName = t'.fullName) : t.erase = t'.erase := by
  cases t with
  | basic b =>
    cases t' with
    | basic b' =>
      rw [fullName, fullName] at he
      rw [Basic.name_injective he]
    | nominal _ name _ =>
      rw [Fits] at h'
      rw [fullName, fullName] at he
      exact absurd he.symm (name_ne_basic h'.1)
    | pointer | reference | array | simd | slice | function => cases ht'
  | nominal _ name _ =>
    cases t' with
    | basic b' =>
      rw [Fits] at h
      rw [fullName, fullName] at he
      exact absurd he (name_ne_basic h.1)
    | nominal _ name' _ =>
      rw [fullName, fullName] at he
      rw [erase, erase, he]
    | pointer | reference | array | simd | slice | function => cases ht'
  | pointer | reference | array | simd | slice | function => cases ht

theorem reads_leaf {t : Ty} (h : t.Fits) (ht : t.tag = .leaf) : Reads t := by
  intro t' r r' h' hr hr' he
  have ht' : t'.tag = .leaf := by rw [tag_eq h h' hr hr' he, ht]
  obtain ⟨c, w, args, hname, -, hw, -, ha⟩ := leaf_split h ht
  obtain ⟨c', w', args', hname', -, hw', -, ha'⟩ := leaf_split h' ht'
  rw [hname, hname'] at he
  obtain ⟨hword, hargs, hrest⟩ := name_inj hw hw' ha ha' hr hr' he
  exact ⟨erase_leaf h h' ht ht' (by grind), hrest⟩

theorem reads_pointer {target : Ty} (h : (pointer target).Fits) (ih : Reads target) :
    Reads (pointer target) := by
  intro t' r r' h' hr hr' he
  have ht := tag_eq h h' hr hr' he
  cases t' with
  | pointer target' =>
    rw [Fits] at h'
    rw [fullName, fullName] at he
    obtain ⟨hs, hrest⟩ := ih target' r r' h'.1 hr hr' (List.cons.inj he).2
    rw [erase, erase, hs]
    exact ⟨rfl, hrest⟩
  | basic | nominal | reference | array | simd | slice | function => cases ht

theorem sized_inj {word : Str} {elem elem' : Ty} {n n' : Int} {r r' : Str} (ih : Reads elem)
    (h' : elem'.Fits) (he : sized word elem.fullName n ++ r = sized word elem'.fullName n' ++ r') :
    elem.erase = elem'.erase ∧ n = n' ∧ r = r' := by
  unfold sized at he
  simp only [List.append_assoc, List.cons_append] at he
  have he := (List.cons.inj (List.append_cancel_left he)).2
  obtain ⟨hs, hrest⟩ := ih elem' _ _ h' (ends_comma _) (ends_comma _) he
  have hsize : showInt n ++ (lit [')'] ++ r) = showInt n' ++ (lit [')'] ++ r') :=
    (List.cons.inj (List.cons.inj hrest).2).2
  grind [size_inj, List.append_assoc]

theorem reads_array {elem : Ty} {size : Int} (h : (array elem size).Fits) (ih : Reads elem) :
    Reads (array elem size) := by
  intro t' r r' h' hr hr' he
  have ht := tag_eq h h' hr hr' he
  cases t' with
  | array elem' size' =>
    rw [Fits] at h'
    rw [fullName, fullName] at he
    obtain ⟨hs, hn, hrest⟩ := sized_inj ih h'.1 he
    rw [erase, erase, hs, hn]
    exact ⟨rfl, hrest⟩
  | basic | nominal | pointer | reference | simd | slice | function => cases ht

theorem reads_simd {elem : Ty} {lanes : Int} (h : (simd elem lanes).Fits) (ih : Reads elem) :
    Reads (simd elem lanes) := by
  intro t' r r' h' hr hr' he
  have ht := tag_eq h h' hr hr' he
  cases t' with
  | simd elem' lanes' =>
    rw [Fits] at h'
    rw [fullName, fullName] at he
    obtain ⟨hs, hn, hrest⟩ := sized_inj ih h'.1 he
    rw [erase, erase, hs, hn]
    exact ⟨rfl, hrest⟩
  | basic | nominal | pointer | reference | array | slice | function => cases ht

theorem bang_inj {m m' : Bool} {s s' : Str} (hs : s.head? ≠ some (ch '!'))
    (hs' : s'.head? ≠ some (ch '!')) (h : bang m ++ s = bang m' ++ s') : m = m' ∧ s = s' := by
  cases m with
  | false =>
    cases m' with
    | false => exact ⟨rfl, h⟩
    | true => exact absurd (congrArg List.head? h) hs
  | true =>
    cases m' with
    | false => exact absurd (congrArg List.head? h).symm hs'
    | true => exact ⟨rfl, (List.cons.inj h).2⟩

theorem head_fullName_ne {t : Ty} (h : t.Fits) (r : Str) :
    (t.fullName ++ r).head? ≠ some (ch '!') := by grind [Option.some.inj, fullName_head]

theorem head_wordArray_ne (r : Str) : (wordArray ++ r).head? ≠ some (ch '!') := by
  intro he
  exact absurd (Option.some.inj he) (by decide)

theorem slice_ne_array {elem target : Ty} {r r' : Str} (h : target.Fits) (hr : Ends r)
    (hread : ∀ e n, target = array e n → ∀ s s', Ends s → Ends s' →
      elem.fullName ++ s = e.fullName ++ s' → s = s') :
    wordArray ++ ch '(' :: (elem.fullName ++ ch ')' :: r') ≠ target.fullName ++ r := by
  intro he
  have ht : target.tag = .array := by rw [← tagOf_fullName h hr, ← he, tagOf_array]
  cases target with
  | array e n =>
    rw [fullName, sized] at he
    simp only [List.append_assoc, List.cons_append] at he
    grind [List.cons.inj, ends_close, ends_comma, List.append_cancel_left]
  | basic | nominal | pointer | reference | simd | slice | function => cases ht

theorem fullName_slice (m : Bool) (elem : Ty) (r : Str) : (slice m elem).fullName ++ r =
    ch '&' :: (bang m ++ (wordArray ++ ch '(' :: (elem.fullName ++ ch ')' :: r))) := by
  rw [fullName, sliceText]
  grind

theorem fullName_reference (m : Bool) (target : Ty) (r : Str) :
    (reference m target).fullName ++ r = ch '&' :: (bang m ++ (target.fullName ++ r)) := by
  rw [fullName, List.cons_append, List.append_assoc]

theorem reads_reference {m : Bool} {target : Ty} (h : (reference m target).Fits)
    (ih : Reads target) (harr : ∀ e n, target = array e n → Reads e) :
    Reads (reference m target) := by
  intro t' r r' h' hr hr' he
  have ht := tag_eq h h' hr hr' he
  rw [Fits] at h
  cases t' with
  | reference m' target' =>
    rw [Fits] at h'
    rw [fullName_reference, fullName_reference] at he
    obtain ⟨rfl, htail⟩ := bang_inj (head_fullName_ne h.1 r) (head_fullName_ne h'.1 r')
      (List.cons.inj he).2
    obtain ⟨hs, hrest⟩ := ih target' r r' h'.1 hr hr' htail
    rw [erase, erase, hs]
    exact ⟨rfl, hrest⟩
  | slice m' elem' =>
    rw [Fits] at h'
    rw [fullName_reference, fullName_slice] at he
    obtain ⟨rfl, htail⟩ := bang_inj (head_fullName_ne h.1 r) (head_wordArray_ne _)
      (List.cons.inj he).2
    refine absurd htail.symm (slice_ne_array h.1 hr fun e n htarget s s' hs hs' hes => ?_)
    exact (harr e n htarget elem' s' s h'.1 hs' hs hes.symm).2.symm
  | basic | nominal | pointer | array | simd | function => cases ht

theorem reads_slice {m : Bool} {elem : Ty} (h : (slice m elem).Fits) (ih : Reads elem) :
    Reads (slice m elem) := by
  intro t' r r' h' hr hr' he
  have ht := tag_eq h h' hr hr' he
  cases t' with
  | slice m' elem' =>
    rw [Fits] at h'
    rw [fullName_slice, fullName_slice] at he
    obtain ⟨rfl, htail⟩ := bang_inj (head_wordArray_ne _) (head_wordArray_ne _)
      (List.cons.inj he).2
    have helem := (List.cons.inj (List.append_cancel_left htail)).2
    obtain ⟨hs, hrest⟩ := ih elem' _ _ h'.1 (ends_close _) (ends_close _) helem
    rw [erase, erase, hs]
    grind
  | reference m' target' =>
    rw [Fits] at h'
    rw [fullName_slice, fullName_reference] at he
    obtain ⟨rfl, htail⟩ := bang_inj (head_wordArray_ne _) (head_fullName_ne h'.1 r')
      (List.cons.inj he).2
    refine absurd htail (slice_ne_array h'.1 hr' fun e n htarget s s' hs hs' hes => ?_)
    rw [htarget, Fits] at h'
    exact (ih e s s' h'.1.1 hs hs' hes).2
  | basic | nominal | pointer | array | simd | function => cases ht

/-! The parameters of a function. -/

def varText (isVararg : Bool) : Str := if isVararg then vararg else []

theorem no_param {p : Ty} (h : p.Fits) (first v : Bool) (q rest : Str) :
    varText v ++ ch ')' :: q ≠ paramSep first ++ (p.fullName ++ rest) := by
  obtain ⟨c, s, hc, -, hdot, hcomma, hclose⟩ := fullName_head h
  rw [hc]
  intro he
  cases first with
  | true =>
    cases v with
    | true => exact hcomma (List.cons.inj he).1.symm
    | false => exact hclose (List.cons.inj he).1.symm
  | false =>
    cases v with
    | true =>
      have he := (List.cons.inj (List.cons.inj he).2).2
      exact hdot (List.cons.inj he).1.symm
    | false => exact absurd (List.cons.inj he).1 (by decide)

theorem varText_inj {v v' : Bool} {q q' : Str}
    (h : varText v ++ ch ')' :: q = varText v' ++ ch ')' :: q') : v = v' ∧ q = q' := by
  cases v with
  | true =>
    cases v' with
    | true =>
      have := List.append_cancel_left h
      grind
    | false => exact absurd (List.cons.inj h).1 (by decide)
  | false =>
    cases v' with
    | true => exact absurd (List.cons.inj h).1 (by decide)
    | false => exact ⟨rfl, (List.cons.inj h).2⟩

theorem ends_params (ps : List Ty) (v : Bool) (q : Str) :
    Ends (paramsText false ps ++ (varText v ++ ch ')' :: q)) := by
  cases ps with
  | nil =>
    rw [paramsText]
    cases v with
    | true => exact ends_comma _
    | false => exact ends_close _
  | cons p ps =>
    rw [paramsText]
    exact ends_comma _

theorem params_inj {ps : List Ty} (hread : ∀ p ∈ ps, Reads p) (hfit : ∀ p ∈ ps, p.Fits)
    {ps' : List Ty} (hfit' : ∀ p ∈ ps', p.Fits) {first v v' : Bool} {q q' : Str}
    (he : paramsText first ps ++ (varText v ++ ch ')' :: q) =
      paramsText first ps' ++ (varText v' ++ ch ')' :: q')) :
    eraseAll ps = eraseAll ps' ∧ v = v' ∧ q = q' := by
  induction ps generalizing ps' first with
  | nil =>
    cases ps' with
    | nil => exact ⟨rfl, varText_inj he⟩
    | cons p' ps' =>
      rw [List.forall_mem_cons] at hfit'
      rw [paramsText, paramsText] at he
      grind [no_param, List.nil_append, List.append_assoc]
  | cons p ps ih =>
    rw [List.forall_mem_cons] at hread hfit
    cases ps' with
    | nil =>
      rw [paramsText, paramsText] at he
      grind [no_param, List.nil_append, List.append_assoc]
    | cons p' ps' =>
      rw [List.forall_mem_cons] at hfit'
      rw [paramsText, paramsText] at he
      simp only [List.append_assoc] at he
      obtain ⟨hp, hrest⟩ := hread.1 p' _ _ hfit'.1 (ends_params ps v q) (ends_params ps' v' q')
        (List.append_cancel_left he)
      obtain ⟨hps, hv, hq⟩ := ih hread.2 hfit.2 hfit'.2 hrest
      exact ⟨by rw [eraseAll, eraseAll, hp, hps], hv, hq⟩

theorem fits_of_paramsFit {ps : List Ty} {text : Str} {first : Bool} (h : ParamsFit text first ps) :
    ∀ p ∈ ps, p.Fits := by
  induction ps generalizing text first with
  | nil => simp
  | cons p ps ih =>
    rw [ParamsFit] at h
    grind

theorem fullName_function (k v : Bool) (ps : List Ty) (ret : Ty) (r : Str) :
    (function k ps v ret).fullName ++ r = wordFn k ++ ch '(' :: (paramsText true ps ++
      (varText v ++ ch ')' :: (lit [' ', '-', '>', ' '] ++ (ret.fullName ++ r)))) := by
  rw [fullName]
  simp only [List.append_assoc]
  rfl

theorem reads_function {k v : Bool} {ps : List Ty} {ret : Ty} (h : (function k ps v ret).Fits)
    (hread : ∀ p ∈ ps, Reads p) (ih : Reads ret) : Reads (function k ps v ret) := by
  intro t' r r' h' hr hr' he
  have ht := tag_eq h h' hr hr' he
  cases t' with
  | function k' ps' v' ret' =>
    have hk : k' = k := by
      cases ht
      rfl
    subst hk
    rw [Fits] at h h'
    rw [fullName_function, fullName_function] at he
    have he := (List.cons.inj (List.append_cancel_left he)).2
    obtain ⟨hps, rfl, hrest⟩ :=
      params_inj hread (fits_of_paramsFit h.1) (fits_of_paramsFit h'.1) he
    obtain ⟨hret, hend⟩ := ih ret' r r' h'.2.1 hr hr' (List.append_cancel_left hrest)
    rw [erase, erase, hps, hret]
    exact ⟨rfl, hend⟩
  | basic | nominal | pointer | reference | array | simd | slice => cases ht

mutual

theorem reads : ∀ t : Ty, t.Fits → Reads t ∧ ∀ e n, t = array e n → Reads e
  | basic _, h => ⟨reads_leaf h rfl, by simp⟩
  | nominal _ _ _, h => ⟨reads_leaf h rfl, by simp⟩
  | pointer target, h => by
    have hfit := h
    rw [Fits] at hfit
    exact ⟨reads_pointer h (reads target hfit.1).1, by simp⟩
  | reference m target, h => by
    have hfit := h
    rw [Fits] at hfit
    obtain ⟨hread, harr⟩ := reads target hfit.1
    exact ⟨reads_reference h hread harr, by simp⟩
  | array elem size, h => by
    have hfit := h
    rw [Fits] at hfit
    have hread := (reads elem hfit.1).1
    grind [reads_array]
  | simd elem lanes, h => by
    have hfit := h
    rw [Fits] at hfit
    exact ⟨reads_simd h (reads elem hfit.1).1, by simp⟩
  | slice m elem, h => by
    have hfit := h
    rw [Fits] at hfit
    exact ⟨reads_slice h (reads elem hfit.1).1, by simp⟩
  | function k ps v ret, h => by
    have hfit := h
    rw [Fits] at hfit
    exact ⟨reads_function h (reads_all ps (fits_of_paramsFit hfit.1)) (reads ret hfit.2.1).1, by simp⟩

theorem reads_all : ∀ ps : List Ty, (∀ p ∈ ps, p.Fits) → ∀ p ∈ ps, Reads p
  | [], _ => by simp
  | p :: ps, h => by
    rw [List.forall_mem_cons] at h ⊢
    exact ⟨(reads p h.1).1, reads_all ps h.2⟩

end

theorem fullName_eq_iff {t t' : Ty} (h : t.Fits) (h' : t'.Fits) :
    t.fullName = t'.fullName ↔ t.erase = t'.erase := by
  constructor
  · intro he
    exact ((reads t h).1 t' [] [] h' ends_nil ends_nil (by rw [he])).1
  grind [fullName_erase]

/-! The keys of generic instances. -/

/-- The type that the key shows: a struct or an enum of a module under its prefixed name. -/
def keyed : Ty → Ty
  | nominal isEnum _ (some llvmName) => nominal isEnum llvmName none
  | t => t

theorem mangleTypeArgName_eq (t : Ty) : t.mangleTypeArgName = t.keyed.typeName := by
  cases t with
  | nominal isEnum name llvmName =>
    cases llvmName with
    | some l =>
      rw [keyed, typeName]
      rfl
    | none => rfl
  | basic | pointer | reference | array | simd | slice | function => rfl

theorem fits_keyed {t : Ty} (h : t.Fits) : t.keyed.Fits := by
  cases t with
  | nominal isEnum name llvmName =>
    rw [Fits] at h
    cases llvmName with
    | some l =>
      rw [keyed, Fits]
      grind
    | none =>
      rw [show keyed (nominal isEnum name none) = nominal isEnum name none from rfl, Fits]
      exact ⟨h.1, by simp⟩
  | basic | pointer | reference | array | simd | slice | function => exact h

mutual

def llvmNames : Ty → List (Option Str)
  | basic _ => []
  | nominal _ _ llvmName => [llvmName]
  | pointer target => llvmNames target
  | reference _ target => llvmNames target
  | array elem _ => llvmNames elem
  | simd elem _ => llvmNames elem
  | slice _ elem => llvmNames elem
  | function _ params _ ret => llvmNamesAll params ++ llvmNames ret

def llvmNamesAll : List Ty → List (Option Str)
  | [] => []
  | p :: ps => llvmNames p ++ llvmNamesAll ps

end

/-- `type_equals`, which compares bare names, tells the types apart, or they come from different modules. -/
def Distinct (t t' : Ty) : Prop := typeEquals t t' = false ∨ t.llvmNames ≠ t'.llvmNames

def ToldApart (t t' : Ty) : Prop :=
  Distinct t t' →
    ∃ s s', t.mangleTypeArgName = some s ∧ t'.mangleTypeArgName = some s' ∧ s ≠ s'

/-- Distinct types that are alike but for what a bare name does not show below the top (struct or enum, and its
module), or whose prefixed names meet at the top. -/
def Confused (t t' : Ty) : Prop := Distinct t t' ∧ t.keyed.erase = t'.keyed.erase

/-- While no buffer cuts a name, exactly the confused types share a key. -/
theorem toldApart_iff (t t' : Ty) (h : t.Fits) (h' : t'.Fits) :
    ToldApart t t' ↔ ¬ Confused t t' := by
  have hkey := fullName_eq_iff (fits_keyed h) (fits_keyed h')
  unfold ToldApart Confused
  rw [mangleTypeArgName_eq, mangleTypeArgName_eq, typeName_of_fits _ (fits_keyed h),
    typeName_of_fits _ (fits_keyed h'), ← hkey]
  constructor
  · rintro happart ⟨hne, he⟩
    obtain ⟨s, s', hs, hs', hss⟩ := happart hne
    cases hs
    cases hs'
    exact hss he
  · intro hno hne
    exact ⟨_, _, rfl, rfl, fun he => hno ⟨hne, he⟩⟩

theorem nameOk_word {c : UInt8} {w : Str} (hc : isAlpha c = true) (hw : w.all nameByte = true)
    (hres : c :: w ∉ typeWords) : NameOk (c :: w) :=
  ⟨c, w, [], by rw [List.append_nil], .inl hc, List.all_eq_true.mp hw, hres, .inl rfl⟩

/-- `Node` of the module `m`. -/
def node (isEnum : Bool) (m : Char) : Ty :=
  nominal isEnum (lit ['N', 'o', 'd', 'e']) (some (lit [m, '_', '_', 'N', 'o', 'd', 'e']))

theorem fits_node {isEnum : Bool} {m : Char} (hm : isAlpha (ch m) = true)
    (hres : lit [m, '_', '_', 'N', 'o', 'd', 'e'] ∉ typeWords) : (node isEnum m).Fits := by
  rw [node, Fits]
  refine ⟨nameOk_word (by decide) (by decide) (by decide), fun l hl => ?_⟩
  cases hl
  exact nameOk_word hm (by decide) hres

theorem fits_pointer_node {isEnum : Bool} {m : Char} (h : (node isEnum m).Fits) : (pointer (node isEnum m)).Fits := by
  rw [Fits]
  refine ⟨h, ?_⟩
  rw [fullName, node, fullName]
  decide

theorem fits_reference_node {isEnum : Bool} {m : Char} (h : (node isEnum m).Fits) :
    (reference true (node isEnum m)).Fits := by
  rw [Fits]
  refine ⟨h, ?_⟩
  rw [fullName, node, fullName]
  decide

/-- The same name of two modules at the top, and below a pointer and a reference. -/
theorem toldApart_nodes :
    (∃ s s', (node false 'a').mangleTypeArgName = some s ∧ (node false 'b').mangleTypeArgName = some s' ∧ s ≠ s') ∧
    ∃ s s', (pointer (node false 'a')).mangleTypeArgName = some s ∧
      (reference true (node false 'b')).mangleTypeArgName = some s' ∧ s ≠ s' := by
  have ha : (node false 'a').Fits := fits_node (by decide) (by decide)
  have hb : (node false 'b').Fits := fits_node (by decide) (by decide)
  refine ⟨(toldApart_iff _ _ ha hb).mpr ?_ (.inr (by decide)),
    (toldApart_iff _ _ (fits_pointer_node ha) (fits_reference_node hb)).mpr ?_ (.inl rfl)⟩
  · rintro ⟨-, h⟩
    injection h with _ hname _
    exact absurd hname (by decide)
  · rintro ⟨-, h⟩
    cases h

theorem not_toldApart_pointer (isEnum : Bool) : ¬ ToldApart (pointer (node false 'a')) (pointer (node isEnum 'b')) := by
  intro h
  obtain ⟨s, s', hs, hs', hne⟩ := h (.inr (by cases isEnum <;> decide))
  cases hs
  cases hs'
  exact hne rfl

/-- A pointer to `Node` of the module `a` and one to `Node` of the module `b`: two structs, and a struct and an enum,
which `type_equals` tells apart. -/
theorem pointer_node_confused :
    (pointer (node false 'a')).Fits ∧ (pointer (node false 'b')).Fits ∧ (pointer (node true 'b')).Fits ∧
      typeEquals (pointer (node false 'a')) (pointer (node true 'b')) = false ∧
      ¬ ToldApart (pointer (node false 'a')) (pointer (node false 'b')) ∧
      ¬ ToldApart (pointer (node false 'a')) (pointer (node true 'b')) :=
  ⟨fits_pointer_node (fits_node (by decide) (by decide)), fits_pointer_node (fits_node (by decide) (by decide)),
    fits_pointer_node (fits_node (by decide) (by decide)), rfl, not_toldApart_pointer false, not_toldApart_pointer true⟩

end Ty

end LsLang.Symbols
