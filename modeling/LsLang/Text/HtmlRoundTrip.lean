import LsLang.Text.Html

/-! What the parser makes of a document that `render` has written: the same document, but that a text goes
on to the next tag, and that a script or a style always has a body. -/

namespace LsLang.Text.Html

open LsLang.Core LsLang.Lib

section Documents

/-- What the parser takes for the name of a tag: in lower case, and no comment or doctype. It may be
empty. -/
structure TagName (tag : Str) : Prop where
  no_end : ∀ b ∈ tag, ¬ isNameEnd b
  lower_case : ∀ b ∈ tag, ¬ (65 ≤ b ∧ b ≤ 90)
  no_bang : tag.head? ≠ some (ch '!')

structure GoodTag (tag : Str) : Prop extends GoodName tag where
  lower_case : ∀ b ∈ tag, ¬ (65 ≤ b ∧ b ≤ 90)
  no_bang : tag.head? ≠ some (ch '!')

theorem GoodTag.tagName {tag : Str} (h : GoodTag tag) : TagName tag := ⟨h.no_end, h.lower_case, h.no_bang⟩

theorem TagName.good {tag : Str} (h : TagName tag) (hne : tag ≠ []) : GoodTag tag :=
  ⟨⟨hne, h.no_end⟩, h.lower_case, h.no_bang⟩

def HtmlNode.isText : HtmlNode → Bool
  | .text _ => true
  | _ => false

def isRaw (tag : Str) : Prop := tag = script ∨ tag = style

instance (tag : Str) : Decidable (isRaw tag) := inferInstanceAs (Decidable (_ ∨ _))

mutual

/-- What each node of a parsed document keeps to. Texts may stand side by side, and an element closed in its
start tag has no body, not even if it is a script. -/
def HtmlNode.Tidy : HtmlNode → Prop
  | .element tag attrs children =>
    TagName tag ∧ (∀ a ∈ attrs, GoodName a.key) ∧
      if isVoid tag then children = []
      else if isRaw tag then
        children = [] ∨ ∃ raw, children = [.rawText raw] ∧ ¬ lit ['<', '/'] ++ tag <:+: lower raw
      else TidyNodes children
  | .text c => c ≠ []
  | .comment c => ¬ commentClose <:+: c
  | .rawText _ => False

def TidyNodes : List HtmlNode → Prop
  | [] => True
  | n :: ns => n.Tidy ∧ TidyNodes ns

end

mutual

/-- Whether an element without a name is in it. The loop takes such a name for that of no parent, and reads
on to the end of the input. -/
def HtmlNode.nameless : HtmlNode → Bool
  | .element tag _ children => tag.isEmpty || namelessIn children
  | _ => false

def namelessIn : List HtmlNode → Bool
  | [] => false
  | n :: ns => n.nameless || namelessIn ns

end

mutual

def HtmlNode.NamelessLast : HtmlNode → Prop
  | .element _ _ children => NamelessLastIn children
  | _ => True

def NamelessLastIn : List HtmlNode → Prop
  | [] => True
  | n :: ns => n.NamelessLast ∧ (n.nameless → ns = []) ∧ NamelessLastIn ns

end

mutual

def HtmlNode.bodies : HtmlNode → ℕ
  | .element tag _ children => if isVoid tag ∨ isRaw tag then 0 else bodiesIn children + 1
  | _ => 0

def bodiesIn : List HtmlNode → ℕ
  | [] => 0
  | n :: ns => max n.bodies (bodiesIn ns)

end

/-- A node in front of others, a text in front of a text as one text. -/
def joinText : HtmlNode → List HtmlNode → List HtmlNode
  | .text c, .text c' :: ns => .text (c ++ c') :: ns
  | n, ns => n :: ns

mutual

def HtmlNode.norm : HtmlNode → HtmlNode
  | .element tag attrs children =>
    .element tag attrs <|
      if isRaw tag then if children.isEmpty then [.rawText []] else children else normNodes children
  | n => n

def normNodes : List HtmlNode → List HtmlNode
  | [] => []
  | n :: ns => joinText n.norm (normNodes ns)

end

end Documents

section Written

theorem escape_append (a b : Str) : escape (a ++ b) = escape a ++ escape b := List.flatMap_append

theorem renderNodes_joinText (n : HtmlNode) (ns : List HtmlNode) :
    renderNodes (joinText n ns) = renderNode n ++ renderNodes ns := by
  unfold joinText
  split
  · rw [renderNodes, renderNodes, renderNode, renderNode, renderNode, escape_append, List.append_assoc]
  · rw [renderNodes]

mutual

theorem render_norm : ∀ n : HtmlNode, renderNode n.norm = renderNode n
  | .element tag attrs children => by
    have hbody : renderNodes (if isRaw tag then if children.isEmpty then [.rawText []] else children
        else normNodes children) = renderNodes children := by
      split
      · cases children with
        | nil => rfl
        | cons n ns => rfl
      · exact renderNodes_norm children
    rw [HtmlNode.norm, renderNode, renderNode, hbody]
  | .text _ => rfl
  | .comment _ => rfl
  | .rawText _ => rfl

theorem renderNodes_norm : ∀ ns : List HtmlNode, renderNodes (normNodes ns) = renderNodes ns
  | [] => rfl
  | n :: ns => by rw [normNodes, renderNodes_joinText, render_norm n, renderNodes_norm ns, renderNodes]

end

theorem isText_norm (n : HtmlNode) : n.norm.isText = n.isText := by cases n <;> rfl

theorem joinText_other {n : HtmlNode} (h : ¬ n.isText) (ns : List HtmlNode) : joinText n ns = n :: ns := by
  cases n with
  | text c => exact absurd rfl h
  | _ => rfl

theorem joinText_end (n : HtmlNode) {ns : List HtmlNode} (h : ¬ ns.head?.any HtmlNode.isText) :
    joinText n ns = n :: ns := by
  unfold joinText
  split
  · exact absurd rfl h
  · rfl

theorem head_normNodes {ns : List HtmlNode} (h : ¬ ns.head?.any HtmlNode.isText) :
    ¬ (normNodes ns).head?.any HtmlNode.isText := by
  cases ns with
  | nil => exact h
  | cons n ns =>
    have hn : ¬ n.norm.isText := by rwa [isText_norm]
    rwa [normNodes, joinText_other hn]

/-- Siblings that are written so that they are read back at a depth: tidy ones, nothing behind an element
without a name, and none nested too deep. -/
structure Readable (depth : ℕ) (ns : List HtmlNode) : Prop where
  tidy : TidyNodes ns
  last : NamelessLastIn ns
  shallow : depth + bodiesIn ns ≤ 256

variable {depth : ℕ} {n : HtmlNode} {ns : List HtmlNode}

theorem Readable.tail (h : Readable depth (n :: ns)) : Readable depth ns := by
  refine ⟨h.tidy.2, h.last.2.2, ?_⟩
  have hshallow := h.shallow
  rw [bodiesIn] at hshallow
  omega

theorem Readable.children {tag : Str} {attrs : List Attr} {children : List HtmlNode}
    (h : Readable depth (.element tag attrs children :: ns)) (hvoid : ¬ isVoid tag) (hraw : ¬ isRaw tag) :
    Readable (depth + 1) children := by
  obtain ⟨-, -, hbody⟩ := h.tidy.1
  rw [if_neg hvoid, if_neg hraw] at hbody
  refine ⟨hbody, h.last.1, ?_⟩
  have hshallow := h.shallow
  rw [bodiesIn, HtmlNode.bodies, if_neg (not_or.2 ⟨hvoid, hraw⟩)] at hshallow
  omega

theorem exists_text_run : ∀ (c : Str) (ns : List HtmlNode), ∃ c' ns',
    normNodes (.text c :: ns) = .text (c ++ c') :: normNodes ns' ∧
    renderNodes ns = escape c' ++ renderNodes ns' ∧
    ¬ ns'.head?.any HtmlNode.isText ∧ namelessIn ns' = namelessIn ns ∧
    (Readable depth ns → Readable depth ns') := by
  intro c ns
  induction ns generalizing c with
  | nil => exact ⟨[], [], by rw [List.append_nil]; rfl, rfl, by simp, rfl, id⟩
  | cons n ns ih =>
    by_cases htext : n.isText
    · obtain ⟨d, rfl⟩ : ∃ d, n = .text d := by
        cases n with
        | text d => exact ⟨d, rfl⟩
        | _ => exact absurd htext Bool.false_ne_true
      obtain ⟨c', ns', hnorm, hrender, hhead, hname, hread⟩ := ih d
      refine ⟨d ++ c', ns', ?_, ?_, hhead, ?_, fun h => hread h.tail⟩
      · rw [normNodes, hnorm]
        rfl
      · rw [renderNodes, renderNode, hrender, escape_append, List.append_assoc]
      · rw [hname, namelessIn]
        rfl
    · have hhead : ¬ (n :: ns).head?.any HtmlNode.isText := htext
      refine ⟨[], n :: ns, ?_, rfl, hhead, rfl, id⟩
      rw [normNodes, joinText_end _ (head_normNodes hhead), List.append_nil]
      rfl

theorem length_renderAttr_pos (a : Attr) : 0 < (renderAttr a).length := Nat.succ_pos _

theorem length_le_renderAttrs (attrs : List Attr) : attrs.length ≤ (attrs.flatMap renderAttr).length := by
  induction attrs with
  | nil => exact le_rfl
  | cons a attrs ih =>
    have := length_renderAttr_pos a
    grind

theorem escape_ne_nil {c : Str} (h : c ≠ []) : escape c ≠ [] := by
  obtain ⟨b, bs, rfl⟩ := List.exists_cons_of_ne_nil h
  rw [escape, List.flatMap_cons]
  apply List.append_ne_nil_of_left_ne_nil
  split
  · decide
  · split
    · decide
    · split
      · decide
      grind

theorem length_renderNode_pos (hraw : ∀ c, n ≠ .rawText c) (htext : n ≠ .text []) : 0 < (renderNode n).length := by
  cases n with
  | element tag attrs children =>
    rw [renderNode]
    split <;> simp
  | text c => exact List.length_pos_iff.2 (escape_ne_nil fun hc => htext (congrArg HtmlNode.text hc))
  | comment c =>
    rw [renderNode]
    split
    · decide
    · simp [commentOpen]
  | rawText c => exact absurd rfl (hraw c)

theorem HtmlNode.Tidy.not_raw (h : n.Tidy) (c : Str) : n ≠ .rawText c := by
  rintro rfl
  exact h

theorem HtmlNode.Tidy.not_empty (h : n.Tidy) : n ≠ .text [] := by
  rintro rfl
  exact h rfl

theorem renderNodes_head (hraw : ∀ n ∈ ns.head?, ∀ c, n ≠ .rawText c) (htext : ¬ ns.head?.any HtmlNode.isText) {rest : Str}
    (hrest : rest = [] ∨ rest.head? = some (ch '<')) :
    renderNodes ns ++ rest = [] ∨ (renderNodes ns ++ rest).head? = some (ch '<') := by
  cases ns with
  | nil => exact hrest
  | cons n ns =>
    refine .inr ?_
    cases n with
    | element tag attrs children =>
      rw [renderNodes, renderNode]
      split <;> simp
    | text c => exact absurd rfl htext
    | comment c =>
      rw [renderNodes, renderNode]
      split <;> rfl
    | rawText c => exact absurd rfl (hraw _ rfl c)

theorem TidyNodes.head_not_raw (h : TidyNodes ns) : ∀ n ∈ ns.head?, ∀ c, n ≠ .rawText c := by
  cases ns with
  | nil => exact fun _ hn => absurd hn (Option.not_mem_none _)
  | cons n ns =>
    rintro _ ⟨⟩
    exact h.1.not_raw

theorem not_raw_of_void {tag : Str} (h : isVoid tag) : ¬ isRaw tag := by
  rintro (rfl | rfl)
  · exact absurd h (by decide)
  · exact absurd h (by decide)

theorem nameless_eq_false {tag : Str} {attrs : List Attr} {children : List HtmlNode}
    (h : (HtmlNode.element tag attrs children).Tidy) (hbody : isVoid tag ∨ isRaw tag) :
    (HtmlNode.element tag attrs children).nameless = false := by
  have hne : tag.isEmpty = false := by
    cases tag with
    | nil => exact absurd hbody (by decide)
    | cons c cs => rfl
  have hchildren : namelessIn children = false := by
    obtain ⟨-, -, hempty⟩ := h
    by_cases hvoid : isVoid tag
    · rw [if_pos hvoid] at hempty
      rw [hempty]
      rfl
    · rw [if_neg hvoid, if_pos (hbody.resolve_left hvoid)] at hempty
      rcases hempty with rfl | ⟨raw, rfl, -⟩
      · rfl
      · rfl
  rw [HtmlNode.nameless, hne, hchildren]
  rfl

theorem exists_raw_body {tag : Str} {attrs : List Attr} {children : List HtmlNode}
    (h : (HtmlNode.element tag attrs children).Tidy) (hvoid : ¬ isVoid tag) (hraw : isRaw tag) :
    ∃ raw, (HtmlNode.element tag attrs children).norm = .element tag attrs [.rawText raw] ∧
      renderNodes children = raw ∧ ¬ lit ['<', '/'] ++ tag <:+: lower raw := by
  obtain ⟨-, -, hbody⟩ := h
  rw [if_neg hvoid, if_pos hraw] at hbody
  rw [HtmlNode.norm, if_pos hraw]
  rcases hbody with rfl | ⟨raw, rfl, hclose⟩
  · refine ⟨[], rfl, rfl, ?_⟩
    intro h
    exact absurd (List.infix_nil.1 h) (List.cons_ne_nil _ _)
  · exact ⟨raw, rfl, List.append_nil raw, hclose⟩

end Written

section Loop

/-- Where the siblings end: at the end of the input, or at the closing tag of their parent. -/
def Ends (close rest rest' : Str) : Prop :=
  close = [] ∧ rest = [] ∧ rest' = [] ∨
    GoodTag close ∧ rest = lit ['<', '/'] ++ close ++ ch '>' :: rest'

variable {close rest rest' : Str} {rounds depth : ℕ}

theorem lower_eq {tag : Str} (h : TagName tag) : lower tag = tag := by
  have hid : ∀ b ∈ tag, lowerByte b = b := fun b hb => if_neg (h.lower_case b hb)
  exact (List.map_congr_left hid).trans (List.map_id' tag)

theorem scanCloseTag_eq {tag : Str} (h : TagName tag) (rest : Str) :
    scanCloseTag (lit ['<', '/'] ++ tag ++ ch '>' :: rest) = (tag, rest) := by
  have hdrop : (lit ['<', '/'] ++ tag ++ ch '>' :: rest).drop 2 = tag ++ ch '>' :: rest := rfl
  have hname : scanTagName (tag ++ ch '>' :: rest) = (tag, ch '>' :: rest) :=
    scanName_eq h.no_end (by decide)
  have hskip : skipWs (ch '>' :: rest) = ch '>' :: rest := skipWs_cons (by decide) rest
  have hfront : skipWs (tag ++ ch '>' :: rest) = tag ++ ch '>' :: rest := by
    by_cases hne : tag = []
    · rw [hne]
      exact hskip
    · exact skipWs_name (h.good hne).toGoodName _
  unfold scanCloseTag
  grind [lower_eq]

theorem nodesLoop_end (h : Ends close rest rest') (rounds depth : ℕ) :
    nodesLoop (rounds + 1) close depth rest = some ([], rest') := by
  rcases h with ⟨rfl, rfl, rfl⟩ | ⟨hclose, rfl⟩
  · rfl
  · have hpos : close.length > 0 := List.length_pos_iff.2 hclose.ne_nil
    have hscan := scanCloseTag_eq hclose.tagName rest'
    change (if close.length > 0 then
      if (scanCloseTag (lit ['<', '/'] ++ close ++ ch '>' :: rest')).1 = close then
        some ([], (scanCloseTag (lit ['<', '/'] ++ close ++ ch '>' :: rest')).2) else _ else _) = _
    grind

def andThen (rounds : ℕ) (close : Str) (depth : ℕ) (x : HtmlNode × Str) :
    Option (List HtmlNode × Str) :=
  (nodesLoop rounds close depth x.2).map fun y => (x.1 :: y.1, y.2)

theorem nodesLoop_comment (s : Str) :
    nodesLoop (rounds + 1) close depth (commentOpen ++ s) =
      andThen rounds close depth (parseComment (commentOpen ++ s)) := rfl

theorem nodesLoop_text {c : UInt8} (h : c ≠ ch '<') (s : Str) :
    nodesLoop (rounds + 1) close depth (c :: s) =
      andThen rounds close depth (parseText (c :: s)) := by
  rw [nodesLoop.eq_def]
  exact if_neg h

theorem nodesLoop_element {s : Str} (hslash : s.head? ≠ some (ch '/')) (hbang : s.head? ≠ some (ch '!')) :
    nodesLoop (rounds + 1) close depth (ch '<' :: s) =
      (parseElement (fun tag s =>
        if depth + 1 > 256 then some ([], s) else nodesLoop rounds tag (depth + 1) s) rounds
        (ch '<' :: s)).bind (andThen rounds close depth) := by
  have hne : ¬ startsWith (ch '<' :: s) (lit ['<', '!']) := by
    cases s with
    | nil => decide
    | cons c s => simpa [startsWith] using fun h => hbang (congrArg some h.symm)
  have hno : ¬ startsWith (ch '<' :: s) commentOpen := by
    intro h
    rw [startsWith, List.isPrefixOf_iff_prefix] at h
    exact hne (List.isPrefixOf_iff_prefix.2 ((by decide : lit ['<', '!'] <+: commentOpen).trans h))
  rw [nodesLoop.eq_def]
  simp only [if_true, if_neg hslash, if_neg hno, if_neg hne]
  rfl

end Loop

section Element

variable {children : Str → Str → Option (List HtmlNode × Str)} {tag : Str} {attrs : List Attr}

theorem parseElement_eq {rounds : ℕ} {s s₁ s₂ s₃ : Str}
    (hattrs : parseAttrs rounds (scanTagName s).2 = some (attrs, s₁))
    (hs₂ : (if s₁.head? = some (ch '/') then s₁.drop 1 else s₁) = s₂)
    (hs₃ : (if s₂.head? = some (ch '>') then s₂.drop 1 else s₂) = s₃) :
    parseElement children rounds (ch '<' :: s) =
      let tag := lower (scanTagName s).1
      if s₁.head? = some (ch '/') ∨ isVoid tag then some (.element tag attrs [], s₃)
      else if tag = script ∨ tag = style then
        some (.element tag attrs [.rawText (scanRawUntilClose s₃ tag).1], (scanRawUntilClose s₃ tag).2)
      else (children tag s₃).map fun x => (.element tag attrs x.1, x.2) := by
  have hdrop : (ch '<' :: s).drop 1 = s := rfl
  unfold parseElement
  simp only [hdrop, hattrs, Option.bind_eq_bind, Option.bind_some, hs₂, hs₃]
  cases children (lower (scanTagName s).1) s₃ with
  | none => rfl
  | some x => rfl

theorem parseElement_tag (htag : TagName tag) (hattrs : ∀ a ∈ attrs, GoodName a.key) {rounds : ℕ}
    (hrounds : attrs.length < rounds) (s : Str) :
    parseElement children rounds (ch '<' :: tag ++ attrs.flatMap renderAttr ++ ch '>' :: s) =
      if isVoid tag then some (.element tag attrs [], s)
      else if tag = script ∨ tag = style then
        some (.element tag attrs [.rawText (scanRawUntilClose s tag).1], (scanRawUntilClose s tag).2)
      else (children tag s).map fun x => (.element tag attrs x.1, x.2) := by
  obtain ⟨c, t, hct, hend, -⟩ := renderAttrs_head hattrs s
  have hc : isNameEnd c := by rcases hend with rfl | rfl <;> decide
  have hname : scanTagName (tag ++ (attrs.flatMap renderAttr ++ ch '>' :: s)) =
      (tag, attrs.flatMap renderAttr ++ ch '>' :: s) := by
    rw [hct]
    exact scanName_eq htag.no_end hc
  have hparse := parseAttrs_render hattrs s rounds hrounds
  have hslash : ¬ some (ch '>') = some (ch '/') := by decide
  rw [List.cons_append, List.cons_append, List.append_assoc,
    parseElement_eq (by rw [hname]; exact hparse) rfl rfl, hname]
  simp only [List.head?_cons, hslash, if_false, if_true, false_or, lower_eq htag, List.drop_one,
    List.tail_cons]

theorem nodesLoop_tag (htag : TagName tag) (hattrs : ∀ a ∈ attrs, GoodName a.key) {n depth : ℕ}
    {close : Str} (hn : attrs.length < n) (s : Str) :
    nodesLoop (n + 1) close depth (ch '<' :: tag ++ attrs.flatMap renderAttr ++ ch '>' :: s) =
      (if isVoid tag then some (.element tag attrs [], s)
        else if tag = script ∨ tag = style then
          some (.element tag attrs [.rawText (scanRawUntilClose s tag).1],
            (scanRawUntilClose s tag).2)
        else (if depth + 1 > 256 then some ([], s)
          else nodesLoop n tag (depth + 1) s).map fun x =>
            (.element tag attrs x.1, x.2)).bind (andThen n close depth) := by
  rw [← @parseElement_tag (fun tag s =>
    if depth + 1 > 256 then some ([], s) else nodesLoop n tag (depth + 1) s) _ _ htag hattrs n hn s]
  cases tag with
  | nil =>
    obtain ⟨c, t, hct, hend, -⟩ := renderAttrs_head hattrs s
    have hslash : c ≠ ch '/' := by grind
    grind [nodesLoop_element, Option.some.inj, List.append_assoc]
  | cons c t =>
    have hslash : c ≠ ch '/' := by
      rintro rfl
      exact htag.no_end (ch '/') List.mem_cons_self (by decide)
    have hbang : c ≠ ch '!' := by
      rintro rfl
      exact htag.no_bang rfl
    grind [nodesLoop_element, Option.some.inj]

end Element

section Reread

inductive Closings : ℕ → Str → Prop
  | nil : Closings 0 []
  | cons {k : ℕ} {tag s : Str} : TagName tag → Closings k s →
    Closings (k + 1) (lit ['<', '/'] ++ tag ++ ch '>' :: s)

/-- What is behind siblings. Those that are read to the end of the input, for want of a parent's name or
because an element without a name is among them, have closing tags only behind them. -/
def Follows (toEnd : Bool) (k : ℕ) (close rest rest' : Str) : Prop :=
  (close = [] ∨ toEnd) ∧ Closings k rest ∧ rest' = [] ∨
    toEnd = false ∧ GoodTag close ∧ rest = lit ['<', '/'] ++ close ++ ch '>' :: rest'

variable {toEnd : Bool} {k depth : ℕ} {close rest rest' : Str} {ns : List HtmlNode}

theorem Closings.head (h : Closings k rest) : rest = [] ∨ rest.head? = some (ch '<') := by
  cases h with
  | nil => exact .inl rfl
  | cons _ _ => exact .inr rfl

theorem Follows.head (h : Follows toEnd k close rest rest') :
    rest = [] ∨ rest.head? = some (ch '<') := by
  rcases h with ⟨-, h, -⟩ | ⟨-, -, rfl⟩
  · exact h.head
  · exact .inr rfl

theorem nodesLoop_closings (h : Closings k rest) :
    ∀ rounds, k < rounds → nodesLoop rounds [] depth rest = some ([], []) := by
  induction h with
  | nil =>
    intro rounds hrounds
    obtain ⟨n, rfl⟩ : ∃ n, rounds = n + 1 := ⟨rounds - 1, by omega⟩
    rfl
  | @cons k tag s htag _ ih =>
    intro rounds hrounds
    obtain ⟨n, rfl⟩ : ∃ n, rounds = n + 1 := ⟨rounds - 1, by omega⟩
    change nodesLoop n [] depth (scanCloseTag (lit ['<', '/'] ++ tag ++ ch '>' :: s)).2 = _
    rw [scanCloseTag_eq htag]
    exact ih n (by omega)

theorem nodesLoop_follows (h : Follows false k close rest rest') {rounds : ℕ} (hk : k < rounds) :
    nodesLoop rounds close depth rest = some ([], rest') := by
  rcases h with ⟨hclose, hrest, rfl⟩ | ⟨-, hclose, hrest⟩
  · obtain rfl : close = [] := hclose.resolve_right Bool.false_ne_true
    exact nodesLoop_closings hrest rounds hk
  · obtain ⟨n, rfl⟩ : ∃ n, rounds = n + 1 := ⟨rounds - 1, by omega⟩
    exact nodesLoop_end (.inr ⟨hclose, hrest⟩) n depth

theorem nodesLoop_nil {rounds : ℕ} (h : 0 < rounds) : nodesLoop rounds close depth [] = some ([], []) := by
  obtain ⟨n, rfl⟩ : ∃ n, rounds = n + 1 := ⟨rounds - 1, by omega⟩
  rfl

theorem andThen_eq {rounds : ℕ} {node : HtmlNode} (h : nodesLoop rounds close depth rest = some (ns, rest')) :
    andThen rounds close depth (node, rest) = some (node :: ns, rest') := by
  unfold andThen
  rw [h]
  rfl

theorem Follows.children {r : Str} {tag : Str} {children : List HtmlNode} (htag : TagName tag)
    (h : tag.isEmpty || namelessIn children → Closings k r) :
    Follows (namelessIn children) (k + 1) tag (lit ['<', '/'] ++ tag ++ ch '>' :: r)
      (if tag.isEmpty || namelessIn children then [] else r) := by
  by_cases hto : tag.isEmpty || namelessIn children
  · rw [if_pos hto]
    refine .inl ⟨?_, .cons htag (h hto), rfl⟩
    grind
  · rw [if_neg hto]
    rw [Bool.or_eq_true, not_or, List.isEmpty_iff] at hto
    exact .inr ⟨Bool.eq_false_iff.2 hto.2, htag.good hto.1, rfl⟩

theorem nodesLoop_written (rounds : ℕ) : ∀ (ns : List HtmlNode) (close rest rest' : Str) (depth k : ℕ),
    Readable depth ns → Follows (namelessIn ns) k close rest rest' →
    (renderNodes ns).length + k < rounds →
    nodesLoop rounds close depth (renderNodes ns ++ rest) = some (normNodes ns, rest') := by
  induction rounds with
  | zero => grind
  | succ n ih =>
    intro ns close rest rest' depth k hread hfollows hrounds
    cases ns with
    | nil => exact nodesLoop_follows hfollows (by omega)
    | cons node ns =>
      have hsplit : renderNodes (node :: ns) ++ rest =
          renderNode node ++ (renderNodes ns ++ rest) := by rw [renderNodes, List.append_assoc]
      have hlen : (renderNode node).length + (renderNodes ns).length + k < n + 1 := by
        rwa [renderNodes, List.length_append] at hrounds
      have hpos := length_renderNode_pos hread.tidy.1.not_raw hread.tidy.1.not_empty
      -- the siblings behind a node that is not nameless
      have hrest (hname : node.nameless = false) :
          nodesLoop n close depth (renderNodes ns ++ rest) = some (normNodes ns, rest') := by
        apply ih ns close rest rest' depth k hread.tail
        · rwa [namelessIn, hname, Bool.false_or] at hfollows
        · omega
      rw [hsplit]
      cases node with
      | text c =>
        obtain ⟨c', ns', hnorm, hrender, htext, hname, hread'⟩ := exists_text_run c ns
        have hc : c ≠ [] := hread.tidy.1
        obtain ⟨b, bs, hb⟩ : ∃ b bs, escape (c ++ c') = b :: bs :=
          List.exists_cons_of_ne_nil (escape_ne_nil (List.append_ne_nil_of_left_ne_nil hc c'))
        have hne : b ≠ ch '<' := escape_ne_lt (c ++ c') b (by grind)
        have htidy := (hread' hread.tail).tidy
        have hparse := parseText_render (c ++ c') (renderNodes_head htidy.head_not_raw htext hfollows.head)
        have hlen' := congrArg List.length hrender
        rw [List.length_append] at hlen'
        have hbehind : nodesLoop n close depth (renderNodes ns' ++ rest) =
            some (normNodes ns', rest') := by
          apply ih ns' close rest rest' depth k (hread' hread.tail)
          · rwa [hname]
          · omega
        have hwhole : renderNode (.text c) ++ (renderNodes ns ++ rest) =
            escape (c ++ c') ++ (renderNodes ns' ++ rest) := by
          rw [renderNode, hrender, escape_append, List.append_assoc, List.append_assoc]
        grind [andThen_eq, List.cons_append, nodesLoop_text]
      | comment c =>
        have hcomment : ¬ (HtmlNode.comment c).isText := Bool.false_ne_true
        have hnorm : (HtmlNode.comment c).norm = .comment c := rfl
        rw [normNodes, hnorm, joinText_other hcomment, renderNode]
        by_cases hdoc : c = doctypeHtml
        · have hparse := parseDoctype_render (renderNodes ns ++ rest)
          subst hdoc
          rw [if_pos rfl, List.append_assoc (lit ['<', '!'] ++ doctypeHtml), List.singleton_append]
          change andThen n close depth (parseDoctype (lit ['<', '!'] ++ doctypeHtml ++
            ch '>' :: (renderNodes ns ++ rest))) = _
          rw [hparse]
          exact andThen_eq (hrest rfl)
        · have hparse := parseComment_render hread.tidy.1 (renderNodes ns ++ rest)
          rw [if_neg hdoc]
          rw [List.append_assoc, List.append_assoc] at hparse ⊢
          rw [nodesLoop_comment, hparse]
          exact andThen_eq (hrest rfl)
      | rawText c => exact hread.tidy.1.elim
      | element tag attrs children =>
        obtain ⟨htag, hattrs, hbody⟩ := hread.tidy.1
        have hattrsLen := length_le_renderAttrs attrs
        have helement : ¬ (HtmlNode.element tag attrs children).norm.isText := Bool.false_ne_true
        rw [normNodes, joinText_other helement]
        by_cases hvoid : isVoid tag
        · have hname := nameless_eq_false hread.tidy.1 (.inl hvoid)
          rw [if_pos hvoid] at hbody
          subst hbody
          have hrender : renderNode (.element tag attrs []) ++ (renderNodes ns ++ rest) =
              ch '<' :: tag ++ attrs.flatMap renderAttr ++ ch '>' :: (renderNodes ns ++ rest) := by
            rw [renderNode]
            simp [hvoid]
          rw [renderNode] at hlen
          simp only [hvoid, if_true, List.length_append, List.length_cons, List.length_nil] at hlen
          have hnorm : (HtmlNode.element tag attrs []).norm = .element tag attrs [] := by
            rw [HtmlNode.norm, if_neg (not_raw_of_void hvoid)]
            rfl
          rw [hrender, nodesLoop_tag htag hattrs (by omega), if_pos hvoid, hnorm]
          exact andThen_eq (hrest hname)
        · have hrender : renderNode (.element tag attrs children) ++ (renderNodes ns ++ rest) =
              ch '<' :: tag ++ attrs.flatMap renderAttr ++ ch '>' :: (renderNodes children ++
                (lit ['<', '/'] ++ tag ++ [ch '>']) ++ (renderNodes ns ++ rest)) := by
            rw [renderNode]
            simp [hvoid]
          rw [renderNode] at hlen
          simp only [hvoid, Bool.false_eq_true, if_false, List.length_append, List.length_cons,
            List.length_nil] at hlen
          rw [hrender, nodesLoop_tag htag hattrs (by omega), if_neg hvoid]
          by_cases hraw : isRaw tag
          · obtain ⟨raw, hnorm, hwritten, hclose⟩ := exists_raw_body hread.tidy.1 hvoid hraw
            have hscan := scanRaw_render hraw hclose (renderNodes ns ++ rest)
            have hbody' : tag = script ∨ tag = style := hraw
            rw [if_pos hbody', hwritten, hscan, hnorm]
            exact andThen_eq (hrest (nameless_eq_false hread.tidy.1 (.inr hraw)))
          · have hdepth := (hread.children hvoid hraw).shallow
            have hto : tag.isEmpty || namelessIn children → ns = [] ∧ Closings k rest ∧ rest' = [] := by
              intro hto
              have hname : namelessIn (.element tag attrs children :: ns) = true := by
                rw [namelessIn, HtmlNode.nameless, hto, Bool.true_or]
              rcases hfollows with ⟨-, hclosings, hend⟩ | ⟨hno, -⟩
              · exact ⟨hread.last.2.1 hto, hclosings, hend⟩
              grind
            have hbehind := Follows.children htag (k := k) (r := renderNodes ns ++ rest) fun h => by
              obtain ⟨rfl, hclosings, -⟩ := hto h
              exact hclosings
            have hchildren := ih children tag _ _ (depth + 1) (k + 1) (hread.children hvoid hraw)
              hbehind (by omega)
            have hassoc : renderNodes children ++ (lit ['<', '/'] ++ tag ++ [ch '>']) ++
                (renderNodes ns ++ rest) = renderNodes children ++
                (lit ['<', '/'] ++ tag ++ ch '>' :: (renderNodes ns ++ rest)) := by simp
            have hnorm : (HtmlNode.element tag attrs children).norm =
                .element tag attrs (normNodes children) := by rw [HtmlNode.norm, if_neg hraw]
            have hbody' : ¬ (tag = script ∨ tag = style) := hraw
            rw [if_neg hbody', if_neg (by omega), hassoc, hchildren, hnorm]
            apply andThen_eq
            by_cases h : tag.isEmpty || namelessIn children
            · obtain ⟨rfl, -, rfl⟩ := hto h
              rw [if_pos h]
              exact nodesLoop_nil (by omega)
            · rw [if_neg h]
              exact hrest (Bool.eq_false_iff.2 h)

end Reread

/-! `parse` reads back what `render` writes, node for node. -/

section Documents

mutual

/-- What a node must keep to: void elements are empty, the body of a script or a style is one raw text
without the start of its closing tag, and there is no other raw text. -/
def HtmlNode.Good : HtmlNode → Prop
  | .element tag attrs children =>
    GoodTag tag ∧ (∀ a ∈ attrs, GoodName a.key) ∧
      if isVoid tag then children = []
      else if tag = script ∨ tag = style then
        ∃ raw, children = [.rawText raw] ∧ ¬ lit ['<', '/'] ++ tag <:+: lower raw
      else GoodNodes children
  | .text c => c ≠ []
  | .comment c => ¬ commentClose <:+: c
  | .rawText _ => False

def GoodNodes : List HtmlNode → Prop
  | [] => True
  | n :: ns => n.Good ∧ (n.isText → ¬ ns.head?.any HtmlNode.isText) ∧ GoodNodes ns

end

mutual

def HtmlNode.nesting : HtmlNode → ℕ
  | .element _ _ children => nestingOf children + 1
  | _ => 0

def nestingOf : List HtmlNode → ℕ
  | [] => 0
  | n :: ns => max n.nesting (nestingOf ns)

end

end Documents

section RoundTrip

mutual

theorem HtmlNode.Good.readable : ∀ n : HtmlNode, n.Good →
    n.Tidy ∧ n.nameless = false ∧ n.NamelessLast ∧ n.norm = n ∧ n.bodies ≤ n.nesting
  | .element tag attrs children, h => by
    obtain ⟨htag, hattrs, hbody⟩ := h
    have hne : tag.isEmpty = false := List.isEmpty_eq_false_iff.2 htag.ne_nil
    rw [HtmlNode.Tidy, HtmlNode.nameless, HtmlNode.NamelessLast, HtmlNode.norm, HtmlNode.bodies,
      HtmlNode.nesting, hne, Bool.false_or]
    by_cases hvoid : isVoid tag
    · rw [if_pos hvoid] at hbody
      subst hbody
      have hbodiless : isVoid tag ∨ isRaw tag := .inl hvoid
      rw [if_pos hvoid, if_neg (not_raw_of_void hvoid), if_pos hbodiless]
      exact ⟨⟨htag.tagName, hattrs, rfl⟩, rfl, trivial, rfl, Nat.zero_le _⟩
    · rw [if_neg hvoid] at hbody ⊢
      by_cases hraw : isRaw tag
      · have hbody' : tag = script ∨ tag = style := hraw
        rw [if_pos hbody'] at hbody
        obtain ⟨raw, rfl, hclose⟩ := hbody
        have hbodiless : isVoid tag ∨ isRaw tag := .inr hraw
        rw [if_pos hraw, if_pos hraw, if_pos hbodiless]
        exact ⟨⟨htag.tagName, hattrs, .inr ⟨raw, rfl, hclose⟩⟩, rfl,
          ⟨trivial, fun h => absurd h Bool.false_ne_true, trivial⟩, rfl, Nat.zero_le _⟩
      · have hbody' : ¬ (tag = script ∨ tag = style) := hraw
        rw [if_neg hbody'] at hbody
        obtain ⟨htidy, hname, hlast, hnorm, hdeep⟩ := GoodNodes.readable children hbody
        rw [if_neg hraw, if_neg hraw, if_neg (not_or.2 ⟨hvoid, hraw⟩), hnorm]
        exact ⟨⟨htag.tagName, hattrs, htidy⟩, hname, hlast, rfl, Nat.succ_le_succ hdeep⟩
  | .text _, h => ⟨h, rfl, trivial, rfl, Nat.le_refl 0⟩
  | .comment _, h => ⟨h, rfl, trivial, rfl, Nat.le_refl 0⟩
  | .rawText _, h => h.elim

theorem GoodNodes.readable : ∀ ns : List HtmlNode, GoodNodes ns →
    TidyNodes ns ∧ namelessIn ns = false ∧ NamelessLastIn ns ∧ normNodes ns = ns ∧
      bodiesIn ns ≤ nestingOf ns
  | [], _ => ⟨trivial, rfl, trivial, rfl, Nat.le_refl 0⟩
  | n :: ns, ⟨hn, htext, hns⟩ => by
    obtain ⟨htidy, hname, hlast, hnorm, hdeep⟩ := hn.readable
    obtain ⟨htidys, hnames, hlasts, hnorms, hdeeps⟩ := hns.readable
    have hjoin : joinText n ns = n :: ns := by grind [joinText_other, joinText_end]
    refine ⟨⟨htidy, htidys⟩, ?_, ⟨hlast, ?_, hlasts⟩, ?_, ?_⟩
    · rw [namelessIn, hname, hnames]
      rfl
    · grind
    · rw [normNodes, hnorm, hnorms, hjoin]
    · rw [bodiesIn, nestingOf]
      grind

end

theorem nodesLoop_render (rounds : ℕ) (ns : List HtmlNode) (depth : ℕ) (hgood : GoodNodes ns)
    (hdepth : depth + nestingOf ns ≤ 256) (hrounds : (renderNodes ns).length < rounds) :
    nodesLoop rounds [] depth (renderNodes ns) = some (ns, []) := by
  obtain ⟨htidy, hname, hlast, hnorm, hdeep⟩ := hgood.readable
  have hread : Readable depth ns := ⟨htidy, hlast, by omega⟩
  have h := nodesLoop_written rounds ns [] [] [] depth 0 hread (.inl ⟨.inl rfl, .nil, rfl⟩) hrounds
  grind

/-- A document of good nodes, nested less than 250 deep, is read back from what is written of it. -/
theorem parse_render (d : HtmlDoc) (hgood : GoodNodes d.roots) (hdepth : nestingOf d.roots < 250) :
    ∃ n, ∀ rounds ≥ n, parse rounds (render d) = some d := by
  refine ⟨(render d).length + 1, fun rounds hrounds => ?_⟩
  unfold parse render
  rw [nodesLoop_render rounds d.roots 0 hgood (by omega) hrounds]
  rfl

end RoundTrip

end LsLang.Text.Html
