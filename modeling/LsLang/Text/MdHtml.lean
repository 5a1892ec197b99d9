import LsLang.Lib.Markup
import LsLang.Text.Html
import LsLang.Text.Md

/-! `to_html` of `std.text.md`. Whatever the source, what it returns is markup of the tags below, and what comes
from the source stands in it escaped. -/

namespace LsLang.Text.Md

open LsLang.Core LsLang.Lib

/-! ### The renderer -/

/-- `_html_escape`, the loop that `std.text.html` has as well. -/
def htmlEscape (s : Str) : Str := Html.escape s

/-- `_html_escape_attr` -/
def htmlEscapeAttr (s : Str) : Str := Html.escapeAttr s

def openTag (name : Str) : Str := ch '<' :: name ++ [ch '>']

def closeTag (name : Str) : Str := ch '<' :: (ch '/' :: name) ++ [ch '>']

/-- ` key="` -/
def attrOpen (key : Str) : Str := ch ' ' :: key ++ lit ['=', '"']

namespace Word

def strong : Str := lit ['s', 't', 'r', 'o', 'n', 'g']
def em : Str := lit ['e', 'm']
def code : Str := lit ['c', 'o', 'd', 'e']
def a : Str := lit ['a']
def img : Str := lit ['i', 'm', 'g']
def table : Str := lit ['t', 'a', 'b', 'l', 'e']
def thead : Str := lit ['t', 'h', 'e', 'a', 'd']
def tbody : Str := lit ['t', 'b', 'o', 'd', 'y']
def tr : Str := lit ['t', 'r']
def th : Str := lit ['t', 'h']
def td : Str := lit ['t', 'd']
def p : Str := lit ['p']
def pre : Str := lit ['p', 'r', 'e']
def ul : Str := lit ['u', 'l']
def ol : Str := lit ['o', 'l']
def li : Str := lit ['l', 'i']
def blockquote : Str := lit ['b', 'l', 'o', 'c', 'k', 'q', 'u', 'o', 't', 'e']
def hr : Str := lit ['h', 'r']
def href : Str := lit ['h', 'r', 'e', 'f']
def src : Str := lit ['s', 'r', 'c']
def alt : Str := lit ['a', 'l', 't']
def class_ : Str := lit ['c', 'l', 'a', 's', 's']
def language : Str := lit ['l', 'a', 'n', 'g', 'u', 'a', 'g', 'e', '-']

/-- `f"h{level}"` -/
def h (level : ℕ) : Str := ch 'h' :: lit (Nat.toDigits 10 level)

end Word

def nl : Str := lit ['\n']

/-- `_html_inline` -/
def htmlInline : MdInline → Str
  | .text c => htmlEscape c
  | .bold c => openTag Word.strong ++ htmlEscape c ++ closeTag Word.strong
  | .italic c => openTag Word.em ++ htmlEscape c ++ closeTag Word.em
  | .boldItalic c =>
    openTag Word.strong ++ (openTag Word.em ++ htmlEscape c ++ closeTag Word.em) ++
      closeTag Word.strong
  | .code c => openTag Word.code ++ htmlEscape c ++ closeTag Word.code
  | .link t u =>
    ch '<' :: Word.a ++ attrOpen Word.href ++ htmlEscapeAttr u ++ lit ['"', '>'] ++ htmlEscape t ++
      closeTag Word.a
  | .image a u =>
    ch '<' :: Word.img ++ attrOpen Word.src ++ htmlEscapeAttr u ++ lit ['"'] ++ attrOpen Word.alt ++
      htmlEscapeAttr a ++ lit ['"', '>']

/-- `_html_inlines` -/
def htmlInlines (inls : List MdInline) : Str := inls.flatMap htmlInline

def htmlCell (tag cell : Str) : Str := openTag tag ++ htmlEscape cell ++ closeTag tag

/-- `_html_table` -/
def htmlTable (headers : List Str) (rows : List (List Str)) : Str :=
  let cells (row : List Str) : Str :=
    (List.range headers.length).flatMap fun cc => htmlCell Word.td (row.getD cc [])
  openTag Word.table ++ nl ++ openTag Word.thead ++ nl ++ openTag Word.tr ++
    headers.flatMap (htmlCell Word.th) ++ closeTag Word.tr ++ nl ++ closeTag Word.thead ++ nl ++
    openTag Word.tbody ++ nl ++
    rows.flatMap (fun row => openTag Word.tr ++ cells row ++ closeTag Word.tr ++ nl) ++
    closeTag Word.tbody ++ nl ++ closeTag Word.table ++ nl

def htmlItem (item : List MdInline) : Str :=
  openTag Word.li ++ htmlInlines item ++ closeTag Word.li ++ nl

mutual

/-- `_html_block` -/
def htmlBlock : MdBlock → Str
  | .heading level content =>
    openTag (Word.h level) ++ htmlInlines content ++ closeTag (Word.h level) ++ nl
  | .paragraph content => openTag Word.p ++ htmlInlines content ++ closeTag Word.p ++ nl
  | .codeBlock lang code =>
    let cls := if lang.length > 0 then
        attrOpen Word.class_ ++ Word.language ++ htmlEscapeAttr lang ++ lit ['"']
      else []
    openTag Word.pre ++ (ch '<' :: Word.code ++ cls ++ lit ['>'] ++ htmlEscape code ++
      closeTag Word.code) ++ closeTag Word.pre ++ nl
  | .unorderedList items =>
    openTag Word.ul ++ nl ++ items.flatMap htmlItem ++ closeTag Word.ul ++ nl
  | .orderedList items =>
    openTag Word.ol ++ nl ++ items.flatMap htmlItem ++ closeTag Word.ol ++ nl
  | .blockquote children =>
    openTag Word.blockquote ++ nl ++ htmlBlocks children ++ closeTag Word.blockquote ++ nl
  | .table headers rows => htmlTable headers rows
  | .horizontalRule => openTag Word.hr ++ nl

/-- The loops over blocks of `_html_block` and `render_html`. -/
def htmlBlocks : List MdBlock → Str
  | [] => []
  | b :: bs => htmlBlock b ++ htmlBlocks bs

end

def renderHtml (d : MdDoc) : Str := htmlBlocks d.blocks

/-- `to_html` -/
def toHtml (source : Str) : Str := renderHtml (parse source)

/-! ### Escaped text -/

def entities : List Str := [Html.amp, Html.lt, Html.gt, Html.quot]

structure Escaped (marks : List UInt8) (s : Str) : Prop where
  marks : ∀ c ∈ s, c ∉ marks
  amps : ∀ r, ch '&' :: r <:+ s → ∃ e ∈ entities, e <+: ch '&' :: r

def textMarks : List UInt8 := [ch '<', ch '>']

def valueMarks : List UInt8 := [ch '<', ch '>', ch '"']

theorem amp_suffix {w s r : Str} (hw : ch '&' ∉ w) (h : ch '&' :: r <:+ w ++ s) : ch '&' :: r <:+ s := by
  induction w with
  | nil => exact h
  | cons c w ih =>
    rw [List.mem_cons, not_or] at hw
    grind [List.cons.inj, List.cons_append, List.suffix_cons_iff]

theorem amp_of_mem_entities {e : Str} (h : e ∈ entities) : ∃ w, e = ch '&' :: w ∧ ch '&' ∉ w := by
  rcases e with - | ⟨c, w⟩
  · exact absurd h (by decide)
  have hall : ∀ e ∈ entities, e.head? = some (ch '&') ∧ ch '&' ∉ e.tail := by decide
  grind

theorem escaped_flatMap {marks : List UInt8} {f : UInt8 → Str} (hents : ∀ e ∈ entities, ∀ c ∈ e, c ∉ marks)
    (hf : ∀ c, f c ∈ entities ∨ f c = [c] ∧ c ∉ marks ∧ c ≠ ch '&') (s : Str) :
    Escaped marks (s.flatMap f) := by
  constructor
  · grind
  · induction s with
    | nil =>
      grind
    | cons b s ih =>
      intro r hr
      rw [List.flatMap_cons] at hr
      rcases hf b with he | ⟨he, -, hb⟩
      · obtain ⟨w, hw, hamp⟩ := amp_of_mem_entities he
        rw [hw, List.cons_append, List.suffix_cons_iff] at hr
        rcases hr with hr | hr
        · grind
        · exact ih r (amp_suffix hamp hr)
      · rw [he] at hr
        apply ih r
        apply amp_suffix _ hr
        grind

theorem escaped_htmlEscape (s : Str) : Escaped textMarks (htmlEscape s) := by
  apply escaped_flatMap (by decide +kernel)
  intro c
  by_cases hamp : c = ch '&'
  · rw [if_pos hamp]
    exact .inl (by decide)
  by_cases hlt : c = ch '<'
  · rw [if_neg hamp, if_pos hlt]
    exact .inl (by decide)
  by_cases hgt : c = ch '>'
  · rw [if_neg hamp, if_neg hlt, if_pos hgt]
    exact .inl (by decide)
  · rw [if_neg hamp, if_neg hlt, if_neg hgt]
    refine .inr ⟨rfl, ?_, hamp⟩
    rw [textMarks, List.mem_cons, List.mem_singleton, not_or]
    exact ⟨hlt, hgt⟩

theorem escaped_htmlEscapeAttr (s : Str) : Escaped valueMarks (htmlEscapeAttr s) := by
  apply escaped_flatMap (by decide +kernel)
  intro c
  by_cases hamp : c = ch '&'
  · rw [if_pos hamp]
    exact .inl (by decide)
  by_cases hlt : c = ch '<'
  · rw [if_neg hamp, if_pos hlt]
    exact .inl (by decide)
  by_cases hgt : c = ch '>'
  · rw [if_neg hamp, if_neg hlt, if_pos hgt]
    exact .inl (by decide)
  by_cases hquot : c = ch '"'
  · rw [if_neg hamp, if_neg hlt, if_neg hgt, if_pos hquot]
    exact .inl (by decide)
  · rw [if_neg hamp, if_neg hlt, if_neg hgt, if_neg hquot]
    refine .inr ⟨rfl, ?_, hamp⟩
    rw [valueMarks, List.mem_cons, List.mem_cons, List.mem_singleton, not_or, not_or]
    exact ⟨hlt, hgt, hquot⟩

/-! ### The tags of the renderer -/

structure EscapedText where
  raw : Str
  escaped : Escaped textMarks (htmlEscape raw)

structure EscapedValue where
  raw : Str
  escaped : Escaped valueMarks (htmlEscapeAttr raw)

inductive Tag
  | h (level : Fin 6)
  | p | pre | ul | ol | li | blockquote | table | thead | tbody | tr | th | td | strong | em
  | code (language : Option EscapedValue)
  | a (href : EscapedValue)

inductive Single
  | img (src alt : EscapedValue)
  | hr

def Tag.name : Tag → Str
  | .h level => Word.h (level + 1)
  | .p => Word.p
  | .pre => Word.pre
  | .ul => Word.ul
  | .ol => Word.ol
  | .li => Word.li
  | .blockquote => Word.blockquote
  | .table => Word.table
  | .thead => Word.thead
  | .tbody => Word.tbody
  | .tr => Word.tr
  | .th => Word.th
  | .td => Word.td
  | .strong => Word.strong
  | .em => Word.em
  | .code _ => Word.code
  | .a _ => Word.a

/-- ` key="value"` -/
def attr (key : Str) (v : EscapedValue) : Str :=
  ch ' ' :: key ++ (ch '=' :: (ch '"' :: htmlEscapeAttr v.raw ++ [ch '"']))

def Tag.attrs : Tag → Str
  | .code (some v) => attr Word.class_ v
  | .a v => attr Word.href v
  | _ => []

def Single.inside : Single → Str
  | .img src alt => Word.img ++ attr Word.src src ++ attr Word.alt alt
  | .hr => Word.hr

def spelling : Spelling UInt8 Tag Single EscapedText where
  lt := ch '<'
  gt := ch '>'
  quote := ch '"'
  text t := htmlEscape t.raw
  single := Single.inside
  opening t := t.name ++ t.attrs
  closing t := ch '/' :: t.name

theorem Tag.plain_name (t : Tag) : ch '>' ∉ t.name ∧ ch '"' ∉ t.name := by
  cases t with
  | h level =>
    revert level
    decide
  | code _ =>
    change ch '>' ∉ Word.code ∧ ch '"' ∉ Word.code
    decide
  | a _ =>
    change ch '>' ∉ Word.a ∧ ch '"' ∉ Word.a
    decide
  | _ => decide

theorem inTag_attr {key : Str} (hgt : ch '>' ∉ key) (hquote : ch '"' ∉ key) (v : EscapedValue) :
    InTag (ch '<') (ch '>') (ch '"') (attr key v) := by
  have hkey : InTag (ch '<') (ch '>') (ch '"') (ch ' ' :: key ++ [ch '=']) := by grind [inTag_plain]
  have hvalue : InTag (ch '<') (ch '>') (ch '"') (ch '"' :: htmlEscapeAttr v.raw ++ [ch '"']) :=
    inTag_value (by decide) fun h => v.escaped.marks _ h (by decide)
  have h := hkey.append hvalue
  rw [List.append_assoc, List.singleton_append] at h
  exact h

theorem spelling_lawful : spelling.Lawful where
  text t h := t.escaped.marks _ h (by decide)
  single s := by
    cases s with
    | img src alt =>
      have himg : InTag (ch '<') (ch '>') (ch '"') Word.img := inTag_plain (by decide) (by decide)
      exact (himg.append (inTag_attr (by decide) (by decide) src)).append
        (inTag_attr (by decide) (by decide) alt)
    | hr => exact inTag_plain (by decide) (by decide)
  opening t := by
    refine (inTag_plain t.plain_name.1 t.plain_name.2).append ?_
    cases t with
    | code language =>
      cases language with
      | none => exact inTag_nil
      | some v => exact inTag_attr (by decide) (by decide) v
    | a v => exact inTag_attr (by decide) (by decide) v
    | _ => exact inTag_nil
  closing t := by
    have hslash : InTag (ch '<') (ch '>') (ch '"') [ch '/'] := inTag_plain (by decide) (by decide)
    exact hslash.append (inTag_plain t.plain_name.1 t.plain_name.2)

/-! ### The tree of a document -/

def escapedValue (s : Str) : EscapedValue := ⟨s, escaped_htmlEscapeAttr s⟩

abbrev Tree : Type := Markup Tag Single EscapedText

def textTree (s : Str) : Tree := .text ⟨s, escaped_htmlEscape s⟩

def inlineTree : MdInline → Tree
  | .text c => textTree c
  | .bold c => .element .strong [textTree c]
  | .italic c => .element .em [textTree c]
  | .boldItalic c => .element .strong [.element .em [textTree c]]
  | .code c => .element (.code none) [textTree c]
  | .link t u => .element (.a (escapedValue u)) [textTree t]
  | .image a u => .single (.img (escapedValue u) (escapedValue a))

def cellTree (tag : Tag) (cell : Str) : Tree := .element tag [textTree cell]

def itemTrees (item : List MdInline) : List Tree := [.element .li (item.map inlineTree), textTree nl]

def rowTrees (width : ℕ) (row : List Str) : List Tree :=
  [.element .tr ((List.range width).map fun cc => cellTree .td (row.getD cc [])), textTree nl]

def tableTree (headers : List Str) (rows : List (List Str)) : Tree :=
  .element .table [textTree nl,
    .element .thead [textTree nl, .element .tr (headers.map (cellTree .th)), textTree nl], textTree nl,
    .element .tbody (textTree nl :: rows.flatMap (rowTrees headers.length)), textTree nl]

def languageOf (lang : Str) : Option EscapedValue :=
  if lang.length > 0 then some (escapedValue (Word.language ++ lang)) else none

mutual

def blockTree : MdBlock → Tree
  | .heading level content => .element (.h (Fin.ofNat 6 (level - 1))) (content.map inlineTree)
  | .paragraph content => .element .p (content.map inlineTree)
  | .codeBlock lang code => .element .pre [.element (.code (languageOf lang)) [textTree code]]
  | .unorderedList items => .element .ul (textTree nl :: items.flatMap itemTrees)
  | .orderedList items => .element .ol (textTree nl :: items.flatMap itemTrees)
  | .blockquote children => .element .blockquote (textTree nl :: blockTrees children)
  | .table headers rows => tableTree headers rows
  | .horizontalRule => .single .hr

def blockTrees : List MdBlock → List Tree
  | [] => []
  | b :: bs => blockTree b :: textTree nl :: blockTrees bs

end

/-! ### What the renderer writes -/

@[simp] theorem spell_textTree (s : Str) : spelling.spell (textTree s) = htmlEscape s := rfl

theorem spell_element {t : Tag} (ht : t.attrs = []) (ms : List Tree) :
    spelling.spell (.element t ms) = openTag t.name ++ spelling.spellAll ms ++ closeTag t.name := by
  have hopen : spelling.bracket (spelling.opening t) = openTag t.name := by
    change openTag (t.name ++ t.attrs) = openTag t.name
    rw [ht, List.append_nil]
  rw [Spelling.spell, hopen]
  rfl

theorem spell_around {t : Tag} (ht : t.attrs = []) (s : Str) :
    spelling.spell (.element t [textTree s]) = openTag t.name ++ htmlEscape s ++ closeTag t.name := by
  rw [spell_element ht, Spelling.spellAll_singleton, spell_textTree]

theorem spell_inlineTree (x : MdInline) : spelling.spell (inlineTree x) = htmlInline x := by
  cases x with
  | text c => rfl
  | bold c => exact spell_around rfl c
  | italic c => exact spell_around rfl c
  | boldItalic c =>
    rw [inlineTree, spell_element rfl, Spelling.spellAll_singleton, spell_around rfl]
    rfl
  | code c => exact spell_around rfl c
  | link t u =>
    simp [inlineTree, Spelling.spell, Spelling.spellAll, Spelling.bracket, spelling, Tag.name, Tag.attrs, attr,
      attrOpen, escapedValue, textTree, htmlInline, closeTag]
  | image a u =>
    simp [inlineTree, Spelling.spell, Spelling.bracket, spelling, Single.inside, attr, attrOpen, escapedValue,
      htmlInline]

theorem spellAll_inlines (inls : List MdInline) : spelling.spellAll (inls.map inlineTree) = htmlInlines inls := by
  rw [Spelling.spellAll_map]
  exact congrArg (List.flatMap · inls) (funext spell_inlineTree)

theorem spellAll_cells {t : Tag} (ht : t.attrs = []) (cells : List Str) :
    spelling.spellAll (cells.map (cellTree t)) = cells.flatMap (htmlCell t.name) := by
  rw [Spelling.spellAll_map]
  exact congrArg (List.flatMap · cells) (funext fun cell => spell_around ht cell)

theorem spellAll_line (m : Tree) (ms : List Tree) :
    spelling.spellAll (m :: textTree nl :: ms) = spelling.spell m ++ nl ++ spelling.spellAll ms := by
  rw [Spelling.spellAll, Spelling.spellAll, spell_textTree, List.append_assoc]
  rfl

theorem spellAll_item (item : List MdInline) : spelling.spellAll (itemTrees item) = htmlItem item := by
  rw [itemTrees, spellAll_line, spell_element rfl, spellAll_inlines, Spelling.spellAll, List.append_nil]
  rfl

theorem spellAll_row (width : ℕ) (row : List Str) : spelling.spellAll (rowTrees width row) =
    openTag Word.tr ++ ((List.range width).flatMap fun cc => htmlCell Word.td (row.getD cc [])) ++
      closeTag Word.tr ++ nl := by
  have hcells : spelling.spellAll ((List.range width).map fun cc => cellTree .td (row.getD cc [])) =
      (List.range width).flatMap fun cc => htmlCell Word.td (row.getD cc []) := by
    rw [Spelling.spellAll_map]
    exact congrArg (List.flatMap · _) (funext fun cc => spell_around rfl _)
  rw [rowTrees, spellAll_line, spell_element rfl, hcells, Spelling.spellAll, List.append_nil]
  rfl

theorem spell_lines {t : Tag} (ht : t.attrs = []) (ms : List Tree) :
    spelling.spell (.element t (textTree nl :: ms)) =
      openTag t.name ++ nl ++ spelling.spellAll ms ++ closeTag t.name := by
  rw [spell_element ht, Spelling.spellAll, spell_textTree, ← List.append_assoc (openTag t.name)]
  rfl

theorem spell_table (headers : List Str) (rows : List (List Str)) :
    spelling.spell (tableTree headers rows) ++ nl = htmlTable headers rows := by
  have hrows : spelling.spellAll (rows.flatMap (rowTrees headers.length)) = rows.flatMap fun row =>
      openTag Word.tr ++ ((List.range headers.length).flatMap fun cc => htmlCell Word.td (row.getD cc [])) ++
        closeTag Word.tr ++ nl := by
    rw [Spelling.spellAll_flatMap]
    exact congrArg (List.flatMap · rows) (funext (spellAll_row headers.length))
  have hhead : spelling.spell (.element .tr (headers.map (cellTree .th))) =
      openTag Word.tr ++ headers.flatMap (htmlCell Word.th) ++ closeTag Word.tr := by
    rw [spell_element rfl, spellAll_cells rfl]
    rfl
  rw [tableTree, spell_lines rfl, spellAll_line, spellAll_line, spell_lines rfl, spell_lines rfl, spellAll_line,
    hhead, hrows]
  simp only [htmlTable, Spelling.spellAll, List.append_assoc, List.nil_append]
  rfl

theorem spell_codeBlock (lang code : Str) :
    spelling.spell (blockTree (.codeBlock lang code)) ++ nl = htmlBlock (.codeBlock lang code) := by
  have hopen : spelling.bracket (spelling.opening (.code (languageOf lang))) = ch '<' :: Word.code ++
      (if lang.length > 0 then
        attrOpen Word.class_ ++ Word.language ++ htmlEscapeAttr lang ++ lit ['"']
      else []) ++ lit ['>'] := by
    -- nothing in the word in front of the language is escaped
    have hword : htmlEscapeAttr (Word.language ++ lang) = Word.language ++ htmlEscapeAttr lang :=
      List.flatMap_append
    unfold languageOf
    split_ifs
    · simp [Spelling.bracket, spelling, Tag.name, Tag.attrs, attr, attrOpen, escapedValue, hword]
    · simp [Spelling.bracket, spelling, Tag.name, Tag.attrs]
  rw [blockTree, spell_element rfl, Spelling.spellAll_singleton, Spelling.spell, hopen,
    Spelling.spellAll_singleton, spell_textTree]
  rfl

mutual

def Leveled : MdBlock → Prop
  | .heading level _ => 1 ≤ level ∧ level ≤ 6
  | .blockquote children => LeveledAll children
  | _ => True

def LeveledAll : List MdBlock → Prop
  | [] => True
  | b :: bs => Leveled b ∧ LeveledAll bs

end

theorem name_heading {level : ℕ} (h : 1 ≤ level ∧ level ≤ 6) :
    (Tag.h (Fin.ofNat 6 (level - 1))).name = Word.h level := by
  obtain ⟨n, rfl⟩ : ∃ n, level = n + 1 := ⟨level - 1, (Nat.sub_add_cancel h.1).symm⟩
  have hn : n % 6 = n := Nat.mod_eq_of_lt h.2
  change Word.h (n % 6 + 1) = Word.h (n + 1)
  rw [hn]

mutual

theorem spell_blockTree : ∀ b, Leveled b → spelling.spell (blockTree b) ++ nl = htmlBlock b
  | .heading level content, h => by
    rw [blockTree, spell_element rfl, name_heading h, spellAll_inlines]
    rfl
  | .paragraph content, _ => by
    rw [blockTree, spell_element rfl, spellAll_inlines]
    rfl
  | .codeBlock lang code, _ => spell_codeBlock lang code
  | .unorderedList items, _ => by
    rw [blockTree, spell_lines rfl, Spelling.spellAll_flatMap, funext spellAll_item]
    rfl
  | .orderedList items, _ => by
    rw [blockTree, spell_lines rfl, Spelling.spellAll_flatMap, funext spellAll_item]
    rfl
  | .blockquote children, h => by
    rw [blockTree, spell_lines rfl, spellAll_blockTrees children h]
    rfl
  | .table headers rows, _ => spell_table headers rows
  | .horizontalRule, _ => rfl

theorem spellAll_blockTrees : ∀ bs, LeveledAll bs → spelling.spellAll (blockTrees bs) = htmlBlocks bs
  | [], _ => rfl
  | b :: bs, h => by
    rw [blockTrees, spellAll_line, spell_blockTree b h.1, spellAll_blockTrees bs h.2, htmlBlocks]

end

theorem headingLevel_le (line : Str) : headingLevel line ≤ 6 := by
  unfold headingLevel
  grind

theorem leveled_of_made {passed : List Str} {b : MdBlock} (h : Made passed (.block b)) : Leveled b := by
  cases h with
  | heading line hlevel => exact ⟨hlevel, headingLevel_le line⟩
  | fence | rule | bullets | numbers | table | para => trivial

theorem leveled_blocksFrom (ls : List Str) : LeveledAll (blocksFrom ls) := by
  fun_induction blocksFrom ls with
  | case1 => trivial
  | case2 line rest later hpush ih => exact ih
  | case3 line rest later b hpush ih =>
    obtain ⟨passed, hturn⟩ := turn_turned line rest
    rw [hpush] at hturn
    cases hturn with
    | pushed _ _ hmade => exact ⟨leveled_of_made hmade, ih⟩
  | case4 line rest later inner hpush ih ihInner => exact ⟨ihInner, ih⟩

/-- `to_html` writes the tree of the document that it has parsed: its own tags, properly nested. What the source gives
stands in it escaped: a text without angle brackets, a value without angle brackets and quotes, and an ampersand only
where an entity begins; so that a reader of what is written finds the tags of the tree and no others. -/
theorem toHtml_own_tags (source : Str) :
    toHtml source = spelling.spellAll (blockTrees (parse source).blocks) ∧
      readTags (ch '<') (ch '>') (ch '"') none (toHtml source) =
        spelling.tagsAll (blockTrees (parse source).blocks) := by
  have hspell : spelling.spellAll (blockTrees (parse source).blocks) = toHtml source :=
    spellAll_blockTrees _ (leveled_blocksFrom (lines source))
  refine ⟨hspell.symm, ?_⟩
  have hread := Spelling.readTags_spellAll spelling_lawful (blockTrees (parse source).blocks) []
  rw [List.append_nil, hspell, readTags, List.append_nil] at hread
  exact hread

end LsLang.Text.Md
