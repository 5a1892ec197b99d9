import LsLang.Core.Str
import LsLang.Lib.ScanUntil
import Mathlib.Data.List.DropRight

/-! `std.text.html`: the nodes of a document, `render` and the tolerant parser. The parser's cursor is the
rest of the input. -/

namespace LsLang.Text.Html

open LsLang.Core LsLang.Lib

structure Attr where
  key : Str
  val : Str
  deriving DecidableEq

inductive HtmlNode
  | element (tag : Str) (attrs : List Attr) (children : List HtmlNode)
  | text (content : Str)
  | comment (content : Str)
  | rawText (content : Str)

structure HtmlDoc where
  roots : List HtmlNode

/-! Rendering. -/

def amp : Str := lit ['&', 'a', 'm', 'p', ';']
def lt : Str := lit ['&', 'l', 't', ';']
def gt : Str := lit ['&', 'g', 't', ';']
def quot : Str := lit ['&', 'q', 'u', 'o', 't', ';']

def escape (s : Str) : Str :=
  s.flatMap fun c =>
    if c = ch '&' then amp else if c = ch '<' then lt else if c = ch '>' then gt else [c]

def escapeAttr (s : Str) : Str :=
  s.flatMap fun c =>
    if c = ch '&' then amp else if c = ch '<' then lt else if c = ch '>' then gt
    else if c = ch '"' then quot else [c]

def isVoid (tag : Str) : Bool :=
  [lit ['b', 'r'], lit ['h', 'r'], lit ['i', 'm', 'g'], lit ['i', 'n', 'p', 'u', 't'],
    lit ['m', 'e', 't', 'a'], lit ['l', 'i', 'n', 'k'], lit ['a', 'r', 'e', 'a'],
    lit ['b', 'a', 's', 'e'], lit ['c', 'o', 'l'], lit ['e', 'm', 'b', 'e', 'd'],
    lit ['s', 'o', 'u', 'r', 'c', 'e'], lit ['w', 'b', 'r']].contains tag

def doctypeHtml : Str := lit ['D', 'O', 'C', 'T', 'Y', 'P', 'E', ' ', 'h', 't', 'm', 'l']
def commentOpen : Str := lit ['<', '!', '-', '-']
def commentClose : Str := lit ['-', '-', '>']

/-- `val == ""` is an attribute without a value. -/
def renderAttr (a : Attr) : Str :=
  ch ' ' :: a.key ++
    if a.val.length > 0 then lit ['=', '"'] ++ escapeAttr a.val ++ [ch '"'] else []

mutual

def renderNode : HtmlNode → Str
  | .element tag attrs children =>
    let r := ch '<' :: tag ++ attrs.flatMap renderAttr ++ [ch '>']
    if isVoid tag then r else r ++ renderNodes children ++ (lit ['<', '/'] ++ tag ++ [ch '>'])
  | .text c => escape c
  | .comment c =>
    if c = doctypeHtml then lit ['<', '!'] ++ doctypeHtml ++ [ch '>']
    else commentOpen ++ c ++ commentClose
  | .rawText c => c

def renderNodes : List HtmlNode → Str
  | [] => []
  | n :: ns => renderNode n ++ renderNodes ns

end

def render (d : HtmlDoc) : Str := renderNodes d.roots

/-! Entities. -/

section Entities

def hexDigit (c : ℤ) : ℤ :=
  if int (ch '0') ≤ c ∧ c ≤ int (ch '9') then c - int (ch '0')
  else if int (ch 'a') ≤ c ∧ c ≤ int (ch 'f') then c - int (ch 'a') + 10
  else if int (ch 'A') ≤ c ∧ c ≤ int (ch 'F') then c - int (ch 'A') + 10
  else -1

def hexLoop (v : ℤ) : Str → ℤ
  | [] => if v > 255 then -1 else v
  | c :: s => if hexDigit (int c) < 0 then -1 else hexLoop (i32 (v * 16 + hexDigit (int c))) s

def decLoop (v : ℤ) : Str → ℤ
  | [] => if v > 255 then -1 else v
  | c :: s =>
    if c < ch '0' ∨ c > ch '9' then -1 else decLoop (i32 (v * 10 + (int c - int (ch '0')))) s

/-- The code of an entity that starts with `#`, or a negative number. -/
def decodeNumericEntity : Str → ℤ
  | _ :: x :: s =>
    if x = ch 'x' ∨ x = ch 'X' then if s = [] then -1 else hexLoop 0 s else decLoop 0 (x :: s)
  | _ => -1

def entity (ent : Str) : Str :=
  let literal := ch '&' :: ent ++ [ch ';']
  if ent = lit ['a', 'm', 'p'] then [ch '&']
  else if ent = lit ['l', 't'] then [ch '<']
  else if ent = lit ['g', 't'] then [ch '>']
  else if ent = lit ['q', 'u', 'o', 't'] then [ch '"']
  else if ent = lit ['a', 'p', 'o', 's'] then [39]
  else if ent.length ≥ 2 ∧ ent.head? = some (ch '#') then
    let code := decodeNumericEntity ent
    if code ≥ 0 then [byteOf code] else literal
  else literal

/-- The loop of `_decode_entities`. So many bytes belong to the entity before. -/
def decodeFrom (skip : ℕ) : Str → Str
  | [] => []
  | c :: s =>
    if skip > 0 then decodeFrom (skip - 1) s
    else if c ≠ ch '&' then c :: decodeFrom 0 s
    else
      -- the window for the semicolon ends 12 bytes on
      match (s.take 11).findIdx? (· = ch ';') with
      | none => c :: decodeFrom 0 s
      | some k => entity (s.take k) ++ decodeFrom (k + 1) s

def decodeEntities (s : Str) : Str := decodeFrom 0 s

end Entities

/-! The scanner. -/

section Scanner

def startsWith (s pat : Str) : Bool := pat.isPrefixOf s

def lowerByte (b : UInt8) : UInt8 := if 65 ≤ b ∧ b ≤ 90 then b + 32 else b

/-- `Str.lower` -/
def lower (s : Str) : Str := s.map lowerByte

/-- `_hp_matches_ci` -/
def startsWithCi (s pat : Str) : Bool := pat.isPrefixOf (lower s)

def skipWs (s : Str) : Str := s.dropWhile Str.isBlank

def isNameEnd (c : UInt8) : Bool := Str.isBlank c || c == ch '>' || c == ch '/' || c == ch '='

def scanTagName (s : Str) : Str × Str := scanUntil (fun s => s.head?.any isNameEnd) s

def scanAttrName (s : Str) : Str × Str := scanUntil (fun s => s.head?.any isNameEnd) s

def isValueEnd (c : UInt8) : Bool := Str.isBlank c || c == ch '>' || c == ch '/'

def scanPast (c : UInt8) (s : Str) : Str × Str :=
  let x := scanUntil (fun s => s.head?.any (· == c)) s
  (x.1, x.2.drop 1)

def scanAttrValue (s : Str) : Str × Str :=
  match s with
  | q :: t =>
    if q = ch '"' ∨ q = 39 then
      let x := scanPast q t
      (decodeEntities x.1, x.2)
    else
      let x := scanUntil (fun s => s.head?.any isValueEnd) s
      (decodeEntities x.1, x.2)
  | [] => (decodeEntities [], [])

/-- The loop of `_parse_attrs`, for so many rounds. -/
def parseAttrs : ℕ → Str → Option (List Attr × Str)
  | 0, _ => none
  | rounds + 1, s =>
    let s := skipWs s
    if s.head?.all fun c => c == ch '>' || c == ch '/' then some ([], s)
    else
      let (key, s) := scanAttrName s
      if key = [] then parseAttrs rounds (s.drop 1)
      else
        let s := skipWs s
        let (val, s) := if s.head? = some (ch '=') then scanAttrValue (skipWs (s.drop 1)) else ([], s)
        (parseAttrs rounds s).map fun x => (⟨key, val⟩ :: x.1, x.2)

def parseComment (s : Str) : HtmlNode × Str :=
  let x := scanUntil (fun s => startsWith s commentClose) (s.drop 4)
  (.comment x.1, if startsWith x.2 commentClose then x.2.drop 3 else x.2)

def parseDoctype (s : Str) : HtmlNode × Str :=
  let x := scanPast (ch '>') (s.drop 2)
  (.comment (if lower x.1 = lower doctypeHtml then doctypeHtml else x.1), x.2)

def parseText (s : Str) : HtmlNode × Str :=
  let x := scanUntil (fun s => s.head?.any (· == ch '<')) s
  (.text (decodeEntities x.1), x.2)

def script : Str := lit ['s', 'c', 'r', 'i', 'p', 't']
def style : Str := lit ['s', 't', 'y', 'l', 'e']

/-- The body of a script or a style, up to its closing tag in any case of letters and behind it. -/
def scanRawUntilClose (s tag : Str) : Str × Str :=
  let close := lit ['<', '/'] ++ tag
  let x := scanUntil (fun s => startsWithCi s close) s
  (x.1, if startsWithCi x.2 close then (scanPast (ch '>') (x.2.drop close.length)).2 else x.2)

end Scanner

/-! The parser. -/

section Parser

/-- `_parse_element`, with `_parse_nodes` for its children. -/
def parseElement (children : Str → Str → Option (List HtmlNode × Str)) (rounds : ℕ) (s : Str) :
    Option (HtmlNode × Str) := do
  let (name, s) := scanTagName (s.drop 1)
  let tag := lower name
  let (attrs, s) ← parseAttrs rounds s
  let selfClosed := s.head? = some (ch '/')
  let s := if selfClosed then s.drop 1 else s
  let s := if s.head? = some (ch '>') then s.drop 1 else s
  -- a void element has no children, closed or not
  if selfClosed ∨ isVoid tag then pure (.element tag attrs [], s)
  else if tag = script ∨ tag = style then
    let (raw, s) := scanRawUntilClose s tag
    pure (.element tag attrs [.rawText raw], s)
  else do
    let (nodes, s) ← children tag s
    pure (.element tag attrs nodes, s)

def scanCloseTag (s : Str) : Str × Str :=
  let x := scanTagName (skipWs (s.drop 2))
  let s := skipWs x.2
  (lower x.1, if s.head? = some (ch '>') then s.drop 1 else s)

/-- The loop of `_parse_nodes`, for so many rounds. -/
def nodesLoop : ℕ → Str → ℕ → Str → Option (List HtmlNode × Str)
  | 0, _, _, _ => none
  | rounds + 1, close, depth, s =>
    let next (x : HtmlNode × Str) : Option (List HtmlNode × Str) :=
      (nodesLoop rounds close depth x.2).map fun y => (x.1 :: y.1, y.2)
    match s with
    | [] => some ([], [])
    | c :: t =>
      if c = ch '<' then
        if t.head? = some (ch '/') then
          let (cname, rest) := scanCloseTag s
          if close.length > 0 then
            -- a closing tag of another element is left to an ancestor
            if cname = close then some ([], rest) else some ([], s)
          else nodesLoop rounds close depth rest
        else if startsWith s commentOpen then next (parseComment s)
        else if startsWith s (lit ['<', '!']) then next (parseDoctype s)
        else do
          let x ← parseElement (fun tag s =>
            if depth + 1 > 256 then some ([], s) else nodesLoop rounds tag (depth + 1) s) rounds s
          next x
      else next (parseText s)

def parse (rounds : ℕ) (input : Str) : Option HtmlDoc :=
  (nodesLoop rounds [] 0 input).map fun x => ⟨x.1⟩

end Parser

/-! What the parts of the parser make of the parts that `render` writes. -/

section Entities

theorem decodeFrom_amp (s : Str) : decodeFrom 0 (amp ++ s) = ch '&' :: decodeFrom 0 s := rfl

theorem decodeFrom_lt (s : Str) : decodeFrom 0 (lt ++ s) = ch '<' :: decodeFrom 0 s := rfl

theorem decodeFrom_gt (s : Str) : decodeFrom 0 (gt ++ s) = ch '>' :: decodeFrom 0 s := rfl

theorem decodeFrom_quot (s : Str) : decodeFrom 0 (quot ++ s) = ch '"' :: decodeFrom 0 s := rfl

theorem decodeFrom_other {c : UInt8} (h : c ≠ ch '&') (s : Str) :
    decodeFrom 0 (c :: s) = c :: decodeFrom 0 s := by
  rw [decodeFrom, if_neg (by decide), if_pos h]

theorem decode_flatMap {e : UInt8 → Str}
    (he : ∀ c s, decodeFrom 0 (e c ++ s) = c :: decodeFrom 0 s) (s : Str) :
    decodeEntities (s.flatMap e) = s := by
  unfold decodeEntities
  induction s with
  | nil => rfl
  | cons c s ih => grind

theorem decode_escape (s : Str) : decodeEntities (escape s) = s := by
  apply decode_flatMap
  grind [decodeFrom_lt, decodeFrom_gt, decodeFrom_other, decodeFrom_amp]

theorem decode_escapeAttr (s : Str) : decodeEntities (escapeAttr s) = s := by
  apply decode_flatMap
  intro c s
  split
  · next h => rw [decodeFrom_amp, h]
  grind [decodeFrom_lt, decodeFrom_gt, decodeFrom_quot, decodeFrom_other]

theorem flatMap_ne {e : UInt8 → Str} {x : UInt8} (he : ∀ c, x ∉ e c) (s : Str) :
    ∀ b ∈ s.flatMap e, b ≠ x := by grind

theorem escape_ne_lt (s : Str) : ∀ b ∈ escape s, b ≠ ch '<' := by
  apply flatMap_ne
  intro c
  split
  · decide
  · split
    · decide
    · split
      · decide
      grind

theorem escapeAttr_ne_quote (s : Str) : ∀ b ∈ escapeAttr s, b ≠ ch '"' := by
  apply flatMap_ne
  intro c
  split
  · decide
  · split
    · decide
    · split
      · decide
      · split
        · decide
        grind

end Entities

section Names

/-- A name without blanks, `=`, `>` and `/`. -/
structure GoodName (s : Str) : Prop where
  ne_nil : s ≠ []
  no_end : ∀ b ∈ s, ¬ isNameEnd b

variable {name rest : Str}

theorem scanName_eq (h : ∀ b ∈ name, ¬ isNameEnd b) {c : UInt8} (hc : isNameEnd c) :
    scanUntil (fun s => s.head?.any isNameEnd) (name ++ c :: rest) = (name, c :: rest) :=
  scanUntil_head h (.inr ⟨c, rfl, hc⟩)

theorem skipWs_cons {c : UInt8} (h : ¬ Str.isBlank c) (s : Str) : skipWs (c :: s) = c :: s :=
  List.dropWhile_cons_of_neg h

theorem skipWs_skipWs (s : Str) : skipWs (skipWs s) = skipWs s := by
  unfold skipWs
  exact List.dropWhile_idempotent Str.isBlank s

theorem not_blank {c : UInt8} (h : ¬ isNameEnd c) : ¬ Str.isBlank c := by
  intro hc
  apply h
  unfold isNameEnd
  rw [hc]
  rfl

theorem skipWs_name (h : GoodName name) (s : Str) : skipWs (name ++ s) = name ++ s := by
  obtain ⟨c, cs, rfl⟩ := List.exists_cons_of_ne_nil h.ne_nil
  exact skipWs_cons (not_blank (h.no_end c List.mem_cons_self)) _

end Names

section Attributes

theorem parseAttrs_skipWs (rounds : ℕ) (s : Str) : parseAttrs rounds (skipWs s) = parseAttrs rounds s := by
  cases rounds with
  | zero => rfl
  | succ n => rw [parseAttrs, parseAttrs, skipWs_skipWs]

theorem scanPast_eq {c : UInt8} {s : Str} (h : ∀ b ∈ s, b ≠ c) (rest : Str) :
    scanPast c (s ++ c :: rest) = (s, rest) := by
  unfold scanPast
  rw [scanUntil_head (fun b hb => by simpa using h b hb) (.inr ⟨c, rfl, by simp⟩)]
  rfl

theorem scanAttrValue_eq (val rest : Str) :
    scanAttrValue (ch '"' :: (escapeAttr val ++ ch '"' :: rest)) = (val, rest) := by
  unfold scanAttrValue
  simp only [true_or, if_true]
  rw [scanPast_eq (escapeAttr_ne_quote val), decode_escapeAttr]

theorem parseAttrs_name {key : Str} (hkey : GoodName key) {c : UInt8} (hc : isNameEnd c)
    (rounds : ℕ) (s : Str) :
    parseAttrs (rounds + 1) (ch ' ' :: (key ++ c :: s)) =
      let x := if (skipWs (c :: s)).head? = some (ch '=') then
        scanAttrValue (skipWs ((skipWs (c :: s)).drop 1)) else ([], skipWs (c :: s))
      (parseAttrs rounds x.2).map fun y => (⟨key, x.1⟩ :: y.1, y.2) := by
  have hstart : skipWs (ch ' ' :: (key ++ c :: s)) = key ++ c :: s := skipWs_name hkey _
  have hgoes : ¬ (key ++ c :: s).head?.all fun b => b == ch '>' || b == ch '/' := by
    obtain ⟨k, ks, rfl⟩ := List.exists_cons_of_ne_nil hkey.ne_nil
    intro h
    apply hkey.no_end k List.mem_cons_self
    have hk : (k == ch '>' || k == ch '/') = true := h
    unfold isNameEnd
    grind
  have hname : scanAttrName (key ++ c :: s) = (key, c :: s) := scanName_eq hkey.no_end hc
  rw [parseAttrs, hstart]
  simp only [if_neg hgoes, hname, if_neg hkey.ne_nil]

theorem renderAttrs_head {attrs : List Attr} (h : ∀ a ∈ attrs, GoodName a.key) (rest : Str) :
    ∃ c s, attrs.flatMap renderAttr ++ ch '>' :: rest = c :: s ∧ (c = ch '>' ∨ c = ch ' ') ∧
      (skipWs (c :: s)).head? ≠ some (ch '=') := by
  cases attrs with
  | nil =>
    refine ⟨ch '>', rest, rfl, .inl rfl, ?_⟩
    rw [skipWs_cons (by decide)]
    grind
  | cons a attrs =>
    have ha := h a List.mem_cons_self
    obtain ⟨s, hs⟩ : ∃ s, (a :: attrs).flatMap renderAttr ++ ch '>' :: rest =
        ch ' ' :: (a.key ++ s) := ⟨_, by
      rw [List.flatMap_cons, renderAttr, List.cons_append, List.cons_append, List.cons_append,
        List.append_assoc, List.append_assoc]⟩
    refine ⟨ch ' ', a.key ++ s, hs, .inr rfl, ?_⟩
    have hskip : skipWs (ch ' ' :: (a.key ++ s)) = a.key ++ s := skipWs_name ha s
    obtain ⟨k, ks, hk⟩ := List.exists_cons_of_ne_nil ha.ne_nil
    have hend := ha.no_end k (by grind)
    rw [hskip, hk]
    intro heq
    obtain rfl : k = ch '=' := Option.some.inj heq
    exact hend (by decide)

theorem parseAttrs_render {attrs : List Attr} (h : ∀ a ∈ attrs, GoodName a.key) (rest : Str) :
    ∀ rounds, attrs.length < rounds →
    parseAttrs rounds (attrs.flatMap renderAttr ++ ch '>' :: rest) =
      some (attrs, ch '>' :: rest) := by
  induction attrs with
  | nil =>
    intro rounds hrounds
    obtain ⟨n, rfl⟩ : ∃ n, rounds = n + 1 := ⟨rounds - 1, by simp at hrounds; omega⟩
    rfl
  | cons a attrs ih =>
    intro rounds hrounds
    obtain ⟨n, rfl⟩ : ∃ n, rounds = n + 1 := ⟨rounds - 1, by simp at hrounds; omega⟩
    have ha := h a List.mem_cons_self
    have hattrs : ∀ a ∈ attrs, GoodName a.key := fun b hb => h b (List.mem_cons_of_mem a hb)
    have hrest := ih hattrs n (by simpa using hrounds)
    obtain ⟨c, s, hcs, hend, heq⟩ := renderAttrs_head hattrs rest
    have hc : isNameEnd c := by rcases hend with rfl | rfl <;> decide
    rw [hcs] at hrest
    rw [List.flatMap_cons, List.append_assoc, hcs]
    obtain ⟨key, val⟩ := a
    by_cases hval : val = []
    · subst hval
      have hrender : renderAttr ⟨key, []⟩ ++ c :: s = ch ' ' :: (key ++ c :: s) := by
        simp [renderAttr]
      rw [hrender, parseAttrs_name ha hc]
      simp only [if_neg heq, parseAttrs_skipWs, hrest, Option.map_some]
    · have hrender : renderAttr ⟨key, val⟩ ++ c :: s =
          ch ' ' :: (key ++ ch '=' :: (ch '"' :: (escapeAttr val ++ ch '"' :: (c :: s)))) := by
        simp [renderAttr, List.length_pos_iff.2 hval]
      have hskip : skipWs (ch '=' :: (ch '"' :: (escapeAttr val ++ ch '"' :: (c :: s)))) =
          ch '=' :: (ch '"' :: (escapeAttr val ++ ch '"' :: (c :: s))) := skipWs_cons (by decide) _
      have hquote : skipWs (ch '"' :: (escapeAttr val ++ ch '"' :: (c :: s))) =
          ch '"' :: (escapeAttr val ++ ch '"' :: (c :: s)) := skipWs_cons (by decide) _
      rw [hrender, parseAttrs_name ha (by decide), hskip]
      simp only [List.head?_cons, if_true, List.drop_one, List.tail_cons, hquote, scanAttrValue_eq,
        hrest, Option.map_some]

end Attributes

section Bodies

theorem startsWith_append (pat s : Str) : startsWith (pat ++ s) pat = true :=
  List.isPrefixOf_iff_prefix.2 (List.prefix_append pat s)

theorem parseComment_render {c : Str} (h : ¬ commentClose <:+: c) (rest : Str) :
    parseComment (commentOpen ++ c ++ commentClose ++ rest) = (.comment c, rest) := by
  have hscan := @scanUntil_pattern _ _ _ id commentClose (by decide) c
    (commentClose ++ rest) (by rwa [List.map_id]) (by
      rw [List.map_id]; grind)
  simp only [List.map_id] at hscan
  have hdrop : (commentOpen ++ c ++ commentClose ++ rest).drop 4 = c ++ (commentClose ++ rest) := by
    rw [List.append_assoc, List.append_assoc]
    rfl
  have hclose := startsWith_append commentClose rest
  unfold startsWith at hclose
  unfold parseComment startsWith
  simp only [hdrop, hscan, if_pos hclose]
  rfl

theorem parseDoctype_render (rest : Str) :
    parseDoctype (lit ['<', '!'] ++ doctypeHtml ++ ch '>' :: rest) = (.comment doctypeHtml, rest) := by
  unfold parseDoctype
  have hscan := scanPast_eq (c := ch '>') (s := doctypeHtml) (by decide +kernel) rest
  grind

theorem parseText_render (c : Str) {rest : Str} (h : rest = [] ∨ rest.head? = some (ch '<')) :
    parseText (escape c ++ rest) = (.text c, rest) := by
  unfold parseText
  rw [scanUntil_head (fun b hb => by simpa using escape_ne_lt c b hb)
    (h.imp_right fun h => ⟨ch '<', h, by simp⟩)]
  simp only [decode_escape]

theorem scanRaw_render {tag raw : Str} (htag : tag = script ∨ tag = style)
    (h : ¬ lit ['<', '/'] ++ tag <:+: lower raw) (rest : Str) :
    scanRawUntilClose (raw ++ (lit ['<', '/'] ++ tag ++ [ch '>']) ++ rest) tag = (raw, rest) := by
  have hborder : Borderless (lit ['<', '/'] ++ tag) := by
    rcases htag with rfl | rfl
    · decide
    · decide
  have hlower : lower (lit ['<', '/'] ++ tag) = lit ['<', '/'] ++ tag := by
    rcases htag with rfl | rfl
    · decide
    · decide
  have hahead : lit ['<', '/'] ++ tag <+: lower (lit ['<', '/'] ++ tag ++ ch '>' :: rest) := by
    unfold lower at hlower ⊢
    grind
  have hscan := scanUntil_pattern (f := lowerByte) hborder h hahead
  have heq : raw ++ (lit ['<', '/'] ++ tag ++ [ch '>']) ++ rest =
      raw ++ (lit ['<', '/'] ++ tag ++ ch '>' :: rest) := by simp
  unfold scanRawUntilClose startsWithCi
  unfold lower at hahead ⊢
  simp only [heq, hscan, if_pos (List.isPrefixOf_iff_prefix.2 hahead), List.drop_left]
  rw [show ch '>' :: rest = [] ++ ch '>' :: rest from rfl, scanPast_eq (by simp)]

end Bodies

end LsLang.Text.Html
