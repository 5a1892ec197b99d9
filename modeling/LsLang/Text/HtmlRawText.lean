import LsLang.Text.HtmlRoundTrip

/-! A document that `render` has written is read back exactly if no script and no style holds the start of its closing
tag. -/

namespace LsLang.Text.Html

open LsLang.Core LsLang.Lib

section Documents

mutual

/-- A good node, but that the body of a script or a style is any raw text. -/
def HtmlNode.Plain : HtmlNode → Prop
  | .element tag attrs children =>
    GoodTag tag ∧ (∀ a ∈ attrs, GoodName a.key) ∧
      if isVoid tag then children = []
      else if isRaw tag then ∃ raw, children = [.rawText raw]
      else PlainNodes children
  | .text c => c ≠ []
  | .comment c => ¬ commentClose <:+: c
  | .rawText _ => False

/-- Siblings, no two texts next to each other. -/
def PlainNodes : List HtmlNode → Prop
  | [] => True
  | n :: ns => n.Plain ∧ (n.isText → ¬ ns.head?.any HtmlNode.isText) ∧ PlainNodes ns

end

mutual

def HtmlNode.Unclosed : HtmlNode → Prop
  | .element tag _ children =>
    if isRaw tag then ∀ raw, children = [.rawText raw] → ¬ lit ['<', '/'] ++ tag <:+: lower raw
    else UnclosedNodes children
  | _ => True

def UnclosedNodes : List HtmlNode → Prop
  | [] => True
  | n :: ns => n.Unclosed ∧ UnclosedNodes ns

end

mutual

theorem HtmlNode.Plain.good : ∀ n : HtmlNode, n.Plain → n.Unclosed → n.Good
  | .element tag attrs children, ⟨htag, hattrs, hbody⟩, hclose => by
    refine ⟨htag, hattrs, ?_⟩
    by_cases hvoid : isVoid tag
    · rw [if_pos hvoid] at hbody ⊢
      exact hbody
    · rw [if_neg hvoid] at hbody ⊢
      rw [HtmlNode.Unclosed] at hclose
      by_cases hraw : isRaw tag
      · have hraw' : tag = script ∨ tag = style := hraw
        rw [if_pos hraw] at hbody hclose
        rw [if_pos hraw']
        obtain ⟨raw, hchildren⟩ := hbody
        exact ⟨raw, hchildren, hclose raw hchildren⟩
      · have hraw' : ¬ (tag = script ∨ tag = style) := hraw
        rw [if_neg hraw] at hbody hclose
        rw [if_neg hraw']
        exact PlainNodes.good children hbody hclose
  | .text _, h, _ => h
  | .comment _, h, _ => h
  | .rawText _, h, _ => h

theorem PlainNodes.good : ∀ ns : List HtmlNode, PlainNodes ns → UnclosedNodes ns → GoodNodes ns
  | [], _, _ => trivial
  | n :: ns, ⟨hn, htext, hns⟩, ⟨hclose, hcloses⟩ => ⟨hn.good n hclose, htext, PlainNodes.good ns hns hcloses⟩

end

end Documents

section Reread

variable {n : HtmlNode} {ns : List HtmlNode}

theorem HtmlNode.Plain.not_raw (h : n.Plain) (c : Str) : n ≠ .rawText c := by
  rintro rfl
  exact h

theorem HtmlNode.Plain.not_empty (h : n.Plain) : n ≠ .text [] := by
  rintro rfl
  exact h rfl

theorem PlainNodes.head_not_raw (h : PlainNodes ns) : ∀ n ∈ ns.head?, ∀ c, n ≠ .rawText c := by
  cases ns with
  | nil => exact fun _ hn => absurd hn (Option.not_mem_none _)
  | cons n ns =>
    rintro _ ⟨⟩
    exact h.1.not_raw

theorem scanRaw_unclosed {tag raw s : Str} (h : (scanRawUntilClose s tag).1 = raw) :
    ¬ lit ['<', '/'] ++ tag <:+: lower raw := by
  subst h
  exact scanUntil_pattern_not (f := lowerByte) (List.cons_ne_nil _ _) s

theorem andThen_some {rounds depth : ℕ} {close rest r : Str} {node : HtmlNode} {ms : List HtmlNode}
    (h : andThen rounds close depth (node, rest) = some (ms, r)) :
    ∃ ms', nodesLoop rounds close depth rest = some (ms', r) ∧ ms = node :: ms' := by
  unfold andThen at h
  obtain ⟨y, hy, heq⟩ := Option.map_eq_some_iff.1 h
  cases heq
  exact ⟨y.1, hy, rfl⟩

/-- The first raw text that holds the start of its closing tag is read back shorter. -/
theorem nodesLoop_unclosed (rounds : ℕ) : ∀ (ns : List HtmlNode) (close rest r : Str) (depth : ℕ) (ms : List HtmlNode),
    PlainNodes ns → (rest = [] ∨ rest.head? = some (ch '<')) → depth + nestingOf ns ≤ 256 →
    (renderNodes ns).length < rounds →
    nodesLoop rounds close depth (renderNodes ns ++ rest) = some (ms, r) → ns <+: ms → UnclosedNodes ns := by
  induction rounds with
  | zero => grind
  | succ n ih =>
    intro ns close rest r depth ms hplain hrest hdepth hrounds hloop hms
    cases ns with
    | nil => trivial
    | cons node ns =>
      obtain ⟨hnode, htext, hns⟩ := hplain
      have hsplit : renderNodes (node :: ns) ++ rest =
          renderNode node ++ (renderNodes ns ++ rest) := by rw [renderNodes, List.append_assoc]
      have hlen : (renderNode node).length + (renderNodes ns).length < n + 1 := by
        rwa [renderNodes, List.length_append] at hrounds
      have hdeep : nestingOf (node :: ns) = max node.nesting (nestingOf ns) := rfl
      have hpos := length_renderNode_pos hnode.not_raw hnode.not_empty
      -- what is left once the node itself is read back
      have hbehind (h : andThen n close depth (node, renderNodes ns ++ rest) = some (ms, r)) : UnclosedNodes ns := by
        obtain ⟨ms', hloop', rfl⟩ := andThen_some h
        exact ih ns close rest r depth ms' hns hrest (by omega) (by omega) hloop' (List.cons_prefix_cons.1 hms).2
      rw [hsplit] at hloop
      cases node with
      | text c =>
        obtain ⟨b, bs, hb⟩ : ∃ b bs, escape c = b :: bs := List.exists_cons_of_ne_nil (escape_ne_nil hnode)
        have hne : b ≠ ch '<' := escape_ne_lt c b (by grind)
        have hparse := parseText_render c (renderNodes_head hns.head_not_raw (htext rfl) hrest)
        refine ⟨trivial, hbehind ?_⟩
        rw [← hparse, ← hloop, renderNode, hb]
        exact (nodesLoop_text hne _).symm
      | comment c =>
        refine ⟨trivial, hbehind ?_⟩
        rw [renderNode] at hloop
        by_cases hdoc : c = doctypeHtml
        · have hparse := parseDoctype_render (renderNodes ns ++ rest)
          subst hdoc
          rw [if_pos rfl, List.append_assoc (lit ['<', '!'] ++ doctypeHtml), List.singleton_append] at hloop
          rw [← hparse]
          exact hloop
        · have hparse := parseComment_render hnode (renderNodes ns ++ rest)
          rw [if_neg hdoc] at hloop
          rw [List.append_assoc, List.append_assoc] at hparse hloop
          rw [nodesLoop_comment] at hloop
          rw [← hparse]
          exact hloop
      | rawText c => exact hnode.elim
      | element tag attrs children =>
        obtain ⟨htag, hattrs, hbody⟩ := hnode
        have hattrsLen := length_le_renderAttrs attrs
        by_cases hvoid : isVoid tag
        · rw [if_pos hvoid] at hbody
          subst hbody
          have hrender : renderNode (.element tag attrs []) ++ (renderNodes ns ++ rest) =
              ch '<' :: tag ++ attrs.flatMap renderAttr ++ ch '>' :: (renderNodes ns ++ rest) := by
            rw [renderNode]
            simp [hvoid]
          rw [renderNode] at hlen
          simp only [hvoid, if_true, List.length_append, List.length_cons, List.length_nil] at hlen
          rw [hrender, nodesLoop_tag htag.tagName hattrs (by omega), if_pos hvoid] at hloop
          refine ⟨?_, hbehind hloop⟩
          rw [HtmlNode.Unclosed, if_neg (not_raw_of_void hvoid)]
          trivial
        · rw [if_neg hvoid] at hbody
          have hrender : renderNode (.element tag attrs children) ++ (renderNodes ns ++ rest) =
              ch '<' :: tag ++ attrs.flatMap renderAttr ++ ch '>' :: (renderNodes children ++
                (lit ['<', '/'] ++ tag ++ [ch '>']) ++ (renderNodes ns ++ rest)) := by
            rw [renderNode]
            simp [hvoid]
          rw [renderNode] at hlen
          simp only [hvoid, Bool.false_eq_true, if_false, List.length_append, List.length_cons,
            List.length_nil] at hlen
          rw [hrender, nodesLoop_tag htag.tagName hattrs (by omega), if_neg hvoid] at hloop
          by_cases hraw : isRaw tag
          · rw [if_pos hraw] at hbody
            obtain ⟨raw, rfl⟩ := hbody
            have hbody' : tag = script ∨ tag = style := hraw
            have hwritten : renderNodes [.rawText raw] = raw := List.append_nil raw
            rw [if_pos hbody', hwritten] at hloop
            obtain ⟨ms', -, hcons⟩ := andThen_some hloop
            rw [hcons] at hms
            have hsame := (List.cons_prefix_cons.1 hms).1
            have hbodies := (List.cons.inj (HtmlNode.element.inj hsame).2.2).1
            have hclose := scanRaw_unclosed (HtmlNode.rawText.inj hbodies).symm
            have hscan := scanRaw_render hraw hclose (renderNodes ns ++ rest)
            rw [hscan] at hloop
            refine ⟨?_, hbehind hloop⟩
            rw [HtmlNode.Unclosed, if_pos hraw]
            rintro _ ⟨⟩
            exact hclose
          · rw [if_neg hraw] at hbody
            have hbody' : ¬ (tag = script ∨ tag = style) := hraw
            have hnest : (HtmlNode.element tag attrs children).nesting = nestingOf children + 1 := rfl
            have hassoc : renderNodes children ++ (lit ['<', '/'] ++ tag ++ [ch '>']) ++
                (renderNodes ns ++ rest) = renderNodes children ++
                (lit ['<', '/'] ++ tag ++ ch '>' :: (renderNodes ns ++ rest)) := by simp
            rw [if_neg hbody', if_neg (by omega), hassoc] at hloop
            obtain ⟨x, hx, hnext⟩ := Option.bind_eq_some_iff.1 hloop
            obtain ⟨⟨kids, s⟩, hkids, rfl⟩ := Option.map_eq_some_iff.1 hx
            obtain ⟨ms', -, hcons⟩ := andThen_some hnext
            rw [hcons] at hms
            have hsame : children = kids := by grind [List.cons_prefix_cons]
            have hclose := ih children tag (lit ['<', '/'] ++ tag ++ ch '>' :: (renderNodes ns ++ rest)) s (depth + 1)
              kids hbody (.inr rfl) (by omega) (by omega) hkids (by rw [hsame])
            obtain ⟨htidy, hname, hlast, hnorm, hbodies⟩ := (hbody.good children hclose).readable
            have hread : Readable (depth + 1) children := ⟨htidy, hlast, by omega⟩
            have hwritten := nodesLoop_written n children tag
              (lit ['<', '/'] ++ tag ++ ch '>' :: (renderNodes ns ++ rest)) (renderNodes ns ++ rest) (depth + 1) 0 hread
              (.inr ⟨hname, htag, rfl⟩) (by omega)
            rw [hnorm, hkids] at hwritten
            refine ⟨?_, hbehind ?_⟩
            · rw [HtmlNode.Unclosed, if_neg hraw]
              exact hclose
            · cases hwritten
              exact hnext

end Reread

section RoundTrip

/-- A document is read back from what is written of it, node for node, if and only if no raw text holds the start of its
closing tag. -/
theorem parse_render_iff (d : HtmlDoc) (hplain : PlainNodes d.roots) (hdepth : nestingOf d.roots < 250) :
    (∃ n, ∀ rounds ≥ n, parse rounds (render d) = some d) ↔ UnclosedNodes d.roots := by
  constructor
  · rintro ⟨n, h⟩
    have hparse := h (n + (render d).length + 1) (by omega)
    unfold parse at hparse
    obtain ⟨⟨ms, r⟩, hloop, heq⟩ := Option.map_eq_some_iff.1 hparse
    have hms : d.roots = ms := (congrArg HtmlDoc.roots heq).symm
    have hend : nodesLoop (n + (render d).length + 1) [] 0 (renderNodes d.roots ++ []) = some (ms, r) := by
      rw [List.append_nil]
      exact hloop
    refine nodesLoop_unclosed _ d.roots [] [] r 0 ms hplain (.inl rfl) (by omega) ?_ hend (by rw [hms])
    unfold render
    omega
  · intro hclose
    exact parse_render d (hplain.good d.roots hclose) hdepth

end RoundTrip

section Examples

/-- A doctype, a paragraph with an attribute, a text and a void element, and a script. -/
def page : HtmlDoc where
  roots := [.comment doctypeHtml,
    .element (lit ['p']) [⟨lit ['t', 'i', 't', 'l', 'e'], lit ['a', '"', 'b']⟩, ⟨lit ['x'], []⟩]
      [.text (lit ['a', '<', 'b', '&']), .element (lit ['b', 'r']) [] []],
    .element script [] [.rawText (lit ['a', '<', '/', 's'])]]

theorem parse_render_iff_page :
    (∃ n, ∀ rounds ≥ n, parse rounds (render page) = some page) ↔ UnclosedNodes page.roots := by
  apply parse_render_iff page
  · have hp : GoodTag (lit ['p']) := ⟨⟨by decide +kernel, by decide +kernel⟩, by decide +kernel, by decide +kernel⟩
    have hbr : GoodTag (lit ['b', 'r']) := ⟨⟨by decide +kernel, by decide +kernel⟩, by decide +kernel, by decide +kernel⟩
    have hscript : GoodTag script := ⟨⟨by decide +kernel, by decide +kernel⟩, by decide +kernel, by decide +kernel⟩
    have htitle : GoodName (lit ['t', 'i', 't', 'l', 'e']) := ⟨by decide +kernel, by decide +kernel⟩
    have hx : GoodName (lit ['x']) := ⟨by decide +kernel, by decide +kernel⟩
    have hattrs : ∀ a ∈ ([⟨lit ['t', 'i', 't', 'l', 'e'], lit ['a', '"', 'b']⟩, ⟨lit ['x'], []⟩] :
        List Attr), GoodName a.key := List.forall_mem_cons.2 ⟨htitle, List.forall_mem_singleton.2 hx⟩
    refine ⟨(by decide : ¬ commentClose <:+: doctypeHtml), by decide, ⟨hp, hattrs, ?_⟩, by decide,
      ⟨hscript, by simp, ?_⟩, by decide, trivial⟩
    · exact ⟨List.cons_ne_nil _ _, by decide, ⟨hbr, by simp, rfl⟩, by decide, trivial⟩
    · exact ⟨_, rfl⟩
  · decide

def scriptOf (raw : Str) : HtmlDoc := ⟨[.element script [] [.rawText raw]]⟩

/-- The parser takes `</scripts>` for the closing tag of a script. -/
theorem parse_render_not_prefix :
    PlainNodes (scriptOf (lit ['<', '/'] ++ script ++ lit ['s', '>'])).roots ∧
      ¬ lit ['<', '/'] ++ script ++ [ch '>'] <:+: lower (lit ['<', '/'] ++ script ++ lit ['s', '>']) ∧
      ¬ ∃ n, ∀ rounds ≥ n,
        parse rounds (render (scriptOf (lit ['<', '/'] ++ script ++ lit ['s', '>']))) =
          some (scriptOf (lit ['<', '/'] ++ script ++ lit ['s', '>'])) := by
  have hscript : GoodTag script := ⟨⟨by decide +kernel, by decide +kernel⟩, by decide +kernel, by decide +kernel⟩
  refine ⟨⟨⟨hscript, by simp, ?_⟩, by decide, trivial⟩, by decide +kernel, ?_⟩
  · exact ⟨_, rfl⟩
  rintro ⟨n, h⟩
  have hcut : parse (n + 3) (render (scriptOf (lit ['<', '/'] ++ script ++ lit ['s', '>']))) =
      some (scriptOf []) := rfl
  have heq := hcut.symm.trans (h (n + 3) (by omega))
  simp [scriptOf] at heq

end Examples

end LsLang.Text.Html
