import LsLang.Text.Csv

/-! What `parse` and `parse_header` read back of the text that `to_str` writes. -/

namespace LsLang.Text.Csv

open LsLang.Core LsLang.Undefined LsLang.Undefined.Res

/-- The options of `parse` and of `parse_header`. -/
def std (header : Bool) : CsvOpts := { CsvOpts.default with hasHeader := header }

variable {header : Bool}

/-! The defaults of both directions: `,` and `"`. -/

theorem int_eq_comma {header : Bool} (b : UInt8) : int b = (std header).delimiter ↔ b = 44 :=
  int_eq_iff b 44 (by decide)

theorem int_eq_quote {header : Bool} (b : UInt8) : int b = (std header).quote ↔ b = 34 :=
  int_eq_iff b 34 (by decide)

/-- The bytes that `_needs_quote` looks for. -/
def special (b : UInt8) : Bool := b == 44 || b == 34 || b == 10 || b == 13

theorem needsQuote_eq (f : Str) : needsQuote 44 34 f = f.any special := by
  unfold needsQuote special
  congr 1
  funext b
  have hc : (int b == 44) = (b == 44) := by
    rw [Bool.eq_iff_iff, beq_iff_eq, beq_iff_eq]
    exact @int_eq_comma false b
  have hq : (int b == 34) = (b == 34) := by
    rw [Bool.eq_iff_iff, beq_iff_eq, beq_iff_eq]
    exact @int_eq_quote false b
  rw [hc, hq]

def escape (b : UInt8) : Str := if b = 34 then [34, 34] else [b]

theorem fieldText_eq (f : Str) :
    fieldText 44 34 f = if f.any special then 34 :: f.flatMap escape ++ [34] else f := by
  have hesc : byteText 34 = escape := by
    funext b
    unfold byteText escape
    by_cases hb : b = 34
    · rw [hb]
      rfl
    · rw [if_neg hb]
      exact if_neg (mt (@int_eq_quote false b).1 hb)
  unfold fieldText
  rw [needsQuote_eq, hesc]
  rfl

/-! The turns of the loop. -/

section Turns

variable {s : State} {rest : Str}

theorem parseLoop_between {opts : CsvOpts} {b : UInt8} (hq : s.inQuotes = true) : parseLoop opts (b :: rest) s =
    if int b = opts.quote then
      if rest.head?.map int = some opts.quote then
        parseLoop opts rest.tail { s with cur := s.cur ++ [byteOf opts.quote] }
      else parseLoop opts rest { s with inQuotes := false, fieldStart := false }
    else parseLoop opts rest { s with cur := s.cur ++ [b] } := by
  cases rest with
  | nil => exact if_pos hq
  | cons c rest => exact if_pos hq

theorem parseLoop_outside {opts : CsvOpts} {b : UInt8} (hq : s.inQuotes = false) : parseLoop opts (b :: rest) s =
    if s.fieldStart ∧ int b = opts.quote then
      parseLoop opts rest { s with inQuotes := true, fieldStart := false, lineHas := true }
    else if int b = opts.delimiter then
      parseLoop opts rest { s.pushField opts with fieldStart := true, lineHas := true }
    else if b = 13 then
      if rest.head? = some 10 then parseLoop opts rest.tail (s.endLine opts)
      else parseLoop opts rest (s.endLine opts)
    else if b = 10 then parseLoop opts rest (s.endLine opts)
    else parseLoop opts rest { s with cur := s.cur ++ [b], fieldStart := false, lineHas := true } := by
  have hq' : ¬ s.inQuotes = true := by rw [hq]; decide
  cases rest with
  | nil => exact if_neg hq'
  | cons c rest => exact if_neg hq'

theorem parseLoop_double (hq : s.inQuotes = true) :
    parseLoop (std header) (34 :: 34 :: rest) s =
      parseLoop (std header) rest { s with cur := s.cur ++ [34] } := by
  have hnext : (34 :: rest : Str).head?.map int = some (std header).quote := rfl
  rw [parseLoop_between hq, if_pos ((int_eq_quote 34).2 rfl), if_pos hnext]
  rfl

theorem parseLoop_close (hq : s.inQuotes = true) (hrest : rest.head? ≠ some 34) :
    parseLoop (std header) (34 :: rest) s =
      parseLoop (std header) rest { s with inQuotes := false, fieldStart := false } := by
  have hnext : ¬ rest.head?.map int = some (std header).quote := by
    cases rest with
    | nil => exact nofun
    | cons c rest =>
      rw [List.head?_cons, Option.map_some, Option.some_inj, int_eq_quote]
      simpa using hrest
  rw [parseLoop_between hq, if_pos ((int_eq_quote 34).2 rfl), if_neg hnext]

theorem parseLoop_literal {b : UInt8} (hb : b ≠ 34) (hq : s.inQuotes = true) :
    parseLoop (std header) (b :: rest) s = parseLoop (std header) rest { s with cur := s.cur ++ [b] } := by
  rw [parseLoop_between hq, if_neg (mt (int_eq_quote b).1 hb)]

theorem parseLoop_open (hq : s.inQuotes = false) (hs : s.fieldStart = true) :
    parseLoop (std header) (34 :: rest) s =
      parseLoop (std header) rest { s with inQuotes := true, fieldStart := false, lineHas := true } := by
  rw [parseLoop_outside hq, if_pos ⟨hs, (int_eq_quote 34).2 rfl⟩]

theorem not_open {b : UInt8} (hb : b ≠ 34) :
    ¬(s.fieldStart = true ∧ int b = (std header).quote) :=
  fun h => hb ((int_eq_quote b).1 h.2)

theorem parseLoop_comma (hq : s.inQuotes = false) :
    parseLoop (std header) (44 :: rest) s =
      parseLoop (std header) rest { s.pushField (std header) with fieldStart := true, lineHas := true } := by
  rw [parseLoop_outside hq, if_neg (not_open (by decide)), if_pos ((int_eq_comma 44).2 rfl)]

theorem parseLoop_crlf (hq : s.inQuotes = false) :
    parseLoop (std header) (13 :: 10 :: rest) s = parseLoop (std header) rest (s.endLine (std header)) := by
  have hnext : (10 :: rest : Str).head? = some 10 := rfl
  rw [parseLoop_outside hq, if_neg (not_open (by decide)),
    if_neg (mt (int_eq_comma 13).1 (by decide)), if_pos rfl, if_pos hnext]
  rfl

theorem parseLoop_byte {b : UInt8} (hb : special b = false) (hq : s.inQuotes = false) :
    parseLoop (std header) (b :: rest) s =
      parseLoop (std header) rest
        { s with cur := s.cur ++ [b], fieldStart := false, lineHas := true } := by
  obtain ⟨hcomma, hquote, hlf, hcr⟩ : b ≠ 44 ∧ b ≠ 34 ∧ b ≠ 10 ∧ b ≠ 13 := by
    simpa [special, not_or, and_assoc] using hb
  rw [parseLoop_outside hq, if_neg (not_open hquote), if_neg (mt (int_eq_comma b).1 hcomma),
    if_neg hcr, if_neg hlf]

end Turns

/-! The loop over one field, one row and all rows. -/

variable {s : State} {rest : Str}

theorem parseLoop_quoted (f : Str) (hq : s.inQuotes = true) (hrest : rest.head? ≠ some 34) :
    parseLoop (std header) (f.flatMap escape ++ 34 :: rest) s =
      parseLoop (std header) rest
        { s with cur := s.cur ++ f, inQuotes := false, fieldStart := false } := by
  induction f generalizing s with
  | nil => simpa using parseLoop_close hq hrest
  | cons b f ih =>
    have ih' := ih (s := { s with cur := s.cur ++ [b] }) hq
    rw [List.flatMap_cons, List.append_assoc]
    unfold escape at ih' ⊢
    by_cases hb : b = 34
    · subst hb
      rw [if_pos rfl]
      simp only [List.cons_append, List.nil_append]
      rw [parseLoop_double hq, ih']
      simp
    · rw [if_neg hb]
      simp only [List.cons_append, List.nil_append]
      rw [parseLoop_literal hb hq, ih']
      simp

theorem parseLoop_plain (f : Str) (hf : f.any special = false) (hq : s.inQuotes = false) :
    parseLoop (std header) (f ++ rest) s =
      parseLoop (std header) rest
        { s with cur := s.cur ++ f, fieldStart := s.fieldStart && f.isEmpty,
                 lineHas := s.lineHas || !f.isEmpty } := by
  induction f generalizing s with
  | nil => simp
  | cons b f ih =>
    grind [List.cons_append, parseLoop_byte, List.any_cons, Bool.or_eq_false_iff]

def fieldState (records : List (List Str)) (row : List Str) (lineHas : Bool) : State :=
  ⟨records, row, [], false, true, lineHas⟩

theorem parseLoop_field (f : Str) (records : List (List Str)) (row : List Str) (lineHas : Bool)
    (hrest : rest.head? ≠ some 34) :
    parseLoop (std header) (fieldText 44 34 f ++ rest) (fieldState records row lineHas) =
      parseLoop (std header) rest
        ⟨records, row, f, false, f.isEmpty, lineHas || !f.isEmpty⟩ := by
  rw [fieldText_eq]
  split
  · rename_i hf
    have hne : f.isEmpty = false := by cases f <;> simp_all
    have happ : 34 :: f.flatMap escape ++ [34] ++ rest = 34 :: (f.flatMap escape ++ 34 :: rest) := by
      simp
    rw [happ, parseLoop_open rfl rfl, parseLoop_quoted f rfl hrest]
    simp [fieldState, hne]
  · rename_i hf
    rw [parseLoop_plain f (by simpa using hf) rfl]
    simp [fieldState]

def kept (row : List Str) : Bool := row ≠ [] && row ≠ [[]]

theorem parseLoop_fields (f : Str) (fs : List Str) (records : List (List Str)) (row : List Str)
    (lineHas : Bool) (hrow : row ≠ [] → lineHas = true) :
    parseLoop (std header) (fieldsText 44 34 (f :: fs) ++ 13 :: 10 :: rest)
        (fieldState records row lineHas) =
      parseLoop (std header) rest
        (fieldState (records ++ if lineHas || kept (f :: fs) then [row ++ f :: fs] else [])
          [] false) := by
  induction fs generalizing f row lineHas with
  | nil =>
    rw [fieldsText, parseLoop_field _ _ _ _ (by simp)]
    rw [parseLoop_crlf rfl]
    cases f with
    | nil =>
      cases lineHas with
      | true => simp [State.endLine, State.pushField, std, CsvOpts.default, fieldState, kept]
      | false =>
        have hnil : row = [] := by grind
        simp [State.endLine, fieldState, kept, hnil]
    | cons b f => simp [State.endLine, State.pushField, std, CsvOpts.default, fieldState, kept]
  | cons g fs ih =>
    have happ : fieldsText 44 34 (f :: g :: fs) ++ 13 :: 10 :: rest =
        fieldText 44 34 f ++ 44 :: (fieldsText 44 34 (g :: fs) ++ 13 :: 10 :: rest) := by
      rw [fieldsText.eq_def]
      simp [byteOf]
    have hnext := ih g (row ++ [f]) true fun _ => rfl
    rw [happ, parseLoop_field _ _ _ _ (by simp), parseLoop_comma rfl]
    simpa [kept, State.pushField, std, CsvOpts.default, fieldState] using hnext

theorem parseLoop_row (row : List Str) (records : List (List Str)) :
    parseLoop (std header) (rowText 44 34 row ++ rest) (fieldState records [] false) =
      parseLoop (std header) rest
        (fieldState (records ++ if kept row then [row] else []) [] false) := by
  unfold rowText
  rw [List.append_assoc]
  cases row with
  | nil =>
    rw [fieldsText]
    simp only [List.nil_append, List.cons_append]
    rw [parseLoop_crlf rfl]
    simp [fieldState, State.endLine, kept]
  | cons f fs => simpa using parseLoop_fields f fs records [] false (by simp)

theorem parseLoop_rows (rows records : List (List Str)) :
    parseLoop (std header) (rows.flatMap (rowText 44 34)) (fieldState records [] false) =
      fieldState (records ++ rows.filter kept) [] false := by
  induction rows generalizing records with
  | nil => simp [parseLoop]
  | cons row rows ih =>
    rw [List.flatMap_cons, parseLoop_row, ih, List.filter_cons]
    split <;> simp

/-! A byte order mark in front of the first field is dropped, as one in front of the text is. -/

def Marked (records : List (List Str)) : Prop :=
  ∃ f fs rows, records = ((bom ++ f) :: fs) :: rows ∧ needsQuote 44 34 f = false

theorem needsQuote_bom (f : Str) : needsQuote 44 34 (bom ++ f) = needsQuote 44 34 f := by
  rw [needsQuote_eq, needsQuote_eq, List.any_append]
  rfl

theorem rowText_cons (f : Str) (fs : List Str) :
    ∃ more, rowText 44 34 (f :: fs) = fieldText 44 34 f ++ more ∧
      (more.head? = some 44 ∨ more.head? = some 13) ∧
      ∀ g, rowText 44 34 (g :: fs) = fieldText 44 34 g ++ more := by
  unfold rowText
  cases fs with
  | nil => exact ⟨[13, 10], rfl, .inr rfl, fun g => rfl⟩
  | cons g fs =>
    refine ⟨44 :: (fieldsText 44 34 (g :: fs) ++ [13, 10]), ?_, .inl rfl, fun g' => ?_⟩ <;>
    · rw [fieldsText.eq_def]
      simp [byteOf]

theorem bom_of_field {f more : Str} (hm : more.head? = some 44 ∨ more.head? = some 13)
    (h : (f ++ more).take 3 = bom) : ∃ g, f = bom ++ g := by
  have hhead : ∀ b more', more = b :: more' → b = 44 ∨ b = 13 := by grind
  match f, more, h with
  | [], [], h => nomatch h
  | [], b :: more', h =>
    have hb := hhead b more' rfl
    simp only [List.nil_append, List.take_succ_cons, bom, List.cons.injEq] at h
    grind
  | [x], [], h => simp [bom] at h
  | [x], b :: more', h =>
    have hb := hhead b more' rfl
    simp only [List.cons_append, List.nil_append, List.take_succ_cons, bom, List.cons.injEq] at h
    grind
  | [x, y], [], h => simp [bom] at h
  | [x, y], b :: more', h =>
    have hb := hhead b more' rfl
    simp only [List.cons_append, List.nil_append, List.take_succ_cons, bom, List.cons.injEq] at h
    grind
  | x :: y :: z :: g, more, h =>
    refine ⟨g, ?_⟩
    grind

theorem dropMark (records : List (List Str)) :
    let text := records.flatMap (rowText 44 34)
    (¬ Marked records ∧ text.take 3 ≠ bom) ∨
      ∃ f fs rows, records = ((bom ++ f) :: fs) :: rows ∧ text.take 3 = bom ∧ Marked records ∧
        text.drop 3 = ((f :: fs) :: rows).flatMap (rowText 44 34) := by
  intro text
  by_cases hmark : Marked records
  · right
    obtain ⟨f, fs, rows, hrec, hf⟩ := id hmark
    obtain ⟨more, hrow, _, hany⟩ := rowText_cons (bom ++ f) fs
    -- a field that is not quoted is written as it is, with the mark and without
    have hplain : fieldText 44 34 (bom ++ f) = bom ++ f := by
      unfold fieldText
      rw [needsQuote_bom, hf]
      rfl
    have hfield : fieldText 44 34 f = f := by
      unfold fieldText
      rw [hf]
      rfl
    have htext : text = bom ++ ((f :: fs) :: rows).flatMap (rowText 44 34) := by grind
    exact ⟨f, fs, rows, hrec, by rw [htext]; rfl, hmark, by rw [htext]; rfl⟩
  · left
    refine ⟨hmark, fun htake => hmark ?_⟩
    cases records with
    | nil => nomatch htake
    | cons row rows =>
      have htext : text = rowText 44 34 row ++ rows.flatMap (rowText 44 34) := by grind
      rw [htext] at htake
      cases row with
      | nil => nomatch htake
      | cons f fs =>
        obtain ⟨more, hrow, hm, _⟩ := rowText_cons f fs
        rw [hrow, List.append_assoc] at htake
        unfold fieldText at htake
        -- a quoted field starts with the quote, which is not the mark's first byte
        by_cases hq : needsQuote 44 34 f = true
        · rw [if_pos hq] at htake
          simp only [List.cons_append, List.take_succ_cons, bom, List.cons.injEq] at htake
          exact absurd htake.1 (by decide)
        · rw [if_neg hq] at htake
          have hm' : (more ++ rows.flatMap (rowText 44 34)).head? = some 44 ∨
              (more ++ rows.flatMap (rowText 44 34)).head? = some 13 := by
            cases more <;> simp_all
          obtain ⟨g, rfl⟩ := bom_of_field hm' htake
          rw [needsQuote_bom] at hq
          exact ⟨g, fs, rows, rfl, by simpa using hq⟩

/-- The records that the reader finds in the text of `records`. -/
def readRecords (text : Str) : List (List Str) :=
  (parseLoop (std false) (if text.take 3 = bom then text.drop 3 else text)
    (fieldState [] [] false)).records

theorem readRecords_eq_iff (records : List (List Str)) :
    readRecords (records.flatMap (rowText 44 34)) = records ↔
      (∀ row ∈ records, kept row = true) ∧ ¬ Marked records := by
  unfold readRecords
  rcases dropMark records with ⟨hmark, htake⟩ | ⟨f, fs, rows, hrec, htake, hmark, hdrop⟩
  · rw [if_neg htake, parseLoop_rows]
    simp [fieldState, List.filter_eq_self, hmark]
  · rw [if_pos htake, hdrop, parseLoop_rows]
    simp only [hmark, not_true_eq_false, and_false, iff_false]
    intro heq
    have heq' : ((f :: fs) :: rows).filter kept = ((bom ++ f) :: fs) :: rows := by
      rw [← hrec, ← heq]
      rfl
    have hlen := congrArg List.length heq'
    have hall : ((f :: fs) :: rows).filter kept = (f :: fs) :: rows :=
      List.filter_sublist.eq_of_length hlen
    rw [hall] at heq'
    simp only [List.cons.injEq, and_true] at heq'
    have hlong := congrArg List.length heq'
    simp only [bom, List.length_append, List.length_cons, List.length_nil] at hlong
    omega

/-- `parse`, or `parse_header` where the table has headers, of the text of the table. -/
def readBack (t : Csv) : Res (Except String Csv) := do
  let text ← t.toStr
  .ok (if 0 < t.headers.length then parseHeader text else parse text)

/-- A table that survives: no row has just one field and that one empty, nor no field at all,
and the text does not start with a byte order mark that belongs to the first field. -/
def Plain (t : Csv) : Prop := (∀ row ∈ t.records, kept row = true) ∧ ¬ Marked t.records

theorem parseLoop_text (header : Bool) (rs : List (List Str)) :
    let text := rs.flatMap (rowText 44 34)
    parseLoop (std header) (if text.take 3 = bom then text.drop 3 else text)
        (fieldState [] [] false) = fieldState (readRecords text) [] false := by
  intro text
  unfold readRecords
  rcases dropMark rs with ⟨_, htake⟩ | ⟨f, fs, rows, _, htake, _, hdrop⟩
  · rw [if_neg htake, parseLoop_rows, parseLoop_rows]
    rfl
  · rw [if_pos htake, hdrop, parseLoop_rows, parseLoop_rows]
    rfl

theorem parse_text (t : Csv) : parse t.text = .ok ⟨[], readRecords t.text⟩ := by
  have hloop := parseLoop_text false t.records
  show parseOpts t.text (std false) = _
  unfold parseOpts
  unfold fieldState at hloop
  dsimp only at hloop ⊢
  rw [text, hloop]
  rfl

theorem parseHeader_text (t : Csv) : parseHeader t.text =
    match readRecords t.text with
    | [] => .ok ⟨[], []⟩
    | headers :: rows => .ok ⟨headers, rows⟩ := by
  have hloop := parseLoop_text true t.records
  show parseOpts t.text (std true) = _
  unfold parseOpts
  unfold fieldState at hloop
  dsimp only at hloop ⊢
  rw [text, hloop]
  rfl

theorem read_text_iff (t : Csv) :
    (if 0 < t.headers.length then parseHeader t.text else parse t.text) = .ok t ↔ t.Plain := by
  have hrecords : readRecords t.text = t.records ↔ t.Plain := readRecords_eq_iff t.records
  rw [← hrecords]
  unfold records
  obtain ⟨headers, rows⟩ := t
  cases headers with
  | nil =>
    rw [if_neg (by simp), if_neg (by simp), parse_text]
    simp
  | cons h hs =>
    rw [if_pos (by simp), if_pos (by simp), parseHeader_text]
    split
    · rename_i hnil
      simp [hnil]
    · rename_i hcons
      simp [hcons]

/-- The text returns if a `Str` holds it, and then the reader is asked for it. -/
theorem readBack_exactly (t : Csv) : Exactly t.readBack (t.length ≤ 2 ^ 30)
    (· = if 0 < t.headers.length then parseHeader t.text else parse t.text) := by
  rw [← length_text]
  have hread := t.toStr_exactly.bind (d := True) fun text htext =>
    Exactly.of_eq (congrArg (fun s => ok (if 0 < t.headers.length then parseHeader s else parse s)) htext)
  exact hread.congr (and_iff_left trivial)

/-- Writing and reading back is the identity exactly on the plain tables that a `Str` holds. -/
theorem readBack_eq_iff (t : Csv) : t.readBack = .ok (.ok t) ↔ t.Plain ∧ t.length ≤ 2 ^ 30 := by
  constructor
  · intro h
    exact ⟨(read_text_iff t).1 (t.readBack_exactly.result h).symm, t.readBack_exactly.only _ h⟩
  · rintro ⟨hplain, hlen⟩
    obtain ⟨r, hr, rfl⟩ := t.readBack_exactly.returns hlen
    rw [hr, (read_text_iff t).2 hplain]

/-- A field of `n` quotes. -/
def quotes (n : Nat) : Csv := ⟨[], [[List.replicate n 34]]⟩

theorem length_quotes (n : Nat) : (quotes (n + 1)).length = 2 * n + 6 := by
  have hneeds : needsQuote 44 34 (List.replicate (n + 1) 34) = true := by
    rw [needsQuote_eq, List.replicate_succ]
    rfl
  have hcount : (List.replicate (n + 1) (34 : UInt8)).countP (int · == 34) = n + 1 := by
    rw [List.countP_replicate]
    rfl
  have hfield : fieldLength 44 34 (List.replicate (n + 1) 34) = 2 * n + 4 := by
    rw [fieldLength, if_pos hneeds, hcount, List.length_replicate]
    omega
  have hlen : (quotes (n + 1)).length = fieldLength 44 34 (List.replicate (n + 1) 34) + 2 := rfl
  rw [hlen, hfield]

theorem plain_quotes (n : Nat) : (quotes (n + 1)).Plain := by
  have hrecords : (quotes (n + 1)).records = [[List.replicate (n + 1) 34]] := rfl
  refine ⟨fun row hrow => ?_, ?_⟩
  · rw [hrecords, List.mem_singleton] at hrow
    rw [hrow, List.replicate_succ]
    rfl
  · rintro ⟨f, fs, rows, heq, -⟩
    rw [hrecords, List.replicate_succ] at heq
    have hfield := (List.cons.inj (List.cons.inj heq).1).1
    have hbyte := (List.cons.inj hfield).1
    exact absurd hbyte (by decide)

/-- A row of one empty field is written as a blank line, and the reader skips it; a field of so many quotes is not
written. -/
theorem readBack_blank : (¬ ∀ t : Csv, t.headers = [] → (∀ row ∈ t.rows, row ≠ []) → t.readBack = .ok (.ok t)) ∧
    (quotes (2 ^ 29 + 1)).Plain ∧ ∀ r, (quotes (2 ^ 29 + 1)).readBack ≠ .ok r := by
  refine ⟨fun h => ?_, plain_quotes _, fun r hr => ?_⟩
  · have hblank := (readBack_exactly _).result (h ⟨[], [[[]]]⟩ rfl (by simp))
    cases hblank
  · have hlen := (readBack_exactly _).only r hr
    rw [length_quotes] at hlen
    omega

end LsLang.Text.Csv
