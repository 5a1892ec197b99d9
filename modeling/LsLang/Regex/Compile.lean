import LsLang.Regex.Program

/-! The regex compiler of `ls_regex.c`: a recursive descent over the pattern that emits
instructions, moves emitted bodies and rewrites their absolute operands. -/

namespace LsLang.Regex

/-- How a compile that returns no handle ends: with an error message, in a loop that does
not end, or in a write far outside the handle. -/
inductive Stop
  | error (msg : String)
  | diverges
  | undefined
  deriving DecidableEq

abbrev fail {α : Type} (msg : String) : Except Stop α := .error (.error msg)

section Emit

/-- `emit`; the index it returns is `none` for -1. -/
def emit (re : ReHandle) (ins : ReInstr) : ReHandle × Option Nat :=
  if maxInstrs - 1 ≤ re.prog.length then ({ re with refused := true }, none)
  else
    let ncap := min (if re.progCap ≠ 0 then re.progCap * 2 else 16) maxInstrs
    let cap := if re.progCap ≤ re.prog.length then ncap else re.progCap
    ({ re with prog := re.prog ++ [ins], progCap := cap }, some re.prog.length)

/-- An `emit` whose failure the caller passes on. -/
def emitOrFail (re : ReHandle) (ins : ReInstr) : Except Stop ReHandle :=
  match emit re ins with
  | (re', some _) => .ok re'
  | (_, none) => fail ""

/-- `while (ncap < need) ncap *= 2` -/
def doubleCap (need : Nat) : Nat → Nat → Nat
  | 0, ncap => ncap
  | fuel + 1, ncap => if ncap < need then doubleCap need fuel (ncap * 2) else ncap

/-- `re_prog_reserve`; `none` is -1. -/
def progReserve (re : ReHandle) (extra : Nat) : Option ReHandle :=
  let need := re.prog.length + extra
  if maxInstrs < need then none
  else if need ≤ re.progCap then some re
  else
    let ncap := doubleCap need need (if re.progCap ≠ 0 then re.progCap else 16)
    some { re with progCap := min ncap maxInstrs }

def reserveOr (msg : String) (re : ReHandle) (extra : Nat) : Except Stop ReHandle :=
  match progReserve re extra with
  | some re' => .ok re'
  | none => fail msg

/-- The operand rule of `re_fixup_pcs_after_shift` for the instruction at `i`. -/
def bumpAfterShift (oldPos shift i pc : Nat) : Nat :=
  if oldPos + shift ≤ i then if oldPos ≤ pc then pc + shift else pc
  else if oldPos < pc then pc + shift else pc

/-- `re_fixup_pcs_after_shift` over the whole program -/
def fixupAfterShift (prog : List ReInstr) (oldPos shift : Nat) : List ReInstr :=
  prog.mapIdx fun i ins =>
    if oldPos ≤ i ∧ i < oldPos + shift then ins else ins.map (bumpAfterShift oldPos shift i)

/-- The `memmove` that makes room for one instruction at `start`, with the fixup. The slot
holds a stale instruction until the caller writes it. -/
def openSlot (re : ReHandle) (start : Nat) : Except Stop ReHandle :=
  if re.progCap < re.prog.length + 1 then .error .undefined
  else
    let moved := re.prog.take start ++ .split 0 0 :: re.prog.drop start
    .ok { re with prog := fixupAfterShift moved start 1 }

/-- The `memcpy` of the body of `len` instructions at `src` to the end of the program, with
`re_fixup_pcs_after_copy`. -/
def copyBody (re : ReHandle) (src len : Nat) : Except Stop ReHandle :=
  if re.progCap < re.prog.length + len then .error .undefined
  else
    let delta := re.prog.length - src
    let body := ((re.prog.drop src).take len).map fun ins =>
      ins.map fun pc => if src ≤ pc ∧ pc ≤ src + len then pc + delta else pc
    .ok { re with prog := re.prog ++ body }

def setInstr (re : ReHandle) (i : Nat) (ins : ReInstr) : ReHandle :=
  { re with prog := re.prog.set i ins }

/-- The operands of the `SPLIT` in front of a body: the branch into it first, or last when
the quantifier is lazy. -/
def branch {α : Type} (lazy : Bool) (inside past : α) : Instr α :=
  if lazy then .split past inside else .split inside past

inductive Quantifier
  | opt | star | plus
  deriving DecidableEq

/-- `apply_quantifier` on the body from `start` to the end of the program -/
def applyQuantifier (re : ReHandle) (start : Nat) (qc : Quantifier) (lazy : Bool) :
    Except Stop ReHandle :=
  match qc with
  | .opt => do
    if maxInstrs - 3 < re.prog.length - start then fail ""
    let re ← reserveOr "" re 1
    let re ← openSlot re start
    .ok (setInstr re start (branch lazy (start + 1) re.prog.length))
  | .star => do
    let re ← reserveOr "" re 1
    let re ← openSlot re start
    let re ← emitOrFail re (.jump start)
    .ok (setInstr re start (branch lazy (start + 1) re.prog.length))
  | .plus => do
    let sp := re.prog.length
    let re ← emitOrFail re (.split 0 0)
    .ok (setInstr re sp (branch lazy start re.prog.length))

def countTooLarge : String := "\x7bn,m\x7d: pattern too large"

/-- The loop of `apply_count` that appends mandatory copies. -/
def mandatoryCopies (bodyStart bodyLen : Nat) : Nat → ReHandle → Except Stop ReHandle
  | 0, re => .ok re
  | k + 1, re => do
    if maxInstrs - 4 ≤ re.prog.length + bodyLen then fail countTooLarge
    let re ← reserveOr countTooLarge re bodyLen
    let re ← copyBody re bodyStart bodyLen
    mandatoryCopies bodyStart bodyLen k re

/-- The loop of `apply_count` that appends copies under `?`. -/
def optionalCopies (bodyStart bodyLen : Nat) (lazy : Bool) :
    Nat → ReHandle → Except Stop ReHandle
  | 0, re => .ok re
  | k + 1, re => do
    if maxInstrs - 4 ≤ re.prog.length + bodyLen + 2 then fail countTooLarge
    let re ← reserveOr countTooLarge re (bodyLen + 2)
    let optStart := re.prog.length
    let re ← copyBody re bodyStart bodyLen
    let re ← applyQuantifier re optStart .opt lazy
    optionalCopies bodyStart bodyLen lazy k re

/-- `apply_count`; the bounds are `int`s, and `nMax = -1` is no upper bound. -/
def applyCount (re : ReHandle) (bodyStart bodyEnd : Nat) (nMin nMax : Int) (lazy : Bool) :
    Except Stop ReHandle :=
  let bodyLen := bodyEnd - bodyStart
  if nMin = 0 then
    if nMax = 0 then .ok { re with prog := re.prog.take bodyStart }
    else if nMax = -1 then applyQuantifier re bodyStart .star lazy
    else do
      let re ← applyQuantifier re bodyStart .opt lazy
      optionalCopies (bodyStart + 1) bodyLen lazy (nMax - 1).toNat re
  else do
    let re ← mandatoryCopies bodyStart bodyLen (nMin - 1).toNat re
    if nMax = -1 then
      let re ← reserveOr countTooLarge re (bodyLen + 2)
      let optStart := re.prog.length
      let re ← copyBody re bodyStart bodyLen
      applyQuantifier re optStart .star lazy
    -- the body is copied from the first copy, which stays as it is
    else optionalCopies bodyStart bodyLen lazy (nMax - nMin).toNat re

end Emit

/-! What the compiler reads off the pattern, apart from what it emits. -/

section Lex

/-- The bytes from `lo` to `hi`. -/
def byteRange (lo hi : UInt8) : List UInt8 :=
  (List.range (hi.toNat + 1 - lo.toNat)).map fun k => UInt8.ofNat (lo.toNat + k)

def classEscape (esc : UInt8) : List UInt8 :=
  if esc = byte 'd' then byteRange (byte '0') (byte '9')
  else if esc = byte 'D' then asciiBytes.filter fun b => !isdigit b
  else if esc = byte 'w' then asciiBytes.filter isWordChar
  else if esc = byte 'W' then asciiBytes.filter fun b => !isWordChar b
  else if esc = byte 's' then asciiBytes.filter isSpaceChar
  else if esc = byte 'S' then asciiBytes.filter fun b => !isSpaceChar b
  else if esc = byte 'n' then [10]
  else if esc = byte 'r' then [13]
  else if esc = byte 't' then [9]
  else [esc]

/-- The loop over a range `ch-hi`; its counter is a byte, so it never passes 255. -/
def rangeBytes (ch hi : UInt8) : Except Stop (List UInt8) :=
  if hi < ch then fail "invalid character range"
  else if hi = 255 then .error .diverges
  else .ok (byteRange ch hi)

def classUnclosed : String := "unclosed character class '['"

/-- The loop of `parse_class_body`: the bytes set, in order, and the pattern behind `]`. -/
def scanClass : Bool → List UInt8 → Except Stop (List UInt8 × List UInt8)
  | _, [] => fail classUnclosed
  | first, ch :: rest =>
    -- a bracket in front is a member
    if ch = byte ']' ∧ first = false then .ok ([], rest)
    else if ch = byte '\\' then
      match rest with
      | [] => fail classUnclosed
      | esc :: rest => do
        let (bs, rest') ← scanClass false rest
        .ok (classEscape esc ++ bs, rest')
    else
      match rest with
      | dash :: hi :: rest₂ =>
        if dash = byte '-' ∧ hi ≠ byte ']' then
          if hi = byte '\\' then
            match rest₂ with
            | [] => do
              let _ ← rangeBytes ch hi
              fail classUnclosed
            -- the end of a range may be escaped, and is taken as it stands
            | esc :: rest₃ => do
              let lo ← rangeBytes ch esc
              let (bs, rest') ← scanClass false rest₃
              .ok (lo ++ bs, rest')
          else do
            let lo ← rangeBytes ch hi
            let (bs, rest') ← scanClass false rest₂
            .ok (lo ++ bs, rest')
        else do
          let (bs, rest') ← scanClass false (dash :: hi :: rest₂)
          .ok (ch :: bs, rest')
      | rest => do
        let (bs, rest') ← scanClass false rest
        .ok (ch :: bs, rest')

/-- A class body: whether it starts with `^`, the bytes set, and the pattern behind it. -/
def scanClassBody (rest : List UInt8) : Except Stop ((Bool × List UInt8) × List UInt8) := do
  match rest with
  | ch :: rest' =>
    if ch = byte '^' then
      let (bs, rest') ← scanClass true rest'
      .ok ((true, bs), rest')
    else
      let (bs, rest') ← scanClass true rest
      .ok ((false, bs), rest')
  | [] => fail classUnclosed

def hexVal (ch : UInt8) : UInt8 :=
  if byte '0' ≤ ch ∧ ch ≤ byte '9' then ch - byte '0'
  else if byte 'a' ≤ ch ∧ ch ≤ byte 'f' then ch - byte 'a' + 10
  else ch - byte 'A' + 10

/-- The instruction `parse_escape` emits, and the pattern behind the escape. -/
def scanEscape (rest : List UInt8) : Except Stop (ReInstr × List UInt8) :=
  match rest with
  | [] => fail "trailing backslash"
  | esc :: rest =>
    if esc = byte 'd' then .ok (.digit, rest)
    else if esc = byte 'D' then .ok (.ndigit, rest)
    else if esc = byte 'w' then .ok (.word, rest)
    else if esc = byte 'W' then .ok (.nword, rest)
    else if esc = byte 's' then .ok (.space, rest)
    else if esc = byte 'S' then .ok (.nspace, rest)
    else if esc = byte 'b' then .ok (.wordbnd, rest)
    else if esc = byte 'B' then .ok (.nwordbnd, rest)
    else if esc = byte 'A' then .ok (.bos, rest)
    else if esc = byte 'Z' then .ok (.eos, rest)
    else if esc = byte 'n' then .ok (.char 10, rest)
    else if esc = byte 'r' then .ok (.char 13, rest)
    else if esc = byte 't' then .ok (.char 9, rest)
    else if esc = byte 'f' then .ok (.char 12, rest)
    else if esc = byte 'v' then .ok (.char 11, rest)
    else if esc = byte 'x' then
      match rest with
      | hi :: lo :: rest =>
        if isxdigit hi ∧ isxdigit lo then .ok (.char (hexVal hi * 16 + hexVal lo), rest)
        else fail "\\xHH needs exactly two hex digits"
      | _ => fail "\\xHH needs exactly two hex digits"
    else if byte '1' ≤ esc ∧ esc ≤ byte '9' then
      fail ("backreference (\\1-\\9) is not supported: this engine never backtracks; " ++
        "capture the group and compare the text yourself")
    else .ok (.char esc, rest)

/-- The decimal digits at the front, added to `n` as an `int`. -/
def scanDigits : List UInt8 → Int → Int × List UInt8
  | [], n => (n, [])
  | ch :: rest, n =>
    if isdigit ch then scanDigits rest (i32 (n * 10 + (ch.toNat - (byte '0').toNat : Int)))
    else (n, ch :: rest)

/-- A trailing `?` makes a quantifier lazy. -/
def scanLazy : List UInt8 → Bool × List UInt8
  | ch :: rest => if ch = byte '?' then (true, rest) else (false, ch :: rest)
  | [] => (false, [])

structure Count where
  nMin : Int
  nMax : Int
  lazy : Bool

/-- The `{n}`, `{n,}` or `{n,m}` behind its brace, with the checks on the bounds. -/
def scanCount (rest : List UInt8) : Except Stop (Count × List UInt8) := do
  let (n, rest) := scanDigits rest 0
  let (comma, rest) := match rest with
    | ch :: rest' => if ch = byte ',' then (true, rest') else (false, rest)
    | [] => (false, [])
  let (m, rest) :=
    if comma then
      match rest with
      -- `{n,}` has no upper bound
      | ch :: _ => if ch = byte '}' then (-1, rest) else scanDigits rest 0
      | [] => (-1, [])
    else (0, rest)
  match rest with
  | ch :: rest =>
    if ch = byte '}' then
      let (lazy, rest) := scanLazy rest
      let m := if comma then m else n
      if m ≠ -1 ∧ 255 < m then fail "\x7bn,m\x7d: m exceeds limit 255"
      else if m ≠ -1 ∧ m < n then fail "\x7bn,m\x7d: m < n"
      else .ok (⟨n, m, lazy⟩, rest)
    else fail "invalid \x7bn,m\x7d"
  | [] => fail "invalid \x7bn,m\x7d"

/-- The name of a group and the pattern behind its `>`. -/
def scanName : List UInt8 → Except Stop (List UInt8 × List UInt8)
  | [] => fail "unclosed named group"
  | ch :: rest =>
    if ch = byte '>' then .ok ([], rest)
    else do
      let (name, rest') ← scanName rest
      .ok (ch :: name, rest')

/-- The loop over inline flags, with the `)` that ends it. -/
def scanFlags : List UInt8 → Nat → Nat × List UInt8
  | [], flags => (flags, [])
  | ch :: rest, flags =>
    if ch = byte ')' then (flags, rest)
    else if ch = byte 'i' then scanFlags rest (flags ||| 1)
    else if ch = byte 'm' then scanFlags rest (flags ||| 2)
    else if ch = byte 's' then scanFlags rest (flags ||| 4)
    else scanFlags rest flags

end Lex

/-- `Compiler`, with the unread part of the pattern in place of `pat` and `pos`. The
nesting depth is the recursion of `parseExpr`. -/
structure Compiler where
  rest : List UInt8
  re : ReHandle
  groupCounter : Nat

namespace Compiler

/-- `re_alloc_group` -/
def allocGroup (c : Compiler) : Except Stop (Nat × Compiler) :=
  if maxGroups ≤ c.groupCounter + 1 then
    fail ("too many capture groups (max 16); " ++
      "use (?:...) for grouping that does not capture")
  else .ok (c.groupCounter + 1, { c with groupCounter := c.groupCounter + 1 })

def emitOrFail (c : Compiler) (ins : ReInstr) : Except Stop Compiler := do
  let re ← Regex.emitOrFail c.re ins
  .ok { c with re := re }

/-- An `emit` whose result is ignored. -/
def emitUnchecked (c : Compiler) (ins : ReInstr) : Compiler := { c with re := (emit c.re ins).1 }

/-- The bits of a class: `memset`, the `class_set` calls, and the flip of `[^`. -/
def fillClass (re : ReHandle) (cid : Nat) (negate : Bool) (bytes : List UInt8) : ReHandle :=
  let own i := decide (cid * 128 ≤ i ∧ i < (cid + 1) * 128)
  let re := { re with classes := fun i => if own i then false else re.classes i }
  let re := bytes.foldl (fun re b => re.classSet cid b) re
  if negate then { re with classes := fun i => if own i then !re.classes i else re.classes i }
  else re

/-- `parse_class_body` and the `OP_CLASS` of its class. The count is signed, so once a byte
of class 63 has set its sign bit the check passes, and the class lies far outside. -/
def parseClass (c : Compiler) : Except Stop Compiler :=
  if maxClasses ≤ i32 c.re.nClasses then fail "too many char classes"
  else if i32 c.re.nClasses < 0 then .error .undefined
  else do
    let cid := c.re.nClasses
    let ((negate, bytes), rest) ← scanClassBody c.rest
    let re := fillClass { c.re with nClasses := cid + 1 } cid negate bytes
    { c with rest := rest, re := re }.emitOrFail (.cls cid)

/-- The entry of `named[]` for a group; only the first name lies where a class can reach. -/
def nameGroup (c : Compiler) (name : List UInt8) : Compiler :=
  if maxNamed ≤ c.re.nNamed then c
  else
    let stored := name.take (nameMaxLen - 1)
    let bits i := (stored.getD (i / 8) 0).toNat.testBit (i % 8)
    let re := { c.re with nNamed := c.re.nNamed + 1 }
    { c with re := if c.re.nNamed = 0 then { re with name0 := bits } else re }

end Compiler

section Parse

variable (expr : Compiler → Except Stop Compiler)

/-- The body of a group up to its `)`, with the `SAVE` pair of a capture group. -/
def parseGroupBody (c : Compiler) (group : Option Nat) : Except Stop Compiler := do
  let c ← match group with
    | some g => c.emitOrFail (.save (g * 2))
    | none => .ok c
  let c ← expr c
  match c.rest with
  | ch :: rest =>
    if ch = byte ')' then
      let c := { c with rest := rest }
      match group with
      | some g =>
        let c := c.emitUnchecked (.save (g * 2 + 1))
        .ok { c with re := { c.re with nGroups := max c.re.nGroups g } }
      | none => .ok c
    else fail "unclosed group '('"
  | [] => fail "unclosed group '('"

/-- `(?=...)` and `(?!...)` -/
def parseLookahead (c : Compiler) (isNeg : Bool) : Except Stop Compiler := do
  let unclosed := if isNeg then "unclosed lookahead '(?!'" else "unclosed lookahead '(?='"
  let laInstr := c.re.prog.length
  let c ← c.emitOrFail (.lookahead 0 false)
  let c ← expr c
  match c.rest with
  | ch :: rest =>
    if ch = byte ')' then
      let c := { c with rest := rest }
      let subEnd := c.re.prog.length
      let c := c.emitUnchecked .matched
      .ok { c with re := setInstr c.re laInstr (.lookahead (subEnd + 1) isNeg) }
    else fail unclosed
  | [] => fail unclosed

/-- What follows a `(`. -/
def parseGroup (c : Compiler) : Except Stop Compiler :=
  match c.rest with
  | q :: rest =>
    if q = byte '?' then
      match rest with
      | [] => fail "incomplete group flag"
      | nxt :: rest' =>
        if nxt = byte ':' then parseGroupBody expr { c with rest := rest' } none
        else if nxt = byte '<' then do
          let (name, rest'') ← scanName rest'
          let (g, c) ← { c with rest := rest'' }.allocGroup
          parseGroupBody expr (c.nameGroup name) (some g)
        else if nxt = byte '=' then parseLookahead expr { c with rest := rest' } false
        else if nxt = byte '!' then parseLookahead expr { c with rest := rest' } true
        else if nxt = byte 'i' ∨ nxt = byte 'm' ∨ nxt = byte 's' then
          let (flags, rest'') := scanFlags rest c.re.flags
          .ok { c with rest := rest'', re := { c.re with flags := flags } }
        else fail "unknown group flag"
    else do
      let (g, c) ← c.allocGroup
      parseGroupBody expr c (some g)
  | [] => do
    let (g, c) ← c.allocGroup
    parseGroupBody expr c (some g)

/-- `parse_atom` -/
def parseAtom (c : Compiler) : Except Stop Compiler :=
  match c.rest with
  | [] => .ok c
  | ch :: rest =>
    let c := { c with rest := rest }
    if ch = byte '(' then parseGroup expr c
    else if ch = byte '[' then c.parseClass
    else if ch = byte '.' then c.emitOrFail .any
    else if ch = byte '^' then c.emitOrFail .bol
    else if ch = byte '$' then c.emitOrFail .eol
    else if ch = byte '\\' then do
      let (ins, rest') ← scanEscape rest
      { c with rest := rest' }.emitOrFail ins
    else c.emitOrFail (.char ch)

/-- The quantifier of a `*`, `+` or `?`. -/
def quantifierOf (qc : UInt8) : Option Quantifier :=
  if qc = byte '*' then some .star
  else if qc = byte '+' then some .plus
  else if qc = byte '?' then some .opt
  else none

/-- `parse_piece` -/
def parsePiece (c : Compiler) : Except Stop Compiler := do
  let start := c.re.prog.length
  let c ← parseAtom expr c
  -- an atom without code takes no quantifier
  if c.re.prog.length = start then .ok c
  else
    match c.rest with
    | [] => .ok c
    | qc :: rest =>
      match quantifierOf qc with
      | some q => do
        let (lazy, rest) := scanLazy rest
        let re ← applyQuantifier c.re start q lazy
        .ok { c with rest := rest, re := re }
      | none =>
        if qc = byte '{' then do
          let bodyEnd := c.re.prog.length
          let (n, rest) ← scanCount rest
          if n.nMin = 0 ∧ n.nMax = 0 then
            .ok { c with rest := rest, re := { c.re with prog := c.re.prog.take start } }
          else
            let re ← applyCount c.re start bodyEnd n.nMin n.nMax n.lazy
            .ok { c with rest := rest, re := re }
        else .ok c

/-- `parse_concat`, with fuel for its loop. -/
def parseConcat : Nat → Compiler → Except Stop Compiler
  | fuel, c =>
    match c.rest with
    | [] => .ok c
    | ch :: _ =>
      if ch = byte ')' ∨ ch = byte '|' then .ok c
      else
        match fuel with
        | 0 => .error .diverges
        | fuel + 1 => do
          let c ← parsePiece expr c
          parseConcat fuel c

/-- The patch of one jump at the end of an alternation; index -1 lies before the program. -/
def patchJump (final : Nat) (re : ReHandle) (j : Option Nat) : ReHandle :=
  match j with
  | some i => setInstr re i (.jump final)
  | none => { re with outside := true }

/-- The loop of `parse_expr_inner` over the branches behind a `|`, with fuel. -/
def altLoop : Nat → Nat → List (Option Nat) → Compiler → Except Stop Compiler
  | fuel, altStart, patches, c =>
    match c.rest with
    | ch :: rest =>
      if ch = byte '|' then
        match fuel with
        | 0 => .error .diverges
        | fuel + 1 => do
          if 64 ≤ patches.length then fail "too many alternatives"
          let (re, j) := emit c.re (.jump 0)
          let branchStart := re.prog.length
          let re := setInstr re altStart (.split (altStart + 1) branchStart)
          let c ← parseConcat expr rest.length { c with rest := rest, re := re }
          -- a slot for the split in front of the branch, if another one follows
          if c.rest.head? = some (byte '|') then
            if maxInstrs ≤ c.re.prog.length + 1 then fail "pattern too long"
            let re ← reserveOr "pattern too long" c.re 1
            let re ← openSlot re branchStart
            altLoop fuel branchStart (patches ++ [j]) { c with re := re }
          else altLoop fuel branchStart (patches ++ [j]) c
      else .ok { c with re := patches.foldl (patchJump c.re.prog.length) c.re }
    | [] => .ok { c with re := patches.foldl (patchJump c.re.prog.length) c.re }

/-- `parse_expr_inner` -/
def parseExprInner (c : Compiler) : Except Stop Compiler := do
  let altStart := c.re.prog.length
  let c ← parseConcat expr c.rest.length c
  if c.rest.head? = some (byte '|') then
    if maxInstrs ≤ c.re.prog.length + 2 then fail "pattern too long"
    let re ← reserveOr "pattern too long" c.re 1
    let re ← openSlot re altStart
    altLoop expr c.rest.length altStart [] { c with re := re }
  else .ok c

end Parse

/-- `parse_expr`; the argument is `RE_MAX_DEPTH - depth`. -/
def parseExpr : Nat → Compiler → Except Stop Compiler
  | 0, _ => fail "regex nested too deeply"
  | d + 1, c => parseExprInner (parseExpr d) c

/-! The analyses at the end of `__ls_regex_compile`. -/

section Analysis

/-- `re_build_prefilter` -/
def literalPrefix : List ReInstr → List UInt8
  | .char c :: prog => c :: literalPrefix prog
  | _ => []

def buildPrefilter (re : ReHandle) : ReHandle :=
  let re := { re with lit := [], litIsWhole := false, hasFirstBytes := false }
  if re.ignorecase then re
  else
    -- the code starts with the save of slot 0
    let pc := if re.prog.head? = some (.save 0) then 1 else 0
    let lit := (literalPrefix (re.prog.drop pc)).take 64
    if lit ≠ [] then
      let pc := pc + lit.length
      { re with
        lit := lit
        litIsWhole := re.prog[pc]? = some (.save 1) && re.prog[pc + 1]? = some .matched }
    else
      match re.prog[pc]? with
      | some (.cls id) =>
        if (id : Int) < i32 re.nClasses then
          { re with firstBytes := fun i => re.classBit (id * 128 + i), hasFirstBytes := true }
        else re
      | _ => re

/-- `re_detect_anchor` -/
def detectAnchor (re : ReHandle) : Nat :=
  if re.prog.length < 2 then 0
  else if re.prog[0]? ≠ some (.save 0) then 0
  else
    match re.prog[1]? with
    | some Instr.bos => 1
    | some Instr.bol => if re.multiline then 2 else 1
    | _ => 0

/-- `re_consuming_first_bytes`: as `matchChar`, but no class claims a byte above 127. -/
def consumingFirstBytes (re : ReHandle) (ins : ReInstr) (ch : UInt8) : Bool :=
  match ins with
  | .cls id => decide (ch < 128 ∧ (id : Int) < i32 re.nClasses) && re.matchChar ins ch
  | .ncls id => decide (ch < 128 ∧ (id : Int) < i32 re.nClasses) && re.matchChar ins ch
  | ins => re.matchChar ins ch

/-- The variables of `re_first_set`. -/
structure FirstState where
  seen : List Nat
  out : ReFirstSet
  unsupported : Bool

def FirstState.init : FirstState := ⟨[], ⟨fun _ => false, false⟩, false⟩

/-- `re_first_set`; each call but the last marks a new address, so the fuel is the length of
the program and one. -/
def firstSet (re : ReHandle) : Nat → Nat → FirstState → FirstState
  | 0, _, st => st
  | fuel + 1, pc, st =>
    match re.prog[pc]? with
    | none => { st with unsupported := true }
    | some ins =>
      if pc ∈ st.seen then st
      else
        let st := { st with seen := pc :: st.seen }
        match ins with
        | .save _ => firstSet re fuel (pc + 1) st
        | .jump a => firstSet re fuel a st
        | .split a b => firstSet re fuel b (firstSet re fuel a st)
        | .matched => { st with out := { st.out with canMatchEmpty := true } }
        | .lookahead _ _ => { st with unsupported := true }
        | .wordbnd | .nwordbnd => { st with unsupported := true }
        | ins =>
          if ins.isAnchor then firstSet re fuel (pc + 1) st
          else
            let bytes b := st.out.bytes b || consumingFirstBytes re ins b
            { st with out := { st.out with bytes := bytes } }

def firstSetOf (re : ReHandle) (pc : Nat) : FirstState :=
  firstSet re (re.prog.length + 1) pc .init

/-- The checks of `re_is_onepass` at one `OP_SPLIT`. -/
def splitOnepass (re : ReHandle) (a b : Nat) : Bool :=
  let ra := firstSetOf re a
  let rb := firstSetOf re b
  let any (s : ReFirstSet) := allBytes.any s.bytes
  !ra.unsupported && !rb.unsupported &&
    !(allBytes.any fun ch => ra.out.bytes ch && rb.out.bytes ch) &&
    !(any ra.out && ra.out.canMatchEmpty) && !(any rb.out && rb.out.canMatchEmpty)

/-- `re_is_onepass` -/
def isOnepass (re : ReHandle) : Bool :=
  decide (0 < re.prog.length) &&
    re.prog.all fun ins =>
      match ins with
      | .lookahead _ _ | .wordbnd | .nwordbnd => false
      | .split a b => splitOnepass re a b
      | _ => true

/-- `re_build_onepass_tables`; it finds no branch unsupported that `re_is_onepass` passed. -/
def buildOnepassTables (re : ReHandle) (pc : Nat) : ReSplitInfo :=
  match re.prog[pc]? with
  | some (.split a b) => ⟨(firstSetOf re a).out, (firstSetOf re b).out⟩
  | _ => ReHandle.zero.onepassSplits pc

/-- `re_dfa_check_eligible` -/
def dfaCheckEligible (re : ReHandle) : Bool :=
  re.onepass && !re.multiline && decide (0 < re.prog.length) &&
    decide (re.prog.length ≤ reDfaMaxProg) &&
    (List.range re.prog.length).all fun pc =>
      pc == 1 || (re.prog[pc]? ≠ some .bol && re.prog[pc]? ≠ some .bos)

end Analysis

/-- `RE_DFA_UNFILLED` -/
abbrev reDfaUnfilled : Int := -2

/-- The handle at the start of `parse_expr`. -/
def compileStart (flags : Nat) : ReHandle := (emit { ReHandle.zero with flags := flags } (.save 0)).1

/-- The handle from the state at the end of `parse_expr`. -/
def compileFinish (c : Compiler) : ReHandle :=
  let re := (emit (emit c.re (.save 1)).1 .matched).1
  let re := { re with nGroups := c.groupCounter }
  let re := buildPrefilter re
  let re := { re with anchorMode := detectAnchor re }
  let re := { re with onepass := isOnepass re }
  let re := if re.onepass then { re with onepassSplits := buildOnepassTables re } else re
  let re := { re with dfaEligible := dfaCheckEligible re }
  if re.dfaEligible then { re with dfaTrans := fun _ _ => reDfaUnfilled } else re

/-- The pattern that the compiler reads ends at its first NUL. -/
abbrev cString (pattern : List UInt8) : List UInt8 := pattern.takeWhile (· ≠ 0)

/-- `__ls_regex_compile`; the pattern ends at its first NUL. -/
def compile (pattern : List UInt8) (flags : Nat) : Except Stop ReHandle := do
  let pat := pattern.takeWhile (· ≠ 0)
  let c ← parseExpr reMaxDepth ⟨pat, compileStart flags, 0⟩
  if c.rest ≠ [] then fail s!"unexpected ')' at pos {pat.length - c.rest.length}"
  .ok (compileFinish c)

end LsLang.Regex
