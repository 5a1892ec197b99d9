import LsLang.Core.Cursor

/-! The tokens of the language, and the table of its keywords. -/

namespace LsLang.Scan

open LsLang.Core

/-- `TOKEN_INT_LIT` to `TOKEN_ERROR`, in the order of `token.h`. -/
inductive TokenType
  | intLit | floatLit | stringLit | rawstringLit | rawstring3Lit | charLit
  | true | false | nil
  | fn | return | if | else | while | for | in | match | struct | enum | impl | moduleKw | importKw
  | load | self | static | do | endKw | break | continue | externKw | as | from | pub | new | try
  | typeAlias | block | trait | comptime
  | atTime | atBench | atPrint | atIntrinsic | at
  | typeInt | typeI8 | typeI16 | typeI32 | typeI64 | typeU8 | typeU16 | typeU32 | typeU64
  | typeF32 | typeF64 | typeF16 | typeBf16 | typeBool | typeChar | typeVoid | typeLib | typeObject
  | array | simd
  | identifier
  | plus | minus | star | slash | percent | amp | pipe | caret | tilde | lshift | rshift
  | and | or | bang | eq | neq | lt | gt | leq | geq
  | assign | plusAssign | minusAssign | starAssign | slashAssign
  | lparen | rparen | lbrace | rbrace | lbracket | rbracket | semicolon | colon | comma | dot
  | arrow | fatArrow | underscore | dotdot | ellipsis
  | fstringStart | fstringText | fstringSpec | fstringEnd
  | eof | error
  deriving DecidableEq

/-- `start` points into the source or, for an error, at the message. -/
structure Token where
  type : TokenType
  start : Cursor
  length : Int
  line : Nat
  column : Nat
  deriving DecidableEq

/-- `strncmp` of the first `n` bytes, where all of the `n` bytes of the first argument are given
and none of them is NUL. -/
def strncmp : Str → Str → Ordering
  | [], _ => .eq
  | _ :: _, [] => .gt
  | a :: s, b :: t => if a = b then strncmp s t else compare a b

/-- `keywords` -/
def keywords : List (Str × TokenType) := [
  (lit ['B', 'l', 'o', 'c', 'k'], .block),
  (lit ['S', 'i', 'm', 'd'], .simd),
  (lit ['a', 'r', 'r', 'a', 'y'], .array),
  (lit ['a', 's'], .as),
  (lit ['b', 'f', '1', '6'], .typeBf16),
  (lit ['b', 'o', 'o', 'l'], .typeBool),
  (lit ['b', 'r', 'e', 'a', 'k'], .break),
  (lit ['c', 'h', 'a', 'r'], .typeChar),
  (lit ['c', 'o', 'm', 'p', 't', 'i', 'm', 'e'], .comptime),
  (lit ['c', 'o', 'n', 't', 'i', 'n', 'u', 'e'], .continue),
  (lit ['d', 'e', 'f'], .fn),
  (lit ['d', 'o'], .do),
  (lit ['e', 'l', 's', 'e'], .else),
  (lit ['e', 'n', 'd'], .endKw),
  (lit ['e', 'n', 'u', 'm'], .enum),
  (lit ['e', 'x', 't', 'e', 'r', 'n'], .externKw),
  (lit ['f', '1', '6'], .typeF16),
  (lit ['f', '3', '2'], .typeF32),
  (lit ['f', '6', '4'], .typeF64),
  (lit ['f', 'a', 'l', 's', 'e'], .false),
  (lit ['f', 'o', 'r'], .for),
  (lit ['f', 'r', 'o', 'm'], .from),
  (lit ['i', '1', '6'], .typeI16),
  (lit ['i', '3', '2'], .typeI32),
  (lit ['i', '6', '4'], .typeI64),
  (lit ['i', '8'], .typeI8),
  (lit ['i', 'f'], .if),
  (lit ['i', 'm', 'p', 'o', 'r', 't'], .importKw),
  (lit ['i', 'n'], .in),
  (lit ['i', 'n', 't'], .typeInt),
  (lit ['i', 'n', 't', 'e', 'r', 'f', 'a', 'c', 'e'], .trait),
  (lit ['l', 'i', 'b'], .typeLib),
  (lit ['l', 'o', 'a', 'd'], .load),
  (lit ['m', 'a', 't', 'c', 'h'], .match),
  (lit ['m', 'e', 't', 'h', 'o', 'd', 's'], .impl),
  (lit ['m', 'o', 'd', 'u', 'l', 'e'], .moduleKw),
  (lit ['n', 'e', 'w'], .new),
  (lit ['n', 'i', 'l'], .nil),
  (lit ['o', 'b', 'j', 'e', 'c', 't'], .typeObject),
  (lit ['p', 'u', 'b', 'l', 'i', 'c'], .pub),
  (lit ['r', 'e', 't', 'u', 'r', 'n'], .return),
  (lit ['s', 'e', 'l', 'f'], .self),
  (lit ['s', 't', 'a', 't', 'i', 'c'], .static),
  (lit ['s', 't', 'r', 'u', 'c', 't'], .struct),
  (lit ['t', 'r', 'u', 'e'], .true),
  (lit ['t', 'r', 'y'], .try),
  (lit ['t', 'y', 'p', 'e'], .typeAlias),
  (lit ['u', '1', '6'], .typeU16),
  (lit ['u', '3', '2'], .typeU32),
  (lit ['u', '6', '4'], .typeU64),
  (lit ['u', '8'], .typeU8),
  (lit ['v', 'o', 'i', 'd'], .typeVoid),
  (lit ['w', 'h', 'i', 'l', 'e'], .while)]

/-- The binary search of `check_keyword` on the entries from `lo` up to, not including, `hi`. -/
def keywordLoop (word : Str) : Nat → Nat → Nat → TokenType
  | 0, _, _ => .identifier
  | n + 1, lo, hi =>
    if hi ≤ lo then .identifier
    else
      -- `(lo + hi) / 2` for the last index `hi - 1`
      let mid := (lo + (hi - 1)) / 2
      match keywords[mid]? with
      | none => .identifier
      | some (name, type) =>
        match strncmp word name with
        | .eq =>
          if word.length < name.length then keywordLoop word n lo mid
          else if name.length < word.length then keywordLoop word n (mid + 1) hi
          else type
        | .lt => keywordLoop word n lo mid
        | .gt => keywordLoop word n (mid + 1) hi

/-- `check_keyword` -/
def checkKeyword (word : Str) : TokenType := keywordLoop word keywords.length 0 keywords.length

/-! The scanner of `scanner.c`: source text to tokens, one call at a time. -/

/-- A NUL-terminated text, without its terminator. -/
structure Source where
  bytes : Str
  noNul : 0 ∉ bytes

/-- A frame of `cond_stack`. -/
structure CondFrame where
  active : Bool
  parentActive : Bool
  branchTaken : Bool
  deriving DecidableEq

/-- The part of the `Scanner` struct that tokens are made with. Behind the terminating NUL the
text is read as if more NULs followed. -/
structure Lexer where
  start : Cursor
  current : Cursor
  line : Nat
  column : Nat
  startColumn : Nat
  inFstring : Bool
  fstringBraceDepth : Nat
  deriving DecidableEq

/-- `condStack` holds the frames below `cond_depth`, the innermost first. -/
structure Scanner extends Lexer where
  condStack : List CondFrame
  deriving DecidableEq

/-! The classes of `ctype.h`. -/

def isDigit (c : UInt8) : Bool := ch '0' ≤ c && c ≤ ch '9'

def isAlpha (c : UInt8) : Bool := (ch 'a' ≤ c && c ≤ ch 'z') || (ch 'A' ≤ c && c ≤ ch 'Z')

def isAlnum (c : UInt8) : Bool := isAlpha c || isDigit c

def isXdigit (c : UInt8) : Bool :=
  isDigit c || (ch 'a' ≤ c && c ≤ ch 'f') || (ch 'A' ≤ c && c ≤ ch 'F')

/-- `isalnum(c) || c == '_'` -/
def isWord (c : UInt8) : Bool := isAlnum c || c == ch '_'

def msg (s : String) : Str := lit s.toList

namespace Lexer

section Helpers

variable (s : Lexer)

/-- `s->current[n]` -/
def peekAt (n : Nat) : UInt8 := (s.current.rest[n]?).getD 0

def peek : UInt8 := s.peekAt 0

def isAtEnd : Bool := s.peek == 0

def peekNext : UInt8 := if s.isAtEnd then 0 else s.peekAt 1

/-- `advance`, `n` times. -/
def advance (n : Nat) : Lexer :=
  { s with current := s.current.advance n, column := s.column + n }

/-- `s->line++; s->current++; s->column = 1;` -/
def newline : Lexer :=
  { s with line := s.line + 1, current := s.current.advance 1, column := 1 }

/-- What `match` returns; it advances when it is true. -/
def matches? (expected : UInt8) : Bool := !s.isAtEnd && s.peek == expected

/-- The bytes from `start` up to `current`. -/
def lexeme : Str := s.start.rest.take (s.current.pos - s.start.pos)

def makeToken (type : TokenType) : Token :=
  ⟨type, s.start, i32 (s.current.pos - s.start.pos), s.line, s.startColumn⟩

def errorToken (message : String) : Token :=
  ⟨.error, ⟨msg message, 0⟩, i32 (msg message).length, s.line, s.startColumn⟩

def token (type : TokenType) : Token × Lexer := (s.makeToken type, s)

def fail (message : String) : Token × Lexer := (s.errorToken message, s)

end Helpers

/-- `while (!is_at_end(s) && p(peek(s))) advance(s);` on the text that is left. -/
def advanceLoop (p : UInt8 → Bool) : Str → Lexer → Lexer
  | [], s => s
  | c :: r, s => if p c then advanceLoop p r (s.advance 1) else s

def advanceWhile (p : UInt8 → Bool) (s : Lexer) : Lexer := advanceLoop p s.current.rest s

/-! Whitespace and comments. Each loop reads the text that is left. -/

mutual

/-- The loop of `skip_whitespace`. -/
def skipLoop : Str → Lexer → Bool × Lexer
  | [], s => (true, s)
  | c :: r, s =>
    if c = ch ' ' ∨ c = ch '\t' ∨ c = ch '\r' then skipLoop r (s.advance 1)
    else if c = ch '\n' then skipLoop r s.newline
    else if c = ch '/' then
      match r with
      | [] => (true, s)
      | d :: r' =>
        if d = ch '/' then lineLoop r' (s.advance 2)
        else if d = ch '*' then blockLoop 0 r' (s.advance 2)
        else (true, s)
    else (true, s)

def lineLoop : Str → Lexer → Bool × Lexer
  | [], s => (true, s)
  | c :: r, s => if c = ch '\n' then skipLoop r s.newline else lineLoop r (s.advance 1)

/-- In a multi-line comment that is nested in `n` others: `depth` is `n + 1`. -/
def blockLoop : Nat → Str → Lexer → Bool × Lexer
  | _, [], s => (false, s)
  | n, c :: r, s =>
    if c = ch '/' ∧ r.head? = some (ch '*') then
      match r with
      | [] => (false, s.advance 1)
      | _ :: r' => blockLoop (n + 1) r' (s.advance 2)
    else if c = ch '*' ∧ r.head? = some (ch '/') then
      match n, r with
      | _, [] => (false, s.advance 1)
      | 0, _ :: r' => skipLoop r' (s.advance 2)
      | n + 1, _ :: r' => blockLoop n r' (s.advance 2)
    else if c = ch '\n' then blockLoop n r s.newline
    else blockLoop n r (s.advance 1)

end

/-- `skip_whitespace`: false if a block comment is not closed. -/
def skipWhitespace (s : Lexer) : Bool × Lexer := skipLoop s.current.rest s

/-! Number literals. -/

/-- `0x...`, where `current` is behind the `x`. -/
def scanHex (s : Lexer) : Token × Lexer :=
  if !isXdigit s.peek then s.fail "invalid hex literal"
  else (s.advanceWhile isXdigit).token .intLit

/-- `0b...`, where `current` is behind the `b`. -/
def scanBinary (s : Lexer) : Token × Lexer :=
  if s.peek != ch '0' && s.peek != ch '1' then s.fail "invalid binary literal"
  else (s.advanceWhile fun c => c == ch '0' || c == ch '1').token .intLit

/-- The exponent part, where `current` is behind the `e`. -/
def scanExponent (s : Lexer) : Token × Lexer :=
  let s := if s.peek == ch '+' || s.peek == ch '-' then s.advance 1 else s
  if !isDigit s.peek then s.fail "invalid number: expected digit after exponent"
  else (s.advanceWhile isDigit).token .floatLit

def scanDecimal (s : Lexer) : Token × Lexer :=
  let s := s.advanceWhile isDigit
  let isFloat := s.peek == ch '.' && isDigit s.peekNext
  let s := if isFloat then (s.advance 1).advanceWhile isDigit else s
  if s.peek == ch 'e' || s.peek == ch 'E' then scanExponent (s.advance 1)
  else s.token (if isFloat then .floatLit else .intLit)

def scanNumber (s : Lexer) : Token × Lexer :=
  let zero := (s.start.rest[0]?).getD 0 == ch '0' && s.current.pos - s.start.pos == 1
  if zero && (s.peek == ch 'x' || s.peek == ch 'X') then scanHex (s.advance 1)
  else if zero && (s.peek == ch 'b' || s.peek == ch 'B') then scanBinary (s.advance 1)
  else scanDecimal s

/-! String literals. -/

def rawString3Loop (quote : UInt8) : Str → Lexer → Token × Lexer
  | [], s => s.fail (if quote = ch '"' then "unterminated raw string (started with r\"\"\")"
      else "unterminated raw string (started with r''')")
  | c :: r, s =>
    if c = ch '\n' then rawString3Loop quote r s.newline
    else if c = quote ∧ r.take 2 = [quote, quote] then (s.advance 3).token .rawstring3Lit
    else rawString3Loop quote r (s.advance 1)

/-- `scan_raw_string3` -/
def scanRawString3 (s : Lexer) (quote : UInt8) : Token × Lexer :=
  rawString3Loop quote s.current.rest s

def rawStringLoop (quote : UInt8) : Str → Lexer → Token × Lexer
  | [], s => s.fail (if quote = ch '"' then "unterminated raw string (started with r\")"
      else "unterminated raw string (started with r')")
  | c :: r, s =>
    if c = quote then (s.advance 1).token .rawstringLit
    else if c = ch '\n' then rawStringLoop quote r s.newline
    else rawStringLoop quote r (s.advance 1)

/-- `scan_raw_string` -/
def scanRawString (s : Lexer) (quote : UInt8) : Token × Lexer :=
  rawStringLoop quote s.current.rest s

def stringLoop : Str → Lexer → Token × Lexer
  | [], s => s.fail "unterminated string"
  | c :: r, s =>
    -- a line break is part of the string
    if c = ch '"' then (s.advance 1).token .stringLit
    else if c = ch '\n' then stringLoop r s.newline
    else if c = ch '\\' then
      match r with
      | [] => (s.advance 1).fail "unterminated string escape"
      | e :: r' =>
        if e ∈ lit ['n', 't', '\\', '"', '0', 'r', 'a', 'b'] then stringLoop r' (s.advance 2)
        else if e = ch 'x' then
          match r' with
          | a :: b :: r'' =>
            if !isXdigit a || !isXdigit b then (s.advance 2).fail "invalid \\xHH escape"
            else stringLoop r'' (s.advance 4)
          | _ => (s.advance 2).fail "invalid \\xHH escape"
        else (s.advance 1).fail "unknown escape sequence"
    else stringLoop r (s.advance 1)

def scanString (s : Lexer) : Token × Lexer := stringLoop s.current.rest s

/-- The end of `scan_char`, behind the character. -/
def closeChar (s : Lexer) : Token × Lexer :=
  if s.peek != ch '\'' then s.fail "unterminated char literal"
  else (s.advance 1).token .charLit

def scanChar (s : Lexer) : Token × Lexer :=
  if s.isAtEnd then s.fail "unterminated char literal"
  else if s.peek == ch '\\' then
    let s := s.advance 1
    if s.isAtEnd then s.fail "unterminated char escape" else closeChar (s.advance 1)
  else closeChar (s.advance 1)

/-! Identifiers and keywords. -/

/-- The end of `scan_identifier`, for a word that opens no literal. -/
def scanWord (s : Lexer) : Token × Lexer :=
  let type := checkKeyword s.lexeme
  if type = .identifier && (s.peek == ch '?' || (s.peek == ch '!' && s.peekNext != ch '=')) then
    (s.advance 1).token type
  else s.token type

def scanIdentifier (s : Lexer) : Token × Lexer :=
  let s := s.advanceWhile isWord
  if s.lexeme = lit ['_'] then s.token .underscore
  else if s.lexeme = lit ['r'] ∧ (s.peek = ch '"' ∨ s.peek = 0x27) then
    let q := s.peek
    let s := s.advance 1
    if s.peek = q ∧ s.peekNext = q then (s.advance 2).scanRawString3 q else s.scanRawString q
  else if s.lexeme = lit ['f'] ∧ s.peek = ch '"' then
    let s := { s.advance 1 with inFstring := true, fstringBraceDepth := 0 }
    s.token .fstringStart
  else s.scanWord

/-! Format strings. -/

def fstringLoop : Str → Lexer → Lexer
  | [], s => s
  | c :: r, s =>
    if c = ch '{' ∨ c = ch '"' then s
    else if c = ch '\\' then
      match r with
      | [] => s.advance 1
      | _ :: r' => fstringLoop r' (s.advance 2)
    else if c = ch '\n' then fstringLoop r s.newline
    else fstringLoop r (s.advance 1)

/-- `s->start = s->current; s->start_column = s->column;` -/
def begin (s : Lexer) : Lexer := { s with start := s.current, startColumn := s.column }

def scanFstringText (s : Lexer) : Token × Lexer :=
  let s := s.begin
  let s := fstringLoop s.current.rest s
  if s.start.pos < s.current.pos then s.token .fstringText
  else if s.peek == ch '"' then
    let s := { s.advance 1 with inFstring := false }
    s.token .fstringEnd
  else
    -- whatever stands here is taken to be the brace
    let s := { s.advance 1 with fstringBraceDepth := 1 }
    s.token .lbrace

/-- The format specifier of `{x:spec}`, at its colon. -/
def scanSpec (s : Lexer) : Token × Lexer :=
  let s := (s.advance 1).begin
  let s := s.advanceWhile fun c => c != ch '}' && c != ch '"'
  let spec := s.makeToken .fstringSpec
  if s.peek == ch '}' then (spec, { s.advance 1 with fstringBraceDepth := 0 }) else (spec, s)

/-! Operators and annotations. -/

/-- The byte an operator starts with, the bytes that may follow with the token each makes of it,
and the token of the first byte alone. -/
def operators : List (UInt8 × List (UInt8 × TokenType) × TokenType) := [
  (ch '(', [], .lparen),
  (ch ')', [], .rparen),
  (ch '{', [], .lbrace),
  (ch '}', [], .rbrace),
  (ch '[', [], .lbracket),
  (ch ']', [], .rbracket),
  (ch ';', [], .semicolon),
  (ch ',', [], .comma),
  (ch '~', [], .tilde),
  (ch ':', [], .colon),
  (ch '+', [(ch '=', .plusAssign)], .plus),
  (ch '-', [(ch '>', .arrow), (ch '=', .minusAssign)], .minus),
  (ch '*', [(ch '=', .starAssign)], .star),
  (ch '/', [(ch '=', .slashAssign)], .slash),
  (ch '%', [], .percent),
  (ch '&', [(ch '&', .and)], .amp),
  (ch '|', [(ch '|', .or)], .pipe),
  (ch '^', [], .caret),
  (ch '!', [(ch '=', .neq)], .bang),
  (ch '=', [(ch '=', .eq), (ch '>', .fatArrow)], .assign),
  (ch '<', [(ch '<', .lshift), (ch '=', .leq)], .lt),
  (ch '>', [(ch '>', .rshift), (ch '=', .geq)], .gt)]

def scanOperator : List (UInt8 × TokenType) → TokenType → Lexer → Token × Lexer
  | [], type, s => s.token type
  | (expected, long) :: more, type, s =>
    if s.matches? expected then (s.advance 1).token long else scanOperator more type s

/-- `.`, `..` and `...`, behind the first dot. -/
def scanDots (s : Lexer) : Token × Lexer :=
  if s.matches? (ch '.') then
    let s := s.advance 1
    if s.matches? (ch '.') then (s.advance 1).token .ellipsis else s.token .dotdot
  else s.token .dot

def annotations : List (Str × TokenType) := [
  (lit ['t', 'i', 'm', 'e'], .atTime),
  (lit ['b', 'e', 'n', 'c', 'h'], .atBench),
  (lit ['p', 'r', 'i', 'n', 't'], .atPrint),
  (lit ['t', 'a', 'k', 'e'], .atIntrinsic),
  (lit ['d', 'i', 's', 'p', 'o', 's', 'e'], .atIntrinsic),
  (lit ['d', 'u', 'p'], .atIntrinsic),
  (lit ['m', 'o', 'v', 'e'], .atIntrinsic)]

def scanSigil : List (Str × TokenType) → Lexer → Token × Lexer
  | [], s =>
    if isAlpha s.peek || s.peek == ch '_' then s.token .at
    else s.fail "unknown annotation (expected @name, e.g. @derive)"
  | (name, type) :: more, s =>
    if name.isPrefixOf s.current.rest && !isWord (s.peekAt name.length) then
      (s.advance name.length).token type
    else scanSigil more s

/-- What `scanner_next_inner` does with the byte at `current`, which is no NUL. -/
def scanByte (s : Lexer) : Token × Lexer :=
  let c := s.peek
  let s := s.advance 1
  if isAlpha c || c == ch '_' then s.scanIdentifier
  else if isDigit c then s.scanNumber
  else if c = ch '"' then s.scanString
  else if c = ch '\'' then s.scanChar
  else if c = ch '.' then s.scanDots
  else if c = ch '@' then scanSigil annotations s
  else
    match operators.find? (·.1 == c) with
    | some (_, long, type) => scanOperator long type s
    | none => s.fail "unexpected character"

def inText (s : Lexer) : Bool := s.inFstring && s.fstringBraceDepth == 0

def countBrace (s : Lexer) : Lexer :=
  if s.inFstring && 0 < s.fstringBraceDepth then
    if s.peek == ch '{' then { s with fstringBraceDepth := s.fstringBraceDepth + 1 }
    else if s.peek == ch '}' then { s with fstringBraceDepth := s.fstringBraceDepth - 1 }
    else s
  else s

/-- A token that starts at `current`. -/
def scanAt (s : Lexer) : Token × Lexer :=
  if s.isAtEnd then s.token .eof
  else if s.inFstring && s.fstringBraceDepth == 1 && s.peek == ch ':' then s.scanSpec
  else if s.inFstring && s.fstringBraceDepth == 1 && s.peek == ch '}' then
    let s := { s.advance 1 with fstringBraceDepth := 0 }
    s.token .rbrace
  else s.countBrace.scanByte

/-- `scanner_next_inner` -/
def nextInner (s : Lexer) : Token × Lexer :=
  if s.inText then s.scanFstringText
  else
    let (closed, s) := s.skipWhitespace
    if !closed then s.fail "unterminated block comment" else s.begin.scanAt

/-- `read_directive_word`: at most 31 bytes are kept. -/
def readDirectiveWord (s : Lexer) : Str × Lexer :=
  ((s.current.rest.takeWhile isWord).take 31, s.advanceWhile isWord)

/-- `skip_inline_ws` -/
def skipInlineWs (s : Lexer) : Lexer := s.advanceWhile fun c => c == ch ' ' || c == ch '\t'

end Lexer

namespace Scanner

/-- `cond_is_emitting` -/
def condIsEmitting (s : Scanner) : Bool :=
  match s.condStack with
  | [] => true
  | top :: _ => top.active

/-- The size of `cond_stack`. -/
def maxCond : Nat := 16

/-- `#if`, with its word. -/
def openCond (platform arg : Str) (s : Scanner) : Bool × Scanner :=
  if arg = [] then (true, s)
  else if maxCond ≤ s.condStack.length then (true, s)
  else
    let active := s.condIsEmitting && arg == platform
    (false, { s with condStack := ⟨active, s.condIsEmitting, active⟩ :: s.condStack })

/-- `#else` -/
def elseCond (s : Scanner) : Bool × Scanner :=
  match s.condStack with
  | [] => (true, s)
  | top :: frames =>
    let active := top.parentActive && !top.branchTaken
    let top := { top with active, branchTaken := top.branchTaken || active }
    (false, { s with condStack := top :: frames })

/-- `#end` -/
def endCond (s : Scanner) : Bool × Scanner :=
  match s.condStack with
  | [] => (true, s)
  | _ :: frames => (false, { s with condStack := frames })

variable (platform : Str)

/-- `process_directive`, which tells whether the directive was malformed. -/
def processDirective (s : Scanner) : Bool × Scanner :=
  let (word, lexer) := (s.toLexer.advance 1).readDirectiveWord
  if word = [] then (true, { s with toLexer := lexer })
  else if word = lit ['i', 'f'] then
    let (arg, lexer) := lexer.skipInlineWs.readDirectiveWord
    openCond platform arg { s with toLexer := lexer }
  else if word = lit ['e', 'l', 's', 'e'] then elseCond { s with toLexer := lexer }
  else if word = lit ['e', 'n', 'd'] ∨ word = lit ['e', 'n', 'd', 'i', 'f'] then
    endCond { s with toLexer := lexer }
  else (true, { s with toLexer := lexer.advanceWhile (· != ch '\n') })

/-- One turn of the loop of `scanner_next`: the token it returns, if it does. -/
def turn (s : Scanner) : Option Token × Scanner :=
  let (closed, lexer) := if s.inText then (true, s.toLexer) else s.skipWhitespace
  let s := { s with toLexer := lexer }
  if !closed then (some (s.errorToken "unterminated block comment"), s)
  else if !s.inFstring && s.peek == ch '#' then
    let (malformed, s) := s.processDirective platform
    (if malformed then some (s.errorToken "malformed preprocessor directive") else none, s)
  else
    let (t, lexer) := s.nextInner
    -- a token of an inactive branch is discarded
    (if s.condIsEmitting || t.type = .eof || t.type = .error then some t else none,
      { s with toLexer := lexer })

/-- The loop of `scanner_next`, for `n` turns. -/
def nextLoop : Nat → Scanner → Option (Token × Scanner)
  | 0, _ => none
  | n + 1, s =>
    match s.turn platform with
    | (some t, s) => some (t, s)
    | (none, s) => nextLoop n s

/-- `scanner_next`: a turn that returns no token passes a byte, or stands at the end for the first
time. -/
def next (s : Scanner) : Option (Token × Scanner) := s.nextLoop platform (s.current.rest.length + 2)

end Scanner

/-- `scanner_init` -/
def init (source : Source) : Scanner :=
  ⟨⟨⟨source.bytes, 0⟩, ⟨source.bytes, 0⟩, 1, 1, 1, false, 0⟩, []⟩

end LsLang.Scan
