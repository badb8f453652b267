/-
  LEXEME — the pieces of a document of settings.

  A document is cut into words, quoted texts, punctuation, blanks, comments and line ends.  A pair
  of carriage return and line feed counts as one line end everywhere, also inside quotes.  Quotes
  come singly, with or without escapes, or in threes around a text of several lines; only the former
  can name a setting, so the content of the latter is checked and dropped.
-/
namespace Covenant.Document

/-- A piece of a document. -/
inductive Lexeme
  | lineEnd
  | blank (cs : List Char)
  | comment
  | equals | dot | comma | colon | plus
  | openBrace | closeBrace | openBracket | closeBracket
  /-- Letters, digits, hyphens and low lines. -/
  | word (cs : List Char)
  /-- A text quoted within one line. -/
  | text (cs : List Char)
  /-- A text quoted over several lines. -/
  | lines
deriving DecidableEq, Repr

/-! ## Characters -/

/-- The characters of words. -/
def isWordChar (c : Char) : Bool := c.isAlphanum || c == '-' || c == '_'

/-- The characters between words. -/
def isGap (c : Char) : Bool := c == ' ' || c == '\t'

/-- The characters that may stand in a comment. -/
def isCommentChar (c : Char) : Bool := c == '\t' || ' ' ≤ c

/-- The characters that may stand in a quoted text without an escape. -/
def isTextChar (c : Char) : Bool := isCommentChar c && c != '\x7f'

/-- Makes every pair of carriage return and line feed one line feed. -/
def foldLineEnds : List Char → List Char
  | '\r' :: '\n' :: r => '\n' :: foldLineEnds r
  | c :: r => c :: foldLineEnds r
  | [] => []

/-- The value of a digit in a radix of at most 16. -/
def digit? (radix : Nat) (c : Char) : Option Nat :=
  let d :=
    if c.isDigit then c.toNat - 48
    else if 'a' ≤ c ∧ c ≤ 'f' then c.toNat - 87
    else if 'A' ≤ c ∧ c ≤ 'F' then c.toNat - 55
    else radix
  if d < radix then some d else none

/-- The character whose code point is given by hexadecimal digits. -/
def codePoint? (ds : List Char) : Option Char := do
  let ds ← ds.mapM (digit? 16)
  let n := ds.foldl (fun n d => 16 * n + d) 0
  if n.isValidChar then some (Char.ofNat n) else none

/-! ## Quoted texts -/

/-- The character that a single letter stands for behind a backslash. -/
def shortEscape? (c : Char) : Option Char :=
  if c = '"' ∨ c = '\\' then some c
  else if c = 'b' then some '\x08'
  else if c = 't' then some '\t'
  else if c = 'n' then some '\n'
  else if c = 'f' then some '\x0c'
  else if c = 'r' then some '\r'
  else none

/-- The character that stands for the escape behind a backslash, and what follows it. -/
def escape? : List Char → Option (Char × List Char)
  | [] => none
  | c :: r =>
    let width := if c = 'u' then 4 else if c = 'U' then 8 else 0
    if width = 0 then (shortEscape? c).map (·, r)
    else if r.length < width then none
    else (codePoint? (r.take width)).map (·, r.drop width)

/-- Resolves escapes and refuses characters that need one, in `fuel` steps at most. -/
def unescape : Nat → List Char → Option (List Char)
  | _, [] => some []
  | 0, _ :: _ => none
  | fuel + 1, c :: r =>
    if c = '\\' then do
      let (e, rest) ← escape? r
      return e :: (← unescape fuel rest)
    else if isTextChar c then (unescape fuel r).map (c :: ·)
    else none

/-- Checks a text of several lines, in `fuel` steps at most.  A backslash at the end of a line joins
it to the next. -/
def checkLines : Nat → List Char → Bool
  | _, [] => true
  | 0, _ :: _ => false
  | fuel + 1, c :: r =>
    if c = '\\' then
      -- blanks may stand between the backslash and the end of the line
      if (r.dropWhile isGap).head? = some '\n' then checkLines fuel (r.dropWhile isGap)
      else
        match escape? r with
        | none => false
        | some (_, rest) => checkLines fuel rest
    else (isTextChar c || c == '\n') && checkLines fuel r

/-- Cuts a text off at its closing quote.  Where escapes are used, a quote behind a backslash does
not close it. -/
def cutText (quote : Char) (escapes : Bool) : List Char → Option (List Char × List Char)
  | [] => none
  | c :: r =>
    if c = quote then some ([], r)
    else if escapes ∧ c = '\\' then
      match r with
      | [] => none
      | d :: r => (cutText quote escapes r).map fun p => (c :: d :: p.1, p.2)
    else (cutText quote escapes r).map fun p => (c :: p.1, p.2)

/-- Cuts a text of several lines off at its three closing quotes; two more may stand before them. -/
def cutLines (quote : Char) (escapes : Bool) : List Char → Option (List Char × List Char)
  | [] => none
  | c :: r =>
    if c = quote ∧ [quote, quote].isPrefixOf r then
      -- of five quotes the first two belong to the text
      let extra := ((r.drop 2).takeWhile (· == quote)).length
      some (List.replicate (min extra 2) quote, r.drop (2 + min extra 2))
    else if escapes ∧ c = '\\' then
      match r with
      | [] => none
      | d :: r => (cutLines quote escapes r).map fun p => (c :: d :: p.1, p.2)
    else (cutLines quote escapes r).map fun p => (c :: p.1, p.2)

/-- A quoted text and what follows it; the opening quote is gone. -/
def quoted? (quote : Char) (r : List Char) : Option (Lexeme × List Char) := do
  let escapes := quote == '"'
  if [quote, quote].isPrefixOf r then
    let (cs, rest) ← cutLines quote escapes (r.drop 2)
    let fine :=
      if escapes then checkLines cs.length cs else cs.all fun c => isTextChar c || c == '\n'
    if fine then some (.lines, rest) else none
  else
    let (cs, rest) ← cutText quote escapes r
    if escapes then some (.text (← unescape cs.length cs), rest)
    else if cs.all isTextChar then some (.text cs, rest) else none

/-! ## Scanning -/

/-- The lexeme that a single character makes. -/
def punctuation? (c : Char) : Option Lexeme :=
  if c = '\n' then some .lineEnd
  else if c = '=' then some .equals
  else if c = '.' then some .dot
  else if c = ',' then some .comma
  else if c = ':' then some .colon
  else if c = '+' then some .plus
  else if c = '\x7b' then some .openBrace
  else if c = '\x7d' then some .closeBrace
  else if c = '[' then some .openBracket
  else if c = ']' then some .closeBracket
  else none

/-- The first lexeme of a text that begins with `c`, and what follows it. -/
def first? (c : Char) (r : List Char) : Option (Lexeme × List Char) :=
  match punctuation? c with
  | some t => some (t, r)
  | none =>
    if isGap c then some (.blank (c :: r.takeWhile isGap), r.dropWhile isGap)
    else if isWordChar c then some (.word (c :: r.takeWhile isWordChar), r.dropWhile isWordChar)
    else if c = '#' then some (.comment, r.dropWhile isCommentChar)
    else if c = '"' ∨ c = '\'' then quoted? c r
    else none

/-- The lexemes of a text, in `fuel` steps at most. -/
def scanFrom : Nat → List Char → Option (List Lexeme)
  | _, [] => some []
  | 0, _ :: _ => none
  | fuel + 1, c :: r => do
    let (t, rest) ← first? c r
    return t :: (← scanFrom fuel rest)

/-- The lexemes of a document.  A byte order mark in front does not count. -/
def scan (s : String) : Option (List Lexeme) :=
  let cs := foldLineEnds s.toList
  let cs := if cs.head? = some '\ufeff' then cs.drop 1 else cs
  scanFrom cs.length cs

example : scan "a = 'b' # c\r\n" = some
    [.word ['a'], .blank [' '], .equals, .blank [' '], .text ['b'], .blank [' '], .comment,
      .lineEnd] := by decide +kernel
example : scan "\"a\\u0062\"" = some [.text ['a', 'b']] := by decide +kernel
example : scan "'''a\n'b'''''." = some [.lines, .dot] := by decide +kernel
example : scan "\"a" = none := by decide +kernel

end Covenant.Document
