/-
  DOCUMENT — named settings, one a line.

  A line gives a name and a value, `input_cost = 2_000`, or opens a section, `[name]`, or an item of
  a list of sections, `[[name]]`.  Names are words or quoted texts and may have several parts with
  points between them.  Values are integers, decimals, dates, booleans, texts, lists and tables.

  A document keeps every value under its full path.  Integers are the only values whose content is
  kept: all others are read, so that a malformed one is noticed, and remembered by their kind.
-/
import Covenant.Range
import Covenant.Text.Document.Lexeme

namespace Covenant

/-- What a document says of a name. -/
inductive Setting
  | integer (n : Int)
  | decimal | date | boolean | text | list | table
deriving DecidableEq, Repr

/-- The settings of a document under their full paths, in the order of the text. -/
structure Document where
  entries : List (List String × Setting)
deriving DecidableEq, Repr

namespace Document

/-- Takes a value off the front of some lexemes. -/
abbrev Reader (α : Type) := StateT (List Lexeme) Option α

namespace Reader

/-- The next lexeme. -/
def next : Reader Lexeme
  | [] => none
  | t :: r => some (t, r)

/-- Takes a lexeme if it is the next one. -/
def eat (t : Lexeme) : Reader Bool
  | [] => some (false, [])
  | u :: r => if u = t then some (true, r) else some (false, u :: r)

/-- Takes a lexeme, which must be the next one. -/
def expect (t : Lexeme) : Reader Unit := do if !(← eat t) then failure

/-- The next lexeme, which must be a word. -/
def word : Reader (List Char) := do
  match ← next with
  | .word w => return w
  | _ => failure

/-- Whether a lexeme is a blank within a line. -/
def isBlank : Lexeme → Bool
  | .blank _ => true
  | _ => false

/-- Skips blanks. -/
def skipBlanks : Reader Unit := modify (·.dropWhile isBlank)

/-- Skips blanks, comments and line ends. -/
def skipLines : Reader Unit :=
  modify (·.dropWhile fun t => isBlank t || t == .comment || t == .lineEnd)

/-- Ends a line: a comment may stand before its end. -/
def lineEnd : Reader Unit := do
  skipBlanks
  discard (eat .comment)
  if !(← get).isEmpty then expect .lineEnd

/-! ## Names -/

/-- One part of a name. -/
def key : Reader String := do
  match ← next with
  | .word w => return String.ofList w
  | .text t => return String.ofList t
  | _ => failure

/-- A name of at most `fuel` parts, and the blanks behind it. -/
def pathFrom : Nat → Reader (List String)
  | 0 => failure
  | fuel + 1 => do
    let k ← key
    skipBlanks
    if ← eat .dot then
      skipBlanks
      return k :: (← pathFrom fuel)
    return [k]

/-- A name, and the blanks behind it. -/
def path : Reader (List String) := do pathFrom (← get).length

end Reader

/-- Whether a name may be added: none of the sections it runs through was given a value. -/
def admits (entries : List (List String × Setting)) (p : List String) : Bool :=
  (List.range p.length).all fun n => n == 0 ||
    match entries.find? fun e => (p.take n).isPrefixOf e.1 with
    | none => true
    | some e => e.1 != p.take n

/-! ## Numbers and dates -/

/-- Cuts the digits off a word, after those in `ds` (last first).  Single low lines may stand
between digits; `gap` tells whether one was just seen.  A number may begin with a zero only if
`zeros` allows it, or if it is zero. -/
def cutDigits (radix : Nat) (zeros : Bool) (ds : List Nat) (gap : Bool) :
    List Char → Option (List Nat × List Char)
  | [] => if ds.isEmpty || gap then none else some (ds.reverse, [])
  | c :: r =>
    match digit? radix c with
    | some d => if !zeros && ds == [0] then none else cutDigits radix zeros (d :: ds) false r
    | none =>
      if c = '_' then if ds.isEmpty || gap then none else cutDigits radix zeros ds true r
      else if ds.isEmpty || gap then none else some (ds.reverse, c :: r)

/-- A word without the sign it may begin with, and whether that is a minus. -/
def cutSign : List Char → Bool × List Char
  | '-' :: r => (true, r)
  | '+' :: r => (false, r)
  | r => (false, r)

/-- The number that some digits of a radix spell. -/
def numeral (radix : Nat) (ds : List Nat) : Nat := ds.foldl (fun n d => radix * n + d) 0

/-- The number that a word of digits spells; it must fit 64 bits with a sign. -/
def integer? (radix : Nat) (negative zeros : Bool) (w : List Char) : Option Setting := do
  let (ds, rest) ← cutDigits radix zeros [] false w
  if !rest.isEmpty then failure
  let n := Int.ofNat (numeral radix ds)
  let n := if negative then -n else n
  if fitsBits 64 n then return .integer n else failure

/-- Whether a character begins the exponent of a decimal. -/
def isExponentMark (c : Char) : Bool := c == 'e' || c == 'E'

/-- The exponent of a decimal, of which `w` is what its word holds after the digits. -/
def exponent (w : List Char) : Reader Int := do
  match w with
  | [] => return 0
  | c :: r =>
    if !isExponentMark c then failure
    let (negative, digits) ← if r.isEmpty then do
        discard (Reader.eat .plus)
        pure (false, ← Reader.word)
      else pure (cutSign r)
    let (ds, rest) ← cutDigits 10 true [] false digits
    if !rest.isEmpty then failure
    let n := Int.ofNat (numeral 10 ds)
    return if negative then -n else n

/-- The least number that double precision rounds to infinity: half a step above its largest one. -/
def roundedToInfinity : Nat := Nat.pow 2 1024 - Nat.pow 2 970

/-- Whether a decimal is rounded to infinity in double precision: its value is the number that `ds`
spell times ten to the power `e`. -/
def overflows (ds : List Nat) (e : Int) : Bool :=
  let ds := ds.dropWhile (· == 0)
  -- without leading zeros the number of digits tells the magnitude: powers are only computed near
  -- the border
  let magnitude : Int := Int.ofNat ds.length + e
  if ds.isEmpty || magnitude < 309 then false
  else if 309 < magnitude then true
  else
    if 0 ≤ e then roundedToInfinity ≤ numeral 10 ds * Nat.pow 10 e.toNat
    else roundedToInfinity * Nat.pow 10 (-e).toNat ≤ numeral 10 ds

/-- A decimal whose first word is `w`; `point` tells whether a point follows.  It must be finite in
double precision. -/
def decimal (w : List Char) (point : Bool) : Reader Setting := do
  let (whole, rest) ← cutDigits 10 false [] false (cutSign w).2
  if point && !rest.isEmpty then failure
  let (fraction, rest) ←
    if point then cutDigits 10 true [] false (← Reader.word) else pure ([], rest)
  let e ← exponent rest
  if overflows (whole ++ fraction) (e - Int.ofNat fraction.length) then failure
  return .decimal

/-- The number whose first word is `w`. -/
def number (w : List Char) : Reader Setting := do
  match w with
  | '0' :: 'x' :: r => integer? 16 false true r
  | '0' :: 'o' :: r => integer? 8 false true r
  | '0' :: 'b' :: r => integer? 2 false true r
  | _ =>
    if w.any isExponentMark then decimal w false
    else if ← Reader.eat .dot then decimal w true
    else
      let (negative, digits) := cutSign w
      if digits = ['i', 'n', 'f'] ∨ digits = ['n', 'a', 'n'] then return .decimal
      integer? 10 negative false digits

/-- The time of day behind its first colon, with its fraction and its distance from the zero
meridian's time. -/
def time : Reader Unit := do
  discard Reader.word
  Reader.expect .colon
  discard Reader.word
  if ← Reader.eat .dot then discard Reader.word
  if ← Reader.eat .plus then discard Reader.word
  if ← Reader.eat .colon then discard Reader.word

/-- What follows the first word of a date: an hour may stand behind a single space. -/
def date : Reader Setting := do
  match ← get with
  -- two blanks end the date
  | .blank [' '] :: .word _ :: r => set r
  | _ => pure ()
  if ← Reader.eat .colon then time
  return .date

/-- Whether a word is the day of a date, or a day with an hour. -/
def isDay (w : List Char) : Bool :=
  w.any (fun c => c == 't' || c == 'T')
    || (w.drop 1).contains '-' && !(w.zip (w.drop 1)).any fun p => isExponentMark p.1 && p.2 == '-'

/-- The value that begins with a word. -/
def bare (w : List Char) : Reader Setting := do
  if w = ['t', 'r', 'u', 'e'] ∨ w = ['f', 'a', 'l', 's', 'e'] then return .boolean
  let numeric := w.head?.any (fun c => c.isDigit || c == '-')
  if !numeric ∧ w ≠ ['i', 'n', 'f'] ∧ w ≠ ['n', 'a', 'n'] then failure
  if isDay w then date
  else if ← Reader.eat .colon then
    time
    return .date
  else number w

/-! ## Values -/

mutual

/-- A value nested at most `fuel` deep. -/
def value : Nat → Reader Setting
  | 0 => failure
  | fuel + 1 => do
    match ← Reader.next with
    | .text _ | .lines => return .text
    | .word w => bare w
    | .plus => number (← Reader.word)
    | .openBracket =>
      items fuel
      return .list
    | .openBrace =>
      Reader.skipBlanks
      if !(← Reader.eat .closeBrace) then pairs fuel []
      return .table
    | _ => failure

/-- The items of a list up to its closing bracket. -/
def items : Nat → Reader Unit
  | 0 => failure
  | fuel + 1 => do
    Reader.skipLines
    if ← Reader.eat .closeBracket then return
    discard (value fuel)
    Reader.skipLines
    if ← Reader.eat .comma then items fuel else Reader.expect .closeBracket

/-- The settings of a table up to its closing brace, after those in `entries`. -/
def pairs : Nat → List (List String × Setting) → Reader Unit
  | 0, _ => failure
  | fuel + 1, entries => do
    let p ← Reader.path
    Reader.expect .equals
    Reader.skipBlanks
    let v ← value fuel
    if !admits entries p then failure
    Reader.skipBlanks
    if ← Reader.eat .closeBrace then return
    Reader.expect .comma
    Reader.skipBlanks
    pairs fuel (entries ++ [(p, v)])

end

/-! ## Lines -/

/-- What a line says. -/
inductive Line
  /-- Opens a section, or an item of a list of sections. -/
  | header (path : List String) (listed : Bool)
  | setting (path : List String) (v : Setting)

/-- The header of a section behind its first bracket. -/
def header : Reader Line := do
  let listed ← Reader.eat .openBracket
  Reader.skipBlanks
  let p ← Reader.path
  Reader.expect .closeBracket
  if listed then Reader.expect .closeBracket
  Reader.lineEnd
  return .header p listed

/-- A name with its value. -/
def assignment : Reader Line := do
  let p ← Reader.path
  Reader.expect .equals
  Reader.skipBlanks
  let v ← value (← get).length
  Reader.lineEnd
  return .setting p v

/-- The lines of a document, at most `fuel` of them. -/
def lines : Nat → Reader (List Line)
  | 0 => failure
  | fuel + 1 => do
    Reader.skipLines
    if (← get).isEmpty then return []
    let l ← if ← Reader.eat .openBracket then header else assignment
    return l :: (← lines fuel)

/-- Adds a header to those that count, newest first.  A section is opened once.  A list is not
opened over a section of its name or part of it, and each new item starts without sections. -/
def open? (headers : List (List String × Bool)) (p : List String) (listed : Bool) :
    Option (List (List String × Bool)) :=
  if listed then
    -- a new item forgets the sections of the item before it
    if headers.contains (p, true) then some (headers.filter fun h => h.1 == p || !p.isPrefixOf h.1)
    else if headers.any fun h => p.isPrefixOf h.1 then none
    else some ((p, true) :: headers)
  else if headers.any fun h => h.1 == p then none
  else some ((p, false) :: headers)

/-- Gathers what the lines say.  `within` is the path of the section they stand in, and `entries`
what it was said to hold, with paths from there. -/
def gather (headers : List (List String × Bool)) (within : List String)
    (entries : List (List String × Setting)) : List Line → Option (List (List String × Setting))
  | [] => some []
  | .header p listed :: ls => do
    let headers ← open? headers p listed
    return (p, .table) :: (← gather headers p [] ls)
  | .setting p v :: ls =>
    if admits entries p then do
      return (within ++ p, v) :: (← gather headers within (entries ++ [(p, v)]) ls)
    else none

/-- Reads a document; none when it is malformed. -/
def parse? (s : String) : Option Document := do
  let ts ← scan s
  let (ls, _) ← lines (ts.length + 1) ts
  return ⟨← gather [] [] [] ls⟩

/-- All that a document says of a name at its top level: a path that goes on makes it a table. -/
def values (d : Document) (name : String) : List Setting :=
  d.entries.filterMap fun e =>
    match e.1 with
    | [] => none
    | k :: r => if k = name then some (if r.isEmpty then e.2 else .table) else none

example : parse? "a = 1_0 # ten\n[b]\n'c' . d = [-0x1]" = none := by decide +kernel
example : parse? "a = 1_0 # ten\n[b]\n'c' . d = [+0x1]" = some
    ⟨[(["a"], .integer 10), (["b"], .table), (["b", "c", "d"], .list)]⟩ := by decide +kernel
example : (parse? "a = -1.7976931348623158e+308").isSome = true := by decide +kernel
example : parse? "a = 1.7976931348623159e308" = none := by decide +kernel
example : (parse? "a = 0e9999").isSome = true ∧ parse? "a = 1e9999" = none := by decide +kernel
example : (parse? "a.b = 1\na.c = 1.5e3").map (·.values "a") = some [.table, .table] := by
  decide +kernel
example :
    parse? "a = 01" = none ∧ parse? "a = 1 b = 2" = none ∧ parse? "a = 1\na.b = 2" = none := by
  decide +kernel

end Document

end Covenant
