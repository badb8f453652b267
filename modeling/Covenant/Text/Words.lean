/-
  WORDS — text cut at blanks.

  A blank is any character with the Unicode property White_Space.  `normalise` keeps the words of a
  text and puts exactly one space between neighbours; blanks at either end are dropped.
-/
namespace Covenant.Words

/-- The characters with the property White_Space. -/
def isBlank (c : Char) : Bool :=
  let n := c.toNat
  (0x09 ≤ n && n ≤ 0x0d) || n == 0x20 || n == 0x85 || n == 0xa0 || n == 0x1680
    || (0x2000 ≤ n && n ≤ 0x200a) || n == 0x2028 || n == 0x2029 || n == 0x202f || n == 0x205f
    || n == 0x3000

/-- Every blank of ASCII is a blank. -/
theorem isBlank_of_isWhitespace {c : Char} (h : c.isWhitespace = true) : isBlank c = true := by
  simp only [Char.isWhitespace, Bool.or_eq_true, decide_eq_true_eq] at h
  rcases h with ((h | h) | h) | h <;> subst h <;> decide

/-- Joins words by single spaces.  `started` tells whether a word has been written, `due` whether a
blank has been seen since. -/
def squeeze (started due : Bool) : List Char → List Char
  | [] => []
  | c :: r =>
    if isBlank c then squeeze started true r
    else (if started && due then [' ', c] else [c]) ++ squeeze true false r

/-- The words of a text with one space between them. -/
def normalise (s : String) : String := String.ofList (squeeze false false s.toList)

example : normalise "  abandon cradle\tlunar \n orbit " = "abandon cradle lunar orbit" := by decide
example : normalise " \t " = "" := by decide

end Covenant.Words
