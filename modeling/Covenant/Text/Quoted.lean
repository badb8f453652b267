/-
  QUOTED — text between double quotes, for messages that show what was supplied.

  Quotes and backslashes are escaped, line ends and tabs have their short forms, and other hidden
  characters are written by their number in hexadecimal.
-/
import Covenant.Text.Hidden

namespace Covenant.Quoted

/-- The hexadecimal digits of a number, without leading zeros, in front of `acc`; `fuel` is at least
their count. -/
def hexDigits : Nat → Nat → List Char → List Char
  | 0, _, acc => acc
  | fuel + 1, n, acc =>
    let d := n % 16
    let c := if d < 10 then Char.ofNat (48 + d) else Char.ofNat (87 + d)
    if n < 16 then c :: acc else hexDigits fuel (n / 16) (c :: acc)

/-- One character inside quotes. -/
def escape (c : Char) : List Char :=
  if c = '"' then ['\\', '"']
  else if c = '\\' then ['\\', '\\']
  else if c = '\n' then ['\\', 'n']
  else if c = '\r' then ['\\', 'r']
  else if c = '\t' then ['\\', 't']
  else if c.toNat = 0 then ['\\', '0']
  else if isHidden c then ['\\', 'u', '\x7b'] ++ hexDigits 8 c.toNat [] ++ ['\x7d']
  else [c]

/-- A text between quotes. -/
def encode (s : String) : String := String.ofList ('"' :: s.toList.flatMap escape ++ ['"'])

example : encode "a\"b\n" = "\"a\\\"b\\n\"" := by decide +kernel
example : encode "\x1b" = "\"\\u\x7b1b\x7d\"" := by decide +kernel
example : encode "é\u200b" = "\"é\\u\x7b200b\x7d\"" := by decide +kernel

end Covenant.Quoted
