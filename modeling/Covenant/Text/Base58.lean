/-
  BASE 58 — byte strings as numbers in fifty-eight digits.

  A byte string is read as one big-endian number and written with the digits of `alphabet`, most
  significant first.  Leading zero octets carry no weight, so each of them is written as the zero
  digit `1` in front; reading undoes both parts separately.
-/
import Covenant.Bytes

namespace Covenant.Base58

/-- The digits by value: the characters `0`, `O`, `I` and `l` are left out. -/
def alphabet : List Char := "123456789ABCDEFGHJKLMNPQRSTUVWXYZabcdefghijkmnopqrstuvwxyz".toList

/-- The value of a digit. -/
def value? (c : Char) : Option Nat := alphabet.idxOf? c

/-- The digits of `n` in base `base`, most significant first, in front of `acc`; zero has none.
`fuel` is at least the number of digits. -/
def digits (base : Nat) : Nat → Nat → List Nat → List Nat
  | 0, _, acc => acc
  | fuel + 1, n, acc => if n = 0 then acc else digits base fuel (n / base) (n % base :: acc)

/-- The number that digits spell in base `base`, most significant first. -/
def number (base : Nat) (ds : List Nat) : Nat := ds.foldl (fun n d => base * n + d) 0

/-- The text form of a byte string. -/
def encode (b : Bytes) : String :=
  let zeros := b.takeWhile (· = 0)
  let rest := b.drop zeros.length
  -- one octet needs fewer than two digits
  let ds := digits 58 (2 * rest.length) (number 256 (rest.map UInt8.toNat)) []
  String.ofList ((zeros.map fun _ => '1') ++ ds.map fun d => alphabet.getD d '1')

/-- The byte string a text spells; any character that is no digit refuses the whole text. -/
def decode (s : String) : Option Bytes := do
  let ds ← s.toList.mapM value?
  let zeros := ds.takeWhile (· = 0)
  let rest := ds.drop zeros.length
  some ((zeros.map fun _ => 0) ++ (digits 256 rest.length (number 58 rest) []).map UInt8.ofNat)

example : encode [0, 0, 1, 0] = "115R" := by decide
example : decode "115R" = some [0, 0, 1, 0] := by decide
example : decode "0" = none := by decide

end Covenant.Base58
