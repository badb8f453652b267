/-
  CURSOR — reading one item after another, also past failures.

  A `Decoder` gives its input up when it fails.  A cursor goes on: an item that is missing leaves it
  where it was, and one that is there but wrong is passed over.  A byte string counts as two items,
  its length and its octets, so a length that promises too much is passed over as well.
-/
import Covenant.Codec

namespace Covenant

/-- An item to be read. -/
inductive Item
  | u8 | u32 | u64 | size
  /-- A block of 32 octets. -/
  | block
  /-- A byte string behind its length. -/
  | string
  /-- A block that encodes a group element. -/
  | point
  /-- A canonical scalar. -/
  | scalar
  /-- So many octets. -/
  | take (n : Nat)
deriving DecidableEq, Repr

/-- What an item turned out to be. -/
inductive Item.Content
  | number (n : Nat)
  | octets (b : Bytes)
deriving DecidableEq, Repr

namespace Item

/-- Takes `n` octets and looks at them; what `look` refuses is passed over. -/
def taking (n : Nat) (look : Bytes → Except CodecError Content) (b : Bytes) :
    Except CodecError Content × Bytes :=
  match Decoder.take n b with
  | .error e => (.error e, b)
  | .ok (x, rest) => (look x, rest)

/-- Some octets as a little-endian number. -/
def asNumber (b : Bytes) : Except CodecError Content := .ok (.number (Bytes.ofLE b))

/-- Some octets as they are. -/
def asOctets (b : Bytes) : Except CodecError Content := .ok (.octets b)

/-- Some octets as they are, if a decoder accepts them. -/
def checked {α : Type} (d : Decoder α) (b : Bytes) : Except CodecError Content :=
  (d.exactly b).map fun _ => .octets b

/-- Reads an item off the front of some octets; what is left of them in either case. -/
def read [Suite] (i : Item) (b : Bytes) : Except CodecError Content × Bytes :=
  match i with
  | u8 => taking 1 asNumber b
  | u32 | size => taking 4 asNumber b
  | u64 => taking 8 asNumber b
  | block => taking 32 asOctets b
  | point => taking 32 (checked Decoder.point) b
  | scalar => taking 32 (checked Decoder.scalar) b
  | take n => taking n asOctets b
  | string =>
    match Decoder.size b with
    | .error e => (.error e, b)
    | .ok (n, rest) => taking n asOctets rest

/-- Reads items one after the other; each with the number of octets left after it. -/
def readAll [Suite] : List Item → Bytes → List (Except CodecError Content × Nat)
  | [], _ => []
  | i :: is, b =>
    let (x, rest) := i.read b
    (x, rest.length) :: readAll is rest

/-- Whether some octets are exactly the given items; the first failure otherwise. -/
def parse [Suite] : List Item → Bytes → Except CodecError Unit
  | [], [] => .ok ()
  | [], _ :: _ => .error .trailingBytes
  | i :: is, b =>
    match i.read b with
    | (.error e, _) => .error e
    | (.ok _, rest) => parse is rest

end Item

end Covenant
