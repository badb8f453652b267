/-
  TRANSCRIPT — what two parties have said to each other, as a list of labelled entries.

  A protocol absorbs labelled messages and, now and then, draws a challenge that depends on all that
  came before.  Here the transcript *is* that history: `append` adds a message, and a challenge is
  some function of the history (`Suite.squeeze`), recorded in it once drawn.  So whether two runs
  share their challenges is a question about two lists.

  `Piece` is the unit of every encoding of this library: some octets under a label.  Its octets
  strung together are the binary form of an object; its pieces appended one by one are the way the
  object enters a transcript.
-/
import Covenant.Bytes

namespace Covenant

/-- Some octets of an encoding, under the label they carry in a transcript. -/
structure Piece where
  label : String
  octets : Bytes
deriving DecidableEq, Repr

namespace Piece

/-- One octet. -/
def u8 (label : String) (x : UInt8) : Piece := ⟨label, [x]⟩

/-- A 16-bit number, little-endian. -/
def u16 (label : String) (x : UInt16) : Piece := ⟨label, Bytes.toLE 2 x.toNat⟩

/-- A 32-bit number, little-endian. -/
def u32 (label : String) (x : UInt32) : Piece := ⟨label, Bytes.toLE 4 x.toNat⟩

/-- A 64-bit number, little-endian. -/
def u64 (label : String) (x : UInt64) : Piece := ⟨label, Bytes.toLE 8 x.toNat⟩

/-- The largest count that an encoding can hold. -/
def maxSize : Nat := 0xffffffff

/-- A length or count in four octets; larger ones are written as `maxSize`. -/
def size (label : String) (n : Nat) : Piece := ⟨label, Bytes.toLE 4 (min n maxSize)⟩

/-- A block of fixed length. -/
def block (label : String) {n : Nat} (b : Octets n) : Piece := ⟨label, b.1⟩

/-- A byte string behind its length, both under one label. -/
def string (label : String) (b : Bytes) : List Piece := [size label b.length, ⟨label, b⟩]

/-- The binary form: all octets in order. -/
def join (ps : List Piece) : Bytes := ps.flatMap Piece.octets

@[simp] theorem join_nil : join [] = [] := rfl

@[simp] theorem join_cons (p : Piece) (ps : List Piece) : join (p :: ps) = p.octets ++ join ps := by
  simp [join]

@[simp] theorem join_append (ps qs : List Piece) : join (ps ++ qs) = join ps ++ join qs := by
  simp [join]

theorem join_flatMap {α : Type} (xs : List α) (ps : α → List Piece) :
    join (xs.flatMap ps) = xs.flatMap fun x => join (ps x) := by
  simp [join, List.flatMap_assoc]

end Piece

/-- One step of a transcript. -/
inductive Transcript.Entry
  /-- A labelled message was absorbed. -/
  | message (label : String) (octets : Bytes)
  /-- A labelled challenge of so many octets was drawn. -/
  | challenge (label : String) (size : Nat)
deriving DecidableEq, Repr

/-- The entries of a protocol run, oldest first. -/
structure Transcript where
  entries : List Transcript.Entry
deriving DecidableEq, Repr

namespace Transcript

/-- Absorbs a labelled message. -/
def append (t : Transcript) (label : String) (b : Bytes) : Transcript :=
  ⟨t.entries ++ [.message label b]⟩

/-- Absorbs pieces in order, each under its own label. -/
def absorb (t : Transcript) (ps : List Piece) : Transcript :=
  ⟨t.entries ++ ps.map fun p => .message p.label p.octets⟩

/-- A transcript that starts with the name of its protocol. -/
def new (protocol : String) : Transcript :=
  append ⟨[]⟩ "dom-sep" protocol.toUTF8.toList

/-- Records that a challenge was drawn. -/
def drew (t : Transcript) (label : String) (size : Nat) : Transcript :=
  ⟨t.entries ++ [.challenge label size]⟩

@[simp] theorem absorb_nil (t : Transcript) : t.absorb [] = t := by simp [absorb]

@[simp] theorem absorb_append (t : Transcript) (ps qs : List Piece) :
    t.absorb (ps ++ qs) = (t.absorb ps).absorb qs := by
  simp [absorb]

end Transcript

end Covenant
