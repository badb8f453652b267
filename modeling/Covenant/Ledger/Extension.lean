/-
  EXTENSION — the variables that a spender supplies with an input.

  Variables have octets for names.  An extension keeps them in the order of their names, each once;
  that order is part of the type, so there is one extension for each assignment of values.
-/
import Covenant.Script.Decoding

namespace Covenant

/-- Variables with their values, in the order of their names. -/
structure Extension where
  entries : List (UInt8 × Value)
  /-- Names increase. -/
  sorted : (entries.map Prod.fst).Pairwise (· < ·)

namespace Extension

/-- Puts a value under a name: in place of the one it had, or where it belongs. -/
def put (id : UInt8) (v : Value) : List (UInt8 × Value) → List (UInt8 × Value)
  | [] => [(id, v)]
  | (i, w) :: r =>
    if id < i then (id, v) :: (i, w) :: r
    else if id = i then (id, v) :: r
    else (i, w) :: put id v r

theorem mem_put {id : UInt8} {v : Value} {es : List (UInt8 × Value)} {i : UInt8}
    (h : i ∈ (put id v es).map Prod.fst) : i = id ∨ i ∈ es.map Prod.fst := by
  induction es with
  | nil => simpa [put] using h
  | cons e r ih =>
    obtain ⟨j, w⟩ := e
    simp only [put] at h
    split at h
    · simpa using h
    · split at h
      · simp only [List.map_cons, List.mem_cons] at h ⊢
        rcases h with h | h
        · exact .inl h
        · exact .inr (.inr h)
      · simp only [List.map_cons, List.mem_cons] at h ⊢
        rcases h with h | h
        · exact .inr (.inl h)
        · exact (ih h).elim .inl fun h => .inr (.inr h)

theorem sorted_put (id : UInt8) (v : Value) {es : List (UInt8 × Value)}
    (h : (es.map Prod.fst).Pairwise (· < ·)) : ((put id v es).map Prod.fst).Pairwise (· < ·) := by
  induction es with
  | nil => simp [put]
  | cons e r ih =>
    obtain ⟨j, w⟩ := e
    simp only [List.map_cons, List.pairwise_cons] at h
    simp only [put]
    split
    · rename_i hlt
      simp only [List.map_cons, List.pairwise_cons, List.mem_cons]
      refine ⟨?_, h⟩
      rintro k (rfl | hk)
      · exact hlt
      · exact UInt8.lt_trans hlt (h.1 k hk)
    · split
      · rename_i heq
        subst heq
        simp only [List.map_cons, List.pairwise_cons]
        exact h
      · rename_i h1 h2
        simp only [List.map_cons, List.pairwise_cons]
        refine ⟨fun k hk => ?_, ih h.2⟩
        rcases mem_put hk with rfl | hk
        · exact UInt8.lt_of_le_of_ne (UInt8.not_lt.1 h1) (fun e => h2 e.symm)
        · exact h.1 k hk

/-- No variables. -/
def empty : Extension := ⟨[], .nil⟩

/-- The value of a variable. -/
def get? (x : Extension) (id : UInt8) : Option Value := x.entries.lookup id

/-- Number of variables. -/
def size (x : Extension) : Nat := x.entries.length

/-- Gives a variable a value. -/
def insert (x : Extension) (id : UInt8) (v : Value) : Extension :=
  ⟨put id v x.entries, sorted_put id v x.sorted⟩

/-- The extension that results from giving variables values one after the other. -/
def ofList (es : List (UInt8 × Value)) : Extension :=
  es.foldl (fun x e => x.insert e.1 e.2) empty

/-- Whether two lists of variables are the same. -/
def sameEntries : List (UInt8 × Value) → List (UInt8 × Value) → Bool
  | [], [] => true
  | (i, v) :: es, (j, w) :: fs => i == j && v == w && sameEntries es fs
  | _, _ => false

instance : BEq Extension := ⟨fun x y => sameEntries x.entries y.entries⟩

/-- The encoding. -/
def pieces (x : Extension) : List Piece :=
  .size "n" x.size :: x.entries.flatMap fun e => .u8 "id" e.1 :: e.2.pieces

variable [Suite]

/-- Reads so many further variables; none may have a value already. -/
def entriesDecoder : Nat → Extension → Decoder Extension
  | 0, x => return x
  | n + 1, x => do
    let id ← Decoder.u8
    let v ← Value.decoder
    if (x.get? id).isSome then Decoder.malformed .duplicateVariable
    entriesDecoder n (x.insert id v)

/-- Reads an extension. The variables may come in any order. -/
def decoder : Decoder Extension := do
  let n ← Decoder.size
  entriesDecoder n empty

end Extension

end Covenant
