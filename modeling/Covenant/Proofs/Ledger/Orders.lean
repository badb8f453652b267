/-
  ORDERS — how many byte strings are one transaction.

  The decoder of an input's variables refuses a name that comes twice and does not ask for an order,
  while the encoder writes the variables in the order of their names.  So reading and writing again
  sorts variables, and changes nothing else.

  1. **`ReadUpToOrder`** — what that says of a decoder: it reads a transaction from all its
     spellings, which have the same length, and from nothing else; and there is one spelling exactly
     where no input has two variables.
  2. **`read_up_to_order`** — the decoders of signed and unsigned transactions and of envelopes
     all read so.
  3. **Two variables swapped** — are read to the transaction whose encoding lists them the other way
     round (`ofBytes_swappedFlags`).
-/
import Covenant.Proofs.Ledger.Envelopes
import Covenant.Suite.Standard

namespace Covenant

/-! ## Reading in any order -/

/-- Reads octets in which each of some lists of variables has any order, and writes them in one. -/
structure ReadUpToOrder {ε α : Type} (ofBytes : Bytes → Except ε α) (toBytes : α → Bytes)
    (Spelled : α → Bytes → Prop) (extensions : α → List Extension) : Prop where
  /-- What is read at all is read from all its spellings, and from nothing else. -/
  ofBytes_iff : ∀ b x, ofBytes b = .ok x → ∀ b', ofBytes b' = .ok x ↔ Spelled x b'
  /-- Written again, it is read again. -/
  ofBytes_toBytes : ∀ b x, ofBytes b = .ok x → ofBytes (toBytes x) = .ok x
  /-- Written again, it takes the same number of octets. -/
  length_eq : ∀ b x, ofBytes b = .ok x → (toBytes x).length = b.length
  /-- There is one form of it exactly where no list has two variables. -/
  canonical_iff : ∀ b x, ofBytes b = .ok x →
    ((∀ b', ofBytes b' = .ok x → toBytes x = b') ↔ ∀ e ∈ extensions x, e.size ≤ 1)

/-- A decoder that accepts the spellings of what can be written reads up to order. -/
theorem ReadUpToOrder.of_spelled {ε α : Type} {ofBytes : Bytes → Except ε α} {toBytes : α → Bytes}
    {Spelled : α → Bytes → Prop} {extensions : α → List Extension} {Readable : α → Prop}
    (hread : ∀ {b x}, ofBytes b = .ok x ↔ Readable x ∧ Spelled x b)
    (hspelled : ∀ x, Spelled x (toBytes x))
    (hlength : ∀ {x b}, Spelled x b → b.length = (toBytes x).length)
    (hone : ∀ {x b}, Spelled x b → (∀ e ∈ extensions x, e.size ≤ 1) → b = toBytes x)
    (htwo : ∀ {x}, ∀ e ∈ extensions x, 1 < e.size → ∃ b, Spelled x b ∧ b ≠ toBytes x) :
    ReadUpToOrder ofBytes toBytes Spelled extensions where
  ofBytes_iff b x h b' := by rw [hread, and_iff_right (hread.1 h).1]
  ofBytes_toBytes b x h := hread.2 ⟨(hread.1 h).1, hspelled x⟩
  length_eq b x h := (hlength (hread.1 h).2).symm
  canonical_iff b x h := by
    constructor
    · intro hcanonical e he
      -- two variables in another order would be read as well
      by_contra hmany
      obtain ⟨b', hb', hne⟩ := htwo e he (Nat.lt_of_not_le hmany)
      exact hne (hcanonical b' (hread.2 ⟨(hread.1 h).1, hb'⟩)).symm
    · exact fun hsize b' h' => (hone (hread.1 h').2 hsize).symm

/-! ## Transactions and envelopes -/

/-- The variables of all inputs. -/
def SignedTx.extensions (tx : SignedTx) : List Extension := tx.inputs.map SignedInput.extension

/-- The variables of all inputs. -/
def UnsignedTx.extensions (tx : UnsignedTx) : List Extension := tx.inputs.map Input.extension

/-- **Transactions and envelopes are read up to the order of variables.**  Reading and writing again
puts each input's variables in the order of their names and changes nothing else.  So it gives back
the very octets when no input has two variables, and only then do no others say the same. -/
theorem read_up_to_order [Suite] :
    ReadUpToOrder SignedTx.ofBytes SignedTx.toBytes SignedTx.Spelled SignedTx.extensions ∧
    ReadUpToOrder UnsignedTx.ofBytes UnsignedTx.toBytes UnsignedTx.Spelled
      UnsignedTx.extensions ∧
    ReadUpToOrder ReducedTx.ofBytes ReducedTx.toBytes ReducedTx.Spelled
      (fun r => r.tx.extensions) := by
  refine ⟨.of_spelled SignedTx.ofBytes_eq_ok_iff SignedTx.spelled_toBytes
      SignedTx.Spelled.length_eq ?_ ?_,
    .of_spelled UnsignedTx.ofBytes_eq_ok_iff UnsignedTx.spelled_toBytes
      UnsignedTx.Spelled.length_eq ?_ ?_,
    .of_spelled ReducedTx.ofBytes_eq_ok_iff ReducedTx.spelled_toBytes
      ReducedTx.Spelled.length_eq ?_ ?_⟩
  · exact fun h hsize => h.eq_toBytes (List.forall_mem_map.1 hsize)
  · exact List.forall_mem_map.2 fun i hi hsize => SignedTx.exists_spelled_ne ⟨i, hi, hsize⟩
  · exact fun h hsize => h.eq_toBytes (List.forall_mem_map.1 hsize)
  · exact List.forall_mem_map.2 fun i hi hsize => UnsignedTx.exists_spelled_ne ⟨i, hi, hsize⟩
  · -- an envelope lists the variables twice, in its transaction and beside the propositions
    intro r b h hsize
    have hinputs : ∀ e ∈ r.inputs.map ReducedInput.extension, e.size ≤ 1 :=
      r.extensions_eq ▸ hsize
    exact h.eq_toBytes (List.forall_mem_map.1 hsize) (List.forall_mem_map.1 hinputs)
  · exact List.forall_mem_map.2 fun i hi hsize => ReducedTx.exists_spelled_ne ⟨i, hi, hsize⟩

/-! ## Two variables swapped -/

/-- Spends a box with two variables. -/
def twoFlags : UnsignedTx :=
  ⟨[⟨.zero 32, .ofList [(0, .bool false), (1, .bool true)]⟩], [], []⟩

/-- The octets of `twoFlags`, but with the later variable first. -/
def swappedFlags : Bytes :=
  [1, 0, 0, 0] ++ List.replicate 32 0 ++ [0, 0, 0, 0] ++
    ([2, 0, 0, 0] ++ [1, 1, 1] ++ [0, 1, 0]) ++ [0, 0, 0, 0] ++ [0, 0, 0, 0]

/-- The swapped octets spell `twoFlags`, as its own do, which are as many; so it has more than one
form. -/
theorem read_up_to_order_swappedFlags :
    UnsignedTx.ofBytes swappedFlags = .ok twoFlags ∧ twoFlags.Spelled swappedFlags ∧
      UnsignedTx.ofBytes twoFlags.toBytes = .ok twoFlags ∧
      twoFlags.toBytes.length = swappedFlags.length ∧
      ¬∀ b, UnsignedTx.ofBytes b = .ok twoFlags → twoFlags.toBytes = b := by
  have hread : UnsignedTx.ofBytes swappedFlags = .ok twoFlags := by with_unfolding_all rfl
  obtain ⟨-, h, -⟩ := read_up_to_order
  refine ⟨hread, (h.ofBytes_iff _ _ hread _).1 hread, h.ofBytes_toBytes _ _ hread,
    h.length_eq _ _ hread, fun hone => ?_⟩
  exact absurd ((h.canonical_iff _ _ hread).1 hone) (by decide)

/-- Octets that are read as a transaction need not be the ones that are written for it. -/
theorem ofBytes_swappedFlags :
    UnsignedTx.ofBytes swappedFlags = .ok twoFlags ∧ twoFlags.toBytes ≠ swappedFlags ∧
      UnsignedTx.ofBytes twoFlags.toBytes = .ok twoFlags := by
  refine ⟨?_, by decide, ?_⟩ <;> with_unfolding_all rfl

end Covenant
