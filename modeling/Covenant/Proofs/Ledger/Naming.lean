/-
  NAMING — an address and its octets, and its text, determine each other.

  The binary form of an address is one octet that packs network and kind, a content that goes as far
  as the checksum, and the checksum of all that.  Reading takes these layers off from the outside:
  the checksum, the two halves of the first octet, and the content that the kind allows.  At each
  layer what is accepted is exactly what is written there, so that no octets are the form of two
  addresses and no address has two forms.

  1. **The first octet** — its halves are the codes of network and kind (`ofCode?_eq_some`,
     `Network.code_or`).
  2. **Content** — `ofContent_eq_ok`: of a public key, a point that decodes; of a script hash, 24
     octets; of a script, anything.
  3. **Layers** — `ofBody_eq_ok` without the checksum, `ofBytes_eq_ok` with it, `ofText_eq_ok` in
     Base58.
  4. **`encoding_exact`** — there and back, and what every accepted string of octets looks like.
-/
import Covenant.Ledger.Address
import Covenant.Proofs.Codec.Faithful
import Covenant.Proofs.Suite.Residues
import Covenant.Proofs.Text.Numerals

namespace Covenant

/-! ## The first octet -/

theorem Network.ofCode?_eq_some {c : UInt8} {n : Network} :
    Network.ofCode? c = some n ↔ n.code = c := by
  constructor
  · intro h
    unfold ofCode? at h
    split at h
    · rename_i hc
      cases h
      exact hc.symm
    · split at h
      · rename_i hc
        cases h
        exact hc.symm
      · cases h
  · rintro rfl
    cases n <;> decide

theorem Address.code_mem (a : Address) : a.code ∈ [0x01, 0x02, 0x03] := by
  cases a <;> simp [code]

/-- A first octet has the network in its high half and the kind in its low half, and there is one
for each network and kind. -/
theorem Network.code_or : ∀ (n : Network), ∀ kind ∈ [0x01, 0x02, 0x03],
    (n.code ||| kind) &&& 0xf0 = n.code ∧ (n.code ||| kind) &&& 0x0f = kind ∧
      (n.code ||| kind) ∈ [0x01, 0x02, 0x03, 0x11, 0x12, 0x13] := by
  intro n kind hkind
  simp only [List.mem_cons, List.not_mem_nil, or_false] at hkind
  rcases hkind with rfl | rfl | rfl <;> cases n <;> decide

/-- An octet is made of its two halves. -/
theorem high_or_low (c : UInt8) : (c &&& 0xf0) ||| (c &&& 0x0f) = c := by
  refine UInt8.eq_of_toBitVec_eq ?_
  show (c.toBitVec &&& 0xf0) ||| (c.toBitVec &&& 0x0f) = c.toBitVec
  rw [← BitVec.and_or_distrib_left]
  exact BitVec.and_allOnes

/-! ## Content -/

/-- The point of a public key decodes; every other address can be read. -/
def Address.Readable [Suite] : Address → Prop
  | .publicKey y => (Suite.decompress y).isSome
  | .script _ => True
  | .scriptHash _ => True

theorem Decoder.exactly_point_eq_ok [Suite] {b : Bytes} {y : PointName} :
    Decoder.point.exactly b = .ok y ↔ (Suite.decompress y).isSome ∧ b = y.1 := by
  constructor
  · intro h
    obtain ⟨c, hb, ⟨rfl, hy⟩, -⟩ :=
      Decoder.Faithful.plain (fun _ => Decoder.faithful_point) (Decoder.exactly_eq_ok.1 h)
    exact ⟨hy, by rw [hb, List.append_nil]⟩
  · rintro ⟨hy, rfl⟩
    exact (Decoder.reads_point hy).exactly

theorem Bytes.toOctets?_eq_some {n : Nat} {b : Bytes} {s : Octets n} :
    Bytes.toOctets? n b = some s ↔ b = s.1 := by
  unfold toOctets?
  constructor
  · intro h
    split at h
    · cases h
      rfl
    · cases h
  · rintro rfl
    rw [dif_pos s.2]

namespace NetworkAddress

section

variable [Suite]

/-- A kind and a content are accepted exactly when they are those of a readable address. -/
theorem ofContent_eq_ok {kind : UInt8} {content : Bytes} {a : Address} :
    ofContent kind content = .ok a ↔ a.Readable ∧ a.code = kind ∧ a.content = content := by
  constructor
  · intro h
    unfold ofContent at h
    split at h
    · rename_i hkind
      obtain ⟨y, hy, h⟩ := Outcome.bind_eq_ok.1 h
      obtain ⟨hpoint, hcontent⟩ := Decoder.exactly_point_eq_ok.1 hy
      cases h
      exact ⟨hpoint, hkind.symm, hcontent.symm⟩
    split at h
    · rename_i hkind
      split at h
      · cases h
      · -- as many octets as a script's hash has
        rename_i s hs
        cases h
        exact ⟨trivial, hkind.symm, (Bytes.toOctets?_eq_some.1 hs).symm⟩
    split at h
    · rename_i hkind
      cases h
      exact ⟨trivial, hkind.symm, rfl⟩
    · cases h
  · rintro ⟨ha, rfl, rfl⟩
    cases a with
    | publicKey y =>
      have hpoint : Decoder.point.exactly y.1 = .ok y := Decoder.exactly_point_eq_ok.2 ⟨ha, rfl⟩
      simp only [ofContent, Address.code, Address.content, hpoint, if_pos]
      rfl
    | script b => rfl
    | scriptHash s =>
      have hlength : Bytes.toOctets? 24 s.1 = some s := Bytes.toOctets?_eq_some.2 rfl
      simp [ofContent, Address.code, Address.content, hlength]

/-! ## Layers -/

/-- The octets in front of a checksum, read and written. -/
theorem ofBody_eq_ok {b : Bytes} {a : NetworkAddress} :
    ofBody b = .ok a ↔ a.address.Readable ∧ a.body = b := by
  obtain ⟨network, address⟩ := a
  cases b with
  | nil => exact iff_of_false (fun h => by cases h) (fun h => by cases h.2)
  | cons c content =>
    rw [ofBody]
    constructor
    · intro h
      split at h
      · cases h
      · rename_i n hn
        obtain ⟨a, ha, h⟩ := Outcome.bind_eq_ok.1 h
        cases h
        obtain ⟨hreadable, hkind, hcontent⟩ := ofContent_eq_ok.1 ha
        -- the halves of the first octet put together again
        have hnetwork := Network.ofCode?_eq_some.1 hn
        refine ⟨hreadable, ?_⟩
        rw [body, hnetwork, hkind, hcontent, high_or_low]
    · rintro ⟨hreadable, hbody⟩
      obtain ⟨rfl, rfl⟩ := List.cons.inj hbody
      have hnetwork : Network.ofCode? network.code = some network :=
        Network.ofCode?_eq_some.2 rfl
      have hcontent : ofContent address.code address.content = .ok address :=
        ofContent_eq_ok.2 ⟨hreadable, rfl, rfl⟩
      obtain ⟨hhigh, hlow, -⟩ := network.code_or _ address.code_mem
      simp only [hhigh, hlow, hnetwork, hcontent, Outcome.ok_bind]
      rfl

omit [Suite] in
theorem length_checksum (b : Bytes) : (checksum b).length = checksumLength := by
  rw [checksum, List.length_take, (Blake3.hash b).2]
  rfl

omit [Suite] in
theorem length_toBytes (a : NetworkAddress) :
    a.toBytes.length = a.body.length + checksumLength := by
  rw [toBytes, List.length_append, length_checksum]

omit [Suite] in
/-- The octets before the last four are the body. -/
theorem take_toBytes (a : NetworkAddress) :
    a.toBytes.take (a.toBytes.length - checksumLength) = a.body := by
  rw [length_toBytes, Nat.add_sub_cancel, toBytes, List.take_left]

omit [Suite] in
/-- The last four octets are the checksum. -/
theorem drop_toBytes (a : NetworkAddress) :
    a.toBytes.drop (a.toBytes.length - checksumLength) = checksum a.body := by
  rw [length_toBytes, Nat.add_sub_cancel, toBytes, List.drop_left]

/-- The octets of an address, read and written. -/
theorem ofBytes_eq_ok {b : Bytes} {a : NetworkAddress} :
    ofBytes b = .ok a ↔ a.address.Readable ∧ a.toBytes = b := by
  constructor
  · intro h
    simp only [ofBytes] at h
    split at h
    · cases h
    split at h
    · cases h
    · rename_i hsum
      obtain ⟨hreadable, hbody⟩ := ofBody_eq_ok.1 h
      refine ⟨hreadable, ?_⟩
      rw [toBytes, hbody, not_not.1 hsum, List.take_append_drop]
  · rintro ⟨hreadable, rfl⟩
    -- what was written is long enough to be cut in front of its checksum
    have hpos : 1 ≤ a.body.length := Nat.succ_le_succ (Nat.zero_le _)
    have hlong : ¬a.toBytes.length < 1 + checksumLength := by
      rw [length_toBytes]
      omega
    simp only [ofBytes, if_neg hlong, take_toBytes, drop_toBytes]
    rw [if_neg (not_not.2 rfl)]
    exact ofBody_eq_ok.2 ⟨hreadable, rfl⟩

/-- The text of an address, read and written. -/
theorem ofText_eq_ok {s : String} {a : NetworkAddress} :
    ofText s = .ok a ↔ a.address.Readable ∧ a.toText = s := by
  constructor
  · intro h
    unfold ofText at h
    split at h
    · cases h
    · rename_i b hb
      obtain ⟨hreadable, rfl⟩ := ofBytes_eq_ok.1 h
      exact ⟨hreadable, Base58.encode_of_decode hb⟩
  · rintro ⟨hreadable, rfl⟩
    rw [ofText, toText, Base58.decode_encode_self]
    exact ofBytes_eq_ok.2 ⟨hreadable, rfl⟩

/-! ## There and back -/

/-- **The encoding of addresses is exact.**  An address whose point decodes, if it has one, is read
back from its octets and from its text.  Octets and texts that are read as an address are the ones
it has.  Octets that are accepted are five at least, end with the first four octets of the hash of
everything before, and start with one of six octets, three for each network. -/
theorem encoding_exact :
    (∀ a : NetworkAddress, a.address.Readable →
      ofBytes a.toBytes = .ok a ∧ ofText a.toText = .ok a) ∧
    (∀ (b : Bytes) (a : NetworkAddress), ofBytes b = .ok a →
      a.address.Readable ∧ a.toBytes = b ∧ 5 ≤ b.length ∧
      b.drop (b.length - 4) = (Blake3.hash (b.take (b.length - 4))).1.take 4 ∧
      ∃ c, b.head? = some c ∧ c ∈ [0x01, 0x02, 0x03, 0x11, 0x12, 0x13]) ∧
    ∀ (s : String) (a : NetworkAddress), ofText s = .ok a → a.address.Readable ∧ a.toText = s := by
  refine ⟨fun a ha => ⟨ofBytes_eq_ok.2 ⟨ha, rfl⟩, ofText_eq_ok.2 ⟨ha, rfl⟩⟩, fun b a h => ?_,
    fun s a => ofText_eq_ok.1⟩
  obtain ⟨hreadable, rfl⟩ := ofBytes_eq_ok.1 h
  refine ⟨hreadable, rfl, ?_, ?_, _, rfl, ?_⟩
  · have hpos : 1 ≤ a.body.length := Nat.succ_le_succ (Nat.zero_le _)
    rw [length_toBytes, checksumLength]
    omega
  · exact (drop_toBytes a).trans (congrArg checksum (take_toBytes a)).symm
  · exact (a.network.code_or _ a.address.code_mem).2.2

end

section

attribute [local instance] Suite.residues

/-- The holder of a key, on the test network. -/
def testHolder : NetworkAddress := ⟨.test, .publicKey (Suite.multiple 2)⟩

/-- The address is read back from its text, and from its 37 octets, the first of which is `0x11`. -/
theorem encoding_exact_testHolder : testHolder.address.Readable ∧
    ofText testHolder.toText = .ok testHolder ∧
    ofBytes testHolder.toBytes = .ok testHolder ∧ 5 ≤ testHolder.toBytes.length ∧
    testHolder.toBytes.head? = some 0x11 := by
  have hreadable : testHolder.address.Readable := by
    show (Suite.decompress (Suite.multiple 2)).isSome
    decide
  obtain ⟨hbytes, htext⟩ := encoding_exact.1 testHolder hreadable
  obtain ⟨-, -, hlong, -⟩ := encoding_exact.2.1 _ testHolder hbytes
  exact ⟨hreadable, htext, hbytes, hlong, rfl⟩

end

end NetworkAddress

end Covenant
