/-
  SIGNING — a transaction that was signed verifies.

  1. **Stores are sound** — every way to add a secret checks or makes the statement it opens, so
     each secret of a store that was built opens the statement it is held for (`sound_of_build`).
  2. **Position by position** — signing proves the inputs in order, and verifying holds the `i`-th
     proof against the `i`-th proposition.  The two lists are as long as the transaction's inputs,
     so pairing them drops nothing (`verifySignedWith_iff`).
  3. **`ReducedTx.sign_then_verify`** — each proof verifies by completeness.
-/
import Covenant.Ledger.Session
import Covenant.Proofs.Key.Holding
import Covenant.Proofs.Protocol.Completeness
import Covenant.Proofs.Script.Equality

namespace Covenant

open Suite

/-! ## Stores are sound -/

namespace SecretStore

variable [Suite]

/-- **Stores are sound**: a store that was built finds only secrets that open the statement. -/
theorem sound_of_build {sources : SecretSources} {s : SecretStore} (h : build sources = .ok s) :
    Sound s.resolve := by
  intro st x hx
  obtain ⟨hadmissible, rfl⟩ := build_eq_ok.1 h
  exact hadmissible.opens ((holds_putAll sources.supplied).mem hx)

end SecretStore

/-! ## Position by position -/

namespace ReducedTx

section

variable [Suite]

/-- Signing proves the inputs in order. -/
theorem forall₂_of_proveFrom {secrets : SecretStore} {message : Bytes} {entropy : Nat → Octets 32}
    {i : Nat} {rs : List ReducedInput} {proofs : List Bytes}
    (h : proveFrom secrets message entropy i rs = .ok proofs) :
    List.Forall₂ (fun r proof => ∃ entropy,
      prove r.proposition secrets.resolve message entropy = .ok proof) rs proofs := by
  induction rs generalizing i proofs with
  | nil => cases h; exact .nil
  | cons r rs ih =>
    simp only [proveFrom, Outcome.bind_eq_ok] at h
    obtain ⟨proof, hproof, rest, hrest, h⟩ := h
    cases h
    refine .cons ⟨entropy i, ?_⟩ (ih hrest)
    -- a failed attempt stops the signing, so this one gave a proof
    unfold proveOne at hproof
    split at hproof
    · cases hproof
      assumption
    · cases hproof

/-- Proofs are verified in pairs with their propositions. -/
theorem verifyFrom_eq_ok {message : Bytes} {weights : Nat → Nat → Scalar} {i : Nat}
    {rs : List ReducedInput} {ss : List SignedInput} :
    verifyFrom message weights i rs ss = .ok () ↔ ∀ (j : Nat) (r : ReducedInput) (s : SignedInput),
      rs[j]? = some r → ss[j]? = some s →
        verify r.proposition s.proof message (weights (i + j)) = .ok () := by
  induction rs generalizing i ss with
  | nil => simp [verifyFrom]
  | cons r rs ih =>
    cases ss with
    | nil => simp [verifyFrom]
    | cons s ss =>
      have hcons : verifyFrom message weights i (r :: rs) (s :: ss) = .ok () ↔
          verify r.proposition s.proof message (weights i) = .ok () ∧
            verifyFrom message weights (i + 1) rs ss = .ok () := by
        rw [verifyFrom]
        cases verify r.proposition s.proof message (weights i) <;> simp [Outcome.throw_eq]
      rw [hcons, ih]
      -- the pair in front decides position zero, the rest the positions behind it
      constructor
      · rintro ⟨hfirst, hrest⟩ j r' s' hr hs
        cases j with
        | zero =>
          cases hr
          cases hs
          exact hfirst
        | succ j =>
          have hnext := hrest j r' s' hr hs
          rwa [Nat.add_assoc, Nat.add_comm 1] at hnext
      · intro hall
        refine ⟨hall 0 r s rfl rfl, fun j r' s' hr hs => ?_⟩
        have hnext := hall (j + 1) r' s' hr hs
        rwa [Nat.add_comm j, ← Nat.add_assoc] at hnext

/-- **Position by position**: a signed transaction passes when it is this one and the proof of each
input verifies for the proposition at its position. -/
theorem verifySignedWith_iff {r : ReducedTx} {signed : SignedTx} {weights : Nat → Nat → Scalar} :
    r.verifySignedWith signed weights = .ok () ↔ signed.unsigned = r.tx ∧
      ∀ i < r.tx.inputs.length, ∃ x s, r.inputs[i]? = some x ∧ signed.inputs[i]? = some s ∧
        verify x.proposition s.proof r.tx.toBytes (weights i) = .ok () := by
  have hcheck : r.verifySignedWith signed weights = .ok () ↔ signed.unsigned = r.tx ∧
      verifyFrom r.tx.toBytes weights 0 r.inputs signed.inputs = .ok () := by
    unfold verifySignedWith
    split <;> simp_all
  rw [hcheck, verifyFrom_eq_ok]
  refine and_congr_right fun hunsigned => ?_
  -- all three lists have one length
  have hlen : r.inputs.length = r.tx.inputs.length := r.length_inputs
  have hlen' : signed.inputs.length = r.tx.inputs.length := by
    rw [← hunsigned, SignedTx.unsigned, List.length_map]
  constructor
  · intro hall i hi
    have hx := List.getElem?_eq_getElem (hlen ▸ hi)
    have hs := List.getElem?_eq_getElem (hlen' ▸ hi)
    have hverify := hall i _ _ hx hs
    rw [Nat.zero_add] at hverify
    exact ⟨_, _, hx, hs, hverify⟩
  · intro hall i x s hx hs
    obtain ⟨hi, -⟩ := List.getElem?_eq_some_iff.1 hx
    obtain ⟨x', s', hx', hs', hverify⟩ := hall i (hlen ▸ hi)
    obtain rfl : x = x' := Option.some.inj (hx.symm.trans hx')
    obtain rfl : s = s' := Option.some.inj (hs.symm.trans hs')
    rwa [Nat.zero_add]

omit [Suite] in
/-- Attaching one proof to each input changes neither inputs nor proofs. -/
theorem attached_spec {inputs : List Input} {proofs : List Bytes}
    (hlen : proofs.length = inputs.length) :
    (List.zipWith (fun i p => (⟨i.boxId, p, i.extension⟩ : SignedInput)) inputs proofs).map
      (fun s => (⟨s.boxId, s.extension⟩ : Input)) = inputs ∧
    (List.zipWith (fun i p => (⟨i.boxId, p, i.extension⟩ : SignedInput)) inputs proofs).map
      SignedInput.proof = proofs := by
  induction inputs generalizing proofs with
  | nil => simp [List.length_eq_zero_iff.1 hlen]
  | cons i inputs ih =>
    obtain ⟨p, proofs, rfl⟩ := List.exists_cons_of_length_eq_add_one hlen
    obtain ⟨hinputs, hproofs⟩ := ih (Nat.succ.inj hlen)
    simp [hinputs, hproofs]

/-- What signing attaches to a transaction are proofs for its inputs, in order. -/
theorem sign_eq_ok {r : ReducedTx} {secrets : SecretStore} {entropy : Nat → Octets 32}
    {signed : SignedTx} (h : r.sign secrets entropy = .ok signed) : signed.unsigned = r.tx ∧
      List.Forall₂ (fun x s => ∃ entropy,
        prove x.proposition secrets.resolve r.tx.toBytes entropy = .ok s.proof) r.inputs
          signed.inputs := by
  simp only [sign, Outcome.bind_eq_ok] at h
  obtain ⟨proofs, hproofs, h⟩ := h
  have hforall := forall₂_of_proveFrom hproofs
  have hlen : proofs.length = r.tx.inputs.length := hforall.length_eq.symm.trans r.length_inputs
  simp only [UnsignedTx.sign, ne_eq, hlen, not_true, if_false] at h
  cases h
  obtain ⟨hinputs, hattached⟩ := attached_spec hlen
  constructor
  · rw [SignedTx.unsigned, hinputs]
  · rw [← hattached, List.forall₂_map_right_iff] at hforall
    exact hforall

end

/-- **What was signed verifies.**  When a reduced transaction is signed with a store that was built,
the result passes for any weights and has the transaction's id.  And what passes is exactly this
transaction with a proof for each input that verifies for the proposition at its position. -/
theorem sign_then_verify [Suite] [Lawful] (r : ReducedTx) :
    (∀ (sources : SecretSources) (secrets : SecretStore) (entropy : Nat → Octets 32)
      (signed : SignedTx), SecretStore.build sources = .ok secrets →
      r.sign secrets entropy = .ok signed →
      (∀ weights, r.verifySignedWith signed weights = .ok ()) ∧ signed.id = r.tx.id) ∧
    ∀ (signed : SignedTx) (weights : Nat → Nat → Scalar),
      r.verifySignedWith signed weights = .ok () ↔ signed.unsigned = r.tx ∧
        ∀ i < r.tx.inputs.length, ∃ x s, r.inputs[i]? = some x ∧ signed.inputs[i]? = some s ∧
          verify x.proposition s.proof r.tx.toBytes (weights i) = .ok () := by
  refine ⟨fun sources secrets entropy signed hbuild hsign => ?_,
    fun signed weights => verifySignedWith_iff⟩
  obtain ⟨hunsigned, hproofs⟩ := sign_eq_ok hsign
  refine ⟨fun weights => verifySignedWith_iff.2 ⟨hunsigned, fun i hi => ?_⟩, ?_⟩
  · have hlt : i < r.inputs.length := r.length_inputs.symm ▸ hi
    obtain ⟨hlen, hall⟩ := List.forall₂_iff_get.1 hproofs
    obtain ⟨entropy, hproof⟩ := hall i hlt (hlen ▸ hlt)
    exact ⟨_, _, List.getElem?_eq_getElem hlt, List.getElem?_eq_getElem (hlen ▸ hlt),
      verify_of_prove (SecretStore.sound_of_build hbuild) hproof (weights i)⟩
  · rw [SignedTx.id, hunsigned]

section

attribute [local instance] Suite.residues Suite.lawful_residues

/-- A transaction of two inputs: one asks for a logarithm, the other for nothing. -/
def logAndNothing : ReducedTx where
  tx := ⟨[⟨.zero 32, .empty⟩, ⟨.zero 32, .empty⟩], [], []⟩
  inputs := [⟨.dlog (multiple 3), 11, .empty⟩, ⟨.trivial true, 11, .empty⟩]
  totalCost := 22
  fits := rfl

/-- It is signed by who knows the logarithm. -/
theorem sign_then_verify_logAndNothing : ∃ secrets signed,
    SecretStore.build ⟨none, [], [ofNat 3], []⟩ = .ok secrets ∧
    logAndNothing.sign secrets (fun _ => .zero 32) = .ok signed ∧
    (∀ weights, logAndNothing.verifySignedWith signed weights = .ok ()) ∧
    signed.id = logAndNothing.tx.id := by
  have hbuild : SecretStore.build ⟨none, [], [ofNat 3], []⟩ = .ok _ := rfl
  have hsign : ∃ signed, logAndNothing.sign ⟨[(.dlog (multiple 3), ofNat 3)], none, []⟩
      (fun _ => .zero 32) = .ok signed := ⟨_, rfl⟩
  obtain ⟨signed, hsigned⟩ := hsign
  exact ⟨_, signed, hbuild, hsigned,
    (sign_then_verify logAndNothing).1 _ _ _ signed hbuild hsigned⟩

end

end ReducedTx

end Covenant
