/-
  REVEALING — a box that names a script by its hash is spent with this script and no other.

  The condition behind a script hash is an expression like any other.  It reads a variable twice:
  its octets are hashed, cut to the length of the name and compared; and they are run as a script.
  Both halves of the conjunction are evaluated whatever the other one gives, so a wrong hash does
  not keep a script from running.  It only settles the conjunction as false.

  1. **The comparison** — `exact_hashMatches`: a boolean, for every byte string in the variable.
  2. **`exact_revealCondition`** — all that the condition can come down to.
  3. **`Address.reduce_scriptHash`** — the main statement, in both directions.
-/
import Covenant.Ledger.Address
import Covenant.Proofs.Reduction.Exact
import Covenant.Proofs.Script.Boxes
import Covenant.Proofs.Script.Equality
import Covenant.Proofs.Suite.Residues

namespace Covenant

section

variable [Suite] {script : Scope → UInt8 → ValueType → EvalM Value} {sc : Scope}

/-! ## The comparison -/

omit [Suite] in
/-- What an option that was read holds. -/
theorem readTyped_holds {d : ConditionDefect} {t : ValueType} {o : Option Value} {v : Value} :
    (∃ w, readTyped d t o = .ok w ∧ ∃ t', w = .option t' (some v)) ↔ o = some v ∧ v.type = t := by
  constructor
  · rintro ⟨_, hread, t', rfl⟩
    obtain ⟨htype, ⟨⟩⟩ := readTyped_eq_ok.1 hread
    exact ⟨rfl, htype v rfl⟩
  · rintro ⟨rfl, htype⟩
    exact ⟨_, if_pos htype, t, rfl⟩

/-- The content of a variable of a given type. -/
theorem exact_variable (hdepth : sc.depth + 1 ≤ maxExprDepth) (i : UInt8) (t : ValueType) :
    Exact ((Expr.unary .optionGet (.getVar i t)).evalWith script sc) fun v =>
      sc.context.extension.get? i = some v ∧ v.type = t :=
  (Expr.exact_unary (Nat.le_of_succ_le hdepth) (Expr.exact_getVar hdepth i t)
    UnaryOp.exact_optionGet).congr fun _ => readTyped_holds

/-- The first octets of the hash of what a variable holds. -/
theorem exact_hashFront (hdepth : sc.depth + 3 ≤ maxExprDepth) (i : UInt8) :
    Exact ((Expr.ternary .slice (.unary .blake3 (.unary .optionGet (.getVar i .bytes)))
      (.const (.int 0)) (.const (.int 24))).evalWith script sc) fun v =>
        ∃ b, sc.context.extension.get? i = some (.bytes b) ∧
          v = .bytes ((Blake3.hash b).1.take 24) := by
  have h₂ := Nat.le_of_succ_le hdepth
  have h₁ := Nat.le_of_succ_le h₂
  have hhash : Exact ((Expr.unary .blake3 (.unary .optionGet (.getVar i .bytes))).evalWith script
      sc.deeper) fun w => ∃ v, (sc.context.extension.get? i = some v ∧ v.type = .bytes) ∧
        ∃ b, v = .bytes b ∧ w = .bytes (Blake3.hash b).1 :=
    Expr.exact_unary h₁ (exact_variable hdepth i .bytes) UnaryOp.exact_blake3
  refine (Expr.exact_slice (Nat.le_of_succ_le h₁) hhash (Expr.exact_const h₁ _)
    (Expr.exact_const h₁ _)).congr fun v => ?_
  -- a hash has 32 octets, so neither bound is moved
  have hfront (b : Bytes) : ((Coll.bytes (Blake3.hash b).1).slice
      (min (clamp 0 (Coll.bytes (Blake3.hash b).1).size)
        (clamp 24 (Coll.bytes (Blake3.hash b).1).size))
      (clamp 24 (Coll.bytes (Blake3.hash b).1).size)).toValue =
        .bytes ((Blake3.hash b).1.take 24) := by
    simp [Coll.slice, Coll.size, Coll.toValue, clamp, (Blake3.hash b).2]
  constructor
  · rintro ⟨_, ⟨_, ⟨hv, -⟩, b, rfl, rfl⟩, _, ⟨⟩, _, rfl, l, hl, _, rfl, u, hu, rfl⟩
    cases hl
    cases hu
    exact ⟨b, hv, hfront b⟩
  · rintro ⟨b, hv, rfl⟩
    exact ⟨_, ⟨_, ⟨hv, rfl⟩, b, rfl, rfl⟩, _, rfl, _, rfl, _, rfl, _, rfl, _, rfl, (hfront b).symm⟩

/-- Whether the variable holds octets with a given hash. -/
theorem exact_hashMatches (hdepth : sc.depth + 4 ≤ maxExprDepth) (i : UInt8) (h : Octets 24) :
    Exact ((Expr.binary (.compare .eq) (.ternary .slice
      (.unary .blake3 (.unary .optionGet (.getVar i .bytes))) (.const (.int 0)) (.const (.int 24)))
      (.const (.bytes h.1))).evalWith script sc) fun v =>
        ∃ b, sc.context.extension.get? i = some (.bytes b) ∧
          v = .bool (decide ((Blake3.hash b).1.take 24 = h.1)) := by
  have h₁ : sc.depth + 1 ≤ maxExprDepth := by omega
  refine (Expr.exact_eq (Nat.le_of_succ_le h₁) (exact_hashFront hdepth i)
    (Expr.exact_const h₁ _)).congr fun v => ?_
  -- values are compared as values, and octets are equal as values only when they are equal
  have hsame (b : Bytes) : (Value.bytes b == .bytes h.1) = decide (b = h.1) := by
    rw [Bool.eq_iff_iff, beq_iff_eq, decide_eq_true_iff, Value.bytes.injEq]
  constructor
  · rintro ⟨_, ⟨b, hv, rfl⟩, _, rfl, -, rfl⟩
    exact ⟨b, hv, by rw [hsame]⟩
  · rintro ⟨b, hv, rfl⟩
    exact ⟨_, ⟨b, hv, rfl⟩, _, rfl, rfl, by rw [hsame]⟩

/-! ## What a script hash comes down to -/

/-- The scope of the condition behind a script hash. -/
def revealScope (ctx : Context) : Scope := ⟨ctx, [], [], 2, 0⟩

/-- Where a revealed script is run: below the conjunction and the node that asks for it. -/
def revealedScope (ctx : Context) : Scope := ⟨ctx, [], [], 2, 2⟩

/-- Variable `revealedScript` holds exactly the encoding of `s`, which has the hash. -/
structure Reveals (ctx : Context) (h : Octets 24) (b : Bytes) (s : Expr) : Prop where
  held : ctx.extension.get? revealedScript = some (.bytes b)
  hash : (Blake3.hash b).1.take 24 = h.1
  script : (Expr.decoder 2).exactly b = .ok s

omit [Suite] in
/-- Settled children fold away: the comparison decides whether the script counts. -/
theorem allOf_trivial_pair (b : Bool) (p : Proposition) :
    Proposition.allOf [.trivial b, p] = if b then p else .trivial false := by
  cases b with
  | false => rfl
  | true => cases p with
    | trivial b => cases b <;> rfl
    | leaf | node => rfl

omit [Suite] in
theorem sigmaProp_of_type {v : Value} (h : v.type = .sigmaProp) : ∃ p, v = .sigmaProp p := by
  cases v with
  | atom a => cases a with
    | sigmaProp p => exact ⟨p, rfl⟩
    | _ => cases h
  | _ => cases h

omit [Suite] in
/-- The condition behind a script hash is of the version that introduced hashing. -/
theorem version_revealCondition (h : Octets 24) :
    (Condition.new (revealCondition h)).version = 2 := by
  have hrequired : (revealCondition h).requiredVersion = 2 := by
    simp only [Expr.requiredVersion, revealCondition, Expr.opcodes, Expr.opcodesAll, Expr.opcode]
    decide
  rw [Condition.new, Condition.version, Condition.header, hrequired]
  decide

omit [Suite] in
theorem scope_revealCondition (h : Octets 24) (ctx : Context) :
    (Condition.new (revealCondition h)).scope ctx = revealScope ctx := by
  rw [Condition.scope, version_revealCondition]
  rfl

/-- The first half of the conjunction: settled, one way or the other. -/
theorem exact_hashHalf (h : Octets 24) (ctx : Context) :
    Exact ((Expr.unary .boolToSigma (.binary (.compare .eq) (.ternary .slice
      (.unary .blake3 (.unary .optionGet (.getVar revealedScript .bytes))) (.const (.int 0))
      (.const (.int 24))) (.const (.bytes h.1)))).evalWith runScript (revealScope ctx).deeper)
      fun v => ∃ b, ctx.extension.get? revealedScript = some (.bytes b) ∧
        v = .sigmaProp (.trivial (decide ((Blake3.hash b).1.take 24 = h.1))) := by
  have hdepth : 2 + 4 ≤ maxExprDepth := by decide
  refine (Expr.exact_unary (show 1 ≤ maxExprDepth by decide)
    (exact_hashMatches hdepth revealedScript h)
    UnaryOp.exact_boolToSigma).congr fun v => ?_
  constructor
  · rintro ⟨_, ⟨b, hb, rfl⟩, _, ⟨⟩, rfl⟩
    exact ⟨b, hb, rfl⟩
  · rintro ⟨b, hb, rfl⟩
    exact ⟨_, ⟨b, hb, rfl⟩, _, rfl, rfl⟩

/-- The second half: what the script in the variable gives, whatever its hash. -/
theorem exact_scriptHalf (ctx : Context) :
    Exact ((Expr.deserialize revealedScript .sigmaProp).evalWith runScript (revealScope ctx).deeper)
      fun v => ∃ b s p, ctx.extension.get? revealedScript = some (.bytes b) ∧
        (Expr.decoder 2).exactly b = .ok s ∧
        Returns (s.evalNested (revealedScope ctx)) (.sigmaProp p) ∧ v = .sigmaProp p := by
  refine (Expr.exact_deserialize (show 1 ≤ maxExprDepth by decide)
    (exact_runScript ⟨ctx, [], [], 2, 2⟩ revealedScript .sigmaProp)).congr fun v => ?_
  constructor
  · rintro ⟨s, ⟨b, hb, hs⟩, hv, htype⟩
    obtain ⟨p, rfl⟩ := sigmaProp_of_type htype
    exact ⟨b, s, p, hb, decodeScript_eq_ok.1 hs, hv, rfl⟩
  · rintro ⟨b, s, p, hb, hs, hv, rfl⟩
    exact ⟨s, ⟨b, hb, decodeScript_eq_ok.2 hs⟩, hv, rfl⟩

/-- **All that a script hash can come down to**: what the script in the variable gives, if it has
the hash, and a settled falsehood otherwise. -/
theorem exact_revealCondition (h : Octets 24) (ctx : Context) :
    Exact ((Condition.new (revealCondition h)).run ctx) fun q =>
      2 ≤ ctx.activatedVersion ∧ q.depth ≤ maxDepth ∧ ∃ b s p,
        ctx.extension.get? revealedScript = some (.bytes b) ∧
        (Expr.decoder 2).exactly b = .ok s ∧
        Returns (s.evalNested (revealedScope ctx)) (.sigmaProp p) ∧
        q = if (Blake3.hash b).1.take 24 = h.1 then p else .trivial false := by
  have hdepth : (revealScope ctx).depth ≤ maxExprDepth := Nat.zero_le _
  have hboth := Expr.exact_sigmaAnd_pair hdepth (exact_hashHalf h ctx) (exact_scriptHalf ctx)
  rw [← scope_revealCondition h ctx] at hboth
  refine (Condition.exact_run rfl hboth).congr fun q => ?_
  rw [version_revealCondition]
  refine and_congr_right fun _ => ?_
  constructor
  · rintro ⟨_, ⟨_, ⟨b, hb, rfl⟩, _, ⟨⟩, _, ⟨b', s, p, hb', hs, hv, rfl⟩, _, ⟨⟩, rfl⟩, ⟨⟩, hle⟩
    -- both halves read the same variable
    cases hb.symm.trans hb'
    refine ⟨hle, b, s, p, hb, hs, hv, ?_⟩
    rw [allOf_trivial_pair]
    simp only [decide_eq_true_eq]
  · rintro ⟨hle, b, s, p, hb, hs, hv, rfl⟩
    refine ⟨_, ⟨_, ⟨b, hb, rfl⟩, _, rfl, _, ⟨b, s, p, hb, hs, hv, rfl⟩, _, rfl, rfl⟩, ?_, hle⟩
    rw [allOf_trivial_pair]
    simp only [decide_eq_true_eq]
    rfl

/-- **A box under a script hash is spent with the script of this hash and with no other.**

A reduction that does not end in a settled falsehood ran what variable `revealedScript` holds:
octets with the hash, which are the encoding of one expression and nothing beyond it, and it ended
in the proposition that this expression gives without constants and bindings.

If a context reveals such an expression and it gives a proposition that is not too deep, on a
network that activated version 2, then every limit from some cost on lets the reduction end in
it. -/
theorem Address.reduce_scriptHash (h : Octets 24) (ctx : Context) :
    ∃ c, (Address.scriptHash h).condition = .ok c ∧
      (∀ limit r, c.reduce ctx limit = .ok r → r.proposition ≠ .trivial false →
        ∃ b s p, Reveals ctx h b s ∧ s.toBytes = b ∧
          Returns (s.evalNested (revealedScope ctx)) (.sigmaProp p) ∧ r.proposition = p) ∧
      ∀ b s p, Reveals ctx h b s → Returns (s.evalNested (revealedScope ctx)) (.sigmaProp p) →
        p.depth ≤ maxDepth → 2 ≤ ctx.activatedVersion →
          ∃ cost, ∀ limit, cost ≤ limit → c.reduce ctx limit = .ok ⟨p, cost⟩ := by
  obtain ⟨hforward, hbackward⟩ := Condition.reduce_of_exact (exact_revealCondition h ctx)
  refine ⟨_, rfl, fun limit r hr hne => ?_, fun b s p hreveals hs hdepth hactivated => ?_⟩
  · obtain ⟨-, -, b, s, p, hheld, hscript, hs, hp⟩ := hforward limit r hr
    by_cases hhash : (Blake3.hash b).1.take 24 = h.1
    · rw [if_pos hhash] at hp
      exact ⟨b, s, p, ⟨hheld, hhash, hscript⟩, (Expr.toBytes_of_exactly hscript).1, hs, hp⟩
    · -- another hash settles the condition as false, which was excluded
      rw [if_neg hhash] at hp
      exact (hne hp).elim
  · exact hbackward p ⟨hactivated, hdepth, b, s, p, hreveals.held, hreveals.script, hs,
      (if_pos hreveals.hash).symm⟩

end

/-! ## A key behind a hash -/

section

attribute [local instance] Suite.residues

open Suite

/-- The hash of a script is its name. -/
theorem take_hash (b : Bytes) : (Blake3.hash b).1.take 24 = (hashScript b).1 := by
  have hlong : 24 ≤ (Blake3.hash b).1.length := by simp [(Blake3.hash b).2]
  exact (List.take_append_of_le_length hlong).symm

/-- A script that asks for one secret. -/
def keyScript : Expr := .const (.sigmaProp (.dlog (multiple 3)))

/-- A context that reveals it. -/
def keyContext : Context :=
  { Context.blank with
    extension := ⟨[(revealedScript, .bytes keyScript.toBytes)], List.pairwise_singleton ..⟩
    activatedVersion := 2 }

/-- The box under the hash of the script comes down to the script's key, and whatever a reduction
comes down to, it is given by a script with this hash. -/
theorem Address.reduce_scriptHash_keyScript :
    ∃ c cost, (Address.ofScript keyScript).condition = .ok c ∧
      (∀ limit, cost ≤ limit → c.reduce keyContext limit = .ok ⟨.dlog (multiple 3), cost⟩) ∧
      ∃ b s, Reveals keyContext (hashScript keyScript.toBytes) b s ∧ s.toBytes = b := by
  obtain ⟨c, hc, hforward, hbackward⟩ :=
    Address.reduce_scriptHash (hashScript keyScript.toBytes) keyContext
  have hreveals : Reveals keyContext (hashScript keyScript.toBytes) keyScript.toBytes keyScript :=
    ⟨rfl, take_hash _, by with_unfolding_all rfl⟩
  have hreturns : Returns (keyScript.evalNested (revealedScope keyContext))
      (.sigmaProp (.dlog (multiple 3))) := ⟨Meter.unlimited, _, rfl⟩
  obtain ⟨cost, hcost⟩ := hbackward _ _ _ hreveals hreturns (by decide) (by decide)
  obtain ⟨b, s, _, hs, hbytes, -⟩ := hforward cost _ (hcost cost (UInt64.le_refl _)) nofun
  exact ⟨c, cost, hc, hcost, b, s, hs, hbytes⟩

end

end Covenant
