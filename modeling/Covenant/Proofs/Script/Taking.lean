/-
  TAKING — what a decoder yields, and how many octets it takes for it.

  `Decoder.Takes d Q` says that whatever `d` yields is related by `Q` to the number of octets that
  it was read from.  Sequences take as many as their steps together.

  What follows an opcode consists of types, values, operands and bodies of functions, each with a
  reader of its own.  So what the readers ensure of the parts holds of the parts of the node
  (`Expr.takes_operandDecoder`), as long as it goes on to hold with more octets.
-/
import Covenant.Proofs.Script.Nesting
import Covenant.Proofs.Script.Newer

namespace Covenant

namespace Decoder

variable {α β : Type} {Q : α → Nat → Prop} {R : β → Nat → Prop}

/-- Whatever the decoder yields is related by `Q` to the number of octets it was read from. -/
def Takes (d : Decoder α) (Q : α → Nat → Prop) : Prop :=
  ∀ b v r, d b = .ok (v, r) → ∃ n, b.length = n + r.length ∧ Q v n

namespace Takes

theorem pure {a : α} (h : Q a 0) : Takes (Pure.pure a) Q := by
  intro b v r hrun
  cases hrun
  exact ⟨0, (Nat.zero_add _).symm, h⟩

theorem fail (e : CodecError) : Takes (throw e : Decoder α) Q := by
  intro b v r hrun
  cases hrun

theorem malformed (d : FormatDefect) : Takes (Decoder.malformed d : Decoder α) Q := fail _

theorem bind {x : Decoder α} {f : α → Decoder β} (hx : Takes x Q)
    (hf : ∀ a n, Q a n → Takes (f a) fun v m => R v (n + m)) : Takes (x >>= f) R := by
  intro b v r hrun
  obtain ⟨a, m, hfirst, hthen⟩ := bind_eq_ok.1 hrun
  obtain ⟨n, hn, hq⟩ := hx b a m hfirst
  obtain ⟨k, hk, hr⟩ := hf a n hq m v r hthen
  exact ⟨n + k, by omega, hr⟩

theorem of_asks {newer : Prop} {d : Decoder α} (h : Asks newer d) : Takes d fun _ _ => True := by
  intro b v r hrun
  have hle := (h.suffix hrun).length_le
  exact ⟨b.length - r.length, by omega, trivial⟩

/-- Nothing is asked of what is read. -/
theorem any {d : Decoder α} (h : Asks False d) : Takes d fun _ _ => True := of_asks h

theorem check {c : Prop} [Decidable c] {d : FormatDefect} {y : Decoder α}
    (hy : ¬c → Takes y Q) :
    Takes (if c then Decoder.malformed d >>= fun _ : PUnit => y else y) Q := by
  split
  · exact bind (malformed (Q := fun _ _ => False) d) fun _ _ h => h.elim
  · exact hy ‹_›

theorem ite {c : Prop} [Decidable c] {x y : Decoder α} (hx : Takes x Q) (hy : Takes y Q) :
    Takes (if c then x else y) Q := by
  split
  · exact hx
  · exact hy

theorem imp {d : Decoder α} {Q' : α → Nat → Prop} (h : Takes d Q) (hq : ∀ v n, Q v n → Q' v n) :
    Takes d Q' := by
  intro b v r hrun
  obtain ⟨n, hn, hv⟩ := h b v r hrun
  exact ⟨n, hn, hq v n hv⟩

theorem ensures {d : Decoder α} {P : α → Prop} (h : Takes d fun v _ => P v) : Ensures d P := by
  intro b v r hrun
  obtain ⟨n, -, hv⟩ := h b v r hrun
  exact hv

theorem exactly {d : Decoder α} (h : Takes d Q) {b : Bytes} {v : α} (hrun : d.exactly b = .ok v) :
    Q v b.length := by
  obtain ⟨n, hn, hv⟩ := h b v [] (exactly_eq_ok.1 hrun)
  rw [hn]
  exact hv

end Takes

/-- What is known of the octets that a decoder took is known of their number. -/
theorem Takes.of_faithful {d : Decoder α} {P : α → Bytes → Prop}
    (h : ∀ n, Faithful n 0 (fun _ => d) P) :
    Takes d fun v n => ∃ c : Bytes, c.length = n ∧ P v c := by
  intro b v r hrun
  obtain ⟨c, rfl, hc, -⟩ := Faithful.plain h hrun
  exact ⟨c.length, List.length_append, c, rfl, hc⟩

theorem Takes.octets {k : Nat} : Takes (Decoder.octets k) fun _ n => n = k :=
  (of_faithful fun _ => faithful_octets).imp fun s _ ⟨_, hn, hc⟩ => by rw [← hn, hc, s.2]

theorem Takes.number {k : Nat} : Takes (Decoder.number k) fun _ n => n = k :=
  (of_faithful fun _ => faithful_number).imp fun _ _ ⟨_, hn, hc, _⟩ => by
    rw [← hn, hc, Bytes.length_toLE]

theorem Takes.u32 : Takes Decoder.u32 fun _ n => n = 4 := .bind .number fun _ _ h => .pure h

theorem Takes.u64 : Takes Decoder.u64 fun _ n => n = 8 := .bind .number fun _ _ h => .pure h

theorem Takes.string : Takes Decoder.string fun s n => n = 4 + s.length :=
  .bind .number fun k _ hk => (of_faithful fun _ => faithful_take).imp fun s _ ⟨_, hn, hc, _⟩ => by
    rw [hk, ← hn, hc]

theorem Takes.lift {x : Except CodecError α} :
    Takes (Decoder.lift x) fun v n => n = 0 ∧ x = .ok v := by
  intro b v r hrun
  obtain ⟨a, rfl, hv⟩ := Outcome.map_eq_ok.1 hrun
  cases hv
  exact ⟨0, (Nat.zero_add _).symm, rfl, rfl⟩

/-- What is true with some octets is true with more. -/
def Grows (Q : α → Nat → Prop) : Prop := ∀ {v n m}, n ≤ m → Q v n → Q v m

theorem Takes.replicate {d : Decoder α} (hd : Takes d Q) (hgrows : Grows Q) (k : Nat) :
    Takes (d.replicate k) fun vs n => ∀ v ∈ vs, Q v n := by
  induction k with
  | zero => exact pure (by simp)
  | succ k ih =>
    refine bind hd fun v n hv => bind ih fun vs m hvs => pure ?_
    refine List.forall_mem_cons.2 ⟨hgrows (by omega) hv, fun w hw => hgrows ?_ (hvs w hw)⟩
    omega

end Decoder

open Decoder

namespace Expr

/-! ## The parts of a node -/

/-- The types in the node itself. -/
def types : Expr → List ValueType
  | .collOf t _ | .getVar _ t | .register _ _ t | .deserialize _ t => [t]
  | .loop _ _ s _ | .fold _ _ s _ => s.args.map Prod.snd ++ [s.result]
  | _ => []

/-- What a node consists of has these properties: the types and values in it, its operands and the
bodies of its functions. -/
structure Consists (T : ValueType → Prop) (V : Value → Prop) (S B : Expr → Prop) (e : Expr) :
    Prop where
  types : ∀ t ∈ e.types, T t
  values : ∀ v ∈ e.values, V v
  operands : ∀ s ∈ e.operands, S s
  bodies : ∀ s ∈ e.bodies, B s

variable {T : ValueType → Prop} {V : Value → Nat → Prop} {S B : Expr → Nat → Prop}
  {value : Decoder Value} {sub body : Decoder Expr}

theorem takes_signature (htype : Takes ValueType.decoder fun t _ => T t) :
    Takes Signature.decoder fun s _ => ∀ t ∈ s.args.map Prod.snd ++ [s.result], T t := by
  have harg : Takes Signature.argDecoder fun a _ => T a.2 :=
    .bind (.any .u32) fun _ _ _ => .bind htype fun t _ ht => .pure ht
  refine .bind (.any .count) fun n _ _ => .bind (harg.replicate (fun _ h => h) n)
    fun args _ hargs => .bind htype fun t _ ht => .pure ?_
  rw [List.forall_mem_append, List.forall_mem_map, List.forall_mem_singleton]
  exact ⟨hargs, ht⟩

/-- **What follows an opcode consists of what was read for its parts**: one case for each kind. -/
theorem takes_operandDecoder (htype : Takes ValueType.decoder fun t _ => T t)
    (hvalue : Takes value V) (hsub : Takes sub S) (hbody : Takes body B) (hV : Grows V)
    (hS : Grows S) (hB : Grows B) (op : Opcode) :
    Takes (operandDecoder value sub body op) fun e n => e.Consists T (V · n) (S · n) (B · n) := by
  have hlist : Takes (listDecoder sub) fun es n => ∀ e ∈ es, S e n :=
    .bind (.any .count) fun n _ _ => (hsub.replicate hS n).imp fun es m h e he =>
      hS (by omega) (h e he)
  have hdef : Takes (defDecoder sub) fun d n => S d.2 n :=
    .bind (.any .u32) fun _ _ _ => .bind hsub fun e m he => .pure (hS (by omega) he)
  have hsig := takes_signature htype
  have hnone {α : Type} {P : α → Prop} : ∀ x ∈ ([] : List α), P x := List.forall_mem_nil _
  have hone {e : Expr} {n m : Nat} (hle : n ≤ m) (h : S e n) : ∀ s ∈ [e], S s m :=
    List.forall_mem_singleton.2 (hS hle h)
  -- a part is followed by the other parts of the operation, hence the growth of what is known of it
  cases op with
  | const =>
    exact .bind hvalue fun v n hv =>
      .pure ⟨hnone, List.forall_mem_singleton.2 (hV (by omega) hv), hnone, hnone⟩
  | placeholder | use => exact .bind (.any .u32) fun _ _ _ => .pure ⟨hnone, hnone, hnone, hnone⟩
  | context => exact .pure ⟨hnone, hnone, hnone, hnone⟩
  | getVar | deserialize =>
    exact .bind (.any .u8) fun _ _ _ => .bind htype fun t _ ht =>
      .pure ⟨List.forall_mem_singleton.2 ht, hnone, hnone, hnone⟩
  | block =>
    refine .bind (.any .count) fun n _ _ => .bind (hdef.replicate hS n) fun ds _ hds =>
      .bind hsub fun e _ he => .pure ⟨hnone, hnone, ?_, hnone⟩
    rw [operands, List.forall_mem_append, List.forall_mem_map]
    exact ⟨fun d hd => hS (by omega) (hds d hd), hone (by omega) he⟩
  | variadic =>
    exact .bind hlist fun es n hes =>
      .pure ⟨hnone, hnone, fun e he => hS (by omega) (hes e he), hnone⟩
  | collOf =>
    exact .bind htype fun t _ ht => .bind hlist fun es n hes =>
      .pure ⟨List.forall_mem_singleton.2 ht, hnone, fun e he => hS (by omega) (hes e he), hnone⟩
  | unary => exact .bind hsub fun e _ he => .pure ⟨hnone, hnone, hone (by omega) he, hnone⟩
  | selectField =>
    exact .bind hsub fun e _ he => .bind (.any .u8) fun _ _ _ =>
      .pure ⟨hnone, hnone, hone (by omega) he, hnone⟩
  | register =>
    exact .bind hsub fun e _ he => .bind (.any .u8) fun _ _ _ => .check fun _ =>
      .bind htype fun t _ ht =>
        .pure ⟨List.forall_mem_singleton.2 ht, hnone, hone (by omega) he, hnone⟩
  | record k =>
    exact .bind (.any k.asks_fieldDecoder) fun _ _ _ => .bind hsub fun e _ he =>
      .pure ⟨hnone, hnone, hone (by omega) he, hnone⟩
  | binary =>
    exact .bind hsub fun a _ ha => .bind hsub fun b _ hb => .pure ⟨hnone, hnone,
      List.forall_mem_cons.2 ⟨hS (by omega) ha, hone (by omega) hb⟩, hnone⟩
  | ternary =>
    exact .bind hsub fun a _ ha => .bind hsub fun b _ hb => .bind hsub fun c _ hc =>
      .pure ⟨hnone, hnone, List.forall_mem_cons.2 ⟨hS (by omega) ha,
        List.forall_mem_cons.2 ⟨hS (by omega) hb, hone (by omega) hc⟩⟩, hnone⟩
  | byIndex =>
    refine .bind hsub fun c _ hc => .bind hsub fun i _ hi =>
      .bind (.any (asks_flagDecoder not_false)) fun default _ _ => ?_
    refine .ite (.bind hsub fun d _ hd => .pure ⟨hnone, hnone, ?_, hnone⟩)
      (.pure ⟨hnone, hnone, ?_, hnone⟩)
    · exact List.forall_mem_cons.2 ⟨hS (by omega) hc,
        List.forall_mem_cons.2 ⟨hS (by omega) hi, hone (by omega) hd⟩⟩
    · exact List.forall_mem_cons.2 ⟨hS (by omega) hc, hone (by omega) hi⟩
  | loop =>
    exact .bind hsub fun c _ hc => .bind hsig fun s _ hs => .bind hbody fun b _ hb =>
      .pure ⟨hs, hnone, hone (by omega) hc, List.forall_mem_singleton.2 (hB (by omega) hb)⟩
  | fold =>
    exact .bind hsub fun c _ hc => .bind hsub fun z _ hz => .bind hsig fun s _ hs =>
      .bind hbody fun b _ hb => .pure ⟨hs, hnone,
        List.forall_mem_cons.2 ⟨hS (by omega) hc, hone (by omega) hz⟩,
        List.forall_mem_singleton.2 (hB (by omega) hb)⟩
  | dhTuple =>
    exact .bind hsub fun g _ hg => .bind hsub fun h _ hh => .bind hsub fun u _ hu =>
      .bind hsub fun v _ hv => .pure ⟨hnone, hnone, List.forall_mem_cons.2 ⟨hS (by omega) hg,
        List.forall_mem_cons.2 ⟨hS (by omega) hh,
          List.forall_mem_cons.2 ⟨hS (by omega) hu, hone (by omega) hv⟩⟩⟩, hnone⟩

end Expr

end Covenant
