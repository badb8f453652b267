/-
  NUMBERING — where the nodes of a proposition stand in a listing, and how they are linked.

  All later passes over a proof tree see numbered nodes only: they go backwards where children have
  to come first, forwards where parents have to, and follow the numbers of parents and children
  instead of the tree.  That is sound because of how a listing is laid out.

  1. **Layout** — where a subtree stands in a listing (`LaidOut`): its root at a number `i`, linked
     to its parent, and its children one after the other from `i + 1` on.  What `listFrom` yields is
     laid out (`laidOut_of_listFrom`), and so is every subtree within it (`LaidOut.subtree`).
     Everything else is read off the layout, by induction on the tree.
  2. **Places** — a subtree fills consecutive places of the pre-order `subtrees`
     (`subtrees_consecutive`), so subtrees are nested like intervals (`subtrees_nested`).
  3. **Links** — the children of a node are numbered behind it and name it as their parent
     (`LaidOut.children`), and every node below the root has a parent that lists it
     (`LaidOut.exists_parent`).
-/
import Covenant.Proofs.Protocol.Meaning
import Mathlib.Data.List.Forall2

namespace Covenant

/-! ## Parents -/

/-- The parent of the node with number `i`. -/
def parentAt (ns : List ListedNode) (i : Nat) : Option Nat := ns[i]?.bind ListedNode.parent

/-- The parent of a node, the parent's parent and so on.  Only parents in front of the node are
followed. -/
@[semireducible] def ancestors (ns : List ListedNode) (i : Nat) : List Nat :=
  match parentAt ns i with
  | none => []
  | some k => if k < i then k :: ancestors ns k else []
termination_by i

theorem ancestors_of_parentAt {ns : List ListedNode} {i k : Nat} (h : parentAt ns i = some k)
    (hk : k < i) : ancestors ns i = k :: ancestors ns k := by
  rw [ancestors, h]
  exact if_pos hk

theorem ancestors_of_parentAt_eq_none {ns : List ListedNode} {i : Nat}
    (h : parentAt ns i = none) : ancestors ns i = [] := by
  rw [ancestors, h]

namespace Proposition

/-- What a node is listed as. -/
def kind? : Proposition → Option NodeKind
  | .trivial _ => none
  | .leaf s => some (.leaf s)
  | .node c _ => some (.inner c)

/-! ## Layout -/

mutual

/-- The nodes of a proposition stand in a listing from the number `i` on, its root below a given
parent. -/
def LaidOut (ns : List ListedNode) (i : Nat) (parent : Option Nat) : Proposition → Prop
  | .trivial _ => False
  | .leaf s => ns[i]? = some ⟨.leaf s, parent, []⟩
  | .node c cs => ns[i]? = some ⟨.inner c, parent, siblings (i + 1) cs⟩ ∧ LaidOutAll ns (i + 1) i cs

/-- The nodes of sibling propositions stand in a listing from the number `i` on. -/
def LaidOutAll (ns : List ListedNode) (i parent : Nat) : List Proposition → Prop
  | [] => True
  | c :: cs => LaidOut ns i (some parent) c ∧ LaidOutAll ns (i + c.size) parent cs

end

mutual

/-- What is listed from the number `i` on is laid out there. -/
theorem laidOut_of_listFrom {d : Nat} {parent : Option Nat} : ∀ {p : Proposition}
    {before below : List ListedNode} (after : List ListedNode),
    listFrom d before.length parent p = .ok below →
      LaidOut (before ++ below ++ after) before.length parent p
  | .trivial b, before, below, after, h => by
    simp only [listFrom] at h
    split at h <;> cases h
  | .leaf s, before, below, after, h => by
    simp only [listFrom] at h
    split at h <;> cases h
    simp [LaidOut]
  | .node c cs, before, below, after, h => by
    simp only [listFrom, Outcome.check_eq_ok, Outcome.bind_eq_ok] at h
    obtain ⟨-, -, -, rest, hrest, h⟩ := h
    cases h
    refine ⟨by simp, ?_⟩
    -- the node's own entry joins those before it, and its children start right behind
    let root : ListedNode := ⟨.inner c, parent, siblings (before.length + 1) cs⟩
    have hlen : (before ++ [root]).length = before.length + 1 := by simp
    have hbelow := laidOutAll_of_listAllFrom after (hlen ▸ hrest)
    simpa [root] using hbelow

theorem laidOutAll_of_listAllFrom {d parent : Nat} : ∀ {cs : List Proposition}
    {before below : List ListedNode} (after : List ListedNode),
    listAllFrom d before.length parent cs = .ok below →
      LaidOutAll (before ++ below ++ after) before.length parent cs
  | [], before, below, after, h => True.intro
  | c :: cs, before, below, after, h => by
    simp only [listAllFrom, Outcome.bind_eq_ok] at h
    obtain ⟨first, hfirst, rest, hrest, h⟩ := h
    cases h
    have hlen : (before ++ first).length = before.length + c.size := by
      rw [List.length_append, length_of_listFrom hfirst]
    have hhead := laidOut_of_listFrom (rest ++ after) hfirst
    have htail := laidOutAll_of_listAllFrom after (hlen ▸ hrest)
    exact ⟨by simpa using hhead, by simpa [length_of_listFrom hfirst] using htail⟩

end

variable {ns : List ListedNode} {i j k : Nat} {parent : Option Nat} {p q r : Proposition}
  {cs : List Proposition}

/-- The root of what is laid out: its kind, its parent, and the numbers of its children. -/
theorem LaidOut.root (h : LaidOut ns i parent p) :
    ∃ k, p.kind? = some k ∧ ns[i]? = some ⟨k, parent, siblings (i + 1) p.children⟩ := by
  cases p with
  | trivial b => exact h.elim
  | leaf s => exact ⟨_, rfl, h⟩
  | node c cs => exact ⟨_, rfl, h.1⟩

/-- The children of what is laid out are laid out behind its root. -/
theorem LaidOut.below (h : LaidOut ns i parent p) : LaidOutAll ns (i + 1) i p.children := by
  cases p with
  | trivial b => exact h.elim
  | leaf s => exact True.intro
  | node c cs => exact h.2

theorem LaidOut.parentAt_eq (h : LaidOut ns i parent p) : parentAt ns i = parent := by
  obtain ⟨k, -, hroot⟩ := h.root
  rw [parentAt, hroot]
  rfl

/-! ## Places -/

theorem subtreesAll_cons (c : Proposition) (cs : List Proposition) :
    subtreesAll (c :: cs) = c.subtrees ++ subtreesAll cs := rfl

/-- The pre-order begins with the root, and the children follow. -/
theorem subtrees_eq (p : Proposition) : p.subtrees = p :: subtreesAll p.children := by
  cases p <;> rfl

theorem getElem?_subtrees_zero (p : Proposition) : p.subtrees[0]? = some p := by
  rw [subtrees_eq]
  rfl

mutual

theorem length_subtrees : ∀ p : Proposition, p.subtrees.length = p.size
  | .trivial _ => rfl
  | .leaf _ => rfl
  | .node c cs => by
    rw [subtrees, List.length_cons, length_subtreesAll cs, size, Nat.add_comm]

theorem length_subtreesAll : ∀ cs : List Proposition, (subtreesAll cs).length = sizeAll cs
  | [] => rfl
  | c :: cs => by
    rw [subtreesAll_cons, List.length_append, length_subtrees c, length_subtreesAll cs, sizeAll]

end

theorem size_pos (p : Proposition) : 0 < p.size := by
  rw [size_eq]
  omega

mutual

/-- The parts of a subtree stand one behind the other, from its own place on. -/
theorem subtrees_consecutive : ∀ {p : Proposition} {i : Nat}, p.subtrees[i]? = some q →
    q.subtrees <+: p.subtrees.drop i
  | p, 0, h => by
    obtain rfl : p = q := Option.some.inj ((getElem?_subtrees_zero p).symm.trans h)
    exact List.prefix_refl _
  | .node c cs, i + 1, h => subtreesAll_consecutive (show (subtreesAll cs)[i]? = some q from h)

theorem subtreesAll_consecutive : ∀ {cs : List Proposition} {i : Nat},
    (subtreesAll cs)[i]? = some q → q.subtrees <+: (subtreesAll cs).drop i
  | [], i, h => nomatch h
  | c :: cs, i, h => by
    rw [subtreesAll_cons] at h ⊢
    by_cases hi : i < c.subtrees.length
    · rw [List.getElem?_append_left hi] at h
      rw [List.drop_append_of_le_length (Nat.le_of_lt hi)]
      exact (subtrees_consecutive h).trans (List.prefix_append _ _)
    · rw [Nat.not_lt] at hi
      rw [List.getElem?_append_right hi] at h
      rw [List.drop_append, List.drop_eq_nil_of_le hi, List.nil_append]
      exact subtreesAll_consecutive h

end

/-- A place inside a subtree, counted from the subtree's own. -/
theorem getElem?_subtrees_add (hq : p.subtrees[i]? = some q) (hj : j < q.size) :
    p.subtrees[i + j]? = q.subtrees[j]? := by
  obtain ⟨rest, hrest⟩ := subtrees_consecutive hq
  rw [← List.getElem?_drop, ← hrest, List.getElem?_append_left ((length_subtrees q).symm ▸ hj)]

/-- **Subtrees are nested like intervals**: one that begins inside another ends inside it. -/
theorem subtrees_nested (hq : p.subtrees[i]? = some q) (hr : p.subtrees[j]? = some r) (hij : i ≤ j)
    (hj : j < i + q.size) : j + r.size ≤ i + q.size := by
  obtain ⟨l, rfl⟩ := Nat.exists_eq_add_of_le hij
  rw [getElem?_subtrees_add hq (by omega)] at hr
  have hlen := (subtrees_consecutive hr).length_le
  rw [List.length_drop, length_subtrees, length_subtrees] at hlen
  omega

mutual

/-- Every subtree of what is laid out is laid out at its place. -/
theorem LaidOut.subtree : ∀ {p : Proposition} {i j : Nat} {parent : Option Nat},
    LaidOut ns i parent p → p.subtrees[j]? = some q → ∃ above, LaidOut ns (i + j) above q
  | p, i, 0, parent, h, hq => by
    obtain rfl : p = q := Option.some.inj ((getElem?_subtrees_zero p).symm.trans hq)
    exact ⟨parent, h⟩
  | .node c cs, i, j + 1, parent, h, hq => by
    obtain ⟨above, habove⟩ := LaidOutAll.subtree h.2 hq
    exact ⟨above, by rwa [Nat.add_right_comm] at habove⟩

theorem LaidOutAll.subtree : ∀ {cs : List Proposition} {i j parent : Nat},
    LaidOutAll ns i parent cs → (subtreesAll cs)[j]? = some q → ∃ above, LaidOut ns (i + j) above q
  | [], i, j, parent, h, hq => nomatch hq
  | c :: cs, i, j, parent, h, hq => by
    rw [subtreesAll_cons] at hq
    by_cases hj : j < c.subtrees.length
    · rw [List.getElem?_append_left hj] at hq
      exact LaidOut.subtree h.1 hq
    · rw [Nat.not_lt] at hj
      rw [List.getElem?_append_right hj] at hq
      obtain ⟨above, habove⟩ := LaidOutAll.subtree h.2 hq
      rw [length_subtrees] at hj habove
      exact ⟨above, by rwa [show i + c.size + (j - c.size) = i + j by omega] at habove⟩

end

/-! ## Links -/

theorem siblings_cons (i : Nat) (c : Proposition) (cs : List Proposition) :
    siblings i (c :: cs) = i :: siblings (i + c.size) cs := rfl

/-- Siblings are numbered within the places of their subtrees. -/
theorem bounds_of_mem_siblings (h : k ∈ siblings i cs) : i ≤ k ∧ k < i + sizeAll cs := by
  induction cs generalizing i with
  | nil => cases h
  | cons c cs ih =>
    have hpos := size_pos c
    rw [sizeAll_cons]
    rcases List.mem_cons.1 h with rfl | h
    · omega
    · have hbounds := ih h
      omega

/-- Siblings are numbered upwards. -/
theorem pairwise_siblings (i : Nat) (cs : List Proposition) :
    (siblings i cs).Pairwise (· < ·) := by
  induction cs generalizing i with
  | nil => exact List.Pairwise.nil
  | cons c cs ih =>
    refine List.Pairwise.cons (fun k hk => ?_) (ih _)
    have hpos := size_pos c
    have hbounds := bounds_of_mem_siblings hk
    omega

/-- The numbers of siblings lead to the siblings, in their order, and each names its parent. -/
theorem LaidOutAll.children {l : List Proposition} {parent : Nat} (h : LaidOutAll ns i parent cs)
    (hplace : subtreesAll cs <+: l.drop i) (hlt : parent < i) :
    List.Forall₂ (fun k c => parent < k ∧ parentAt ns k = some parent ∧ l[k]? = some c)
      (siblings i cs) cs := by
  induction cs generalizing i with
  | nil => exact List.Forall₂.nil
  | cons c cs ih =>
    obtain ⟨rest, hrest⟩ := hplace
    rw [subtreesAll_cons, List.append_assoc] at hrest
    refine List.Forall₂.cons ⟨hlt, h.1.parentAt_eq, ?_⟩ (ih h.2 ⟨rest, ?_⟩ (by omega))
    · rw [← Nat.add_zero i, ← List.getElem?_drop, ← hrest, subtrees_eq]
      rfl
    · rw [← List.drop_drop, ← hrest, ← length_subtrees, List.drop_left]

/-- **The children of a node** are numbered behind it, in the order of the tree, and name it as
their parent. -/
theorem LaidOut.children (h : LaidOut ns 0 none p) (hq : p.subtrees[i]? = some q) :
    List.Forall₂ (fun k c => i < k ∧ parentAt ns k = some i ∧ p.subtrees[k]? = some c)
      (siblings (i + 1) q.children) q.children := by
  obtain ⟨above, hlaid⟩ := h.subtree hq
  rw [Nat.zero_add] at hlaid
  obtain ⟨rest, hrest⟩ := subtrees_consecutive hq
  refine hlaid.below.children ⟨rest, ?_⟩ (Nat.lt_succ_self i)
  rw [← List.drop_drop, ← hrest, subtrees_eq]
  rfl

mutual

/-- Every node below the root of what is laid out has a parent there that lists it. -/
theorem LaidOut.exists_parent : ∀ {p : Proposition} {i k : Nat} {parent : Option Nat},
    LaidOut ns i parent p → i < k → k < i + p.size →
      ∃ j q, p.subtrees[j]? = some q ∧ parentAt ns k = some (i + j) ∧
        k ∈ siblings (i + j + 1) q.children
  | .leaf s, i, k, parent, h, hik, hk => by
    simp only [size] at hk
    omega
  | .node c cs, i, k, parent, h, hik, hk => by
    rw [size] at hk
    rcases LaidOutAll.exists_parent h.2 hik (by omega) with ⟨hparent, hmem⟩ | ⟨j, q, hq, hj, hmem⟩
    · exact ⟨0, node c cs, rfl, hparent, hmem⟩
    · have hplace : i + 1 + j = i + (j + 1) := by omega
      rw [hplace] at hj hmem
      exact ⟨j + 1, q, hq, hj, hmem⟩

theorem LaidOutAll.exists_parent : ∀ {cs : List Proposition} {i k parent : Nat},
    LaidOutAll ns i parent cs → i ≤ k → k < i + sizeAll cs →
      (parentAt ns k = some parent ∧ k ∈ siblings i cs) ∨
      ∃ j q, (subtreesAll cs)[j]? = some q ∧ parentAt ns k = some (i + j) ∧
        k ∈ siblings (i + j + 1) q.children
  | [], i, k, parent, h, hik, hk => by
    simp only [sizeAll] at hk
    omega
  | c :: cs, i, k, parent, h, hik, hk => by
    rw [sizeAll_cons] at hk
    rw [subtreesAll_cons]
    -- a number belongs to the first child's part or to those of its siblings
    rcases Nat.lt_or_ge k (i + c.size) with hfirst | hrest
    · -- the child itself, or one of the nodes below it
      rcases Nat.eq_or_lt_of_le hik with rfl | hlt
      · exact .inl ⟨h.1.parentAt_eq, List.mem_cons_self⟩
      · obtain ⟨j, q, hq, hj, hmem⟩ := LaidOut.exists_parent h.1 hlt hfirst
        have hinside := (List.getElem?_eq_some_iff.1 hq).1
        exact .inr ⟨j, q, (List.getElem?_append_left hinside).trans hq, hj, hmem⟩
    · rcases LaidOutAll.exists_parent h.2 hrest (by omega) with ⟨hm, hmem⟩ | ⟨j, q, hq, hj, hmem⟩
      · exact .inl ⟨hm, List.mem_cons_of_mem _ hmem⟩
      · refine .inr ⟨c.size + j, q, ?_, by rwa [← Nat.add_assoc], by rwa [← Nat.add_assoc]⟩
        rw [← length_subtrees, List.getElem?_append_right (Nat.le_add_right _ _),
          Nat.add_sub_cancel_left, hq]

end

/-- The parent of a node comes before it, and the node is among the places of its subtree. -/
theorem LaidOut.parentAt_spec (h : LaidOut ns 0 none p) (hk : k < p.size)
    (hj : parentAt ns k = some j) :
    ∃ r, p.subtrees[j]? = some r ∧ j < k ∧ k < j + r.size := by
  have hpos : 0 < k := by
    refine Nat.pos_of_ne_zero fun hzero => ?_
    rw [hzero, h.parentAt_eq] at hj
    cases hj
  obtain ⟨m, r, hr, hm, hmem⟩ := h.exists_parent hpos (by omega)
  rw [Nat.zero_add] at hm hmem
  obtain rfl : m = j := Option.some.inj (hm.symm.trans hj)
  have hbounds := bounds_of_mem_siblings hmem
  exact ⟨r, hr, by omega, by rw [size_eq]; omega⟩

/-! ## Whole listings -/

/-- A whole listing is laid out from the number zero on. -/
theorem laidOut_of_listing (h : p.listing = .ok ns) : LaidOut ns 0 none p := by
  rw [listing_eq] at h
  have hlaid : LaidOut ([] ++ ns ++ []) 0 none p := laidOut_of_listFrom [] h
  rwa [List.nil_append, List.append_nil] at hlaid

theorem length_of_listing (h : p.listing = .ok ns) : ns.length = p.size := by
  rw [listing_eq] at h
  exact length_of_listFrom h

/-- Every subtree has a node. -/
theorem lt_length_of_listing (h : p.listing = .ok ns) (hq : p.subtrees[i]? = some q) :
    i < ns.length := by
  rw [length_of_listing h, ← length_subtrees]
  exact (List.getElem?_eq_some_iff.1 hq).1

/-- The node at the place of a subtree: its kind, and the numbers of its children. -/
theorem node_of_listing (h : p.listing = .ok ns) (hq : p.subtrees[i]? = some q) :
    ∃ kind parent, q.kind? = some kind ∧
      ns[i]? = some ⟨kind, parent, siblings (i + 1) q.children⟩ := by
  obtain ⟨parent, hlaid⟩ := (laidOut_of_listing h).subtree hq
  obtain ⟨kind, hkind, hroot⟩ := hlaid.root
  rw [Nat.zero_add] at hroot
  exact ⟨kind, parent, hkind, hroot⟩

/-- Every node stands at the place of a subtree. -/
theorem subtree_of_listing {n : ListedNode} (h : p.listing = .ok ns) (hn : ns[i]? = some n) :
    ∃ q, p.subtrees[i]? = some q ∧ q.kind? = some n.kind ∧
      n.children = siblings (i + 1) q.children := by
  have hi : i < p.subtrees.length := by
    rw [length_subtrees, ← length_of_listing h]
    exact (List.getElem?_eq_some_iff.1 hn).1
  have hq := List.getElem?_eq_getElem hi
  obtain ⟨kind, parent, hkind, hroot⟩ := node_of_listing h hq
  rw [hn] at hroot
  cases hroot
  exact ⟨_, hq, hkind, rfl⟩

/-- The numbers of a node's children are different, larger than its own, and lead to nodes that name
it as their parent. -/
theorem children_of_listing {n : ListedNode} (h : p.listing = .ok ns) (hn : ns[i]? = some n) :
    n.children.Nodup ∧ ∀ j ∈ n.children, i < j ∧ parentAt ns j = some i := by
  obtain ⟨q, hq, -, hchildren⟩ := subtree_of_listing h hn
  obtain ⟨hlt, hrest⟩ := (List.forall₂_and_left _ _).1 ((laidOut_of_listing h).children hq)
  have hparent := ((List.forall₂_and_left _ _).1 hrest).1
  rw [hchildren]
  exact ⟨(pairwise_siblings _ _).imp Nat.ne_of_lt, fun j hj => ⟨hlt j hj, hparent j hj⟩⟩

/-- A node with children is a connective. -/
theorem inner_of_mem_children {n : ListedNode} (h : p.listing = .ok ns) (hn : ns[i]? = some n)
    (hj : j ∈ n.children) : ∃ c, n.kind = .inner c := by
  obtain ⟨q, -, hkind, hchildren⟩ := subtree_of_listing h hn
  cases q with
  | trivial b => cases hkind
  | leaf s =>
    rw [hchildren] at hj
    cases hj
  | node c cs => exact ⟨c, (Option.some.inj hkind).symm⟩

/-- Every node but the root has a parent that lists it. -/
theorem exists_parent_of_listing (h : p.listing = .ok ns) (hpos : 0 < k) (hk : k < ns.length) :
    ∃ i n, parentAt ns k = some i ∧ ns[i]? = some n ∧ k ∈ n.children := by
  rw [length_of_listing h, ← Nat.zero_add p.size] at hk
  obtain ⟨j, r, hr, hj, hmem⟩ := (laidOut_of_listing h).exists_parent hpos hk
  obtain ⟨kind, parent, -, hroot⟩ := node_of_listing h hr
  rw [Nat.zero_add] at hj hmem
  exact ⟨j, _, hj, hroot, hmem⟩

/-- A node that is named as a parent lists the node that names it. -/
theorem lists_of_parentAt (h : p.listing = .ok ns) (hk : parentAt ns k = some i) :
    ∃ n, ns[i]? = some n ∧ k ∈ n.children := by
  have hlt : k < ns.length := by
    obtain ⟨n, hn, -⟩ := Option.bind_eq_some_iff.1 hk
    exact (List.getElem?_eq_some_iff.1 hn).1
  have hpos : 0 < k := by
    refine Nat.pos_of_ne_zero fun hzero => ?_
    rw [hzero, (laidOut_of_listing h).parentAt_eq] at hk
    cases hk
  obtain ⟨j, n, hj, hn, hmem⟩ := exists_parent_of_listing h hpos hlt
  obtain rfl := Option.some.inj (hj.symm.trans hk)
  exact ⟨n, hn, hmem⟩

end Proposition

end Covenant
