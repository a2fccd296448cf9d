/-
The check of a unit is exact.

A node violates what desugaring promises if it is a string literal, if it adds to an operand of the
string class, or if it refers to a member without a canonical form. The check passes with the number
of references, or it fails with the error of the first node in preorder that violates something.
Making members canonical on the way neither adds a violation nor takes one away. The main
statements:

* `checkNode_error_iff`: the check of a node finds what is wrong with it.
* `checkNodesFrom_ok_iff`, `checkNodesFrom_error_iff`: from this the check of nodes in order.
* `violates_afterMembers_iff`: what is wrong with a node does not depend on when it is looked at.
* `validate_exact`: all this for the nodes of a unit.
-/
import Erasure.Proofs.Canonical.Persistence
import Erasure.Proofs.Tree.Desugaring
import Erasure.Proofs.Tree.Visiting

namespace Erasure.Validation

open Canonicalizer (canonicalizeMember afterMembers Reachable)

variable {a : Arena} {n : NodeId} {ns : List NodeId} {s : Canonicalizer}

/-! ### Violations -/

/-- A node refers to a member. -/
inductive RefersTo (a : Arena) : NodeId → MemberId → Prop
  | field {e : ExprId} {receiver : Receiver} {m : MemberId} :
      (a.expr e).kind = .field receiver m → RefersTo a (.expr e) m
  | call {e : ExprId} {receiver : Receiver} {m : MemberId} {args : List ExprId}
      {dispatch : Dispatch} : (a.expr e).kind = .call receiver m args dispatch →
      RefersTo a (.expr e) m
  | new {e : ExprId} {m : MemberId} {outer : Option ExprId} {args : List ExprId} :
      (a.expr e).kind = .new m outer args → RefersTo a (.expr e) m
  | constructorCall {x : StmtId} {kind : ConstructorCallKind} {m : MemberId} {args : List ExprId} :
      (a.stmt x).kind = .constructorCall kind m args → RefersTo a (.stmt x) m

/-- A node is a string literal, or it adds to an operand of the string class. -/
inductive HasString (a : Arena) : NodeId → TreeError → Prop
  | literal {e : ExprId} {text : Name} : (a.expr e).kind = .str text →
      HasString a (.expr e) (.stringLiteralRemains (a.expr e).span)
  | concatenation {e left right : ExprId} : (a.expr e).kind = .binary .add left right →
      (a.expr left).type = .string ∨ (a.expr right).type = .string →
      HasString a (.expr e) (.stringConcatRemains (a.expr e).span)

/-- What is wrong with a node: a string, or a reference to a member without a canonical form. -/
inductive Violates (a : Arena) (s : Canonicalizer) (n : NodeId) : TreeError → Prop
  | string {e : TreeError} : HasString a n e → Violates a s n e
  | reference {m : MemberId} {e : CanonError} : RefersTo a n m →
      ((canonicalizeMember m).run s).1 = .error e → Violates a s n (.canon e)

theorem memberOf?_eq_some_iff {m : MemberId} : memberOf? a n = some m ↔ RefersTo a n m := by
  constructor
  · intro h
    cases n with
    | expr e =>
      rw [memberOf?] at h
      split at h
      case h_1 hk => exact Option.some.inj h ▸ .field hk
      case h_2 hk => exact Option.some.inj h ▸ .call hk
      case h_3 hk => exact Option.some.inj h ▸ .new hk
      case h_4 => cases h
    | stmt x =>
      rw [memberOf?] at h
      split at h
      case h_1 hk => exact Option.some.inj h ▸ .constructorCall hk
      case h_2 => cases h
  · rintro (hk | hk | hk | hk) <;> rw [memberOf?, hk]

theorem stringError?_eq_some_iff {e : TreeError} : stringError? a n = some e ↔ HasString a n e := by
  constructor
  · intro h
    cases n with
    | stmt x => cases h
    | expr x =>
      obtain ⟨form, hform, rfl⟩ := Option.map_eq_some_iff.mp h
      rcases StringForm.ofExpr?_eq_some hform with ⟨text, rfl, hk⟩ | ⟨left, right, rfl, hk, htype⟩
      · exact .literal hk
      · exact .concatenation hk htype
  · rintro (hk | ⟨hk, htype⟩)
    · rw [stringError?, StringForm.ofExpr?, hk]
      rfl
    · rw [stringError?, StringForm.ofExpr?, hk]
      simp only [Bool.or_eq_true, decide_eq_true_eq, htype, if_true, Option.map_some]

/-- A node with a string refers to no member. -/
theorem HasString.memberOf? {e : TreeError} (h : HasString a n e) : memberOf? a n = none := by
  cases h with
  | literal hk => rw [Validation.memberOf?, hk]
  | concatenation hk _ => rw [Validation.memberOf?, hk]

/-! ### A node -/

/-- The members that nodes refer to, in order. -/
def references (a : Arena) (ns : List NodeId) : List MemberId := ns.filterMap (memberOf? a)

theorem references_cons (n : NodeId) (ns : List NodeId) :
    references a (n :: ns) = references a [n] ++ references a ns :=
  List.filterMap_append (l := [n])

theorem mem_references_iff {m : MemberId} :
    m ∈ references a ns ↔ ∃ n ∈ ns, RefersTo a n m := by
  rw [references, List.mem_filterMap]
  exact exists_congr fun n => and_congr_right fun _ => memberOf?_eq_some_iff

theorem violates_iff {e : TreeError} : Violates a s n e ↔ stringError? a n = some e ∨
    ∃ m x, memberOf? a n = some m ∧ ((canonicalizeMember m).run s).1 = .error x ∧ .canon x = e := by
  constructor
  · rintro (h | ⟨hm, herror⟩)
    · exact .inl (stringError?_eq_some_iff.mpr h)
    · exact .inr ⟨_, _, memberOf?_eq_some_iff.mpr hm, herror, rfl⟩
  · rintro (h | ⟨m, x, hm, herror, rfl⟩)
    · exact .string (stringError?_eq_some_iff.mp h)
    · exact .reference (memberOf?_eq_some_iff.mp hm) herror

/-- The check of a node finds what is wrong with it. -/
theorem checkNode_error_iff {e : TreeError} :
    ((checkNode a n).run s).1 = .error e ↔ Violates a s n e := by
  rw [violates_iff, run_checkNode]
  cases hstring : stringError? a n with
  | some e' => simp [(stringError?_eq_some_iff.mp hstring).memberOf?]
  | none =>
    cases memberOf? a n with
    | none => simp
    | some m =>
      dsimp only
      cases hrun : ((canonicalizeMember m).run s).1 with
      | ok c => simp [hrun]
      | error x => simp [hrun]

/-- Nothing is wrong with a node that passes. -/
theorem not_violates_of_ok {k : Nat} (h : ((checkNode a n).run s).1 = .ok k) (e : TreeError) :
    ¬ Violates a s n e := fun he => nomatch h.symm.trans (checkNode_error_iff.mpr he)

/-- A node that passes adds its member to those that were made canonical. -/
theorem run_checkNode_of_ok {k : Nat} (h : ((checkNode a n).run s).1 = .ok k) :
    (checkNode a n).run s =
      (.ok (references a [n]).length, s.afterMembers (references a [n])) := by
  rw [run_checkNode] at h ⊢
  rw [references, List.filterMap_cons, List.filterMap_nil]
  cases hstring : stringError? a n with
  | some e =>
    rw [hstring] at h
    cases h
  | none =>
    cases hmember : memberOf? a n with
    | none => rfl
    | some m =>
      rw [hstring, hmember] at h
      dsimp only at h ⊢
      cases hrun : ((canonicalizeMember m).run s).1 with
      | ok c => rfl
      | error x =>
        rw [hrun] at h
        cases h

/-! ### Nodes in order -/

/-- Nothing is wrong with any of the nodes when its turn comes. -/
def Passes (a : Arena) (s : Canonicalizer) (ns : List NodeId) : Prop :=
  ∀ before n after, ns = before ++ n :: after →
    ∀ e, ¬ Violates a (s.afterMembers (references a before)) n e

theorem passes_nil : Passes a s [] := fun before n after h =>
  absurd h.symm (List.append_ne_nil_of_right_ne_nil before (List.cons_ne_nil n after))

theorem afterMembers_references_cons (n : NodeId) (ns : List NodeId) :
    s.afterMembers (references a (n :: ns)) =
      (s.afterMembers (references a [n])).afterMembers (references a ns) := by
  rw [references_cons, afterMembers, List.foldl_append]
  rfl

theorem passes_cons_iff : Passes a s (n :: ns) ↔
    (∀ e, ¬ Violates a s n e) ∧ Passes a (s.afterMembers (references a [n])) ns := by
  constructor
  · refine fun h => ⟨h [] n ns rfl, fun before x after hns => ?_⟩
    rw [← afterMembers_references_cons]
    exact h (n :: before) x after (congrArg (n :: ·) hns)
  · rintro ⟨hn, hns⟩ before x after h
    rcases List.cons_eq_append_iff.mp h with ⟨rfl, heq⟩ | ⟨before, rfl, heq⟩
    · obtain ⟨rfl, -⟩ := List.cons.inj heq
      exact hn
    · rw [afterMembers_references_cons]
      exact hns before x after heq

theorem run_checkNodesFrom_of_ok {checked k : Nat} (h : ((checkNode a n).run s).1 = .ok k) :
    (checkNodesFrom a checked (n :: ns)).run s =
      (checkNodesFrom a (checked + (references a [n]).length) ns).run
        (s.afterMembers (references a [n])) := by
  rw [run_checkNodesFrom_cons, run_checkNode_of_ok h]

theorem run_checkNodesFrom_of_error {checked : Nat} {e : TreeError}
    (h : ((checkNode a n).run s).1 = .error e) :
    ((checkNodesFrom a checked (n :: ns)).run s).1 = .error e := by
  rw [run_checkNodesFrom_cons]
  generalize (checkNode a n).run s = r at h ⊢
  obtain ⟨result, t⟩ := r
  obtain rfl : result = .error e := h
  rfl

/-- The check of nodes passes if nothing is wrong with any of them when its turn comes, and it
counts the references. -/
theorem checkNodesFrom_ok_iff {checked k : Nat} :
    ((checkNodesFrom a checked ns).run s).1 = .ok k ↔
      Passes a s ns ∧ k = checked + (references a ns).length := by
  induction ns generalizing s checked with
  | nil =>
    rw [run_checkNodesFrom_nil]
    exact ⟨fun h => ⟨passes_nil, (Except.ok.inj h).symm⟩, fun h => congrArg Except.ok h.2.symm⟩
  | cons n ns ih =>
    rw [passes_cons_iff]
    cases hnode : ((checkNode a n).run s).1 with
    | ok j =>
      have hpass := not_violates_of_ok hnode
      rw [run_checkNodesFrom_of_ok hnode, ih, and_iff_right hpass, references_cons n ns,
        List.length_append, Nat.add_assoc]
    | error e =>
      rw [run_checkNodesFrom_of_error hnode]
      exact iff_of_false nofun fun h => h.1.1 e (checkNode_error_iff.mp hnode)

/-- The check of nodes fails with the error of the first one that something is wrong with when its
turn comes. -/
theorem checkNodesFrom_error_iff {checked : Nat} {e : TreeError} :
    ((checkNodesFrom a checked ns).run s).1 = .error e ↔
      ∃ before n after, ns = before ++ n :: after ∧ Passes a s before ∧
        Violates a (s.afterMembers (references a before)) n e := by
  induction ns generalizing s checked with
  | nil =>
    rw [run_checkNodesFrom_nil]
    refine iff_of_false nofun ?_
    rintro ⟨before, n, after, h, -⟩
    exact List.append_ne_nil_of_right_ne_nil before (List.cons_ne_nil n after) h.symm
  | cons n ns ih =>
    cases hnode : ((checkNode a n).run s).1 with
    | ok j =>
      have hpass := not_violates_of_ok hnode
      rw [run_checkNodesFrom_of_ok hnode, ih]
      constructor
      · rintro ⟨before, x, after, rfl, hbefore, hx⟩
        refine ⟨n :: before, x, after, rfl, passes_cons_iff.mpr ⟨hpass, hbefore⟩, ?_⟩
        rwa [afterMembers_references_cons]
      · rintro ⟨before, x, after, h, hbefore, hx⟩
        rcases List.cons_eq_append_iff.mp h with ⟨rfl, heq⟩ | ⟨before, rfl, rfl⟩
        · obtain ⟨rfl, -⟩ := List.cons.inj heq
          exact absurd hx (hpass e)
        · rw [afterMembers_references_cons] at hx
          exact ⟨before, x, after, rfl, (passes_cons_iff.mp hbefore).2, hx⟩
    | error e' =>
      have hviolates := checkNode_error_iff.mp hnode
      rw [run_checkNodesFrom_of_error hnode]
      constructor
      · rintro ⟨⟩
        exact ⟨[], n, ns, rfl, passes_nil, hviolates⟩
      · rintro ⟨before, x, after, h, hbefore, hx⟩
        rcases List.cons_eq_append_iff.mp h with ⟨rfl, heq⟩ | ⟨before, rfl, -⟩
        · obtain ⟨rfl, -⟩ := List.cons.inj heq
          exact hnode.symm.trans (checkNode_error_iff.mpr hx)
        · exact absurd hviolates ((passes_cons_iff.mp hbefore).1 e')

/-! ### Violations at the start -/

/-- What is wrong with a node does not depend on when it is looked at. -/
theorem violates_afterMembers_iff (hs : Reachable s) (hacyclic : s.types.Acyclic)
    {ms : List MemberId} (hms : ∀ m ∈ ms, s.types.HasMember m)
    (hn : ∀ m, RefersTo a n m → s.types.HasMember m) {e : TreeError} :
    Violates a (s.afterMembers ms) n e ↔ Violates a s n e := by
  have hiff : ∀ {m x}, RefersTo a n m → (((canonicalizeMember m).run (s.afterMembers ms)).1 =
      .error x ↔ ((canonicalizeMember m).run s).1 = .error x) := fun hm =>
    Canonicalizer.canonicalizeMember_error_iff hs hacyclic hms (hn _ hm)
  constructor
  · rintro (h | ⟨hm, herror⟩)
    · exact .string h
    · exact .reference hm ((hiff hm).mp herror)
  · rintro (h | ⟨hm, herror⟩)
    · exact .string h
    · exact .reference hm ((hiff hm).mpr herror)

section

variable (hs : Reachable s) (hacyclic : s.types.Acyclic)
  (hns : ∀ n ∈ ns, ∀ m, RefersTo a n m → s.types.HasMember m)
include hs hacyclic hns

theorem violates_at_turn_iff {before after : List NodeId} (heq : ns = before ++ n :: after)
    {e : TreeError} :
    Violates a (s.afterMembers (references a before)) n e ↔ Violates a s n e := by
  subst heq
  refine violates_afterMembers_iff hs hacyclic (fun m hm => ?_)
    (hns n (List.mem_append_right _ List.mem_cons_self))
  obtain ⟨x, hx, hxm⟩ := mem_references_iff.mp hm
  exact hns x (List.mem_append_left _ hx) m hxm

theorem passes_iff : Passes a s ns ↔ ∀ n ∈ ns, ∀ e, ¬ Violates a s n e := by
  constructor
  · intro h n hn e he
    obtain ⟨before, after, heq⟩ := List.append_of_mem hn
    exact h before n after heq e ((violates_at_turn_iff hs hacyclic hns heq).mpr he)
  · intro h before n after heq e he
    exact h n (heq ▸ List.mem_append_right _ List.mem_cons_self) e
      ((violates_at_turn_iff hs hacyclic hns heq).mp he)

end

/-! ### Units -/

variable {u : CompilationUnit}

/-- No tree of the unit has a string literal or an addition to an operand of the string class, and
every member that a node refers to has a canonical form. -/
structure IsClean (u : CompilationUnit) (s : Canonicalizer) : Prop where
  literal : ∀ {e text}, u.HasNode (.expr e) → (u.arena.expr e).kind ≠ .str text
  concatenation : ∀ {e left right}, u.HasNode (.expr e) →
    (u.arena.expr e).kind = .binary .add left right →
    (u.arena.expr left).type ≠ .string ∧ (u.arena.expr right).type ≠ .string
  reference : ∀ {n m}, u.HasNode n → RefersTo u.arena n m →
    ∃ c, ((canonicalizeMember m).run s).1 = .ok c

theorem isClean_iff : IsClean u s ↔ ∀ n, u.HasNode n → ∀ e, ¬ Violates u.arena s n e := by
  constructor
  · rintro h n hn e (hstring | ⟨hm, herror⟩)
    · cases hstring with
      | literal hk => exact h.literal hn hk
      | concatenation hk htype =>
        exact htype.elim (h.concatenation hn hk).1 (h.concatenation hn hk).2
    · obtain ⟨c, hc⟩ := h.reference hn hm
      exact nomatch hc.symm.trans herror
  · intro h
    constructor
    case literal => exact fun hn hk => h _ hn _ (.string (.literal hk))
    case concatenation =>
      exact fun hn hk => ⟨fun hleft => h _ hn _ (.string (.concatenation hk (.inl hleft))),
        fun hright => h _ hn _ (.string (.concatenation hk (.inr hright)))⟩
    case reference =>
      intro n m hn hm
      cases hrun : ((canonicalizeMember m).run s).1 with
      | ok c => exact ⟨c, rfl⟩
      | error e => exact absurd (.reference hm hrun) (h n hn (.canon e))

/-- The check of a unit without cycles looks at the nodes of its trees in preorder, and it comes to
the result of a visitor that keeps the first error. It passes if nothing is wrong with any node when
its turn comes, with the number of references; otherwise it fails with the error of the first node
that something is wrong with. If the members are there and the declarations acyclic, it makes no
difference whether members are made canonical when their turn comes or at the start. -/
theorem validate_exact (hu : u.IsAcyclic) (s : Canonicalizer) :
    let result := (validate u).run s
    let count := (references u.arena u.nodes).length
    u.nodes = (u.roots.flatMap fun r => (u.arena.tree r).preorder.map Prod.fst) ∧
    (Visitor.visitUnit ⟨s, 0, none⟩ u).result = result ∧
    (∀ k, result.1 = .ok k ↔ Passes u.arena s u.nodes ∧ k = count) ∧
    (∀ e, result.1 = .error e ↔ ∃ before n after, u.nodes = before ++ n :: after ∧
      Passes u.arena s before ∧ Violates u.arena (s.afterMembers (references u.arena before)) n e) ∧
    (Reachable s → s.types.Acyclic →
      (∀ n m, u.HasNode n → RefersTo u.arena n m → s.types.HasMember m) →
      (∀ k, result.1 = .ok k ↔ IsClean u s ∧ k = count) ∧
      ∀ e, result.1 = .error e ↔ ∃ before n after, u.nodes = before ++ n :: after ∧
        (∀ x ∈ before, ∀ e', ¬ Violates u.arena s x e') ∧ Violates u.arena s n e) := by
  have hok : ∀ k, ((validate u).run s).1 = .ok k ↔
      Passes u.arena s u.nodes ∧ k = (references u.arena u.nodes).length := fun k => by
    rw [← Nat.zero_add (references u.arena u.nodes).length]
    exact checkNodesFrom_ok_iff
  have herror : ∀ e, ((validate u).run s).1 = .error e ↔ ∃ before n after,
      u.nodes = before ++ n :: after ∧ Passes u.arena s before ∧
        Violates u.arena (s.afterMembers (references u.arena before)) n e := fun e =>
    checkNodesFrom_error_iff
  refine ⟨hu.nodes_eq, Visitor.visitUnit_result s u, hok, herror, fun hs hacyclic hmembers => ?_⟩
  have hnodes : ∀ n ∈ u.nodes, ∀ m, RefersTo u.arena n m → s.types.HasMember m := fun n hn m =>
    hmembers n m (hu.mem_nodes_iff.mp hn)
  constructor
  · intro k
    rw [hok, passes_iff hs hacyclic hnodes, isClean_iff]
    simp only [hu.mem_nodes_iff]
  · intro e
    rw [herror]
    refine exists_congr fun before => exists_congr fun n => exists_congr fun after =>
      and_congr_right fun heq => ?_
    have hbefore : ∀ x ∈ before, ∀ m, RefersTo u.arena x m → s.types.HasMember m := fun x hx =>
      hnodes x (heq ▸ List.mem_append_left _ hx)
    rw [passes_iff hs hacyclic hbefore, violates_at_turn_iff hs hacyclic hnodes heq]

/-- A method body that subtracts a field from itself, where one node is both operands. -/
def fieldUnit : CompilationUnit where
  arena :=
    { exprs := #[⟨.localVar ⟨0⟩, ⟨16⟩, .generated⟩, ⟨.field (.expr ⟨0⟩) ⟨17⟩, .string, .generated⟩,
        ⟨.binary .sub ⟨1⟩ ⟨1⟩, .string, .generated⟩]
      stmts := #[⟨.eval ⟨2⟩, .generated⟩]
      locals := #[⟨⟨10⟩, ⟨16⟩, {}⟩] }
  classes := [⟨⟨2⟩, [⟨⟨15⟩, .method [⟨0⟩] (some ⟨0⟩), .generated⟩], .generated⟩]

theorem fieldUnit_isAcyclic : fieldUnit.IsAcyclic := by
  refine CompilationUnit.isAcyclic_of_rank
    (NodeId.rank id (3 + ·)) ?_ ?_ ?_ <;> decide

/-- A session in which the instantiation sees the field. -/
def seenSession : Canonicalizer := Canonicalizer.boxSession.asked (.memberIn ⟨15⟩ ⟨16⟩)

/-- A session in which the instantiation sees a field of another type that is derived from it. -/
def derivedSession : Canonicalizer :=
  Canonicalizer.boxSession.asked (.deriveMember ⟨15⟩ (.field ⟨12⟩ Primitive.int.typeId) ⟨16⟩)

theorem seenSession_checked : (Reachable seenSession ∧ seenSession.types.Acyclic) ∧
    seenSession.types.HasMember ⟨17⟩ ∧ ∀ n ∈ fieldUnit.nodes,
      ((checkNode fieldUnit.arena n).run seenSession).1 =
        .ok (references fieldUnit.arena [n]).length := by
  -- The conditions and the checks make one goal, so that the session is evaluated once.
  suffices h : (_ ∧ _) ∧ _ ∧ _ by
    obtain ⟨⟨hadmitted, hends⟩, hchecked⟩ := h
    exact ⟨⟨.ask _ Canonicalizer.boxSession_reachable hadmitted,
      TypeSystem.acyclic_of_isEnd hends⟩, hchecked⟩
  unfold TypeSystem.Query.Admitted
  decide +kernel

theorem derivedSession_checked : (Reachable derivedSession ∧ derivedSession.types.Acyclic) ∧
    derivedSession.types.HasMember ⟨17⟩ ∧
    (∀ n ∈ [NodeId.stmt ⟨0⟩, .expr ⟨2⟩],
      ((checkNode fieldUnit.arena n).run derivedSession).1 = .ok 0) ∧
    ((checkNode fieldUnit.arena (.expr ⟨1⟩)).run derivedSession).1 =
      .error (.canon (.unreconcilable "Box<core.String>.value" "Box<core.String>")) := by
  suffices h : ((_ ∧ _ ∧ _ ∧ _ ∧ _) ∧ _) ∧ _ ∧ _ ∧ _ by
    obtain ⟨⟨⟨horigin, hname, htypes, hcontainer, hgeneric⟩, hends⟩, hchecked⟩ := h
    exact ⟨⟨.ask _ Canonicalizer.boxSession_reachable
      ⟨horigin, hname, htypes, hcontainer, hgeneric⟩, TypeSystem.acyclic_of_isEnd hends⟩, hchecked⟩
  decide +kernel

theorem hasMember_of_refersTo_fieldUnit (hs : s.types.HasMember ⟨17⟩) :
    ∀ n m, fieldUnit.HasNode n → RefersTo fieldUnit.arena n m → s.types.HasMember m := by
  intro n m hn hm
  have hmem := mem_references_iff.mpr ⟨n, fieldUnit_isAcyclic.mem_nodes_iff.mpr hn, hm⟩
  rw [(by decide : references fieldUnit.arena fieldUnit.nodes = [⟨17⟩, ⟨17⟩])] at hmem
  rcases List.mem_pair.mp hmem with rfl | rfl <;> exact hs

/-- The node counts twice where the instantiation sees the field. Where it sees a field of another
type, the check fails at the first visit of the node. -/
theorem validate_exact_box : fieldUnit.IsAcyclic ∧
    ((validate fieldUnit).run seenSession).1 = .ok 2 ∧
    ((validate fieldUnit).run derivedSession).1 =
      .error (.canon (.unreconcilable "Box<core.String>.value" "Box<core.String>")) := by
  obtain ⟨⟨hs, hsacyclic⟩, hsmember, hsnodes⟩ := seenSession_checked
  obtain ⟨⟨ht, htacyclic⟩, htmember, htnodes, hviolates⟩ := derivedSession_checked
  obtain ⟨-, -, -, -, hsexact⟩ := validate_exact fieldUnit_isAcyclic seenSession
  obtain ⟨-, -, -, -, htexact⟩ := validate_exact fieldUnit_isAcyclic derivedSession
  obtain ⟨hok, -⟩ := hsexact hs hsacyclic (hasMember_of_refersTo_fieldUnit hsmember)
  obtain ⟨-, herror⟩ := htexact ht htacyclic (hasMember_of_refersTo_fieldUnit htmember)
  refine ⟨fieldUnit_isAcyclic, (hok 2).mpr ⟨isClean_iff.mpr fun n hn => ?_, by decide⟩,
    (herror _).mpr ⟨[.stmt ⟨0⟩, .expr ⟨2⟩], .expr ⟨1⟩, [.expr ⟨0⟩, .expr ⟨1⟩, .expr ⟨0⟩], by decide,
      fun n hn => not_violates_of_ok (htnodes n hn), checkNode_error_iff.mp hviolates⟩⟩
  exact not_violates_of_ok (hsnodes n (fieldUnit_isAcyclic.mem_nodes_iff.mpr hn))

end Erasure.Validation
