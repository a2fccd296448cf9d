/-
A visitor with a sticky error.

The check of a unit folds over the nodes and stops at the first error. A visitor that goes down the
trees cannot stop: it keeps the first error that it meets and passes by every node that it is called
with from then on. Both come to one result. The main statements:

* `IsAcyclic.nodes_eq`: the nodes of a unit without cycles are those of its trees in preorder.
* `visit_eq_foldl`: visiting a tree is looking at its nodes in preorder.
* `visitUnit_result`: the visitor ends with the result of the check, in the same state.
-/
import Erasure.Proofs.Tree.ReadBack
import Erasure.Tree.Validation

namespace Erasure

/-! ### Preorder -/

namespace RoseTree

variable {α : Type}

/-- The labels of a tree, every label before those of the parts. -/
def preorder : RoseTree α → List α := fold fun l ps => l :: ps.flatten

theorem preorder_node (l : α) (ps : List (RoseTree α)) :
    (node l ps).preorder = l :: ps.flatMap preorder := by
  rw [preorder, fold_node, List.flatMap_def]

end RoseTree

/-- A walk that is deep enough lists the nodes of the tree in preorder. -/
theorem Arena.preorderOnto_eq {a : Arena} {depth : Nat} {n : NodeId} (h : a.Levels depth n)
    (rest : List NodeId) : a.preorderOnto depth n rest =
      (a.treeWithin depth n).preorder.map Prod.fst ++ rest := by
  induction depth generalizing n rest with
  | zero => exact h.elim
  | succ depth ih =>
    have hchildren : ∀ c ∈ a.children n, a.Levels depth c := h
    rw [preorderOnto, treeWithin, RoseTree.preorder_node, List.map_cons, List.cons_append]
    refine congrArg (n :: ·) ?_
    generalize a.children n = cs at hchildren
    induction cs with
    | nil => rfl
    | cons c cs ihs =>
      obtain ⟨hc, hcs⟩ := List.forall_mem_cons.mp hchildren
      rw [List.foldr_cons, ih hc, ihs hcs, List.map_cons, List.flatMap_cons, List.map_append,
        List.append_assoc]

/-- The nodes of a unit without cycles are those of its trees in preorder. -/
theorem CompilationUnit.IsAcyclic.nodes_eq {u : CompilationUnit} (h : u.IsAcyclic) :
    u.nodes = u.roots.flatMap fun r => (u.arena.tree r).preorder.map Prod.fst :=
  List.flatMap_congr fun _ hr =>
    (Arena.preorderOnto_eq (h.levels (.root hr)) []).trans (List.append_nil _)

namespace Validation

variable {a : Arena} {n : NodeId} {ns : List NodeId} {s : Canonicalizer}

/-! ### The check step by step -/

/-- Checks nodes in order and counts the members on from `checked`. -/
def checkNodesFrom (a : Arena) (checked : Nat) (ns : List NodeId) :
    ExceptT TreeError CanonicalM Nat :=
  ns.foldlM (fun checked n => return checked + (← checkNode a n)) checked

theorem run_checkNodesFrom_nil (checked : Nat) :
    (checkNodesFrom a checked []).run s = (.ok checked, s) := rfl

/-- A node that passes adds to the count, and a node that fails ends the check. -/
theorem run_checkNodesFrom_cons (checked : Nat) :
    (checkNodesFrom a checked (n :: ns)).run s =
      match (checkNode a n).run s with
      | (.ok k, t) => (checkNodesFrom a (checked + k) ns).run t
      | (.error e, t) => (.error e, t) := by
  rw [checkNodesFrom, List.foldlM_cons, run_bind_apply, run_bind_apply]
  rcases (checkNode a n).run s with ⟨k | e, t⟩ <;> rfl

/-- A node with an error of its own is not looked up, and its member is. -/
theorem run_checkNode : (checkNode a n).run s =
    match stringError? a n, memberOf? a n with
    | some e, _ => (.error e, s)
    | none, none => (.ok 0, s)
    | none, some m =>
      let r := (Canonicalizer.canonicalizeMember m).run s
      (match r.1 with
        | .ok _ => .ok 1
        | .error e => .error (.canon e), r.2) := by
  unfold checkNode
  cases stringError? a n with
  | some e => rfl
  | none =>
    cases memberOf? a n with
    | none => rfl
    | some m =>
      dsimp only
      rw [run_lift_bind_apply]
      cases ((Canonicalizer.canonicalizeMember m).run s).1 <;> rfl

/-! ### The visitor -/

/-- What the visitor carries along: the canonicalizer, how many members were found to have a
canonical form, and the first error. -/
structure Visitor where
  canonicalizer : Canonicalizer
  checked : Nat := 0
  error : Option TreeError := none

namespace Visitor

variable {v : Visitor}

/-- Makes a member canonical. -/
def checkMember (v : Visitor) (m : MemberId) : Visitor :=
  match (Canonicalizer.canonicalizeMember m).run v.canonicalizer with
  | (.ok _, s) => { v with canonicalizer := s, checked := v.checked + 1 }
  | (.error e, s) => { v with canonicalizer := s, error := some (.canon e) }

/-- Makes the member of a node canonical, if it refers to one. -/
def checkReference (a : Arena) (v : Visitor) (n : NodeId) : Visitor :=
  (memberOf? a n).elim v v.checkMember

/-- Visits a node and then its children, at most `depth` levels of them. With an error nothing more
is done. -/
def visit (a : Arena) : (depth : Nat) → Visitor → NodeId → Visitor
  | 0, v, _ => v
  | depth + 1, v, n =>
    if v.error.isSome then
      v
    else
      match stringError? a n with
      | some e => { v with error := some e }
      | none => (a.children n).foldl (visit a depth) (v.checkReference a n)

/-- Visits the body of a member. -/
def visitMember (a : Arena) (v : Visitor) (m : MemberDecl) : Visitor :=
  m.body.root?.elim v (visit a (a.nodeCount + 1) v)

/-- Visits the members of a class in order. -/
def visitClass (a : Arena) (v : Visitor) (c : ClassDecl) : Visitor :=
  c.members.foldl (visitMember a) v

/-- Visits the classes of a unit in order. -/
def visitUnit (v : Visitor) (u : CompilationUnit) : Visitor :=
  u.classes.foldl (visitClass u.arena) v

/-- What the visitor ends with: its count or its error, and the canonicalizer. -/
def result (v : Visitor) : Except TreeError Nat × Canonicalizer :=
  (match v.error with
    | some e => .error e
    | none => .ok v.checked, v.canonicalizer)

/-! ### Visiting is looking at nodes in preorder -/

/-- Looks at a node without its children. -/
def look (a : Arena) (v : Visitor) (n : NodeId) : Visitor :=
  if v.error.isSome then
    v
  else
    match stringError? a n with
    | some e => { v with error := some e }
    | none => v.checkReference a n

theorem look_of_error (h : v.error.isSome = true) : v.look a n = v := if_pos h

theorem visit_of_error (h : v.error.isSome = true) (depth : Nat) : v.visit a depth n = v := by
  cases depth with
  | zero => rfl
  | succ depth => exact if_pos h

/-- After an error the visitor passes by all nodes. -/
theorem foldl_of_error {f : Visitor → NodeId → Visitor}
    (hf : ∀ v n, v.error.isSome = true → f v n = v) (h : v.error.isSome = true)
    (ns : List NodeId) : ns.foldl f v = v := by
  induction ns with
  | nil => rfl
  | cons n ns ih => rw [List.foldl_cons, hf v n h, ih]

/-- Visiting a node is looking at it and visiting its children. -/
theorem visit_succ (depth : Nat) :
    v.visit a (depth + 1) n = (a.children n).foldl (visit a depth) (v.look a n) := by
  have hpass : ∀ {w : Visitor}, w.error.isSome = true →
      (a.children n).foldl (visit a depth) w = w := fun h =>
    foldl_of_error (fun _ _ h => visit_of_error h depth) h _
  rw [visit, look]
  cases herror : v.error.isSome with
  | true => exact (hpass herror).symm
  | false =>
    cases stringError? a n with
    | some e => exact (hpass rfl).symm
    | none => rfl

/-- Visiting a tree is looking at its nodes in preorder. -/
theorem visit_eq_foldl (depth : Nat) (rest : List NodeId) :
    (a.preorderOnto depth n rest).foldl (look a) v = rest.foldl (look a) (v.visit a depth n) := by
  induction depth generalizing n v rest with
  | zero => rfl
  | succ depth ih =>
    rw [Arena.preorderOnto, List.foldl_cons, visit_succ]
    generalize v.look a n = w
    generalize a.children n = cs
    induction cs generalizing w with
    | nil => rfl
    | cons c cs ihs => rw [List.foldr_cons, ih, ihs, List.foldl_cons]

theorem visitUnit_eq_foldl (v : Visitor) (u : CompilationUnit) :
    v.visitUnit u = u.nodes.foldl (look u.arena) v := by
  have htree : ∀ w r, (u.arena.preorder r).foldl (look u.arena) w =
      visit u.arena (u.arena.nodeCount + 1) w r := fun _ _ => visit_eq_foldl _ []
  have hmember : ∀ w (m : MemberDecl), visitMember u.arena w m =
      m.body.root?.toList.foldl (visit u.arena (u.arena.nodeCount + 1)) w := by
    intro w m
    rw [visitMember]
    cases m.body.root? <;> rfl
  rw [CompilationUnit.nodes, List.foldl_flatMap, CompilationUnit.roots, List.foldl_flatMap]
  simp only [htree]
  refine List.foldl_ext _ _ v fun w c _ => ?_
  rw [visitClass, List.filterMap_eq_flatMap_toList, List.foldl_flatMap]
  exact List.foldl_ext _ _ w fun w m _ => hmember w m

/-- A look at a node is a step of the check. -/
theorem look_eq (s : Canonicalizer) (checked : Nat) : look a ⟨s, checked, none⟩ n =
    match (checkNode a n).run s with
    | (.ok k, t) => ⟨t, checked + k, none⟩
    | (.error e, t) => ⟨t, checked, some e⟩ := by
  rw [look, run_checkNode]
  cases stringError? a n with
  | some e => rfl
  | none =>
    rw [checkReference]
    cases memberOf? a n with
    | none => rfl
    | some m =>
      dsimp only [Option.elim]
      rw [checkMember]
      rcases (Canonicalizer.canonicalizeMember m).run s with ⟨c | e, t⟩ <;> rfl

/-- The visitor that looks at nodes in order ends with the result of their check. -/
theorem foldl_look_result (checked : Nat) (ns : List NodeId) :
    (ns.foldl (look a) ⟨s, checked, none⟩).result = (checkNodesFrom a checked ns).run s := by
  induction ns generalizing s checked with
  | nil => rfl
  | cons n ns ih =>
    rw [List.foldl_cons, look_eq, run_checkNodesFrom_cons]
    rcases (checkNode a n).run s with ⟨k | e, t⟩
    · dsimp only
      rw [foldl_of_error (fun _ _ h => look_of_error h) rfl]
      rfl
    · exact ih _

/-- The visitor ends with the result of the check, in the same state. -/
theorem visitUnit_result (s : Canonicalizer) (u : CompilationUnit) :
    (visitUnit ⟨s, 0, none⟩ u).result = (validate u).run s := by
  rw [visitUnit_eq_foldl]
  exact foldl_look_result 0 u.nodes

end Visitor

end Validation

end Erasure
