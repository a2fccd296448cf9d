/-
Two ways through a tree.

A reader is called on a node before its children, and asks of an optional child whether it is there.
An editor is called on an expression after its children; it goes to every place for a child, and turns
back where there is none. The main statements:

* `ExprKind.walk_eq`, `StmtKind.walk_eq`: a reader visits the children of a node in order.
* `ExprKind.reduceOption_places`, `StmtKind.reduceOption_places`: the places for children hold them.
* `CompilationUnit.visited_eq`, `Editor.editPlaces_eq`: both ways from form to form are those by
  children.
* `Editor.editWithin_passes`: an editor that keeps all nodes is called on a tree in postorder.
* `CompilationUnit.IsAcyclic.traversals_agree`: both come to the same expressions equally often.
-/
import Mathlib.Data.List.ReduceOption
import Erasure.Proofs.Strings.Translation
import Erasure.Proofs.Tree.Editing
import Erasure.Proofs.Tree.TreeShape
import Erasure.Proofs.Tree.Visiting
import Erasure.TypeSystem.Prelude

namespace Erasure

/-- The expression that a node is. -/
def NodeId.expr? : NodeId → Option ExprId
  | expr e => some e
  | stmt _ => none

/-! ### The reader -/

section

variable {σ : Type} (visit : σ → NodeId → σ)

/-- Visits the object that a member is applied to. -/
def Receiver.walk (s : σ) : Receiver → σ
  | expr e => visit s (.expr e)
  | type _ => s

/-- Visits an expression if it is there. -/
def walkExpr? (s : σ) : Option ExprId → σ
  | some e => visit s (.expr e)
  | none => s

/-- Visits a statement if it is there. -/
def walkStmt? (s : σ) : Option StmtId → σ
  | some t => visit s (.stmt t)
  | none => s

/-- Visits expressions in order. -/
def walkExprs (s : σ) (es : List ExprId) : σ := es.foldl (fun s e => visit s (.expr e)) s

/-- Visits statements in order. -/
def walkStmts (s : σ) (ts : List StmtId) : σ := ts.foldl (fun s t => visit s (.stmt t)) s

/-- Visits the children of an expression. -/
def ExprKind.walk (s : σ) : ExprKind → σ
  | bool _ | int _ | float _ | char _ | str _ | null | localVar _ | classLiteral _ | self => s
  | field receiver _ => receiver.walk visit s
  | arrayAccess base index _ => visit (visit s (.expr base)) (.expr index)
  | call receiver _ args _ => walkExprs visit (receiver.walk visit s) args
  | new _ outer args => walkExprs visit (walkExpr? visit s outer) args
  | newArray elems => walkExprs visit s elems
  | binary _ left right => visit (visit s (.expr left)) (.expr right)
  | unary _ e | cast e _ | instanceOf e _ => visit s (.expr e)
  | assign target value => visit (visit s (.expr target)) (.expr value)
  | sequence stmts value => visit (walkStmts visit s stmts) (.expr value)

/-- Visits the children of a statement. -/
def StmtKind.walk (s : σ) : StmtKind → σ
  | localDecl _ init => walkExpr? visit s init
  | eval e | throwing e => visit s (.expr e)
  | result e => walkExpr? visit s e
  | branch cond onTrue onFalse =>
    walkStmt? visit (visit (visit s (.expr cond)) (.stmt onTrue)) onFalse
  | block stmts => walkStmts visit s stmts
  | constructorCall _ _ args => walkExprs visit s args

/-- Visits the children of a node. -/
def Arena.walk (a : Arena) (s : σ) : NodeId → σ
  | .expr e => (a.expr e).kind.walk visit s
  | .stmt t => (a.stmt t).kind.walk visit s

variable (s : σ)

theorem Receiver.walk_eq (r : Receiver) : r.walk visit s = r.children.foldl visit s := by
  cases r <;> rfl

theorem walkExpr?_eq (e : Option ExprId) :
    walkExpr? visit s e = (e.toList.map NodeId.expr).foldl visit s := by
  cases e <;> rfl

theorem walkStmt?_eq (t : Option StmtId) :
    walkStmt? visit s t = (t.toList.map NodeId.stmt).foldl visit s := by
  cases t <;> rfl

theorem walkExprs_eq (es : List ExprId) :
    walkExprs visit s es = (es.map NodeId.expr).foldl visit s := List.foldl_map.symm

theorem walkStmts_eq (ts : List StmtId) :
    walkStmts visit s ts = (ts.map NodeId.stmt).foldl visit s := List.foldl_map.symm

/-- The reader visits the children of an expression in order. -/
theorem ExprKind.walk_eq (k : ExprKind) : k.walk visit s = k.children.foldl visit s := by
  cases k with
  | field receiver _ => exact receiver.walk_eq visit s
  | call receiver _ args _ =>
    rw [walk, children, List.foldl_append, walkExprs_eq, Receiver.walk_eq]
  | new _ outer args =>
    rw [walk, children, List.map_append, List.foldl_append, walkExprs_eq, walkExpr?_eq]
  | newArray elems => exact walkExprs_eq visit s elems
  | sequence stmts value => rw [walk, children, List.foldl_append, walkStmts_eq]; rfl
  | _ => rfl

/-- The reader visits the children of a statement in order. -/
theorem StmtKind.walk_eq (k : StmtKind) : k.walk visit s = k.children.foldl visit s := by
  cases k with
  | localDecl _ init => exact walkExpr?_eq visit s init
  | branch cond onTrue onFalse => exact walkStmt?_eq visit _ onFalse
  | block stmts => exact walkStmts_eq visit s stmts
  | result e => exact walkExpr?_eq visit s e
  | constructorCall _ _ args => exact walkExprs_eq visit s args
  | _ => rfl

theorem Arena.walk_eq (a : Arena) (n : NodeId) : a.walk visit s n = (a.children n).foldl visit s := by
  cases n with
  | expr e => exact ExprKind.walk_eq visit s _
  | stmt t => exact StmtKind.walk_eq visit s _

end

/-- Notes a node and then visits its children, at most `depth` levels of them. -/
def Arena.visit (a : Arena) : (depth : Nat) → List NodeId → NodeId → List NodeId
  | 0, seen, _ => seen
  | depth + 1, seen, n => a.walk (a.visit depth) (seen ++ [n]) n

/-- A reader sees the nodes of a tree in preorder. -/
theorem Arena.visit_eq (a : Arena) (depth : Nat) (seen : List NodeId) (n : NodeId)
    (rest : List NodeId) : a.visit depth seen n ++ rest = seen ++ a.preorderOnto depth n rest := by
  induction depth generalizing seen n rest with
  | zero => rfl
  | succ depth ih =>
    rw [visit, walk_eq, preorderOnto]
    refine Eq.trans ?_ (List.append_cons ..).symm
    generalize seen ++ [n] = seen
    induction a.children n generalizing seen with
    | nil => rfl
    | cons c cs ihs => rw [List.foldl_cons, ihs, List.foldr_cons, ih]

/-- The nodes that a reader is called on, from class to class and from member to member. -/
def CompilationUnit.visited (u : CompilationUnit) : List NodeId :=
  u.classes.foldl (fun seen c => c.members.foldl visitMember seen) []
where
  visitMember (seen : List NodeId) (m : MemberDecl) : List NodeId :=
    match m.body.root? with
    | some root => u.arena.visit (u.arena.nodeCount + 1) seen root
    | none => seen

/-- A fold that appends something for each element appends all of it in order. -/
theorem foldl_eq_append_flatMap {α β : Type} {f : List β → α → List β} {g : α → List β}
    (h : ∀ seen a, f seen a = seen ++ g a) (seen : List β) (as : List α) :
    as.foldl f seen = seen ++ as.flatMap g := by
  induction as generalizing seen with
  | nil => exact (List.append_nil seen).symm
  | cons a as ih => rw [List.foldl_cons, ih, h, List.flatMap_cons, List.append_assoc]

/-- The reader is called on the nodes of a unit. -/
theorem CompilationUnit.visited_eq (u : CompilationUnit) : u.visited = u.nodes := by
  have hmember : ∀ seen (m : MemberDecl), visited.visitMember u seen m =
      seen ++ m.body.root?.toList.flatMap u.arena.preorder := by
    intro seen m
    unfold visited.visitMember
    cases m.body.root? with
    | none => exact (List.append_nil seen).symm
    | some root =>
      have hvisit := u.arena.visit_eq (u.arena.nodeCount + 1) seen root []
      rw [List.append_nil] at hvisit
      exact hvisit.trans (congrArg (seen ++ ·) (List.flatMap_singleton ..).symm)
  have hclasses := foldl_eq_append_flatMap (fun seen (c : ClassDecl) =>
    foldl_eq_append_flatMap hmember seen c.members) [] u.classes
  rw [visited, hclasses, List.nil_append, nodes, roots, List.flatMap_assoc]
  refine List.flatMap_congr fun c _ => ?_
  rw [List.filterMap_eq_flatMap_toList, List.flatMap_assoc]

/-! ### The editor -/

/-- The place for the object that a member is applied to. -/
def Receiver.places : Receiver → List (Option NodeId)
  | expr e => [some (.expr e)]
  | type _ => []

/-- The places for the children of an expression. -/
def ExprKind.places : ExprKind → List (Option NodeId)
  | bool _ | int _ | float _ | char _ | str _ | null | localVar _ | classLiteral _ | self => []
  | field receiver _ => receiver.places
  | arrayAccess base index _ => [some (.expr base), some (.expr index)]
  | call receiver _ args _ => receiver.places ++ args.map fun e => some (.expr e)
  | new _ outer args => outer.map .expr :: args.map fun e => some (.expr e)
  | newArray elems => elems.map fun e => some (.expr e)
  | binary _ left right | assign left right => [some (.expr left), some (.expr right)]
  | unary _ e | cast e _ | instanceOf e _ => [some (.expr e)]
  | sequence stmts value => (stmts.map fun t => some (.stmt t)) ++ [some (.expr value)]

/-- The places for the children of a statement. -/
def StmtKind.places : StmtKind → List (Option NodeId)
  | localDecl _ init => [init.map .expr]
  | eval e | throwing e => [some (.expr e)]
  | result e => [e.map .expr]
  | branch cond onTrue onFalse => [some (.expr cond), some (.stmt onTrue), onFalse.map .stmt]
  | block stmts => stmts.map fun t => some (.stmt t)
  | constructorCall _ _ args => args.map fun e => some (.expr e)

/-- The places for the children of a node. -/
def Arena.places (a : Arena) : NodeId → List (Option NodeId)
  | .expr e => (a.expr e).kind.places
  | .stmt t => (a.stmt t).kind.places

section

open List (reduceOption)

theorem reduceOption_map_some {α β : Type} (f : α → β) (as : List α) :
    (as.map fun a => some (f a)).reduceOption = as.map f := by
  rw [reduceOption, List.filterMap_map]
  exact congrFun List.filterMap_eq_map as

theorem toList_option_map {α β : Type} (f : α → β) (o : Option α) :
    (o.map f).toList = o.toList.map f := by
  cases o <;> rfl

theorem Receiver.reduceOption_places (r : Receiver) : r.places.reduceOption = r.children := by
  cases r <;> rfl

/-- The places for the children of an expression hold its children in order. -/
theorem ExprKind.reduceOption_places (k : ExprKind) : k.places.reduceOption = k.children := by
  cases k with
  | field receiver _ => exact receiver.reduceOption_places
  | call receiver _ args _ =>
    rw [places, children, List.reduceOption_append, Receiver.reduceOption_places,
      reduceOption_map_some]
  | new _ outer args =>
    rw [places, children, ← List.singleton_append, List.reduceOption_append,
      List.reduceOption_singleton, reduceOption_map_some, toList_option_map, List.map_append]
  | newArray elems => exact reduceOption_map_some NodeId.expr elems
  | sequence stmts value =>
    rw [places, children, List.reduceOption_append, reduceOption_map_some]
    rfl
  | _ => rfl

/-- The places for the children of a statement hold its children in order. -/
theorem StmtKind.reduceOption_places (k : StmtKind) : k.places.reduceOption = k.children := by
  cases k with
  | localDecl _ init => exact (List.reduceOption_singleton _).trans (toList_option_map _ init)
  | result e => exact (List.reduceOption_singleton _).trans (toList_option_map _ e)
  | branch cond onTrue onFalse => cases onFalse <;> rfl
  | block stmts => exact reduceOption_map_some NodeId.stmt stmts
  | constructorCall _ _ args => exact reduceOption_map_some NodeId.expr args
  | _ => rfl

theorem Arena.reduceOption_places (a : Arena) (n : NodeId) :
    (a.places n).reduceOption = a.children n := by
  cases n with
  | expr e => exact ExprKind.reduceOption_places _
  | stmt t => exact StmtKind.reduceOption_places _

end

/-- The places for the roots of the trees of a unit. -/
def CompilationUnit.rootPlaces (u : CompilationUnit) : List (Option NodeId) :=
  u.classes.flatMap fun c => c.members.map fun m => m.body.root?

theorem CompilationUnit.reduceOption_rootPlaces (u : CompilationUnit) :
    u.rootPlaces.reduceOption = u.roots := by
  rw [rootPlaces, roots, List.reduceOption, List.filterMap_flatMap]
  refine List.flatMap_congr fun c _ => ?_
  rw [List.filterMap_map]
  rfl

namespace Editor

variable {ρ : Type} (r : Editor ρ)

/-- Edits the tree at a place, at most `depth` levels deep. There may be none. -/
def editPlace : (depth : Nat) → Option NodeId → EditM ρ Unit
  | 0, _ => pure ()
  | _ + 1, none => pure ()
  | depth + 1, some n => do
    ((← get).builder.arena.places n).forM (editPlace depth)
    match n with
    | .expr id => r.leave id
    | .stmt _ => pure ()

/-- Edits the trees at all places for roots. -/
def editPlaces (log : ρ) (types : TypeSystem) (u : CompilationUnit) :
    Except TreeError Unit × Editing ρ :=
  (u.rootPlaces.forM (r.editPlace (depthFor u.arena))).run
    { builder := ⟨types, u.arena, .generated⟩, log }

theorem editPlace_none (depth : Nat) : r.editPlace depth none = pure () := by
  cases depth <;> rfl

/-- Editing all places is editing what is there. -/
theorem forM_editPlace {depth : Nat} {f : NodeId → EditM ρ Unit}
    (h : ∀ n, r.editPlace depth (some n) = f n) (places : List (Option NodeId)) :
    places.forM (r.editPlace depth) = places.reduceOption.forM f := by
  induction places with
  | nil => rfl
  | cons place places ih =>
    cases place with
    | none =>
      change (r.editPlace depth none >>= fun _ => places.forM _) = _
      rw [editPlace_none, pure_bind, ih, List.reduceOption_cons_of_none]
    | some n =>
      change (r.editPlace depth (some n) >>= fun _ => places.forM _) = _
      rw [h, ih, List.reduceOption_cons_of_some]
      rfl

/-- Editing by places is editing by children. -/
theorem editPlace_eq (depth : Nat) (n : NodeId) :
    r.editPlace depth (some n) = r.editWithin depth n := by
  induction depth generalizing n with
  | zero => rfl
  | succ depth ih =>
    unfold editPlace editWithin
    refine bind_congr fun s => ?_
    have hchildren : (s.builder.arena.places n).forM (r.editPlace depth) =
        (s.builder.arena.children n).forM (r.editWithin depth) := by
      rw [r.forM_editPlace ih, Arena.reduceOption_places]
    exact congrArg (fun act : EditM ρ Unit => do
      act
      match n with
      | .expr id => r.leave id
      | .stmt _ => pure ()) hchildren

theorem editPlaces_eq (log : ρ) (types : TypeSystem) (u : CompilationUnit) :
    r.editPlaces log types u = r.editUnit log types u := by
  rw [editUnit, editAll, run_get_bind_apply, editPlaces, r.forM_editPlace (r.editPlace_eq _),
    CompilationUnit.reduceOption_rootPlaces]

/-! ### Keeping all nodes -/

variable {r} {u : CompilationUnit} {s t t' : Editing ρ} {n : NodeId} {ns ms : List NodeId}

/-- The editor keeps every expression, though it may add nodes of its own. -/
structure KeepsNodes (r : Editor ρ) : Prop where
  keeps : ∀ id (b : Builder), ((r.replace id).run b).1 = .ok none
  grows : ∀ id (b : Builder), b.arena.Grows ((r.replace id).run b).2.arena

/-- The editor builds nothing. -/
def BuildsNothing (r : Editor ρ) : Prop := ∀ id, Leaves Builder.arena (r.replace id).run

/-- From one state to another the editor is called on the expressions of a listing, in order, and
replaces none of them. -/
structure Passes (r : Editor ρ) (s : Editing ρ) (ns : List NodeId) (t : Editing ρ) : Prop where
  calls : ∃ calls : List (Builder × ExprId), calls.map Prod.snd = ns.filterMap NodeId.expr? ∧
    t.log = calls.foldl (fun log call => r.record call.1 call.2 log) s.log
  replaced : t.replaced = s.replaced
  grows : s.builder.arena.Grows t.builder.arena
  arena_eq : r.BuildsNothing → t.builder.arena = s.builder.arena

namespace Passes

theorem nil (s : Editing ρ) : r.Passes s [] s where
  calls := ⟨[], rfl, rfl⟩
  replaced := rfl
  grows := .refl _
  arena_eq _ := rfl

theorem stmt (s : Editing ρ) (id : StmtId) : r.Passes s [.stmt id] s where
  calls := ⟨[], rfl, rfl⟩
  replaced := rfl
  grows := .refl _
  arena_eq _ := rfl

theorem append (h : r.Passes s ns t) (h' : r.Passes t ms t') : r.Passes s (ns ++ ms) t' where
  calls := by
    obtain ⟨calls, hids, hlog⟩ := h.calls
    obtain ⟨calls', hids', hlog'⟩ := h'.calls
    refine ⟨calls ++ calls', ?_, ?_⟩
    · rw [List.map_append, List.filterMap_append, hids, hids']
    · rw [List.foldl_append, hlog', hlog]
  replaced := h'.replaced.trans h.replaced
  grows := h.grows.trans h'.grows
  arena_eq hr := (h'.arena_eq hr).trans (h.arena_eq hr)

end Passes

/-- Leaving an expression is one call. -/
theorem leave_passes (hr : r.KeepsNodes) (s : Editing ρ) (id : ExprId) :
    Ends False (r.leave id) s fun _ t => r.Passes s [.expr id] t := by
  unfold leave
  refine Ends.modify_bind (Ends.modify_bind ?_)
  generalize hb : ({ s.builder with span := (s.builder.arena.expr id).span } : Builder) = b
  have harena : b.arena = s.builder.arena := hb ▸ rfl
  have hbuild : (build (r.replace id) : EditM ρ _).run ⟨b, r.record b id s.log, s.replaced⟩ =
      (.ok none, ⟨((r.replace id).run b).2, r.record b id s.log, s.replaced⟩) :=
    Prod.ext (hr.keeps id b) rfl
  rw [Ends, run_bind_of_ok hbuild]
  exact {
    calls := ⟨[(b, id)], rfl, rfl⟩
    replaced := rfl
    grows := harena ▸ hr.grows id b
    arena_eq := fun hnothing => (hnothing id b).trans harena }

/-- Where each step passes a listing, all of them pass the listings one after the other. -/
theorem forM_passes {f : NodeId → EditM ρ Unit} {listing : NodeId → List NodeId}
    (h : ∀ n ∈ ns, ∀ t, s.builder.arena.Grows t.builder.arena →
      Ends False (f n) t fun _ t' => r.Passes t (listing n) t') :
    Ends False (ns.forM f) s fun _ t => r.Passes s (ns.flatMap listing) t := by
  induction ns generalizing s with
  | nil => exact Ends.pure (.nil s)
  | cons n ns ih =>
    refine (h n List.mem_cons_self s (.refl _)).bind fun _ t ht => ?_
    have hrest := ih (s := t) fun m hm t' ht' =>
      h m (List.mem_cons_of_mem _ hm) t' (ht.grows.trans ht')
    exact hrest.mono fun _ t' ht' => ht.append ht'

end Editor

/-! ### Listings -/

section

variable {α β : Type} {P : List α → α → List α → Prop} {as bs : List α}

/-- The relation holds between what is before an element of the list, the element, and what is after
it, wherever it stands. -/
def AtEach (P : List α → α → List α → Prop) (as : List α) : Prop :=
  ∀ before a after, as = before ++ a :: after → P before a after

theorem atEach_nil : AtEach P [] := fun _ _ _ h => absurd h.symm (by simp)

theorem atEach_singleton {a : α} (h : P [] a []) : AtEach P [a] := by
  intro before b after heq
  rcases List.singleton_eq_append_iff.mp heq with ⟨rfl, hb⟩ | ⟨-, hb⟩
  · obtain ⟨rfl, rfl⟩ := List.cons.inj hb
    exact h
  · exact absurd hb (List.cons_ne_nil _ _)

theorem atEach_append (has : AtEach (fun before a after => P before a (after ++ bs)) as)
    (hbs : AtEach (fun before a after => P (as ++ before) a after) bs) : AtEach P (as ++ bs) := by
  intro before a after heq
  rcases List.append_eq_append_iff.mp heq with ⟨mid, rfl, hmid⟩ | ⟨mid, rfl, hmid⟩
  · exact hbs mid a after hmid
  · cases mid with
    | nil =>
      have h := hbs [] a after hmid.symm
      rwa [List.append_nil, List.append_nil] at h
    | cons b mid =>
      obtain ⟨rfl, rfl⟩ := List.cons.inj hmid
      exact has before a mid rfl

/-- What holds at each element of the parts, whatever is before and after them, holds in the whole. -/
theorem atEach_flatMap
    (hP : ∀ front back {before a after}, P before a after → P (front ++ before) a (after ++ back))
    {f : β → List α} {parts : List β} (h : ∀ b ∈ parts, AtEach P (f b)) :
    AtEach P (parts.flatMap f) := by
  induction parts with
  | nil => exact atEach_nil
  | cons b parts ih =>
    obtain ⟨hb, hparts⟩ := List.forall_mem_cons.mp h
    refine atEach_append (fun before a after heq => ?_) fun before a after heq => ?_
    · exact hP [] _ (hb before a after heq)
    · exact List.append_nil after ▸ hP _ [] (ih hparts before a after heq)

end

namespace Arena

variable (a : Arena)

/-- The node comes after its children: what is before it ends in a stretch for each child, in order, and
the stretch ends with the child. -/
def FollowsChildren (before : List NodeId) (n : NodeId) (_ : List NodeId) : Prop :=
  ∃ front stretches, before = front ++ stretches.flatten ∧
    List.Forall₂ (fun c stretch => ∃ below, stretch = below ++ [c]) (a.children n) stretches

/-- The node comes before its children: what is after it begins with a stretch for each child, in order,
and the stretch begins with the child. -/
def PrecedesChildren (_ : List NodeId) (n : NodeId) (after : List NodeId) : Prop :=
  ∃ stretches back, after = stretches.flatten ++ back ∧
    List.Forall₂ (fun c stretch => ∃ below, stretch = c :: below) (a.children n) stretches

variable {a} (front back : List NodeId) {before : List NodeId} {n : NodeId} {after : List NodeId}

theorem FollowsChildren.extend (h : a.FollowsChildren before n after) :
    a.FollowsChildren (front ++ before) n (after ++ back) := by
  obtain ⟨first, stretches, rfl, hstretches⟩ := h
  exact ⟨front ++ first, stretches, (List.append_assoc ..).symm, hstretches⟩

theorem PrecedesChildren.extend (h : a.PrecedesChildren before n after) :
    a.PrecedesChildren (front ++ before) n (after ++ back) := by
  obtain ⟨stretches, last, rfl, hstretches⟩ := h
  exact ⟨stretches, last ++ back, List.append_assoc .., hstretches⟩

/-- The nodes of the tree of a node, every node after its children. -/
def leaveOrder (a : Arena) (n : NodeId) : List NodeId := (a.tree n).postorder.map Prod.fst

/-- The nodes of the tree of a node, every node before its children. -/
def visitOrder (a : Arena) (n : NodeId) : List NodeId := (a.tree n).preorder.map Prod.fst

end Arena

theorem RoseTree.preorder_perm_postorder {α : Type} (t : RoseTree α) :
    t.preorder.Perm t.postorder := by
  induction t using RoseTree.induction with
  | h l ps ih =>
    rw [preorder_node, postorder_node]
    exact ((List.Perm.flatMap_left ps ih).cons l).trans (List.perm_append_singleton l _).symm

namespace CompilationUnit

variable {u : CompilationUnit} {n : NodeId}

/-- The nodes of a unit, every node after its children. -/
def leaveOrder (u : CompilationUnit) : List NodeId := u.roots.flatMap u.arena.leaveOrder

namespace IsAcyclic

variable (h : u.IsAcyclic)
include h

theorem leaveOrder_eq (hn : u.HasNode n) :
    u.arena.leaveOrder n = (u.arena.children n).flatMap u.arena.leaveOrder ++ [n] := by
  rw [Arena.leaveOrder, h.tree_eq hn, RoseTree.postorder_node, List.map_append, List.map_flatMap,
    List.flatMap_map]
  rfl

theorem visitOrder_eq (hn : u.HasNode n) :
    u.arena.visitOrder n = n :: (u.arena.children n).flatMap u.arena.visitOrder := by
  rw [Arena.visitOrder, h.tree_eq hn, RoseTree.preorder_node, List.map_cons, List.map_flatMap,
    List.flatMap_map]
  rfl

/-- Both orders list the same nodes equally often. -/
theorem leaveOrder_perm_nodes : u.leaveOrder.Perm u.nodes := by
  rw [h.nodes_eq]
  exact List.Perm.flatMap_left _ fun r _ =>
    (u.arena.tree r).preorder_perm_postorder.symm.map Prod.fst

theorem followsChildren (hn : u.HasNode n) :
    AtEach u.arena.FollowsChildren (u.arena.leaveOrder n) := by
  have hlevels := h.levels hn
  generalize u.arena.nodeCount + 1 = k at hlevels
  induction k generalizing n with
  | zero => exact hlevels.elim
  | succ k ih =>
    rw [h.leaveOrder_eq hn]
    refine atEach_append ?_ (atEach_singleton ?_)
    · have hbelow := atEach_flatMap Arena.FollowsChildren.extend fun c hc =>
        ih (hn.child hc) (hlevels c hc)
      exact fun before m after heq => (hbelow before m after heq).extend [] [n]
    · refine ⟨[], (u.arena.children n).map u.arena.leaveOrder, ?_, ?_⟩
      · rw [List.append_nil, List.nil_append, List.flatMap_def]
      · refine List.forall₂_map_right_iff.mpr (List.forall₂_same.mpr fun c hc => ?_)
        exact ⟨_, h.leaveOrder_eq (hn.child hc)⟩

theorem precedesChildren (hn : u.HasNode n) :
    AtEach u.arena.PrecedesChildren (u.arena.visitOrder n) := by
  have hlevels := h.levels hn
  generalize u.arena.nodeCount + 1 = k at hlevels
  induction k generalizing n with
  | zero => exact hlevels.elim
  | succ k ih =>
    rw [h.visitOrder_eq hn, ← List.singleton_append]
    refine atEach_append (atEach_singleton ?_) ?_
    · refine ⟨(u.arena.children n).map u.arena.visitOrder, [], ?_, ?_⟩
      · rw [List.append_nil, List.nil_append, List.flatMap_def]
      · refine List.forall₂_map_right_iff.mpr (List.forall₂_same.mpr fun c hc => ?_)
        exact ⟨_, h.visitOrder_eq (hn.child hc)⟩
    · have hbelow := atEach_flatMap Arena.PrecedesChildren.extend fun c hc =>
        ih (hn.child hc) (hlevels c hc)
      exact fun before m after heq =>
        List.append_nil after ▸ (hbelow before m after heq).extend [n] []

end IsAcyclic

end CompilationUnit

namespace Editor

variable {ρ : Type} {r : Editor ρ} {u : CompilationUnit} {s : Editing ρ} {n : NodeId}

/-- An editor that keeps all nodes is called on the expressions of a tree after those below them. -/
theorem editWithin_passes (hr : r.KeepsNodes) (hu : u.IsAcyclic) {k depth : Nat}
    (hs : u.arena.Grows s.builder.arena) (hn : u.HasNode n) (hlevels : u.arena.Levels k n)
    (hle : k ≤ depth) :
    Ends False (r.editWithin depth n) s fun _ t => r.Passes s (u.arena.leaveOrder n) t := by
  induction k generalizing depth s n with
  | zero => exact hlevels.elim
  | succ k ih =>
    obtain ⟨depth, rfl⟩ := Nat.exists_eq_add_of_le' (Nat.lt_of_lt_of_le (Nat.succ_pos k) hle)
    unfold editWithin
    refine Ends.get_bind ?_
    rw [(hs.same (hu.has hn)).children, hu.leaveOrder_eq hn]
    refine (forM_passes fun c hc t ht => ih (hs.trans ht) (hn.child hc) (hlevels c hc)
      (Nat.le_of_succ_le_succ hle)).bind fun _ t ht => ?_
    cases n with
    | expr id => exact (leave_passes hr t id).mono fun _ t' ht' => ht.append ht'
    | stmt id => exact Ends.pure (ht.append (.stmt t id))

/-- An editor that keeps all nodes is called on the expressions of a unit after those below them. -/
theorem editUnit_passes (hr : r.KeepsNodes) (hu : u.IsAcyclic) (log : ρ) (types : TypeSystem) :
    Ends False (r.editAll u.roots) ⟨⟨types, u.arena, .generated⟩, log, 0⟩ fun _ t =>
      r.Passes ⟨⟨types, u.arena, .generated⟩, log, 0⟩ u.leaveOrder t := by
  unfold editAll
  refine Ends.get_bind (forM_passes fun root hroot t ht => ?_)
  refine editWithin_passes hr hu ht (.root hroot) (hu.levels (.root hroot)) ?_
  change u.arena.nodeCount + 1 ≤ 2 * u.arena.nodeCount + 2
  omega

end Editor

/-- The two walks agree. A reader and an editor that keeps all nodes go through a unit without cycles.
The editor is called on the same expressions as the reader, and equally often; it comes to a node after
its children, in order, and the reader before them. Nothing is replaced, and whatever nodes the editor
adds the unit stays as it is. -/
theorem CompilationUnit.IsAcyclic.traversals_agree {u : CompilationUnit} (h : u.IsAcyclic) {ρ : Type}
    {r : Editor ρ} (hr : r.KeepsNodes) (log : ρ) (types : TypeSystem) :
    u.visited = u.nodes ∧ r.editPlaces log types u = r.editUnit log types u ∧
    ∃ (calls : List (Builder × ExprId)) (b : Builder),
      r.editUnit log types u =
        (.ok (), ⟨b, calls.foldl (fun log call => r.record call.1 call.2 log) log, 0⟩) ∧
      u.arena.Grows b.arena ∧ (r.BuildsNothing → b.arena = u.arena) ∧
      calls.map Prod.snd = u.leaveOrder.filterMap NodeId.expr? ∧
      (calls.map Prod.snd).Perm (u.visited.filterMap NodeId.expr?) ∧
      AtEach u.arena.FollowsChildren u.leaveOrder ∧ AtEach u.arena.PrecedesChildren u.visited := by
  refine ⟨u.visited_eq, r.editPlaces_eq log types u, ?_⟩
  have hpasses := Editor.editUnit_passes hr h log types
  obtain ⟨⟨⟩, hok⟩ := hpasses.exists_ok
  have hpassed := hpasses.of_ok hok
  generalize hrun :
    (r.editAll u.roots).run ⟨⟨types, u.arena, .generated⟩, log, 0⟩ = run at hok hpassed
  obtain ⟨result, ⟨b, log', replaced⟩⟩ := run
  obtain ⟨⟨calls, hids, rfl⟩, rfl, hgrows, harena⟩ := hpassed
  obtain rfl := hok
  refine ⟨calls, b, hrun, hgrows, harena, hids, ?_, ?_, ?_⟩
  · rw [hids, u.visited_eq]
    exact h.leaveOrder_perm_nodes.filterMap _
  · exact atEach_flatMap Arena.FollowsChildren.extend fun root hroot =>
      h.followsChildren (.root hroot)
  · rw [u.visited_eq, h.nodes_eq]
    exact atEach_flatMap Arena.PrecedesChildren.extend fun root hroot =>
      h.precedesChildren (.root hroot)

/-- A unit whose first literal is in five places: in `1 > 1`, which is both a condition and an argument,
and alone. One of its methods is abstract. -/
def sharingUnit : CompilationUnit where
  arena :=
    { exprs := #[⟨.int 1, Primitive.int.typeId, .generated⟩,
        ⟨.binary .gt ⟨0⟩ ⟨0⟩, Primitive.boolean.typeId, .generated⟩,
        ⟨.new ⟨15⟩ none [⟨1⟩], ⟨16⟩, .generated⟩,
        ⟨.sequence [⟨0⟩] ⟨2⟩, ⟨16⟩, .generated⟩,
        ⟨.call (.type ⟨16⟩) ⟨16⟩ [⟨3⟩, ⟨0⟩] .static, ⟨16⟩, .generated⟩]
      stmts := #[⟨.localDecl ⟨0⟩ none, .generated⟩, ⟨.result none, .generated⟩,
        ⟨.branch ⟨1⟩ ⟨1⟩ none, .generated⟩, ⟨.result (some ⟨4⟩), .generated⟩,
        ⟨.block [⟨2⟩, ⟨3⟩], .generated⟩]
      locals := #[⟨⟨10⟩, ⟨16⟩, {}⟩] }
  classes := [⟨⟨2⟩, [⟨⟨17⟩, .method [] none, .generated⟩, ⟨⟨16⟩, .method [] (some ⟨4⟩), .generated⟩],
    .generated⟩]

theorem sharingUnit_isAcyclic : sharingUnit.IsAcyclic := by
  -- The statement `2` is above `1`, and the block above all.
  refine CompilationUnit.isAcyclic_of_rank (NodeId.rank (2 * · + 1) fun i => 4 * i) ?_ ?_ ?_ <;> decide

/-- An editor that lists the expressions that it is called on. -/
def noting : Editor (List ExprId) where
  record _ id log := log ++ [id]
  replace _ := pure none

theorem noting_keepsNodes : noting.KeepsNodes := ⟨fun _ _ => rfl, fun _ b => .refl b.arena⟩

/-- The literal is left five times and visited five times, before and after what it is in. -/
theorem traversals_agree_sharing : ∃ b,
    noting.editUnit [] .initial sharingUnit =
      (.ok (), ⟨b, [⟨0⟩, ⟨0⟩, ⟨1⟩, ⟨0⟩, ⟨0⟩, ⟨1⟩, ⟨2⟩, ⟨3⟩, ⟨0⟩, ⟨4⟩], 0⟩) ∧
    b.arena = sharingUnit.arena ∧ sharingUnit.visited.filterMap NodeId.expr? =
      [⟨1⟩, ⟨0⟩, ⟨0⟩, ⟨4⟩, ⟨3⟩, ⟨2⟩, ⟨1⟩, ⟨0⟩, ⟨0⟩, ⟨0⟩] := by
  obtain ⟨-, -, calls, b, hrun, -, harena, hids, -⟩ :=
    sharingUnit_isAcyclic.traversals_agree noting_keepsNodes [] .initial
  refine ⟨b, ?_, harena fun _ _ => rfl, by decide +kernel⟩
  have hlog : calls.foldl (fun log call => noting.record call.1 call.2 log) [] =
      calls.map Prod.snd := by
    have hfold := foldl_eq_append_flatMap (g := fun call : Builder × ExprId => [call.2])
      (f := fun log call => noting.record call.1 call.2 log) (fun _ _ => rfl) [] calls
    exact hfold.trans List.map_eq_flatMap.symm
  rw [hrun, hlog, hids]
  have hlisted : sharingUnit.leaveOrder.filterMap NodeId.expr? =
      [⟨0⟩, ⟨0⟩, ⟨1⟩, ⟨0⟩, ⟨0⟩, ⟨1⟩, ⟨2⟩, ⟨3⟩, ⟨0⟩, ⟨4⟩] := by decide +kernel
  rw [hlisted]

end Erasure
