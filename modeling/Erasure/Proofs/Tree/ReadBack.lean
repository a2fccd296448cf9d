/-
Trees read back from an arena.

A node of an arena with everything below it is a tree whose labels are the nodes without their
children (`Form`). Reading back goes so many levels down; in a unit without cycles there are no more
levels than nodes. The main statements:

* `reads_iff`: a node reads as its form over what its children read as.
* `Reads.congr`: the tree depends on the nodes that it has only.
* `IsAcyclic.reads`: in a unit without cycles every node reads as a tree.
-/
import Erasure.Proofs.Pool.Substitution
import Erasure.Proofs.Tree.Reachability

namespace Erasure

/-! ### Labelled trees -/

/-- A tree with a label at every node. -/
inductive RoseTree (α : Type) where
  | node (label : α) (parts : List (RoseTree α))

namespace RoseTree

variable {α β : Type}

/-- The label of the root. -/
def label : RoseTree α → α
  | node l _ => l

/-- The trees below the root. -/
def parts : RoseTree α → List (RoseTree α)
  | node _ ps => ps

mutual

/-- Computes something of a tree from the leaves up. -/
def fold (f : α → List β → β) : RoseTree α → β
  | node l ps => f l (foldAll f ps)

/-- Computes something of several trees. -/
def foldAll (f : α → List β → β) : List (RoseTree α) → List β
  | [] => []
  | p :: ps => fold f p :: foldAll f ps

end

theorem foldAll_eq_map (f : α → List β → β) (ps : List (RoseTree α)) :
    foldAll f ps = ps.map (fold f) := by
  induction ps with
  | nil => rfl
  | cons p ps ih => rw [foldAll, ih, List.map_cons]

theorem fold_node (f : α → List β → β) (l : α) (ps : List (RoseTree α)) :
    fold f (node l ps) = f l (ps.map (fold f)) := by
  rw [fold, foldAll_eq_map]

/-- The tree with other labels. -/
def map (f : α → β) : RoseTree α → RoseTree β := fold fun l ps => node (f l) ps

theorem map_node (f : α → β) (l : α) (ps : List (RoseTree α)) :
    map f (node l ps) = node (f l) (ps.map (map f)) := fold_node ..

/-- What holds of a tree if it holds of all its parts holds of all trees. -/
theorem induction {motive : RoseTree α → Prop}
    (h : ∀ l ps, (∀ p ∈ ps, motive p) → motive (node l ps)) : ∀ t, motive t
  | node l ps => h l ps fun p _ => induction h p

end RoseTree

/-! ### Forms -/

/-- The number that stands in place of a child. -/
def ExprId.hole : ExprId := ⟨0⟩

/-- The number that stands in place of a child. -/
def StmtId.hole : StmtId := ⟨0⟩

/-- The receiver without its number. -/
def Receiver.bare : Receiver → Receiver
  | expr _ => expr .hole
  | type ty => type ty

/-- The form of an expression without its children. -/
def ExprKind.bare : ExprKind → ExprKind
  | field receiver m => field receiver.bare m
  | arrayAccess _ _ guarded => arrayAccess .hole .hole guarded
  | call receiver m args dispatch => call receiver.bare m (args.map fun _ => .hole) dispatch
  | new m outer args => new m (outer.map fun _ => .hole) (args.map fun _ => .hole)
  | newArray elems => newArray (elems.map fun _ => .hole)
  | binary op _ _ => binary op .hole .hole
  | unary op _ => unary op .hole
  | cast _ target => cast .hole target
  | instanceOf _ target => instanceOf .hole target
  | assign _ _ => assign .hole .hole
  | sequence stmts _ => sequence (stmts.map fun _ => .hole) .hole
  | bool v => bool v
  | int v => int v
  | float bits => float bits
  | char unit => char unit
  | str text => str text
  | null => null
  | localVar l => localVar l
  | classLiteral target => classLiteral target
  | self => self

theorem ExprKind.eq_of_bare_new {k : ExprKind} {ctor : MemberId} {e : ExprId}
    (h : k.bare = .new ctor none [e]) : ∃ e, k = .new ctor none [e] := by
  cases k with
  | new m outer args =>
    obtain ⟨rfl, houter, hargs⟩ := ExprKind.new.inj h
    obtain rfl := Option.map_eq_none_iff.mp houter
    obtain ⟨e, rfl, -⟩ := List.map_eq_singleton_iff.mp hargs
    exact ⟨e, rfl⟩
  | _ => cases h

theorem ExprKind.eq_of_bare_newArray {k : ExprKind} {es : List ExprId}
    (h : k.bare = .newArray es) : ∃ es, k = .newArray es := by
  cases k with
  | newArray es => exact ⟨es, rfl⟩
  | _ => cases h

theorem ExprKind.eq_of_bare_char {k : ExprKind} {unit : UInt16} (h : k.bare = .char unit) :
    k = .char unit := by
  cases k with
  | char _ => exact h
  | _ => cases h

theorem ExprKind.eq_of_bare_binary {k : ExprKind} {op : BinaryOp} {l r : ExprId}
    (h : k.bare = .binary op l r) : ∃ l r, k = .binary op l r := by
  cases k with
  | binary _ l r =>
    obtain ⟨rfl, -, -⟩ := ExprKind.binary.inj h
    exact ⟨l, r, rfl⟩
  | _ => cases h

theorem ExprKind.eq_of_bare_call {k : ExprKind} {receiver : Receiver} {m : MemberId} {arg : ExprId}
    {d : Dispatch} (h : k.bare = .call receiver m [arg] d) :
    ∃ receiver' arg', k = .call receiver' m [arg'] d ∧ receiver'.bare = receiver := by
  cases k with
  | call receiver' m' args d' =>
    obtain ⟨hreceiver, rfl, hargs, rfl⟩ := ExprKind.call.inj h
    obtain ⟨arg', rfl, -⟩ := List.map_eq_singleton_iff.mp hargs
    exact ⟨receiver', arg', rfl, hreceiver⟩
  | _ => cases h

/-- The form of a statement without its children. -/
def StmtKind.bare : StmtKind → StmtKind
  | localDecl l init => localDecl l (init.map fun _ => .hole)
  | eval _ => eval .hole
  | branch _ _ onFalse => branch .hole .hole (onFalse.map fun _ => .hole)
  | block stmts => block (stmts.map fun _ => .hole)
  | result e => result (e.map fun _ => .hole)
  | throwing _ => throwing .hole
  | constructorCall kind m args => constructorCall kind m (args.map fun _ => .hole)

/-- A node without its children. -/
inductive Form where
  | expr (x : Expr)
  | stmt (x : Stmt)
  deriving DecidableEq, Repr

/-- The static type of an expression. -/
def Form.type : Form → TypeId
  | expr x => x.type
  | stmt _ => default

/-- A tree with the numbers of its nodes. -/
abbrev LocatedTree := RoseTree (NodeId × Form)

/-- The static type of the expression that a tree is. -/
def LocatedTree.type (t : LocatedTree) : TypeId := t.label.2.type

namespace Arena

open Relation (ReflTransGen)

variable {a b c : Arena} {n m : NodeId} {t u : LocatedTree}

/-- A node without its children. -/
def form (a : Arena) : NodeId → Form
  | .expr e => .expr { a.expr e with kind := (a.expr e).kind.bare }
  | .stmt s => .stmt { a.stmt s with kind := (a.stmt s).kind.bare }

theorem form_expr (a : Arena) (e : ExprId) :
    a.form (.expr e) = .expr { a.expr e with kind := (a.expr e).kind.bare } := rfl

/-! ### Reading back -/

/-- The tree of a node, down to so many levels. -/
def treeWithin (a : Arena) : Nat → NodeId → LocatedTree
  | 0, n => .node (n, a.form n) []
  | k + 1, n => .node (n, a.form n) ((a.children n).map (a.treeWithin k))

/-- The tree of a node. -/
def tree (a : Arena) (n : NodeId) : LocatedTree := a.treeWithin (a.nodeCount + 1) n

theorem treeWithin_eq {j k : Nat} (h : a.Levels k n) (hle : k ≤ j) :
    a.treeWithin j n = a.treeWithin k n := by
  induction k generalizing j n with
  | zero => exact h.elim
  | succ k ih =>
    obtain ⟨j, rfl⟩ := Nat.exists_eq_add_of_le' (Nat.lt_of_lt_of_le (Nat.succ_pos k) hle)
    rw [treeWithin, treeWithin]
    exact congrArg _ (List.map_congr_left fun c hc => ih (h c hc) (Nat.le_of_succ_le_succ hle))

/-- The node has finitely many levels and reads back as the tree. -/
def Reads (a : Arena) (n : NodeId) (t : LocatedTree) : Prop :=
  a.Levels (a.nodeCount + 1) n ∧ a.tree n = t

theorem Levels.reads {k : Nat} (h : a.Levels k n) : a.Reads n (a.treeWithin k n) := by
  refine ⟨h.le_nodeCount, ?_⟩
  rcases Nat.le_total k (a.nodeCount + 1) with hle | hle
  · exact treeWithin_eq h hle
  · exact (treeWithin_eq h.le_nodeCount hle).symm

theorem Reads.unique (h : a.Reads n t) (h' : a.Reads n u) : t = u := h.2.symm.trans h'.2

/-- A node reads as its form over what its children read as. -/
theorem reads_iff :
    a.Reads n t ↔ ∃ ts, List.Forall₂ a.Reads (a.children n) ts ∧ t = .node (n, a.form n) ts := by
  constructor
  · rintro ⟨hlevels, rfl⟩
    have hparts : ∀ c ∈ a.children n, a.Reads c (a.treeWithin a.nodeCount c) := fun c hc =>
      Levels.reads (hlevels c hc)
    refine ⟨(a.children n).map (a.treeWithin a.nodeCount), ?_, rfl⟩
    exact List.forall₂_map_right_iff.mpr (List.forall₂_same.mpr hparts)
  · rintro ⟨ts, hts, rfl⟩
    have hlevels : a.Levels (a.nodeCount + 1 + 1) n := fun c hc => by
      obtain ⟨u, -, hu⟩ := exists_of_forall₂_left hts hc
      exact hu.1
    have hparts : (a.children n).map a.tree = ts :=
      List.forall₂_eq_eq_eq ▸ List.forall₂_map_left_iff.mpr (hts.imp fun _ _ h => h.2)
    have htree : a.treeWithin (a.nodeCount + 1 + 1) n = .node (n, a.form n) ts := by
      rw [treeWithin, ← hparts]
      rfl
    exact htree ▸ hlevels.reads

/-- The node is the same in both arenas. -/
def SameAt (a b : Arena) : NodeId → Prop
  | .expr e => b.expr e = a.expr e
  | .stmt s => b.stmt s = a.stmt s

theorem SameAt.children (h : a.SameAt b n) : b.children n = a.children n := by
  cases n with
  | expr e => exact congrArg (·.kind.children) h
  | stmt s => exact congrArg (·.kind.children) h

theorem SameAt.form (h : a.SameAt b n) : b.form n = a.form n := by
  cases n with
  | expr e => exact congrArg (fun x : Expr => Form.expr { x with kind := x.kind.bare }) h
  | stmt s => exact congrArg (fun x : Stmt => Form.stmt { x with kind := x.kind.bare }) h

/-- The node of an expression that reads as a tree. -/
theorem Reads.expr {e : ExprId} {x : NodeId} {y : Expr} {parts : List LocatedTree}
    (h : a.Reads (.expr e) (.node (x, .expr y) parts)) :
    ∃ k, a.expr e = ⟨k, y.type, y.span⟩ ∧ k.bare = y.kind ∧ List.Forall₂ a.Reads k.children parts := by
  obtain ⟨ts, hts, heq⟩ := reads_iff.mp h
  obtain ⟨hlabel, rfl⟩ := RoseTree.node.inj heq
  obtain rfl := Form.expr.inj (congrArg Prod.snd hlabel)
  exact ⟨_, rfl, rfl, hts⟩

/-- The tree of a node depends on the nodes that it has only. -/
theorem Reads.congr (h : a.Reads n t) (hsame : ∀ m, a.Leads n m → a.SameAt b m) : b.Reads n t := by
  induction t using RoseTree.induction generalizing n with
  | h l ps ih =>
    obtain ⟨ts, hts, heq⟩ := reads_iff.mp h
    obtain ⟨rfl, rfl⟩ := RoseTree.node.inj heq
    have hn := hsame n .refl
    refine reads_iff.mpr ⟨ps, ?_, by rw [hn.form]⟩
    rw [hn.children]
    refine (List.forall₂_iff_zip.mp hts).elim fun hlength hzip => ?_
    refine List.forall₂_iff_zip.mpr ⟨hlength, fun {c p} hcp => ?_⟩
    have hmem := List.of_mem_zip hcp
    exact ih p hmem.2 (hzip hcp) fun m hm => hsame m (hm.head hmem.1)

end Arena

namespace CompilationUnit

variable {u : CompilationUnit} {n : NodeId}

/-- In a unit without cycles every node reads as a tree. -/
theorem IsAcyclic.reads (h : u.IsAcyclic) (hn : u.HasNode n) : u.arena.Reads n (u.arena.tree n) :=
  ⟨h.levels hn, rfl⟩

theorem IsAcyclic.tree_eq (h : u.IsAcyclic) (hn : u.HasNode n) :
    u.arena.tree n = .node (n, u.arena.form n) ((u.arena.children n).map u.arena.tree) := by
  refine (h.reads hn).unique (Arena.reads_iff.mpr ⟨_, ?_, rfl⟩)
  exact List.forall₂_map_right_iff.mpr (List.forall₂_same.mpr fun c hc => h.reads (hn.child hc))

end CompilationUnit

end Erasure
