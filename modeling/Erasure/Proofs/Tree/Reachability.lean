/-
The nodes of a unit.

`HasNode` are the nodes that the trees of a unit lead to. In a unit without cycles every path ends
after at most as many nodes as there are, so that a walk which is deep enough meets all of them. The
main statements:

* `acyclic_levels`: no path of a unit without cycles has more levels than the arena has nodes.
* `isAcyclic_of_rank`: a unit has no cycles if children come before their parents.
* `IsAcyclic.mem_nodes_iff`: the nodes that a walk lists are those that the trees lead to.
-/
import Mathlib.Logic.Relation
import Mathlib.Data.Finset.Card
import Mathlib.Data.Finset.Image
import Erasure.Tree.CompilationUnit

namespace Erasure

/-! ### Paths in an arena -/

namespace Arena

open Relation (ReflTransGen TransGen)

variable {a b : Arena} {n m : NodeId}

/-- The node is in the arena. -/
def Has (a : Arena) : NodeId → Prop
  | .expr e => e.index < a.exprs.size
  | .stmt s => s.index < a.stmts.size

instance (a : Arena) : DecidablePred a.Has
  | .expr _ => inferInstanceAs (Decidable (_ < _))
  | .stmt _ => inferInstanceAs (Decidable (_ < _))

/-- The second node is a child of the first. -/
def Parent (a : Arena) (n c : NodeId) : Prop := c ∈ a.children n

/-- The second node is in the tree of the first. -/
abbrev Leads (a : Arena) : NodeId → NodeId → Prop := ReflTransGen a.Parent

theorem expr_of_size_le {e : ExprId} (h : a.exprs.size ≤ e.index) : a.expr e = default := by
  rw [expr, Array.getD_eq_getD_getElem?, Array.getElem?_eq_none h]
  rfl

theorem stmt_of_size_le {s : StmtId} (h : a.stmts.size ≤ s.index) : a.stmt s = default := by
  rw [stmt, Array.getD_eq_getD_getElem?, Array.getElem?_eq_none h]
  rfl

/-- A node with children is in the arena. -/
theorem has_of_children {c : NodeId} (h : c ∈ a.children n) : a.Has n := by
  by_contra hnot
  cases n with
  | expr e =>
    rw [children, expr_of_size_le (Nat.le_of_not_lt hnot)] at h
    exact absurd h List.not_mem_nil
  | stmt s =>
    rw [children, stmt_of_size_le (Nat.le_of_not_lt hnot)] at h
    exact absurd h List.not_mem_nil

/-- Where two arenas agree on the trees of a node, it leads to the same nodes in both. -/
theorem leads_congr (h : ∀ m, a.Leads n m → b.children m = a.children m) (hm : a.Leads n m) :
    b.Leads n m := by
  induction hm with
  | refl => exact .refl
  | @tail m c hm hc ih => exact ih.tail (show c ∈ b.children m from h m hm ▸ hc)

theorem leads_iff_of_children_eq (h : ∀ m, a.Leads n m → b.children m = a.children m) :
    b.Leads n m ↔ a.Leads n m := by
  refine ⟨fun hm => ?_, leads_congr h⟩
  induction hm with
  | refl => exact .refl
  | @tail m c _ hc ih => exact ih.tail (show c ∈ a.children m from h m ih ▸ hc)

/-! ### Levels -/

/-- No path from the node has more nodes than that. -/
def Levels (a : Arena) : Nat → NodeId → Prop
  | 0, _ => False
  | k + 1, n => ∀ c ∈ a.children n, a.Levels k c

theorem Levels.mono {j k : Nat} (hle : j ≤ k) (h : a.Levels j n) : a.Levels k n := by
  induction j generalizing k n with
  | zero => exact h.elim
  | succ j ih =>
    obtain ⟨k, rfl⟩ := Nat.exists_eq_add_of_le' (Nat.lt_of_lt_of_le (Nat.succ_pos j) hle)
    exact fun c hc => ih (Nat.le_of_succ_le_succ hle) (h c hc)

theorem Levels.child {k : Nat} (h : a.Levels k n) {c : NodeId} (hc : c ∈ a.children n) :
    a.Levels k c := by
  cases k with
  | zero => exact h.elim
  | succ k => exact (h c hc).mono (Nat.le_succ k)

theorem Levels.of_leads {k : Nat} (h : a.Levels k n) (hm : a.Leads n m) : a.Levels k m := by
  induction hm with
  | refl => exact h
  | tail _ hc ih => exact ih.child hc

/-- The number of levels depends on the trees of the node only. -/
theorem Levels.congr {k : Nat} (hsame : ∀ m, a.Leads n m → b.children m = a.children m)
    (h : a.Levels k n) : b.Levels k n := by
  induction k generalizing n with
  | zero => exact h.elim
  | succ k ih =>
    intro c hc
    rw [hsame n .refl] at hc
    exact ih (fun m hm => hsame m (hm.head hc)) (h c hc)

/-- A node with finitely many levels is on no cycle. -/
theorem Levels.acyclic {k : Nat} (h : a.Levels k n) : ¬ TransGen a.Parent n n := by
  induction k generalizing n with
  | zero => exact h.elim
  | succ k ih =>
    intro hcycle
    obtain ⟨c, hc, hback⟩ := TransGen.head'_iff.mp hcycle
    exact ih (h c hc) (TransGen.tail' hback hc)

/-- All nodes of the arena. -/
def allNodes (a : Arena) : Finset NodeId :=
  (Finset.range a.exprs.size).image (fun i => .expr ⟨i⟩) ∪
    (Finset.range a.stmts.size).image (fun i => .stmt ⟨i⟩)

theorem mem_allNodes (h : a.Has n) : n ∈ a.allNodes := by
  cases n with
  | expr e =>
    exact Finset.mem_union_left _
      (Finset.mem_image.mpr ⟨e.index, Finset.mem_range.mpr h, rfl⟩)
  | stmt s =>
    exact Finset.mem_union_right _
      (Finset.mem_image.mpr ⟨s.index, Finset.mem_range.mpr h, rfl⟩)

theorem card_allNodes_le (a : Arena) : a.allNodes.card ≤ a.nodeCount := by
  refine (Finset.card_union_le _ _).trans (Nat.add_le_add ?_ ?_)
  · exact Finset.card_image_le.trans (Finset.card_range _).le
  · exact Finset.card_image_le.trans (Finset.card_range _).le

/-- If no node of a tree is on a cycle and all nodes with children are in a set, there is at most one
level more than the set has elements. -/
theorem levels_of_card {S : Finset NodeId} {k : Nat} (hcard : S.card = k)
    (hmem : ∀ m, a.Leads n m → a.children m ≠ [] → m ∈ S)
    (hacyclic : ∀ m, a.Leads n m → ¬ TransGen a.Parent m m) : a.Levels (k + 1) n := by
  induction k generalizing S n with
  | zero =>
    intro c hc
    have hn := hmem n .refl (List.ne_nil_of_mem hc)
    rw [Finset.card_eq_zero.mp hcard] at hn
    exact absurd hn (Finset.notMem_empty n)
  | succ k ih =>
    intro c hc
    have hn := hmem n .refl (List.ne_nil_of_mem hc)
    have hfewer : (S.erase n).card = k := by
      rw [Finset.card_erase_of_mem hn, hcard, Nat.add_sub_cancel]
    refine ih hfewer (fun m hm hchildren => Finset.mem_erase.mpr ⟨?_, ?_⟩) fun m hm => ?_
    · rintro rfl
      exact hacyclic m .refl (TransGen.head' hc hm)
    · exact hmem m (hm.head hc) hchildren
    · exact hacyclic m (hm.head hc)

/-- A tree without cycles has at most one level more than there are nodes. -/
theorem acyclic_levels (h : ∀ m, a.Leads n m → ¬ TransGen a.Parent m m) :
    a.Levels (a.nodeCount + 1) n := by
  have hmem : ∀ m, a.Leads n m → a.children m ≠ [] → m ∈ a.allNodes := by
    intro m _ hm
    obtain ⟨c, hc⟩ := List.exists_mem_of_ne_nil _ hm
    exact mem_allNodes (has_of_children hc)
  exact (levels_of_card rfl hmem h).mono (Nat.succ_le_succ a.card_allNodes_le)

theorem Levels.le_nodeCount {k : Nat} (h : a.Levels k n) : a.Levels (a.nodeCount + 1) n :=
  acyclic_levels fun _ hm => (h.of_leads hm).acyclic

/-! ### Walks -/

/-- A walk stays in a set that is closed under children. -/
theorem of_mem_preorderOnto {G : NodeId → Prop} (hclosed : ∀ {n}, G n → ∀ c ∈ a.children n, G c)
    {depth : Nat} {rest : List NodeId} (hn : G n) (h : m ∈ a.preorderOnto depth n rest) :
    G m ∨ m ∈ rest := by
  induction depth generalizing n rest with
  | zero => exact Or.inr h
  | succ depth ih =>
    rcases List.mem_cons.mp h with rfl | h
    · exact Or.inl hn
    · have hchildren := hclosed hn
      generalize a.children n = cs at h hchildren
      induction cs with
      | nil => exact Or.inr h
      | cons c cs ihs =>
        rcases ih (hchildren c List.mem_cons_self) h with h | h
        · exact Or.inl h
        · exact ihs h fun c hc => hchildren c (List.mem_cons_of_mem _ hc)

theorem mem_preorderOnto_of_mem {depth : Nat} {rest : List NodeId} (h : m ∈ rest) :
    m ∈ a.preorderOnto depth n rest := by
  induction depth generalizing n rest with
  | zero => exact h
  | succ depth ih =>
    refine List.mem_cons_of_mem _ ?_
    generalize a.children n = cs
    induction cs with
    | nil => exact h
    | cons c cs ihs => exact ih ihs

/-- A walk that is deep enough meets every node of a tree. -/
theorem mem_preorderOnto_of_leads {depth : Nat} (hlevels : a.Levels depth n) (rest : List NodeId)
    (h : a.Leads n m) : m ∈ a.preorderOnto depth n rest := by
  induction depth generalizing n rest with
  | zero => exact hlevels.elim
  | succ depth ih =>
    rcases ReflTransGen.cases_head h with rfl | ⟨c, hc, hm⟩
    · exact List.mem_cons_self
    · refine List.mem_cons_of_mem _ ?_
      obtain ⟨before, after, heq⟩ := List.append_of_mem hc
      rw [heq, List.foldr_append, List.foldr_cons]
      have hmem := ih (hlevels c hc) (after.foldr (a.preorderOnto depth) rest) hm
      clear heq
      induction before with
      | nil => exact hmem
      | cons d before ihs => exact mem_preorderOnto_of_mem ihs

end Arena

/-! ### The nodes of a unit -/

/-- An order of the nodes, from one of the expressions and one of the statements. -/
def NodeId.rank (exprs stmts : Nat → Nat) : NodeId → Nat
  | .expr e => exprs e.index
  | .stmt s => stmts s.index

namespace CompilationUnit

open Relation (TransGen)

variable {u : CompilationUnit} {n m : NodeId}

/-- The nodes of the trees of a unit. -/
inductive HasNode (u : CompilationUnit) : NodeId → Prop
  | root {n : NodeId} : n ∈ u.roots → HasNode u n
  | child {n c : NodeId} : HasNode u n → c ∈ u.arena.children n → HasNode u c

theorem HasNode.leads (h : u.HasNode n) (hm : u.arena.Leads n m) : u.HasNode m := by
  induction hm with
  | refl => exact h
  | tail _ hc ih => exact ih.child hc

theorem HasNode.exists_root (h : u.HasNode n) : ∃ r ∈ u.roots, u.arena.Leads r n := by
  induction h with
  | root hr => exact ⟨_, hr, .refl⟩
  | child _ hc ih =>
    obtain ⟨r, hr, hn⟩ := ih
    exact ⟨r, hr, hn.tail hc⟩

/-- The nodes of the trees of a unit are in its arena, and none of them is below itself. -/
structure IsAcyclic (u : CompilationUnit) : Prop where
  has : ∀ {n}, u.HasNode n → u.arena.Has n
  acyclic : ∀ {n}, u.HasNode n → ¬ TransGen u.arena.Parent n n

theorem IsAcyclic.levels (h : u.IsAcyclic) (hn : u.HasNode n) :
    u.arena.Levels (u.arena.nodeCount + 1) n :=
  Arena.acyclic_levels fun _ hm => h.acyclic (hn.leads hm)

/-- A unit has no cycles if an order of its nodes puts children below their parents. -/
theorem isAcyclic_of_rank (rank : NodeId → Nat) (hroots : ∀ r ∈ u.roots, u.arena.Has r)
    (hexprs : ∀ i < u.arena.exprs.size, ∀ c ∈ u.arena.children (.expr ⟨i⟩),
      u.arena.Has c ∧ rank c < rank (.expr ⟨i⟩))
    (hstmts : ∀ i < u.arena.stmts.size, ∀ c ∈ u.arena.children (.stmt ⟨i⟩),
      u.arena.Has c ∧ rank c < rank (.stmt ⟨i⟩)) : u.IsAcyclic := by
  have hstep : ∀ {n c}, c ∈ u.arena.children n → u.arena.Has c ∧ rank c < rank n := by
    intro n c hc
    have hn := Arena.has_of_children hc
    cases n with
    | expr e => exact hexprs e.index hn c hc
    | stmt s => exact hstmts s.index hn c hc
  have hless : ∀ {n m}, TransGen u.arena.Parent n m → rank m < rank n := by
    intro n m h
    induction h with
    | single hc => exact (hstep hc).2
    | tail _ hc ih => exact (hstep hc).2.trans ih
  refine ⟨fun hn => ?_, fun _ hcycle => (hless hcycle).false⟩
  cases hn with
  | root hr => exact hroots _ hr
  | child _ hc => exact (hstep hc).1

/-- A set of nodes that is closed under children has all nodes if it has the roots. -/
theorem of_mem_nodes {G : NodeId → Prop} (hclosed : ∀ {n}, G n → ∀ c ∈ u.arena.children n, G c)
    (hroots : ∀ n ∈ u.roots, G n) (h : n ∈ u.nodes) : G n := by
  obtain ⟨root, hroot, hn⟩ := List.mem_flatMap.mp h
  exact (Arena.of_mem_preorderOnto hclosed (hroots root hroot) hn).resolve_right List.not_mem_nil

/-- In a unit without cycles the nodes that a walk lists are those that the trees lead to. -/
theorem IsAcyclic.mem_nodes_iff (h : u.IsAcyclic) : n ∈ u.nodes ↔ u.HasNode n := by
  refine ⟨of_mem_nodes (fun hn _ hc => hn.child hc) fun _ hr => .root hr, fun hn => ?_⟩
  obtain ⟨r, hr, hrn⟩ := hn.exists_root
  exact List.mem_flatMap.mpr
    ⟨r, hr, Arena.mem_preorderOnto_of_leads (h.levels (.root hr)) [] hrn⟩

end CompilationUnit

end Erasure
