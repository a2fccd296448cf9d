/-
Units whose nodes form trees.

In a tree-shaped unit every node is the root of one member or the child of one node. The order of
evaluation lists the parts of a node in order and then the node. The main statements:

* `Arena.Reads.mem_postorder`: the nodes of a tree are those that its root leads to.
* `IsTreeShaped.isAcyclic`: a tree-shaped unit has no cycles.
* `IsTreeShaped.nodup_postorder`: no node of a tree-shaped unit is evaluated in two places.
-/
import Mathlib.Data.List.Nodup
import Mathlib.Data.List.Pairwise
import Erasure.Proofs.Tree.ReadBack

namespace Erasure

open Relation (ReflTransGen TransGen)

namespace RoseTree

variable {α : Type}

/-- The labels of a tree, those of the parts first. -/
def postorder : RoseTree α → List α := fold fun l ps => ps.flatten ++ [l]

theorem postorder_node (l : α) (ps : List (RoseTree α)) :
    (node l ps).postorder = ps.flatMap postorder ++ [l] := by
  rw [postorder, fold_node, List.flatMap_def]

end RoseTree

/-- The nodes of a tree are those that its root leads to, with their forms. -/
theorem Arena.Reads.mem_postorder {a : Arena} {n m : NodeId} {t : LocatedTree} {f : Form}
    (h : a.Reads n t) : (m, f) ∈ t.postorder ↔ a.Leads n m ∧ f = a.form m := by
  induction t using RoseTree.induction generalizing n with
  | h l ps ih =>
    obtain ⟨ps', hps, heq⟩ := reads_iff.mp h
    obtain ⟨rfl, rfl⟩ := RoseTree.node.inj heq
    rw [RoseTree.postorder_node, List.mem_append, List.mem_flatMap, List.mem_singleton]
    constructor
    · rintro (⟨p, hp, hmem⟩ | heq)
      · obtain ⟨c, hc, hread⟩ := exists_of_forall₂_right hps hp
        obtain ⟨hm, rfl⟩ := (ih p hp hread).mp hmem
        exact ⟨hm.head hc, rfl⟩
      · obtain ⟨rfl, rfl⟩ := Prod.mk.inj heq
        exact ⟨.refl, rfl⟩
    · rintro ⟨hm, rfl⟩
      rcases ReflTransGen.cases_head hm with rfl | ⟨c, hc, hm⟩
      · exact Or.inr rfl
      · obtain ⟨p, hp, hread⟩ := exists_of_forall₂_left hps hc
        exact Or.inl ⟨p, hp, (ih p hp hread).mpr ⟨hm, rfl⟩⟩

namespace CompilationUnit

variable {u : CompilationUnit} {n m p c : NodeId}

/-- Every node of a unit is the root of one member or the child of one node, once. -/
structure IsTreeShaped (u : CompilationUnit) : Prop where
  has : ∀ {n}, u.HasNode n → u.arena.Has n
  roots_nodup : u.roots.Nodup
  children_nodup : ∀ {n}, u.HasNode n → (u.arena.children n).Nodup
  not_root : ∀ {n c}, u.HasNode n → c ∈ u.arena.children n → c ∉ u.roots
  parent_unique : ∀ {n m c}, u.HasNode n → u.HasNode m → c ∈ u.arena.children n →
    c ∈ u.arena.children m → n = m

namespace IsTreeShaped

variable (h : u.IsTreeShaped)
include h

theorem isAcyclic : u.IsAcyclic := by
  refine ⟨h.has, fun hn => ?_⟩
  induction hn with
  | @root r hr =>
    intro hcycle
    obtain ⟨p, hp, hr'⟩ := TransGen.tail'_iff.mp hcycle
    exact h.not_root ((HasNode.root hr).leads hp) hr' hr
  | @child n c hn hc ih =>
    intro hcycle
    obtain ⟨p, hp, hc'⟩ := TransGen.tail'_iff.mp hcycle
    -- The cycle comes back to `c` through its only parent.
    obtain rfl := h.parent_unique ((hn.child hc).leads hp) hn hc' hc
    exact ih (TransGen.head' hc hp)

/-- Of two nodes above one node, one is above the other. -/
theorem leads_total (hn : u.HasNode n) (hm : u.HasNode m) (hnc : u.arena.Leads n c)
    (hmc : u.arena.Leads m c) : u.arena.Leads n m ∨ u.arena.Leads m n := by
  induction hnc generalizing m with
  | refl => exact Or.inr hmc
  | @tail p c hnp hc ih =>
    rcases ReflTransGen.cases_tail hmc with rfl | ⟨q, hmq, hc'⟩
    · exact Or.inl (hnp.tail hc)
    · obtain rfl := h.parent_unique (hn.leads hnp) (hm.leads hmq) hc hc'
      exact ih hm hmq

/-- Trees none of which is in another one have no node in common. -/
theorem nodup_flatMap {ns : List NodeId} (hns : ns.Nodup) (hnodes : ∀ n ∈ ns, u.HasNode n)
    (hapart : ∀ n ∈ ns, ∀ m ∈ ns, u.arena.Leads n m → n = m)
    (heach : ∀ n ∈ ns, (u.arena.tree n).postorder.Nodup) :
    (ns.flatMap fun n => (u.arena.tree n).postorder).Nodup := by
  refine List.nodup_flatMap.mpr ⟨heach, ?_⟩
  refine hns.imp_of_mem fun {n m} hn hm hne => ?_
  rintro ⟨c, f⟩ hnc hmc
  have hreads := fun n hn => h.isAcyclic.reads (hnodes n hn)
  have hnc := ((hreads n hn).mem_postorder.mp hnc).1
  have hmc := ((hreads m hm).mem_postorder.mp hmc).1
  rcases h.leads_total (hnodes n hn) (hnodes m hm) hnc hmc with hnm | hmn
  · exact hne (hapart n hn m hm hnm)
  · exact hne (hapart m hm n hn hmn).symm

/-- No node of a tree is evaluated in two places. -/
theorem nodup_postorder (hn : u.HasNode n) : (u.arena.tree n).postorder.Nodup := by
  have hlevels := h.isAcyclic.levels hn
  generalize u.arena.nodeCount + 1 = k at hlevels
  induction k generalizing n with
  | zero => exact hlevels.elim
  | succ k ih =>
    rw [h.isAcyclic.tree_eq hn, RoseTree.postorder_node, List.flatMap_map]
    refine List.nodup_append.mpr ⟨?_, List.nodup_singleton _, ?_⟩
    · refine h.nodup_flatMap (h.children_nodup hn) (fun c hc => hn.child hc) ?_
        fun c hc => ih (hn.child hc) (hlevels c hc)
      intro c hc d hd hcd
      -- A child is below another one only through the node itself.
      rcases ReflTransGen.cases_tail hcd with rfl | ⟨q, hcq, hd'⟩
      · rfl
      · obtain rfl := h.parent_unique ((hn.child hc).leads hcq) hn hd' hd
        exact (h.isAcyclic.acyclic hn (TransGen.head' hc hcq)).elim
    · rintro ⟨m, f⟩ hm _ hl rfl
      obtain ⟨c, hc, hmem⟩ := List.mem_flatMap.mp hm
      obtain ⟨rfl, rfl⟩ := Prod.mk.inj (List.mem_singleton.mp hl)
      have hback := ((h.isAcyclic.reads (hn.child hc)).mem_postorder.mp hmem).1
      exact h.isAcyclic.acyclic hn (TransGen.head' hc hback)

theorem nodup_roots : (u.roots.flatMap fun r => (u.arena.tree r).postorder).Nodup := by
  refine h.nodup_flatMap h.roots_nodup (fun r hr => .root hr) (fun r hr q hq hrq => ?_)
    fun r hr => h.nodup_postorder (.root hr)
  rcases ReflTransGen.cases_tail hrq with rfl | ⟨p, hrp, hq'⟩
  · rfl
  · exact (h.not_root ((HasNode.root hr).leads hrp) hq' hq).elim

end IsTreeShaped

/-- A unit without cycles is tree-shaped if no node is listed twice among the roots and the children
of all nodes. -/
theorem isTreeShaped_of_nodup (h : u.IsAcyclic) (ns : List NodeId)
    (hall : ∀ n, u.arena.Has n → n ∈ ns)
    (hnodup : (u.roots ++ ns.flatMap u.arena.children).Nodup) : u.IsTreeShaped := by
  obtain ⟨hroots, hchildren, hapart⟩ := List.nodup_append.mp hnodup
  obtain ⟨heach, hpairs⟩ := List.nodup_flatMap.mp hchildren
  refine ⟨h.has, hroots, fun hn => heach _ (hall _ (h.has hn)), fun hn hc hr => ?_, ?_⟩
  · exact hapart _ hr _ (List.mem_flatMap.mpr ⟨_, hall _ (h.has hn), hc⟩) rfl
  · intro n m c hn hm hcn hcm
    by_contra hne
    have : Std.Symm (Function.onFun List.Disjoint u.arena.children) := ⟨fun _ _ h => h.symm⟩
    have hdisjoint := hpairs.forall (hall _ (h.has hn)) (hall _ (h.has hm)) hne
    exact hdisjoint hcn hcm

end CompilationUnit

end Erasure
