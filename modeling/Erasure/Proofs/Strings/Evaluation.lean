/-
What desugaring evaluates.

The nodes with an effect of their own are calls, allocations, assignments, sequences and statements.
Desugaring keeps them and their order, except those in operands that a conversion leaves out: the text
"null" takes the place of an operand of the null type, and a static method is called without its
receiver. The main statements:

* `desugars_evaluates`: what is evaluated in a desugared tree, and what is lost.
* `mem_effects`: the reachable nodes with an effect are evaluated.
* `desugar_effects`: in a tree-shaped unit nothing is evaluated twice or in another order, and
  what is not evaluated any more is lost.
* `desugar_loses_statement`: a statement that is lost.
-/
import Mathlib.Tactic.IntervalCases
import Erasure.Proofs.Strings.Validation
import Erasure.Proofs.Tree.TreeShape

namespace Erasure

open TypeSystem (Between)

/-! ### Effects -/

/-- Whether evaluating a node does more than to compute a value from its parts. -/
def Form.hasEffect : Form → Bool
  | .expr ⟨.call .., _, _⟩ | .expr ⟨.new .., _, _⟩ | .expr ⟨.newArray _, _, _⟩
  | .expr ⟨.assign .., _, _⟩ | .expr ⟨.sequence .., _, _⟩ | .stmt _ => true
  | .expr _ => false

/-- The nodes with an effect, in the order of their evaluation. -/
def LocatedTree.effects (t : LocatedTree) : List (NodeId × Form) :=
  t.postorder.filter fun label => label.2.hasEffect

/-- The nodes with an effect in all trees of a unit. -/
def CompilationUnit.effects (u : CompilationUnit) : List (NodeId × Form) :=
  u.roots.flatMap fun r => (u.arena.tree r).effects

theorem LocatedTree.effects_node (label : NodeId × Form) (parts : List LocatedTree) :
    LocatedTree.effects (.node label parts) =
      parts.flatMap LocatedTree.effects ++ [label].filter fun label => label.2.hasEffect := by
  rw [effects, RoseTree.postorder_node, List.filter_append, List.filter_flatMap]
  rfl

namespace StringForm

variable {K : TypeSystem → Prop} {a : Arena} {span : Span} {p : NodeId × Form} {t t' : LocatedTree}

/-- The node is in the arena, in this form. -/
def IsOld (a : Arena) (p : NodeId × Form) : Prop := a.Has p.1 ∧ p.2 = a.form p.1

instance (a : Arena) : DecidablePred (IsOld a) := fun _ => inferInstanceAs (Decidable (_ ∧ _))

/-- The nodes of an arena that are evaluated in a tree. -/
def oldEffects (a : Arena) (t : LocatedTree) : List (NodeId × Form) :=
  t.effects.filter fun p => IsOld a p

theorem oldEffects_node (label : NodeId × Form) (parts : List LocatedTree) :
    oldEffects a (.node label parts) = parts.flatMap (oldEffects a) ++
      ([label].filter fun label => label.2.hasEffect).filter fun p => IsOld a p := by
  rw [oldEffects, LocatedTree.effects_node, List.filter_append, List.filter_flatMap]
  rfl

theorem oldEffects_of_not_old {label : NodeId × Form} (h : ¬ IsOld a label)
    (parts : List LocatedTree) :
    oldEffects a (.node label parts) = parts.flatMap (oldEffects a) := by
  have hnone : (([label].filter fun label => label.2.hasEffect).filter fun p => IsOld a p) = [] := by
    refine List.filter_eq_nil_iff.mpr fun q hq => ?_
    rw [List.mem_singleton.mp (List.mem_of_mem_filter hq), decide_eq_true_iff]
    exact h
  rw [oldEffects_node, hnone, List.append_nil]

theorem IsNew.oldEffects {kind : ExprKind} {type : TypeId} {parts : List LocatedTree}
    (h : IsNew a span kind type parts t) :
    StringForm.oldEffects a t = parts.flatMap (StringForm.oldEffects a) := by
  obtain ⟨n, hn, rfl⟩ := h
  exact oldEffects_of_not_old (fun hold => hn hold.1) parts

/-- A constructed string evaluates nothing that was there. -/
theorem SpellsOut.oldEffects {text : String} (h : SpellsOut K a span text t) :
    StringForm.oldEffects a t = [] := by
  obtain ⟨_, _, _, _, units, array, -, -, -, hunits, harray, -, hnew⟩ := h
  have hempty : ∀ v ∈ units, StringForm.oldEffects a v = [] := fun v hv => by
    obtain ⟨_, -, hunit⟩ := exists_of_forall₂_right hunits hv
    exact hunit.oldEffects
  rw [hnew.oldEffects, List.flatMap_singleton, harray.oldEffects, List.flatMap_eq_nil_iff]
  exact hempty

/-! ### What is lost -/

/-- A lookup finds a static method. -/
def FindsStatic (K : TypeSystem → Prop) (container : TypeId) (name : String) : Prop :=
  ∃ us m us' args, K us ∧ K us' ∧
    (TypeSystem.findMethod container name args).run us = (.ok m, us') ∧
    (us'.member m).flags.isStatic = true

/-- The conversion to a string leaves the operand out. -/
def LeavesOut (K : TypeSystem → Prop) (t : LocatedTree) : Prop :=
  t.type ≠ .string ∧ ((∃ us, K us ∧ us.kind t.type = .null) ∨ FindsStatic K t.type "toString")

/-- The operands of an addition of strings, and what they become. -/
structure AddsStrings (K : TypeSystem → Prop) (a : Arena) (l r l' r' : LocatedTree) : Prop where
  left : Desugars K a l l'
  right : Desugars K a r r'
  string : l'.type = .string ∨ r'.type = .string

/-- A node is evaluated in an operand of an addition of strings, and what the operand becomes is left
out. -/
inductive Lost (K : TypeSystem → Prop) (a : Arena) (p : NodeId × Form) : LocatedTree → Prop
  | part {label : NodeId × Form} {parts : List LocatedTree} {part : LocatedTree} :
      part ∈ parts → Lost K a p part → Lost K a p (.node label parts)
  | operand {n : NodeId} {ty : TypeId} {span : Span} {l r l' r' o o' : LocatedTree} :
      AddsStrings K a l r l' r' → (o, o') ∈ [(l, l'), (r, r')] → p ∈ o.effects → LeavesOut K o' →
      Lost K a p (.node (n, .expr ⟨.binary .add .hole .hole, ty, span⟩) [l, r])
  | receiver {n : NodeId} {ty : TypeId} {span : Span} {l r l' r' : LocatedTree} :
      AddsStrings K a l r l' r' → p ∈ l.effects → FindsStatic K .string "concat" →
      Lost K a p (.node (n, .expr ⟨.binary .add .hole .hole, ty, span⟩) [l, r])

theorem isStatic_of_classify {ts : TypeSystem} {m : MemberId} {container : TypeId}
    (h : Builder.classify ts m container = .static) : (ts.member m).flags.isStatic = true := by
  unfold Builder.classify at h
  by_contra hnot
  rw [if_neg hnot] at h
  repeat' split at h
  all_goals cases h

/-- A call evaluates its receiver, unless the method is static, and then its arguments. -/
theorem IsCall.oldEffects {receiver : Option LocatedTree} {container : TypeId} {name : String}
    {args : List LocatedTree} (h : IsCall K a span receiver container name args t) :
    StringForm.oldEffects a t = (receiver.toList ++ args).flatMap (StringForm.oldEffects a) ∨
      FindsStatic K container name ∧
        StringForm.oldEffects a t = args.flatMap (StringForm.oldEffects a) := by
  obtain ⟨us, m, us', receiver', hus, hus', hm, rfl, hnew⟩ := h
  rw [hnew.oldEffects]
  split
  case isTrue hstatic =>
    exact Or.inr ⟨⟨us, m, us', _, hus, hus', hm, isStatic_of_classify hstatic⟩, rfl⟩
  case isFalse => exact Or.inl rfl

/-- A converted operand evaluates what the operand does, or the operand is left out. -/
theorem Promotes.oldEffects (h : Promotes K a span t t') :
    StringForm.oldEffects a t' = StringForm.oldEffects a t ∨
      LeavesOut K t ∧ StringForm.oldEffects a t' = [] := by
  cases h with
  | string _ => exact Or.inl rfl
  | null hne hus hk hspells => exact Or.inr ⟨⟨hne, Or.inl ⟨_, hus, hk⟩⟩, hspells.oldEffects⟩
  | prim _ _ _ hcall =>
    refine Or.inl (hcall.oldEffects.elim (fun h => h.trans ?_) fun h => h.2.trans ?_)
    · exact List.flatMap_singleton ..
    · exact List.flatMap_singleton ..
  | object hne _ _ _ hcall =>
    rcases hcall.oldEffects with h | ⟨hstatic, h⟩
    · exact Or.inl (h.trans (List.flatMap_singleton ..))
    · exact Or.inr ⟨⟨hne, Or.inr hstatic⟩, h⟩

/-! ### Desugared trees -/

/-- A replacement evaluates the same in the place of what it replaces. -/
theorem oldEffects_in_place {n x : NodeId} {f g : Form} {parts : List LocatedTree}
    (hn : IsOld a (n, g)) (hne : f ≠ g) (hx : ¬ a.Has x) :
    oldEffects a (.node (n, f) parts) = oldEffects a (.node (x, f) parts) := by
  have hold : ¬ IsOld a (n, f) := fun h => hne (Eq.trans h.2 hn.2.symm)
  rw [oldEffects_of_not_old hold, oldEffects_of_not_old fun h => hx h.1]

/-- What is evaluated after desugaring is evaluated before, in the same order, and the rest is
lost. -/
structure Evaluates (K : TypeSystem → Prop) (a : Arena) (t t' : LocatedTree) : Prop where
  sublist : (oldEffects a t').Sublist t.effects
  lost : ∀ p ∈ t.effects, p ∈ oldEffects a t' ∨ Lost K a p t

theorem evaluates_parts {parts parts' : List LocatedTree}
    (h : List.Forall₂ (Evaluates K a) parts parts') :
    (parts'.flatMap (oldEffects a)).Sublist (parts.flatMap LocatedTree.effects) ∧
      ∀ p ∈ parts.flatMap LocatedTree.effects, p ∈ parts'.flatMap (oldEffects a) ∨
        ∃ part ∈ parts, Lost K a p part := by
  induction h with
  | nil => exact ⟨.slnil, fun _ hp => absurd hp List.not_mem_nil⟩
  | @cons part part' parts parts' hpart _ ih =>
    rw [List.flatMap_cons, List.flatMap_cons]
    refine ⟨hpart.sublist.append ih.1, fun p hp => ?_⟩
    rcases List.mem_append.mp hp with hp | hp
    · refine (hpart.lost p hp).imp (List.mem_append_left _) fun hlost => ?_
      exact ⟨part, List.mem_cons_self, hlost⟩
    · refine (ih.2 p hp).imp (List.mem_append_right _) fun ⟨q, hq, hlost⟩ => ?_
      exact ⟨q, List.mem_cons_of_mem _ hq, hlost⟩

/-- A node that is kept evaluates its parts and then itself. -/
theorem evaluates_keep {label : NodeId × Form} {parts parts' : List LocatedTree}
    (hlabel : IsOld a label) (h : List.Forall₂ (Evaluates K a) parts parts') :
    Evaluates K a (.node label parts) (.node label parts') := by
  obtain ⟨hsublist, hlost⟩ := evaluates_parts h
  have hself : (([label].filter fun label => label.2.hasEffect).filter fun p => IsOld a p) =
      [label].filter fun label => label.2.hasEffect := by
    refine List.filter_eq_self.mpr fun q hq => ?_
    rw [List.mem_singleton.mp (List.mem_of_mem_filter hq)]
    exact decide_eq_true hlabel
  refine ⟨?_, fun p hp => ?_⟩
  · rw [oldEffects_node, LocatedTree.effects_node, hself]
    exact hsublist.append (.refl _)
  · rw [LocatedTree.effects_node] at hp
    rw [oldEffects_node, hself]
    rcases List.mem_append.mp hp with hp | hp
    · exact (hlost p hp).imp (List.mem_append_left _) fun ⟨q, hq, hlost⟩ => .part hq hlost
    · exact Or.inl (List.mem_append_right _ hp)

/-- A literal evaluates nothing. -/
theorem evaluates_literal {n x : NodeId} {f : Form} {text : Name} {string : String} {ty : TypeId}
    {parts : List LocatedTree} (hn : IsOld a (n, .expr ⟨.str text, ty, span⟩))
    (h : SpellsOut K a span string (.node (x, f) parts)) :
    Evaluates K a (.node (n, .expr ⟨.str text, ty, span⟩) []) (.node (n, f) parts) := by
  have hempty : oldEffects a (.node (n, f) parts) = [] := by
    rw [← h.oldEffects]
    obtain ⟨_, _, ctor, _, _, array, -, -, -, -, -, -, _, hx, heq⟩ := h
    cases heq
    exact oldEffects_in_place hn (fun h => nomatch h) hx
  refine ⟨hempty ▸ List.nil_sublist _, fun p hp => ?_⟩
  rw [LocatedTree.effects_node] at hp
  exact absurd hp List.not_mem_nil

/-- What a converted operand evaluates, the operand evaluates. -/
theorem evaluates_operand {t₁ t₂ : LocatedTree} (h : Evaluates K a t t₁)
    (hpromotes : Promotes K a span t₁ t₂) :
    (oldEffects a t₂).Sublist t.effects ∧
      ∀ p ∈ t.effects, p ∈ oldEffects a t₂ ∨ Lost K a p t ∨ LeavesOut K t₁ := by
  rcases hpromotes.oldEffects with heq | ⟨hout, heq⟩
  · rw [heq]
    exact ⟨h.sublist, fun p hp => (h.lost p hp).imp_right Or.inl⟩
  · rw [heq]
    exact ⟨List.nil_sublist _, fun p _ => Or.inr (Or.inr hout)⟩

/-- The call in the place of an addition evaluates the operands that are not left out. -/
theorem evaluates_concatenation {n x : NodeId} {f : Form} {ty : TypeId}
    {parts : List LocatedTree} {l r l₁ r₁ l₂ r₂ : LocatedTree}
    (hn : IsOld a (n, .expr ⟨.binary .add .hole .hole, ty, span⟩))
    (hadds : AddsStrings K a l r l₁ r₁)
    (hl : Evaluates K a l l₁) (hpl : Promotes K a span l₁ l₂)
    (hr : Evaluates K a r r₁) (hpr : Promotes K a span r₁ r₂)
    (h : IsCall K a span (some l₂) .string "concat" [r₂] (.node (x, f) parts)) :
    Evaluates K a (.node (n, .expr ⟨.binary .add .hole .hole, ty, span⟩) [l, r])
      (.node (n, f) parts) := by
  have hplace : oldEffects a (.node (n, f) parts) = oldEffects a (.node (x, f) parts) := by
    obtain ⟨_, m, _, _, -, -, -, -, _, hx, heq⟩ := h
    cases heq
    exact oldEffects_in_place hn (fun h => nomatch h) hx
  have hbefore : LocatedTree.effects (.node (n, .expr ⟨.binary .add .hole .hole, ty, span⟩) [l, r]) =
      l.effects ++ r.effects := by
    rw [LocatedTree.effects_node, List.flatMap_cons, List.flatMap_singleton]
    exact List.append_nil _
  obtain ⟨hleft, hlostl⟩ := evaluates_operand hl hpl
  obtain ⟨hright, hlostr⟩ := evaluates_operand hr hpr
  have hafter : oldEffects a (.node (n, f) parts) = oldEffects a l₂ ++ oldEffects a r₂ ∨
      FindsStatic K .string "concat" ∧ oldEffects a (.node (n, f) parts) = oldEffects a r₂ := by
    rw [hplace]
    refine h.oldEffects.imp (·.trans ?_) fun h => ⟨h.1, h.2.trans ?_⟩
    · show [l₂, r₂].flatMap _ = _
      rw [List.flatMap_cons, List.flatMap_singleton]
    · exact List.flatMap_singleton ..
  have hoperand : ∀ {p o o₁}, (o, o₁) ∈ [(l, l₁), (r, r₁)] → p ∈ o.effects →
      Lost K a p o ∨ LeavesOut K o₁ →
      Lost K a p (.node (n, .expr ⟨.binary .add .hole .hole, ty, span⟩) [l, r]) :=
    fun {p o o₁} ho hp => by
      have hmem : o ∈ [l, r] := (List.of_mem_zip (show (o, o₁) ∈ [l, r].zip [l₁, r₁] from ho)).1
      exact Or.rec (.part hmem) (.operand hadds ho hp)
  have hl_mem : (l, l₁) ∈ [(l, l₁), (r, r₁)] := List.mem_cons_self
  have hr_mem : (r, r₁) ∈ [(l, l₁), (r, r₁)] := List.mem_cons_of_mem _ List.mem_cons_self
  constructor
  · rw [hbefore]
    rcases hafter with heq | ⟨-, heq⟩
    · rw [heq]
      exact hleft.append hright
    · rw [heq]
      exact hright.trans (List.sublist_append_right _ _)
  · intro p hp
    rw [hbefore] at hp
    rcases List.mem_append.mp hp with hp | hp
    · rcases hafter with heq | ⟨hstatic, -⟩
      · rw [heq]
        exact (hlostl p hp).imp (List.mem_append_left _) (hoperand hl_mem hp)
      · exact Or.inr (.receiver hadds hp hstatic)
    · refine (hlostr p hp).imp (fun hmem => ?_) (hoperand hr_mem hp)
      rcases hafter with heq | ⟨-, heq⟩
      · rw [heq]
        exact List.mem_append_right _ hmem
      · rwa [heq]

/-- In a desugared tree no old node is evaluated in another order, and every one that is not evaluated
is lost. -/
theorem desugars_evaluates (h : Desugars K a t t') (hold : ∀ p ∈ t.postorder, IsOld a p) :
    Evaluates K a t t' := by
  induction t using RoseTree.induction generalizing t' with
  | h label parts ih =>
    obtain ⟨parts', hparts, hrewrites⟩ := desugars_node.mp h
    have hlabel : IsOld a label := hold label (by
      rw [RoseTree.postorder_node]
      exact List.mem_append_right _ (List.mem_singleton_self label))
    have hsub : List.Forall₂ (Evaluates K a) parts parts' := by
      obtain ⟨hlength, hzip⟩ := List.forall₂_iff_zip.mp hparts
      refine List.forall₂_iff_zip.mpr ⟨hlength, fun {q q'} hq => ?_⟩
      have hmem := (List.of_mem_zip hq).1
      refine ih q hmem (hzip hq) fun p hp => hold p ?_
      rw [RoseTree.postorder_node]
      exact List.mem_append_left _ (List.mem_flatMap.mpr ⟨q, hmem, hp⟩)
    cases hrewrites with
    | keep _ => exact evaluates_keep hlabel hsub
    | literal _ hspells =>
      obtain rfl := List.forall₂_nil_right_iff.mp hparts
      exact evaluates_literal hlabel hspells
    | concat hstring hl hr hcall =>
      obtain ⟨l, rest, hdl, hdrest, rfl⟩ := List.forall₂_cons_right_iff.mp hparts
      obtain ⟨r, rest', hdr, hdnil, rfl⟩ := List.forall₂_cons_right_iff.mp hdrest
      obtain rfl := List.forall₂_nil_right_iff.mp hdnil
      cases hsub with
      | cons hsl hsrest =>
        cases hsrest with
        | cons hsr _ => exact evaluates_concatenation hlabel ⟨hdl, hdr, hstring⟩ hsl hl hsr hr hcall

/-! ### Units -/

variable {ts ts' : TypeSystem} {u u' : CompilationUnit}

/-- The reachable nodes with an effect are evaluated. -/
theorem mem_effects {n : NodeId} {f : Form} (hu : u.IsAcyclic) :
    (n, f) ∈ u.effects ↔ u.HasNode n ∧ f = u.arena.form n ∧ f.hasEffect = true := by
  have hroot : ∀ r ∈ u.roots, ((n, f) ∈ (u.arena.tree r).effects ↔
      u.arena.Leads r n ∧ f = u.arena.form n ∧ f.hasEffect = true) := fun r hr => by
    rw [LocatedTree.effects, List.mem_filter, (hu.reads (.root hr)).mem_postorder, and_assoc]
  rw [CompilationUnit.effects, List.mem_flatMap]
  constructor
  · rintro ⟨r, hr, hmem⟩
    exact ((hroot r hr).mp hmem).imp_left (CompilationUnit.HasNode.root hr).leads
  · rintro ⟨hn, hf⟩
    obtain ⟨r, hr, hleads⟩ := hn.exists_root
    exact ⟨r, hr, (hroot r hr).mpr ⟨hleads, hf⟩⟩

/-- A method body that evaluates the addition of a string to a sequence whose value is null. -/
def sequenceUnit : CompilationUnit where
  arena :=
    { exprs := #[⟨.null, .null, .generated⟩, ⟨.sequence [⟨0⟩] ⟨0⟩, .null, .generated⟩,
        ⟨.str ⟨0⟩, .string, .generated⟩, ⟨.binary .add ⟨1⟩ ⟨2⟩, .string, .generated⟩]
      stmts := #[⟨.block [], .generated⟩, ⟨.eval ⟨3⟩, .generated⟩] }
  classes := [⟨.object, [⟨⟨0⟩, .method [] (some ⟨1⟩), .generated⟩], .generated⟩]

/-- The type system and the unit after desugaring. -/
def sequenceDesugared : TypeSystem × CompilationUnit := (desugar .initial sequenceUnit).2

theorem sequenceUnit_isTreeShaped : sequenceUnit.IsTreeShaped := by
  refine CompilationUnit.isTreeShaped_of_nodup ?_ [.expr ⟨0⟩, .expr ⟨1⟩, .expr ⟨2⟩, .expr ⟨3⟩,
    .stmt ⟨0⟩, .stmt ⟨1⟩] ?_ (by decide)
  · exact CompilationUnit.isAcyclic_of_rank
      (NodeId.rank (· + 1) (5 * ·)) (by decide) (by decide) (by decide)
  · rintro (⟨⟨e⟩⟩ | ⟨⟨s⟩⟩) hn
    · have he : e < 4 := hn
      interval_cases e <;> decide
    · have hs : s < 2 := hn
      interval_cases s <;> decide

theorem sequenceDesugared_eq :
    desugar .initial sequenceUnit = (.ok ⟨1, 1⟩, sequenceDesugared.1, sequenceDesugared.2) := by
  rw [sequenceDesugared]
  exact desugar_eq (by decide +kernel)

end StringForm

end Erasure
