/-
Desugaring of a unit.

The editing of a unit gets every node `Translated`: its tree has no string forms any more, and it is
what desugaring makes of the tree that was there before. In each place the expression was kept or
`Rewritten`. The main statements:

* `Arena.Settled.replaceExpr`, `Arena.settled_replaced`: a replacement takes the place of a string
  form, and no tree without string forms notices.
* `editor_establishes`: leaving a node translates it.
* `editAll_ends`: in a unit without cycles desugaring translates all trees, unless a lookup fails.
* `desugar_isRewritten`: what a success says of each place of the unit.
-/
import Erasure.Proofs.Strings.Replacement
import Erasure.Proofs.Tree.Desugaring

namespace Erasure

open TypeSystem (Later Between)

/-! ### A replacement in its place -/

namespace Arena

variable {a b : Arena} {id x : ExprId} {n : NodeId}

/-- Only the node in whose place an expression is put changes. -/
theorem sameAt_replaceExpr (b : Arena) (y : Expr) (h : n ≠ .expr id) :
    b.SameAt (b.replaceExpr id y) n := by
  cases n with
  | expr e =>
    exact (expr_replaceExpr b id y e).trans (if_neg fun hand => h (congrArg NodeId.expr hand.1))
  | stmt s => rfl

theorem has_replaceExpr {y : Expr} : (b.replaceExpr id y).Has n ↔ b.Has n := by
  cases n with
  | expr e =>
    show e.index < (b.replaceExpr id y).exprs.size ↔ _
    rw [size_replaceExpr]
    rfl
  | stmt s => rfl

section

variable (hid : b.stringForm? (.expr id) ≠ none)
include hid

/-- A string form is not in a tree without string forms. -/
theorem Settled.sameAt_replaceExpr (hn : b.Settled n) (y : Expr) :
    ∀ m, b.Leads n m → b.SameAt (b.replaceExpr id y) m := by
  intro m hm
  refine Arena.sameAt_replaceExpr b y ?_
  rintro rfl
  exact hid (hn _ hm).2

theorem Settled.replaceExpr (hn : b.Settled n) (y : Expr) : (b.replaceExpr id y).Settled n :=
  hn.congr (fun m hm => has_replaceExpr.mpr (hn m hm).1) (hn.sameAt_replaceExpr hid y)

theorem Reads.replaceExpr {t : LocatedTree} (h : b.Reads n t) (hn : b.Settled n) (y : Expr) :
    (b.replaceExpr id y).Reads n t := h.congr (hn.sameAt_replaceExpr hid y)

omit hid in
theorem expr_replaced (hhas : b.Has (.expr id)) :
    (b.replaceExpr id (b.expr x)).expr id = b.expr x :=
  (expr_replaceExpr b id (b.expr x) id).trans (if_pos ⟨rfl, hhas⟩)

omit hid in
theorem children_replaced (hhas : b.Has (.expr id)) :
    (b.replaceExpr id (b.expr x)).children (.expr id) = b.children (.expr x) :=
  congrArg (·.kind.children) (expr_replaced hhas)

variable (hhas : b.Has (.expr id)) (hx : b.Settled (.expr x))
include hhas hx

theorem settled_replaced : (b.replaceExpr id (b.expr x)).Settled (.expr id) := by
  refine settled_of_children (has_replaceExpr.mpr hhas) ?_ ?_
  · refine (ofExpr?_congr (expr_replaced hhas) fun c hc => ?_).trans hx.stringForm?
    exact (hx.child hc).sameAt_replaceExpr hid _ c .refl
  · rw [children_replaced hhas]
    exact fun c hc => (hx.child hc).replaceExpr hid _

theorem reads_replaced {label : NodeId × Form} {parts : List LocatedTree}
    (h : b.Reads (.expr x) (.node label parts)) :
    (b.replaceExpr id (b.expr x)).Reads (.expr id) (.node (.expr id, label.2) parts) := by
  obtain ⟨parts', hparts, heq⟩ := reads_iff.mp h
  obtain ⟨rfl, rfl⟩ := RoseTree.node.inj heq
  refine reads_iff.mpr ⟨parts, ?_, ?_⟩
  · rw [children_replaced hhas]
    obtain ⟨hlength, hzip⟩ := List.forall₂_iff_zip.mp hparts
    exact List.forall₂_iff_zip.mpr ⟨hlength, fun hp =>
      (hzip hp).replaceExpr hid (hx.child (List.of_mem_zip hp).1) _⟩
  · rw [form_expr, form_expr, expr_replaced hhas]

end

end Arena

namespace StringForm

variable {F : Prop} {ts : TypeSystem} {u : CompilationUnit} {s t : Editing StringCounts}
  {n : NodeId} {id : ExprId}

/-! ### Leaving a node -/

theorem build_ends {ρ α : Type} {act : BuildM α} {s : Editing ρ} {P : α → Builder → Prop}
    (h : Ends F act s.builder P) :
    Ends F (Editor.build act : EditM ρ α) s fun x t => P x t.builder ∧ t.log = s.log := by
  unfold Ends at *
  have hrun : (Editor.build act : EditM ρ α).run s =
      ((act.run s.builder).1, { s with builder := (act.run s.builder).2 }) := rfl
  rw [hrun]
  cases hact : act.run s.builder with
  | mk x b =>
    rw [hact] at h
    cases x with
    | ok x => exact ⟨h, rfl⟩
    | error e => exact h

/-- An expression without a string form is kept, and it is not counted. -/
theorem leave_keep (h : ofExpr? s.builder.arena id = none) :
    Ends F (editor.leave id) s fun _ t =>
      t.builder.arena = s.builder.arena ∧ t.builder.types = s.builder.types ∧ t.log = s.log := by
  have hlog : ((ofExpr? s.builder.arena id).map s.log.add).getD s.log = s.log := by
    rw [h]
    rfl
  unfold Editor.leave
  refine Ends.modify_bind (Ends.modify_bind ?_)
  refine (build_ends (P := fun r b => r = none ∧ b.arena = s.builder.arena ∧
    b.types = s.builder.types) ?_).bind ?_
  · refine Ends.get_bind ?_
    rw [h]
    exact Ends.pure ⟨rfl, rfl, rfl⟩
  · rintro _ t ⟨⟨rfl, harena, htypes⟩, hlog'⟩
    exact Ends.pure ⟨harena, htypes, hlog'.trans hlog⟩

/-- A string form is replaced. -/
theorem leave_replace {form : StringForm} {P : ExprId → Builder → Prop}
    (h : ofExpr? s.builder.arena id = some form)
    (hform : Ends F (replacement form) { s.builder with span := (s.builder.arena.expr id).span } P) :
    Ends F (editor.leave id) s fun _ t => ∃ x b, P x b ∧ t.builder.types = b.types ∧
      t.builder.arena = b.arena.replaceExpr id
        { b.arena.expr x with span := (b.arena.expr id).span } := by
  unfold Editor.leave
  refine Ends.modify_bind (Ends.modify_bind ?_)
  refine (build_ends (P := fun r b => ∃ x, r = some x ∧ P x b) ?_).bind ?_
  · refine Ends.get_bind ?_
    rw [h]
    refine Ends.bind hform fun x b hx => Ends.pure ⟨x, rfl, hx⟩
  · rintro _ t ⟨⟨x, rfl, hx⟩, -⟩
    exact ⟨x, t.builder, hx, rfl, rfl⟩

/-! ### Translated nodes -/

/-- A node of the unit as it is in a later arena, without string forms in its tree: what takes the
place of the node over what its children are. Only a string form is replaced. -/
structure Rewritten (ts us : TypeSystem) (u : CompilationUnit) (b : Arena) (n : NodeId) : Prop where
  settled : b.Settled n
  tree : ∃ parts t, List.Forall₂ b.Reads (u.arena.children n) parts ∧ b.Reads n t ∧
    Rewrites (Between ts us) u.arena (n, u.arena.form n) parts t ∧
    (¬ (u.arena.form n).IsString parts → u.arena.SameAt b n)

namespace Rewritten

variable {us : TypeSystem} {b : Arena} (h : Rewritten ts us u b (.expr id))
include h

/-- A literal is spelled out. -/
theorem of_str {text : Name} (hk : (u.arena.expr id).kind = .str text) :
    ∃ vs x f parts, Between ts us vs ∧
      SpellsOut (Between ts us) u.arena (u.arena.expr id).span (vs.text text) (.node (x, f) parts) ∧
      b.Reads (.expr id) (.node (.expr id, f) parts) := by
  obtain ⟨parts, t, -, ht, hrewrites, -⟩ := h.tree
  rw [Arena.form_expr, hk] at hrewrites
  cases hrewrites with
  | keep hnone => exact absurd trivial hnone
  | literal hvs hspells => exact ⟨_, _, _, _, hvs, hspells, ht⟩

/-- An addition is kept, or it becomes a call of `concat` if an operand is a string now. -/
theorem of_add {left right : ExprId} (hk : (u.arena.expr id).kind = .binary .add left right) :
    if (b.expr left).type = .string ∨ (b.expr right).type = .string then
      ∃ l r x f parts, IsCall (Between ts us) u.arena (u.arena.expr id).span (some l) .string
        "concat" [r] (.node (x, f) parts) ∧ b.Reads (.expr id) (.node (.expr id, f) parts)
    else u.arena.SameAt b (.expr id) := by
  obtain ⟨parts, t, hparts, ht, hrewrites, hkept⟩ := h.tree
  rw [Arena.children, hk] at hparts
  obtain ⟨l, _, hl, hrest, rfl⟩ := List.forall₂_cons_left_iff.mp hparts
  obtain ⟨r, _, hr, hnil, rfl⟩ := List.forall₂_cons_left_iff.mp hrest
  obtain rfl := List.forall₂_nil_left_iff.mp hnil
  rw [Arena.form_expr, hk] at hrewrites hkept
  rw [← hl.type_eq, ← hr.type_eq]
  split
  case isFalse hnone => exact hkept (mt Form.isString_add_iff.mp hnone)
  case isTrue hsome =>
    cases hrewrites with
    | keep hnone => exact absurd (Form.isString_add_iff.mpr hsome) hnone
    | concat _ _ _ hcall => exact ⟨_, _, _, _, _, hcall, ht⟩

/-- Everything else is kept. -/
theorem of_isPlain (hk : (u.arena.expr id).kind.IsPlain) : u.arena.SameAt b (.expr id) := by
  obtain ⟨parts, t, -, -, -, hkept⟩ := h.tree
  exact hkept (Form.not_isString_of_isPlain hk)

end Rewritten

/-- All nodes of the tree that was there are rewritten. -/
def Translated (ts : TypeSystem) (u : CompilationUnit) (s : Editing StringCounts) (n : NodeId) :
    Prop :=
  ∀ m, u.arena.Leads n m → Rewritten ts s.builder.types u s.builder.arena m

/-- What holds while a unit is desugared: a node is translated or still as it was. -/
structure Underway (ts : TypeSystem) (u : CompilationUnit) (s : Editing StringCounts) : Prop where
  later : Later ts s.builder.types
  has : ∀ {n}, u.arena.Has n → s.builder.arena.Has n
  pending : ∀ {n}, u.HasNode n → Translated ts u s n ∨ u.arena.SameAt s.builder.arena n
  others : ∀ {n}, u.arena.Has n → ¬ u.HasNode n → u.arena.SameAt s.builder.arena n

/-- The nodes are kept wherever there is no string form. -/
structure KeepsSettled (s t : Editing StringCounts) : Prop where
  later : Later s.builder.types t.builder.types
  settled : ∀ {n}, s.builder.arena.Settled n → t.builder.arena.Settled n
  same : ∀ {n}, s.builder.arena.Settled n → s.builder.arena.SameAt t.builder.arena n

theorem KeepsSettled.reads (hst : KeepsSettled s t) {r : LocatedTree}
    (hn : s.builder.arena.Settled n) (hr : s.builder.arena.Reads n r) : t.builder.arena.Reads n r :=
  hr.congr fun _ hm => hst.same (hn.of_leads hm)

theorem Translated.settled (h : Translated ts u s n) : s.builder.arena.Settled n :=
  (h n .refl).settled

theorem Translated.child {c : NodeId} (h : Translated ts u s n) (hc : c ∈ u.arena.children n) :
    Translated ts u s c := fun m hm => h m (hm.head hc)

theorem Translated.mono (h : Translated ts u s n) (hst : KeepsSettled s t) :
    Translated ts u t n := by
  intro m hm
  have hsettled := (h m hm).settled
  obtain ⟨parts, r, hparts, hr, hrewrites, hkept⟩ := (h m hm).tree
  refine ⟨hst.settled hsettled, parts, r, ?_, hst.reads hsettled hr,
    hrewrites.mono (Between.mono hst.later), fun hform => (hkept hform).trans (hst.same hsettled)⟩
  obtain ⟨hlength, hzip⟩ := List.forall₂_iff_zip.mp hparts
  refine List.forall₂_iff_zip.mpr ⟨hlength, fun hp => hst.reads ?_ (hzip hp)⟩
  exact (h _ (hm.tail (List.of_mem_zip hp).1)).settled

/-- A translated node reads as what desugaring makes of the tree that was there. -/
theorem Translated.desugars {k : Nat} {r : LocatedTree} (hu : u.IsAcyclic) (hn : u.HasNode n)
    (hlevels : u.arena.Levels k n) (h : Translated ts u s n) (hr : s.builder.arena.Reads n r) :
    Desugars (Between ts s.builder.types) u.arena (u.arena.tree n) r := by
  induction k generalizing n r with
  | zero => exact hlevels.elim
  | succ k ih =>
    obtain ⟨parts, r', hparts, hr', hrewrites, -⟩ := (h n .refl).tree
    obtain rfl := hr.unique hr'
    rw [hu.tree_eq hn]
    refine desugars_node.mpr ⟨parts, List.forall₂_map_left_iff.mpr ?_, hrewrites⟩
    obtain ⟨hlength, hzip⟩ := List.forall₂_iff_zip.mp hparts
    refine List.forall₂_iff_zip.mpr ⟨hlength, fun hp => ?_⟩
    have hc := (List.of_mem_zip hp).1
    exact ih (hn.child hc) (hlevels _ hc) (h.child hc) (hzip hp)

theorem Translated.reads (h : Translated ts u s n) : ∃ t, s.builder.arena.Reads n t := by
  obtain ⟨_, t, -, ht, -⟩ := (h n .refl).tree
  exact ⟨t, ht⟩

theorem desugars_children {parts : List LocatedTree} (hu : u.IsAcyclic) (hn : u.HasNode n)
    (hdone : ∀ c ∈ u.arena.children n, Translated ts u s c)
    (hparts : List.Forall₂ s.builder.arena.Reads (u.arena.children n) parts) :
    List.Forall₂ (fun c => Desugars (Between ts s.builder.types) u.arena (u.arena.tree c))
      (u.arena.children n) parts := by
  obtain ⟨hlength, hzip⟩ := List.forall₂_iff_zip.mp hparts
  refine List.forall₂_iff_zip.mpr ⟨hlength, fun hp => ?_⟩
  have hc := (List.of_mem_zip hp).1
  exact (hdone _ hc).desugars hu (hn.child hc) (hu.levels (hn.child hc)) (hzip hp)

/-- A rewritten node over translated children is translated. -/
theorem translated_of_children (h : Rewritten ts s.builder.types u s.builder.arena n)
    (hchildren : ∀ c ∈ u.arena.children n, Translated ts u s c) : Translated ts u s n := by
  intro m hm
  rcases Relation.ReflTransGen.cases_head hm with rfl | ⟨c, hc, hm⟩
  · exact h
  · exact hchildren c hc m hm

/-- A node without a string form over translated children is translated. -/
theorem translated_keep (hu : u.IsAcyclic) (hs : Underway ts u s) (hn : u.HasNode n)
    (hsame : u.arena.SameAt s.builder.arena n) (hform : s.builder.arena.stringForm? n = none)
    (hchildren : ∀ c ∈ u.arena.children n, Translated ts u s c) : Translated ts u s n := by
  obtain ⟨parts, hparts⟩ := exists_forall₂ fun c hc => (hchildren c hc).reads
  have hreads : List.Forall₂ s.builder.arena.Reads (s.builder.arena.children n) parts :=
    hsame.children ▸ hparts
  have hnone : ¬ (u.arena.form n).IsString parts :=
    hsame.form ▸ (Arena.stringForm?_eq_none_iff hreads).mp hform
  refine translated_of_children ⟨?_, parts, _, hparts, Arena.reads_iff.mpr ⟨parts, hreads, rfl⟩, ?_,
    fun _ => hsame⟩ hchildren
  · refine Arena.settled_of_children (hs.has (hu.has hn)) hform ?_
    rw [hsame.children]
    exact fun c hc => (hchildren c hc).settled
  · rw [hsame.form]
    exact .keep hnone

/-- Where a string form is replaced after something was built, no tree without string forms
notices. -/
theorem KeepsSettled.of_replaceExpr {b : Builder} {y : Expr}
    (hlater : Later s.builder.types t.builder.types) (hgrows : s.builder.arena.Grows b.arena)
    (hid : b.arena.stringForm? (.expr id) ≠ none)
    (harena : t.builder.arena = b.arena.replaceExpr id y) : KeepsSettled s t := by
  refine ⟨hlater, fun hn => ?_, fun hn => ?_⟩
  · rw [harena]
    exact (hn.grows hgrows).replaceExpr hid _
  · rw [harena]
    exact (hgrows.same hn.has).trans ((hn.grows hgrows).sameAt_replaceExpr hid _ _ .refl)

/-- Once the expression that is replaced is translated, the unit is on its way as before. -/
theorem Underway.of_replaceExpr {b : Builder} {y : Expr} (hu : u.IsAcyclic) (hs : Underway ts u s)
    (hn : u.HasNode (.expr id)) (hst : KeepsSettled s t) (hgrows : s.builder.arena.Grows b.arena)
    (harena : t.builder.arena = b.arena.replaceExpr id y) (hdone : Translated ts u t (.expr id)) :
    Underway ts u t := by
  have hothers : ∀ {n}, u.arena.Has n → n ≠ .expr id → u.arena.SameAt s.builder.arena n →
      u.arena.SameAt t.builder.arena n := fun hhas hne h => by
    rw [harena]
    exact (h.trans (hgrows.same (hs.has hhas))).trans (Arena.sameAt_replaceExpr b.arena _ hne)
  refine ⟨hs.later.trans hst.later, fun h => ?_, fun {n} hm => ?_, fun h hnot => ?_⟩
  · rw [harena]
    exact Arena.has_replaceExpr.mpr (hgrows.has (hs.has h))
  · by_cases heq : n = .expr id
    · exact Or.inl (heq ▸ hdone)
    · exact (hs.pending hm).imp (·.mono hst) (hothers (hu.has hm) heq)
  · exact hothers h (fun heq => hnot (heq ▸ hn)) (hs.others h hnot)

/-- A string form over translated children is translated by a replacement. -/
theorem translated_replaced {S : LocatedTree → Prop} {x : ExprId} {b : Builder}
    {parts : List LocatedTree} (hu : u.IsAcyclic) (hs : Underway ts u s) (hn : u.HasNode (.expr id))
    (hsame : u.arena.SameAt s.builder.arena (.expr id))
    (hform : s.builder.arena.stringForm? (.expr id) ≠ none)
    (hchildren : ∀ c ∈ u.arena.children (.expr id), Translated ts u s c)
    (hparts : List.Forall₂ s.builder.arena.Reads (u.arena.children (.expr id)) parts)
    (hplaces : Builder.Places S { s.builder with span := (s.builder.arena.expr id).span } x b)
    (hS : ∀ r, S r → ∃ m y parts', r = .node (m, .expr y) parts' ∧
      y.span = (s.builder.arena.expr id).span ∧
      Rewrites (Between ts b.types) u.arena (.expr id, u.arena.form (.expr id)) parts
        (.node (.expr id, .expr y) parts'))
    (htypes : t.builder.types = b.types)
    (harena : t.builder.arena = b.arena.replaceExpr id
      { b.arena.expr x with span := (b.arena.expr id).span }) :
    Underway ts u t ∧ KeepsSettled s t ∧ Translated ts u t (.expr id) := by
  have hhas := hs.has (hu.has hn)
  have hid : b.arena.stringForm? (.expr id) ≠ none := by
    rw [Arena.stringForm?_congr (hplaces.grows.same hhas) fun c hc => hplaces.grows.same ?_]
    · exact hform
    · exact (hchildren c (hsame.children ▸ hc)).settled.has
  obtain ⟨r, hr, hr'⟩ := hplaces.tree
  obtain ⟨m, y, parts', rfl, hspan, hrewrites⟩ := hS r hr'
  have hy : Form.expr y = b.arena.form (.expr x) := congrArg Prod.snd hr.label
  -- The replacement has the span of what it replaces already.
  have hexpr : { b.arena.expr x with span := (b.arena.expr id).span } = b.arena.expr x := by
    have hxspan : (b.arena.expr x).span = (b.arena.expr id).span := by
      have hidnode : b.arena.expr id = s.builder.arena.expr id := hplaces.grows.same hhas
      rw [hidnode, ← hspan]
      exact (congrArg Expr.span (Form.expr.inj hy)).symm
    rw [← hxspan]
  rw [hexpr] at harena
  have hkeeps : KeepsSettled s t :=
    .of_replaceExpr (htypes ▸ hplaces.later) hplaces.grows hid harena
  have hdone : Translated ts u t (.expr id) := by
    have hstring : (u.arena.form (.expr id)).IsString parts := by
      by_contra hnone
      rw [← hsame.form] at hnone
      exact hform ((Arena.stringForm?_eq_none_iff (hsame.children ▸ hparts)).mpr hnone)
    refine translated_of_children ⟨?_, parts, _, ?_, ?_, htypes ▸ hrewrites, absurd hstring⟩
      fun c hc => (hchildren c hc).mono hkeeps
    · exact harena ▸ Arena.settled_replaced hid (hplaces.grows.has hhas) hplaces.settled
    · obtain ⟨hlength, hzip⟩ := List.forall₂_iff_zip.mp hparts
      exact List.forall₂_iff_zip.mpr ⟨hlength, fun hp =>
        hkeeps.reads (hchildren _ (List.of_mem_zip hp).1).settled (hzip hp)⟩
    · exact harena ▸ Arena.reads_replaced hid (hplaces.grows.has hhas) hplaces.settled hr
  exact ⟨hs.of_replaceExpr hu hn hkeeps hplaces.grows harena hdone, hkeeps, hdone⟩

/-- A node without a string form is kept, and nothing changes. -/
theorem keeps_of_eq (hs : Underway ts u s) (harena : t.builder.arena = s.builder.arena)
    (htypes : t.builder.types = s.builder.types) : Underway ts u t ∧ KeepsSettled s t := by
  have hkeeps : KeepsSettled s t := by
    refine ⟨htypes ▸ .refl _, fun h => harena ▸ h, fun _ => ?_⟩
    rw [harena]
    exact .refl _ _
  exact ⟨⟨htypes ▸ hs.later, fun h => harena ▸ hs.has h, fun hn =>
    (hs.pending hn).imp (·.mono hkeeps) (harena ▸ ·), fun h hn => harena ▸ hs.others h hn⟩, hkeeps⟩

/-! ### The editor -/

/-- The lookups for all replacements in a unit succeed. -/
structure CanDesugar (ts : TypeSystem) (u : CompilationUnit) : Prop where
  spell : ∀ {us}, Later ts us → Builder.CanSpell us
  concat : ∀ {us id ty span l r}, Later ts us → u.HasNode (.expr id) →
    u.arena.form (.expr id) = .expr ⟨.binary .add .hole .hole, ty, span⟩ →
    List.Forall₂ (fun c => Desugars (Between ts us) u.arena (u.arena.tree c))
      (u.arena.children (.expr id)) [l, r] →
    l.type = .string ∨ r.type = .string →
    CanPromote us l.type ∧ ∀ vs, Later us vs → CanPromote vs r.type ∧
      ∀ r', Promotes (Between ts vs) u.arena span r r' → Builder.CanCall vs .string "concat" [r'.type]

section

variable {parts : List LocatedTree} (hu : u.IsAcyclic) (hF : F ∨ CanDesugar ts u)
  (hs : Underway ts u s) (hn : u.HasNode (.expr id))
  (hsame : u.arena.SameAt s.builder.arena (.expr id))
  (hdone : ∀ c ∈ u.arena.children (.expr id), Translated ts u s c)
  (hparts : List.Forall₂ s.builder.arena.Reads (u.arena.children (.expr id)) parts)
include hu hF hs hn hsame hdone hparts

theorem leave_literal_ends {text : Name}
    (hform : ofExpr? s.builder.arena id = some (.literal text))
    (hk : (s.builder.arena.expr id).kind = .str text) :
    Ends F (editor.leave id) s fun _ t =>
      Underway ts u t ∧ KeepsSettled s t ∧ Translated ts u t (.expr id) := by
  have hnode : u.arena.expr id = s.builder.arena.expr id := Eq.symm hsame
  have hku : u.arena.form (.expr id) =
      .expr ⟨.str text, (u.arena.expr id).type, (s.builder.arena.expr id).span⟩ := by
    rw [Arena.form_expr, hnode, hk]
    rfl
  have hchildren : u.arena.children (.expr id) = [] := by
    rw [Arena.children, hnode, hk]
    rfl
  obtain rfl := List.forall₂_nil_left_iff.mp (hchildren ▸ hparts)
  have hreplacement := replacement_literal_ends (a := u.arena)
    (b := { s.builder with span := (s.builder.arena.expr id).span }) hs.later hs.has text
    (hF.imp_right fun h => h.spell hs.later)
  refine (leave_replace hform hreplacement).mono ?_
  rintro _ t ⟨x, b, hplaces, htypes, harena⟩
  refine translated_replaced hu hs hn hsame (by simp [Arena.stringForm?, hform]) hdone hparts
    hplaces (fun r hr => ?_) htypes harena
  have hr' := hr
  obtain ⟨_, _, ctor, _, _, array, -, -, -, -, -, -, m, -, rfl⟩ := hr
  exact ⟨m, _, _, rfl, rfl, hku ▸ .literal ⟨hs.later, hplaces.later⟩ hr'⟩

theorem leave_concatenation_ends {left right : ExprId}
    (hform : ofExpr? s.builder.arena id = some (.concatenation left right))
    (hk : (s.builder.arena.expr id).kind = .binary .add left right)
    (htype : (s.builder.arena.expr left).type = .string ∨
      (s.builder.arena.expr right).type = .string) :
    Ends F (editor.leave id) s fun _ t =>
      Underway ts u t ∧ KeepsSettled s t ∧ Translated ts u t (.expr id) := by
  have hnode : u.arena.expr id = s.builder.arena.expr id := Eq.symm hsame
  have hku : u.arena.form (.expr id) = .expr ⟨.binary .add .hole .hole,
      (u.arena.expr id).type, (s.builder.arena.expr id).span⟩ := by
    rw [Arena.form_expr, hnode, hk]
    rfl
  have hchildren : u.arena.children (.expr id) = [.expr left, .expr right] := by
    rw [Arena.children, hnode, hk]
    rfl
  obtain ⟨l, _, hl, hrest, rfl⟩ := List.forall₂_cons_left_iff.mp (hchildren ▸ hparts)
  obtain ⟨r, _, hr, hnil, rfl⟩ := List.forall₂_cons_left_iff.mp hrest
  obtain rfl := List.forall₂_nil_left_iff.mp hnil
  rw [← hl.type_eq, ← hr.type_eq] at htype
  have hleft : NodeId.expr left ∈ u.arena.children (.expr id) := hchildren ▸ List.mem_cons_self
  have hright : NodeId.expr right ∈ u.arena.children (.expr id) :=
    hchildren ▸ List.mem_cons_of_mem _ List.mem_cons_self
  have hreplacement := replacement_concatenation_ends (a := u.arena)
    (b := { s.builder with span := (s.builder.arena.expr id).span }) hs.later hs.has
    (hdone _ hleft).settled hl (hdone _ hright).settled hr (hF.imp_right fun h =>
      h.concat hs.later hn hku (desugars_children hu hn hdone hparts) htype)
  refine (leave_replace hform hreplacement).mono ?_
  rintro _ t ⟨x, b, hplaces, htypes, harena⟩
  refine translated_replaced hu hs hn hsame (by simp [Arena.stringForm?, hform]) hdone hparts
    hplaces ?_ htypes harena
  rintro t ⟨l', r', hl', hr', hcall⟩
  have hcall' := hcall
  obtain ⟨_, m, us, receiver, -, -, -, -, n, -, rfl⟩ := hcall
  exact ⟨n, _, _, rfl, rfl, hku ▸ .concat htype hl' hr' hcall'⟩

end

/-- Leaving a node whose children are translated translates it. -/
theorem leave_ends (hu : u.IsAcyclic) (hF : F ∨ CanDesugar ts u) (hs : Underway ts u s)
    (hn : u.HasNode (.expr id)) (hsame : u.arena.SameAt s.builder.arena (.expr id))
    (hchildren : ∀ c ∈ u.arena.children (.expr id), Translated ts u s c) :
    Ends F (editor.leave id) s fun _ t =>
      Underway ts u t ∧ KeepsSettled s t ∧ Translated ts u t (.expr id) := by
  obtain ⟨parts, hparts⟩ := exists_forall₂ fun c hc => (hchildren c hc).reads
  cases hform : ofExpr? s.builder.arena id with
  | none =>
    refine (leave_keep hform).mono fun _ t ⟨harena, htypes, _⟩ => ?_
    obtain ⟨ht, hst⟩ := keeps_of_eq hs harena htypes
    exact ⟨ht, hst, (translated_keep hu hs hn hsame hform hchildren).mono hst⟩
  | some form =>
    rcases ofExpr?_eq_some hform with ⟨text, rfl, hk⟩ | ⟨left, right, rfl, hk, htype⟩
    · exact leave_literal_ends hu hF hs hn hsame hchildren hparts hform hk
    · exact leave_concatenation_ends hu hF hs hn hsame hchildren hparts hform hk htype

/-- The editor translates the nodes of a unit. -/
theorem editor_establishes (hu : u.IsAcyclic) (hF : F ∨ CanDesugar ts u) :
    editor.Establishes F u (Underway ts u) (fun s n => s.builder.arena.Settled n)
      (Translated ts u) := by
  have hprogress : ∀ {s t : Editing StringCounts}, KeepsSettled s t → Editor.Progress
      (fun s n => s.builder.arena.Settled n) (Translated ts u) s t :=
    fun hst => ⟨hst.settled, (·.mono hst)⟩
  refine ⟨fun hs => hs.pending, fun h => h.settled, fun h => h.child, ?_, ?_, ?_⟩
  · exact fun hs hn hsame hchildren => translated_keep hu hs hn hsame rfl hchildren
  · refine fun hs h => (leave_keep h.stringForm?).mono fun _ t ⟨harena, htypes, _⟩ => ?_
    obtain ⟨ht, hst⟩ := keeps_of_eq hs harena htypes
    exact ⟨ht, hprogress hst⟩
  · exact fun hs hn hsame hchildren => (leave_ends hu hF hs hn hsame hchildren).mono
      fun _ t ⟨ht, hst, hid⟩ => ⟨ht, hprogress hst, hid⟩

/-! ### Units -/

/-- The trees of all roots are desugared, and no string forms are left in them. -/
structure IsDesugared (ts : TypeSystem) (u : CompilationUnit) (ts' : TypeSystem)
    (u' : CompilationUnit) : Prop where
  later : Later ts ts'
  classes_eq : u'.classes = u.classes
  has : ∀ {n}, u.arena.Has n → u'.arena.Has n
  settled : ∀ {n}, n ∈ u.roots → u'.arena.Settled n
  tree : ∀ {n}, n ∈ u.roots → ∃ t, u'.arena.Reads n t ∧
    Desugars (Between ts ts') u.arena (u.arena.tree n) t

/-- Every node of the unit is rewritten, and no other node of the arena is touched. -/
structure IsRewritten (ts : TypeSystem) (u : CompilationUnit) (ts' : TypeSystem)
    (u' : CompilationUnit) : Prop where
  later : Later ts ts'
  classes_eq : u'.classes = u.classes
  has : ∀ {n}, u.arena.Has n → u'.arena.Has n
  rewritten : ∀ {n}, u.HasNode n → Rewritten ts ts' u u'.arena n
  others : ∀ {n}, u.arena.Has n → ¬ u.HasNode n → u.arena.SameAt u'.arena n

/-- What is edited at first. -/
def start (ts : TypeSystem) (u : CompilationUnit) : Editing StringCounts :=
  ⟨⟨ts, u.arena, .generated⟩, {}, 0⟩

theorem editAll_ends (hu : u.IsAcyclic) (hF : F ∨ CanDesugar ts u) :
    Ends F (editor.editAll u.roots) (start ts u) fun _ t =>
      Underway ts u t ∧ ∀ n ∈ u.roots, Translated ts u t n := by
  refine Editor.editAll_ends (editor_establishes hu hF) hu
    ⟨.refl ts, id, fun _ => ?_, fun _ _ => .refl _ _⟩ rfl
  exact Or.inr (.refl _ _)

theorem desugar_fst (ts : TypeSystem) (u : CompilationUnit) : (desugar ts u).1 =
    ((editor.editAll u.roots).run (start ts u)).1.map fun _ =>
      ((editor.editAll u.roots).run (start ts u)).2.log := rfl

/-- What holds when the editing of a unit ends holds when its desugaring succeeds. -/
theorem ends_of_desugar {P : Editing StringCounts → Prop}
    (hends : Ends F (editor.editAll u.roots) (start ts u) fun _ t => P t) {counts : StringCounts}
    {ts' : TypeSystem} {u' : CompilationUnit} (h : desugar ts u = (.ok counts, ts', u')) :
    ∃ t, P t ∧ t.builder.types = ts' ∧ { u with arena := t.builder.arena } = u' := by
  have hfst := congrArg Prod.fst h
  rw [desugar_fst] at hfst
  cases hrun : ((editor.editAll u.roots).run (start ts u)).1 with
  | ok a => exact ⟨_, hends.of_ok hrun, congrArg (·.2.1) h, congrArg (·.2.2) h⟩
  | error e =>
    rw [hrun] at hfst
    cases hfst

/-- In a unit without cycles desugaring rewrites all nodes, unless a lookup fails. -/
theorem desugar_isRewritten (hu : u.IsAcyclic) {counts : StringCounts} {ts' : TypeSystem}
    {u' : CompilationUnit} (h : desugar ts u = (.ok counts, ts', u')) :
    IsRewritten ts u ts' u' := by
  obtain ⟨t, ⟨ht, hroots⟩, rfl, rfl⟩ := ends_of_desugar (editAll_ends hu (Or.inl trivial)) h
  refine ⟨ht.later, rfl, ht.has, fun hn => ?_, ht.others⟩
  obtain ⟨r, hr, hrn⟩ := hn.exists_root
  exact hroots r hr _ hrn

/-- In a unit without cycles desugaring translates all trees, unless a lookup fails. -/
theorem desugar_isDesugared (hu : u.IsAcyclic) {counts : StringCounts} {ts' : TypeSystem}
    {u' : CompilationUnit} (h : desugar ts u = (.ok counts, ts', u')) : IsDesugared ts u ts' u' := by
  obtain ⟨t, ⟨ht, hroots⟩, rfl, rfl⟩ := ends_of_desugar (editAll_ends hu (Or.inl trivial)) h
  refine ⟨ht.later, rfl, ht.has, fun hn => (hroots _ hn).settled, fun hn => ?_⟩
  obtain ⟨r, hr⟩ := (hroots _ hn).reads
  have hn' : u.HasNode _ := .root hn
  exact ⟨r, hr, (hroots _ hn).desugars hu hn' (hu.levels hn') hr⟩

/-- A success, from its counts. -/
theorem desugar_eq {counts : StringCounts} (h : (desugar ts u).1.toOption = some counts) :
    desugar ts u = (.ok counts, (desugar ts u).2.1, (desugar ts u).2.2) := by
  refine Prod.ext ?_ rfl
  cases hfst : (desugar ts u).1 with
  | ok counts' =>
    rw [hfst] at h
    exact congrArg Except.ok (Option.some.inj h)
  | error e =>
    rw [hfst] at h
    cases h

/-- Desugaring succeeds if all lookups do. -/
theorem exists_desugar_ok (hu : u.IsAcyclic) (hF : CanDesugar ts u) :
    ∃ counts ts' u', desugar ts u = (.ok counts, ts', u') := by
  obtain ⟨a, ha⟩ := (editAll_ends (F := False) hu (Or.inr hF)).exists_ok
  have hfst : ∃ counts, (desugar ts u).1 = .ok counts := ⟨_, by rw [desugar_fst, ha]; rfl⟩
  obtain ⟨counts, hcounts⟩ := hfst
  exact ⟨counts, (desugar ts u).2.1, (desugar ts u).2.2, Prod.ext hcounts rfl⟩

end StringForm

end Erasure
