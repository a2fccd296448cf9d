/-
Desugaring as a function of trees.

`desugarTree` says what desugaring makes of a tree, part by part and by the static types that the
tree has from the start. In a unit whose string forms are typed as a checker types them, over a type
system whose string class is that of the prelude, desugaring succeeds and every root reads back as
what the function makes of its tree. The main statements:

* `IsCall.eq_node`: a call is determined by the method that the lookups find.
* `Promotes.eq_promoted`: an operand is converted as its static type says.
* `Rewrites.eq_rewritten`: so is what takes the place of one node.
* `Desugars.eq_desugarTree`: the relation between trees is the function, and it keeps static types.
* `desugar_refines`: desugaring a unit is the function on the trees of all roots.
-/
import Mathlib.Tactic.IntervalCases
import Erasure.Proofs.Canonical.Session
import Erasure.Proofs.Strings.Desugared
import Erasure.Proofs.Strings.StringClass

namespace Erasure

open TypeSystem (Later Between stringConstructor stringConcat stringValueOf)

/-- A tree without the numbers of its nodes. -/
abbrev FormTree := RoseTree Form

/-- The static type of the expression that a tree is. -/
def FormTree.type (t : FormTree) : TypeId := t.label.type

/-- The tree without the numbers of its nodes. -/
def LocatedTree.bare (t : LocatedTree) : FormTree := t.map Prod.snd

theorem LocatedTree.bare_node (n : NodeId) (f : Form) (parts : List LocatedTree) :
    LocatedTree.bare (.node (n, f) parts) = .node f (parts.map LocatedTree.bare) :=
  RoseTree.map_node ..

theorem LocatedTree.type_bare (t : LocatedTree) : FormTree.type t.bare = t.type := by
  obtain ⟨⟨n, f⟩, parts⟩ := t
  rw [LocatedTree.bare_node]
  rfl

namespace StringForm

/-! ### The function -/

/-- The construction of a string from the array of its code units. -/
def spelled (span : Span) (text : String) : FormTree :=
  let units := text.toList.flatMap Builder.utf16Units
  .node (.expr ⟨.new stringConstructor none [.hole], .string, span⟩)
    [.node (.expr ⟨.newArray (units.map fun _ => .hole), .charArray, span⟩)
      (units.map fun unit => .node (.expr ⟨.char unit, Primitive.char.typeId, span⟩) [])]

/-- The call of `concat`. -/
def concatenated (span : Span) (l r : FormTree) : FormTree :=
  .node (.expr ⟨.call (.expr .hole) stringConcat [.hole] .direct, .string, span⟩) [l, r]

/-- The method `toString` that a lookup finds in a type. -/
def textMethod (ts : TypeSystem) (ty : TypeId) : MemberId :=
  match (TypeSystem.findMethod ty "toString" []).run ts with
  | (.ok m, _) => m
  | (.error _, _) => default

/-- An operand of a static type, converted to a string. -/
def promoted (ts : TypeSystem) (span : Span) (ty : TypeId) (t : FormTree) : FormTree :=
  if ty = .string then t
  else match ts.kind ty with
    | .null => spelled span "null"
    | .prim p =>
      .node (.expr ⟨.call (.type .string) (stringValueOf p) [.hole] .static, .string, span⟩) [t]
    | _ =>
      let m := textMethod ts ty
      .node (.expr ⟨.call (.expr .hole) m [] (Builder.classify ts m ty), .string, span⟩) [t]

/-- What takes the place of a node with the given parts, when others take the places of these. -/
def rewritten (ts : TypeSystem) : Form → (parts parts' : List FormTree) → FormTree
  | .expr ⟨.str text, _, span⟩, _, _ => spelled span (ts.text text)
  | .expr ⟨.binary .add x y, ty, span⟩, [l, r], [l', r'] =>
    if l.type = .string ∨ r.type = .string
    then concatenated span (promoted ts span l.type l') (promoted ts span r.type r')
    else .node (.expr ⟨.binary .add x y, ty, span⟩) [l', r']
  | f, _, parts' => .node f parts'

mutual

/-- What desugaring makes of a tree. -/
def desugarTree (ts : TypeSystem) : FormTree → FormTree
  | .node f parts => rewritten ts f parts (desugarTrees ts parts)

/-- What desugaring makes of several trees. -/
def desugarTrees (ts : TypeSystem) : List FormTree → List FormTree
  | [] => []
  | t :: rest => desugarTree ts t :: desugarTrees ts rest

end

theorem desugarTrees_eq_map (ts : TypeSystem) (parts : List FormTree) :
    desugarTrees ts parts = parts.map (desugarTree ts) := by
  induction parts with
  | nil => rfl
  | cons t rest ih => rw [desugarTrees, ih, List.map_cons]

theorem desugarTree_node (ts : TypeSystem) (f : Form) (parts : List FormTree) :
    desugarTree ts (.node f parts) = rewritten ts f parts (parts.map (desugarTree ts)) := by
  rw [desugarTree, desugarTrees_eq_map]

/-! ### What is assumed -/

/-- The string class is that of the prelude, every class extends the root class along acyclic links
to class types, and a method `toString` without formals is an instance method that answers a
string. -/
structure SupportsStrings (ts : TypeSystem) : Prop extends ts.HasPrelude where
  links : ts.LinksClasses
  acyclic : ∀ c, ¬ Relation.TransGen ts.Inherits c c
  root : ∀ c, c.index < ts.classes.size → ts.ExtendsRoot c
  text : ∀ c, ∀ m ∈ ts.declaredMethods c TypeSystem.toStringName,
    (ts.member m).kind.formals = [] → ts.IsTextMethod TypeSystem.toStringName m

theorem SupportsStrings.isTextName {ts : TypeSystem} (h : SupportsStrings ts) :
    ts.IsTextName TypeSystem.toStringName where
  string := TypeSystem.initial_types.1.of_le h.le.1
  declared := h.text
  object := h.exists_toString

/-- A reference type whose bound or upper bound resolves to an array or to a class. -/
structure IsObjectType (ts : TypeSystem) (ty : TypeId) : Prop where
  has : ts.pool.Has ty
  ne_prim : ∀ p, ts.kind ty ≠ .prim p
  ne_null : ts.kind ty ≠ .null
  leads : (TypeSystem.resolveLub ty ts).2.LeadsToClass (TypeSystem.resolveLub ty ts).1

/-- A static type whose values can be converted to a string. -/
inductive Convertible (ts : TypeSystem) : TypeId → Prop
  | string : Convertible ts .string
  | null : Convertible ts .null
  | prim {p : Primitive} : p ≠ .void → Convertible ts p.typeId
  | object {ty : TypeId} : IsObjectType ts ty → Convertible ts ty

/-- Literals and additions with a string operand are typed as strings, and the operands of these
additions can be converted. -/
structure IsChecked (ts : TypeSystem) (u : CompilationUnit) : Prop where
  literal : ∀ {e text}, u.HasNode (.expr e) → (u.arena.expr e).kind = .str text →
    (u.arena.expr e).type = .string ∧ ts.HasName text
  concat : ∀ {e l r}, u.HasNode (.expr e) → (u.arena.expr e).kind = .binary .add l r →
    (u.arena.expr l).type = .string ∨ (u.arena.expr r).type = .string →
    (u.arena.expr e).type = .string ∧ Convertible ts (u.arena.expr l).type ∧
      Convertible ts (u.arena.expr r).type

section

variable {ts us : TypeSystem} {ty : TypeId} (hts : ts.Valid)
include hts

theorem SupportsStrings.of_extends (hext : TypeSystem.Extends ts us) (h : SupportsStrings ts) :
    SupportsStrings us where
  toHasPrelude := h.toHasPrelude.of_extends hext
  links := h.links.of_extends hts hext
  acyclic c := by
    rw [hext.inherits_eq hts]
    exact h.acyclic c
  root c hc := by
    rw [TypeSystem.ExtendsRoot, hext.inherits_eq hts]
    exact h.root c (hext.classes_eq ▸ hc)
  text := (h.isTextName.of_extends hts hext).declared

theorem IsObjectType.of_extends (hus : us.Valid) (hext : TypeSystem.Extends ts us)
    (h : IsObjectType ts ty) : IsObjectType us ty where
  has := h.has.of_le hext.le.1
  ne_prim := TypeSystem.kind_of_le hext.le h.has ▸ h.ne_prim
  ne_null := TypeSystem.kind_of_le hext.le h.has ▸ h.ne_null
  leads := TypeSystem.leadsToClass_resolveLub hts hus hext h.has h.leads

theorem Convertible.has (hprelude : ts.HasPrelude) (h : Convertible ts ty) : ts.pool.Has ty := by
  cases h with
  | string =>
    refine TypeSystem.has_of_kind_ne_null ?_
    rw [TypeSystem.kind_string hprelude.le]
    exact nofun
  | null => exact hts.pool.null.has
  | prim _ => exact (hts.pool.prims _).has
  | object h => exact h.has

/-- A method `toString` is found in an object type, and the same as long as nothing is declared. -/
theorem SupportsStrings.findMethod_toString (h : SupportsStrings ts) (hty : IsObjectType ts ty) :
    ∃ m us, (TypeSystem.findMethod ty "toString" []).run ts = (.ok m, us) ∧
      TypeSystem.Extends ts us ∧ us.Valid ∧ us.IsTextMethod TypeSystem.toStringName m ∧
      ∀ vs, TypeSystem.Extends us vs → vs.Valid → textMethod vs ty = m := by
  have hname : ∀ us, TypeSystem.Extends ts us →
      TypeSystem.intern "toString" us = (TypeSystem.toStringName, us) := fun us hus =>
    (h.toHasPrelude.of_extends hus).intern_eq TypeSystem.initial_names.2.2.1
      TypeSystem.initial_names.2.2.2
  obtain ⟨m, us, hfind, hext, hvalid, htext, hagain⟩ :=
    TypeSystem.findMethod_text hts h.isTextName hname hty.has hty.ne_prim hty.ne_null h.root
      hty.leads
  refine ⟨m, us, hfind, hext, hvalid, htext, fun vs hvs hvs' => ?_⟩
  obtain ⟨ws, hws⟩ := hagain vs hvs hvs'
  rw [textMethod, hws]

end

/-! ### Replacements are determined -/

/-- The dispatch of calls of a member through a type stays as it is. -/
theorem classify_of_extends {us vs : TypeSystem} {m : MemberId} {container : TypeId}
    (hus : us.Valid) (hext : TypeSystem.Extends us vs) (hm : us.HasMember m)
    (hcontainer : us.pool.Has container) :
    Builder.classify vs m container = Builder.classify us m container := by
  have hdeclaring := (hus.keys hm.hasKey).container
  have hinterface : vs.isInterface = us.isInterface := by
    funext c
    rw [TypeSystem.isInterface, TypeSystem.isInterface, hext.classDef_eq]
  unfold Builder.classify
  simp only [TypeSystem.member_of_le hext.le hm, TypeSystem.classOf?_of_le hext.le hcontainer,
    TypeSystem.classOf?_of_le hext.le hdeclaring, hext.classDef_eq, hinterface]

/-- A call of an instance method has a receiver. -/
theorem classify_ne_static {us : TypeSystem} {m : MemberId} {container : TypeId}
    (h : (us.member m).flags.isStatic = false) : Builder.classify us m container ≠ .static := by
  unfold Builder.classify
  simp only [h, Bool.false_eq_true, if_false]
  split_ifs <;> exact nofun

section

variable {K : TypeSystem → Prop} {a : Arena} {span : Span} {t : LocatedTree}

/-- A call is determined by the method that the lookups find, its dispatch and its result. -/
theorem IsCall.eq_node {receiver : Option LocatedTree} {container : TypeId} {name : String}
    {args : List LocatedTree} {m : MemberId} {d : Dispatch} {ty : TypeId}
    (h : IsCall K a span receiver container name args t)
    (hfound : ∀ us m' us', K us → K us' →
      (TypeSystem.findMethod container name (args.map LocatedTree.type)).run us = (.ok m', us') →
      m' = m ∧ Builder.classify us' m' container = d ∧ callType us' m' = ty) :
    let receiver' := if d = .static then none else receiver
    ∃ n, t = .node (n, .expr ⟨.call (callReceiver container receiver') m
      (args.map fun _ => .hole) d, ty, span⟩) (receiver'.toList ++ args) := by
  obtain ⟨us, m', us', receiver', hus, hus', hfind, hreceiver, n, -, rfl⟩ := h
  obtain ⟨rfl, hd, hty⟩ := hfound us m' us' hus hus' hfind
  rw [hd] at hreceiver ⊢
  rw [hty]
  exact ⟨n, by rw [hreceiver]⟩

end

section

variable {ts us vs : TypeSystem} {a : Arena} {span : Span} {t t' : LocatedTree}
  (hts : ts.Valid) (h : SupportsStrings ts)
include hts h

theorem supports_of_between (hus : Between ts vs us) : us.Valid ∧ SupportsStrings us := by
  obtain ⟨hvalid, hext⟩ := hus.1 hts
  exact ⟨hvalid, h.of_extends hts hext⟩

omit h in
/-- Lookups change no type. -/
theorem kind_of_between {ty : TypeId} (hty : ts.pool.Has ty) (hus : Between ts vs us) :
    us.kind ty = ts.kind ty ∧ vs.kind ty = ts.kind ty := by
  have hlast := ((hus.1.trans hus.2) hts).2
  exact ⟨TypeSystem.kind_of_le (hus.1 hts).2.le hty, TypeSystem.kind_of_le hlast.le hty⟩

/-- A text is spelled out in one way. -/
theorem SpellsOut.eq_spelled {text : String} (hspells : SpellsOut (Between ts vs) a span text t) :
    t.bare = spelled span text ∧ t.type = .string := by
  obtain ⟨us, ws, ctor, ws', units, array, hus, hws, -, hunits, ⟨n, -, rfl⟩, hctor, m, -, rfl⟩ :=
    hspells
  have hprelude := (supports_of_between hts h hus).2.toHasPrelude
  have htype : (Pool.array Primitive.char.typeId us.pool).1 = .charArray :=
    congrArg Prod.fst (TypeSystem.charArray_eq hprelude.le)
  rw [htype] at hctor ⊢
  have hfind := TypeSystem.findConstructor_string
    (supports_of_between hts h hws).2.toHasPrelude.makesStrings
  have hfound : ctor = stringConstructor :=
    Except.ok.inj (congrArg Prod.fst (hctor.symm.trans hfind))
  have hbare : units.map LocatedTree.bare = (text.toList.flatMap Builder.utf16Units).map fun unit =>
      RoseTree.node (.expr ⟨.char unit, Primitive.char.typeId, span⟩) [] := by
    apply map_eq_map_of_forall₂ hunits.flip
    rintro _ unit ⟨n, -, rfl⟩
    exact LocatedTree.bare_node ..
  have hholes : units.map (fun _ => ExprId.hole) =
      (text.toList.flatMap Builder.utf16Units).map fun _ => ExprId.hole :=
    map_eq_map_of_forall₂ hunits.flip fun _ _ _ => rfl
  refine ⟨?_, rfl⟩
  rw [LocatedTree.bare_node, List.map_singleton, LocatedTree.bare_node, hbare, hholes, hfound]
  rfl

/-- A call of `toString` is one of the method that a lookup finds in the end. -/
theorem IsCall.eq_toString {ty : TypeId} (hty : IsObjectType ts ty)
    (hcall : IsCall (Between ts vs) a span (some t) ty "toString" [] t') :
    t'.bare = .node (.expr ⟨.call (.expr .hole) (textMethod vs ty) []
      (Builder.classify vs (textMethod vs ty) ty), .string, span⟩) [t.bare] ∧
      t'.type = .string := by
  have hfound : ∀ us m us', Between ts vs us → Between ts vs us' →
      (TypeSystem.findMethod ty "toString" []).run us = (.ok m, us') →
      m = textMethod vs ty ∧ Builder.classify us' m ty = Builder.classify vs (textMethod vs ty) ty ∧
        callType us' m = .string ∧ Builder.classify us' m ty ≠ .static := by
    intro us m us' hus hus' hfind
    obtain ⟨hvalid, hsupports⟩ := supports_of_between hts h hus
    have hty' := hty.of_extends hts hvalid (hus.1 hts).2
    obtain ⟨m', us₁, hfind', -, hvalid₁, htext, hlast⟩ := hsupports.findMethod_toString hvalid hty'
    cases hfind.symm.trans hfind'
    obtain ⟨hvs, hext⟩ := hus'.2 hvalid₁
    have hm := hlast vs hext hvs
    have hhas := hty.has.of_le (hus'.1 hts).2.le.1
    obtain ⟨params, hkind⟩ := htext.kind
    refine ⟨hm.symm, ?_, by rw [callType, hkind], ?_⟩
    · rw [hm, classify_of_extends hvalid₁ hext htext.hasMember hhas]
    · exact classify_ne_static htext.isStatic
  have hdispatch : Builder.classify vs (textMethod vs ty) ty ≠ .static := by
    obtain ⟨us, m, us', _, hus, hus', hfind, -⟩ := hcall
    obtain ⟨-, hsame, -, hne⟩ := hfound us m us' hus hus' hfind
    exact hsame ▸ hne
  obtain ⟨n, rfl⟩ := hcall.eq_node fun us m us' hus hus' hfind =>
    (hfound us m us' hus hus' hfind).imp_right fun h => ⟨h.1, h.2.1⟩
  rw [if_neg hdispatch]
  exact ⟨LocatedTree.bare_node .., rfl⟩

variable (hfree : ts.Unobstructed)
include hfree

/-- A call of `concat` with a string is one of the method of the prelude. -/
theorem IsCall.eq_concatenated {l r : LocatedTree} (hr : r.type = .string)
    (hcall : IsCall (Between ts vs) a span (some l) .string "concat" [r] t) :
    t.bare = concatenated span l.bare r.bare ∧ t.type = .string := by
  have hfound : ∀ us m us', Between ts vs us → Between ts vs us' →
      (TypeSystem.findMethod .string "concat" [r.type]).run us = (.ok m, us') →
      m = stringConcat ∧ Builder.classify us' m .string = .direct ∧ callType us' m = .string := by
    intro us m us' hus hus' hfind
    obtain ⟨hvalid, hsupports⟩ := supports_of_between hts h hus
    have hprelude := (supports_of_between hts h hus').2.toHasPrelude
    obtain ⟨_, hfind'⟩ := TypeSystem.findMethod_concat hvalid hsupports.toHasPrelude
      hsupports.links (hfree.of_extends hts (hus.1 hts).2) (hsupports.acyclic _)
    rw [hr, hfind'] at hfind
    obtain rfl : stringConcat = m := Except.ok.inj (congrArg Prod.fst hfind)
    exact ⟨rfl, classify_concat hprelude, callType_concat hprelude.le⟩
  obtain ⟨n, rfl⟩ := hcall.eq_node hfound
  exact ⟨LocatedTree.bare_node .., rfl⟩

/-- A call of `valueOf` is one of the method of the prelude for the primitive type. -/
theorem IsCall.eq_valueOf {p : Primitive} (hp : p ≠ .void) (ht : t.type = p.typeId)
    (hcall : IsCall (Between ts vs) a span none .string "valueOf" [t] t') :
    t'.bare = .node (.expr ⟨.call (.type .string) (stringValueOf p) [.hole] .static, .string, span⟩)
      [t.bare] ∧ t'.type = .string := by
  have hfound : ∀ us m us', Between ts vs us → Between ts vs us' →
      (TypeSystem.findMethod .string "valueOf" [t.type]).run us = (.ok m, us') →
      m = stringValueOf p ∧ Builder.classify us' m .string = .static ∧
        callType us' m = .string := by
    intro us m us' hus hus' hfind
    obtain ⟨hvalid, hsupports⟩ := supports_of_between hts h hus
    have hprelude := (supports_of_between hts h hus').2.toHasPrelude
    obtain ⟨_, hfind'⟩ := TypeSystem.findMethod_valueOf hvalid hsupports.toHasPrelude
      hsupports.links (hfree.of_extends hts (hus.1 hts).2) hp
    rw [ht, hfind'] at hfind
    obtain rfl : stringValueOf p = m := Except.ok.inj (congrArg Prod.fst hfind)
    exact ⟨rfl, classify_valueOf hprelude hp, callType_valueOf hprelude hp⟩
  obtain ⟨n, rfl⟩ := hcall.eq_node hfound
  exact ⟨LocatedTree.bare_node .., rfl⟩

/-- An operand is converted as its static type says. -/
theorem Promotes.eq_promoted (ht : Convertible ts t.type)
    (hpromotes : Promotes (Between ts vs) a span t t') :
    t'.bare = promoted vs span t.type t.bare ∧ t'.type = .string := by
  have hhas := ht.has hts h.toHasPrelude
  have hnull : ts.kind .null = .null := hts.pool.null.kind_eq
  have hkind : ∀ p : Primitive, ts.kind p.typeId = .prim p := fun p => (hts.pool.prims p).kind_eq
  unfold promoted
  cases hpromotes with
  | string hstring =>
    rw [if_pos hstring]
    exact ⟨rfl, hstring⟩
  | null hne hus hk hspells =>
    obtain ⟨hus', hvs⟩ := kind_of_between hts hhas hus
    rw [if_neg hne, hvs, ← hus', hk]
    exact hspells.eq_spelled hts h
  | @prim us p _ hne hus hk hcall =>
    obtain ⟨hus', hvs⟩ := kind_of_between hts hhas hus
    rw [hus'] at hk
    rw [if_neg hne, hvs, hk]
    generalize hty : t.type = ty at ht hne hk
    cases ht with
    | string => exact absurd rfl hne
    | null => cases hnull.symm.trans hk
    | @prim q hq =>
      cases (hkind q).symm.trans hk
      exact hcall.eq_valueOf hts h hfree hq hty
    | object hobject => exact absurd hk (hobject.ne_prim p)
  | object hne hus hnotNull hnotPrim hcall =>
    obtain ⟨hus', hvs⟩ := kind_of_between hts hhas hus
    rw [hus'] at hnotNull hnotPrim
    rw [if_neg hne, hvs]
    have hobject : IsObjectType ts t.type := by
      generalize t.type = ty at ht hne hnotNull hnotPrim
      cases ht with
      | string => exact absurd rfl hne
      | null => exact absurd hnull hnotNull
      | @prim q _ => exact absurd (hkind q) (hnotPrim q)
      | object hobject => exact hobject
    have hcall := hcall.eq_toString hts h hobject
    cases hk : ts.kind t.type with
    | null => exact absurd hk hnotNull
    | prim q => exact absurd hk (hnotPrim q)
    | array _ | raw _ | inst _ _ _ | var _ | lub _ => exact hcall

end

/-! ### Trees -/

/-- The literal whose form is given. -/
theorem exists_literal_of_form {a : Arena} {n : NodeId} {text : Name} {ty : TypeId} {span : Span}
    (h : a.form n = .expr ⟨.str text, ty, span⟩) :
    ∃ e, n = .expr e ∧ (a.expr e).kind = .str text ∧ (a.expr e).type = ty := by
  cases n with
  | stmt s => cases h
  | expr e =>
    refine ⟨e, rfl, ?_⟩
    rw [Arena.form_expr] at h
    generalize a.expr e = x at h
    obtain ⟨kind, type, span'⟩ := x
    cases kind <;> cases h
    exact ⟨rfl, rfl⟩

/-- The addition whose form is given. -/
theorem exists_addition_of_form {a : Arena} {n : NodeId} {ty : TypeId} {span : Span}
    (h : a.form n = .expr ⟨.binary .add .hole .hole, ty, span⟩) :
    ∃ e l r, n = .expr e ∧ (a.expr e).kind = .binary .add l r ∧ (a.expr e).type = ty := by
  cases n with
  | stmt s => cases h
  | expr e =>
    rw [Arena.form_expr] at h
    generalize hx : a.expr e = x at h
    obtain ⟨kind, type, span'⟩ := x
    cases kind <;> cases h
    rename_i l r
    exact ⟨e, l, r, rfl, by rw [hx], by rw [hx]⟩

/-- A form that is kept over the desugared parts is kept. -/
theorem rewritten_of_not_isString {ts : TypeSystem} {f : Form} {parts parts' : List FormTree}
    {located : List LocatedTree} (h : ¬ f.IsString located)
    (htypes : located.map LocatedTree.type = parts.map FormTree.type) :
    rewritten ts f parts parts' = .node f parts' := by
  unfold rewritten
  split
  · exact absurd trivial h
  · rename_i x y ty span l r l' r'
    rw [if_neg]
    intro hstring
    have hmem : TypeId.string ∈ located.map LocatedTree.type := by
      rw [htypes]
      rcases hstring with hl | hr
      · simp [hl]
      · simp [hr]
    obtain ⟨p, hp, hptype⟩ := List.mem_map.mp hmem
    exact h ⟨p, hp, hptype⟩
  · rfl

section

variable {ts vs : TypeSystem} {u : CompilationUnit} {n : NodeId} (hts : ts.Valid)
  (h : SupportsStrings ts) (hfree : ts.Unobstructed) (hu : u.IsAcyclic) (hc : IsChecked ts u)
include hts h hfree hu hc

/-- What the relation makes of one node is what the function makes of it, where the static types of
its parts stay, and its static type stays. -/
theorem Rewrites.eq_rewritten {parts : List LocatedTree} {t : LocatedTree} (hn : u.HasNode n)
    (htypes : parts.map LocatedTree.type =
      (((u.arena.children n).map u.arena.tree).map LocatedTree.bare).map FormTree.type)
    (hrewrites : Rewrites (Between ts vs) u.arena (n, u.arena.form n) parts t) :
    t.bare = rewritten vs (u.arena.form n)
        (((u.arena.children n).map u.arena.tree).map LocatedTree.bare)
        (parts.map LocatedTree.bare) ∧
      t.type = Form.type (u.arena.form n) := by
  generalize hform : u.arena.form n = f at hrewrites
  cases hrewrites with
  | keep hkeep =>
    rw [rewritten_of_not_isString hkeep htypes]
    exact ⟨LocatedTree.bare_node .., rfl⟩
  | @literal _ x f us text ty span parts hus hspells =>
    obtain ⟨e, rfl, hk, rfl⟩ := exists_literal_of_form hform
    obtain ⟨htype, hname⟩ := hc.literal hn hk
    obtain ⟨hspelled, hstring⟩ := hspells.eq_spelled hts h
    have htext : us.text text = vs.text text := by
      rw [TypeSystem.text_of_le (hus.1 hts).2.le hname,
        TypeSystem.text_of_le ((hus.1.trans hus.2) hts).2.le hname]
    rw [LocatedTree.bare_node] at hspelled ⊢
    rw [hspelled, htext]
    exact ⟨rfl, hstring.trans htype.symm⟩
  | @concat _ x f ty span l r l' r' parts htype hl hr hcall =>
    obtain ⟨e, el, er, rfl, hk, rfl⟩ := exists_addition_of_form hform
    have hchildren : u.arena.children (.expr e) = [.expr el, .expr er] := by
      rw [Arena.children, hk]
      rfl
    have hreads : ∀ c : ExprId, .expr c ∈ u.arena.children (.expr e) →
        LocatedTree.type (u.arena.tree (.expr c)) = (u.arena.expr c).type :=
      fun c hc => (hu.reads (hn.child hc)).type_eq
    rw [hchildren] at htypes hreads ⊢
    have hel := hreads el (by simp)
    have her := hreads er (by simp)
    simp only [List.map_cons, List.map_nil, LocatedTree.type_bare, hel, her, List.cons.injEq,
      and_true] at htypes
    obtain ⟨hleft, hright⟩ := htypes
    obtain ⟨hstring, hconvl, hconvr⟩ := hc.concat hn hk (hleft ▸ hright ▸ htype)
    obtain ⟨hlbare, -⟩ := hl.eq_promoted hts h hfree (hleft ▸ hconvl)
    obtain ⟨hrbare, hrtype⟩ := hr.eq_promoted hts h hfree (hright ▸ hconvr)
    obtain ⟨hcallBare, hcallType⟩ := hcall.eq_concatenated hts h hfree hrtype
    rw [LocatedTree.bare_node] at hcallBare ⊢
    rw [hcallBare, hlbare, hrbare]
    refine ⟨?_, hcallType.trans hstring.symm⟩
    simp only [List.map_cons, List.map_nil, rewritten, LocatedTree.type_bare, hel, her,
      ← hleft, ← hright]
    rw [if_pos htype]

/-- What the relation makes of a tree is what the function makes of it, and its static type
stays. -/
theorem Desugars.eq_desugarTree {t : LocatedTree} (hn : u.HasNode n)
    (hdesugars : Desugars (Between ts vs) u.arena (u.arena.tree n) t) :
    t.bare = desugarTree vs (LocatedTree.bare (u.arena.tree n)) ∧
      t.type = LocatedTree.type (u.arena.tree n) := by
  generalize htree : u.arena.tree n = r at hdesugars
  induction r using RoseTree.induction generalizing n t with
  | h label parts ih =>
    rw [hu.tree_eq hn] at htree
    obtain ⟨rfl, rfl⟩ := RoseTree.node.inj htree
    obtain ⟨parts', hparts, hrewrites⟩ := desugars_node.mp hdesugars
    rw [List.forall₂_map_left_iff] at hparts
    have hsame : List.Forall₂ (fun c t' => LocatedTree.bare t' =
        desugarTree vs (LocatedTree.bare (u.arena.tree c)) ∧
        LocatedTree.type t' = LocatedTree.type (u.arena.tree c)) (u.arena.children n) parts' := by
      obtain ⟨hlength, hzip⟩ := List.forall₂_iff_zip.mp hparts
      refine List.forall₂_iff_zip.mpr ⟨hlength, fun {c t'} hct => ?_⟩
      have hmem := (List.of_mem_zip hct).1
      exact ih _ (List.mem_map_of_mem hmem) (hn.child hmem) rfl (hzip hct)
    have hbare : parts'.map LocatedTree.bare =
        (((u.arena.children n).map u.arena.tree).map LocatedTree.bare).map (desugarTree vs) := by
      rw [List.map_map, List.map_map]
      exact map_eq_map_of_forall₂ hsame.flip fun _ _ h => h.1
    have htypes : parts'.map LocatedTree.type =
        (((u.arena.children n).map u.arena.tree).map LocatedTree.bare).map FormTree.type := by
      rw [List.map_map, List.map_map]
      exact map_eq_map_of_forall₂ hsame.flip fun _ _ h => h.2.trans (LocatedTree.type_bare _).symm
    rw [LocatedTree.bare_node, desugarTree_node, ← hbare]
    exact Rewrites.eq_rewritten hts h hfree hu hc hn htypes hrewrites

end

/-! ### Units -/

section

variable {ts us : TypeSystem} {u : CompilationUnit} (hts : ts.Valid) (h : SupportsStrings ts)
  (hfree : ts.Unobstructed)
include hts h hfree

/-- Operands of a convertible type can be converted. -/
theorem canPromote {ty : TypeId} (hty : Convertible ts ty) (hus : Later ts us) :
    CanPromote us ty := by
  obtain ⟨hvalid, hext⟩ := hus hts
  have hsupports := h.of_extends hts hext
  intro hne
  rw [TypeSystem.kind_of_le hext.le (hty.has hts h.toHasPrelude)]
  cases hty with
  | string => exact absurd rfl hne
  | null =>
    rw [show ts.kind .null = _ from hts.pool.null.kind_eq]
    exact Builder.canSpell hsupports.toHasPrelude.makesStrings
  | @prim p hp =>
    rw [show ts.kind p.typeId = _ from (hts.pool.prims p).kind_eq]
    obtain ⟨vs, hfind⟩ := TypeSystem.findMethod_valueOf hvalid hsupports.toHasPrelude
      hsupports.links (hfree.of_extends hts hext) hp
    exact ⟨_, congrArg Prod.fst hfind⟩
  | object hobject =>
    obtain ⟨m, vs, hfind, -⟩ := hsupports.findMethod_toString hvalid
      (hobject.of_extends hts hvalid hext)
    cases hk : ts.kind ty with
    | null => exact absurd hk hobject.ne_null
    | prim p => exact absurd hk (hobject.ne_prim p)
    | array _ | raw _ | inst _ _ _ | var _ | lub _ => exact ⟨m, congrArg Prod.fst hfind⟩

variable (hu : u.IsAcyclic) (hc : IsChecked ts u)
include hu hc

/-- In a unit that is checked all lookups for replacements succeed. -/
theorem canDesugar : CanDesugar ts u where
  spell hus := Builder.canSpell (h.of_extends hts (hus hts).2).toHasPrelude.makesStrings
  concat {us id ty span l r} hus hn hform hparts htype := by
    obtain ⟨e, el, er, heq, hk, -⟩ := exists_addition_of_form hform
    cases heq
    have hchildren : u.arena.children (.expr id) = [.expr el, .expr er] := by
      rw [Arena.children, hk]
      rfl
    have htypes : ∀ c t, .expr c ∈ u.arena.children (.expr id) →
        Desugars (Between ts us) u.arena (u.arena.tree (.expr c)) t →
        t.type = (u.arena.expr c).type := fun c t hmem ht =>
      (ht.eq_desugarTree hts h hfree hu hc (hn.child hmem)).2.trans
        (hu.reads (hn.child hmem)).type_eq
    rw [hchildren] at hparts htypes
    obtain ⟨hl, hrest⟩ := List.forall₂_cons.mp hparts
    obtain ⟨hr, -⟩ := List.forall₂_cons.mp hrest
    have hleft := htypes el l (by simp) hl
    have hright := htypes er r (by simp) hr
    obtain ⟨-, hconvl, hconvr⟩ := hc.concat hn hk (hleft ▸ hright ▸ htype)
    rw [← hleft] at hconvl
    rw [← hright] at hconvr
    refine ⟨canPromote hts h hfree hconvl hus, fun vs hvs => ?_⟩
    refine ⟨canPromote hts h hfree hconvr (hus.trans hvs), fun r' hr' => ?_⟩
    obtain ⟨hvalid, hext⟩ := (hus.trans hvs) hts
    have hsupports := h.of_extends hts hext
    obtain ⟨ws, hfind⟩ := TypeSystem.findMethod_concat hvalid hsupports.toHasPrelude
      hsupports.links (hfree.of_extends hts hext) (hsupports.acyclic _)
    rw [(hr'.eq_promoted hts h hfree hconvr).2]
    exact ⟨_, congrArg Prod.fst hfind⟩

/-- Desugaring a unit succeeds, and every root reads back as what the function makes of its tree. -/
theorem desugar_refines : ∃ counts ts' u', desugar ts u = (.ok counts, ts', u') ∧
    TypeSystem.Extends ts ts' ∧ u'.classes = u.classes ∧ ∀ n ∈ u.roots, ∃ t, u'.arena.Reads n t ∧
      t.bare = desugarTree ts' (LocatedTree.bare (u.arena.tree n)) := by
  obtain ⟨counts, ts', u', hdesugar⟩ := exists_desugar_ok hu (canDesugar hts h hfree hu hc)
  have hdesugared := desugar_isDesugared hu hdesugar
  have hext := (hdesugared.later hts).2
  refine ⟨counts, ts', u', hdesugar, hext, hdesugared.classes_eq, fun n hn => ?_⟩
  obtain ⟨t, ht, hdesugars⟩ := hdesugared.tree hn
  exact ⟨t, ht, (hdesugars.eq_desugarTree hts h hfree hu hc (.root hn)).1⟩

end

/-! ### A unit with all kinds of operands -/

section

variable {ts : TypeSystem}

theorem isObjectType_raw {ty : TypeId} {c : ClassId} (hk : ts.kind ty = .raw c)
    (hc : c.index < ts.classes.size) : IsObjectType ts ty where
  has := TypeSystem.has_of_kind_ne_null (by rw [hk]; exact nofun)
  ne_prim := hk ▸ nofun
  ne_null := hk ▸ nofun
  leads := by
    have hresolve : TypeSystem.resolveLub ty ts = (ty, ts) :=
      TypeSystem.resolveLub_eq (by rw [TypeSystem.Resolves, hk])
    rw [hresolve]
    exact (TypeSystem.leadsToClass_raw_iff hk).mpr hc

/-- What is assumed of the declarations, from what can be computed. -/
theorem supportsStrings_of_check (hts : ts.Valid) (hprelude : ts.HasPrelude)
    (hcheck : ∀ i < ts.classes.size,
      (∀ s ∈ ts.declaredSupertypes ⟨i⟩, (ts.classOf? s).isSome = true) ∧
      (∀ d ∈ ts.superclasses ⟨i⟩, ⟨i⟩ ∉ ts.classClosure d) ∧
      .object ∈ ts.classClosure ⟨i⟩ ∧
      ∀ m ∈ ts.declaredMethods ⟨i⟩ TypeSystem.toStringName, (ts.member m).kind.formals = [] →
        (ts.member m).kind = .method TypeSystem.toStringName [] .string [] ∧
          (ts.member m).flags.isStatic = false) : SupportsStrings ts where
  toHasPrelude := hprelude
  links c s hs := by
    by_cases hc : c.index < ts.classes.size
    · exact Option.isSome_iff_exists.mp ((hcheck c.index hc).1 s hs)
    · rw [TypeSystem.declaredSupertypes, TypeSystem.classDef_of_not_lt hc] at hs
      exact absurd hs List.not_mem_nil
  acyclic := TypeSystem.not_inherits_self_of_closure fun i hi => (hcheck i hi).2.1
  root c hc := TypeSystem.mem_classClosure_iff.mp (hcheck c.index hc).2.2.1
  text c m hm hformals := by
    by_cases hc : c.index < ts.classes.size
    · obtain ⟨hkind, hstatic⟩ := (hcheck c.index hc).2.2.2 m hm hformals
      exact ⟨hts.hasMember_of_declared (TypeSystem.mem_declaredMethods hm).1, ⟨[], hkind⟩, hstatic⟩
    · rw [TypeSystem.declaredMethods, TypeSystem.classDef_of_not_lt hc] at hm
      exact absurd hm List.not_mem_nil

theorem unobstructed_of_check (h : ∀ d ∈ ts.superclasses .string, ∀ c ∈ ts.classClosure d,
    ∀ n ∈ [TypeSystem.concatName, TypeSystem.valueOfName],
      ∀ m ∈ ts.declaredMethods c n, (ts.member m).kind.formals.length ≠ 1) : ts.Unobstructed := by
  constructor <;> intro c hc m hm ty hty <;>
    obtain ⟨d, hd, hdc⟩ := Relation.TransGen.head'_iff.mp hc <;>
    exact absurd (congrArg List.length hty)
      (h d hd c (TypeSystem.mem_classClosure_iff.mpr hdc) _ (by simp) m hm)

end

/-- A method body that evaluates the sum of a literal, a number, null and the formal, in this
order. -/
def sumUnit : CompilationUnit where
  arena :=
    { exprs := #[⟨.str ⟨0⟩, .string, .generated⟩, ⟨.int 1, Primitive.int.typeId, .generated⟩,
        ⟨.binary .add ⟨0⟩ ⟨1⟩, .string, .generated⟩, ⟨.null, .null, .generated⟩,
        ⟨.binary .add ⟨2⟩ ⟨3⟩, .string, .generated⟩, ⟨.localVar ⟨0⟩, .object, .generated⟩,
        ⟨.binary .add ⟨4⟩ ⟨5⟩, .string, .generated⟩]
      stmts := #[⟨.eval ⟨6⟩, .generated⟩]
      locals := #[⟨⟨0⟩, .object, {}⟩] }
  classes := [⟨.object, [⟨⟨0⟩, .method [⟨0⟩] (some ⟨0⟩), .generated⟩], .generated⟩]

theorem sumUnit_isAcyclic : sumUnit.IsAcyclic := by
  refine CompilationUnit.isAcyclic_of_rank
    (NodeId.rank id (7 + ·)) ?_ ?_ ?_ <;> decide

/-- Over the prelude the unit is checked. -/
theorem sumUnit_isChecked {ts : TypeSystem} (hts : ts.Valid) (h : ts.HasPrelude) :
    IsChecked ts sumUnit := by
  have hobject : Convertible ts .object :=
    .object (isObjectType_raw (c := .object) hts.object.kind_eq h.classes_size_pos)
  have hname : ts.HasName ⟨0⟩ :=
    lt_of_le_of_lt (Nat.zero_le _) (TypeSystem.initial_names.1.1.of_le h.le)
  constructor
  case literal =>
    rintro ⟨e⟩ text hn hk
    have he : e < 7 := sumUnit_isAcyclic.has hn
    interval_cases e <;> cases hk
    exact ⟨rfl, hname⟩
  case concat =>
    rintro ⟨e⟩ l r hn hk -
    have he : e < 7 := sumUnit_isAcyclic.has hn
    interval_cases e <;> cases hk
    · exact ⟨rfl, .string, .prim (p := .int) nofun⟩
    · exact ⟨rfl, .string, .null⟩
    · exact ⟨rfl, .string, hobject⟩

/-- The prelude alone is all that desugaring needs. -/
theorem initial_supportsStrings :
    SupportsStrings .initial ∧ TypeSystem.initial.Unobstructed := by
  constructor
  · apply supportsStrings_of_check TypeSystem.initial_valid TypeSystem.initial_hasPrelude
    decide +kernel
  · apply unobstructed_of_check
    decide +kernel

theorem desugar_refines_sum :
    SupportsStrings .initial ∧ TypeSystem.initial.Unobstructed ∧ sumUnit.IsAcyclic ∧
      IsChecked .initial sumUnit ∧
      ∃ counts ts' u', desugar .initial sumUnit = (.ok counts, ts', u') ∧
        TypeSystem.Extends .initial ts' ∧ u'.classes = sumUnit.classes ∧
        ∀ n ∈ sumUnit.roots, ∃ t, u'.arena.Reads n t ∧
          t.bare = desugarTree ts' (LocatedTree.bare (sumUnit.arena.tree n)) := by
  have hchecked : IsChecked .initial sumUnit :=
    sumUnit_isChecked TypeSystem.initial_valid TypeSystem.initial_hasPrelude
  obtain ⟨hsupports, hfree⟩ := initial_supportsStrings
  exact ⟨hsupports, hfree, sumUnit_isAcyclic, hchecked,
    desugar_refines TypeSystem.initial_valid hsupports hfree sumUnit_isAcyclic hchecked⟩

/-! ### A method that obstructs -/

/-- The session that makes the string class extend an interface `Foo` with a generic method
`<U> concat(U)`. -/
def obstructedSession : Canonicalizer :=
  let s := (Canonicalizer.fresh .initial).declared (.declareClass "Foo" { isInterface := true })
  let s := (s.asked (.rawClass ⟨2⟩)).declared (.addMethodTypeParam "U" none)
  let s := (s.asked (.typeVar ⟨0⟩)).declared
    (.declareMember ⟨2⟩ (.method TypeSystem.concatName [⟨14⟩] .string [⟨0⟩]) { isAbstract := true })
  s.declared (.addInterface .string ⟨13⟩)

theorem obstructedSession_reachable : Canonicalizer.Reachable obstructedSession := by
  refine .declare _ (.declare _ (.ask _ (.declare _ (.ask _ (.declare _ .initial ?_) ?_) ?_) ?_) ?_)
    ?_
  · trivial
  · trivial
  · nofun
  · trivial
  all_goals
    unfold TypeSystem.Declaration.Admitted
    decide +kernel

/-- The declarations are acyclic and all else that desugaring needs is there, but `concat` of the
string class is not the most specific method any more. -/
theorem desugar_obstructed :
    obstructedSession.types.Valid ∧ obstructedSession.types.Acyclic ∧
      SupportsStrings obstructedSession.types ∧ sumUnit.IsAcyclic ∧
      IsChecked obstructedSession.types sumUnit ∧
      (desugar obstructedSession.types sumUnit).1 =
        .error (.lookup (.ambiguous "core.String" "concat" "core.String" 2)) := by
  have hvalid := obstructedSession_reachable.valid.types
  have hacyclic : obstructedSession.types.Acyclic :=
    TypeSystem.acyclic_of_isEnd (by decide +kernel)
  have hprelude : obstructedSession.types.HasPrelude := by
    obtain ⟨hobject, hstring, hinterface⟩ :
        (obstructedSession.types.classDef .object).members =
            (TypeSystem.initial.classDef .object).members ∧
          (obstructedSession.types.classDef .string).members =
            (TypeSystem.initial.classDef .string).members ∧
          obstructedSession.types.isInterface .string = false := by
      decide +kernel
    exact ⟨obstructedSession_reachable.initial_le, hobject, hstring, hinterface⟩
  have hsupports : SupportsStrings obstructedSession.types := by
    apply supportsStrings_of_check hvalid hprelude
    decide +kernel
  exact ⟨hvalid, hacyclic, hsupports, sumUnit_isAcyclic, sumUnit_isChecked hvalid hprelude,
    by decide +kernel⟩

end StringForm

end Erasure
