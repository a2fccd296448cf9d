/-
What the replacement of a string form is.

Building adds nodes and looks members up, and neither changes what was there. Every operation on the
way to a replacement is described by the tree of the node that it adds. It fails only if a lookup
does. The main statements:

* `call_ends`, `newString_ends`: a call is one of the method found, and a new string spells out its text.
* `promote_ends`: an operand is converted as its type says.
* `replacement_ends`: a literal is spelled out, and an addition becomes a call of `concat`.
-/
import Erasure.Proofs.Strings.Translation
import Erasure.Proofs.Tree.Building
import Erasure.Proofs.Tree.Editing

namespace Erasure

/-! ### Lookups -/

namespace TypeSystem

variable {us vs ws : TypeSystem}

/-- The second type system came from the first by lookups. -/
def Later (us vs : TypeSystem) : Prop := us.Valid → vs.Valid ∧ Extends us vs

theorem Later.refl (us : TypeSystem) : Later us us := fun h => ⟨h, .refl us⟩

theorem Later.trans (h : Later us vs) (h' : Later vs ws) : Later us ws := fun hus =>
  have hvs := h hus
  have hws := h' hvs.1
  ⟨hws.1, hvs.2.trans hws.2⟩

theorem later_of_keeps {α : Type} {act : StateM TypeSystem α} {P : α → TypeSystem → Prop}
    (h : us.Valid → Keeps act us P) : Later us (act us).2 := fun hus => ⟨(h hus).valid, (h hus).grows⟩

theorem kind_of_not_has {ty : TypeId} (h : ¬ us.pool.Has ty) : us.kind ty = .null := by
  have hnone : us.pool.types.get? ty.index = none :=
    InternTable.get?_eq_none_iff.mpr (Nat.le_of_not_lt h)
  rw [kind, Pool.kind, hnone]
  rfl

theorem findMethod_later (us : TypeSystem) (container : TypeId) (name : String)
    (args : List TypeId) : Later us ((findMethod container name args).run us).2 := by
  by_cases hty : us.pool.Has container
  · exact later_of_keeps fun hus => findMethod_keeps hus hty name args
  · -- Only a type of the pool has members, so the lookup ends with the name interned.
    refine later_of_keeps (P := fun _ _ => True) fun hus => ?_
    unfold findMethod
    refine (intern_keeps hus name).run_lift_bind fun n vs _ hvs hpool => ?_
    refine Keeps.run_bind (Q := fun x _ => ∀ chain, x ≠ .ok chain) ?_ ?_ ?_
    · unfold lookupChain
      refine Keeps.run_get_bind ?_
      rw [kind_of_not_has fun h => hty (hpool.1 ▸ h)]
      exact Keeps.pure hvs nofun
    · exact fun _ _ _ _ _ => trivial
    · exact fun chain _ _ _ h => absurd rfl (h chain)

theorem findConstructor_later (us : TypeSystem) (container : TypeId) (args : List TypeId) :
    Later us ((findConstructor container args).run us).2 := by
  by_cases hty : us.pool.Has container
  · exact later_of_keeps fun hus => findConstructor_keeps hus hty args
  · refine later_of_keeps (P := fun _ _ => True) fun hus => ?_
    unfold findConstructor
    refine Keeps.run_get_bind ?_
    rw [classOf?, kind_of_not_has hty]
    exact Keeps.pure hus trivial

theorem charArray_later (us : TypeSystem) :
    Later us ((liftM (Pool.array Primitive.char.typeId) : StateM TypeSystem TypeId) us).2 :=
  later_of_keeps fun hus =>
    (lift_computes hus (Pool.array_computes hus.pool (hus.pool.prims .char).has)).toKeeps

/-- The type systems met between two. -/
def Between (first last us : TypeSystem) : Prop := Later first us ∧ Later us last

theorem Between.mono (h : Later vs ws) : ∀ ts, Between us vs ts → Between us ws ts :=
  fun _ hts => ⟨hts.1, hts.2.trans h⟩

end TypeSystem

open TypeSystem (Later Between)

/-! ### New nodes -/

/-- The form of an expression is not removed by desugaring, whatever its parts are. -/
def ExprKind.IsPlain : ExprKind → Prop
  | str _ | binary .add _ _ => False
  | _ => True

theorem Form.not_isString_of_isPlain {x : Expr} {parts : List LocatedTree} (h : x.kind.IsPlain) :
    ¬ (Form.expr { x with kind := x.kind.bare }).IsString parts := by
  obtain ⟨kind, type, span⟩ := x
  cases kind with
  | str _ => exact h.elim
  | binary op _ _ =>
    cases op with
    | add => exact h.elim
    | _ => exact id
  | _ => exact id

theorem Arena.stringForm?_of_isPlain {a : Arena} {e : ExprId} (h : (a.expr e).kind.IsPlain) :
    a.stringForm? (.expr e) = none := by
  rw [Arena.stringForm?, StringForm.ofExpr?]
  split
  case h_1 text hk => exact (hk ▸ h : (ExprKind.str text).IsPlain).elim
  case h_2 left right hk => exact (hk ▸ h : (ExprKind.binary .add left right).IsPlain).elim
  case h_3 => rfl

namespace Builder

open StringForm (IsNew IsCall SpellsOut callType callReceiver)

variable {F : Prop} {first : TypeSystem} {a : Arena} {b b' : Builder}

/-- The builder has an expression now whose tree is as described and has no string forms. What was
there before is unchanged. -/
structure Places (S : LocatedTree → Prop) (b : Builder) (e : ExprId) (b' : Builder) : Prop where
  grows : b.arena.Grows b'.arena
  later : Later b.types b'.types
  span : b'.span = b.span
  settled : b'.arena.Settled (.expr e)
  tree : ∃ t, b'.arena.Reads (.expr e) t ∧ S t

theorem grows_addExpr (a : Arena) (x : Expr) : a.Grows (Arena.addExpr x a).2 := by
  refine ⟨fun {n} hn => ?_, fun {n} hn => ?_⟩
  · cases n with
    | expr e => exact Nat.lt_of_lt_of_le hn ((Arena.size_addExpr a x).symm ▸ Nat.le_succ _)
    | stmt s => exact hn
  · cases n with
    | expr e => exact (Arena.expr_addExpr a x e).trans (if_neg (Nat.ne_of_lt hn))
    | stmt s => rfl

/-- A new expression over settled parts. -/
theorem newExpr_places (kind : ExprKind) (type : TypeId) (parts : List LocatedTree)
    (ha : ∀ {n}, a.Has n → b.arena.Has n) (hplain : kind.IsPlain)
    (hsettled : ∀ c ∈ kind.children, b.arena.Settled c)
    (hparts : List.Forall₂ b.arena.Reads kind.children parts) :
    Places (IsNew a b.span kind.bare type parts) b (newExpr kind type b).1
      (newExpr kind type b).2 := by
  have hgrows := grows_addExpr b.arena ⟨kind, type, b.span⟩
  have hnode : (newExpr kind type b).2.arena.expr (newExpr kind type b).1 =
      ⟨kind, type, b.span⟩ := (Arena.expr_addExpr b.arena ⟨kind, type, b.span⟩ _).trans (if_pos rfl)
  have hchildren : (newExpr kind type b).2.arena.children (.expr (newExpr kind type b).1) =
      kind.children := congrArg (·.kind.children) hnode
  have hhas : (newExpr kind type b).2.arena.Has (.expr (newExpr kind type b).1) :=
    Nat.lt_of_lt_of_eq (Nat.lt_succ_self _) (Arena.size_addExpr b.arena ⟨kind, type, b.span⟩).symm
  refine ⟨hgrows, .refl _, rfl, ?_, ?_⟩
  · refine Arena.settled_of_children hhas (Arena.stringForm?_of_isPlain (hnode ▸ hplain)) ?_
    rw [hchildren]
    exact fun c hc => (hsettled c hc).grows hgrows
  · refine ⟨_, Arena.reads_iff.mpr ⟨parts, ?_, rfl⟩, .expr (newExpr kind type b).1, ?_, ?_⟩
    · rw [hchildren]
      obtain ⟨hlength, hzip⟩ := List.forall₂_iff_zip.mp hparts
      exact List.forall₂_iff_zip.mpr ⟨hlength, fun hp =>
        (hzip hp).grows (hsettled _ (List.of_mem_zip hp).1) hgrows⟩
    · exact fun h => absurd (ha h) (Nat.lt_irrefl _)
    · rw [Arena.form, hnode]

theorem newExpr_ends (kind : ExprKind) (type : TypeId) {P : ExprId → Builder → Prop}
    (h : P (newExpr kind type b).1 (newExpr kind type b).2) :
    Ends F (liftM (newExpr kind type) : BuildM ExprId) b P := h

/-- A lookup that succeeds, or may fail. -/
theorem lookup_ends {α : Type} {act : LookupM α} {P : α → Builder → Prop}
    (hF : F ∨ ∃ m, (act.run b.types).1 = .ok m)
    (h : ∀ m us, act.run b.types = (.ok m, us) → P m { b with types := us }) :
    Ends F (lookup act) b P := by
  have hlift : (liftM act.run : StateM Builder (Except LookupError α)) b =
      ((act.run b.types).1, { b with types := (act.run b.types).2 }) := rfl
  rw [Ends, lookup, run_lift_bind_apply, hlift]
  cases hact : act.run b.types with
  | mk x us =>
    cases x with
    | ok m => exact h m us hact
    | error e =>
      refine hF.resolve_right ?_
      rintro ⟨m, hm⟩
      rw [hact] at hm
      cases hm

/-- A method is found. -/
def CanCall (us : TypeSystem) (container : TypeId) (name : String) (args : List TypeId) : Prop :=
  ∃ m, ((TypeSystem.findMethod container name args).run us).1 = .ok m

/-- What a call is applied to reads as a settled tree, or there is none. -/
structure Applies (b : Builder) (container : TypeId) (receiver : Receiver)
    (target : Option LocatedTree) : Prop where
  settled : ∀ c ∈ receiver.children, b.arena.Settled c
  reads : List.Forall₂ b.arena.Reads receiver.children target.toList
  bare : receiver.bare = callReceiver container target

theorem applies_type (b : Builder) (container : TypeId) :
    Applies b container (.type container) none :=
  ⟨fun _ hc => absurd hc List.not_mem_nil, .nil, rfl⟩

theorem applies_expr {container : TypeId} {e : ExprId} {t : LocatedTree}
    (he : b.arena.Settled (.expr e)) (ht : b.arena.Reads (.expr e) t) :
    Applies b container (.expr e) (some t) :=
  ⟨fun _ hc => List.mem_singleton.mp hc ▸ he, .cons ht .nil, rfl⟩

/-- A call of the method that a lookup finds. -/
theorem call_ends (target : Option LocatedTree) (ts : List LocatedTree) {receiver : Receiver}
    {container : TypeId} {name : String} {args : List ExprId}
    (hfirst : Later first b.types) (ha : ∀ {n}, a.Has n → b.arena.Has n)
    (hreceiver : Applies b container receiver target)
    (hargs : ∀ e ∈ args, b.arena.Settled (.expr e))
    (hts : List.Forall₂ (fun e => b.arena.Reads (.expr e)) args ts)
    (hF : F ∨ CanCall b.types container name (ts.map LocatedTree.type)) :
    Ends F (call receiver container name args) b fun e b' =>
      Places (IsCall (Between first b'.types) a b.span target container name ts) b e b' := by
  have htypes : args.map b.typeOf = ts.map LocatedTree.type :=
    map_eq_map_of_forall₂ hts fun _ _ h => h.type_eq.symm
  unfold call
  refine Ends.get_bind ?_
  dsimp only
  rw [htypes]
  refine (lookup_ends hF (P := fun m b' => ∃ us, b' = { b with types := us } ∧
    (TypeSystem.findMethod container name (ts.map LocatedTree.type)).run b.types =
      (.ok m, us)) fun m us hm => ⟨us, rfl, hm⟩).bind ?_
  rintro m _ ⟨us, rfl, hm⟩
  have hlater : Later b.types us := by
    have := TypeSystem.findMethod_later b.types container name (ts.map LocatedTree.type)
    rwa [hm] at this
  refine Ends.get_bind (newExpr_ends _ _ ?_)
  dsimp only
  generalize hdispatch : classify us m container = dispatch
  have happlies : Applies { b with types := us } container
      (if dispatch = .static then .type container else receiver)
      (if dispatch = .static then none else target) := by
    split
    · exact applies_type _ container
    · exact ⟨hreceiver.settled, hreceiver.reads, hreceiver.bare⟩
  generalize (if dispatch = .static then Receiver.type container else receiver) = receiver'
    at happlies ⊢
  have hplaces := newExpr_places (b := { b with types := us }) (a := a)
    (.call receiver' m args dispatch) (callType us m)
    ((if dispatch = .static then none else target).toList ++ ts) ha trivial ?_ ?_
  · refine ⟨hplaces.grows, hlater, hplaces.span, hplaces.settled, ?_⟩
    obtain ⟨t, ht, hnew⟩ := hplaces.tree
    refine ⟨t, ht, b.types, m, us, _, ⟨hfirst, hlater⟩, ⟨hfirst.trans hlater, .refl us⟩, hm, rfl, ?_⟩
    rw [hdispatch]
    have hholes : args.map (fun _ => ExprId.hole) = ts.map fun _ => ExprId.hole :=
      map_eq_map_of_forall₂ hts fun _ _ _ => rfl
    have hbare : (ExprKind.call receiver' m args dispatch).bare =
        .call (callReceiver container (if dispatch = .static then none else target)) m
          (ts.map fun _ => .hole) dispatch := by
      rw [ExprKind.bare, happlies.bare, hholes]
    exact hbare ▸ hnew
  · refine List.forall_mem_append.mpr ⟨happlies.settled, fun c hc => ?_⟩
    obtain ⟨e, he, rfl⟩ := List.mem_map.mp hc
    exact hargs e he
  · exact List.rel_append happlies.reads (List.forall₂_map_left_iff.mpr hts)

/-! ### New strings -/

/-- Several new nodes, each with its tree. -/
theorem charLits_ends (ha : ∀ {n}, a.Has n → b.arena.Has n) (units : List UInt16) :
    Ends F (units.mapM fun unit => (liftM (charLit unit) : BuildM ExprId)) b fun es b' =>
      b.arena.Grows b'.arena ∧ b'.types = b.types ∧ b'.span = b.span ∧
      (∀ e ∈ es, b'.arena.Settled (.expr e)) ∧
      ∃ ts, List.Forall₂ (fun e => b'.arena.Reads (.expr e)) es ts ∧
        List.Forall₂ (fun unit => IsNew a b.span (.char unit) Primitive.char.typeId []) units ts := by
  induction units generalizing b with
  | nil =>
    exact Ends.pure
      ⟨.refl _, rfl, rfl, fun _ he => absurd he List.not_mem_nil, [], .nil, .nil⟩
  | cons unit units ih =>
    rw [List.mapM_cons]
    have hplaces := newExpr_places (.char unit) Primitive.char.typeId [] ha trivial (fun _ hc => absurd hc List.not_mem_nil) .nil
    refine (newExpr_ends (.char unit) Primitive.char.typeId (P := fun e b' => e = (charLit unit b).1 ∧
      b' = (charLit unit b).2) ⟨rfl, rfl⟩).bind ?_
    rintro _ _ ⟨rfl, rfl⟩
    refine (ih fun h => hplaces.grows.has (ha h)).bind ?_
    rintro es b' ⟨hgrows, htypes, hspan, hsettled, ts, hts, hunits⟩
    refine Ends.pure ⟨hplaces.grows.trans hgrows, htypes, hspan, ?_, ?_⟩
    · exact List.forall_mem_cons.mpr ⟨hplaces.settled.grows hgrows, hsettled⟩
    · obtain ⟨t, ht, hnew⟩ := hplaces.tree
      exact ⟨t :: ts, .cons (ht.grows hplaces.settled hgrows) hts, .cons hnew hunits⟩

/-- The construction of an object from one argument with the constructor that a lookup finds. -/
theorem newObject_ends {ty : TypeId} {arg : ExprId} {t : LocatedTree}
    (hfirst : Later first b.types) (ha : ∀ {n}, a.Has n → b.arena.Has n)
    (harg : b.arena.Settled (.expr arg)) (ht : b.arena.Reads (.expr arg) t)
    (hF : F ∨ ((b.types.classOf? ty).any fun c => !b.types.isInterface c) ∧
      ∃ m, ((TypeSystem.findConstructor ty [t.type]).run b.types).1 = .ok m) :
    Ends F (newObject ty none [arg]) b fun e b' => Places (fun t' => ∃ vs ctor vs',
      Between first b'.types vs ∧ Between first b'.types vs' ∧
      (TypeSystem.findConstructor ty [t.type]).run vs = (.ok ctor, vs') ∧
      IsNew a b.span (.new ctor none [.hole]) ty [t] t') b e b' := by
  have htypes : [arg].map b.typeOf = [t.type] := congrArg (fun ty => [ty]) ht.type_eq.symm
  unfold newObject
  refine Ends.get_bind ?_
  dsimp only
  rw [htypes]
  split
  case isFalse hclass => exact hF.resolve_right fun h => hclass h.1
  refine (lookup_ends (hF.imp_right And.right) (P := fun m b' => ∃ us, b' = { b with types := us } ∧
    (TypeSystem.findConstructor ty [t.type]).run b.types = (.ok m, us))
    fun m us hm => ⟨us, rfl, hm⟩).bind ?_
  rintro ctor _ ⟨us, rfl, hctor⟩
  have hlater : Later b.types us := by
    have := TypeSystem.findConstructor_later b.types ty [t.type]
    rwa [hctor] at this
  refine newExpr_ends _ _ ?_
  have hplaces := newExpr_places (b := { b with types := us }) (a := a)
    (.new ctor none [arg]) ty [t] ha trivial
    (fun c hc => List.mem_singleton.mp hc ▸ harg) (.cons ht .nil)
  refine ⟨hplaces.grows, hlater, hplaces.span, hplaces.settled, ?_⟩
  obtain ⟨t', ht', hnew⟩ := hplaces.tree
  exact ⟨t', ht', b.types, ctor, us, ⟨hfirst, hlater⟩, ⟨hfirst.trans hlater, .refl us⟩, hctor, hnew⟩

/-- The type of an array of code units, made in a type system. -/
def charArray : StateM TypeSystem TypeId := liftM (Pool.array Primitive.char.typeId)

/-- The construction of strings succeeds. -/
def CanSpell (us : TypeSystem) : Prop :=
  (((charArray us).2.classOf? .string).any fun c => !(charArray us).2.isInterface c) ∧
    ∃ m, ((TypeSystem.findConstructor .string [(charArray us).1]).run (charArray us).2).1 = .ok m

/-- A new string is the construction of a string from the array of its code units. -/
theorem newString_ends (hfirst : Later first b.types) (ha : ∀ {n}, a.Has n → b.arena.Has n)
    (text : String) (hF : F ∨ CanSpell b.types) :
    Ends F (newString text) b fun e b' =>
      Places (SpellsOut (Between first b'.types) a b.span text) b e b' := by
  unfold newString
  refine (charLits_ends ha _).bind ?_
  rintro es ⟨us, arena, span⟩ ⟨hgrows, rfl, rfl, hsettled, units, hreads, hunits⟩
  dsimp only at hgrows hsettled hreads
  have hlater : Later b.types (charArray b.types).2 := TypeSystem.charArray_later b.types
  -- The array of the code units.
  have hchildren : ∀ c ∈ (ExprKind.newArray es).children, arena.Settled c := fun c hc => by
    obtain ⟨e, he, rfl⟩ := List.mem_map.mp hc
    exact hsettled e he
  have harray := newExpr_places (b := ⟨(charArray b.types).2, arena, b.span⟩)
    (.newArray es) (charArray b.types).1 units (fun h => hgrows.has (ha h)) trivial hchildren (List.forall₂_map_left_iff.mpr hreads)
  refine Ends.bind (P := fun e b' => Places (IsNew a b.span (ExprKind.newArray es).bare
    (charArray b.types).1 units) ⟨(charArray b.types).2, arena, b.span⟩ e b' ∧
    b'.types = (charArray b.types).2) (show Ends F _ _ _ from ⟨harray, rfl⟩) ?_
  rintro e ⟨us₂, arena₂, span₂⟩ ⟨hplaces, rfl⟩
  obtain ⟨t, ht, hnew⟩ := hplaces.tree
  have htype : t.type = (charArray b.types).1 := by
    obtain ⟨_, -, rfl⟩ := hnew
    rfl
  -- The string from the array.
  refine (newObject_ends (a := a) (hfirst.trans hlater)
    (fun h => hplaces.grows.has (hgrows.has (ha h))) hplaces.settled ht (htype ▸ hF)).mono ?_
  rintro x b' ⟨hgrows', hlater', hspan', hsettled', t', ht', vs, ctor, vs', hvs, hvs', hctor, hnew'⟩
  refine ⟨hgrows.trans (hplaces.grows.trans hgrows'), hlater.trans hlater', ?_, hsettled', t', ht',
    b.types, vs, ctor, vs', units, t, ⟨hfirst, hlater.trans hlater'⟩, hvs, hvs', hunits, ?_, hctor, ?_⟩
  · exact hspan'.trans hplaces.span
  · have hholes : es.map (fun _ => ExprId.hole) = units.map fun _ => ExprId.hole :=
      map_eq_map_of_forall₂ hreads fun _ _ _ => rfl
    rw [ExprKind.bare, hholes] at hnew
    exact hnew
  · have hspan : span₂ = b.span := hplaces.span
    exact hspan ▸ hnew'

end Builder

/-! ### Replacements -/

namespace StringForm

open Builder (Places CanCall CanSpell)

variable {F : Prop} {first : TypeSystem} {a : Arena} {b : Builder}

/-- Operands of a type can be converted. -/
def CanPromote (us : TypeSystem) (ty : TypeId) : Prop :=
  ty ≠ .string → match us.kind ty with
    | .null => CanSpell us
    | .prim _ => CanCall us .string "valueOf" [ty]
    | _ => CanCall us ty "toString" []

/-- An operand is converted as its type says. -/
theorem promote_ends {e : ExprId} {t : LocatedTree} (hfirst : Later first b.types)
    (ha : ∀ {n}, a.Has n → b.arena.Has n) (he : b.arena.Settled (.expr e))
    (ht : b.arena.Reads (.expr e) t) (hF : F ∨ CanPromote b.types t.type) :
    Ends F (promote e) b fun e' b' =>
      Places (Promotes (Between first b'.types) a b.span t) b e' b' := by
  have hty : b.typeOf e = t.type := ht.type_eq.symm
  unfold promote
  refine Ends.get_bind ?_
  dsimp only
  rw [hty]
  split
  case isTrue hstring => exact Ends.pure ⟨.refl _, .refl _, rfl, he, t, ht, .string hstring⟩
  case isFalse hstring =>
    have hbetween : ∀ {b' : Builder}, Later b.types b'.types → Between first b'.types b.types :=
      fun h => ⟨hfirst, h⟩
    have hF := hF.imp_right fun h => h hstring
    cases hk : b.types.kind t.type with
    | null =>
      rw [hk] at hF
      exact (Builder.newString_ends hfirst ha "null" hF).mono
        fun _ _ ⟨hgrows, hlater, hspan, hsettled, t', ht', hspells⟩ => ⟨hgrows, hlater, hspan,
          hsettled, t', ht', .null hstring (hbetween hlater) hk hspells⟩
    | prim p =>
      rw [hk] at hF
      refine (Builder.call_ends none [t] hfirst ha (Builder.applies_type b .string)
        (fun _ h => List.mem_singleton.mp h ▸ he) (.cons ht .nil) hF).mono ?_
      exact fun _ _ ⟨hgrows, hlater, hspan, hsettled, t', ht', hcall⟩ => ⟨hgrows, hlater, hspan,
        hsettled, t', ht', .prim hstring (hbetween hlater) hk hcall⟩
    | array _ | raw _ | inst _ _ _ | var _ | lub _ =>
      rw [hk] at hF
      refine (Builder.call_ends (some t) [] hfirst ha (Builder.applies_expr he ht)
        (fun _ h => absurd h List.not_mem_nil) .nil hF).mono ?_
      exact fun _ _ ⟨hgrows, hlater, hspan, hsettled, t', ht', hcall⟩ => ⟨hgrows, hlater, hspan,
        hsettled, t', ht', .object hstring (hbetween hlater) (hk ▸ nofun) (hk ▸ nofun) hcall⟩

/-- A literal is spelled out. -/
theorem replacement_literal_ends (hfirst : Later first b.types)
    (ha : ∀ {n}, a.Has n → b.arena.Has n) (text : Name) (hF : F ∨ CanSpell b.types) :
    Ends F (replacement (.literal text)) b fun e b' =>
      Places (SpellsOut (Between first b'.types) a b.span (b.types.text text)) b e b' :=
  Ends.get_bind (Builder.newString_ends hfirst ha _ hF)

/-- An addition becomes a call of `concat` on the operands as strings. -/
theorem replacement_concatenation_ends {left right : ExprId} {l r : LocatedTree}
    (hfirst : Later first b.types) (ha : ∀ {n}, a.Has n → b.arena.Has n)
    (hleft : b.arena.Settled (.expr left)) (hl : b.arena.Reads (.expr left) l)
    (hright : b.arena.Settled (.expr right)) (hr : b.arena.Reads (.expr right) r)
    (hF : F ∨ CanPromote b.types l.type ∧ ∀ us, Later b.types us → CanPromote us r.type ∧
      ∀ r', Promotes (Between first us) a b.span r r' → CanCall us .string "concat" [r'.type]) :
    Ends F (replacement (.concatenation left right)) b fun e b' =>
      Places (fun t => ∃ l' r', Promotes (Between first b'.types) a b.span l l' ∧
        Promotes (Between first b'.types) a b.span r r' ∧
        IsCall (Between first b'.types) a b.span (some l') .string "concat" [r'] t) b e b' := by
  unfold replacement
  refine (promote_ends hfirst ha hleft hl (hF.imp_right And.left)).bind ?_
  rintro e₁ b₁ ⟨hgrows₁, hlater₁, hspan₁, hsettled₁, l', hl', hpromotes₁⟩
  refine (promote_ends (hfirst.trans hlater₁) (fun h => hgrows₁.has (ha h)) (hright.grows hgrows₁)
    (hr.grows hright hgrows₁) (hF.imp_right fun h => (h.2 _ hlater₁).1)).bind ?_
  rintro e₂ b₂ ⟨hgrows₂, hlater₂, hspan₂, hsettled₂, r', hr', hpromotes₂⟩
  rw [hspan₁] at hpromotes₂
  have hlater := hlater₁.trans hlater₂
  have happlies : Builder.Applies b₂ .string (.expr e₁) (some l') :=
    Builder.applies_expr (hsettled₁.grows hgrows₂) (hl'.grows hsettled₁ hgrows₂)
  refine (Builder.call_ends (a := a) (some l') [r'] (hfirst.trans hlater)
    (fun h => hgrows₂.has (hgrows₁.has (ha h))) happlies
    (fun _ h => List.mem_singleton.mp h ▸ hsettled₂) (.cons hr' .nil)
    (hF.imp_right fun h => (h.2 _ hlater).2 r' hpromotes₂)).mono ?_
  rintro e b' ⟨hgrows, hlater', hspan, hsettled, t, ht, hcall⟩
  have hspan' : b₂.span = b.span := hspan₂.trans hspan₁
  rw [hspan'] at hcall
  exact ⟨hgrows₁.trans (hgrows₂.trans hgrows), hlater.trans hlater', hspan.trans hspan', hsettled, t,
    ht, l', r', hpromotes₁.mono (Between.mono (hlater₂.trans hlater')),
    hpromotes₂.mono (Between.mono hlater'), hcall⟩

end StringForm

end Erasure
