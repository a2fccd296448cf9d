/-
Sound arenas.

Building adds nodes, and its lookups make types and member instances. An arena is `Sound` for a set
of nodes when the set is closed under children, its nodes have types of the pool, and they mention
what is accepted only: a field access a field, a call a procedure, an allocation also a class. The main
statements:

* `newExpr_keeps`, `newStmt_keeps`: a new node with sound parts is sound.
* `field_keeps`, `call_keeps`, `newObject_keeps`, `newString_keeps`: so are nodes for which members
  are looked up.
-/
import Erasure.Tree.Validation
import Erasure.Proofs.TypeSystem.Lookup

namespace Erasure

/-! ### Members that nodes name -/

/-- The member that an expression names. -/
def ExprKind.member? : ExprKind → Option MemberId
  | field _ m | call _ m _ _ | new m _ _ => some m
  | _ => none

/-- The member that a statement names. -/
def StmtKind.member? : StmtKind → Option MemberId
  | constructorCall _ m _ => some m
  | _ => none

theorem Validation.memberOf?_expr (a : Arena) (e : ExprId) :
    memberOf? a (.expr e) = (a.expr e).kind.member? := by
  unfold memberOf?
  dsimp only
  generalize (a.expr e).kind = kind
  cases kind <;> rfl

theorem Validation.memberOf?_stmt (a : Arena) (s : StmtId) :
    memberOf? a (.stmt s) = (a.stmt s).kind.member? := by
  unfold memberOf?
  dsimp only
  generalize (a.stmt s).kind = kind
  cases kind <;> rfl

/-! ### What nodes mention -/

/-- What a node mentions besides other nodes and its type. -/
inductive Mention where
  | field (m : MemberId)
  | procedure (m : MemberId)
  /-- A type that is allocated. -/
  | allocation (ty : TypeId)
  deriving DecidableEq

/-- The member that is mentioned. -/
def Mention.member? : Mention → Option MemberId
  | field m | procedure m => some m
  | allocation _ => none

/-- What an expression mentions. -/
def Expr.mentions (x : Expr) : List Mention :=
  match x.kind with
  | .field _ m => [.field m]
  | .call _ m _ _ => [.procedure m]
  | .new m _ _ => [.procedure m, .allocation x.type]
  | _ => []

/-- What a statement mentions. -/
def Stmt.mentions (x : Stmt) : List Mention :=
  match x.kind with
  | .constructorCall _ m _ => [.procedure m]
  | _ => []

/-- What a node mentions. -/
def Arena.mentions (a : Arena) : NodeId → List Mention
  | .expr e => (a.expr e).mentions
  | .stmt s => (a.stmt s).mentions

/-- The member that the validator looks at is the one that the node mentions. -/
theorem Validation.mem_memberOf?_iff {a : Arena} {n : NodeId} {m : MemberId} :
    m ∈ memberOf? a n ↔ ∃ x ∈ a.mentions n, m ∈ x.member? := by
  cases n with
  | expr e =>
    rw [memberOf?_expr, Arena.mentions, Expr.mentions]
    generalize (a.expr e).kind = kind
    cases kind <;> simp [ExprKind.member?, Mention.member?]
  | stmt s =>
    rw [memberOf?_stmt, Arena.mentions, Stmt.mentions]
    generalize (a.stmt s).kind = kind
    cases kind <;> simp [StmtKind.member?, Mention.member?]

/-! ### Arenas -/

namespace Arena

theorem size_addExpr (a : Arena) (x : Expr) : (addExpr x a).2.exprs.size = a.exprs.size + 1 :=
  Array.size_push ..

theorem size_addStmt (a : Arena) (x : Stmt) : (addStmt x a).2.stmts.size = a.stmts.size + 1 :=
  Array.size_push ..

theorem size_replaceExpr (a : Arena) (id : ExprId) (x : Expr) :
    (a.replaceExpr id x).exprs.size = a.exprs.size := Array.size_setIfInBounds

theorem expr_addExpr (a : Arena) (x : Expr) (e : ExprId) :
    (addExpr x a).2.expr e = if e.index = a.exprs.size then x else a.expr e := by
  show (a.exprs.push x).getD e.index default = _
  rw [Array.getD_eq_getD_getElem?, Array.getElem?_push]
  split
  · rfl
  · rw [expr, Array.getD_eq_getD_getElem?]

theorem stmt_addStmt (a : Arena) (x : Stmt) (s : StmtId) :
    (addStmt x a).2.stmt s = if s.index = a.stmts.size then x else a.stmt s := by
  show (a.stmts.push x).getD s.index default = _
  rw [Array.getD_eq_getD_getElem?, Array.getElem?_push]
  split
  · rfl
  · rw [stmt, Array.getD_eq_getD_getElem?]

theorem expr_replaceExpr (a : Arena) (id : ExprId) (x : Expr) (e : ExprId) :
    (a.replaceExpr id x).expr e = if e = id ∧ id.index < a.exprs.size then x else a.expr e := by
  show (a.exprs.setIfInBounds id.index x).getD e.index default = _
  rw [Array.getD_eq_getD_getElem?, Array.getElem?_setIfInBounds]
  by_cases h : e = id
  · subst h
    by_cases hlt : e.index < a.exprs.size
    · rw [if_pos rfl, if_pos hlt, if_pos ⟨rfl, hlt⟩]
      rfl
    · rw [if_pos rfl, if_neg hlt, if_neg fun h => hlt h.2, expr, Array.getD_eq_getD_getElem?,
        Array.getElem?_eq_none (Nat.le_of_not_lt hlt)]
  · have hindex : ¬ id.index = e.index := fun hindex => h (congrArg ExprId.mk hindex.symm)
    rw [if_neg hindex, if_neg fun hand => h hand.1, expr, Array.getD_eq_getD_getElem?]

end Arena

namespace Builder

/-! ### Growth of builders -/

/-- A builder is below another when its types, members and names are kept, and its nodes are still
there. -/
instance : Preorder Builder where
  le b b' := b.types ≤ b'.types ∧ b.arena.exprs.size ≤ b'.arena.exprs.size ∧
    b.arena.stmts.size ≤ b'.arena.stmts.size
  le_refl b := ⟨le_refl _, le_refl _, le_refl _⟩
  le_trans _ _ _ h h' := ⟨le_trans h.1 h'.1, le_trans h.2.1 h'.2.1, le_trans h.2.2 h'.2.2⟩

/-- A builder has grown without a declaration. -/
structure Extends (b b' : Builder) : Prop where
  types : TypeSystem.Extends b.types b'.types
  exprs : b.arena.exprs.size ≤ b'.arena.exprs.size
  stmts : b.arena.stmts.size ≤ b'.arena.stmts.size
  locals : b'.arena.locals = b.arena.locals

instance : Store Builder where
  Grows := Extends
  Valid b := b.types.Valid
  grows_refl _ := ⟨.refl _, le_refl _, le_refl _, rfl⟩
  grows_trans h h' :=
    ⟨h.types.trans h'.types, le_trans h.exprs h'.exprs, le_trans h.stmts h'.stmts,
      h'.locals.trans h.locals⟩
  le_of_grows h := ⟨h.types.le, h.exprs, h.stmts⟩

/-- What is accepted stays accepted, and so is what lookups find and what is allocated. -/
structure Accepts (Q : Mention → TypeSystem → Prop) : Prop where
  stable : ∀ {ts us x}, ts.Valid → TypeSystem.Extends ts us → us.Valid → Q x ts → Q x us
  field : ∀ {ts m}, ts.Valid → ts.IsViewOf .field m → Q (.field m) ts
  procedure : ∀ {ts m}, ts.Valid → ts.IsViewOf .procedure m → Q (.procedure m) ts
  allocation : ∀ {ts ty}, ts.Valid → ts.pool.Has ty → (ts.classOf? ty).isSome → Q (.allocation ty) ts

/-- Members that are accepted stay accepted, and lookups find such members. -/
structure AcceptsMembers (P : MemberId → TypeSystem → Prop) : Prop where
  stable : ∀ {ts us m}, ts.Valid → TypeSystem.Extends ts us → us.Valid → P m ts → P m us
  view : ∀ {ts m}, ts.Valid → ts.IsView m → P m ts

theorem AcceptsMembers.accepts {P : MemberId → TypeSystem → Prop} (hP : AcceptsMembers P) :
    Accepts fun x ts => ∀ m ∈ x.member?, P m ts where
  stable hts hext hus h m hm := hP.stable hts hext hus (h m hm)
  field hts h := by
    rintro _ ⟨⟩
    exact hP.view hts h.view
  procedure hts h := by
    rintro _ ⟨⟩
    exact hP.view hts h.view
  allocation _ _ _ _ hm := nomatch hm

/-- The nodes in `G` are closed under children, what they mention is accepted by `Q` and their types
are types of the pool, and whatever will be added is among them. The string class is a type of the
pool. -/
structure Sound (Q : Mention → TypeSystem → Prop) (G : NodeId → Prop) (b : Builder) : Prop where
  string : b.types.pool.Has .string
  newExpr : ∀ {e : ExprId}, b.arena.exprs.size ≤ e.index → G (.expr e)
  newStmt : ∀ {s : StmtId}, b.arena.stmts.size ≤ s.index → G (.stmt s)
  children : ∀ {n}, G n → ∀ c ∈ b.arena.children n, G c
  mentions : ∀ {n}, G n → ∀ x ∈ b.arena.mentions n, Q x b.types
  types : ∀ {e}, G (.expr e) → b.types.pool.Has (b.typeOf e)

section

variable {Q : Mention → TypeSystem → Prop} {G : NodeId → Prop} {b b' : Builder}

theorem Sound.with_span (hb : Sound Q G b) (span : Span) : Sound Q G { b with span } :=
  ⟨hb.string, hb.newExpr, hb.newStmt, hb.children, hb.mentions, hb.types⟩

theorem Sound.of_types (hQ : Accepts Q) (hb : Sound Q G b) (hvalid : b.types.Valid)
    (hext : TypeSystem.Extends b.types b'.types) (hvalid' : b'.types.Valid)
    (harena : b'.arena = b.arena) : Sound Q G b' := by
  obtain ⟨types, arena, span⟩ := b'
  obtain rfl := harena
  exact ⟨hb.string.of_le hext.le.1, hb.newExpr, hb.newStmt, hb.children,
    fun hn x hx => hQ.stable hvalid hext hvalid' (hb.mentions hn x hx),
    fun he => (hb.types he).of_le hext.le.1⟩

/-- Work on the type system leaves the nodes alone. -/
theorem lift_keeps {α : Type} {act : StateM TypeSystem α} {P : α → TypeSystem → Prop}
    (hQ : Accepts Q) (hvalid : b.types.Valid) (hb : Sound Q G b) (h : Keeps act b.types P) :
    Keeps (liftM act : StateM Builder α) b fun a b' =>
      (Sound Q G b' ∧ P a b'.types) ∧ b'.arena = b.arena where
  grows := ⟨h.grows, le_refl _, le_refl _, rfl⟩
  valid := h.valid
  post := ⟨⟨hb.of_types hQ hvalid h.grows h.valid rfl, h.post⟩, rfl⟩

theorem lookup_keeps {α : Type} {act : LookupM α} {P : α → TypeSystem → Prop}
    (hQ : Accepts Q) (hvalid : b.types.Valid) (hb : Sound Q G b)
    (h : Keeps act.run b.types (TypeSystem.Found P)) :
    Keeps (lookup act).run b fun x b' =>
      (Sound Q G b' ∧ TypeSystem.Found P x b'.types) ∧ b'.arena = b.arena := by
  unfold lookup
  refine (lift_keeps hQ hvalid hb h).run_lift_bind fun x b' _ hvalid' hx => ?_
  obtain ⟨⟨hb', hfound⟩, harena⟩ := hx
  cases x with
  | ok a => exact Keeps.pure hvalid' ⟨⟨hb', TypeSystem.found_ok (hfound a rfl)⟩, harena⟩
  | error e => exact Keeps.pure hvalid' ⟨⟨hb', TypeSystem.found_error _⟩, harena⟩

/-- A new expression with sound parts is sound. -/
theorem Sound.addExpr (hb : Sound Q G b) (x : Expr) (hchildren : ∀ c ∈ x.kind.children, G c)
    (hmentions : ∀ y ∈ x.mentions, Q y b.types) (htype : b.types.pool.Has x.type) :
    Sound Q G { b with arena := (Arena.addExpr x b.arena).2 } := by
  have hexpr := Arena.expr_addExpr b.arena x
  constructor
  case string => exact hb.string
  case newExpr =>
    exact fun he => hb.newExpr (Nat.le_of_succ_le ((Arena.size_addExpr b.arena x).ge.trans he))
  case newStmt => exact hb.newStmt
  case children =>
    rintro (e | s) hn
    · rw [Arena.children, hexpr]
      split
      · exact hchildren
      · exact hb.children hn
    · exact hb.children hn
  case mentions =>
    rintro (e | s) hn
    · rw [Arena.mentions, hexpr]
      split
      · exact hmentions
      · exact hb.mentions hn
    · exact hb.mentions hn
  case types =>
    intro e hn
    rw [typeOf, hexpr]
    split
    · exact htype
    · exact hb.types hn

/-- A new statement with sound parts is sound. -/
theorem Sound.addStmt (hb : Sound Q G b) (x : Stmt) (hchildren : ∀ c ∈ x.kind.children, G c)
    (hmentions : ∀ y ∈ x.mentions, Q y b.types) :
    Sound Q G { b with arena := (Arena.addStmt x b.arena).2 } := by
  have hstmt := Arena.stmt_addStmt b.arena x
  constructor
  case string => exact hb.string
  case newExpr => exact hb.newExpr
  case newStmt =>
    exact fun hs => hb.newStmt (Nat.le_of_succ_le ((Arena.size_addStmt b.arena x).ge.trans hs))
  case children =>
    rintro (e | s) hn
    · exact hb.children hn
    · rw [Arena.children, hstmt]
      split
      · exact hchildren
      · exact hb.children hn
  case mentions =>
    rintro (e | s) hn
    · exact hb.mentions hn
    · rw [Arena.mentions, hstmt]
      split
      · exact hmentions
      · exact hb.mentions hn
  case types => exact fun hn => hb.types hn

theorem newExpr_keeps {kind : ExprKind} {type : TypeId} (hvalid : b.types.Valid)
    (hb : Sound Q G b) (hchildren : ∀ c ∈ kind.children, G c)
    (hmentions : ∀ y ∈ (Expr.mk kind type b.span).mentions, Q y b.types)
    (htype : b.types.pool.Has type) : Keeps (newExpr kind type) b fun e b' => Sound Q G b' ∧ G (.expr e) ∧ b'.typeOf e = type where
  grows := ⟨.refl _, (Array.size_push ..).symm ▸ Nat.le_succ _, le_refl _, rfl⟩
  valid := hvalid
  post := ⟨hb.addExpr ⟨kind, type, b.span⟩ hchildren hmentions htype, hb.newExpr (le_refl _),
    congrArg Expr.type ((Arena.expr_addExpr b.arena ⟨kind, type, b.span⟩ _).trans (if_pos rfl))⟩

theorem newStmt_keeps {kind : StmtKind} (hvalid : b.types.Valid) (hb : Sound Q G b)
    (hchildren : ∀ c ∈ kind.children, G c)
    (hmentions : ∀ y ∈ (Stmt.mk kind b.span).mentions, Q y b.types) :
    Keeps (newStmt kind) b fun s b' => Sound Q G b' ∧ G (.stmt s) where
  grows := ⟨.refl _, le_refl _, (Array.size_push ..).symm ▸ Nat.le_succ _, rfl⟩
  valid := hvalid
  post := ⟨hb.addStmt ⟨kind, b.span⟩ hchildren hmentions, hb.newStmt (le_refl _)⟩

/-! ### Nodes for which members are looked up -/

/-- What was built is sound, and the arena is. -/
def Built (Q : Mention → TypeSystem → Prop) (G : NodeId → Prop) (x : Except TreeError ExprId)
    (b : Builder) : Prop := Sound Q G b ∧ ∀ e, x = .ok e → G (.expr e)

theorem Built.error (hb : Sound Q G b) (e : TreeError) : Built Q G (.error e) b :=
  ⟨hb, fun _ h => nomatch h⟩

/-- A new expression as the last step of an operation that can fail. -/
theorem lift_newExpr_keeps {kind : ExprKind} {type : TypeId} (hvalid : b.types.Valid)
    (hb : Sound Q G b) (hchildren : ∀ c ∈ kind.children, G c)
    (hmentions : ∀ y ∈ (Expr.mk kind type b.span).mentions, Q y b.types)
    (htype : b.types.pool.Has type) :
    Keeps (liftM (Builder.newExpr kind type) : BuildM ExprId).run b (Built Q G) := by
  refine (newExpr_keeps hvalid hb hchildren hmentions htype).run_lift fun e b' _ h => ⟨h.1, ?_⟩
  rintro _ ⟨⟩
  exact h.2.1

theorem mem_children_exprs {args : List ExprId} (h : ∀ a ∈ args, G (.expr a)) :
    ∀ c ∈ args.map NodeId.expr, G c := by
  intro c hc
  obtain ⟨a, ha, rfl⟩ := List.mem_map.mp hc
  exact h a ha

/-- The result type of a method is a type of the pool. -/
theorem has_resultType {ts : TypeSystem} (hts : ts.Valid) {m : MemberId} (hm : ts.HasMember m) :
    ts.pool.Has (match (ts.member m).kind with
      | .method _ _ result _ => result
      | _ => Primitive.void.typeId) := by
  have htypes := (hts.keys hm.hasKey).types
  generalize (ts.member m).kind = kind at htypes
  cases kind with
  | method name formals result params =>
    exact htypes result (List.mem_append_right _ List.mem_cons_self)
  | constructor _ _ | field _ _ | initializer => exact (hts.pool.prims .void).has

theorem has_fieldType {ts : TypeSystem} (hts : ts.Valid) {m : MemberId} (hm : ts.HasMember m) :
    ts.pool.Has (match (ts.member m).kind with
      | .field _ type => type
      | _ => default) := by
  have htypes := (hts.keys hm.hasKey).types
  generalize (ts.member m).kind = kind at htypes
  cases kind with
  | field name type => exact htypes type List.mem_cons_self
  | method _ _ _ _ | constructor _ _ | initializer => exact (hts.pool.prims .boolean).has

theorem field_keeps (hQ : Accepts Q) (hvalid : b.types.Valid) (hb : Sound Q G b)
    {receiver : Receiver} (hreceiver : ∀ c ∈ receiver.children, G c)
    (htype : b.types.pool.Has (b.receiverType receiver)) (name : String) :
    Keeps (field receiver name).run b (Built Q G) := by
  unfold field
  refine Keeps.run_get_bind ?_
  refine (lookup_keeps hQ hvalid hb (TypeSystem.findField_keeps hvalid htype name)).run_bind ?_ ?_
  · rintro e b' - - ⟨⟨hb', -⟩, -⟩
    exact .error hb' e
  rintro m b' - hvalid' ⟨⟨hb', hm⟩, -⟩
  have hview := hm m rfl
  refine Keeps.run_get_bind (lift_newExpr_keeps hvalid' hb' hreceiver ?_ ?_)
  · exact List.forall_mem_singleton.mpr (hQ.field hvalid' hview)
  · exact has_fieldType hvalid' (hview.view.hasMember hvalid')

theorem call_keeps (hQ : Accepts Q) (hvalid : b.types.Valid) (hb : Sound Q G b)
    {receiver : Receiver} {container : TypeId} {args : List ExprId}
    (hreceiver : ∀ c ∈ receiver.children, G c) (hargs : ∀ a ∈ args, G (.expr a))
    (hcontainer : b.types.pool.Has container) (name : String) :
    Keeps (call receiver container name args).run b (Built Q G) := by
  unfold call
  refine Keeps.run_get_bind ?_
  refine (lookup_keeps hQ hvalid hb
    (TypeSystem.findMethod_keeps hvalid hcontainer name _)).run_bind ?_ ?_
  · rintro e b' - - ⟨⟨hb', -⟩, -⟩
    exact .error hb' e
  rintro m b' - hvalid' ⟨⟨hb', hm⟩, -⟩
  have hview := hm m rfl
  refine Keeps.run_get_bind (lift_newExpr_keeps hvalid' hb' ?_ ?_ ?_)
  · refine List.forall_mem_append.mpr ⟨?_, mem_children_exprs hargs⟩
    split
    · exact fun c hc => absurd hc List.not_mem_nil
    · exact hreceiver
  · exact List.forall_mem_singleton.mpr (hQ.procedure hvalid' hview)
  · exact has_resultType hvalid' (hview.view.hasMember hvalid')

theorem staticCall_keeps (hQ : Accepts Q) (hvalid : b.types.Valid) (hb : Sound Q G b)
    {container : TypeId} {args : List ExprId} (hargs : ∀ a ∈ args, G (.expr a))
    (hcontainer : b.types.pool.Has container) (name : String) :
    Keeps (staticCall container name args).run b (Built Q G) :=
  call_keeps hQ hvalid hb (fun _ hc => absurd hc List.not_mem_nil) hargs hcontainer name

theorem newObject_keeps (hQ : Accepts Q) (hvalid : b.types.Valid) (hb : Sound Q G b) {ty : TypeId}
    {outer : Option ExprId} {args : List ExprId} (houter : ∀ o ∈ outer, G (.expr o))
    (hargs : ∀ a ∈ args, G (.expr a)) (hty : b.types.pool.Has ty) :
    Keeps (newObject ty outer args).run b (Built Q G) := by
  unfold newObject
  refine Keeps.run_get_bind ?_
  dsimp only
  split
  case isTrue hinstantiable =>
    refine (lookup_keeps hQ hvalid hb (TypeSystem.findConstructor_keeps hvalid hty _)).run_bind ?_ ?_
    · rintro e b' - - ⟨⟨hb', -⟩, -⟩
      exact .error hb' e
    rintro m b' hbb' hvalid' ⟨⟨hb', hm⟩, -⟩
    have hview := hm m rfl
    have hty' := hty.of_le hbb'.le.1.1
    have hclass : (b'.types.classOf? ty).isSome := by
      rw [TypeSystem.classOf?, TypeSystem.kind_of_le hbb'.le.1 hty]
      exact Option.isSome_of_any hinstantiable
    refine lift_newExpr_keeps hvalid' hb' ?_ ?_ hty'
    · refine mem_children_exprs (List.forall_mem_append.mpr ⟨fun o ho => ?_, hargs⟩)
      exact houter o (Option.mem_toList.mp ho)
    · exact List.forall_mem_cons.mpr ⟨hQ.procedure hvalid' hview,
        List.forall_mem_singleton.mpr (hQ.allocation hvalid' hty' hclass)⟩
  case isFalse => exact Keeps.pure hvalid (.error hb _)

/-- An array of sound elements. -/
theorem newArray_keeps (hQ : Accepts Q) (hvalid : b.types.Valid) (hb : Sound Q G b) {elem : TypeId}
    {elems : List ExprId} (helems : ∀ e ∈ elems, G (.expr e)) (helem : b.types.pool.Has elem) :
    Keeps (newArray elem elems) b fun e b' => Sound Q G b' ∧ G (.expr e) := by
  unfold newArray
  have harray := (TypeSystem.lift_computes hvalid (Pool.array_computes hvalid.pool helem)).toKeeps
  refine (lift_keeps hQ hvalid hb harray).bind ?_
  rintro ty b' - hvalid' ⟨⟨hb', hty⟩, -⟩
  refine Keeps.mono (newExpr_keeps hvalid' hb' (mem_children_exprs helems) ?_ hty.has) ?_
  · exact fun _ h => by cases h
  · exact fun _ _ _ _ h => ⟨h.1, h.2.1⟩

theorem charLit_keeps (hvalid : b.types.Valid) (hb : Sound Q G b) (unit : UInt16) :
    Keeps (charLit unit) b fun e b' => Sound Q G b' ∧ G (.expr e) :=
  (newExpr_keeps hvalid hb (fun _ hc => absurd hc List.not_mem_nil) (fun _ h => by cases h)
    (hvalid.pool.prims .char).has).mono fun _ _ _ _ h => ⟨h.1, h.2.1⟩

theorem charLits_keeps (hvalid : b.types.Valid) (hb : Sound Q G b) (units : List UInt16) :
    Keeps (units.mapM fun unit => (liftM (charLit unit) : BuildM ExprId)).run b fun x b' =>
      Sound Q G b' ∧ ∃ es, x = .ok es ∧ ∀ e ∈ es, G (.expr e) := by
  induction units generalizing b with
  | nil => exact Keeps.pure hvalid ⟨hb, [], rfl, fun _ he => absurd he List.not_mem_nil⟩
  | cons unit units ih =>
    rw [List.mapM_cons]
    refine (charLit_keeps hvalid hb unit).run_lift_bind fun e b' _ hvalid' ⟨hb', he⟩ => ?_
    refine (ih hvalid' hb').run_bind ?_ ?_
    · rintro _ b'' - - ⟨-, _, ⟨⟩, -⟩
    · rintro es b'' - hvalid'' ⟨hb'', _, ⟨⟩, hes⟩
      exact Keeps.pure hvalid'' ⟨hb'', e :: es, rfl, List.forall_mem_cons.mpr ⟨he, hes⟩⟩

theorem newString_keeps (hQ : Accepts Q) (hvalid : b.types.Valid) (hb : Sound Q G b)
    (text : String) : Keeps (newString text).run b (Built Q G) := by
  unfold newString
  refine (charLits_keeps hvalid hb _).run_bind ?_ ?_
  · rintro _ b' - - ⟨-, _, ⟨⟩, -⟩
  rintro _ b' - hvalid' ⟨hb', units, ⟨⟩, hunits⟩
  refine (newArray_keeps hQ hvalid' hb' hunits (hvalid'.pool.prims .char).has).run_lift_bind ?_
  rintro array b'' - hvalid'' ⟨hb'', harray⟩
  exact newObject_keeps hQ hvalid'' hb'' nofun (fun _ ha => List.mem_singleton.mp ha ▸ harray)
    hb''.string

end

end Builder

end Erasure
