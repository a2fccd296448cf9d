/-
Units assembled by a builder.

A unit is resolved when its nodes mention what lookups find, and its declarations are of the form of
the members that they declare. A builder makes nothing else, whatever it is asked in whatever order,
and whether or not it can do what it is asked. The main statements:

* `Request.run_isResolved`: what is asked of a builder keeps everything in it resolved.
* `Declaring.run_isResolved`: so do declarations, which are resolved themselves.
* `Assembled.unit_isResolved`: units that are assembled by a builder are resolved.
-/
import Erasure.Proofs.Tree.Building
import Erasure.Proofs.Tree.Reachability

namespace Erasure

variable {ts us : TypeSystem}

/-! ### What is resolved -/

namespace Mention

/-- What is mentioned is what a lookup finds, or a class type that is allocated. -/
def IsResolved (ts : TypeSystem) : Mention → Prop
  | field m => ts.IsViewOf .field m
  | procedure m => ts.IsViewOf .procedure m
  | allocation ty => ts.pool.Has ty ∧ (ts.classOf? ty).isSome

theorem IsResolved.of_le (hts : ts.Valid) (hle : ts ≤ us) {x : Mention} (h : x.IsResolved ts) :
    x.IsResolved us := by
  cases x with
  | field m => exact TypeSystem.IsViewOf.of_le hts hle h
  | procedure m => exact TypeSystem.IsViewOf.of_le hts hle h
  | allocation ty =>
    obtain ⟨hty, hclass⟩ := h
    rw [TypeSystem.classOf?, ← TypeSystem.kind_of_le hle hty] at hclass
    exact ⟨hty.of_le hle.1, hclass⟩

theorem IsResolved.hasMember (hts : ts.Valid) {x : Mention} (h : x.IsResolved ts) :
    ∀ m ∈ x.member?, ts.HasMember m := by
  cases x with
  | field m | procedure m =>
    rintro _ ⟨⟩
    exact h.view.hasMember hts
  | allocation ty => exact fun _ hm => nomatch hm

theorem accepts_isResolved : Builder.Accepts fun x ts => x.IsResolved ts where
  stable hts hext _ h := h.of_le hts hext.le
  field _ h := h
  procedure _ h := h
  allocation _ hty hclass := ⟨hty, hclass⟩

end Mention

/-- The form of the members that are declared with such a body. -/
def MemberBody.form : MemberBody → MemberForm
  | method .. | constructor .. => .procedure
  | field _ => .field
  | initializer _ => .initializer

/-- What is declared is a member of a raw class, of the form of the declaration. -/
structure MemberDecl.IsResolved (d : MemberDecl) (ts : TypeSystem) : Prop where
  hasMember : ts.HasMember d.member
  raw : ∃ c, ts.pool.HasKind (ts.member d.member).container (.raw c)
  generic : (ts.member d.member).generic = none
  form : (ts.member d.member).kind.form = d.body.form

theorem MemberDecl.IsResolved.of_le (hle : ts ≤ us) {d : MemberDecl} (h : d.IsResolved ts) :
    d.IsResolved us := by
  have hmember := TypeSystem.member_of_le hle h.hasMember
  constructor
  case hasMember => exact h.hasMember.of_le hle
  case raw =>
    obtain ⟨c, hc⟩ := h.raw
    exact ⟨c, hmember ▸ hc.of_le hle.1⟩
  case generic => rw [hmember, h.generic]
  case form => rw [hmember, h.form]

/-- The nodes of the unit mention what lookups find, and have types of the pool. What it declares is of
the form of its declarations. -/
structure CompilationUnit.IsResolved (u : CompilationUnit) (ts : TypeSystem) : Prop where
  mentions : ∀ {n}, u.HasNode n → ∀ x ∈ u.arena.mentions n, x.IsResolved ts
  types : ∀ {e}, u.HasNode (.expr e) → ts.pool.Has (u.arena.expr e).type
  declared : ∀ c ∈ u.classes, ∀ d ∈ c.members, d.IsResolved ts

namespace Builder

variable {b : Builder} {ds : List MemberDecl}

/-- All nodes mention what lookups find, and have types of the pool. -/
abbrev NodesResolved (b : Builder) : Prop := Sound (fun x ts => x.IsResolved ts) (fun _ => True) b

/-- Everything in the builder is resolved: all nodes, and all locals have types of the pool. -/
structure IsResolved (b : Builder) : Prop where
  valid : b.types.Valid
  sound : NodesResolved b
  locals : ∀ l, b.types.pool.Has (b.arena.localDef l).type

/-- A builder without nodes is resolved. -/
theorem isResolved_empty (hts : ts.Valid) (hstring : ts.pool.Has .string) (span : Span) :
    IsResolved ⟨ts, {}, span⟩ where
  valid := hts
  sound :=
    { string := hstring
      newExpr := fun _ => trivial
      newStmt := fun _ => trivial
      children := fun _ _ _ => trivial
      mentions := by
        rintro (e | s) -
        · exact fun _ h => nomatch h
        · exact fun _ h => nomatch h
      types := fun _ => (hts.pool.prims .boolean).has }
  locals _ := (hts.pool.prims .boolean).has

/-- Whatever becomes of the type system, as long as it keeps what is there. -/
theorem IsResolved.of_le (hb : b.IsResolved) (hle : b.types ≤ us) (hus : us.Valid) :
    IsResolved { b with types := us } where
  valid := hus
  sound :=
    { string := hb.sound.string.of_le hle.1
      newExpr := hb.sound.newExpr
      newStmt := hb.sound.newStmt
      children := hb.sound.children
      mentions := fun hn x hx => (hb.sound.mentions hn x hx).of_le hb.valid hle
      types := fun he => (hb.sound.types he).of_le hle.1 }
  locals l := (hb.locals l).of_le hle.1

theorem IsResolved.with_span (hb : b.IsResolved) (span : Span) : IsResolved { b with span } :=
  ⟨hb.valid, hb.sound.with_span span, hb.locals⟩

/-- What adds nodes without a declaration keeps everything resolved. -/
theorem IsResolved.advances (hb : b.IsResolved) {α : Type} {act : StateM Builder α}
    {P : α → Builder → Prop} (h : Keeps act b P) (hP : ∀ a b', P a b' → NodesResolved b') :
    Advances act b fun _ b' => b'.IsResolved := by
  refine ⟨h.grows.le, h.valid, h.valid, hP _ _ h.post, fun l => ?_⟩
  rw [Arena.localDef, h.grows.locals]
  exact (hb.locals l).of_le h.grows.types.le.1

/-! ### Nodes that mention nothing -/

section

variable (hvalid : b.types.Valid) (hb : NodesResolved b)
include hvalid hb

theorem newExpr_resolved {kind : ExprKind} {type : TypeId}
    (hmentions : (Expr.mk kind type b.span).mentions = []) (htype : b.types.pool.Has type) :
    Keeps (newExpr kind type) b fun _ b' => NodesResolved b' := by
  have hnone : ∀ x ∈ (Expr.mk kind type b.span).mentions, x.IsResolved b.types := by
    simp [hmentions]
  exact (newExpr_keeps hvalid hb (fun _ _ => trivial) hnone htype).mono fun _ _ _ _ h => h.1

theorem newStmt_resolved {kind : StmtKind} (hmentions : (Stmt.mk kind b.span).mentions = []) :
    Keeps (newStmt kind) b fun _ b' => NodesResolved b' := by
  have hnone : ∀ x ∈ (Stmt.mk kind b.span).mentions, x.IsResolved b.types := by simp [hmentions]
  exact (newStmt_keeps hvalid hb (fun _ _ => trivial) hnone).mono fun _ _ _ _ h => h.1

theorem lift_newExpr_resolved {kind : ExprKind} {type : TypeId}
    (hmentions : (Expr.mk kind type b.span).mentions = []) (htype : b.types.pool.Has type) :
    Keeps (liftM (newExpr kind type) : BuildM ExprId).run b fun _ b' => NodesResolved b' :=
  (newExpr_resolved hvalid hb hmentions htype).run_lift fun _ _ _ h => h

theorem lift_newStmt_resolved {kind : StmtKind}
    (hmentions : (Stmt.mk kind b.span).mentions = []) :
    Keeps (liftM (newStmt kind) : BuildM StmtId).run b fun _ b' => NodesResolved b' :=
  (newStmt_resolved hvalid hb hmentions).run_lift fun _ _ _ h => h

omit hb in
theorem requireBoolean_keeps (context : String) (e : ExprId) :
    Keeps (requireBoolean context e).run b fun _ b' => b' = b := by
  unfold requireBoolean
  apply Keeps.run_get_bind
  split
  · exact Keeps.pure hvalid rfl
  · exact Keeps.pure hvalid rfl

omit hb in
theorem requireReference_keeps (ty : TypeId) :
    Keeps (requireReference ty).run b fun _ b' => b' = b := by
  unfold requireReference
  apply Keeps.run_get_bind
  dsimp only
  split
  · exact Keeps.pure hvalid rfl
  · exact Keeps.pure hvalid rfl

/-- Work after a check that leaves the builder alone. -/
theorem check_bind_resolved {α : Type} {check : BuildM Unit} {act : BuildM α}
    (hcheck : Keeps check.run b fun _ b' => b' = b)
    (h : Keeps act.run b fun _ b' => NodesResolved b') :
    Keeps (check >>= fun _ => act).run b fun _ b' => NodesResolved b' := by
  apply hcheck.run_bind
  · rintro e _ - - rfl
    exact hb
  · rintro _ _ - - rfl
    exact h

theorem constructorCall_resolved (kind : ConstructorCallKind) {container : TypeId}
    (hcontainer : b.types.pool.Has container) (args : List ExprId) :
    Keeps (constructorCall kind container args).run b fun _ b' => NodesResolved b' := by
  unfold constructorCall
  apply Keeps.run_get_bind
  apply (lookup_keeps Mention.accepts_isResolved hvalid hb
    (TypeSystem.findConstructor_keeps hvalid hcontainer _)).run_bind
  · exact fun e b' _ _ h => h.1.1
  rintro m b' - hvalid' ⟨⟨hb', hm⟩, -⟩
  have hmentions : ∀ x ∈ (Stmt.mk (.constructorCall kind m args) b'.span).mentions,
      x.IsResolved b'.types := List.forall_mem_singleton.mpr (hm m rfl)
  exact (newStmt_keeps hvalid' hb' (fun _ _ => trivial) hmentions).run_lift fun _ _ _ h => h.1

theorem arrayAccess_resolved (base index : ExprId) (guarded : Bool) :
    Keeps (arrayAccess base index guarded).run b fun _ b' => NodesResolved b' := by
  unfold arrayAccess
  apply Keeps.run_get_bind
  split
  case h_1 elem hk =>
    have hkind := (hb.types (e := base) trivial).hasKind_of_eq hk
    exact lift_newExpr_resolved hvalid hb rfl (hvalid.pool.has_part hkind List.mem_cons_self)
  case h_2 => exact Keeps.pure hvalid hb

theorem evalAssign_resolved (target value : ExprId) :
    Keeps (evalAssign target value).run b fun _ b' => NodesResolved b' := by
  unfold evalAssign
  apply Keeps.run_get_bind
  dsimp only
  split
  · apply (newExpr_resolved hvalid hb rfl (hb.types trivial)).run_lift_bind
    exact fun assignment b' _ hvalid' hb' => lift_newStmt_resolved hvalid' hb' rfl
  · exact Keeps.pure hvalid hb

theorem throwNew_resolved {ty : TypeId} (hty : b.types.pool.Has ty) (args : List ExprId) :
    Keeps (throwNew ty args).run b fun _ b' => NodesResolved b' := by
  unfold throwNew
  apply (newObject_keeps Mention.accepts_isResolved hvalid hb (fun _ _ => trivial) (fun _ _ => trivial)
    hty).run_bind
  · exact fun e b' _ _ h => h.1
  · exact fun exception b' _ hvalid' hb' => lift_newStmt_resolved hvalid' hb'.1 rfl

theorem stringLit_resolved (text : String) :
    Keeps (stringLit text) b fun _ b' => NodesResolved b' := by
  unfold stringLit
  apply (lift_keeps Mention.accepts_isResolved hvalid hb (TypeSystem.intern_keeps hvalid text)).bind
  exact fun n b' _ hvalid' hb' => newExpr_resolved hvalid' hb'.1.1 rfl hb'.1.1.string

end

/-! ### Locals -/

theorem newLocal_isResolved (hb : b.IsResolved) (name : String) {type : TypeId}
    (htype : b.types.pool.Has type) (flags : LocalFlags) :
    Advances (newLocal name type flags) b fun _ b' => b'.IsResolved := by
  unfold newLocal
  apply (lift_keeps Mention.accepts_isResolved hb.valid hb.sound
    (TypeSystem.intern_keeps hb.valid name)).bind_advances
  rintro n b' hbb' hvalid' ⟨⟨hb', -⟩, harena⟩
  have htypes : ∀ l, b'.types.pool.Has (b'.arena.localDef l).type := by
    intro l
    rw [harena]
    exact (hb.locals l).of_le hbb'.le.1.1
  refine ⟨⟨le_refl _, le_refl _, le_refl _⟩, hvalid', hvalid', ?_, fun l => ?_⟩
  · exact ⟨hb'.string, hb'.newExpr, hb'.newStmt, hb'.children, hb'.mentions, hb'.types⟩
  · show b'.types.pool.Has ((b'.arena.locals.push ⟨n, type, flags⟩).getD l.index default).type
    rcases TypeSystem.getD_push_cases b'.arena.locals ⟨n, type, flags⟩ default l.index with
      hold | ⟨-, hnew⟩
    · rw [hold]
      exact htypes l
    · rw [hnew]
      exact htype.of_le hbb'.le.1.1

theorem newLocalDecl_isResolved (hb : b.IsResolved) (name : String) {type : TypeId}
    (htype : b.types.pool.Has type) (init : Option ExprId) (flags : LocalFlags) :
    Advances (newLocalDecl name type init flags) b fun _ b' => b'.IsResolved := by
  unfold newLocalDecl
  apply (newLocal_isResolved hb name htype flags).bind
  intro l b' _ _ hb'
  apply (hb'.advances (newStmt_resolved hb'.valid hb'.sound rfl) fun _ _ h => h).bind
  exact fun s b'' _ hvalid hb'' => .pure hvalid hb''

theorem tempSsa_isResolved (hb : b.IsResolved) (name : String) (init : Option ExprId) :
    Advances (tempSsa name init).run b fun _ b' => b'.IsResolved := by
  unfold tempSsa
  cases init with
  | none => exact .pure hb.valid hb
  | some e =>
    have hdecl := newLocalDecl_isResolved (hb.with_span (b.arena.expr e).span) name
      (hb.sound.types (e := e) trivial) (some e) { isFinal := true, isTemp := true, isSsa := true }
    exact ⟨hdecl.le, hdecl.valid, hdecl.post.with_span b.span⟩

/-! ### Requests -/

/-- What is asked of a builder, declarations apart. A node that mentions nothing, such as an operation
of the source, may also come from elsewhere. -/
inductive Request where
  | setSpan (span : Span)
  | newLocal (name : String) (type : TypeId) (flags : LocalFlags)
  | tempVar (name : String) (type : TypeId) (init : Option ExprId)
  | tempSsa (name : String) (init : Option ExprId)
  | localVar (l : LocalId)
  | field (receiver : Receiver) (name : String)
  | staticField (container : TypeId) (name : String)
  | call (receiver : Receiver) (container : TypeId) (name : String) (args : List ExprId)
  | staticCall (container : TypeId) (name : String) (args : List ExprId)
  | constructorCall (kind : ConstructorCallKind) (container : TypeId) (args : List ExprId)
  | newObject (ty : TypeId) (outer : Option ExprId) (args : List ExprId)
  | newArray (elem : TypeId) (elems : List ExprId)
  | newString (text : String)
  | cast (e : ExprId) (target : TypeId)
  | classLiteral (ty : TypeId)
  | self (container : TypeId)
  | instanceOf (e : ExprId) (target : TypeId)
  | sequence (stmts : List StmtId) (value : ExprId)
  | not (e : ExprId)
  | condOr (left right : ExprId)
  | arrayAccess (base index : ExprId) (guarded : Bool)
  | stringLit (text : String)
  | charLit (unit : UInt16)
  | intLit (value : Int)
  | boolLit (value : Bool)
  | nullLit
  | eval (e : ExprId)
  | evalAssign (target value : ExprId)
  | block (stmts : List StmtId)
  | branch (cond : ExprId) (onTrue : StmtId) (onFalse : Option StmtId)
  | throwNew (ty : TypeId) (args : List ExprId)
  | sourceExpr (kind : ExprKind) (type : TypeId)
  | sourceStmt (kind : StmtKind)

namespace Request

/-- Asks, and drops the answer. -/
def run : Request → StateM Builder Unit
  | setSpan span => modify ({ · with span })
  | newLocal name type flags => discard <| Builder.newLocal name type flags
  | tempVar name type init => discard <| Builder.tempVar name type init
  | tempSsa name init => discard (Builder.tempSsa name init).run
  | localVar l => discard <| Builder.localVar l
  | field receiver name => discard (Builder.field receiver name).run
  | staticField container name => discard (Builder.staticField container name).run
  | call receiver container name args => discard (Builder.call receiver container name args).run
  | staticCall container name args => discard (Builder.staticCall container name args).run
  | constructorCall kind container args => discard (Builder.constructorCall kind container args).run
  | newObject ty outer args => discard (Builder.newObject ty outer args).run
  | newArray elem elems => discard <| Builder.newArray elem elems
  | newString text => discard (Builder.newString text).run
  | cast e target => discard <| Builder.cast e target
  | classLiteral ty => discard (Builder.classLiteral ty).run
  | self container => discard <| Builder.self container
  | instanceOf e target => discard (Builder.instanceOf e target).run
  | sequence stmts value => discard <| Builder.sequence stmts value
  | not e => discard (Builder.not e).run
  | condOr left right => discard (Builder.condOr left right).run
  | arrayAccess base index guarded => discard (Builder.arrayAccess base index guarded).run
  | stringLit text => discard <| Builder.stringLit text
  | charLit unit => discard <| Builder.charLit unit
  | intLit value => discard <| Builder.intLit value
  | boolLit value => discard <| Builder.boolLit value
  | nullLit => discard Builder.nullLit
  | eval e => discard <| Builder.eval e
  | evalAssign target value => discard (Builder.evalAssign target value).run
  | block stmts => discard <| Builder.block stmts
  | branch cond onTrue onFalse => discard (Builder.branch cond onTrue onFalse).run
  | throwNew ty args => discard (Builder.throwNew ty args).run
  | sourceExpr kind type => discard <| newExpr kind type
  | sourceStmt kind => discard <| newStmt kind

/-- The types that the request names are there, and a node from elsewhere mentions nothing. -/
def Admitted (b : Builder) : Request → Prop
  | newLocal _ type _ | tempVar _ type _ => b.types.pool.Has type
  | field receiver _ => b.types.pool.Has (b.receiverType receiver)
  | staticField container _ | call _ container _ _ | staticCall container _ _
  | constructorCall _ container _ | self container => b.types.pool.Has container
  | newObject ty _ _ | throwNew ty _ => b.types.pool.Has ty
  | newArray elem _ => b.types.pool.Has elem
  | cast _ target => b.types.pool.Has target
  | sourceExpr kind type => (Expr.mk kind type b.span).mentions = [] ∧ b.types.pool.Has type
  | sourceStmt kind => (Stmt.mk kind b.span).mentions = []
  | _ => True

instance (b : Builder) : (r : Request) → Decidable (r.Admitted b)
  | newLocal _ type _ | tempVar _ type _ => inferInstanceAs (Decidable (b.types.pool.Has type))
  | field receiver _ => inferInstanceAs (Decidable (b.types.pool.Has (b.receiverType receiver)))
  | staticField container _ | call _ container _ _ | staticCall container _ _
  | constructorCall _ container _ | self container =>
    inferInstanceAs (Decidable (b.types.pool.Has container))
  | newObject ty _ _ | throwNew ty _ => inferInstanceAs (Decidable (b.types.pool.Has ty))
  | newArray elem _ => inferInstanceAs (Decidable (b.types.pool.Has elem))
  | cast _ target => inferInstanceAs (Decidable (b.types.pool.Has target))
  | sourceExpr kind type => inferInstanceAs
    (Decidable ((Expr.mk kind type b.span).mentions = [] ∧ b.types.pool.Has type))
  | sourceStmt kind => inferInstanceAs (Decidable ((Stmt.mk kind b.span).mentions = []))
  | setSpan _ | tempSsa _ _ | localVar _ | newString _ | classLiteral _ | instanceOf _ _
  | sequence _ _ | not _ | condOr _ _ | arrayAccess _ _ _ | stringLit _ | charLit _ | intLit _
  | boolLit _ | nullLit | eval _ | evalAssign _ _ | block _ | branch _ _ _ => .isTrue trivial

/-- Every request is admitted when it is made. -/
def AllAdmitted (b : Builder) : List Request → Prop
  | [] => True
  | r :: rs => r.Admitted b ∧ AllAdmitted (r.run b).2 rs

instance decidableAllAdmitted (b : Builder) : (rs : List Request) → Decidable (AllAdmitted b rs)
  | [] => .isTrue trivial
  | r :: rs =>
    have := decidableAllAdmitted (r.run b).2 rs
    inferInstanceAs (Decidable (r.Admitted b ∧ AllAdmitted (r.run b).2 rs))

/-- What is asked of a builder keeps everything in it resolved. -/
theorem run_isResolved (hb : b.IsResolved) {r : Request} (h : r.Admitted b) :
    Advances r.run b fun _ b' => b'.IsResolved := by
  have hvalid := hb.valid
  have hsound := hb.sound
  have hQ := Mention.accepts_isResolved
  have hbuilt : ∀ {α : Type} {act : StateM Builder α} {P : α → Builder → Prop}, Keeps act b P →
      (∀ a b', P a b' → NodesResolved b') →
      Advances (Functor.discard act) b fun _ b' => b'.IsResolved := fun h hP =>
    (hb.advances h hP).drop
  have hnode : ∀ {kind type}, (Expr.mk kind type b.span).mentions = [] → b.types.pool.Has type →
      Advances (Functor.discard (newExpr kind type)) b fun _ b' => b'.IsResolved :=
    fun hmentions htype => hbuilt (newExpr_resolved hvalid hsound hmentions htype) fun _ _ h => h
  have hstmt : ∀ {kind}, (Stmt.mk kind b.span).mentions = [] →
      Advances (Functor.discard (newStmt kind)) b fun _ b' => b'.IsResolved :=
    fun hmentions => hbuilt (newStmt_resolved hvalid hsound hmentions) fun _ _ h => h
  have hprim : ∀ p : Primitive, b.types.pool.Has p.typeId := fun p => (hvalid.pool.prims p).has
  cases r with
  | setSpan span => exact ⟨⟨le_refl _, le_refl _, le_refl _⟩, hvalid, hb.with_span span⟩
  | newLocal name type flags => exact (newLocal_isResolved hb name h flags).drop
  | tempVar name type init => exact (newLocalDecl_isResolved hb name h init _).drop
  | tempSsa name init => exact (tempSsa_isResolved hb name init).drop
  | localVar l =>
    exact hbuilt (Keeps.get_bind (newExpr_resolved hvalid hsound rfl (hb.locals l))) fun _ _ h => h
  | field receiver name =>
    exact hbuilt (field_keeps hQ hvalid hsound (fun _ _ => trivial) h name) fun _ _ h => h.1
  | staticField container name =>
    have h : b.types.pool.Has (b.receiverType (.type container)) := h
    exact hbuilt (field_keeps hQ hvalid hsound (fun _ _ => trivial) h name) fun _ _ h => h.1
  | call receiver container name args =>
    exact hbuilt (call_keeps hQ hvalid hsound (fun _ _ => trivial) (fun _ _ => trivial) h name)
      fun _ _ h => h.1
  | staticCall container name args =>
    exact hbuilt (staticCall_keeps hQ hvalid hsound (fun _ _ => trivial) h name) fun _ _ h => h.1
  | constructorCall kind container args =>
    exact hbuilt (constructorCall_resolved hvalid hsound kind h args) fun _ _ h => h
  | newObject ty outer args =>
    exact hbuilt (newObject_keeps hQ hvalid hsound (fun _ _ => trivial) (fun _ _ => trivial) h)
      fun _ _ h => h.1
  | newArray elem elems =>
    exact hbuilt (newArray_keeps hQ hvalid hsound (fun _ _ => trivial) h) fun _ _ h => h.1
  | newString text => exact hbuilt (newString_keeps hQ hvalid hsound text) fun _ _ h => h.1
  | cast e target => exact hnode rfl h
  | classLiteral ty =>
    exact hbuilt (check_bind_resolved hvalid hsound (requireReference_keeps hvalid ty)
      (lift_newExpr_resolved hvalid hsound rfl hvalid.object.has)) fun _ _ h => h
  | self container => exact hnode rfl h
  | instanceOf e target =>
    exact hbuilt (check_bind_resolved hvalid hsound (requireReference_keeps hvalid target)
      (lift_newExpr_resolved hvalid hsound rfl (hprim .boolean))) fun _ _ h => h
  | sequence stmts value =>
    exact hbuilt (Keeps.get_bind (newExpr_resolved hvalid hsound rfl (hsound.types trivial)))
      fun _ _ h => h
  | not e =>
    exact hbuilt (check_bind_resolved hvalid hsound (requireBoolean_keeps hvalid _ e)
      (lift_newExpr_resolved hvalid hsound rfl (hprim .boolean))) fun _ _ h => h
  | condOr left right =>
    refine hbuilt (check_bind_resolved hvalid hsound (requireBoolean_keeps hvalid _ left)
      (check_bind_resolved hvalid hsound (requireBoolean_keeps hvalid _ right)
        (lift_newExpr_resolved hvalid hsound rfl (hprim .boolean)))) fun _ _ h => h
  | arrayAccess base index guarded =>
    exact hbuilt (arrayAccess_resolved hvalid hsound base index guarded) fun _ _ h => h
  | stringLit text => exact hbuilt (stringLit_resolved hvalid hsound text) fun _ _ h => h
  | charLit unit => exact hnode rfl (hprim .char)
  | intLit value => exact hnode rfl (hprim .int)
  | boolLit value => exact hnode rfl (hprim .boolean)
  | nullLit => exact hnode rfl hvalid.pool.null.has
  | eval e => exact hstmt rfl
  | evalAssign target value =>
    exact hbuilt (evalAssign_resolved hvalid hsound target value) fun _ _ h => h
  | block stmts => exact hstmt rfl
  | branch cond onTrue onFalse =>
    exact hbuilt (check_bind_resolved hvalid hsound (requireBoolean_keeps hvalid _ cond)
      (lift_newStmt_resolved hvalid hsound rfl)) fun _ _ h => h
  | throwNew ty args => exact hbuilt (throwNew_resolved hvalid hsound h args) fun _ _ h => h
  | sourceExpr kind type => exact hnode h.1 h.2
  | sourceStmt kind => exact hstmt h

end Request

/-! ### Declarations -/

/-- What a builder is asked to declare. -/
inductive Declaring where
  | field (c : ClassId) (name : String) (type : TypeId) (init : Option ExprId) (flags : MemberFlags)
  | method (c : ClassId) (name : String) (result : TypeId) (formals : List LocalId)
      (body : Option StmtId) (flags : MemberFlags)
  | constructor (c : ClassId) (formals : List LocalId) (body : Option StmtId)

namespace Declaring

/-- Declares. -/
def run : Declaring → StateM Builder MemberDecl
  | field c name type init flags => declareField c name type init flags
  | method c name result formals body flags => declareMethod c name result formals body flags
  | constructor c formals body => declareConstructor c formals body

/-- The types that the declaration names are there. -/
def Admitted (b : Builder) : Declaring → Prop
  | field _ _ type _ _ => b.types.pool.Has type
  | method _ _ result _ _ _ => b.types.pool.Has result
  | constructor _ _ _ => True

/-- A member is declared in the type system of a builder. -/
theorem declareMember_isResolved (hb : b.IsResolved) {c : ClassId} {kind : MemberKind}
    {flags : MemberFlags} (htypes : ∀ ty ∈ kind.types, b.types.pool.Has ty)
    (hparams : kind.typeParams = []) (hname : ∀ n ∈ kind.name?, b.types.HasName n) :
    Advances (liftM (TypeSystem.declareMember c kind flags) : StateM Builder MemberId) b
      fun m b' => b'.IsResolved ∧ ∀ body span, kind.form = body.form →
        MemberDecl.IsResolved ⟨m, body, span⟩ b'.types := by
  have hdeclared : Advances (TypeSystem.declareMember c kind flags) b.types _ :=
    TypeSystem.declareMember_advances hb.valid htypes (by simp [hparams]) hname
  obtain ⟨hle, hvalid, container, hcontainer, hkey⟩ := hdeclared
  refine ⟨⟨hle, le_refl _, le_refl _⟩, hvalid, hb.of_le hle hvalid, fun body span hform => ?_⟩
  constructor
  case hasMember => exact hkey.hasMember
  case raw => exact ⟨c, hkey.container_eq.symm ▸ hcontainer⟩
  case generic => exact hkey.generic_eq
  case form => exact (congrArg MemberKind.form hkey.kind_eq).trans hform

theorem intern_isResolved (hb : b.IsResolved) (name : String) :
    Advances (liftM (TypeSystem.intern name) : StateM Builder Name) b fun n b' =>
      b'.IsResolved ∧ b'.types.HasName n := by
  have hintern := TypeSystem.intern_keeps hb.valid name
  obtain ⟨-, -, -, -, hname⟩ := hintern.post
  exact ⟨⟨hintern.grows.le, le_refl _, le_refl _⟩, hintern.valid,
    hb.of_le hintern.grows.le hintern.valid, hname⟩

theorem has_localTypes (hb : b.IsResolved) (ls : List LocalId) :
    ∀ ty ∈ b.localTypes ls, b.types.pool.Has ty := by
  intro ty hty
  obtain ⟨l, -, rfl⟩ := List.mem_map.mp hty
  exact hb.locals l

/-- Declarations keep everything resolved, and are resolved themselves. -/
theorem run_isResolved (hb : b.IsResolved) {d : Declaring} (h : d.Admitted b) :
    Advances d.run b fun decl b' => b'.IsResolved ∧ decl.IsResolved b'.types := by
  cases d with
  | field c name type init flags =>
    apply (intern_isResolved hb name).bind
    rintro n b₁ hle - ⟨hb₁, hname⟩
    have htypes : ∀ ty ∈ (MemberKind.field n type).types, b₁.types.pool.Has ty :=
      List.forall_mem_singleton.mpr (h.of_le hle.1.1)
    apply (declareMember_isResolved hb₁ htypes rfl fun _ hn => Option.some.inj hn ▸ hname).bind
    rintro m b₂ - hvalid ⟨hb₂, hm⟩
    exact Advances.get_bind (.pure hvalid ⟨hb₂, hm _ _ rfl⟩)
  | method c name result formals body flags =>
    apply (intern_isResolved hb name).bind
    rintro n b₁ hle - ⟨hb₁, hname⟩
    apply Advances.get_bind
    have htypes : ∀ ty ∈ (MemberKind.method n (b₁.localTypes formals) result []).types,
        b₁.types.pool.Has ty := List.forall_mem_append.mpr
      ⟨has_localTypes hb₁ formals, List.forall_mem_singleton.mpr (h.of_le hle.1.1)⟩
    apply (declareMember_isResolved hb₁ htypes rfl fun _ hn => Option.some.inj hn ▸ hname).bind
    rintro m b₂ - hvalid ⟨hb₂, hm⟩
    exact Advances.get_bind (.pure hvalid ⟨hb₂, hm _ _ rfl⟩)
  | constructor c formals body =>
    apply Advances.get_bind
    have htypes : ∀ ty ∈ (MemberKind.constructor (b.localTypes formals) []).types,
        b.types.pool.Has ty := has_localTypes hb formals
    apply (declareMember_isResolved hb htypes rfl fun _ hn => nomatch hn).bind
    rintro m b₁ - hvalid ⟨hb₁, hm⟩
    exact Advances.get_bind (.pure hvalid ⟨hb₁, hm _ _ rfl⟩)

end Declaring

/-! ### Assembling -/

/-- A builder and the declarations that it has made. Between requests the type system may go on in any
way that keeps what is there. -/
inductive Assembled : Builder → List MemberDecl → Prop
  | start {ts : TypeSystem} {span : Span} : ts.Valid → ts.pool.Has .string →
      Assembled ⟨ts, {}, span⟩ []
  | request {b : Builder} {ds : List MemberDecl} {r : Request} : Assembled b ds → r.Admitted b →
      Assembled (r.run b).2 ds
  | declare {b : Builder} {ds : List MemberDecl} {d : Declaring} : Assembled b ds →
      d.Admitted b → Assembled (d.run b).2 ((d.run b).1 :: ds)
  | extend {b : Builder} {ds : List MemberDecl} {us : TypeSystem} : Assembled b ds →
      b.types ≤ us → us.Valid → Assembled { b with types := us } ds

namespace Assembled

theorem requests {rs : List Request} (h : Assembled b ds) (hrs : Request.AllAdmitted b rs) :
    Assembled (rs.foldl (fun b r => (r.run b).2) b) ds := by
  induction rs generalizing b with
  | nil => exact h
  | cons r rs ih => exact ih (h.request hrs.1) hrs.2

/-- Everything that was built and declared is resolved. -/
theorem isResolved (h : Assembled b ds) : b.IsResolved ∧ ∀ d ∈ ds, d.IsResolved b.types := by
  induction h with
  | start hts hstring => exact ⟨isResolved_empty hts hstring _, fun _ hd => nomatch hd⟩
  | request _ hr ih =>
    obtain ⟨hb, hds⟩ := ih
    have hrun := Request.run_isResolved hb hr
    exact ⟨hrun.post, fun d hd => (hds d hd).of_le hrun.le.1⟩
  | declare _ hd ih =>
    obtain ⟨hb, hds⟩ := ih
    have hrun := Declaring.run_isResolved hb hd
    refine ⟨hrun.post.1, List.forall_mem_cons.mpr ⟨hrun.post.2, fun d hd => ?_⟩⟩
    exact (hds d hd).of_le hrun.le.1
  | extend _ hle hus ih =>
    obtain ⟨hb, hds⟩ := ih
    exact ⟨hb.of_le hle hus, fun d hd => (hds d hd).of_le hle⟩

/-- A unit with nodes of the builder and declarations that it made is resolved. -/
theorem unit_isResolved (h : Assembled b ds) {classes : List ClassDecl}
    (hclasses : ∀ c ∈ classes, ∀ d ∈ c.members, d ∈ ds) :
    CompilationUnit.IsResolved ⟨b.arena, classes⟩ b.types := by
  obtain ⟨hb, hds⟩ := h.isResolved
  constructor
  case mentions => exact fun _ => hb.sound.mentions trivial
  case types => exact fun _ => hb.sound.types trivial
  case declared => exact fun c hc d hd => hds d (hclasses c hc d hd)

end Assembled

end Builder

end Erasure
