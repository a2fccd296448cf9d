/-
Receivers of calls and field accesses.

A call through an expression gets its container for a receiver exactly if the method found is static. A
request through a type keeps that receiver, whatever is found: a static call may be one of an instance
method, and a static field access one of an instance field. The main statements:

* `field_run`, `call_run`: a field access or call adds one node for the member that a lookup finds, or
  fails with the lookup and adds none.
* `Continues.grows`: whatever else is asked of the builder, the node stays as it is.
* `Assembled.receivers_match`: so in every run the receiver of each node is as described.
-/
import Erasure.Proofs.Canonical.Session
import Erasure.Proofs.Strings.Replacement
import Erasure.Proofs.Tree.Assembly

namespace Erasure

/-- The receiver is a type. -/
def Receiver.IsType : Receiver → Prop
  | type _ => True
  | expr _ => False

namespace Builder

/-! ### Operations that only add nodes -/

section AppendsOnly

variable {α β : Type}

/-- The operation leaves all nodes that are there as they are. -/
def AppendsOnly (act : StateM Builder α) : Prop := ∀ b : Builder, b.arena.Grows (act b).2.arena

namespace AppendsOnly

variable {act : StateM Builder α}

theorem of_pure (a : α) : AppendsOnly (pure a : StateM Builder α) := fun b => .refl b.arena

theorem bind {f : α → StateM Builder β} (h : AppendsOnly act) (hf : ∀ a, AppendsOnly (f a)) :
    AppendsOnly (act >>= f) := fun b => (h b).trans (hf _ _)

theorem get_bind {f : Builder → StateM Builder β} (h : ∀ b, AppendsOnly (f b)) :
    AppendsOnly ((get : StateM Builder Builder) >>= f) := fun b => h b b

theorem discard (h : AppendsOnly act) : AppendsOnly (Functor.discard act) := h

/-- Work on the type system leaves the arena alone. -/
theorem of_types (act : StateM TypeSystem α) : AppendsOnly (liftM act : StateM Builder α) :=
  fun b => .refl b.arena

/-! Operations that can fail. -/

theorem run_bind {act : BuildM α} {f : α → BuildM β} (h : AppendsOnly act.run)
    (hf : ∀ a, AppendsOnly (f a).run) : AppendsOnly (act >>= f).run := by
  refine bind (f := ExceptT.bindCont f) h fun x => ?_
  cases x with
  | ok a => exact hf a
  | error e => exact of_pure _

theorem run_get_bind {f : Builder → BuildM β} (h : ∀ b, AppendsOnly (f b).run) :
    AppendsOnly (get >>= f : BuildM β).run := fun b => h b b

theorem run_lift (h : AppendsOnly act) : AppendsOnly (liftM act : BuildM α).run := h

theorem run_throw (e : TreeError) : AppendsOnly (throw e : BuildM α).run := of_pure _

theorem run_mapM {f : α → BuildM β} (h : ∀ a, AppendsOnly (f a).run) (as : List α) :
    AppendsOnly (as.mapM f).run := by
  induction as with
  | nil => exact of_pure _
  | cons a as ih =>
    rw [List.mapM_cons]
    exact run_bind (h a) fun _ => run_bind ih fun _ => of_pure _

end AppendsOnly

open AppendsOnly

theorem newExpr_appendsOnly (kind : ExprKind) (type : TypeId) : AppendsOnly (newExpr kind type) :=
  fun b => grows_addExpr b.arena ⟨kind, type, b.span⟩

theorem newStmt_appendsOnly (kind : StmtKind) : AppendsOnly (newStmt kind) := by
  intro b
  have hsize := Arena.size_addStmt b.arena ⟨kind, b.span⟩
  refine ⟨fun {n} hn => ?_, fun {n} hn => ?_⟩
  · cases n with
    | expr e => exact hn
    | stmt s => exact Nat.lt_of_lt_of_le hn (hsize ▸ Nat.le_succ _)
  · cases n with
    | expr e => rfl
    | stmt s => exact (Arena.stmt_addStmt b.arena ⟨kind, b.span⟩ s).trans (if_neg (Nat.ne_of_lt hn))

theorem newLocal_appendsOnly (name : String) (type : TypeId) (flags : LocalFlags) :
    AppendsOnly (newLocal name type flags) :=
  (of_types _).bind fun _ _ => ⟨id, fun {n} _ => by cases n <;> rfl⟩

theorem newLocalDecl_appendsOnly (name : String) (type : TypeId) (init : Option ExprId)
    (flags : LocalFlags) : AppendsOnly (newLocalDecl name type init flags) :=
  (newLocal_appendsOnly name type flags).bind fun _ => (newStmt_appendsOnly _).bind fun _ =>
    of_pure _

theorem tempSsa_appendsOnly (name : String) (init : Option ExprId) :
    AppendsOnly (tempSsa name init).run := by
  cases init with
  | none => exact run_throw _
  | some e =>
    intro b
    exact newLocalDecl_appendsOnly name (b.arena.expr e).type (some e)
      { isFinal := true, isTemp := true, isSsa := true } { b with span := (b.arena.expr e).span }

theorem lookup_appendsOnly (act : LookupM α) : AppendsOnly (lookup act).run := by
  refine run_bind (run_lift (of_types act.run)) fun x => ?_
  cases x with
  | ok a => exact of_pure _
  | error e => exact run_throw _

theorem requireBoolean_appendsOnly (context : String) (e : ExprId) :
    AppendsOnly (requireBoolean context e).run := by
  refine run_get_bind fun b => ?_
  split
  · exact of_pure _
  · exact run_throw _

theorem requireReference_appendsOnly (ty : TypeId) : AppendsOnly (requireReference ty).run := by
  refine run_get_bind fun b => ?_
  dsimp only
  split
  · exact of_pure _
  · exact run_throw _

theorem field_appendsOnly (receiver : Receiver) (name : String) :
    AppendsOnly (field receiver name).run :=
  run_get_bind fun _ => run_bind (lookup_appendsOnly _) fun _ => run_get_bind fun _ =>
    newExpr_appendsOnly _ _

theorem call_appendsOnly (receiver : Receiver) (container : TypeId) (name : String)
    (args : List ExprId) : AppendsOnly (call receiver container name args).run :=
  run_get_bind fun _ => run_bind (lookup_appendsOnly _) fun _ => run_get_bind fun _ =>
    newExpr_appendsOnly _ _

theorem newObject_appendsOnly (ty : TypeId) (outer : Option ExprId) (args : List ExprId) :
    AppendsOnly (newObject ty outer args).run := by
  refine run_get_bind fun b => ?_
  dsimp only
  split
  · exact run_bind (lookup_appendsOnly _) fun _ => newExpr_appendsOnly _ _
  · exact run_throw _

theorem newArray_appendsOnly (elem : TypeId) (elems : List ExprId) :
    AppendsOnly (newArray elem elems) := (of_types _).bind fun _ => newExpr_appendsOnly _ _

theorem newString_appendsOnly (text : String) : AppendsOnly (newString text).run :=
  run_bind (run_mapM (fun _ => run_lift (newExpr_appendsOnly _ _)) _) fun _ =>
    run_bind (run_lift (newArray_appendsOnly _ _)) fun _ => newObject_appendsOnly _ _ _

theorem arrayAccess_appendsOnly (base index : ExprId) (guarded : Bool) :
    AppendsOnly (arrayAccess base index guarded).run := by
  refine run_get_bind fun b => ?_
  split
  · exact newExpr_appendsOnly _ _
  · exact run_throw _

theorem evalAssign_appendsOnly (target value : ExprId) :
    AppendsOnly (evalAssign target value).run := by
  refine run_get_bind fun b => ?_
  dsimp only
  split
  · exact run_bind (run_lift (newExpr_appendsOnly _ _)) fun _ => newStmt_appendsOnly _
  · exact run_throw _

/-- Nothing that is asked of a builder changes a node. -/
theorem Request.run_appendsOnly (r : Request) : AppendsOnly r.run := by
  have hexpr := newExpr_appendsOnly
  have hstmt := newStmt_appendsOnly
  cases r with
  | setSpan span => exact fun b => .refl b.arena
  | newLocal name type flags => exact newLocal_appendsOnly name type flags
  | tempVar name type init => exact newLocalDecl_appendsOnly name type init _
  | tempSsa name init => exact tempSsa_appendsOnly name init
  | localVar l => exact discard (get_bind fun _ => hexpr _ _)
  | field receiver name => exact field_appendsOnly receiver name
  | staticField container name => exact field_appendsOnly _ name
  | call receiver container name args => exact call_appendsOnly receiver container name args
  | staticCall container name args => exact call_appendsOnly _ container name args
  | constructorCall kind container args =>
    exact discard (run_get_bind fun _ => run_bind (lookup_appendsOnly _) fun _ => run_lift (hstmt _))
  | newObject ty outer args => exact newObject_appendsOnly ty outer args
  | newArray elem elems => exact newArray_appendsOnly elem elems
  | newString text => exact newString_appendsOnly text
  | classLiteral ty => exact run_bind (requireReference_appendsOnly ty) fun _ => hexpr _ _
  | instanceOf e target => exact run_bind (requireReference_appendsOnly target) fun _ => hexpr _ _
  | sequence stmts value => exact discard (get_bind fun _ => hexpr _ _)
  | not e => exact run_bind (requireBoolean_appendsOnly _ e) fun _ => hexpr _ _
  | condOr left right =>
    exact run_bind (requireBoolean_appendsOnly _ left) fun _ =>
      run_bind (requireBoolean_appendsOnly _ right) fun _ => hexpr _ _
  | arrayAccess base index guarded => exact arrayAccess_appendsOnly base index guarded
  | stringLit text => exact discard ((of_types _).bind fun _ => hexpr _ _)
  | evalAssign target value => exact evalAssign_appendsOnly target value
  | branch cond onTrue onFalse =>
    exact run_bind (requireBoolean_appendsOnly _ cond) fun _ => hstmt _
  | throwNew ty args => exact run_bind (newObject_appendsOnly ty none args) fun _ => hstmt _
  | cast _ _ | self _ | charLit _ | intLit _ | boolLit _ | nullLit | sourceExpr _ _ => exact hexpr _ _
  | eval _ | block _ | sourceStmt _ => exact hstmt _

theorem Declaring.run_appendsOnly (d : Declaring) : AppendsOnly d.run := by
  cases d <;> exact fun b => .refl b.arena

end AppendsOnly

/-! ### Runs -/

/-- A builder that another becomes when it is asked, or declares, or its type system goes on. -/
inductive Continues (b : Builder) : Builder → Prop
  | refl : Continues b b
  | request {c : Builder} {r : Request} : Continues b c → r.Admitted c → Continues b (r.run c).2
  | declare {c : Builder} {d : Declaring} : Continues b c → d.Admitted c → Continues b (d.run c).2
  | extend {c : Builder} {us : TypeSystem} : Continues b c → c.types ≤ us → us.Valid →
      Continues b { c with types := us }

variable {b c : Builder} {ds : List MemberDecl}

/-- Nodes stay as they are, and so does the type system as far as it went. -/
theorem Continues.grows (h : Continues b c) (hb : b.IsResolved) :
    c.IsResolved ∧ b.types ≤ c.types ∧ b.arena.Grows c.arena := by
  -- That everything is resolved is carried along because only then does a request keep the types.
  induction h with
  | refl => exact ⟨hb, le_refl _, .refl _⟩
  | @request c r _ hr ih =>
    obtain ⟨hc, hle, hgrows⟩ := ih
    have hrun := Request.run_isResolved hc hr
    exact ⟨hrun.post, le_trans hle hrun.le.1, hgrows.trans (r.run_appendsOnly c)⟩
  | @declare c d _ hd ih =>
    obtain ⟨hc, hle, hgrows⟩ := ih
    have hrun := Declaring.run_isResolved hc hd
    exact ⟨hrun.post.1, le_trans hle hrun.le.1, hgrows.trans (d.run_appendsOnly c)⟩
  | extend _ hle' hus ih =>
    obtain ⟨hc, hle, hgrows⟩ := ih
    exact ⟨hc.of_le hle' hus, le_trans hle hle', hgrows⟩

/-! ### Nodes for members -/

/-- The request is answered as the lookup of a member is: by a new node for the member that is found,
or by the error of the lookup and without a node. -/
structure FollowsLookup (act : BuildM ExprId) (b : Builder) (find : LookupM MemberId)
    (node : TypeSystem → MemberId → ExprKind) : Prop where
  found : ∀ {m us}, find.run b.types = (.ok m, us) → ∃ type, act.run b =
    (.ok ⟨b.arena.exprs.size⟩,
      { b with types := us, arena := (Arena.addExpr ⟨node us m, type, b.span⟩ b.arena).2 })
  failed : ∀ {e us}, find.run b.types = (.error e, us) →
    act.run b = (.error (.lookup e), { b with types := us })

section

variable {α : Type} {act : LookupM α} {us : TypeSystem}

theorem lift_lookup_apply (act : LookupM α) (b : Builder) :
    (liftM act.run : StateM Builder (Except LookupError α)) b =
      ((act.run b.types).1, { b with types := (act.run b.types).2 }) := rfl

theorem lookup_run_ok {a : α} (h : act.run b.types = (.ok a, us)) :
    (lookup act).run b = (.ok a, { b with types := us }) := by
  rw [lookup, run_lift_bind_apply, lift_lookup_apply, h]
  rfl

theorem lookup_bind_run_error {β : Type} {f : α → BuildM β} {e : LookupError}
    (h : act.run b.types = (.error e, us)) :
    (lookup act >>= f).run b = (.error (.lookup e), { b with types := us }) := by
  have herror : (lookup act).run b = (.error (.lookup e), { b with types := us }) := by
    rw [lookup, run_lift_bind_apply, lift_lookup_apply, h]
    rfl
  rw [run_bind_apply, herror]
  rfl

end

/-- The node of a call. A static method is called on the container, whatever the receiver is. -/
def callNode (receiver : Receiver) (container : TypeId) (args : List ExprId) (ts : TypeSystem)
    (m : MemberId) : ExprKind :=
  .call (if classify ts m container = .static then .type container else receiver) m args
    (classify ts m container)

/-- A field access follows the lookup of the field. -/
theorem field_run (receiver : Receiver) (name : String) (b : Builder) :
    FollowsLookup (field receiver name) b (TypeSystem.findField (b.receiverType receiver) name)
      fun _ m => .field receiver m where
  found h := by
    unfold field
    rw [run_get_bind_apply, run_bind_of_ok (lookup_run_ok h), run_get_bind_apply]
    exact ⟨_, rfl⟩
  failed h := by
    unfold field
    rw [run_get_bind_apply]
    exact lookup_bind_run_error h

/-- A call follows the lookup of the method. -/
theorem call_run (receiver : Receiver) (container : TypeId) (name : String) (args : List ExprId)
    (b : Builder) :
    FollowsLookup (call receiver container name args) b
      (TypeSystem.findMethod container name (args.map b.typeOf))
      (callNode receiver container args) where
  found h := by
    unfold call
    rw [run_get_bind_apply, run_bind_of_ok (lookup_run_ok h), run_get_bind_apply]
    exact ⟨_, rfl⟩
  failed h := by
    unfold call
    rw [run_get_bind_apply]
    exact lookup_bind_run_error h

/-- If the request is met, then the lookup has found the member that the new node is for. -/
theorem FollowsLookup.of_ok {act : BuildM ExprId} {find : LookupM MemberId}
    {node : TypeSystem → MemberId → ExprKind} (h : FollowsLookup act b find node) {e : ExprId}
    (hact : act.run b = (.ok e, c)) :
    ∃ m, find.run b.types = (.ok m, c.types) ∧ (c.arena.expr e).kind = node c.types m := by
  cases hfind : find.run b.types with
  | mk found us =>
    cases found with
    | error err =>
      rw [h.failed hfind] at hact
      cases hact
    | ok m =>
      obtain ⟨type, hnode⟩ := h.found hfind
      rw [hnode] at hact
      cases hact
      exact ⟨m, rfl, congrArg Expr.kind ((Arena.expr_addExpr b.arena _ _).trans (if_pos rfl))⟩

theorem classify_eq_static_iff {ts : TypeSystem} {m : MemberId} {container : TypeId} :
    classify ts m container = .static ↔ (ts.member m).flags.isStatic = true := by
  unfold classify
  dsimp only
  split
  case isTrue hstatic => exact iff_of_true rfl hstatic
  case isFalse hstatic =>
    refine iff_of_false ?_ hstatic
    split_ifs <;> nofun

/-! ### Receivers -/

/-- The request is answered as the lookup of a member is. Of the node for the member that is found `Q`
holds in all that follows. If the lookup fails then so does the request, and there is no new node. -/
structure Answered (act : BuildM ExprId) (b : Builder) (find : LookupM MemberId)
    (Q : Builder → ExprId → MemberId → Prop) : Prop where
  found : ∀ {m}, (find.run b.types).1 = .ok m →
    ∃ e b', act.run b = (.ok e, b') ∧ ∀ c, Continues b' c → Q c e m
  failed : ∀ {e}, (find.run b.types).1 = .error e →
    act.run b = (.error (.lookup e), { b with types := (find.run b.types).2 })

/-- The node stays in all that follows, and names a member of the form that was looked for. -/
theorem FollowsLookup.answered {act : BuildM ExprId} {find : LookupM MemberId}
    {node : TypeSystem → MemberId → ExprKind} {form : MemberForm}
    {Q : Builder → ExprId → MemberId → Prop} (h : FollowsLookup act b find node)
    (hrun : (act.run b).2.IsResolved) (hfind : TypeSystem.FindsView form find b.types)
    (hQ : ∀ {us m c e}, (c.arena.expr e).kind = node us m → c.types.member m = us.member m →
      (c.types.member m).kind.form = form → Q c e m) : Answered act b find Q where
  failed he := h.failed (Prod.ext he rfl)
  found {m} hm := by
    generalize hus : (find.run b.types).2 = us
    obtain ⟨type, hact⟩ := h.found (Prod.ext hm hus)
    rw [hact] at hrun
    refine ⟨_, _, hact, fun c hc => ?_⟩
    obtain ⟨-, hle, hgrows⟩ := hc.grows hrun
    have hview : us.IsViewOf form m := hus ▸ hfind.post m hm
    have hhas := hview.view.hasMember hrun.valid
    have hmember : c.types.member m = us.member m := TypeSystem.member_of_le hle hhas
    have hnew : (Arena.addExpr ⟨node us m, type, b.span⟩ b.arena).2.Has (.expr ⟨b.arena.exprs.size⟩) :=
      Nat.lt_of_lt_of_eq (Nat.lt_succ_self _) (Arena.size_addExpr b.arena _).symm
    have hexpr : c.arena.expr ⟨b.arena.exprs.size⟩ = ⟨node us m, type, b.span⟩ :=
      Eq.trans (hgrows.same hnew) ((Arena.expr_addExpr b.arena _ _).trans (if_pos rfl))
    exact hQ (congrArg Expr.kind hexpr) hmember (hmember ▸ hview.form_eq)

/-- Whatever a builder is asked before and after, a call through an expression has a type for its
receiver exactly if it calls a static method. A request through a type has this type for its receiver:
the call that it makes is static exactly if the method that is found is, and the field is the one that
is found. A request fails exactly if the lookup does, and then makes no node. -/
theorem Assembled.receivers_match (h : Assembled b ds) {container : TypeId}
    (hcontainer : b.types.pool.Has container) (name : String) :
    (∀ object args, Answered (call (.expr object) container name args) b
      (TypeSystem.findMethod container name (args.map b.typeOf)) fun c e m =>
        ∃ receiver dispatch, (c.arena.expr e).kind = .call receiver m args dispatch ∧
          (receiver.IsType ↔ dispatch = .static) ∧
          (dispatch = .static ↔ (c.types.member m).flags.isStatic = true)) ∧
    (∀ args, Answered (staticCall container name args) b
      (TypeSystem.findMethod container name (args.map b.typeOf)) fun c e m =>
        ∃ dispatch, (c.arena.expr e).kind = .call (.type container) m args dispatch ∧
          (dispatch = .static ↔ (c.types.member m).flags.isStatic = true)) ∧
    Answered (staticField container name) b (TypeSystem.findField container name) fun c e m =>
      (c.arena.expr e).kind = .field (.type container) m ∧
        (c.types.member m).kind.form = .field := by
  have hb := h.isResolved.1
  have hvalid := hb.valid
  refine ⟨fun object args => ?_, fun args => ?_, ?_⟩
  · have hrun := Request.run_isResolved hb (r := .call (.expr object) container name args) hcontainer
    refine (call_run _ container name args b).answered hrun.post
      (TypeSystem.findMethod_keeps hvalid hcontainer name _) fun {us m c e} hnode hmember _ => ?_
    refine ⟨_, _, hnode, ?_, hmember.symm ▸ classify_eq_static_iff⟩
    split
    case isTrue hstatic => exact iff_of_true trivial hstatic
    case isFalse hstatic => exact iff_of_false id hstatic
  · have hrun := Request.run_isResolved hb (r := .staticCall container name args) hcontainer
    refine (call_run _ container name args b).answered hrun.post
      (TypeSystem.findMethod_keeps hvalid hcontainer name _) fun {us m c e} hnode hmember _ => ?_
    rw [callNode, ite_self] at hnode
    exact ⟨_, hnode, hmember.symm ▸ classify_eq_static_iff⟩
  · have hrun := Request.run_isResolved hb (r := .staticField container name) hcontainer
    exact (field_run _ name b).answered hrun.post
      (TypeSystem.findField_keeps hvalid hcontainer name) fun {us m c e} hnode _ hform => ⟨hnode, hform⟩

/-- A session with a class `M`, which has a field `x` and a method `f`, neither of them static. -/
def instanceSession : Canonicalizer :=
  let s := ((Canonicalizer.fresh .initial).declared (.declareClass "M" {})).asked (.intern "x")
  let s := (s.declared (.declareMember ⟨2⟩ (.field ⟨10⟩ Primitive.int.typeId) {})).asked (.intern "f")
  s.declared (.declareMember ⟨2⟩ (.method ⟨11⟩ [] Primitive.void.typeId []) {})

theorem instanceSession_reachable : Canonicalizer.Reachable instanceSession := by
  suffices h : _ ∧ _ by
    exact .declare _ (.ask _ (.declare _ (.ask _ (.declare _ .initial trivial) trivial) h.1) trivial) h.2
  unfold TypeSystem.Declaration.Admitted
  decide +kernel

/-- A builder for the session. -/
def instanceBuilder : Builder := ⟨instanceSession.types, {}, .generated⟩

theorem instanceBuilder_assembled : instanceBuilder.Assembled [] := by
  unfold instanceBuilder
  exact .start instanceSession_reachable.valid.types (by decide +kernel)

/-- The method is called through the type `M`, but the call is not static; and the field is accessed
through the type, but is none of its static fields. -/
theorem receivers_match_instance :
    (∃ e b' dispatch, (staticCall ⟨13⟩ "f" []).run instanceBuilder = (.ok e, b') ∧
      (b'.arena.expr e).kind = .call (.type ⟨13⟩) ⟨16⟩ [] dispatch ∧ dispatch ≠ .static) ∧
    ∃ e b', (staticField ⟨13⟩ "x").run instanceBuilder = (.ok e, b') ∧
      (b'.arena.expr e).kind = .field (.type ⟨13⟩) ⟨15⟩ ∧
      (b'.types.member ⟨15⟩).flags.isStatic = false := by
  have hassembled := instanceBuilder_assembled
  have hfacts : instanceBuilder.types.pool.Has ⟨13⟩ ∧
      ((TypeSystem.findMethod ⟨13⟩ "f" []).run instanceBuilder.types).1 = .ok ⟨16⟩ ∧
      ((TypeSystem.findField ⟨13⟩ "x").run instanceBuilder.types).1 = .ok ⟨15⟩ ∧
      (((staticCall ⟨13⟩ "f" []).run instanceBuilder).2.types.member ⟨16⟩).flags.isStatic = false ∧
      (((staticField ⟨13⟩ "x").run instanceBuilder).2.types.member ⟨15⟩).flags.isStatic = false := by
    decide +kernel
  generalize instanceBuilder = b at hassembled hfacts ⊢
  obtain ⟨hM, hf, hx, hcalled, haccessed⟩ := hfacts
  constructor
  · obtain ⟨-, hcall, -⟩ := hassembled.receivers_match hM "f"
    obtain ⟨e, b', hrun, hnode⟩ := (hcall []).found hf
    obtain ⟨dispatch, hkind, hstatic⟩ := hnode b' .refl
    rw [hrun] at hcalled
    refine ⟨e, b', dispatch, hrun, hkind, fun h => ?_⟩
    exact Bool.false_ne_true (hcalled.symm.trans (hstatic.mp h))
  · obtain ⟨-, -, haccess⟩ := hassembled.receivers_match hM "x"
    obtain ⟨e, b', hrun, hnode⟩ := haccess.found hx
    rw [hrun] at haccessed
    exact ⟨e, b', hrun, (hnode b' .refl).1, haccessed⟩

end Builder

end Erasure
