/-
What desugaring leaves alone.

Desugaring overwrites string forms in their places and appends new expressions. Nothing else
changes, and what it leaves behind has nothing left to do. The main statements:

* `desugar_leaves_statements`: statements and locals stay as they are, also after a failure.
* `desugar_of_settled`: where no string forms are left desugaring changes nothing.
* `desugar_frame`: the nodes that desugaring replaces, what becomes of them, and that nothing is
  left for another desugaring.
* `desugar_retypes`: an addition need not be replaced by a string.
-/
import Erasure.Proofs.Strings.Desugared
import Erasure.Proofs.Strings.StringClass
import Erasure.Proofs.Canonical.Session

namespace Erasure

open TypeSystem (Between initial stringConcat)

/-- What a lookup finds is a member of the type system. -/
theorem TypeSystem.hasMember_of_findMethod {us vs : TypeSystem} (hus : us.Valid)
    {container : TypeId} (hty : us.pool.Has container) {name : String} {args : List TypeId}
    {m : MemberId} (h : (findMethod container name args).run us = (.ok m, vs)) :
    vs.Valid ∧ vs.HasMember m := by
  have hkeeps := findMethod_keeps hus hty name args
  obtain rfl : ((findMethod container name args).run us).2 = vs := congrArg Prod.snd h
  exact ⟨hkeeps.valid, (hkeeps.post m (congrArg Prod.fst h)).view.hasMember hkeeps.valid⟩

/-! ### Statements and locals -/

/-- The parts of an arena that hold no expressions. -/
def Arena.frame (a : Arena) : Array Stmt × Array LocalDef := (a.stmts, a.locals)

namespace Builder

/-- The operation leaves statements and locals alone. -/
abbrev LeavesFrame {α : Type} (act : StateM Builder α) : Prop :=
  Leaves (fun b : Builder => b.arena.frame) act

theorem leavesFrame_types {α : Type} (act : StateM TypeSystem α) :
    LeavesFrame (liftM act : StateM Builder α) := fun _ => rfl

theorem leavesFrame_newExpr (kind : ExprKind) (type : TypeId) : LeavesFrame (newExpr kind type) :=
  fun _ => rfl

theorem leavesFrame_lookup {α : Type} (act : LookupM α) : LeavesFrame (lookup act).run := by
  refine Leaves.run_bind (leavesFrame_types act.run) fun x => ?_
  cases x with
  | ok a => exact .pure _
  | error e => exact .pure _

theorem leavesFrame_call (receiver : Receiver) (container : TypeId) (name : String)
    (args : List ExprId) : LeavesFrame (call receiver container name args).run :=
  Leaves.run_get_bind fun _ => Leaves.run_bind (leavesFrame_lookup _) fun _ =>
    Leaves.run_get_bind fun _ => leavesFrame_newExpr _ _

theorem leavesFrame_newObject (ty : TypeId) (outer : Option ExprId) (args : List ExprId) :
    LeavesFrame (newObject ty outer args).run := by
  refine Leaves.run_get_bind fun b => ?_
  dsimp only
  split
  · exact Leaves.run_bind (leavesFrame_lookup _) fun _ => leavesFrame_newExpr _ _
  · exact .pure _

theorem leavesFrame_newString (text : String) : LeavesFrame (newString text).run := by
  refine Leaves.run_bind (Leaves.run_mapM _ fun unit => leavesFrame_newExpr _ _) fun units => ?_
  refine Leaves.run_bind (?_ : LeavesFrame (newArray _ units)) fun array =>
    leavesFrame_newObject _ _ _
  exact (leavesFrame_types _).bind fun _ => leavesFrame_newExpr _ _

end Builder

namespace StringForm

open Builder (LeavesFrame)

variable {ts ts' us : TypeSystem} {u u' : CompilationUnit} {s : Editing StringCounts}
  {n : NodeId} {e : ExprId} {counts : StringCounts}

theorem leavesFrame_promote (e : ExprId) : LeavesFrame (promote e).run := by
  refine Leaves.run_get_bind fun b => ?_
  dsimp only
  split
  · exact .pure _
  · split
    · exact Builder.leavesFrame_newString _
    · exact Builder.leavesFrame_call _ _ _ _
    · exact Builder.leavesFrame_call _ _ _ _

theorem leavesFrame_replacement (form : StringForm) : LeavesFrame (replacement form).run := by
  cases form with
  | literal text => exact Leaves.run_get_bind fun _ => Builder.leavesFrame_newString _
  | concatenation left right =>
    exact Leaves.run_bind (leavesFrame_promote left) fun _ =>
      Leaves.run_bind (leavesFrame_promote right) fun _ => Builder.leavesFrame_call _ _ _ _

/-- The editing leaves statements and locals alone. -/
abbrev EditsExpressions {α : Type} (act : EditM StringCounts α) : Prop :=
  Leaves (fun s : Editing StringCounts => s.builder.arena.frame) act.run

theorem editsExpressions_leave (id : ExprId) : EditsExpressions (editor.leave id) := by
  refine Leaves.run_bind (fun _ => rfl) fun _ => Leaves.run_bind (fun _ => rfl) fun _ => ?_
  have hreplace : LeavesFrame (editor.replace id).run := by
    refine Leaves.run_get_bind fun b => ?_
    cases ofExpr? b.arena id with
    | none => exact .pure _
    | some form => exact Leaves.run_bind (leavesFrame_replacement form) fun _ => .pure _
  refine Leaves.run_bind (fun s => hreplace s.builder) fun x => ?_
  cases x with
  | none => exact .pure _
  | some replacement => exact fun _ => rfl

theorem editsExpressions_editWithin (depth : Nat) (n : NodeId) :
    EditsExpressions (editor.editWithin depth n) := by
  induction depth generalizing n with
  | zero => exact .pure _
  | succ depth ih =>
    refine Leaves.run_get_bind fun _ => Leaves.run_bind (Leaves.run_forM _ ih) fun _ => ?_
    cases n with
    | expr id => exact editsExpressions_leave id
    | stmt _ => exact .pure _

/-- Statements and locals stay as they are, also after a failure. -/
theorem desugar_leaves_statements (ts : TypeSystem) (u : CompilationUnit) :
    (desugar ts u).2.2.arena.stmts = u.arena.stmts ∧
      (desugar ts u).2.2.arena.locals = u.arena.locals := by
  have h : EditsExpressions (editor.editAll u.roots) :=
    Leaves.run_get_bind fun _ => Leaves.run_forM _ (editsExpressions_editWithin _)
  exact ⟨congrArg Prod.fst (h (start ts u)), congrArg Prod.snd (h (start ts u))⟩

/-! ### Nothing to do -/

/-- The editing has changed nothing so far. -/
structure Idle (ts : TypeSystem) (u : CompilationUnit) (s : Editing StringCounts) : Prop where
  arena : s.builder.arena = u.arena
  types : s.builder.types = ts
  log : s.log = {}

/-- Where no string forms are left the editor has nothing to do. -/
theorem editor_idles (h : ∀ n, u.HasNode n → u.arena.Settled n) :
    editor.Establishes False u (Idle ts u) (fun s n => s.builder.arena.Settled n)
      (fun s n => s.builder.arena.Settled n) := by
  have hleave : ∀ {s id}, Idle ts u s → s.builder.arena.Settled (.expr id) →
      Ends False (editor.leave id) s fun _ t => Idle ts u t ∧ t.builder.arena = s.builder.arena :=
    fun hs hid => (leave_keep hid.stringForm?).mono fun _ t ⟨harena, htypes, hlog⟩ =>
      ⟨⟨harena.trans hs.arena, htypes.trans hs.types, hlog.trans hs.log⟩, harena⟩
  refine ⟨fun hs hn => .inl (hs.arena ▸ h _ hn), id, fun hn hc => hn.child hc,
    fun hs hn _ _ => hs.arena ▸ h _ hn, ?_, ?_⟩
  · exact fun hs hid => (hleave hs hid).mono fun _ t ⟨ht, harena⟩ =>
      ⟨ht, fun hn => harena ▸ hn, fun hn => harena ▸ hn⟩
  · intro s id hs hn _ _
    have hid : s.builder.arena.Settled (.expr id) := hs.arena ▸ h _ hn
    exact (hleave hs hid).mono fun _ t ⟨ht, harena⟩ =>
      ⟨ht, ⟨fun hn => harena ▸ hn, fun hn => harena ▸ hn⟩, harena ▸ hid⟩

/-- Where no string forms are left desugaring changes nothing. -/
theorem desugar_of_settled (h : ∀ n ∈ u.roots, u.arena.Settled n) :
    desugar ts u = (.ok {}, ts, u) := by
  have hsettled : ∀ n, u.HasNode n → u.arena.Settled n := fun n hn => by
    obtain ⟨r, hr, hleads⟩ := hn.exists_root
    exact (h r hr).of_leads hleads
  have hends : Ends False (editor.editAll u.roots) (start ts u) fun _ t => Idle ts u t :=
    (Editor.editAll_clear (editor_idles hsettled) ⟨rfl, rfl, rfl⟩ h).mono fun _ _ ht => ht.1
  obtain ⟨a, ha⟩ := hends.exists_ok
  have hidle := hends.of_ok ha
  refine Prod.ext ?_ (Prod.ext hidle.types (congrArg (CompilationUnit.mk · u.classes) hidle.arena))
  rw [desugar_fst, ha, hidle.log]
  rfl

/-! ### What is replaced -/

/-- The expression is a literal of the unit, or an addition of it that has an operand typed as a
string after desugaring. -/
def IsReplaced (u u' : CompilationUnit) (e : ExprId) : Prop :=
  u.HasNode (.expr e) ∧ match (u.arena.expr e).kind with
    | .str _ => True
    | .binary .add left right =>
      (u'.arena.expr left).type = .string ∨ (u'.arena.expr right).type = .string
    | _ => False

/-- Nothing else is replaced, in the trees of the unit or outside them. -/
theorem IsRewritten.expr_eq (h : IsRewritten ts u ts' u') (hhas : u.arena.Has (.expr e))
    (hkept : ¬ IsReplaced u u' e) : u'.arena.expr e = u.arena.expr e := by
  by_cases hn : u.HasNode (.expr e)
  case neg => exact h.others hhas hn
  have hrewritten := h.rewritten hn
  cases hk : (u.arena.expr e).kind with
  | str text =>
    refine absurd ⟨hn, ?_⟩ hkept
    rw [hk]
    trivial
  | binary op left right =>
    cases op with
    | add =>
      have hadd := hrewritten.of_add hk
      rw [if_neg fun hstring => hkept ⟨hn, by rw [hk]; exact hstring⟩] at hadd
      exact hadd
    | _ => exact hrewritten.of_isPlain (hk ▸ trivial)
  | _ => exact hrewritten.of_isPlain (hk ▸ trivial)

/-- The expression calls the method `concat` that a lookup with the type of its argument finds, and
has the type of that method. -/
def CallsConcat (ts ts' : TypeSystem) (a : Arena) (e : ExprId) : Prop :=
  ∃ receiver m arg dispatch us us', Between ts ts' us ∧ Between ts ts' us' ∧
    (TypeSystem.findMethod .string "concat" [(a.expr arg).type]).run us = (.ok m, us') ∧
    (a.expr e).kind = .call receiver m [arg] dispatch ∧ (a.expr e).type = callType ts' m ∧
    (m = stringConcat → (a.expr e).type = .string)

theorem callsConcat_of_isCall {a b : Arena} {span : Span} {receiver : Option LocatedTree}
    {r : LocatedTree} {x : NodeId} {f : Form} {parts : List LocatedTree} (hts : ts.Valid)
    (hle : initial ≤ ts)
    (hcall : IsCall (Between ts ts') a span receiver .string "concat" [r] (.node (x, f) parts))
    (he : b.Reads (.expr e) (.node (.expr e, f) parts)) :
    CallsConcat ts ts' b e ∧ (b.expr e).span = span := by
  obtain ⟨us, m, us', receiver', hus, hus', hfind, -, _, -, hnew⟩ := hcall
  obtain ⟨hlabel, rfl⟩ := RoseTree.node.inj hnew
  obtain rfl := congrArg Prod.snd hlabel
  obtain ⟨k, hk, hbare, hchildren⟩ := he.expr
  obtain ⟨target, arg, rfl, -⟩ := ExprKind.eq_of_bare_call hbare
  -- The argument is the last child, with or without a receiver.
  have harg : b.Reads (.expr arg) r := by
    have hreverse := List.forall₂_reverse_iff.mpr hchildren
    rw [ExprKind.children, List.map_singleton, List.reverse_append, List.reverse_append] at hreverse
    exact (List.forall₂_cons.mp hreverse).1
  rw [List.map_singleton, harg.type_eq] at hfind
  obtain ⟨hvalid, hext⟩ := hus.1 hts
  have hstring : us.pool.Has .string :=
    (TypeSystem.initial_types.1.of_le (le_trans hle hext.le).1).has
  obtain ⟨hvalid', hm⟩ := TypeSystem.hasMember_of_findMethod hvalid hstring hfind
  have hmember : ts'.member m = us'.member m := TypeSystem.member_of_le (hus'.2 hvalid').2.le hm
  refine ⟨⟨target, m, arg, Builder.classify us' m .string, us, us', hus, hus', hfind, ?_, ?_, ?_⟩, ?_⟩
  · rw [hk]
  · rw [hk, callType, callType, hmember]
  · rintro rfl
    rw [hk]
    exact callType_concat (le_trans hle (hus'.1 hts).2.le)
  · rw [hk]

/-- What is replaced keeps its span. A literal is a string then, and an addition calls `concat`. -/
theorem IsRewritten.of_isReplaced (h : IsRewritten ts u ts' u') (hts : ts.Valid) (hle : initial ≤ ts)
    (he : IsReplaced u u' e) : (u'.arena.expr e).span = (u.arena.expr e).span ∧
      (∀ text, (u.arena.expr e).kind = .str text → (u'.arena.expr e).type = .string) ∧
      ∀ left right, (u.arena.expr e).kind = .binary .add left right →
        CallsConcat ts ts' u'.arena e := by
  obtain ⟨hn, he⟩ := he
  have hnode := h.rewritten hn
  cases hk : (u.arena.expr e).kind with
  | str text =>
    obtain ⟨_, _, _, _, -, hspells, hreads⟩ := hnode.of_str hk
    obtain ⟨_, _, _, _, _, _, -, -, -, -, -, -, _, -, hnew⟩ := hspells
    obtain ⟨hlabel, rfl⟩ := RoseTree.node.inj hnew
    obtain rfl := congrArg Prod.snd hlabel
    obtain ⟨k, hk', -, -⟩ := hreads.expr
    rw [hk']
    exact ⟨rfl, fun _ _ => rfl, nofun⟩
  | binary op left right =>
    rw [hk] at he
    cases op with
    | add =>
      have hadd := hnode.of_add hk
      rw [if_pos he] at hadd
      obtain ⟨_, _, _, _, _, hcall, hreads⟩ := hadd
      obtain ⟨hcalls, hspan⟩ := callsConcat_of_isCall hts hle hcall hreads
      exact ⟨hspan, nofun, fun _ _ _ => hcalls⟩
    | _ => exact he.elim
  | _ =>
    rw [hk] at he
    exact he.elim

/-- Desugaring changes nothing but the literals and the additions of strings in the trees of the
unit, and these keep their spans. A literal is a string then. An addition has the type of the
method `concat` that was found, and it is a string if that is the method of the prelude. A
second desugaring finds nothing to do. -/
theorem desugar_frame (hts : ts.Valid) (hle : initial ≤ ts) (hu : u.IsAcyclic)
    (h : desugar ts u = (.ok counts, ts', u')) :
    (∀ e, u.arena.Has (.expr e) → ¬ IsReplaced u u' e → u'.arena.expr e = u.arena.expr e) ∧
      (∀ e, IsReplaced u u' e → (u'.arena.expr e).span = (u.arena.expr e).span ∧
        (∀ text, (u.arena.expr e).kind = .str text → (u'.arena.expr e).type = .string) ∧
        ∀ left right, (u.arena.expr e).kind = .binary .add left right →
          CallsConcat ts ts' u'.arena e) ∧
      u'.arena.stmts = u.arena.stmts ∧ u'.arena.locals = u.arena.locals ∧ u'.classes = u.classes ∧
      desugar ts' u' = (.ok {}, ts', u') := by
  have hrewritten := desugar_isRewritten hu h
  obtain ⟨hstmts, hlocals⟩ := desugar_leaves_statements ts u
  rw [h] at hstmts hlocals
  refine ⟨fun e => hrewritten.expr_eq, fun e => hrewritten.of_isReplaced hts hle, hstmts, hlocals,
    hrewritten.classes_eq, desugar_of_settled fun n hroot => ?_⟩
  have hroots : u.roots = u'.roots := by
    rw [CompilationUnit.roots, CompilationUnit.roots, hrewritten.classes_eq]
  exact (hrewritten.rewritten (.root (hroots ▸ hroot))).settled

/-! ### An addition that does not become a string -/

/-- The session that declares a method `core.Object concat(core.Object)` of the root class and a
class `A` with a method `core.Object toString()`. -/
def retypedSession : Canonicalizer :=
  let s := (Canonicalizer.fresh .initial).declared (.declareClass "A" {})
  let s := (s.asked (.rawClass ⟨2⟩)).declared
    (.declareMember .object (.method TypeSystem.concatName [.object] .object []) {})
  s.declared (.declareMember ⟨2⟩ (.method TypeSystem.toStringName [] .object []) {})

/-- A method body that evaluates the addition of a literal and of the formal, an `A`. -/
def retypedUnit : CompilationUnit where
  arena :=
    { exprs := #[⟨.str ⟨0⟩, .string, .generated⟩, ⟨.localVar ⟨0⟩, ⟨13⟩, .generated⟩,
        ⟨.binary .add ⟨0⟩ ⟨1⟩, .string, .generated⟩]
      stmts := #[⟨.eval ⟨2⟩, .generated⟩]
      locals := #[⟨⟨0⟩, ⟨13⟩, {}⟩] }
  classes := [⟨⟨2⟩, [⟨⟨0⟩, .method [⟨0⟩] (some ⟨0⟩), .generated⟩], .generated⟩]

theorem retypedUnit_isAcyclic : retypedUnit.IsAcyclic := by
  refine CompilationUnit.isAcyclic_of_rank
    (NodeId.rank id (3 + ·)) ?_ ?_ ?_ <;> decide

/-- The type system and the unit after desugaring. -/
def retypedDesugared : TypeSystem × CompilationUnit :=
  (desugar retypedSession.types retypedUnit).2

theorem retypedSession_checked : Canonicalizer.Reachable retypedSession ∧
    (retypedSession.types.classDef .string).members = (initial.classDef .string).members ∧
    (desugar retypedSession.types retypedUnit).1.toOption = some ⟨1, 1⟩ ∧
    (retypedDesugared.2.arena.expr ⟨0⟩).type = .string ∧
    (retypedDesugared.2.arena.expr ⟨2⟩).type = .object := by
  -- The steps and the last state make one goal, so that the prelude is evaluated once.
  suffices h : (_ ∧ _) ∧ _ by
    obtain ⟨⟨h₁, h₂⟩, h⟩ := h
    refine ⟨?_, h⟩
    exact .declare _ (.declare _ (.ask _ (.declare _ .initial trivial) trivial) h₁) h₂
  unfold TypeSystem.Declaration.Admitted
  decide +kernel

theorem retypedDesugared_eq : desugar retypedSession.types retypedUnit =
    (.ok ⟨1, 1⟩, retypedDesugared.1, retypedDesugared.2) := by
  obtain ⟨-, -, hcounts, -⟩ := retypedSession_checked
  rw [retypedDesugared]
  exact desugar_eq hcounts

theorem retypedUnit_isReplaced : IsReplaced retypedUnit retypedDesugared.2 ⟨2⟩ := by
  refine ⟨.child (n := .stmt ⟨0⟩) (.root (by decide)) (by decide), ?_⟩
  exact .inl retypedSession_checked.2.2.2.1

theorem desugar_frame_retyped :
    retypedSession.types.Valid ∧ initial ≤ retypedSession.types ∧ retypedUnit.IsAcyclic ∧
      desugar retypedSession.types retypedUnit =
        (.ok ⟨1, 1⟩, retypedDesugared.1, retypedDesugared.2) ∧
      retypedDesugared.2.arena.expr ⟨1⟩ = ⟨.localVar ⟨0⟩, ⟨13⟩, .generated⟩ ∧
      CallsConcat retypedSession.types retypedDesugared.1 retypedDesugared.2.arena ⟨2⟩ ∧
      desugar retypedDesugared.1 retypedDesugared.2 =
        (.ok {}, retypedDesugared.1, retypedDesugared.2) := by
  have hvalid := retypedSession_checked.1.valid.types
  have hle := retypedSession_checked.1.initial_le
  obtain ⟨hkept, hreplaced, -, -, -, hagain⟩ :=
    desugar_frame hvalid hle retypedUnit_isAcyclic retypedDesugared_eq
  exact ⟨hvalid, hle, retypedUnit_isAcyclic, retypedDesugared_eq, hkept ⟨1⟩ (by decide) (fun h => h.2),
    (hreplaced ⟨2⟩ retypedUnit_isReplaced).2.2 _ _ rfl, hagain⟩

/-- The string class has the members of the prelude only and desugaring succeeds, but an addition
that is replaced has the type of the root class. -/
theorem desugar_retypes :
    Canonicalizer.Reachable retypedSession ∧
      (retypedSession.types.classDef .string).members = (initial.classDef .string).members ∧
      retypedUnit.IsAcyclic ∧
      desugar retypedSession.types retypedUnit =
        (.ok ⟨1, 1⟩, retypedDesugared.1, retypedDesugared.2) ∧
      IsReplaced retypedUnit retypedDesugared.2 ⟨2⟩ ∧
      (retypedDesugared.2.arena.expr ⟨2⟩).type ≠ .string := by
  obtain ⟨hreachable, hmembers, -, -, htype⟩ := retypedSession_checked
  refine ⟨hreachable, hmembers, retypedUnit_isAcyclic, retypedDesugared_eq, retypedUnit_isReplaced, ?_⟩
  rw [htype]
  decide

end StringForm

end Erasure
