/-
Desugared units pass the checks for strings.

The walk of the check meets the nodes that the trees of a desugared unit lead to, and none of them has
a string form. Both desugaring and its check compare static types with the string class and not
canonical types. The main statements:

* `validate_desugared`: the check never finds a string form in a desugared unit.
* `canonicalize_eq_string`: the types that erase to the string class.
* `addition_desugared`: the operands of additions that are left do not have the type of the string
  class, though a canonical type may be.
-/
import Erasure.Proofs.Canonical.Concord
import Erasure.Proofs.Canonical.Upward
import Erasure.Proofs.Strings.Desugared

namespace Erasure

/-! ### Errors of actions -/

section

variable {σ ε α β : Type} {E : ε → Prop}

/-- Whatever state it starts in, the action fails with certain errors only. -/
def FailsWith (E : ε → Prop) (act : ExceptT ε (StateM σ) α) : Prop :=
  ∀ s e, (act.run s).1 = .error e → E e

namespace FailsWith

variable {act : ExceptT ε (StateM σ) α}

theorem pure (a : α) : FailsWith E (pure a : ExceptT ε (StateM σ) α) := fun _ _ h => nomatch h

theorem throw {e : ε} (he : E e) : FailsWith E (throw e : ExceptT ε (StateM σ) α) := by
  rintro s _ ⟨⟩
  exact he

theorem lift_bind {act : StateM σ α} {f : α → ExceptT ε (StateM σ) β}
    (hf : ∀ a, FailsWith E (f a)) : FailsWith E (liftM act >>= f : ExceptT ε (StateM σ) β) :=
  fun s => hf (act s).1 (act s).2

theorem bind {f : α → ExceptT ε (StateM σ) β} (h : FailsWith E act)
    (hf : ∀ a, FailsWith E (f a)) : FailsWith E (act >>= f) := by
  intro s e he
  rw [run_bind_apply] at he
  cases hact : (act.run s).1 with
  | ok a =>
    rw [hact] at he
    exact hf a _ e he
  | error e' =>
    rw [hact] at he
    cases he
    exact h s _ hact

theorem foldlM {f : β → α → ExceptT ε (StateM σ) β} {as : List α}
    (h : ∀ a ∈ as, ∀ b, FailsWith E (f b a)) (b : β) : FailsWith E (as.foldlM f b) := by
  induction as generalizing b with
  | nil => exact pure b
  | cons a as ih =>
    rw [List.foldlM_cons]
    exact (h a List.mem_cons_self b).bind fun b' =>
      ih (fun c hc => h c (List.mem_cons_of_mem _ hc)) b'

end FailsWith

end

/-! ### The check -/

namespace Validation

variable {a : Arena} {n : NodeId}

theorem stringError?_eq_none_iff : stringError? a n = none ↔ a.stringForm? n = none := by
  cases n with
  | stmt s => exact iff_of_true rfl rfl
  | expr e => exact Option.map_eq_none_iff

/-- A node without a string form fails for its member only. -/
theorem checkNode_failsWith (h : a.stringForm? n = none) :
    FailsWith (fun e => ∃ x, e = .canon x) (checkNode a n) := by
  unfold checkNode
  rw [stringError?_eq_none_iff.mpr h]
  cases memberOf? a n with
  | none => exact .pure 0
  | some m =>
    refine .lift_bind fun x => ?_
    cases x with
    | ok _ => exact .pure 1
    | error e => exact .throw ⟨e, rfl⟩

theorem validate_failsWith {u : CompilationUnit} (h : ∀ n ∈ u.nodes, u.arena.stringForm? n = none) :
    FailsWith (fun e => ∃ x, e = .canon x) (validate u) :=
  FailsWith.foldlM (fun n hn checked => (checkNode_failsWith (h n hn)).bind fun k =>
    .pure (checked + k)) 0

end Validation

/-! ### Desugared units -/

namespace StringForm

variable {ts ts' : TypeSystem} {u u' : CompilationUnit} {n : NodeId}

theorem IsDesugared.roots_eq (h : IsDesugared ts u ts' u') : u'.roots = u.roots := by
  rw [CompilationUnit.roots, CompilationUnit.roots, h.classes_eq]

theorem IsDesugared.settled_of_hasNode (h : IsDesugared ts u ts' u') (hn : u'.HasNode n) :
    u'.arena.Settled n := by
  induction hn with
  | root hr => exact h.settled (h.roots_eq ▸ hr)
  | child _ hc ih => exact ih.child hc

/-- Desugaring makes no cycles. -/
theorem IsDesugared.isAcyclic (h : IsDesugared ts u ts' u') : u'.IsAcyclic := by
  refine ⟨fun hn => (h.settled_of_hasNode hn).has, fun hn => ?_⟩
  obtain ⟨r, hr, hleads⟩ := hn.exists_root
  obtain ⟨t, ht, -⟩ := h.tree (h.roots_eq ▸ hr)
  exact (ht.1.of_leads hleads).acyclic

/-- Whatever the canonicalizer holds, the check never finds a string form in a desugared unit. -/
theorem validate_desugared {counts : StringCounts} (hu : u.IsAcyclic)
    (h : desugar ts u = (.ok counts, ts', u')) (c : Canonicalizer) (span : Span) :
    ((Validation.validate u').run c).1 ≠ .error (.stringLiteralRemains span) ∧
      ((Validation.validate u').run c).1 ≠ .error (.stringConcatRemains span) := by
  have hdesugared := desugar_isDesugared hu h
  have hfails := Validation.validate_failsWith (u := u') fun n hn =>
    (hdesugared.settled_of_hasNode (hdesugared.isAcyclic.mem_nodes_iff.mp hn)).stringForm?
  constructor
  · intro herror
    obtain ⟨x, hx⟩ := hfails c _ herror
    cases hx
  · intro herror
    obtain ⟨x, hx⟩ := hfails c _ herror
    cases hx

/-- A method body that evaluates the addition of a literal to itself. -/
def doubleUnit : CompilationUnit where
  arena :=
    { exprs := #[⟨.str ⟨0⟩, .string, .generated⟩, ⟨.binary .add ⟨0⟩ ⟨0⟩, .string, .generated⟩]
      stmts := #[⟨.eval ⟨1⟩, .generated⟩] }
  classes := [⟨.object, [⟨⟨0⟩, .method [] (some ⟨0⟩), .generated⟩], .generated⟩]

theorem doubleUnit_isAcyclic : doubleUnit.IsAcyclic := by
  refine CompilationUnit.isAcyclic_of_rank
    (NodeId.rank id (2 + ·)) ?_ ?_ ?_ <;> decide

theorem validate_desugared_double :
    doubleUnit.IsAcyclic ∧ (desugar .initial doubleUnit).1.toOption = some ⟨1, 1⟩ ∧
      ∀ c span, ((Validation.validate (desugar .initial doubleUnit).2.2).run c).1 ≠
          .error (.stringLiteralRemains span) ∧
        ((Validation.validate (desugar .initial doubleUnit).2.2).run c).1 ≠
          .error (.stringConcatRemains span) := by
  have hok : (desugar .initial doubleUnit).1.toOption = some ⟨1, 1⟩ := by decide +kernel
  exact ⟨doubleUnit_isAcyclic, hok, validate_desugared doubleUnit_isAcyclic (desugar_eq hok)⟩

end StringForm

/-! ### Types that erase to the string class -/

/-- Erasure computes the canonical form of the type from a bound, from candidates or from the class
of an instantiation. -/
def TypeSystem.IsComputed (ts : TypeSystem) (ty : TypeId) : Prop :=
  (∃ v, ts.kind ty = .var v) ∨ (∃ l, ts.kind ty = .lub l) ∨
    ∃ base sub outer, ts.kind ty = .inst base sub outer

/-- A type that erases to the string class is the type of the class, or it is computed. -/
theorem Canonicalizer.canonicalize_eq_string {s : Canonicalizer} (hs : s.Consistent) {c : ClassId}
    (hstring : s.types.pool.HasKind .string (.raw c)) {ty : TypeId} (hty : s.types.pool.Has ty)
    (h : (canonicalize ty s).1 = .string) : ty = .string ∨ s.types.IsComputed ty := by
  have hkeeps := canonicalize_coherent hs.valid hs.acyclic hs.coherent hty
  obtain ⟨hcoherent, hfind⟩ := hkeeps.post
  obtain ⟨shape, herases, hshape⟩ := hcoherent.erases hfind
  have hext : TypeSystem.Extends s.types (canonicalize ty s).2.types := Extends.types hkeeps.grows
  have hself : ∀ {shape'}, s.types.pool.HasShape ty shape' → ty = .string := fun hshape' =>
    (herases.eq_of_hasShape (hshape'.of_le hext.le.1) hshape).symm.trans h
  rw [h] at hshape
  have hkind := hty.hasKind
  unfold TypeSystem.IsComputed TypeSystem.kind
  cases hk : s.types.pool.kind ty with
  | var v => exact Or.inr (Or.inl ⟨v, rfl⟩)
  | lub l => exact Or.inr (Or.inr (Or.inl ⟨l, rfl⟩))
  | inst base sub outer => exact Or.inr (Or.inr (Or.inr ⟨base, sub, outer, rfl⟩))
  | prim p => exact Or.inl (hself (.prim (hk ▸ hkind)))
  | null => exact Or.inl (hself (.null (hk ▸ hkind)))
  | raw d => exact Or.inl (hself (.raw (hk ▸ hkind)))
  | array elem =>
    rw [hk] at hkind
    obtain ⟨shape', rfl, -⟩ := herases.of_array (hkind.of_le hext.le.1)
    cases hshape with
    | array hk' _ => cases (hstring.of_le hext.le.1).unique hk'

namespace StringForm

variable {ts ts' : TypeSystem} {u u' : CompilationUnit}

/-- No operand of an addition that is left has the type of the string class. If its canonical type is
the string class, that is computed. -/
theorem addition_desugared {counts : StringCounts} (hu : u.IsAcyclic)
    (h : desugar ts u = (.ok counts, ts', u')) {e left right operand : ExprId}
    (he : u'.HasNode (.expr e)) (hk : (u'.arena.expr e).kind = .binary .add left right)
    (hoperand : operand = left ∨ operand = right) {s : Canonicalizer} (hs : s.Consistent)
    (htypes : s.types = ts') {c : ClassId} (hstring : ts'.pool.HasKind .string (.raw c))
    (hhas : ts'.pool.Has (u'.arena.expr operand).type) :
    (u'.arena.expr operand).type ≠ .string ∧
      ((Canonicalizer.canonicalize (u'.arena.expr operand).type s).1 = .string →
        ts'.IsComputed (u'.arena.expr operand).type) := by
  have hform : ofExpr? u'.arena e = none :=
    ((desugar_isDesugared hu h).settled_of_hasNode he).stringForm?
  have hne : (u'.arena.expr operand).type ≠ .string := by
    rw [ofExpr?, hk] at hform
    simp only [Bool.or_eq_true, decide_eq_true_eq, ite_eq_right_iff, reduceCtorEq, imp_false,
      not_or] at hform
    rcases hoperand with rfl | rfl
    · exact hform.1
    · exact hform.2
  subst htypes
  exact ⟨hne, fun hcanonical =>
    (Canonicalizer.canonicalize_eq_string hs hstring hhas hcanonical).resolve_left hne⟩

/-! ### An addition to an upper bound -/

/-- The session that declares a class with a method `m` whose formal has the upper bound of the
string class and the null type as its type. -/
def boundSession : Canonicalizer :=
  let s := (Canonicalizer.fresh .initial).declared (.declareClass "M" {})
  let s := (s.asked (.lubOf [.string, .null])).asked (.intern "m")
  s.declared (.declareMember ⟨2⟩ (.method ⟨10⟩ [⟨13⟩] Primitive.void.typeId []) {})

/-- The unit in which the method adds a number to its formal. -/
def boundUnit : CompilationUnit where
  arena :=
    { exprs := #[⟨.localVar ⟨0⟩, ⟨13⟩, .generated⟩, ⟨.int 1, Primitive.int.typeId, .generated⟩,
        ⟨.binary .add ⟨0⟩ ⟨1⟩, .string, .generated⟩]
      stmts := #[⟨.eval ⟨2⟩, .generated⟩]
      locals := #[⟨⟨10⟩, ⟨13⟩, {}⟩] }
  classes := [⟨⟨2⟩, [⟨⟨15⟩, .method [⟨0⟩] (some ⟨0⟩), .generated⟩], .generated⟩]

/-- The type system and the unit after desugaring. -/
def boundDesugared : TypeSystem × CompilationUnit := (desugar boundSession.types boundUnit).2

theorem boundSession_checked :
    Canonicalizer.Reachable boundSession ∧ boundSession.types.Acyclic := by
  -- The steps and the last state make one goal, so that the prelude is evaluated once.
  suffices h : (_ ∧ _) ∧ _ by
    obtain ⟨⟨h₁, h₂⟩, hends⟩ := h
    refine ⟨?_, TypeSystem.acyclic_of_isEnd hends⟩
    exact .declare _ (.ask _ (.ask _ (.declare _ .initial trivial) h₁) trivial) h₂
  unfold TypeSystem.Query.Admitted TypeSystem.Declaration.Admitted
  decide +kernel

theorem boundSession_reachable : Canonicalizer.Reachable boundSession := boundSession_checked.1

theorem boundSession_acyclic : boundSession.types.Acyclic := boundSession_checked.2

theorem boundUnit_isAcyclic : boundUnit.IsAcyclic := by
  refine CompilationUnit.isAcyclic_of_rank
    (NodeId.rank id (3 + ·)) ?_ ?_ ?_ <;> decide

theorem types_fresh (ts : TypeSystem) : (Canonicalizer.fresh ts).types = ts := rfl

/-- Desugaring and the check succeed, and the addition is left, with an operand whose canonical type
is the string class. -/
theorem boundDesugared_addition :
    ((desugar boundSession.types boundUnit).1.toOption = some {} ∧
      ((Validation.validate boundDesugared.2).run (.fresh boundDesugared.1)).1.toOption = some 0) ∧
      (.stmt ⟨0⟩ ∈ boundDesugared.2.roots ∧
        .expr ⟨2⟩ ∈ boundDesugared.2.arena.children (.stmt ⟨0⟩)) ∧
      (boundDesugared.2.arena.expr ⟨2⟩).kind = .binary .add ⟨0⟩ ⟨1⟩ ∧
      boundDesugared.1.pool.HasKind .string (.raw ⟨1⟩) ∧
      boundDesugared.1.pool.Has (boundDesugared.2.arena.expr ⟨0⟩).type ∧
      (Canonicalizer.canonicalize (boundDesugared.2.arena.expr ⟨0⟩).type
        (.fresh boundDesugared.1)).1 = .string := by
  decide +kernel

theorem boundDesugared_eq :
    desugar boundSession.types boundUnit = (.ok {}, boundDesugared.1, boundDesugared.2) :=
  desugar_eq boundDesugared_addition.1.1

theorem boundDesugared_hasNode : boundDesugared.2.HasNode (.expr ⟨2⟩) :=
  .child (.root boundDesugared_addition.2.1.1) boundDesugared_addition.2.1.2

theorem addition_desugared_bound :
    boundUnit.IsAcyclic ∧ boundDesugared.2.HasNode (.expr ⟨2⟩) ∧
      (boundDesugared.2.arena.expr ⟨0⟩).type ≠ .string ∧
      boundDesugared.1.IsComputed (boundDesugared.2.arena.expr ⟨0⟩).type := by
  have hts := boundSession_reachable.valid.types
  obtain ⟨hvalid, hext⟩ := (desugar_isDesugared boundUnit_isAcyclic boundDesugared_eq).later hts
  have hconsistent :=
    Canonicalizer.fresh_consistent hvalid (boundSession_acyclic.of_extends hts hext)
  obtain ⟨-, -, hk, hstring, hhas, hcanonical⟩ := boundDesugared_addition
  obtain ⟨htype, hcomputed⟩ := addition_desugared boundUnit_isAcyclic boundDesugared_eq
    boundDesugared_hasNode hk (Or.inl rfl) hconsistent (types_fresh _) hstring hhas
  exact ⟨boundUnit_isAcyclic, boundDesugared_hasNode, htype, hcomputed hcanonical⟩

/-- Desugaring and the check succeed, and an operand of an addition that is left has the string class
as its canonical type. -/
theorem addition_to_upper_bound_remains :
    boundSession.types.Acyclic ∧ (desugar boundSession.types boundUnit).1.toOption = some {} ∧
      ((Validation.validate boundDesugared.2).run (.fresh boundDesugared.1)).1.toOption = some 0 ∧
      boundDesugared.2.HasNode (.expr ⟨2⟩) ∧
      (boundDesugared.2.arena.expr ⟨2⟩).kind = .binary .add ⟨0⟩ ⟨1⟩ ∧
      (Canonicalizer.canonicalize (boundDesugared.2.arena.expr ⟨0⟩).type
        (.fresh boundDesugared.1)).1 = .string := by
  obtain ⟨⟨hdesugar, hvalidate⟩, -, hk, -, -, hcanonical⟩ := boundDesugared_addition
  exact ⟨boundSession_acyclic, hdesugar, hvalidate, boundDesugared_hasNode, hk, hcanonical⟩

end StringForm

end Erasure
