/-
Direct calls.

A call of an instance method through a final class is direct, whatever the method is that is found. It
has a body if the superclasses implement all abstract methods that are seen, and are no farther away than
the types that declare these. Where such a type is nearer, the abstract method is called directly. The
main statements:

* `classify_of_final`: calls through a final class are direct unless they are static.
* `call_of_final`: when the method that such a call names has a body, and by what that one is hidden.
-/
import Erasure.Proofs.Canonical.Monotone
import Erasure.Proofs.Lookup.Nearest
import Erasure.Proofs.Tree.Receivers

namespace Erasure

open Relation (TransGen)

namespace TypeSystem

/-- Of the methods each one that is abstract is implemented by a superclass that is no farther away than
the type that declares it. -/
def ImplementsAbstract (ts : TypeSystem) (ty : TypeId) (methods : List MemberId) : Prop :=
  ∀ a ∈ methods, (ts.member a).flags.isAbstract = true →
    ∃ k ∈ methods, ∃ d, ts.Implements ty d k a ∧ ¬ ts.IsNearer ty d a k

end TypeSystem

namespace Builder

variable {b b' : Builder} {container : TypeId} {c : ClassId} {receiver : Receiver} {name : String}
  {args : List ExprId} {e : ExprId}

/-- Calls through a final class are direct unless they are static. -/
theorem classify_of_final {ts : TypeSystem} {m : MemberId} (hc : ts.classOf? container = some c)
    (hfinal : (ts.classDef c).flags.isFinal = true) :
    classify ts m container = .direct ↔ (ts.member m).flags.isStatic = false := by
  unfold classify
  dsimp only
  rw [hc, Option.any_some, hfinal]
  cases (ts.member m).flags.isStatic with
  | true => exact iff_of_false nofun nofun
  | false => exact iff_of_true (by simp) rfl

/-- A call through a final class of a well-formed type system is direct unless the method that it names
is static. This is a candidate of the lookup, so it is seen before all methods with its formals. It has a
body if superclasses that are no farther away implement all abstract methods that are seen. In any case,
if a superclass implements it then the type that declares it is nearer, or is this superclass. -/
theorem call_of_final (hvalid : b.types.Valid) (hwf : b.types.WellFormed)
    (hacyclic : ∀ c, ¬ TransGen b.types.Inherits c c) (hc : b.types.classOf? container = some c)
    (hfinal : (b.types.classDef c).flags.isFinal = true)
    (hargs : b.types.HasAll (args.map b.typeOf))
    (hcall : (call receiver container name args).run b = (.ok e, b')) :
    ∃ recv m dispatch chain methods, (b'.arena.expr e).kind = .call recv m args dispatch ∧
      (dispatch = .direct ↔ (b'.types.member m).flags.isStatic = false) ∧
      b'.types.Takes container name (args.map b.typeOf) chain methods m ∧
      (b'.types.ImplementsAbstract container methods →
        (b'.types.member m).flags.isAbstract = false) ∧
      ∀ k ∈ methods, ∀ d, b'.types.Implements container d k m → b'.types.IsNearer container d m k := by
  obtain ⟨m, hfind, hnode⟩ := (call_run receiver container name args b).of_ok hcall
  obtain ⟨hext, chain, methods, htakes⟩ :=
    TypeSystem.findMethod_takes hvalid hwf hacyclic hc hargs hfind
  have hc' := (TypeSystem.classOf?_of_le hext.le (TypeSystem.has_of_classOf? hc)).trans hc
  refine ⟨_, m, _, chain, methods, hnode, ?_, htakes, fun himplements => ?_,
    fun k hk d => htakes.isNearer hk⟩
  · exact classify_of_final hc' ((hext.classDef_eq c).symm ▸ hfinal)
  · rw [← Bool.not_eq_true]
    intro habstract
    obtain ⟨k, hk, d, himpl, hnot⟩ := himplements m htakes.mem habstract
    exact hnot (htakes.isNearer hk himpl)

/-- A session with an interface `J` that declares an abstract method `f`, a class `B` that declares one
with a body, a class `A` that extends `B`, and a final class `F` that extends `A` and `J`. -/
def hiddenSession : Canonicalizer :=
  let s := (Canonicalizer.fresh .initial).declared (.declareClass "J" { isInterface := true })
  let s := (s.asked (.rawClass ⟨2⟩)).asked (.intern "f")
  let s := s.declared
    (.declareMember ⟨2⟩ (.method ⟨10⟩ [] Primitive.void.typeId []) { isAbstract := true })
  let s := (s.declared (.declareClass "B" {})).asked (.rawClass ⟨3⟩)
  let s := s.declared (.declareMember ⟨3⟩ (.method ⟨10⟩ [] Primitive.void.typeId []) {})
  let s := (s.declared (.declareClass "A" {})).declared (.setSuperclass ⟨4⟩ ⟨14⟩)
  let s := (s.asked (.rawClass ⟨4⟩)).declared (.declareClass "F" { isFinal := true })
  let s := (s.declared (.setSuperclass ⟨5⟩ ⟨15⟩)).declared (.addInterface ⟨5⟩ ⟨13⟩)
  s.asked (.rawClass ⟨5⟩)

theorem hiddenSession_reachable : Canonicalizer.Reachable hiddenSession := by
  suffices h : _ ∧ _ ∧ _ ∧ _ ∧ _ by
    obtain ⟨h₁, h₂, h₃, h₄, h₅⟩ := h
    exact .ask _ (.declare _ (.declare _ (.declare _ (.ask _ (.declare _ (.declare _ (.declare _
      (.ask _ (.declare _ (.declare _ (.ask _ (.ask _ (.declare _ .initial trivial) trivial) trivial)
      h₁) trivial) trivial) h₂) trivial) h₃) trivial) trivial) h₄) h₅) trivial
  unfold TypeSystem.Declaration.Admitted
  decide +kernel

/-- A builder for the session, with a local of the type `F`. -/
def hiddenBuilder : Builder :=
  [Request.newLocal "x" ⟨16⟩ {}, .localVar ⟨0⟩].foldl (fun b r => (r.run b).2)
    ⟨hiddenSession.types, {}, .generated⟩

theorem hiddenBuilder_wellFormed : hiddenBuilder.types.Valid ∧ hiddenBuilder.types.WellFormed ∧
    ∀ c, ¬ TransGen hiddenBuilder.types.Inherits c c := by
  have hstart : Assembled ⟨hiddenSession.types, {}, .generated⟩ [] :=
    .start hiddenSession_reachable.valid.types (by decide +kernel)
  have hassembled : hiddenBuilder.Assembled [] := hstart.requests (by decide +kernel)
  have hvalid := hassembled.isResolved.1.valid
  obtain ⟨hflat, hold⟩ :
      ((∀ i < hiddenBuilder.types.classes.size,
          ∀ ty ∈ hiddenBuilder.types.declaredSupertypes ⟨i⟩, (hiddenBuilder.types.classOf? ty).isSome) ∧
        hiddenBuilder.types.declaredSupertypes .object = [] ∧
        ∀ i < hiddenBuilder.types.pool.size,
          hiddenBuilder.types.isBoundedBelow i (hiddenBuilder.types.kind ⟨i⟩) = true) ∧
      ∀ i < hiddenBuilder.types.classes.size,
        ∀ d ∈ hiddenBuilder.types.superclasses ⟨i⟩, d.index < i := by
    decide +kernel
  exact ⟨hvalid, hvalid.wellFormed hflat, TypeSystem.not_inherits_self hold⟩

/-- The call of `f` through `F` names the method of `J`, which is abstract: `J` is one step away from
`F`, and `B`, which implements it, is two. -/
theorem call_of_final_hidden :
    ∃ e b' recv, (call (.expr ⟨0⟩) ⟨16⟩ "f" []).run hiddenBuilder = (.ok e, b') ∧
      (b'.arena.expr e).kind = .call recv ⟨15⟩ [] .direct ∧
      (b'.types.member ⟨15⟩).flags.isAbstract = true ∧ b'.types.Implements ⟨16⟩ 2 ⟨16⟩ ⟨15⟩ ∧
      ∃ j < 2, TypeSystem.IsStepsAway b'.types.above ⟨16⟩ j (b'.types.containerOf ⟨15⟩) := by
  obtain ⟨hvalid, hwf, hacyclic⟩ := hiddenBuilder_wellFormed
  have hfacts : hiddenBuilder.types.classOf? ⟨16⟩ = some ⟨5⟩ ∧
      (hiddenBuilder.types.classDef ⟨5⟩).flags.isFinal = true ∧
      let result := (call (.expr ⟨0⟩) ⟨16⟩ "f" []).run hiddenBuilder
      let us := result.2.types
      result.1.toOption = some ⟨1⟩ ∧
        (result.2.arena.expr ⟨1⟩).kind = .call (.expr ⟨0⟩) ⟨15⟩ [] .direct ∧
        (us.member ⟨15⟩).flags.isAbstract = true ∧ (us.member ⟨16⟩).flags.isAbstract = false ∧
        (us.member ⟨16⟩).kind.formals = (us.member ⟨15⟩).kind.formals ∧
        us.containerOf ⟨15⟩ ≠ us.containerOf ⟨16⟩ ∧ us.containerOf ⟨16⟩ = ⟨14⟩ ∧
        us.classOf? ⟨16⟩ = some ⟨5⟩ ∧ (us.classDef ⟨5⟩).superclass.isSome ∧
        (us.above ⟨16⟩).head? = some ⟨15⟩ ∧
        us.classOf? ⟨15⟩ = some ⟨4⟩ ∧ (us.classDef ⟨4⟩).superclass.isSome ∧
        (us.above ⟨15⟩).head? = some ⟨14⟩ ∧
        (TypeSystem.intern "f" us).1 = ⟨10⟩ ∧
        (((TypeSystem.lookupChain ⟨16⟩).run us).1.toOption.map fun chain =>
          (TypeSystem.methodsSeen chain ⟨10⟩ us).1) = some [⟨15⟩, ⟨16⟩] := by
    decide +kernel
  generalize hiddenBuilder = b at *
  generalize hrun : (call (.expr ⟨0⟩) ⟨16⟩ "f" []).run b = result at hfacts
  obtain ⟨answer, b'⟩ := result
  obtain ⟨hc, hfinal, hanswer, hkind, habstract, hconcrete, hformals, hne, hk, hF, hF', hA, hclassA,
    hA', hB, hname, hmethods⟩ := hfacts
  cases answer with
  | error err => cases hanswer
  | ok e =>
    obtain rfl := Option.some.inj hanswer
    obtain ⟨recv, m, dispatch, chain, methods, hnode, -, htakes, -, hnearer⟩ :=
      call_of_final hvalid hwf hacyclic hc hfinal (fun _ h => absurd h List.not_mem_nil) hrun
    rw [hkind] at hnode
    cases hnode
    obtain ⟨n, hsees, -⟩ := htakes.sees
    rw [hsees.intern] at hname
    rw [hsees.lookup] at hmethods
    obtain rfl : n = ⟨10⟩ := hname
    have hmem : ⟨16⟩ ∈ methods := by
      have hseen : (TypeSystem.methodsSeen chain ⟨10⟩ b'.types).1 = [⟨15⟩, ⟨16⟩] :=
        Option.some.inj hmethods
      obtain rfl : methods = [⟨15⟩, ⟨16⟩] := by rwa [hsees.seen] at hseen
      exact List.mem_cons_of_mem _ List.mem_cons_self
    have haway : b'.types.IsSuperclassAway ⟨16⟩ 2 ⟨14⟩ := .step (.step .self hF hF' hA) hclassA hA' hB
    have himpl : b'.types.Implements ⟨16⟩ 2 ⟨16⟩ ⟨15⟩ := ⟨hconcrete, hformals, hk ▸ haway⟩
    exact ⟨_, b', _, rfl, hkind, habstract, himpl, (hnearer _ hmem 2 himpl).resolve_left hne⟩

end Builder

end Erasure
