/-
Work that only adds types and names.

Much of what a type system is asked comes down to interning types. It declares nothing, makes no member
instance and changes no entry, whatever it is applied to. The main statements:

* `Pool.substitute_along`, `Pool.lubOf_along`: the operations on a pool keep its entries.
* `TypeSystem.AddsTypes`: how a type system is changed by work of this kind.
* `TypeSystem.join_addsTypes`, `TypeSystem.lookupChain_addsTypes`: joins and the types above a type.
-/
import Mathlib.Order.RelClasses
import Erasure.TypeSystem.Lookup
import Erasure.Proofs.TypeSystem.Validity

namespace Erasure

/-! ### Actions along a relation -/

section

variable {σ α β : Type}

/-- The relation leads from every state to the one that the action ends in. -/
def Along (R : σ → σ → Prop) (act : StateM σ α) : Prop := ∀ s, R s (act s).2

namespace Along

variable {R : σ → σ → Prop} {act : StateM σ α}

theorem get_bind {f : σ → StateM σ β} (h : ∀ s, Along R (f s)) :
    Along R ((get : StateM σ σ) >>= f) := fun s => h s s

theorem map {f : α → β} (h : Along R act) : Along R (f <$> act) := h

theorem run_get_bind {ε : Type} {f : σ → ExceptT ε (StateM σ) β} (h : ∀ s, Along R (f s).run) :
    Along R (get >>= f : ExceptT ε (StateM σ) β).run := fun s => h s s

theorem run_lift {ε : Type} (h : Along R act) :
    Along R (liftM act : ExceptT ε (StateM σ) α).run := h

variable [IsPreorder σ R]

theorem pure (a : α) : Along R (pure a : StateM σ α) := fun s => refl_of R s

theorem bind {f : α → StateM σ β} (h : Along R act) (hf : ∀ a, Along R (f a)) :
    Along R (act >>= f) := fun s => trans_of R (h s) (hf _ _)

theorem mapM {f : α → StateM σ β} (h : ∀ a, Along R (f a)) (as : List α) :
    Along R (as.mapM f) := by
  induction as with
  | nil => exact pure []
  | cons a as ih =>
    rw [List.mapM_cons]
    exact (h a).bind fun b => ih.bind fun bs => pure (b :: bs)

theorem optionMapM {f : α → StateM σ β} (h : ∀ a, Along R (f a)) (o : Option α) :
    Along R (o.mapM f) := by
  cases o with
  | none => exact pure none
  | some a => exact (h a).map

theorem run_bind {ε : Type} {act : ExceptT ε (StateM σ) α} {f : α → ExceptT ε (StateM σ) β}
    (h : Along R act.run) (hf : ∀ a, Along R (f a).run) : Along R (act >>= f).run := by
  refine bind (f := ExceptT.bindCont f) h fun x => ?_
  cases x with
  | ok a => exact hf a
  | error e => exact pure _

end Along

end

/-! ### Pools -/

namespace Pool

theorem internKind_along (k : TypeKind) : Along (· ≤ ·) (internKind k) := fun p =>
  le_internKind p k

theorem internSubst_along (bs : List (TypeVarId × TypeId)) :
    Along (· ≤ ·) (internSubst bs) := fun p => le_internSubst p bs

theorem lubOf_along (tys : List TypeId) : Along (· ≤ ·) (lubOf tys) := by
  have hbound : ∀ cs, Along (· ≤ ·) (do internKind (.lub (← internCandidates cs))) := fun cs =>
    Along.bind (fun p => le_internCandidates p cs) fun l => internKind_along (.lub l)
  unfold lubOf
  cases Candidates.ofList tys with
  | nil => exact hbound []
  | cons ty rest =>
    cases rest with
    | nil => exact .pure ty
    | cons u rest => exact hbound (ty :: u :: rest)

theorem substituteWithin_along (depth : Nat) (s : SubstId) (ty : TypeId) :
    Along (· ≤ ·) (substituteWithin depth s ty) := by
  induction depth generalizing ty with
  | zero => exact .pure ty
  | succ depth ih =>
    have hbinding : ∀ b : TypeVarId × TypeId, Along (· ≤ ·)
        (do return (b.1, ← substituteWithin depth s b.2) : StateM Pool (TypeVarId × TypeId)) :=
      fun b => (ih b.2).bind fun _ => .pure _
    unfold substituteWithin
    refine .get_bind fun p => ?_
    split
    · exact .pure ty
    · cases p.kind ty with
      | prim _ | null | raw _ => exact .pure ty
      | var v => exact .pure _
      | array elem => exact (ih elem).bind fun elem => internKind_along (.array elem)
      | inst base inner outer =>
        refine Along.bind (.mapM hbinding (p.bindings inner)) fun bs => ?_
        refine (internSubst_along bs).bind fun inner => ?_
        exact (Along.optionMapM ih outer).bind fun outer => internKind_along (.inst base inner outer)
      | lub l => exact (Along.mapM ih _).bind lubOf_along

theorem substitute_along (s : SubstId) (ty : TypeId) : Along (· ≤ ·) (substitute s ty) :=
  substituteWithin_along _ s ty

theorem fullSubst_along (ty : TypeId) : Along (· ≤ ·) (fullSubst ty) :=
  .get_bind fun _ => internSubst_along _

end Pool

/-! ### Type systems -/

namespace TypeSystem

/-- Types and names are added, and nothing else is changed. -/
structure AddsTypes (ts us : TypeSystem) : Prop extends Extends ts us where
  members_eq : us.members = ts.members

instance : IsPreorder TypeSystem AddsTypes where
  refl _ := ⟨.refl _, rfl⟩
  trans _ _ _ h h' := ⟨h.toExtends.trans h'.toExtends, h'.members_eq.trans h.members_eq⟩

variable {α : Type}

theorem lift_addsTypes {act : StateM Pool α} (h : Along (· ≤ ·) act) :
    Along AddsTypes (liftM act : StateM TypeSystem α) := fun ts =>
  ⟨⟨⟨h ts.pool, le_refl _, le_refl _, fun _ _ h => h⟩, rfl, rfl⟩, rfl⟩

theorem intern_addsTypes (text : String) : Along AddsTypes (intern text) := fun ts =>
  ⟨⟨⟨le_refl _, le_refl _, InternTable.le_intern ts.names text, fun _ _ h => h⟩, rfl, rfl⟩, rfl⟩

theorem rawClass_addsTypes (c : ClassId) :
    Along AddsTypes (liftM (Pool.rawClass c) : StateM TypeSystem TypeId) :=
  lift_addsTypes (Pool.internKind_along _)

theorem instantiate_addsTypes (base : ClassId) (args : List TypeId) (outer : Option TypeId) :
    Along AddsTypes (instantiate base args outer) :=
  .get_bind fun _ => (lift_addsTypes (Pool.internSubst_along _)).bind fun _ =>
    lift_addsTypes (Pool.internKind_along _)

theorem supertypes_addsTypes (ty : TypeId) : Along AddsTypes (supertypes ty) := by
  unfold supertypes
  refine Along.get_bind fun ts => ?_
  cases ts.kind ty with
  | inst base s outer =>
    refine (lift_addsTypes (Pool.fullSubst_along ty)).bind fun s => ?_
    exact Along.mapM (fun sup => lift_addsTypes (Pool.substitute_along s sup)) _
  | prim _ | null | array _ | raw _ | var _ | lub _ => exact .pure _

theorem joinWithin_addsTypes (depth : Nat) (candidates : List TypeId) :
    Along AddsTypes (joinWithin depth candidates) := by
  induction depth generalizing candidates with
  | zero => exact .pure _
  | succ depth ih =>
    unfold joinWithin
    split
    · exact .pure _
    · refine .get_bind fun ts => ?_
      split
      · exact .pure _
      · split
        · exact .pure _
        · split
          · split
            · exact (ih _).bind fun elem => lift_addsTypes (Pool.internKind_along (.array elem))
            · exact .pure _
          · split
            · exact rawClass_addsTypes _
            · exact .pure _

theorem join_addsTypes (candidates : List TypeId) : Along AddsTypes (join candidates) :=
  .get_bind fun _ => joinWithin_addsTypes _ candidates

theorem resolveLub_addsTypes (ty : TypeId) : Along AddsTypes (resolveLub ty) := by
  unfold resolveLub
  refine .get_bind fun ts => ?_
  cases ts.kind ty with
  | lub l => exact join_addsTypes _
  | prim _ | null | array _ | raw _ | var _ | inst _ _ _ => exact .pure _

theorem chainWithin_addsTypes (levels : Nat) (seen level : List TypeId) :
    Along AddsTypes (chainWithin levels seen level) := by
  induction levels generalizing seen level with
  | zero => exact .pure _
  | succ levels ih =>
    unfold chainWithin
    refine (Along.mapM supertypes_addsTypes level).bind fun sups => ?_
    dsimp only
    split
    · exact .pure _
    · exact ih _ _

theorem lookupChain_addsTypes (container : TypeId) : Along AddsTypes (lookupChain container).run := by
  unfold lookupChain
  refine .run_get_bind fun ts => ?_
  have hchain : Along AddsTypes (do
      let start ← resolveLub container
      liftM (chainWithin (← get).chainLevels [start] [start]) : LookupM (List TypeId)).run :=
    .run_bind (resolveLub_addsTypes container) fun start => .run_get_bind fun us =>
      .run_lift (chainWithin_addsTypes _ [start] [start])
  cases ts.kind container with
  | prim _ | null => exact .pure _
  | array _ | raw _ | var _ | inst _ _ _ | lub _ => exact hchain

theorem substituteKind_addsTypes (s : SubstId) (kind : MemberKind) :
    Along AddsTypes (substituteKind s kind) := by
  unfold substituteKind
  split
  · exact .pure _
  · refine .bind ?_ fun kind => .get_bind fun _ => .pure _
    have hsubst : ∀ ty, Along AddsTypes
        (liftM (Pool.substitute s ty) : StateM TypeSystem TypeId) := fun ty =>
      lift_addsTypes (Pool.substitute_along s ty)
    cases kind with
    | method name formals result params =>
      exact (Along.mapM hsubst formals).bind fun _ => (hsubst result).bind fun _ => .pure _
    | constructor formals params => exact (Along.mapM hsubst formals).bind fun _ => .pure _
    | field name type => exact (hsubst type).bind fun _ => .pure _
    | initializer => exact .pure _

theorem requireClass_addsTypes (name : String) : Along AddsTypes (requireClass name).run := by
  unfold requireClass
  refine .run_get_bind fun ts => ?_
  cases ts.classNamed? name with
  | none => exact .pure _
  | some c => exact .run_lift (rawClass_addsTypes c)

theorem memberName_addsTypes (m : MemberId) : Along AddsTypes (memberName m) := by
  unfold memberName
  refine .get_bind fun ts => ?_
  cases (ts.member m).kind.name? with
  | none => exact intern_addsTypes _
  | some n => exact .pure _

end TypeSystem

end Erasure
