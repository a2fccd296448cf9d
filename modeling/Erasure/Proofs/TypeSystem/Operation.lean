/-
The operations on a type system.

A declaration adds to what is declared; a query interns what its answer needs and declares nothing.
An operation may be used when the types and members that it mentions are there (`Admitted`). The
main statements:

* `Declaration.run_advances`: a declaration keeps every earlier entry and the invariant.
* `Query.run_keeps`: so does a query, and the declarations stay as they are.
-/
import Erasure.Proofs.TypeSystem.Lookup

namespace Erasure.TypeSystem

variable {ts : TypeSystem}

/-! ### Declarations -/

/-- What adds to the declarations of a type system. -/
inductive Declaration where
  | declareClass (name : String) (flags : ClassFlags)
  | setSuperclass (c : ClassId) (superclass : TypeId)
  | addInterface (c : ClassId) (iface : TypeId)
  | setOuter (c : ClassId) (outer : TypeId)
  | addTypeParam (c : ClassId) (name : String) (bound : Option TypeId)
  | addMethodTypeParam (name : String) (bound : Option TypeId)
  | setBound (v : TypeVarId) (bound : TypeId)
  | declareMember (c : ClassId) (kind : MemberKind) (flags : MemberFlags)

namespace Declaration

/-- Declares. -/
def run : Declaration → StateM TypeSystem Unit
  | declareClass name flags => discard <| TypeSystem.declareClass name flags
  | setSuperclass c superclass => TypeSystem.setSuperclass c superclass
  | addInterface c iface => TypeSystem.addInterface c iface
  | setOuter c outer => TypeSystem.setOuter c outer
  | addTypeParam c name bound => discard <| TypeSystem.addTypeParam c name bound
  | addMethodTypeParam name bound => discard <| TypeSystem.addMethodTypeParam name bound
  | setBound v bound => TypeSystem.setBound v bound
  | declareMember c kind flags => discard <| TypeSystem.declareMember c kind flags

/-- The types and names that the declaration mentions are there, and the type parameters of a member
belong to no class. -/
def Admitted (ts : TypeSystem) : Declaration → Prop
  | declareClass _ _ => True
  | setSuperclass _ ty | addInterface _ ty | setOuter _ ty | setBound _ ty => ts.pool.Has ty
  | addTypeParam _ _ bound | addMethodTypeParam _ bound => ∀ ty ∈ bound, ts.pool.Has ty
  | declareMember _ kind _ =>
    (∀ ty ∈ kind.types, ts.pool.Has ty) ∧ (∀ v ∈ kind.typeParams, ts.IsMemberVar v) ∧
      ∀ n ∈ kind.name?, ts.HasName n

theorem run_advances (hts : ts.Valid) {d : Declaration} (h : d.Admitted ts) :
    Advances d.run ts fun _ _ => True := by
  cases d with
  | declareClass name flags => exact (declareClass_advances hts name flags).discard
  | setSuperclass c superclass => exact setSuperclass_advances hts h
  | addInterface c iface => exact addInterface_advances hts h
  | setOuter c outer => exact setOuter_advances hts h
  | addTypeParam c name bound => exact (addTypeParam_advances hts name h).discard
  | addMethodTypeParam name bound => exact (addMethodTypeParam_advances hts name h).discard
  | setBound v bound => exact setBound_advances hts h
  | declareMember c kind flags => exact (declareMember_advances hts h.1 h.2.1 h.2.2).discard

end Declaration

/-! ### Queries -/

/-- What is asked of a type system. -/
inductive Query where
  | intern (text : String)
  | array (elem : TypeId)
  | rawClass (c : ClassId)
  | typeVar (v : TypeVarId)
  | lubOf (candidates : List TypeId)
  | instantiate (base : ClassId) (args : List TypeId) (outer : Option TypeId)
  | internSubst (bs : List (TypeVarId × TypeId))
  | fullSubst (ty : TypeId)
  | substitute (s : SubstId) (ty : TypeId)
  | supertypes (ty : TypeId)
  | join (candidates : List TypeId)
  | substituteMember (m : MemberId) (s : SubstId) (container : TypeId)
  | memberIn (m : MemberId) (container : TypeId)
  | instantiateMethod (m : MemberId) (typeArgs : List TypeId)
  | deriveMember (origin : MemberId) (kind : MemberKind) (container : TypeId)
  | findField (container : TypeId) (name : String)
  | findMethod (container : TypeId) (name : String) (args : List TypeId)
  | findConstructor (container : TypeId) (args : List TypeId)
  | requireClass (name : String)
  | memberName (m : MemberId)

namespace Query

/-- Asks, and drops the answer. -/
def run : Query → StateM TypeSystem Unit
  | intern text => discard <| TypeSystem.intern text
  | array elem => discard <| (liftM (Pool.array elem) : StateM TypeSystem TypeId)
  | rawClass c => discard <| (liftM (Pool.rawClass c) : StateM TypeSystem TypeId)
  | typeVar v => discard <| (liftM (Pool.typeVar v) : StateM TypeSystem TypeId)
  | lubOf candidates => discard <| (liftM (Pool.lubOf candidates) : StateM TypeSystem TypeId)
  | instantiate base args outer => discard <| TypeSystem.instantiate base args outer
  | internSubst bs => discard <| (liftM (Pool.internSubst bs) : StateM TypeSystem SubstId)
  | fullSubst ty => discard <| (liftM (Pool.fullSubst ty) : StateM TypeSystem SubstId)
  | substitute s ty => discard <| (liftM (Pool.substitute s ty) : StateM TypeSystem TypeId)
  | supertypes ty => discard <| TypeSystem.supertypes ty
  | join candidates => discard <| TypeSystem.join candidates
  | substituteMember m s container => discard <| TypeSystem.substituteMember m s container
  | memberIn m container => discard <| TypeSystem.memberIn m container
  | instantiateMethod m typeArgs => discard <| TypeSystem.instantiateMethod m typeArgs
  | deriveMember origin kind container => discard <| TypeSystem.deriveMember origin kind container
  | findField container name => discard (TypeSystem.findField container name).run
  | findMethod container name args => discard (TypeSystem.findMethod container name args).run
  | findConstructor container args => discard (TypeSystem.findConstructor container args).run
  | requireClass name => discard (TypeSystem.requireClass name).run
  | memberName m => discard <| TypeSystem.memberName m

/-- The types, substitutions and members that the query mentions are there. -/
def Admitted (ts : TypeSystem) : Query → Prop
  | intern _ | rawClass _ | typeVar _ | requireClass _ | memberName _ => True
  | array ty | fullSubst ty | supertypes ty | findField ty _ => ts.pool.Has ty
  | lubOf tys | join tys => ts.HasAll tys
  | instantiate _ args outer => ts.HasAll args ∧ ∀ ty ∈ outer, ts.pool.Has ty
  | internSubst bs => ∀ b ∈ bs, ts.pool.Has b.2
  | substitute s ty => (∃ bs, ts.pool.HasBindings s bs) ∧ ts.pool.Has ty
  | substituteMember m s ty =>
    ts.HasMember m ∧ (∃ bs, ts.pool.HasBindings s bs) ∧ ts.pool.Has ty
  | memberIn m ty => ts.HasMember m ∧ ts.pool.Has ty
  | instantiateMethod m tys => ts.HasMember m ∧ ts.HasAll tys
  | deriveMember origin kind container => ts.HasMember origin ∧
    ts.AdmitsKey { (ts.member origin).toMemberKey with kind, container }
  | findMethod ty _ _ | findConstructor ty _ => ts.pool.Has ty

theorem run_keeps (hts : ts.Valid) {q : Query} (h : q.Admitted ts) :
    Keeps q.run ts fun _ _ => True := by
  cases q with
  | intern text => exact (intern_keeps hts text).discard
  | array elem => exact (lift_computes hts (Pool.array_computes hts.pool h)).toKeeps.discard
  | rawClass c => exact (lift_computes hts (Pool.rawClass_computes hts.pool c)).toKeeps.discard
  | typeVar v => exact (lift_computes hts (Pool.typeVar_computes hts.pool v)).toKeeps.discard
  | lubOf candidates => exact (lift_computes hts (Pool.lubOf_computes hts.pool h)).toKeeps.discard
  | instantiate base args outer => exact (instantiate_keeps hts base h.1 h.2).discard
  | internSubst bs =>
    exact (lift_computes hts (Pool.internSubst_computes hts.pool h)).toKeeps.discard
  | fullSubst ty => exact (fullSubst_computes hts h).toKeeps.discard
  | substitute s ty =>
    obtain ⟨⟨bs, hs⟩, hty⟩ := h
    exact (substitute_keeps hts hs hty).discard
  | supertypes ty => exact (supertypes_keeps hts h).discard
  | join candidates =>
    exact Keeps.discard (P := fun _ _ => True) (Keeps.get_bind
      ((joinWithin_keeps hts h).mono fun _ _ _ _ _ => trivial))
  | substituteMember m s container =>
    obtain ⟨hm, ⟨bs, hs⟩, hcontainer⟩ := h
    exact (substituteMember_computes hts hm.hasKey hs hcontainer).toKeeps.discard
  | memberIn m container => exact (memberIn_keeps hts h.1 h.2).discard
  | instantiateMethod m typeArgs =>
    exact (instantiateMethod_computes hts h.1.hasKey h.2).toKeeps.discard
  | deriveMember origin kind container =>
    exact (deriveMember_computes hts h.1.hasKey h.2).toKeeps.discard
  | findField container name => exact (findField_keeps hts h name).discard
  | findMethod container name args => exact (findMethod_keeps hts h name args).discard
  | findConstructor container args => exact (findConstructor_keeps hts h args).discard
  | requireClass name => exact (requireClass_keeps hts name).discard
  | memberName m => exact (memberName_keeps hts m).discard

end Query

end Erasure.TypeSystem
