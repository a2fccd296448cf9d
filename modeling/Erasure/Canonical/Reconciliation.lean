/-
Canonical members: the declared member that an instance stands for, with an erased signature.

An instance seen in an instantiation is reconciled with a declared member: one whose image, its
own type parameters erased, is the instance. Every instance of one declared member has the same
canonical form. An instance that no declared member explains is an error (`CanonError`), and then
nothing is remembered of it.
-/
import Erasure.Canonical.Basic
import Erasure.TypeSystem.Display
import Erasure.TypeSystem.Image

namespace Erasure

/-- Why a member has no canonical form: its container declares nothing that it is an image of. -/
inductive CanonError where
  | unreconcilable (member container : String)
  deriving DecidableEq, Repr

/-- The text of a canonicalization error. -/
def CanonError.message : CanonError → String
  | unreconcilable member container =>
    "cannot reconcile `" ++ member ++ "` with any member declared by `" ++ container ++ "`"

/-- The cause of a canonicalization error in one word. -/
def CanonError.code : CanonError → String
  | unreconcilable .. => "Canon.Unreconcilable"

namespace Canonicalizer

/-- Remembers the canonical form of a member, which is its own canonical form. -/
def rememberMember (m canonical : MemberId) : CanonicalM Unit :=
  modifyMemo fun memo =>
    { memo with members := (memo.members.insert m canonical).insert canonical canonical }

/-- Erases the own type parameters of a generic member. An instance made by supplying type
arguments goes back to its generic form first, so that it equals what the declaration gives. -/
def eraseOwnTypeParams (m : MemberId) : CanonicalM MemberId := do
  let generic := (← get).types.genericForm m
  match ← memberErasure generic with
  | some subst => do
    let container := ((← get).types.member generic).container
    liftM (TypeSystem.substituteMember generic subst container)
  | none => return m

/-- Makes every type of a signature and the container canonical. -/
def eraseSignature (m : MemberId) : CanonicalM MemberId := do
  let member := (← get).types.member m
  let kind ← member.kind.mapTypesM canonicalize
  let kind := kind.withoutTypeParams
  let container ← canonicalize member.container
  if kind = member.kind && container = member.container then
    return m
  liftM (TypeSystem.deriveMember m kind container)

/-- Whether a declared member, seen in `container` under its substitution and with its own type
parameters erased, is the instance `erased`. -/
def explains (subst : SubstId) (container : TypeId) (erased decl : MemberId) :
    CanonicalM Bool := do
  let image ← liftM (TypeSystem.substituteMember decl subst container)
  return (← eraseOwnTypeParams image) = erased

/-- The first of the members that explains the instance `erased`. -/
def firstExplaining (subst : SubstId) (container : TypeId) (erased : MemberId) :
    List MemberId → CanonicalM (Option MemberId)
  | [] => pure none
  | decl :: rest => do
    if ← explains subst container erased decl then
      return some decl
    firstExplaining subst container erased rest

/-- The member declared by `base` that explains the instance `erased`. The declaration that the
instance `m` is linked to is tried first, then all declared members in order. -/
def findDeclared (m erased : MemberId) (container : TypeId) (base : ClassId) :
    CanonicalM (Option MemberId) := do
  let subst ← liftM (Pool.fullSubst container : StateM Pool SubstId)
  let ts := (← get).types
  let declared := (ts.classDef base).members
  let linked := (ts.member m).decl
  firstExplaining subst container erased
    (if linked ∈ declared then linked :: declared else declared)

/-- The canonical form of an instance whose container is no instantiation: the type parameters of
the class are erased, then the types of the signature. -/
def canonicalizeRaw (erased : MemberId) (container : TypeId) : CanonicalM MemberId := do
  match (← get).types.kind container with
  | .raw c => do
    match ← classErasure c with
    | some subst => do
      eraseSignature (← liftM (TypeSystem.substituteMember erased subst container))
    | none => eraseSignature erased
  | _ => eraseSignature erased

/-- The canonical form of a declared member. -/
def canonicalizeDeclared (m : MemberId) : CanonicalM MemberId := do
  let s ← get
  match s.memo.members.find? m with
  | some canonical => return canonical
  | none => do
    let erased ← eraseOwnTypeParams m
    let canonical ← canonicalizeRaw erased (s.types.member m).container
    rememberMember m canonical
    return canonical

/-- The canonical form of a member instance: that of the declared member it stands for. -/
def canonicalizeMember (m : MemberId) : ExceptT CanonError CanonicalM MemberId := do
  let s ← get
  match s.memo.members.find? m with
  | some canonical => return canonical
  | none => do
    let container := (s.types.member m).container
    let erased ← liftM (eraseOwnTypeParams m)
    match s.types.kind container with
    | .inst base _ _ => do
      match ← liftM (findDeclared m erased container base) with
      | some decl => do
        let canonical ← liftM (canonicalizeDeclared decl)
        liftM (rememberMember m canonical)
        return canonical
      | none => do
        let ts := (← get).types
        throw (.unreconcilable (ts.displayMember m) (ts.display container))
    | _ => do
      let canonical ← liftM (canonicalizeRaw erased container)
      liftM (rememberMember m canonical)
      return canonical

end Canonicalizer

end Erasure
