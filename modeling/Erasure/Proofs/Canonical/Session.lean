/-
Sessions: every state that a canonicalizer can be in.

A session starts from the prelude with nothing remembered, and goes on by declarations, queries and
canonicalizations in any order. `Reachable` are the states of a session, `Later` those that a state
comes to without a declaration and without forgetting what it remembers. The main statements:

* `Reachable.valid`: the invariant holds in every state of a session.
* `Later.grows`: without declarations a valid state grows into a valid state.
-/
import Erasure.Proofs.Canonical.Reconciliation
import Erasure.Proofs.TypeSystem.Operation

namespace Erasure.Canonicalizer

variable {s t u : Canonicalizer}

/-! ### Canonicalizations -/

/-- What is asked of a canonicalizer. -/
inductive Canonicalization where
  | type (ty : TypeId)
  | outer (c : ClassId)
  | classErasure (c : ClassId)
  | memberErasure (m : MemberId)
  | member (m : MemberId)

namespace Canonicalization

/-- Canonicalizes, and drops the answer. -/
def run : Canonicalization → CanonicalM Unit
  | type ty => discard <| canonicalize ty
  | outer c => discard <| canonicalOuter c
  | classErasure c => discard <| Canonicalizer.classErasure c
  | memberErasure m => discard <| Canonicalizer.memberErasure m
  | member m => discard (canonicalizeMember m).run

/-- The type or member to be made canonical is there. -/
def Admitted (s : Canonicalizer) : Canonicalization → Prop
  | type ty => s.types.pool.Has ty
  | outer _ | classErasure _ => True
  | memberErasure m | member m => s.types.HasMember m

theorem canonicalOuter_keeps (hs : s.Valid) (hacyclic : s.types.Acyclic) (c : ClassId) :
    Keeps (canonicalOuter c) s fun x t => ∀ ty ∈ x, t.types.pool.IsNormal ty := by
  have hcanonical : Canonicalizes canonicalize canonicalize (erasureDepth s.types) s :=
    fun ty t hst ht hty _ =>
      .of_keeps (canonicalize_computes ht (acyclic_of_grows hs hst hacyclic) hty).toKeeps
  refine (outerWith_keeps hs hcanonical fun ty hty => ?_).toKeeps
  exact TypeSystem.enough_erasureDepth hs.types hacyclic ((hs.types.classes c).outer ty hty)

theorem run_keeps (hs : s.Valid) (hacyclic : s.types.Acyclic) {c : Canonicalization}
    (h : c.Admitted s) : Keeps c.run s fun _ _ => True := by
  cases c with
  | type ty => exact (canonicalize_computes hs hacyclic h).toKeeps.discard
  | outer c => exact (canonicalOuter_keeps hs hacyclic c).discard
  | classErasure c => exact (classErasure_computes hs hacyclic c).toKeeps.discard
  | memberErasure m => exact (memberErasure_computes hs hacyclic h).toKeeps.discard
  | member m => exact (canonicalizeMember_keeps hs hacyclic h).discard

end Canonicalization

/-! ### Sessions -/

/-- Declaring keeps what is remembered. -/
theorem lift_advances {α : Type} {act : StateM TypeSystem α} {P : α → TypeSystem → Prop}
    (hs : s.Valid) (h : Advances act s.types P) :
    Advances (liftM act : CanonicalM α) s fun a t => P a t.types := by
  have hle : s ≤ { s with types := (act s.types).2 } :=
    ⟨h.le, le_refl _, le_refl _, le_refl _, le_refl _⟩
  exact ⟨hle, hs.extend hle h.valid Or.inl Or.inl Or.inl Or.inl Or.inl, h.post⟩

/-- A type system with nothing remembered. -/
def fresh (ts : TypeSystem) : Canonicalizer := ⟨ts, {}⟩

theorem fresh_valid {ts : TypeSystem} (hts : ts.Valid) : (fresh ts).Valid where
  types := hts
  canonical := nofun
  fixed := nofun
  outers := nofun
  classSubsts := nofun
  memberSubsts := nofun
  members := nofun

/-- The state after a declaration. -/
def declared (s : Canonicalizer) (d : TypeSystem.Declaration) : Canonicalizer :=
  ((liftM d.run : CanonicalM Unit) s).2

/-- The state after a query. -/
def asked (s : Canonicalizer) (q : TypeSystem.Query) : Canonicalizer :=
  ((liftM q.run : CanonicalM Unit) s).2

/-- The state after a canonicalization. -/
def canonicalized (s : Canonicalizer) (c : Canonicalization) : Canonicalizer := (c.run s).2

/-- The states of a session. Types and members are made canonical while the declarations are
acyclic. -/
inductive Reachable : Canonicalizer → Prop
  | initial : Reachable (fresh .initial)
  | declare {s : Canonicalizer} (d : TypeSystem.Declaration) : Reachable s → d.Admitted s.types →
      Reachable (s.declared d)
  | ask {s : Canonicalizer} (q : TypeSystem.Query) : Reachable s → q.Admitted s.types →
      Reachable (s.asked q)
  | canonicalize {s : Canonicalizer} (c : Canonicalization) : Reachable s → s.types.Acyclic →
      c.Admitted s → Reachable (s.canonicalized c)
  | forget {s : Canonicalizer} : Reachable s → Reachable (fresh s.types)

/-- The invariant holds in every state of a session. -/
theorem Reachable.valid (h : Reachable s) : s.Valid := by
  induction h with
  | initial => exact fresh_valid TypeSystem.initial_valid
  | declare d _ hd ih =>
    exact (lift_advances ih (TypeSystem.Declaration.run_advances ih.types hd)).valid
  | ask q _ hq ih => exact (lift_keeps ih (TypeSystem.Query.run_keeps ih.types hq)).valid
  | canonicalize c _ hacyclic hc ih => exact (Canonicalization.run_keeps ih hacyclic hc).valid
  | forget _ ih => exact fresh_valid ih.types

/-- The type system of a session begins with the prelude. -/
theorem Reachable.initial_le (h : Reachable s) : TypeSystem.initial ≤ s.types := by
  have hfresh : ∀ ts : TypeSystem, ts ≤ (fresh ts).types := fun ts => le_refl ts
  induction h with
  | initial => exact hfresh .initial
  | @declare s d hs hd ih =>
    have hrun := TypeSystem.Declaration.run_advances hs.valid.types hd
    exact le_trans ih hrun.le
  | @ask s q hs hq ih =>
    have hrun := TypeSystem.Query.run_keeps hs.valid.types hq
    exact le_trans ih hrun.grows.le
  | @canonicalize s c hs hacyclic hc ih =>
    exact le_trans ih (Canonicalization.run_keeps hs.valid hacyclic hc).grows.le.1
  | forget _ ih => exact ih

/-- The states that a state comes to while the declarations stay as they are. -/
inductive Later : Canonicalizer → Canonicalizer → Prop
  | refl (s : Canonicalizer) : Later s s
  | ask {s t : Canonicalizer} (q : TypeSystem.Query) : Later s t → q.Admitted t.types →
      Later s (t.asked q)
  | canonicalize {s t : Canonicalizer} (c : Canonicalization) : Later s t → c.Admitted t →
      Later s (t.canonicalized c)

/-- Without declarations a valid state grows into a valid state. -/
theorem Later.grows (hs : s.Valid) (hacyclic : s.types.Acyclic) (h : Later s t) :
    Store.Grows s t ∧ t.Valid := by
  induction h with
  | refl => exact ⟨.refl s, hs⟩
  | ask q _ hq ih =>
    obtain ⟨hst, ht⟩ := ih
    have hstep := lift_keeps ht (TypeSystem.Query.run_keeps ht.types hq)
    exact ⟨hst.trans hstep.grows, hstep.valid⟩
  | canonicalize c _ hc ih =>
    obtain ⟨hst, ht⟩ := ih
    have hstep := Canonicalization.run_keeps ht (acyclic_of_grows hs hst hacyclic) hc
    exact ⟨hst.trans hstep.grows, hstep.valid⟩

/-! ### Examples -/

/-- A session that declares a class `Box<T>` with a field of type `T` and a method
`<U> U map(T, U)`, and instantiates it for strings. -/
def boxSession : Canonicalizer :=
  let s := (fresh .initial).declared (.declareClass "Box" {})
  let s := s.declared (.addTypeParam ⟨2⟩ "T" none)
  let s := s.declared (.addMethodTypeParam "U" none)
  let s := (s.asked (.typeVar ⟨0⟩)).asked (.typeVar ⟨1⟩)
  let s := (s.asked (.intern "value")).asked (.intern "map")
  let s := s.declared (.declareMember ⟨2⟩ (.field ⟨12⟩ ⟨13⟩) {})
  let s := s.declared (.declareMember ⟨2⟩ (.method ⟨13⟩ [⟨13⟩, ⟨14⟩] ⟨14⟩ [⟨1⟩]) {})
  s.asked (.instantiate ⟨2⟩ [.string] none)

theorem boxSession_reachable : Reachable boxSession := by
  refine .ask _ (.declare _ (.declare _ (.ask _ (.ask _ (.ask _ (.ask _ (.declare _ (.declare _
    (.declare _ .initial ?_) ?_) ?_) ?_) ?_) ?_) ?_) ?_) ?_) ?_
  · trivial
  · nofun
  · nofun
  · trivial
  · trivial
  · trivial
  · trivial
  · unfold TypeSystem.Declaration.Admitted
    decide +kernel
  · unfold TypeSystem.Declaration.Admitted
    decide +kernel
  · exact ⟨by decide +kernel, nofun⟩

theorem boxSession_acyclic : boxSession.types.Acyclic :=
  TypeSystem.acyclic_of_isEnd (by decide +kernel)

/-- The class declares the field and the method, and its instantiation comes last. -/
theorem boxSession_declares : (boxSession.types.classDef ⟨2⟩).members = [⟨15⟩, ⟨16⟩] ∧
    (boxSession.types.member ⟨16⟩).kind.typeParams = [⟨1⟩] ∧
    boxSession.types.pool.HasKind ⟨16⟩ (.inst ⟨2⟩ ⟨1⟩ none) := by decide +kernel

/-- A session that instantiates `Box<T>` for its own parameter `T` and for the type parameter `U` of
its method, binds `U` to strings, alone and together with `T`, and joins `T` and `U`. -/
def layersSession : Canonicalizer :=
  let s := boxSession.asked (.instantiate ⟨2⟩ [⟨13⟩] none)
  let s := s.asked (.instantiate ⟨2⟩ [⟨14⟩] none)
  let s := s.asked (.internSubst [(⟨1⟩, .string)])
  let s := s.asked (.internSubst [(⟨0⟩, .string), (⟨1⟩, .string)])
  s.asked (.lubOf [⟨13⟩, ⟨14⟩])

theorem layersSession_reachable : Reachable layersSession := by
  -- The steps make one goal, so that the prelude is evaluated once.
  suffices h : _ ∧ _ ∧ _ ∧ _ ∧ _ by
    obtain ⟨h₁, h₂, h₃, h₄, h₅⟩ := h
    exact .ask _ (.ask _ (.ask _ (.ask _ (.ask _ boxSession_reachable ⟨h₁, nofun⟩) ⟨h₂, nofun⟩) h₃)
      h₄) h₅
  unfold TypeSystem.Query.Admitted
  decide +kernel

/-- The instantiations of the class, for strings and for `U`, the last substitutions and the upper
bound. -/
theorem layersSession_declares :
    ⟨16⟩ ∈ (layersSession.types.classDef ⟨2⟩).members ∧
      layersSession.types.pool.HasKind ⟨16⟩ (.inst ⟨2⟩ ⟨1⟩ none) ∧
      layersSession.types.pool.HasKind ⟨18⟩ (.inst ⟨2⟩ ⟨3⟩ none) ∧
      layersSession.types.pool.HasBindings ⟨3⟩ [(⟨0⟩, ⟨14⟩)] ∧
      layersSession.types.pool.HasBindings ⟨4⟩ [(⟨1⟩, .string)] ∧
      layersSession.types.pool.HasBindings ⟨5⟩ [(⟨0⟩, .string), (⟨1⟩, .string)] ∧
      layersSession.types.pool.Has ⟨19⟩ := by decide +kernel

end Erasure.Canonicalizer
