/-
Lookup and subtyping agree on what is above a class type.

A lookup walks types, with the arguments of the type substituted in what its class extends, so that
it may meet types that were never mentioned before, and several instantiations of one class; subtyping
looks at classes. The main statements:

* `isSubtype_iff_inherits`: class types are subtypes as their classes inherit.
* `findField_isAtOrAbove`, `findMethod_isAtOrAbove`: what is found is a member of a type of the
  class, or of one above it.
* `lookupChain_agrees`: the chain ends, and it has the classes that subtyping sees.
-/
import Erasure.Proofs.Canonical.Monotone
import Erasure.Proofs.Lookup.Search

namespace Erasure

open Relation (ReflTransGen TransGen)

namespace TypeSystem

variable {ts us : TypeSystem} {t s ty : TypeId} {c d : ClassId}

/-! ### Subtypes -/

/-- Class types are subtypes as their classes inherit. -/
theorem isSubtype_iff_inherits (ht : ts.classOf? t = some c) (hs : ts.classOf? s = some d) :
    ts.isSubtype t s = true ↔ ReflTransGen ts.Inherits c d := by
  have hassignable : ts.isAssignable t s = ts.isSubtype t s := by
    unfold isAssignable
    split
    case h_1 hprim _ =>
      rw [classOf?, hprim] at ht
      cases ht
    case h_2 => rfl
  rw [← hassignable]
  refine ⟨fun h => ?_, isAssignable_of_class ht hs⟩
  obtain ⟨e, he, hce⟩ := class_of_isAssignable ht (isRigid_of_classOf? hs) h
  exact Option.some.inj (hs.symm.trans he) ▸ hce

theorem IsAtOrAbove.isSubtype (ht : ts.classOf? t = some c) (h : ts.IsAtOrAbove c s) :
    ts.isSubtype t s = true := by
  obtain ⟨d, hd, hcd⟩ := h
  exact (isSubtype_iff_inherits ht hd).mpr hcd

/-! ### The containers of what is found -/

/-- A declared member as a type of its class sees it has that type for its container. -/
theorem memberIn_container (hts : ts.Valid) {decl : MemberId} (hdecl : decl ∈ (ts.classDef c).members)
    (hc : ts.classOf? ty = some c) :
    Keeps (memberIn decl ty) ts fun m us => us.HasMember m ∧ (us.member m).container = ty := by
  have hm := hts.hasMember_of_declared hdecl
  have hkind := (has_of_classOf? hc).hasKind
  cases hk : ts.pool.kind ty with
  | inst base s outer =>
    refine (memberIn_computes hts hm.hasKey (hk ▸ hkind)).toKeeps.mono fun m us _ _ h => ?_
    obtain ⟨_, _, hkey⟩ := h
    exact ⟨hkey.hasMember, hkey.container_eq⟩
  | raw b =>
    obtain ⟨k, hkey, hraw, -⟩ := (hts.classes c).members decl hdecl
    have hb : b = c := by
      rw [classOf?, kind, hk] at hc
      exact Option.some.inj hc
    unfold memberIn
    refine Keeps.get_bind ?_
    rw [kind, hk]
    refine Keeps.pure hts ⟨hm, ?_⟩
    rw [hkey.container_eq]
    exact hraw.inj (hb ▸ hk ▸ hkind)
  | prim _ | null | array _ | var _ | lub _ =>
    rw [classOf?, kind, hk] at hc
    cases hc

/-- The types of a chain are of the class or of those above it. -/
theorem lookupChain_isAtOrAbove (hts : ts.Valid) (hlinks : ts.LinksClasses)
    (hacyclic : ∀ c, ¬ TransGen ts.Inherits c c) (hc : ts.classOf? t = some c) :
    Keeps (lookupChain t).run ts (Found fun chain us => ∀ u ∈ chain, us.IsAtOrAbove c u) := by
  obtain ⟨chain, us, hwalks⟩ := exists_walksChain hts hlinks hacyclic hc
  refine ⟨?_, ?_, ?_⟩ <;> rw [hwalks.lookup]
  · exact hwalks.grows
  · exact hwalks.valid
  · exact found_ok fun u hu => hwalks.isAtOrAbove hts hlinks hc hu

/-- Members of types of the class, or of types above it. -/
def AreMembersAbove (ts : TypeSystem) (c : ClassId) (ms : List MemberId) : Prop :=
  ∀ m ∈ ms, ts.HasMember m ∧ ts.IsAtOrAbove c (ts.member m).container

theorem AreMembersAbove.of_extends (hts : ts.Valid) (hext : Extends ts us) {ms : List MemberId}
    (h : ts.AreMembersAbove c ms) : us.AreMembersAbove c ms := by
  intro m hm
  obtain ⟨hmem, habove⟩ := h m hm
  rw [member_of_le hext.le hmem]
  exact ⟨hmem.of_le hext.le, habove.of_extends hts hext⟩

/-- The candidates of a chain are members of its types. -/
theorem methodCandidates_areMembersAbove (hts : ts.Valid) {chain : List TypeId}
    (hchain : ∀ u ∈ chain, ts.IsAtOrAbove c u) (n : Name) (args : List TypeId) :
    Keeps (methodCandidates chain n args) ts fun ms us => us.AreMembersAbove c ms := by
  rw [methodCandidates_eq]
  refine Keeps.foldlM hts (fun m hm => absurd hm List.not_mem_nil) ?_
  intro u hu ms us hus hvalid hms
  unfold candidatesAt
  refine Keeps.get_bind (Keeps.foldlM hvalid hms ?_)
  intro decl hdecl ms' vs hvs hvalid' hms'
  cases hd : us.classOf? u with
  | none =>
    rw [hd] at hdecl
    exact absurd hdecl List.not_mem_nil
  | some d =>
    rw [hd] at hdecl
    have hvs' : Extends us vs := hvs
    have hmem := declared_of_le hvs'.le (mem_declaredMethods hdecl).1
    have hd' := (classOf?_of_le hvs'.le (has_of_classOf? hd)).trans hd
    unfold addMethodCandidate
    refine (memberIn_container hvalid' hmem hd').bind fun image ws hws hvalid'' h => ?_
    refine Keeps.get_bind ?_
    have hold := hms'.of_extends hvalid' hws
    have hext : Extends ts ws := (hus.trans hvs).trans hws
    dsimp only
    split
    · refine Keeps.pure hvalid'' fun m hm => ?_
      rcases List.mem_append.mp hm with hm | hm
      · exact hold m hm
      · obtain rfl := List.mem_singleton.mp hm
        exact ⟨h.1, h.2.symm ▸ (hchain u hu).of_extends hts hext⟩
    · exact Keeps.pure hvalid'' hold

section Members

variable (hts : ts.Valid) (hlinks : ts.LinksClasses)
  (hacyclic : ∀ c, ¬ TransGen ts.Inherits c c) (hc : ts.classOf? t = some c)
include hts hlinks hacyclic hc

/-- A lookup begins by interning the name, and then finds the chain. -/
theorem lookupChain_isAtOrAbove_of_extends (hext : Extends ts us) (hus : us.Valid) :
    Keeps (lookupChain t).run us (Found fun chain vs => ∀ u ∈ chain, vs.IsAtOrAbove c u) := by
  refine lookupChain_isAtOrAbove hus (hlinks.of_extends hts hext) ?_ ?_
  · rwa [hext.inherits_eq hts]
  · exact (classOf?_of_le hext.le (has_of_classOf? hc)).trans hc

/-- A field that is found is one of a type of the class or of one above it. -/
theorem findField_isAtOrAbove (name : String) :
    Keeps (findField t name).run ts
      (Found fun m us => us.IsAtOrAbove c (us.member m).container) := by
  unfold findField
  refine (intern_keeps hts name).run_lift_bind fun n us hus hvalid _ => ?_
  refine (lookupChain_isAtOrAbove_of_extends hts hlinks hacyclic hc hus hvalid).run_bind ?_ ?_
  · exact fun e vs _ _ _ => found_error e
  intro chain vs hvs hvalid' habove
  refine Keeps.run_get_bind ?_
  dsimp only
  split
  · rename_i m ty hfound
    obtain ⟨u, hu, hm⟩ := List.exists_of_findSome?_eq_some hfound
    obtain ⟨d, hd, hm⟩ := Option.bind_eq_some_iff.mp hm
    obtain ⟨m', hm', heq⟩ := Option.bind_eq_some_iff.mp hm
    cases heq
    have hcontainer := memberIn_container hvalid' (List.mem_of_find?_eq_some hm') hd
    refine hcontainer.run_lift fun m ws hws h => found_ok ?_
    rw [h.2]
    exact (habove chain rfl _ hu).of_extends hvalid' hws
  · exact Keeps.pure hvalid' (found_error _)

/-- So is a method that is found. -/
theorem findMethod_isAtOrAbove (name : String) (args : List TypeId) :
    Keeps (findMethod t name args).run ts
      (Found fun m us => us.IsAtOrAbove c (us.member m).container) := by
  unfold findMethod
  refine (intern_keeps hts name).run_lift_bind fun n us hus hvalid _ => ?_
  refine (lookupChain_isAtOrAbove_of_extends hts hlinks hacyclic hc hus hvalid).run_bind ?_ ?_
  · exact fun e vs _ _ _ => found_error e
  intro chain vs _ hvalid' habove
  refine (methodCandidates_areMembersAbove hvalid' (habove chain rfl) n args).run_lift_bind ?_
  intro candidates ws _ hvalid'' hcandidates
  refine Keeps.run_get_bind ?_
  split
  · rename_i m hm
    exact Keeps.pure hvalid'' (found_ok (hcandidates m (mem_of_mostSpecific? hm)).2)
  · exact Keeps.pure hvalid'' (found_error _)

end Members

/-- What is found is a member of a supertype, if it is one of a type of the class or of one above. -/
theorem isSubtype_of_found (hc : ts.classOf? t = some c) {act : LookupM MemberId}
    (h : Keeps act.run ts (Found fun m us => us.IsAtOrAbove c (us.member m).container))
    {m : MemberId} (hrun : act.run ts = (.ok m, us)) :
    us.isSubtype t (us.member m).container = true := by
  have hext : Extends ts us := by
    have hgrows := h.grows
    rwa [hrun] at hgrows
  have hpost := h.post
  rw [hrun] at hpost
  exact (hpost m rfl).isSubtype ((classOf?_of_le hext.le (has_of_classOf? hc)).trans hc)

/-! ### One hierarchy -/

/-- Where classes extend class types and none inherits from itself, the search for the types above a
class type comes to an end, whatever instantiations it meets, and a lookup walks what it finds: no
type twice, each one a supertype of the type. The classes on the way are those of the class closure,
and those of the class types that the type is a subtype of. So every field and method that is found
is a member of a supertype. -/
theorem lookupChain_agrees (hts : ts.Valid) (hlinks : ts.LinksClasses)
    (hacyclic : ∀ c, ¬ TransGen ts.Inherits c c) (hc : ts.classOf? t = some c) :
    (∃ chain us, (lookupChain t).run ts = (.ok chain, us) ∧ Searches [] [t] ts chain us ∧
      chain.Nodup ∧
      (∀ d, d ∈ ts.classClosure c ↔ ∃ u ∈ chain, us.classOf? u = some d) ∧
      (∀ u ∈ chain, us.isSubtype t u = true) ∧
      (∀ s d, us.classOf? s = some d → us.isSubtype t s = true →
        ∃ u ∈ chain, us.classOf? u = some d)) ∧
      (∀ name m us, (findField t name).run ts = (.ok m, us) →
        us.isSubtype t (us.member m).container = true) ∧
      ∀ name args m us, (findMethod t name args).run ts = (.ok m, us) →
        us.isSubtype t (us.member m).container = true := by
  refine ⟨?_, fun name m us => ?_, fun name args m us => ?_⟩
  · obtain ⟨chain, us, hwalks⟩ := exists_walksChain hts hlinks hacyclic hc
    have hc' := (classOf?_of_le hwalks.grows.le (has_of_classOf? hc)).trans hc
    refine ⟨chain, us, hwalks.lookup, hwalks.searches, hwalks.isChain.nodup, fun d => ?_,
      fun u hu => (hwalks.isAtOrAbove hts hlinks hc hu).isSubtype hc', fun s d hs hsub => ?_⟩
    · rw [hwalks.exists_class_iff hts hlinks hc, mem_classClosure_iff, hwalks.grows.inherits_eq hts]
    · exact (hwalks.exists_class_iff hts hlinks hc).mpr ((isSubtype_iff_inherits hc' hs).mp hsub)
  · exact isSubtype_of_found hc (findField_isAtOrAbove hts hlinks hacyclic hc name)
  · exact isSubtype_of_found hc (findMethod_isAtOrAbove hts hlinks hacyclic hc name args)

/-- A session with the classes `A<T>`, `B<U>`, which extends `A<A<U>>`, and `C<V>`, which extends
`B<B<V>>`, and with `C` instantiated for strings. -/
def growingSession : Canonicalizer :=
  let s := (Canonicalizer.fresh .initial).declared (.declareClass "A" {})
  let s := (s.declared (.declareClass "B" {})).declared (.declareClass "C" {})
  let s := s.declared (.addTypeParam ⟨2⟩ "T" none)
  let s := s.declared (.addTypeParam ⟨3⟩ "U" none)
  let s := s.declared (.addTypeParam ⟨4⟩ "V" none)
  let s := (s.asked (.typeVar ⟨1⟩)).asked (.typeVar ⟨2⟩)
  let s := (s.asked (.instantiate ⟨2⟩ [⟨13⟩] none)).asked (.instantiate ⟨2⟩ [⟨15⟩] none)
  let s := s.declared (.setSuperclass ⟨3⟩ ⟨16⟩)
  let s := (s.asked (.instantiate ⟨3⟩ [⟨14⟩] none)).asked (.instantiate ⟨3⟩ [⟨17⟩] none)
  let s := s.declared (.setSuperclass ⟨4⟩ ⟨18⟩)
  s.asked (.instantiate ⟨4⟩ [.string] none)

theorem growingSession_reachable : Canonicalizer.Reachable growingSession := by
  -- The steps make one goal, so that the prelude is evaluated once.
  suffices h : _ ∧ _ ∧ _ ∧ _ ∧ _ ∧ _ ∧ _ by
    obtain ⟨h₁, h₂, h₃, h₄, h₅, h₆, h₇⟩ := h
    exact .ask _ (.declare _ (.ask _ (.ask _ (.declare _ (.ask _ (.ask _ (.ask _ (.ask _ (.declare _
      (.declare _ (.declare _ (.declare _ (.declare _ (.declare _ .initial trivial) trivial) trivial)
      nofun) nofun) nofun) trivial) trivial) ⟨h₁, nofun⟩) ⟨h₂, nofun⟩) h₃) ⟨h₄, nofun⟩) ⟨h₅, nofun⟩)
      h₆) ⟨h₇, nofun⟩
  unfold TypeSystem.Declaration.Admitted
  decide +kernel

/-- The chain of `C<String>` has an instantiation of every class on the way, each with larger
arguments than the one before. -/
theorem lookupChain_agrees_growing :
    ∃ chain us, (lookupChain ⟨19⟩).run growingSession.types = (.ok chain, us) ∧
      Searches [] [⟨19⟩] growingSession.types chain us ∧
      chain.map us.display =
        ["C<core.String>", "B<B<core.String>>", "A<A<B<core.String>>>", "core.Object"] ∧
      ∀ u ∈ chain, us.isSubtype ⟨19⟩ u = true := by
  have hvalid := growingSession_reachable.valid.types
  obtain ⟨hflat, hold, hclass, hdisplay⟩ :
      ((∀ i < growingSession.types.classes.size, ∀ ty ∈ growingSession.types.declaredSupertypes ⟨i⟩,
          (growingSession.types.classOf? ty).isSome) ∧
        growingSession.types.declaredSupertypes .object = [] ∧
        ∀ i < growingSession.types.pool.size,
          growingSession.types.isBoundedBelow i (growingSession.types.kind ⟨i⟩) = true) ∧
      (∀ i < growingSession.types.classes.size,
        ∀ d ∈ growingSession.types.superclasses ⟨i⟩, d.index < i) ∧
      growingSession.types.classOf? ⟨19⟩ = some ⟨4⟩ ∧
      let found := (lookupChain ⟨19⟩).run growingSession.types
      found.1.toOption.map (List.map found.2.display) =
        some ["C<core.String>", "B<B<core.String>>", "A<A<B<core.String>>>", "core.Object"] := by
    decide +kernel
  have hlinks : growingSession.types.LinksClasses := (hvalid.wellFormed hflat).supertypes
  obtain ⟨⟨chain, us, hlookup, hsearch, -, -, hsubtypes, -⟩, -⟩ :=
    lookupChain_agrees hvalid hlinks (not_inherits_self hold) hclass
  rw [hlookup] at hdisplay
  exact ⟨chain, us, hlookup, hsearch, Option.some.inj hdisplay, hsubtypes⟩

end TypeSystem

end Erasure
