/-
Overriding.

A method that a class declares hides the methods above it that have its formals. Formals are compared
as the types above the class see them, without erasing them. So a method above that has the same
canonical formals, but not the same formals, is a candidate next to the method of the class, and the two
have to be told apart by which formals climb to which. The main statements:

* `methodsSeen_raw`, `mem_candidatesAmong_own`: the class comes first, so its method is a candidate.
* `isMoreSpecific_iff_climbs`: among formals with the same canonical forms, climbing decides.
* `erasedAlike_iff`: canonical forms agree exactly if the outlines do.
* `findMethod_eq_ok_iff_climbs`: when a class overrides what is above it, and what is found if not.
-/
import Erasure.Proofs.Canonical.Applicability
import Erasure.Proofs.Lookup.Candidates
import Erasure.Proofs.Strings.StringClass

namespace Erasure

namespace TypeSystem

variable {ts us : TypeSystem} {n : Name} {args : List TypeId} {ty : TypeId} {c : ClassId}

/-! ### Methods of the class -/

/-- A raw class sees the methods that it declares as they are, and before all others. -/
theorem methodsSeen_raw (hk : ts.kind ty = .raw c) (chain : List TypeId) :
    ∃ above, (methodsSeen (ty :: chain) n ts).1 = ts.declaredMethods c n ++ above := by
  have hclass : ts.classOf? ty = some c := by rw [classOf?, hk]; rfl
  have hty : ts.pool.Has ty := has_of_classOf? hclass
  have hdecls : ts.declaredOn (ty :: chain) n =
      (ts.declaredMethods c n).map (·, ty) ++ ts.declaredOn chain n := by
    simp [declaredOn, hclass]
  have hown : Answers ((ts.declaredMethods c n).mapM fun decl => memberIn decl ty)
      (ts.declaredMethods c n) ts := Answers.mapM_self fun decl _ us hus =>
    memberIn_raw ((kind_of_le hus hty).trans hk) decl
  unfold methodsSeen
  rw [get_bind_apply, hdecls, List.mapM_append, List.mapM_map, bind_apply]
  exact ⟨_, congrArg (· ++ _) (congrArg Prod.fst hown.eq)⟩

/-- The first method of the class with its formals is a candidate if it is applicable. -/
theorem mem_candidatesAmong_own {own above : List MemberId} {m : MemberId}
    (happlicable : ts.isApplicable m args = true)
    (hfirst : own.find? (fun k => (ts.member k).kind.formals = (ts.member m).kind.formals) = some m) :
    m ∈ ts.candidatesAmong args (own ++ above) := by
  obtain ⟨-, before, after, rfl, hbefore⟩ := List.find?_eq_some_iff_append.mp hfirst
  rw [List.append_assoc, List.cons_append, candidatesAmong, List.foldl_append, List.foldl_cons]
  rcases withCandidate_cases ts args (before.foldl (ts.withCandidate args) []) m with
    ⟨-, -, heq⟩ | ⟨hold, -⟩
  · rw [heq]
    exact mem_foldl_withCandidate (List.mem_append_right _ List.mem_cons_self)
  · obtain ⟨k, hk, hformals⟩ := hold happlicable
    have hne := hbefore k (mem_candidatesAmong hk).1
    simp [hformals] at hne

theorem hasName_of_mem_declaredMethods (hts : ts.Valid) {m : MemberId}
    (hm : m ∈ ts.declaredMethods c n) : ts.HasName n := by
  obtain ⟨hdeclared, formals, result, params, hkind⟩ := mem_declaredMethods hm
  refine (hts.keys (hts.hasMember_of_declared hdeclared).hasKey).name n ?_
  rw [hkind]
  rfl

/-- A lookup in a raw class sees the methods of the class, and those that are applicable and the first
ones of the class with their formals are candidates. -/
theorem exists_sees (hts : ts.Valid) (hwf : ts.WellFormed) {m : MemberId}
    (hk : ts.kind ty = .raw c) (hargs : ts.HasAll args) (happlicable : ts.isApplicable m args = true)
    (hfirst : (ts.declaredMethods c n).find?
      (fun k => (ts.member k).kind.formals = (ts.member m).kind.formals) = some m) :
    ∃ chain us methods vs, Sees ts us vs ty (ts.text n) n chain methods ∧
      m ∈ vs.candidatesAmong args methods := by
  obtain ⟨above, us, hlookup, hext, hus, habove⟩ := lookupChain_raw hts hwf.supertypes hk
  have hty : ts.pool.Has ty := has_of_kind_ne_null (by rw [hk]; exact nofun)
  have hchain : us.HasAll (ty :: above) := by
    refine List.forall_mem_cons.mpr ⟨hty.of_le hext.le.1, fun u hu => ?_⟩
    obtain ⟨d, hd, -⟩ := habove u hu
    exact has_of_classOf? hd
  have hm := List.mem_of_find?_eq_some hfirst
  have hsees : Sees ts us (methodsSeen (ty :: above) n us).2 ty (ts.text n) n (ty :: above)
      (methodsSeen (ty :: above) n us).1 :=
    ⟨intern_of_text (hasName_of_mem_declaredMethods hts hm) rfl, hlookup, hext, hus, hchain, rfl⟩
  refine ⟨_, _, _, _, hsees, ?_⟩
  obtain ⟨others, hmethods⟩ := methodsSeen_raw (n := n) ((kind_of_le hext.le hty).trans hk) above
  have hmember : ∀ k ∈ ts.declaredMethods c n,
      (methodsSeen (ty :: above) n us).2.member k = ts.member k := fun k hk =>
    member_of_le hsees.grows.le (hts.hasMember_of_declared (mem_declaredMethods hk).1)
  rw [hmethods, hext.declaredMethods_eq hts]
  refine mem_candidatesAmong_own ?_ ?_
  · rwa [isApplicable_of_extends hts hwf hsees.grows hsees.valid
      (hts.hasMember_of_declared (mem_declaredMethods hm).1) hargs]
  · rw [← hfirst]
    exact List.find?_congr fun k hk => by rw [hmember k hk, hmember m hm]

/-! ### Formals with the same outlines -/

/-- The types of two lists have the same outlines one by one. -/
def HaveSameOutlines (ts : TypeSystem) : List TypeId → List TypeId → Prop :=
  List.Forall₂ fun t u =>
    ∃ shape, ts.HasOutline (fun _ => True) t shape ∧ ts.HasOutline (fun _ => True) u shape

theorem HaveSameOutlines.symm {xs ys : List TypeId} (h : ts.HaveSameOutlines xs ys) :
    ts.HaveSameOutlines ys xs :=
  List.Forall₂.flip (h.imp fun _ _ ⟨shape, ht, hu⟩ => ⟨shape, hu, ht⟩)

/-- The formals of the first procedure climb to those of the second. -/
def FormalsClimb (ts : TypeSystem) (a b : MemberId) : Prop :=
  List.Forall₂ ts.Climbs (ts.member a).kind.formals (ts.member b).kind.formals

/-- Among procedures whose formals have the same outlines, climbing decides which one is more
specific. -/
theorem isMoreSpecific_iff_climbs (h : ts.WellFormed) (hbounds : ts.BoundsReferences) {a b : MemberId}
    (hsame : ts.HaveSameOutlines (ts.member a).kind.formals (ts.member b).kind.formals) :
    ts.isMoreSpecific a b = true ↔ ts.FormalsClimb a b := by
  unfold isMoreSpecific FormalsClimb
  rw [List.all_eq_true]
  generalize (ts.member a).kind.formals = xs, (ts.member b).kind.formals = ys at hsame ⊢
  induction hsame with
  | nil => simp
  | cons hfirst _ ih =>
    obtain ⟨shape, hx, hy⟩ := hfirst
    have hfits : shape.Fits ts.Inherits shape := .below .refl
    rw [List.zip_cons_cons, List.forall_mem_cons, ih, List.forall₂_cons,
      isAssignable_iff_climbs h hbounds hx hy, and_iff_right hfits]

/-- What is not open is climbed to by all types. -/
theorem formalsClimb_of_not_isOpen {a b : MemberId}
    (hsame : ts.HaveSameOutlines (ts.member a).kind.formals (ts.member b).kind.formals)
    (hclosed : ∀ formal ∈ (ts.member b).kind.formals, ¬ ts.IsOpen formal) : ts.FormalsClimb a b := by
  obtain ⟨hlength, -⟩ := List.forall₂_iff_zip.mp hsame
  exact List.forall₂_iff_zip.mpr ⟨hlength, fun hpair => .closed (hclosed _ (List.of_mem_zip hpair).2)⟩

end TypeSystem

namespace Canonicalizer

open TypeSystem (methodsSeen)

variable {s : Canonicalizer}

/-! ### Canonical formals -/

/-- Whether the formals of two procedures have the same canonical forms. -/
def erasedAlike (a b : MemberId) : CanonicalM Bool := do
  return (← erasedFormals a) = (← erasedFormals b)

/-- Formals have the same canonical forms exactly if they have the same outlines. -/
theorem erasedAlike_iff (hs : s.WellFormed) {a b : MemberId} (hb : s.types.HasMember b)
    (hformalsa : HaveOutlines s.types (s.types.member a).kind.formals)
    (hformalsb : HaveOutlines s.types (s.types.member b).kind.formals) :
    (erasedAlike a b s).1 = true ↔ s.types.HaveSameOutlines (s.types.member a).kind.formals
      (s.types.member b).kind.formals := by
  have hrun : Keeps (erasedAlike a b) s fun answer _ => answer = true ↔
      s.types.HaveSameOutlines (s.types.member a).kind.formals (s.types.member b).kind.formals := by
    unfold erasedAlike
    refine (erasedFormals_shapes hs hformalsa).bind fun xs t hst ht hxs => ?_
    have hwt := hs.of_grows hst ht
    have hext : TypeSystem.Extends s.types t.types := Extends.types hst
    have hmember : t.types.member b = s.types.member b := TypeSystem.member_of_le hext.le hb
    have hsecond : Keeps (erasedFormals b) t fun ys u => List.Forall₂ (fun ty r =>
        ∃ shape, s.types.HasOutline (fun _ => True) ty shape ∧ u.types.pool.HasShape r shape)
          (s.types.member b).kind.formals ys := by
      refine Keeps.get_bind ?_
      rw [hmember]
      exact canonicalizeAll_shapes hwt hext hformalsb
    refine hsecond.bind fun ys u htu hu hys => Keeps.pure hu ?_
    rw [decide_eq_true_eq, ← List.forall₂_eq_eq_eq]
    refine forall₂_iff_of_related hxs hys fun ⟨x, hx, hx'⟩ ⟨y, hy, hy'⟩ => ?_
    constructor
    case mp =>
      rintro rfl
      exact ⟨x, hx, (hx'.of_le htu.le.1.1).unique hy' ▸ hy⟩
    case mpr =>
      rintro ⟨shape, ht, hu⟩
      obtain rfl := hx.unique ht
      obtain rfl := hy.unique hu
      exact (hx'.of_le htu.le.1.1).inj hy'
  exact hrun.post

/-! ### Overriding -/

/-- In a well-formed type system whose bounds are references, let a class declare a method that is
applicable to the arguments, and none with its formals before it. Among the methods of the name that are
declared on the chain and applicable, as they are seen from there, the rivals are those with other
formals.

* The lookup finds the method exactly if it is more specific than all rivals and none of them is more
  specific. It finds a rival or is ambiguous otherwise.
* If all rivals have the same canonical formals, then they are overridden exactly if the formals of the
  method climb to theirs and not the other way. So formals that are not open override nothing but the
  same formals. -/
theorem findMethod_eq_ok_iff_climbs {ts : TypeSystem} (hts : Reachable (fresh ts))
    (hacyclic : ts.Acyclic) (hwf : ts.WellFormed) (hbounds : ts.BoundsReferences) {ty : TypeId}
    {c : ClassId} {n : Name} {args : List TypeId} {m : MemberId} (hk : ts.kind ty = .raw c)
    (hargs : ts.HasAll args) (happlicable : ts.isApplicable m args = true)
    (hfirst : (ts.declaredMethods c n).find?
      (fun k => (ts.member k).kind.formals = (ts.member m).kind.formals) = some m) :
    ∃ chain us methods vs, (TypeSystem.lookupChain ty).run ts = (.ok chain, us) ∧
      methodsSeen chain n us = (methods, vs) ∧
      let rivals := vs.rivals args methods m
      let answer := ((TypeSystem.findMethod ty (ts.text n) args).run ts).1
      m ∈ methods ∧
      (answer = .ok m ↔
        ∀ k ∈ rivals, vs.isMoreSpecific m k = true ∧ ¬ vs.isMoreSpecific k m = true) ∧
      (answer ≠ .ok m → (∃ k ∈ rivals, answer = .ok k) ∨
        answer = .error (vs.ambiguity ty (ts.text n) args (vs.candidatesAmong args methods))) ∧
      ((∀ k ∈ methods, vs.isApplicable k args = true → (erasedAlike m k (fresh vs)).1 = true ∧
          ∀ formal ∈ (vs.member k).kind.formals, vs.IsPlain formal) →
        (answer = .ok m ↔ ∀ k ∈ rivals, vs.FormalsClimb m k ∧ ¬ vs.FormalsClimb k m) ∧
        ((∀ formal ∈ (vs.member m).kind.formals, ¬ vs.IsOpen formal) →
          (answer = .ok m ↔ rivals = []))) := by
  have hvalid : ts.Valid := hts.valid.types
  obtain ⟨chain, us, methods, vs, hsees, hcandidate⟩ :=
    TypeSystem.exists_sees hvalid hwf hk hargs happlicable hfirst
  obtain ⟨hmem, happlicable'⟩ := TypeSystem.mem_candidatesAmong hcandidate
  have hiff := TypeSystem.findMethod_eq_ok_iff_rivals hwf hargs hsees hcandidate
  refine ⟨chain, us, methods, vs, hsees.lookup, hsees.seen, ?_⟩
  intro rivals answer
  refine ⟨hmem, hiff, TypeSystem.findMethod_of_ne hwf hargs hsees hcandidate, fun halike => ?_⟩
  have hwf' : vs.WellFormed := hwf.of_extends hsees.grows hsees.valid.pool
  have hbounds' : vs.BoundsReferences := hbounds.of_extends hvalid hsees.grows
  have hfresh : (fresh vs).WellFormed :=
    wellFormed_fresh hsees.valid (hacyclic.of_extends hvalid hsees.grows) hwf' hbounds'
  have hformals : ∀ k ∈ methods, vs.isApplicable k args = true →
      HaveOutlines vs (vs.member k).kind.formals := fun k hk happlicable formal hformal =>
    ((halike k hk happlicable).2 formal hformal).exists_outline hsees.valid hfresh.acyclic
      ((hsees.valid.keys (hsees.hasMember hk).hasKey).types formal
        (MemberKind.mem_types_of_mem_formals hformal))
  have hsame : ∀ k ∈ rivals,
      vs.HaveSameOutlines (vs.member m).kind.formals (vs.member k).kind.formals := by
    intro k hk
    obtain ⟨hk, happlicable, -⟩ := TypeSystem.mem_rivals_iff.mp hk
    exact (erasedAlike_iff hfresh (hsees.hasMember hk) (hformals m hmem happlicable')
      (hformals k hk happlicable)).mp (halike k hk happlicable).1
  have hclimbs : answer = .ok m ↔ ∀ k ∈ rivals, vs.FormalsClimb m k ∧ ¬ vs.FormalsClimb k m := by
    refine hiff.trans (forall₂_congr fun k hk => ?_)
    rw [TypeSystem.isMoreSpecific_iff_climbs hwf' hbounds' (hsame k hk),
      TypeSystem.isMoreSpecific_iff_climbs hwf' hbounds' (hsame k hk).symm]
  refine ⟨hclimbs, fun hclosed => hclimbs.trans ⟨fun hall => ?_, fun hnone => ?_⟩⟩
  · refine List.eq_nil_iff_forall_not_mem.mpr fun k hk => (hall k hk).2 ?_
    exact TypeSystem.formalsClimb_of_not_isOpen (hsame k hk).symm hclosed
  · rw [hnone]
    exact fun k hk => absurd hk List.not_mem_nil

/-- A session with a class `P` that declares a method `<U> void f(U)`, and a class `C` that extends it
and declares `<V> void f(V)`. -/
def overrideSession : Canonicalizer :=
  let s := (fresh .initial).declared (.declareClass "P" {})
  let s := (s.asked (.rawClass ⟨2⟩)).declared (.declareClass "C" {})
  let s := (s.asked (.rawClass ⟨3⟩)).declared (.setSuperclass ⟨3⟩ ⟨13⟩)
  let s := (s.declared (.addMethodTypeParam "U" none)).asked (.typeVar ⟨0⟩)
  let s := (s.declared (.addMethodTypeParam "V" none)).asked (.typeVar ⟨1⟩)
  let s := s.asked (.intern "f")
  let s := s.declared (.declareMember ⟨2⟩ (.method ⟨13⟩ [⟨15⟩] Primitive.void.typeId [⟨0⟩]) {})
  s.declared (.declareMember ⟨3⟩ (.method ⟨13⟩ [⟨16⟩] Primitive.void.typeId [⟨1⟩]) {})

theorem overrideSession_wellFormed : Reachable overrideSession ∧ overrideSession.types.Acyclic ∧
    overrideSession.types.WellFormed ∧ overrideSession.types.BoundsReferences := by
  -- The steps and the last state make one goal, so that the prelude is evaluated once.
  suffices h : (_ ∧ _ ∧ _) ∧ _ by
    obtain ⟨⟨h₁, h₂, h₃⟩, hflat⟩ := h
    have hreachable : Reachable overrideSession :=
      .declare _ (.declare _ (.ask _ (.ask _ (.declare _ (.ask _ (.declare _ (.declare _ (.ask _
        (.declare _ (.ask _ (.declare _ .initial trivial) trivial) trivial) trivial) h₁) nofun)
        trivial) nofun) trivial) trivial) h₂) h₃
    exact ⟨hreachable, hreachable.wellFormed_of_flat hflat⟩
  unfold TypeSystem.Declaration.Admitted
  decide +kernel

/-- The method of `C` does not hide that of `P`: the formals `U` and `V` have the same canonical form,
but neither climbs to the other. -/
theorem findMethod_eq_ok_iff_climbs_generic :
    let answer := ((TypeSystem.findMethod ⟨14⟩ "f" [.string]).run overrideSession.types).1
    ∃ chain us methods vs,
      (TypeSystem.lookupChain ⟨14⟩).run overrideSession.types = (.ok chain, us) ∧
      methodsSeen chain ⟨13⟩ us = (methods, vs) ∧ methods = [⟨16⟩, ⟨15⟩] ∧
      (erasedAlike ⟨16⟩ ⟨15⟩ (fresh vs)).1 = true ∧ answer ≠ .ok ⟨16⟩ ∧ answer ≠ .ok ⟨15⟩ ∧
      ¬ (vs.FormalsClimb ⟨16⟩ ⟨15⟩ ∧ ¬ vs.FormalsClimb ⟨15⟩ ⟨16⟩) := by
  intro answer
  obtain ⟨hkind, hargs, happlicable, hfirst, htext, hanswer⟩ :
      overrideSession.types.kind ⟨14⟩ = .raw ⟨3⟩ ∧ overrideSession.types.HasAll [.string] ∧
        overrideSession.types.isApplicable ⟨16⟩ [.string] = true ∧
        (overrideSession.types.declaredMethods ⟨3⟩ ⟨13⟩).find?
          (fun k => (overrideSession.types.member k).kind.formals =
            (overrideSession.types.member ⟨16⟩).kind.formals) = some ⟨16⟩ ∧
        overrideSession.types.text ⟨13⟩ = "f" ∧ answer ≠ .ok ⟨16⟩ ∧ answer ≠ .ok ⟨15⟩ := by
    decide +kernel
  obtain ⟨hreachable, hacyclic, hwf, hbounds⟩ := overrideSession_wellFormed
  obtain ⟨chain, us, methods, vs, hlookup, hseen, -, -, -, hclimbs⟩ :=
    findMethod_eq_ok_iff_climbs hreachable.forget hacyclic hwf hbounds hkind hargs happlicable hfirst
  have hchain : ((TypeSystem.lookupChain ⟨14⟩).run overrideSession.types).1 =
      .ok [⟨14⟩, ⟨13⟩, .object] := by decide +kernel
  have hfacts :
      let seen := methodsSeen [⟨14⟩, ⟨13⟩, .object] ⟨13⟩
        ((TypeSystem.lookupChain ⟨14⟩).run overrideSession.types).2
      seen.1 = [⟨16⟩, ⟨15⟩] ∧ (∀ k ∈ seen.1, (erasedAlike ⟨16⟩ k (fresh seen.2)).1 = true) ∧
        ∀ i < seen.2.pool.size, seen.2.isPlainKind (seen.2.kind ⟨i⟩) = true := by decide +kernel
  rw [hlookup] at hchain hfacts
  cases hchain
  rw [hseen] at hfacts
  obtain ⟨rfl, halike, hkinds⟩ := hfacts
  have hplain : ∀ ty, vs.IsPlain ty := TypeSystem.isPlain_of_kinds hkinds
  rw [htext] at hclimbs
  have hiff := (hclimbs fun k hk _ => ⟨halike k hk, fun _ _ => hplain _⟩).1
  have halike' := halike ⟨15⟩ (List.mem_cons_of_mem _ List.mem_cons_self)
  refine ⟨_, us, _, vs, hlookup, hseen, rfl, halike', hanswer.1, hanswer.2, fun hclimb => ?_⟩
  refine hanswer.1 (hiff.mpr fun k hk => ?_)
  obtain ⟨hk, -, hformals⟩ := TypeSystem.mem_rivals_iff.mp hk
  rcases List.mem_pair.mp hk with rfl | rfl
  · exact absurd rfl hformals
  · exact hclimb

end Canonicalizer

end Erasure
