/-
Which method a lookup takes when several types above the container declare one with the same formals.

It takes the one that it sees first, on the chain of the types above the container, and the chain counts
steps to superclasses and to interfaces alike. So a method that a superclass declares can be hidden by
one of an interface, but only of an interface that is nearer. The main statements:

* `precedes_of_mem_candidatesAmong`: a candidate is seen before all methods with its formals.
* `Sees.precedes_container`: so its container is on the chain before theirs.
* `findMethod_takes`: what is found is a candidate, and all that was seen can be seen again.
* `Takes.isNearer`: if a superclass implements the method that is found, then this one is declared there
  as well, or by a type that is nearer.
-/
import Erasure.Proofs.Lookup.Candidates
import Erasure.Proofs.Lookup.Hierarchy

namespace Erasure

open Relation (TransGen)

namespace TypeSystem

variable {ts us vs : TypeSystem} {t ty : TypeId} {c : ClassId} {n : Name} {name : String}
  {chain args : List TypeId} {methods : List MemberId} {m k : MemberId}

/-! ### The order of discovery -/

theorem Precedes.antisymm {α : Type} {l : List α} {a b : α} (ha : a ∈ l)
    (hab : Precedes l a b) (hba : Precedes l b a) : a = b := by
  obtain ⟨before, after, rfl, hnot⟩ := List.eq_append_cons_of_mem ha
  have hb : b ∈ before ++ [a] :=
    hba _ ((List.prefix_append_right_inj before).mpr (List.cons_prefix_cons.mpr ⟨rfl, List.nil_prefix⟩))
      (List.mem_append_right _ List.mem_cons_self)
  rcases List.mem_append.mp hb with hb | hb
  · exact absurd (hab before (List.prefix_append _ _) hb) hnot
  · exact (List.mem_singleton.mp hb).symm

/-- A candidate is seen before all methods with its formals. -/
theorem precedes_of_mem_candidatesAmong (hm : m ∈ ts.candidatesAmong args methods)
    (hformals : (ts.member k).kind.formals = (ts.member m).kind.formals) : Precedes methods m k := by
  rintro p ⟨rest, rfl⟩ hk
  have happlicable : ts.isApplicable k args = true := by
    have hm := (mem_candidatesAmong hm).2
    unfold isApplicable at hm ⊢
    rwa [hformals]
  -- Some method of the prefix has become a candidate, and no other candidate has these formals.
  obtain ⟨a, ha, heq⟩ := exists_candidate hk happlicable
  have ha' : a ∈ ts.candidatesAmong args (p ++ rest) := by
    rw [candidatesAmong, List.foldl_append]
    exact mem_foldl_withCandidate ha
  have hsame : a = m := List.inj_on_of_nodup_map
    (nodup_formals_candidatesAmong ts args (p ++ rest)) ha' hm (heq.trans hformals)
  exact hsame ▸ (mem_candidatesAmong ha).1

/-! ### What is seen again -/

theorem intern_again (hn : intern name ts = (n, us)) (hle : us ≤ vs) :
    intern name vs = (n, vs) := by
  have hle' : (intern name ts).2 ≤ vs := by rwa [hn]
  have hnames : vs.names.intern name = ((ts.names.intern name).1, vs.names) :=
    InternTable.intern_eq_of_le hle'.2.2.1 rfl
  have hagain : intern name vs = ((intern name ts).1, vs) := by
    unfold intern Names.internText
    rw [hnames]
  rwa [hn] at hagain

/-- A search does the same again, and then interns nothing. -/
theorem Searches.again {done todo : List TypeId} (hts : ts.Valid) (hlinks : ts.LinksClasses)
    (h : Searches done todo ts chain us) (hclasses : ∀ u ∈ done ++ todo, ts.IsClassType u)
    (hext : Extends us vs) : Searches done todo vs chain vs := by
  induction h with
  | stop => exact .stop
  | step hsups hnew hrest ih =>
    obtain ⟨-, hvalid, hlinks', hclasses', hknown⟩ := step_keeps hts hlinks hclasses hsups hnew
    have hgrows := (hrest.grows hvalid hlinks' hclasses').1
    obtain ⟨habove, hknows⟩ := hknown vs (hgrows.trans hext)
    exact .step (hknows.trans (habove ▸ rfl)) hnew (ih hvalid hlinks' hclasses' hext)

/-- So does a lookup that walks what the search finds. -/
theorem WalksChain.again (hts : ts.Valid) (hlinks : ts.LinksClasses)
    (hacyclic : ∀ c, ¬ TransGen ts.Inherits c c) (hc : ts.classOf? ty = some c)
    (h : WalksChain ts us ty chain) (hext : Extends us vs) (hvs : vs.Valid) :
    WalksChain vs vs ty chain := by
  have hgrows := h.grows.trans hext
  have hc' := (classOf?_of_le hgrows.le (has_of_classOf? hc)).trans hc
  obtain ⟨chain', us', h'⟩ := exists_walksChain hvs (hlinks.of_extends hts hgrows)
    (by rwa [hgrows.inherits_eq hts]) hc'
  have hagain := h.searches.again hts hlinks (fun u hu => List.mem_singleton.mp hu ▸ ⟨c, hc⟩) hext
  obtain ⟨rfl, rfl⟩ := h'.searches.unique hagain
  exact h'

/-- The methods seen are members of the types that declare them, and are there when they are looked at
again. -/
theorem methodsSeen_settles (hts : ts.Valid) (hchain : ts.HasAll chain) :
    Settles (methodsSeen chain n) ts fun methods us =>
      List.Forall₂ (fun d m => us.HasMember m ∧ (us.member m).container = d.2)
        (ts.declaredOn chain n) methods := by
  refine Settles.get_bind (Settles.mapM ?_ hts ?_) fun us hext => ?_
  · intro d m us vs hext hm
    obtain ⟨hhas, hcontainer⟩ := hm
    exact ⟨hhas.of_le hext.le, by rw [member_of_le hext.le hhas, hcontainer]⟩
  · intro d hd us hext hus
    obtain ⟨-, c, hc, hdecl⟩ := mem_declaredOn hd
    have hc' := (classOf?_of_le hext.le (has_of_classOf? hc)).trans hc
    have hdecl' := declared_of_le hext.le (mem_declaredMethods hdecl).1
    have hagain := memberIn_substitutes hus (hus.hasMember_of_declared hdecl') (has_of_classOf? hc')
    exact ((Settles.of_computes hagain).and_keeps (memberIn_container hus hdecl' hc')).mono
      fun _ _ _ _ h => h.2
  · rw [Extends.declaredOn_eq hts hext hchain]

/-! ### What is found -/

/-- The container of a member. -/
def containerOf (ts : TypeSystem) (m : MemberId) : TypeId := (ts.member m).container

/-- A lookup that interns nothing more sees the methods on the chain, and takes one of them. -/
structure Takes (ts : TypeSystem) (ty : TypeId) (name : String) (args : List TypeId)
    (chain : List TypeId) (methods : List MemberId) (m : MemberId) : Prop where
  walks : WalksChain ts ts ty chain
  sees : ∃ n, Sees ts ts ts ty name n chain methods ∧
    methods.map ts.containerOf = (ts.declaredOn chain n).map Prod.snd
  candidate : m ∈ ts.candidatesAmong args methods

theorem findMethod_takes_of_intern (hts : ts.Valid) (h : ts.WellFormed)
    (hacyclic : ∀ c, ¬ TransGen ts.Inherits c c) (hc : ts.classOf? ty = some c)
    (hargs : ts.HasAll args) (hn : intern name ts = (n, ts))
    (hm : (findMethod ty name args).run ts = (.ok m, vs)) :
    Extends ts vs ∧ ∃ chain methods, vs.Takes ty name args chain methods m := by
  obtain ⟨chain, us, hwalks⟩ := exists_walksChain hts h.supertypes hacyclic hc
  have hchain : us.HasAll chain := fun u hu =>
    let ⟨_, hd⟩ := hwalks.classes u hu
    has_of_classOf? hd
  have hseen := methodsSeen_settles (n := n) hwalks.valid hchain
  have hsees : Sees ts us (methodsSeen chain n us).2 ty name n chain (methodsSeen chain n us).1 :=
    ⟨hn, hwalks.lookup, hwalks.grows, hwalks.valid, hchain, rfl⟩
  rw [findMethod_run h hargs hsees] at hm
  obtain ⟨hfound, rfl⟩ := Prod.mk.inj hm
  have hext : Extends us (methodsSeen chain n us).2 := hseen.grows
  have hagain := hseen.again _ (.refl _)
  have hcontainers := hext.declaredOn_eq (n := n) hwalks.valid hchain ▸ hseen.post
  have hvs : (methodsSeen chain n us).2.Valid := hseen.valid
  generalize (methodsSeen chain n us).1 = methods, (methodsSeen chain n us).2 = vs at *
  have hwalks' := hwalks.again hts h.supertypes hacyclic hc hext hvs
  refine ⟨hsees.grows, chain, methods, hwalks', ⟨n, ?_, ?_⟩, ?_⟩
  · exact ⟨intern_again hn hsees.grows.le, hwalks'.lookup, .refl _, hvs, hchain.of_le hext.le, hagain⟩
  · exact map_eq_map_of_forall₂ hcontainers.flip fun _ _ h => h.2
  · cases hchosen : vs.mostSpecific? (vs.candidatesAmong args methods) with
    | none =>
      rw [hchosen] at hfound
      cases hfound
    | some a =>
      rw [hchosen] at hfound
      cases hfound
      exact mem_of_mostSpecific? hchosen

/-- What is found is a candidate, and when it is found all that was seen can be seen again. -/
theorem findMethod_takes (hts : ts.Valid) (h : ts.WellFormed)
    (hacyclic : ∀ c, ¬ TransGen ts.Inherits c c) (hc : ts.classOf? ty = some c)
    (hargs : ts.HasAll args) (hm : (findMethod ty name args).run ts = (.ok m, us)) :
    Extends ts us ∧ ∃ chain methods, us.Takes ty name args chain methods m := by
  have hintern := intern_keeps hts name
  have hext : Extends ts (intern name ts).2 := hintern.grows
  have hvalid : (intern name ts).2.Valid := hintern.valid
  have hagain : intern name (intern name ts).2 = ((intern name ts).1, (intern name ts).2) :=
    intern_again Prod.mk.eta.symm (le_refl _)
  have hrun : (findMethod ty name args).run ts =
      (findMethod ty name args).run (intern name ts).2 := by
    unfold findMethod
    rw [run_lift_bind_apply, run_lift_bind_apply, hagain]
  obtain ⟨hgrows, htakes⟩ := findMethod_takes_of_intern hvalid (h.of_extends hext hvalid.pool)
    (by rwa [hext.inherits_eq hts]) ((classOf?_of_le hext.le (has_of_classOf? hc)).trans hc)
    (hargs.of_le hext.le) hagain (hrun ▸ hm)
  exact ⟨hext.trans hgrows, htakes⟩

theorem containerOf_mem (hcontainers : methods.map ts.containerOf =
    (ts.declaredOn chain n).map Prod.snd) (hm : m ∈ methods) : ts.containerOf m ∈ chain := by
  obtain ⟨d, hd, heq⟩ := List.mem_map.mp (hcontainers ▸ List.mem_map_of_mem hm)
  exact heq ▸ (mem_declaredOn hd).1

/-- On the chain the containers come in the order in which their methods are seen. -/
theorem precedes_container (hnodup : chain.Nodup)
    (hcontainers : methods.map ts.containerOf = (ts.declaredOn chain n).map Prod.snd)
    (hk : k ∈ methods) (h : Precedes methods m k) :
    Precedes chain (ts.containerOf m) (ts.containerOf k) := by
  rintro p ⟨rest, rfl⟩ hp
  have hsplit : methods.map ts.containerOf =
      (ts.declaredOn p n).map Prod.snd ++ (ts.declaredOn rest n).map Prod.snd := by
    rw [hcontainers, declaredOn, List.flatMap_append, List.map_append]
    rfl
  obtain ⟨seen, others, rfl, hseen, hothers⟩ := List.map_eq_append_iff.mp hsplit
  have hk' : k ∈ seen := by
    rcases List.mem_append.mp hk with hk | hk
    · exact hk
    · exact absurd (containerOf_mem hothers hk) (List.disjoint_of_nodup_append hnodup hp)
  exact containerOf_mem hseen (h seen (List.prefix_append _ _) hk')

/-! ### Superclasses -/

/-- So many steps, each to the superclass, lead to the type. -/
inductive IsSuperclassAway (ts : TypeSystem) (t : TypeId) : Nat → TypeId → Prop
  | self : IsSuperclassAway ts t 0 t
  | step {d : Nat} {u v : TypeId} {c : ClassId} : IsSuperclassAway ts t d u → ts.classOf? u = some c →
      (ts.classDef c).superclass.isSome → (ts.above u).head? = some v →
      IsSuperclassAway ts t (d + 1) v

/-- The superclass is the first of the direct supertypes. -/
theorem IsSuperclassAway.isFirstsAway {d : Nat} (h : ts.IsSuperclassAway t d ty) :
    IsFirstsAway ts.above t d ty := by
  induction h with
  | self => exact .self
  | step _ _ _ hfirst ih =>
    obtain ⟨rest, hrest⟩ := List.head?_eq_some_iff.mp hfirst
    exact .step ih hrest

/-- The method has a body, and the formals of the other one, and is declared so many superclasses
away. -/
structure Implements (ts : TypeSystem) (ty : TypeId) (d : Nat) (k m : MemberId) : Prop where
  concrete : (ts.member k).flags.isAbstract = false
  formals_eq : (ts.member k).kind.formals = (ts.member m).kind.formals
  away : ts.IsSuperclassAway ty d (ts.containerOf k)

/-- The first method is declared by the type that declares the second one, which is so many steps away,
or by a type that is fewer steps away. -/
def IsNearer (ts : TypeSystem) (ty : TypeId) (d : Nat) (m k : MemberId) : Prop :=
  ts.containerOf m = ts.containerOf k ∨ ∃ j < d, IsStepsAway ts.above ty j (ts.containerOf m)

namespace Takes

variable (h : Takes ts ty name args chain methods m)
include h

theorem mem : m ∈ methods := (mem_candidatesAmong h.candidate).1

theorem precedes (hk : k ∈ methods)
    (hformals : (ts.member k).kind.formals = (ts.member m).kind.formals) :
    Precedes chain (ts.containerOf m) (ts.containerOf k) := by
  obtain ⟨n, -, hcontainers⟩ := h.sees
  exact precedes_container h.walks.isChain.nodup hcontainers hk
    (precedes_of_mem_candidatesAmong h.candidate hformals)

theorem container_mem (hk : k ∈ methods) : ts.containerOf k ∈ chain := by
  obtain ⟨n, -, hcontainers⟩ := h.sees
  exact containerOf_mem hcontainers hk

/-- What a superclass declares with the same formals can only be hidden by what is nearer. -/
theorem isNearer (hk : k ∈ methods) {d : Nat} (himpl : ts.Implements ty d k m) :
    ts.IsNearer ty d m k := by
  by_contra hnot
  obtain ⟨hne, hfar⟩ := not_or.mp hnot
  -- Then the superclass comes first on the chain, and what comes first both ways is the same.
  refine hne (Precedes.antisymm (h.container_mem h.mem) (h.precedes hk himpl.formals_eq) ?_)
  refine h.walks.isChain.precedes himpl.away.isFirstsAway (h.container_mem h.mem) fun j hj hstep => ?_
  exact hfar ⟨j, hj, hstep⟩

end Takes

end TypeSystem

end Erasure
