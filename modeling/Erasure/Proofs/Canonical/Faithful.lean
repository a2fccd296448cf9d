/-
Memos that follow the bounds.

What is remembered of a type goes by the bounds there were when it was found. It is `Faithful` for a
set of type variables when it still follows the outlines that take in these variables. The main
statements:

* `Faithful.of_coherent`: results found later follow the outlines too.
* `Undisturbed.faithful`: the memo stays faithful in a session that sets no bound behind its back.
* `Faithful.sameOutlines`: the canonical form of a declared member has the outlines of its formals.
-/
import Erasure.Proofs.Canonical.ErasedImage
import Erasure.Proofs.Canonical.Outline
import Erasure.Proofs.Canonical.Session

namespace Erasure

/-! ### Bounds -/

namespace TypeSystem

variable {ts : TypeSystem} {v : TypeVarId}

/-- The declaration gives the type variable its bound. -/
def Declaration.SetsBound (ts : TypeSystem) (v : TypeVarId) : Declaration → Prop
  | setBound w _ => v = w
  | addTypeParam .. | addMethodTypeParam .. => v.index = ts.typeVars.size
  | declareClass .. | setSuperclass .. | addInterface .. | setOuter .. | declareMember .. => False

theorem adopt_leaves (m : MemberId) (vs : List TypeVarId) (v : TypeVarId) :
    Leaves (fun ts => ts.bound? v) (adopt m vs) := by
  intro ts
  show (vs.foldl _ ts.typeVars)[v.index]?.map (·.bound) = ts.typeVars[v.index]?.map (·.bound)
  generalize ts.typeVars = defs
  induction vs generalizing defs with
  | nil => rfl
  | cons w vs ih =>
    rw [List.foldl_cons, ih, Array.getElem?_modify]
    split
    · rw [Option.map_map]
      rfl
    · rfl

theorem declareMember_leaves (c : ClassId) (kind : MemberKind) (flags : MemberFlags)
    (v : TypeVarId) : Leaves (fun ts => ts.bound? v) (declareMember c kind flags) := by
  have hraw : Leaves (fun ts => ts.bound? v)
      (liftM (Pool.rawClass c) : StateM TypeSystem TypeId) := fun _ => rfl
  have hintern : ∀ x, Leaves (fun ts => ts.bound? v) (internMember x) := fun _ _ => rfl
  have hclass : ∀ f, Leaves (fun ts => ts.bound? v) (modifyClass c f) := fun _ _ => rfl
  unfold declareMember
  refine hraw.bind fun container => .get_bind fun ts => ?_
  split
  · exact .pure _
  · refine (adopt_leaves _ _ v).bind fun _ => (hintern _).bind fun m => ?_
    exact (hclass _).bind fun _ => .pure _

/-- A declared type variable comes after those that are there. -/
theorem bound?_declareTypeVar (name : String) (bound : Option TypeId) (owner : TypeVarOwner)
    (hv : v.index ≠ ts.typeVars.size) :
    (declareTypeVar name bound owner ts).2.bound? v = ts.bound? v := by
  show (ts.typeVars.push _)[v.index]?.map (·.bound) = _
  rw [Array.getElem?_push, if_neg hv]
  rfl

/-- A declaration leaves the bounds alone that it does not set. -/
theorem Declaration.bound?_run {d : Declaration} (h : ¬ d.SetsBound ts v) :
    (d.run ts).2.bound? v = ts.bound? v := by
  cases d with
  | declareClass _ _ | setSuperclass _ _ | addInterface _ _ | setOuter _ _ => rfl
  | addTypeParam c name bound => exact bound?_declareTypeVar name bound _ h
  | addMethodTypeParam name bound => exact bound?_declareTypeVar name bound _ h
  | setBound w bound =>
    show (ts.typeVars.modify w.index _)[v.index]?.map (·.bound) = _
    rw [Array.getElem?_modify, if_neg fun hindex => h (congrArg TypeVarId.mk hindex.symm)]
    rfl
  | declareMember c kind flags => exact declareMember_leaves c kind flags v ts

end TypeSystem

namespace Canonicalizer

variable {s t : Canonicalizer} {V : TypeVarId → Prop}

/-! ### Faithful memos -/

/-- What is remembered follows the outlines that take in variables of `V` only. -/
def Faithful (V : TypeVarId → Prop) (s : Canonicalizer) : Prop :=
  ∀ ty r shape, s.memo.types.find? ty = some r → s.types.HasOutline V ty shape →
    s.types.pool.HasShape r shape

theorem faithful_fresh (ts : TypeSystem) : Faithful V (fresh ts) := fun _ _ _ => nofun

/-- Results that were remembered before follow the outlines still, if no bound was set that they
take in. -/
theorem Faithful.of_le (hs : s.Valid) (hle : s.types ≤ t.types) (hf : Faithful V s)
    (hbounds : ∀ {ty r v}, s.memo.types.find? ty = some r → V v → s.types.LeadsTo ty v →
      t.types.bound? v = s.types.bound? v) {ty r : TypeId} {shape : Shape}
    (hfind : s.memo.types.find? ty = some r) (h : t.types.HasOutline V ty shape) :
    t.types.pool.HasShape r shape := by
  have hold := h.of_ge hs.types hle (hs.canonical hfind).has fun v => hbounds hfind
  exact (hf _ _ _ hfind hold).of_le hle.1

/-- Results that follow from faithful ones follow the outlines too. -/
theorem Faithful.of_coherent (hs : s.Valid) (ht : t.Valid) (hacyclic : t.types.Acyclic)
    (hext : TypeSystem.Extends s.types t.types) (hM : Coherent s.memo.types t)
    (hf : Faithful V s) : Faithful V t := by
  intro ty r shape hfind houtline
  obtain ⟨shape', herases, hshape⟩ := hM.erases hfind
  have hbounds : ∀ {ty r v}, s.memo.types.find? ty = some r → V v → s.types.LeadsTo ty v →
      t.types.bound? v = s.types.bound? v := fun _ _ _ => by
    rw [TypeSystem.bound?, TypeSystem.bound?, hext.typeVars_eq]
  rwa [← herases.eq_of_hasOutline ht.types hacyclic
    (fun _ _ _ hfind h => hf.of_le hs hext.le hbounds hfind h) houtline]

/-! ### Sessions -/

/-- The states of a session that gives no variable of `V` a bound once a type that leads to the
variable is remembered. -/
inductive Undisturbed (V : TypeVarId → Prop) : Canonicalizer → Prop
  | initial : Undisturbed V (fresh .initial)
  | declare {s : Canonicalizer} (d : TypeSystem.Declaration) : Undisturbed V s →
      d.Admitted s.types →
      (∀ v ty r, V v → d.SetsBound s.types v → s.memo.types.find? ty = some r →
        ¬ s.types.LeadsTo ty v) → Undisturbed V (s.declared d)
  | ask {s : Canonicalizer} (q : TypeSystem.Query) : Undisturbed V s → q.Admitted s.types →
      Undisturbed V (s.asked q)
  | canonicalize {s : Canonicalizer} (c : Canonicalization) : Undisturbed V s → s.types.Acyclic →
      c.Admitted s → Undisturbed V (s.canonicalized c)
  | forget {s : Canonicalizer} : Undisturbed V s → Undisturbed V (fresh s.types)

theorem Undisturbed.reachable (h : Undisturbed V s) : Reachable s := by
  induction h with
  | initial => exact .initial
  | declare d _ hd _ ih => exact .declare d ih hd
  | ask q _ hq ih => exact .ask q ih hq
  | canonicalize c _ hacyclic hc ih => exact .canonicalize c ih hacyclic hc
  | forget _ ih => exact .forget ih

/-- In a session that sets no bound behind its back the memo stays faithful. -/
theorem Undisturbed.faithful (h : Undisturbed V s) : Faithful V s := by
  induction h with
  | initial => exact faithful_fresh _
  | @declare s d hs hd hsets ih =>
    intro ty r shape hfind
    have hvalid := hs.reachable.valid
    have hle := (TypeSystem.Declaration.run_advances hvalid.types hd).le
    refine ih.of_le (t := s.declared d) hvalid hle (fun hfind hv hleads => ?_) hfind
    exact TypeSystem.Declaration.bound?_run fun hset => hsets _ _ _ hv hset hfind hleads
  | @ask s q hs hq ih =>
    have hvalid := hs.reachable.valid
    have hext : TypeSystem.Extends s.types (s.asked q).types :=
      (TypeSystem.Query.run_keeps hvalid.types hq).grows
    intro ty r shape hfind
    refine ih.of_le (t := s.asked q) hvalid hext.le (fun _ _ _ => ?_) hfind
    rw [TypeSystem.bound?, TypeSystem.bound?, hext.typeVars_eq]
  | @canonicalize s c hs hacyclic hc ih =>
    have hvalid := hs.reachable.valid
    have hkeeps := Canonicalization.run_keeps hvalid hacyclic hc
    exact ih.of_coherent hvalid hkeeps.valid (acyclic_of_grows hvalid hkeeps.grows hacyclic)
      (Extends.types hkeeps.grows) (Extends.coherent hkeeps.grows (coherent_self hvalid))
  | forget _ _ => exact faithful_fresh _

@[simp]
theorem memo_fresh (ts : TypeSystem) : (fresh ts).memo = {} := rfl

@[simp]
theorem memo_declared (s : Canonicalizer) (d : TypeSystem.Declaration) :
    (s.declared d).memo = s.memo := rfl

@[simp]
theorem memo_asked (s : Canonicalizer) (q : TypeSystem.Query) : (s.asked q).memo = s.memo := rfl

/-- As long as nothing is remembered, every bound may be set. -/
theorem Undisturbed.declare_first (d : TypeSystem.Declaration) (h : Undisturbed V s)
    (hd : d.Admitted s.types) (hmemo : s.memo = {}) : Undisturbed V (s.declared d) :=
  .declare d h hd fun _ _ _ _ _ hfind => by
    rw [hmemo] at hfind
    cases hfind

/-- The example session makes nothing canonical. -/
theorem boxSession_undisturbed (V : TypeVarId → Prop) : Undisturbed V boxSession := by
  refine .ask _ (.declare_first _ (.declare_first _ (.ask _ (.ask _ (.ask _ (.ask _
    (.declare_first _ (.declare_first _ (.declare_first _ .initial ?_ ?_) ?_ ?_) ?_ ?_)
    ?_) ?_) ?_) ?_) ?_ ?_) ?_ ?_) ?_
  any_goals (simp only [memo_fresh, memo_declared, memo_asked])
  · trivial
  · nofun
  · nofun
  · trivial
  · trivial
  · trivial
  · trivial
  · unfold TypeSystem.Declaration.Admitted
    decide +kernel
  · unfold TypeSystem.Declaration.Admitted
    decide +kernel
  · exact ⟨by decide +kernel, nofun⟩

/-! ### Canonical members -/

/-- The second type has the outline of the first one, if that has one. -/
def KeepsOutline (V : TypeVarId → Prop) (ts : TypeSystem) (ty r : TypeId) : Prop :=
  ∀ shape, ts.HasOutline V ty shape → ts.HasOutline V r shape

/-- The second type is erased to the outline of the first one, if that has one. -/
def FollowsOutline (V : TypeVarId → Prop) (ts : TypeSystem) (ty r : TypeId) : Prop :=
  ∀ shape, ts.HasOutline V ty shape → ts.pool.HasShape r shape

section Members

variable (ht : t.Valid) (hf : Faithful V t)
include hf

/-- Replacing variables by their remembered canonical forms keeps outlines. -/
theorem Faithful.keepsOutline {vs : List TypeVarId} {sub : SubstId} {bs : Bindings}
    (hbinds : t.BindsCanonical vs sub) (hbs : t.types.pool.HasBindings sub bs) {ty r : TypeId}
    (hsub : t.types.pool.Substitutes bs.lookup? ty r) : KeepsOutline V t.types ty r := by
  refine fun shape houtline => houtline.substitutes (fun {u v b shape} hk hlookup hu => ?_) hsub
  obtain ⟨cs, hcs, hvs⟩ := hbinds
  obtain rfl := hbs.unique hcs
  have hmem := Bindings.mem_of_mem_ofList (Bindings.mem_of_lookup? hlookup)
  obtain ⟨w, -, rfl, u', hk', hfind⟩ := exists_of_forall₂_right hvs hmem
  obtain rfl := hk'.inj hk
  exact TypeSystem.hasOutline_of_hasShape (hf _ _ _ hfind hu)

theorem Faithful.keepsOutlines {vs : List TypeVarId} {sub : SubstId} {bs : Bindings}
    {k l : MemberKind} (hbinds : t.BindsCanonical vs sub)
    (hbs : t.types.pool.HasBindings sub bs)
    (hsub : TypeSystem.SubstitutesKind t.types.pool bs k l) :
    k.withoutTypeParams.Related (KeepsOutline V t.types) l.withoutTypeParams := by
  obtain ⟨kind, hkind, rfl⟩ := hsub
  rw [MemberKind.withoutTypeParams_filterTypeParams]
  exact (hkind.imp fun _ _ h => hf.keepsOutline hbinds hbs h.1).filterTypeParams _

include ht

/-- Erasing the own type parameters of an instance keeps the outlines in its signature. -/
theorem Faithful.keepsOutlines_ownErased {m e : MemberId} (hm : t.types.HasMember m)
    (hgeneric : (t.types.member m).generic = none) (h : t.OwnErased m e) :
    (t.types.member m).kind.withoutTypeParams.Related (KeepsOutline V t.types)
      (t.types.member e).kind.withoutTypeParams := by
  rcases h.of_hasKey hm.hasKey hgeneric with ⟨-, rfl⟩ | ⟨-, sub, bs, kind, hfind, hbs, hkind, hkey⟩
  · exact .refl fun _ _ _ h => h
  · rw [hkey.kind_eq]
    exact hf.keepsOutlines ((ht.memberSubsts hfind).binds sub rfl) hbs hkind

/-- So does erasing the type parameters of the class. -/
theorem Faithful.keepsOutlines_classErased {c : ClassId} {container : TypeId} {m e : MemberId}
    (h : t.ClassErased c container m e) :
    (t.types.member m).kind.withoutTypeParams.Related (KeepsOutline V t.types)
      (t.types.member e).kind.withoutTypeParams := by
  rcases h with ⟨-, rfl⟩ | ⟨sub, bs, kind, hfind, hbs, hkind, hkey⟩
  · exact .refl fun _ _ _ h => h
  · rw [hkey.kind_eq]
    obtain ⟨vs, hbinds⟩ := ht.classSubsts hfind sub rfl
    exact hf.keepsOutlines hbinds hbs hkind

/-- The canonical form of a member of a raw class has the erased outlines of its signature, and the
same container. -/
theorem Faithful.followsOutlines {m e : MemberId} {base : ClassId}
    (hfind : t.memo.members.find? m = some e) (hgeneric : (t.types.member m).generic = none)
    (hraw : t.types.pool.HasKind (t.types.member m).container (.raw base)) :
    (t.types.member m).kind.withoutTypeParams.Related (FollowsOutline V t.types)
        (t.types.member e).kind ∧
      (t.types.member e).container = (t.types.member m).container := by
  have hentry := ht.members hfind
  rcases hentry.erased hraw with hsettled | ⟨own, erased, hown, hclass, hsignature⟩
  · obtain rfl := hentry.self hsettled
    refine ⟨?_, rfl⟩
    rw [MemberKind.withoutTypeParams_eq_self hsettled.typeParams]
    refine .refl fun ty hty shape houtline => ?_
    obtain ⟨shape', hshape⟩ := hsettled.types ty hty
    rwa [houtline.unique (TypeSystem.hasOutline_of_hasShape hshape)]
  · obtain ⟨kind, container, hkind, hcontainer, hkey⟩ := hsignature
    have hkeeps := (hf.keepsOutlines_ownErased ht hentry.has hgeneric hown).trans
      (hf.keepsOutlines_classErased ht hclass) (T := KeepsOutline V t.types)
      fun _ _ _ h h' shape houtline => h' shape (h shape houtline)
    refine ⟨?_, ?_⟩
    · rw [hkey.kind_eq]
      refine hkeeps.trans (hkind.filterTypeParams fun _ => false) fun _ _ _ h hr shape houtline => ?_
      exact hf _ _ _ hr (h shape houtline)
    · have hform := genericForm_of_hasKey hentry.has.hasKey hgeneric
      rw [hclass.container_eq (hown.container_eq fun _ => by rw [hform])] at hcontainer
      rw [hkey.container_eq]
      exact eq_of_find?_raw ht hraw hcontainer

end Members

end Canonicalizer

end Erasure
