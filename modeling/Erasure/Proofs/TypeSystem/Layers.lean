/-
Layers of substitution over the members of a class.

A member is seen in an instantiation under all that the instantiation and its enclosing instances
bind, and a generic method takes its type arguments after that. The main statements:

* `instanceBindings_related`: substituting in an instantiation substitutes in what it binds.
* `seenTwice_computes`: a substitution of a member as an instantiation sees it gives the member as
  the substituted instantiation sees it.
* `instantiateIn_computes`: the type arguments of a method replace its type parameters in the
  arguments of the instantiation as well.
-/
import Erasure.Proofs.Canonical.Session
import Erasure.Proofs.Pool.Composition

namespace Erasure

/-! ### Enclosing instances -/

namespace Pool

variable {p q : Pool} {f : TypeVarId → Option TypeId} {ty r : TypeId}

/-- The type is a raw class or an instantiation, and so are its enclosing instances. -/
inductive IsInstance (p : Pool) : TypeId → Prop
  | raw {ty : TypeId} {c : ClassId} : p.HasKind ty (.raw c) → IsInstance p ty
  | inst {ty : TypeId} {base : ClassId} {s : SubstId} {outer : Option TypeId} :
      p.HasKind ty (.inst base s outer) → (∀ u ∈ outer, IsInstance p u) → IsInstance p ty

theorem IsInstance.of_le (hle : p ≤ q) (h : p.IsInstance ty) : q.IsInstance ty := by
  induction h with
  | raw hk => exact .raw (hk.of_le hle)
  | inst hk _ ih => exact .inst (hk.of_le hle) ih

theorem mapTypes_related {R : TypeId → TypeId → Prop} {g : TypeId → TypeId} {bs : Bindings}
    (h : ∀ b ∈ bs, R b.2 (g b.2)) : Bindings.Related R bs (bs.mapTypes g) :=
  List.forall₂_map_right_iff.mpr (List.forall₂_same.mpr fun b hb => ⟨rfl, h b hb⟩)

theorem instanceBindingsWithin_related (hp : p.Valid) {depth depth' : Nat} (hty : p.IsInstance ty)
    (hr : p.Substitutes f ty r) (hdepth : ty.index < depth) (hdepth' : r.index < depth') :
    Bindings.Related (p.Substitutes f) (p.instanceBindingsWithin depth ty)
      (p.instanceBindingsWithin depth' r) := by
  obtain ⟨d, rfl⟩ := Nat.exists_eq_add_of_lt hdepth
  obtain ⟨d', rfl⟩ := Nat.exists_eq_add_of_lt hdepth'
  induction hty generalizing r d d' with
  | raw hk =>
    obtain rfl := hr.unique (.raw hk)
    rw [instanceBindingsWithin, instanceBindingsWithin, hk.kind_eq]
    exact .nil
  | @inst ty base s outer hk _ ih =>
    obtain ⟨bs, hbs⟩ := hp.linked hk
    obtain ⟨g, s', hargs, houter, hbs', hr'⟩ := hr.of_inst hk hbs
    rw [instanceBindingsWithin, instanceBindingsWithin, hk.kind_eq, hr'.kind_eq]
    have hown : Bindings.Related (p.Substitutes f) (p.bindings s) (p.bindings s') := by
      rw [hbs.bindings_eq, hbs'.bindings_eq]
      exact mapTypes_related hargs
    cases outer with
    | none => exact hown
    | some u =>
      have hlt := hp.parts_lt hk u (mem_parts_of_mem_outer rfl)
      have hlt' := hp.parts_lt hr' (g u) (mem_parts_of_mem_outer rfl)
      obtain ⟨e, he⟩ := Nat.exists_eq_add_of_lt (show u.index < ty.index + d by omega)
      obtain ⟨e', he'⟩ := Nat.exists_eq_add_of_lt (show (g u).index < r.index + d' by omega)
      have houters := ih u rfl (houter u rfl) e (by omega) e' (by omega)
      rw [← he, ← he'] at houters
      exact List.rel_append hown houters

/-- Substituting in an instantiation substitutes in all that it and its enclosing instances bind. -/
theorem instanceBindings_related (hp : p.Valid) (hty : p.IsInstance ty)
    (hr : p.Substitutes f ty r) :
    Bindings.Related (p.Substitutes f) (p.instanceBindings ty) (p.instanceBindings r) :=
  related_ofList (instanceBindingsWithin_related hp hty hr (Nat.lt_succ_self _) (Nat.lt_succ_self _))

/-- The substitutions of an instantiation and of its image. -/
def substsOfImage (t : SubstId) (ty : TypeId) : StateM Pool (SubstId × SubstId) := do
  let image ← substitute t ty
  return (← fullSubst ty, ← fullSubst image)

/-- The second substitution binds what the first one does, to what `t` makes of it. -/
def IsImage (p : Pool) (t sub sub' : SubstId) : Prop :=
  ∀ v, p.replacement? sub' v = (p.replacement? sub v).map fun u => (substitute t u p).1

theorem substsOfImage_computes (hp : p.Valid) {t : SubstId} {bs : Bindings}
    (ht : p.HasBindings t bs) (hty : p.Has ty) (hinstance : p.IsInstance ty) :
    Computes (substsOfImage t ty) p fun subs q => q.IsImage t subs.1 subs.2 := by
  refine (substitute_computes hp ht hty).bind fun r q₁ hpq₁ hq₁ hr => ?_
  refine (fullSubst_computes hq₁ (hty.of_le hpq₁.le)).bind fun sub q₂ hqq₂ hq₂ hsub => ?_
  refine (fullSubst_computes hq₂ (hr.2.of_le hqq₂.le)).bind fun sub' q hqq hq hsub' => ?_
  refine Computes.pure hq fun v => ?_
  have hle := (hpq₁.trans (hqq₂.trans hqq)).le
  have hsub := hsub.of_le hqq.le
  have hr' := hr.of_le (hqq₂.trans hqq).le
  rw [← instanceBindings_of_le hq₁ (hqq₂.trans hqq).le (hty.of_le hpq₁.le)] at hsub
  rw [← instanceBindings_of_le hq₂ hqq.le (hr.2.of_le hqq₂.le)] at hsub'
  have hlookup := replaceRelated_lookup?
    (instanceBindings_related hq (hinstance.of_le hle) hr'.1)
  simp only [replacement?, hsub.bindings_eq, hsub'.bindings_eq]
  cases hv : (q.instanceBindings ty).lookup? v with
  | none => rw [hlookup.eq_none_iff.mp hv, Option.map_none]
  | some u =>
    obtain ⟨x, hx, hux⟩ := hlookup.exists_of_some hv
    have hhas := (hq.bindings hsub).2 _ (Bindings.mem_of_lookup? hv)
    rw [hx, Option.map_some, hux.eq_substitute hq (ht.of_le hle) hhas]

end Pool

namespace TypeSystem

variable {ts us : TypeSystem}

/-- Where the substitution binds no type parameter of a signature, all of them stay. -/
theorem substitutesKind_iff_related {p : Pool} {bs : Bindings} {k l : MemberKind}
    (hparams : ∀ v ∈ k.typeParams, bs.lookup? v = none) :
    SubstitutesKind p bs k l ↔ k.Related (Pool.IsResult bs.lookup? · · p) l := by
  have hkeep : ∀ {kind : MemberKind}, k.Related (Pool.IsResult bs.lookup? · · p) kind →
      kind.filterTypeParams (fun v => (bs.lookup? v).isNone) = kind := by
    intro kind hkind
    refine MemberKind.filterTypeParams_eq_self fun v hv => ?_
    rw [hparams v (hkind.typeParams_eq ▸ hv)]
    rfl
  constructor
  · rintro ⟨kind, hkind, rfl⟩
    rwa [hkeep hkind]
  · exact fun h => ⟨l, h, (hkeep h).symm⟩

/-! ### Seen twice -/

/-- The image of a member, as an instantiation sees it, under a substitution. -/
def seenTwice (m : MemberId) (ty : TypeId) (t : SubstId) : StateM TypeSystem MemberId := do
  let image ← memberIn m ty
  substituteMember image t (← Pool.substitute t ty)

section Layers

variable {m : MemberId} {k : MemberKey} {ty : TypeId} {c : ClassId} {sub : SubstId}
  {outer : Option TypeId}

/-- The image under a substitution of a member as an instantiation sees it is the member as the
substituted instantiation sees it. -/
theorem seenTwice_computes (hts : ts.Valid) (hm : ts.HasKey m k)
    (hown : ∀ v ∈ k.kind.typeParams, ts.IsMemberVar v)
    (hty : ts.pool.HasKind ty (.inst c sub outer)) (hinstance : ts.pool.IsInstance ty)
    (hscope : ∀ u ∈ k.kind.types, ∀ v, ts.pool.Occurs (.var v) u →
      v ∈ k.kind.typeParams ∨ (ts.pool.instanceBindings ty).lookup? v ≠ none)
    {t : SubstId} {bs : Bindings} (ht : ts.pool.HasBindings t bs)
    (hfree : ∀ v ∈ k.kind.typeParams, bs.lookup? v = none) :
    Computes (seenTwice m ty t) ts fun n us => ∃ r kind, Pool.IsResult bs.lookup? ty r us.pool ∧
      SubstitutesKind us.pool (us.pool.instanceBindings r) k.kind kind ∧
        us.HasKey n { k with kind, container := r } := by
  have hunbound : ∀ v ∈ k.kind.typeParams, (ts.pool.instanceBindings ty).lookup? v = none :=
    fun v hv => lookup?_instanceBindings_of_isMemberVar hts hty.has (hown v hv)
  refine (memberIn_computes hts hm hty).bind fun image us hus hvalid himage => ?_
  obtain ⟨kind₁, hkind₁, himage⟩ := himage
  refine (lift_computes hvalid (Pool.substitute_computes hvalid.pool (ht.of_le hus.le.1)
    (hty.has.of_le hus.le.1))).bind fun r vs hvs hvalid' hr => ?_
  refine (substituteMember_computes hvalid' (himage.of_le hvs.le)
    (ht.of_le (hus.trans hvs).le.1) hr.2).mono fun n ws hws hvalid'' hn => ?_
  obtain ⟨kind₂, hkind₂, hn⟩ := hn
  have hle := (hus.trans (hvs.trans hws)).le
  have hr' := hr.of_le hws.le.1
  refine ⟨r, kind₂, hr', ?_, hn⟩
  have hbindings := Pool.instanceBindings_related hvalid''.pool (hinstance.of_le hle.1) hr'.1
  rw [Pool.instanceBindings_of_le hts.pool hle.1 hty.has] at hbindings
  have hlookup := Pool.replaceRelated_lookup? hbindings
  -- the composition of both layers binds as the substituted instantiation does, and as `t` besides
  have hcomposes : ws.pool.Composes (ts.pool.instanceBindings ty).lookup? bs.lookup?
      fun v => ((ws.pool.instanceBindings r).lookup? v).or (bs.lookup? v) :=
    .of_related hlookup
  have hrelated₁ := (substitutesKind_iff_related hunbound).mp hkind₁
  have hrelated₂ := (substitutesKind_iff_related
    fun v hv => hfree v (hrelated₁.typeParams_eq ▸ hv)).mp hkind₂
  have hboth := hrelated₁.trans hrelated₂ fun x u v hxu huv =>
    Pool.IsResult.comp hvalid''.pool hcomposes (hxu.of_le (hvs.trans hws).le.1) huv
  have hnone : ∀ v ∈ k.kind.typeParams, (ws.pool.instanceBindings r).lookup? v = none :=
    fun v hv => hlookup.eq_none_iff.mp (hunbound v hv)
  refine (substitutesKind_iff_related hnone).mpr (hboth.imp_of_mem fun u hu x hx => ?_)
  refine ⟨hx.1.congr fun v hv => ?_, hx.2⟩
  have hoccurs := hv.of_ge hts.pool hle.1 ((hts.keys hm).types u hu)
  rcases hscope u hu v hoccurs with hparam | hbound
  · rw [hnone v hparam, hfree v hparam, Option.or_none]
  · obtain ⟨u', hu'⟩ := Option.ne_none_iff_exists'.mp hbound
    obtain ⟨x', hx', -⟩ := hlookup.exists_of_some hu'
    rw [hx', Option.some_or]

/-- The member as the substituted instantiation sees it. -/
def seenThrough (m : MemberId) (ty : TypeId) (t : SubstId) : StateM TypeSystem MemberId := do
  memberIn m (← Pool.substitute t ty)

theorem seenThrough_computes (hts : ts.Valid) (hm : ts.HasKey m k)
    (hty : ts.pool.HasKind ty (.inst c sub outer)) {t : SubstId} {bs : Bindings}
    (ht : ts.pool.HasBindings t bs) :
    Computes (seenThrough m ty t) ts fun n us => ∃ r kind, Pool.IsResult bs.lookup? ty r us.pool ∧
      SubstitutesKind us.pool (us.pool.instanceBindings r) k.kind kind ∧
        us.HasKey n { k with kind, container := r } := by
  refine (lift_computes hts (Pool.substitute_computes hts.pool ht hty.has)).bind ?_
  intro r us hus hvalid hr
  obtain ⟨bs', hbs'⟩ := hts.pool.linked hty
  obtain ⟨g, sub', -, -, -, hr'⟩ := hr.1.of_inst (hty.of_le hus.le.1) (hbs'.of_le hus.le.1)
  refine (memberIn_computes hvalid (hm.of_le hus.le) hr').mono fun n vs hvs _ hn => ?_
  obtain ⟨kind, hkind, hn⟩ := hn
  refine ⟨r, kind, hr.of_le hvs.le.1, ?_, hn⟩
  rwa [Pool.instanceBindings_of_le hvalid.pool hvs.le.1 hr.2]

/-! ### Type arguments -/

/-- A generic member of an instantiation with its type arguments. -/
def instantiateIn (m : MemberId) (ty : TypeId) (args : List TypeId) : StateM TypeSystem MemberId := do
  instantiateMethod (← memberIn m ty) args

/-- The types of the member are the results of any composition of what the instantiation binds and
the binding of the type parameters to the arguments. -/
theorem instantiateIn_computes (hts : ts.Valid) (hm : ts.HasKey m k)
    (hown : ∀ v ∈ k.kind.typeParams, ts.IsMemberVar v)
    (hty : ts.pool.HasKind ty (.inst c sub outer)) {args : List TypeId}
    (hargs : ∀ u ∈ args, ts.pool.Has u) :
    Computes (instantiateIn m ty args) ts fun n us => ∃ kind,
      (us.member n).kind = kind.withoutTypeParams ∧
        ∀ p h, us.pool ≤ p → p.Valid →
          p.Composes (ts.pool.instanceBindings ty).lookup?
            (Bindings.ofList (k.kind.typeParams.zip args)).lookup? h →
          k.kind.Related (Pool.IsResult h · · p) kind := by
  have hunbound : ∀ v ∈ k.kind.typeParams, (ts.pool.instanceBindings ty).lookup? v = none :=
    fun v hv => lookup?_instanceBindings_of_isMemberVar hts hty.has (hown v hv)
  refine (memberIn_computes hts hm hty).bind fun image us hus hvalid himage => ?_
  obtain ⟨kind₁, hkind₁, himage⟩ := himage
  have hrelated := (substitutesKind_iff_related hunbound).mp hkind₁
  refine (instantiateMethod_computes hvalid himage fun u hu => (hargs u hu).of_le hus.le.1).mono ?_
  rintro n vs hvs - ⟨_, ⟨kind, hkind, rfl⟩, hn⟩
  refine ⟨kind, ?_, fun p h hle hp hh => ?_⟩
  · rw [hn.kind_eq, MemberKind.withoutTypeParams_filterTypeParams]
  · rw [hrelated.typeParams_eq] at hkind
    exact hrelated.trans hkind fun x u v hxu huv =>
      (hxu.of_le (le_trans hvs.le.1 hle)).comp hp hh (huv.of_le hle)

/-- The signature with one substitution in its types, made of what the instantiation binds and the
binding of the type parameters to the arguments, and without type parameters. -/
def substituteOnce (combine : SubstId → SubstId → StateM Pool SubstId) (kind : MemberKind)
    (ty : TypeId) (args : List TypeId) : StateM Pool MemberKind := do
  let s ← combine (← Pool.fullSubst ty) (← Pool.internSubst (kind.typeParams.zip args))
  return (← kind.mapTypesM (Pool.substitute s)).withoutTypeParams

theorem substituteOnce_computes {p : Pool} {kind : MemberKind} {args : List TypeId}
    {combine : SubstId → SubstId → StateM Pool SubstId} (hp : p.Valid) (hty : p.Has ty)
    (hkind : ∀ u ∈ kind.types, p.Has u) (hargs : ∀ u ∈ args, p.Has u)
    (hcombine : p.Combines (p.instanceBindings ty)
      (Bindings.ofList (kind.typeParams.zip args)) combine) :
    Computes (substituteOnce combine kind ty args) p fun l q => ∃ h kind',
      l = kind'.withoutTypeParams ∧ kind.Related (Pool.IsResult h · · q) kind' ∧
        q.Composes (p.instanceBindings ty).lookup?
          (Bindings.ofList (kind.typeParams.zip args)).lookup? h := by
  have hzip : ∀ b ∈ kind.typeParams.zip args, p.Has b.2 := fun b hb =>
    hargs b.2 (List.of_mem_zip hb).2
  refine (Pool.fullSubst_computes hp hty).bind fun s₁ q₁ hpq₁ hq₁ h₁ => ?_
  refine (Pool.internSubst_computes hq₁ fun b hb => (hzip b hb).of_le hpq₁.le).bind ?_
  intro s₂ q₂ hqq₂ hq₂ h₂
  refine (hcombine q₂ s₁ s₂ (hpq₁.trans hqq₂).le hq₂ (h₁.of_le hqq₂.le) h₂).bind ?_
  rintro s q₃ hqq₃ hq₃ ⟨bs, hs, hcomposes⟩
  have hpq₃ := (hpq₁.trans hqq₂).trans hqq₃
  have hact : ∀ u ∈ kind.types, ∀ q, Store.Grows q₃ q → q.Valid →
      Computes (Pool.substitute s u) q (Pool.IsResult bs.lookup? u) := fun u hu q hqq hq =>
    Pool.substitute_computes hq (hs.of_le hqq.le) ((hkind u hu).of_le (hpq₃.trans hqq).le)
  refine (Computes.mapTypesM (fun _ _ _ _ hle hr => hr.of_le hle.le) hq₃ hact).bind ?_
  intro kind' q hqq hq hkind'
  exact Computes.pure hq ⟨_, kind', rfl, hkind', hcomposes.of_le hqq.le⟩

/-- A generic method of an instantiation with its type arguments has the signature that one composed
substitution makes of the declared one. -/
theorem substituteOnce_eq (hts : ts.Valid) (hm : ts.HasKey m k)
    (hown : ∀ v ∈ k.kind.typeParams, ts.IsMemberVar v)
    (hty : ts.pool.HasKind ty (.inst c sub outer)) {args : List TypeId}
    (hargs : ∀ u ∈ args, ts.pool.Has u) {combine : SubstId → SubstId → StateM Pool SubstId}
    (hcombine : ts.pool.Combines (ts.pool.instanceBindings ty)
      (Bindings.ofList (k.kind.typeParams.zip args)) combine) :
    (substituteOnce combine k.kind ty args (instantiateIn m ty args ts).2.pool).1 =
      ((instantiateIn m ty args ts).2.member (instantiateIn m ty args ts).1).kind := by
  have hrun := instantiateIn_computes hts hm hown hty hargs
  obtain ⟨kind, hkind, hcomposed⟩ := hrun.post
  have hle := hrun.grows.le.1
  have hbindings := Pool.instanceBindings_of_le hts.pool hle hty.has
  have honce := substituteOnce_computes hrun.valid.pool (hty.has.of_le hle)
    (fun u hu => ((hts.keys hm).types u hu).of_le hle) (fun u hu => (hargs u hu).of_le hle)
    (hbindings.symm ▸ hcombine.of_le hle)
  obtain ⟨h, kind', hl, hkind', hcomposes⟩ := honce.post
  rw [hbindings] at hcomposes
  have hsame := hcomposed _ h honce.grows.le honce.valid hcomposes
  rw [hl, hkind, hkind'.unique (fun _ _ _ hx hy => hx.1.unique hy.1) hsame]

end Layers

end TypeSystem

/-! ### In a session -/

namespace Canonicalizer

variable {s : Canonicalizer}

/-- Substituting with one substitution and then with another is substituting with their composition,
whichever is done first. -/
theorem substituteTwice_eq (hs : Reachable s) {s₁ s₂ s₁₂ : SubstId} {bs₁ bs₂ bs : Bindings}
    (h₁ : s.types.pool.HasBindings s₁ bs₁) (h₂ : s.types.pool.HasBindings s₂ bs₂)
    (h₁₂ : s.types.pool.HasBindings s₁₂ bs) (hcomposition : s.types.pool.IsComposition s₁ s₂ s₁₂)
    {ty : TypeId} (hty : s.types.pool.Has ty) :
    let twice := Pool.substituteTwice s₁ s₂ ty s.types.pool
    let once := Pool.substitute s₁₂ ty s.types.pool
    (Pool.substitute s₁₂ ty twice.2).1 = twice.1 ∧
      (Pool.substituteTwice s₁ s₂ ty once.2).1 = once.1 := by
  have hp := hs.valid.types.pool
  have hcomposes := hcomposition.composes hp h₁ h₂ h₁₂
  intro twice once
  constructor
  · have htwice := Pool.substituteTwice_computes hp h₁ h₂ hcomposes hty
    have hle := htwice.grows.le
    exact htwice.post.1.eq_substitute htwice.valid (h₁₂.of_le hle) (hty.of_le hle)
  · have honce := Pool.substitute_computes hp h₁₂ hty
    have hle := honce.grows.le
    have htwice := Pool.substituteTwice_computes honce.valid (h₁.of_le hle) (h₂.of_le hle)
      (hcomposes.of_le hle) (hty.of_le hle)
    exact htwice.post.1.unique (honce.post.1.of_le htwice.grows.le)

/-- With `U` in place of `T` the upper bound of both is `U`, and then a string. With strings in place
of both it is a string at once. -/
theorem substituteTwice_eq_string : layersSession.types.pool.IsComposition ⟨3⟩ ⟨4⟩ ⟨5⟩ ∧
    layersSession.types.pool.Has ⟨19⟩ ∧
    (Pool.substituteTwice ⟨3⟩ ⟨4⟩ ⟨19⟩ layersSession.types.pool).1 = .string ∧
    let twice := Pool.substituteTwice ⟨3⟩ ⟨4⟩ ⟨19⟩ layersSession.types.pool
    let once := Pool.substitute ⟨5⟩ ⟨19⟩ layersSession.types.pool
    (Pool.substitute ⟨5⟩ ⟨19⟩ twice.2).1 = twice.1 ∧
      (Pool.substituteTwice ⟨3⟩ ⟨4⟩ ⟨19⟩ once.2).1 = once.1 := by
  obtain ⟨-, -, -, h₁, h₂, h₁₂, hhas⟩ := layersSession_declares
  have hcomposition : layersSession.types.pool.IsComposition ⟨3⟩ ⟨4⟩ ⟨5⟩ := by
    have himage : (Pool.substitute ⟨4⟩ ⟨14⟩ layersSession.types.pool).1 = .string := by
      decide +kernel
    intro v
    simp only [Pool.replacement?, h₁.bindings_eq, h₂.bindings_eq, h₁₂.bindings_eq,
      Bindings.lookup?_cons]
    by_cases hT : (⟨0⟩ : TypeVarId) = v
    · simp [hT, himage]
    · simp [hT, Bindings.lookup?]
  exact ⟨hcomposition, hhas, by decide +kernel,
    substituteTwice_eq layersSession_reachable h₁ h₂ h₁₂ hcomposition hhas⟩

section Declared

variable {c : ClassId} {m : MemberId} {ty : TypeId} {sub : SubstId} {outer : Option TypeId}

/-- The image of an instantiation binds the images of what the instantiation binds, and sees a member
as the image of the member that the instantiation sees. -/
theorem seenTwice_eq (hs : Reachable s) (hm : m ∈ (s.types.classDef c).members)
    (hty : s.types.pool.HasKind ty (.inst c sub outer)) (hinstance : s.types.pool.IsInstance ty)
    (hscope : ∀ u ∈ (s.types.member m).kind.types, ∀ v, s.types.pool.Occurs (.var v) u →
      v ∈ (s.types.member m).kind.typeParams ∨ v ∈ s.types.typeParamsInScope c)
    (hbinds : ∀ v ∈ s.types.typeParamsInScope c, (s.types.pool.instanceBindings ty).lookup? v ≠ none)
    {t : SubstId} {bs : Bindings} (ht : s.types.pool.HasBindings t bs)
    (hfree : ∀ v ∈ (s.types.member m).kind.typeParams, bs.lookup? v = none) :
    let subs := Pool.substsOfImage t ty s.types.pool
    let twice := TypeSystem.seenTwice m ty t s.types
    subs.2.IsImage t subs.1.1 subs.1.2 ∧ (TypeSystem.seenThrough m ty t twice.2).1 = twice.1 := by
  have hts := hs.valid.types
  have hkey := (hts.hasMember_of_declared hm).hasKey
  refine ⟨(Pool.substsOfImage_computes hts.pool ht hty.has hinstance).post, ?_⟩
  have htwice := TypeSystem.seenTwice_computes hts hkey ((hts.classes c).ownParams m hm) hty
    hinstance (fun u hu v hv => (hscope u hu v hv).imp_right (hbinds v)) ht hfree
  have hle := htwice.grows.le
  have hthrough := TypeSystem.seenThrough_computes htwice.valid (hkey.of_le hle) (hty.of_le hle.1)
    (ht.of_le hle.1)
  have hle' := hthrough.grows.le
  obtain ⟨r, kind, hr, hkind, hn⟩ := htwice.post
  obtain ⟨r', kind', hr', hkind', hn'⟩ := hthrough.post
  obtain rfl := (hr.1.of_le hle'.1).unique hr'.1
  have hkind := hkind.of_le hle'.1
  rw [← Pool.instanceBindings_of_le htwice.valid.pool hle'.1 hr.2] at hkind
  rw [hkind.unique hkind'] at hn
  exact hn'.inj (hn.of_le hle')

/-- In this state there are instantiations of a class and of a member class, and a method of the member
class whose signature mentions the parameters of both. The last substitution binds these. -/
structure DeclaresNested (s : Canonicalizer) : Prop where
  outer : s.types.pool.HasKind ⟨14⟩ (.inst ⟨2⟩ ⟨1⟩ none)
  inner : s.types.pool.HasKind ⟨17⟩ (.inst ⟨3⟩ ⟨2⟩ (some ⟨14⟩))
  method : ⟨15⟩ ∈ (s.types.classDef ⟨3⟩).members
  inScope : s.types.typeParamsInScope ⟨3⟩ = [⟨1⟩, ⟨0⟩]
  typeParams : (s.types.member ⟨15⟩).kind.typeParams = []
  signature : (s.types.member ⟨15⟩).kind.types = [⟨13⟩, ⟨15⟩, Primitive.void.typeId]
  outerVar : s.types.pool.HasKind ⟨13⟩ (.var ⟨0⟩)
  innerVar : s.types.pool.HasKind ⟨15⟩ (.var ⟨1⟩)
  result : s.types.pool.HasKind Primitive.void.typeId (.prim .void)
  bindings : s.types.pool.HasBindings ⟨3⟩ [(⟨0⟩, .string), (⟨1⟩, .object)]

/-- A session that declares a class `Inner<B>` in `Outer<A>` with a method `f(A, B)`, instantiates both
for their own parameters, and binds these to strings and objects. -/
def nestedSession : Canonicalizer :=
  let s := (fresh .initial).declared (.declareClass "Outer" {})
  let s := s.declared (.addTypeParam ⟨2⟩ "A" none)
  let s := (s.asked (.typeVar ⟨0⟩)).asked (.instantiate ⟨2⟩ [⟨13⟩] none)
  let s := s.declared (.declareClass "Inner" {})
  let s := (s.declared (.addTypeParam ⟨3⟩ "B" none)).declared (.setOuter ⟨3⟩ ⟨14⟩)
  let s := (s.asked (.typeVar ⟨1⟩)).asked (.intern "f")
  let s := s.declared (.declareMember ⟨3⟩ (.method ⟨13⟩ [⟨13⟩, ⟨15⟩] Primitive.void.typeId []) {})
  let s := s.asked (.instantiate ⟨3⟩ [⟨15⟩] (some ⟨14⟩))
  s.asked (.internSubst [(⟨0⟩, .string), (⟨1⟩, .object)])

theorem nestedSession_checked : Reachable nestedSession ∧ DeclaresNested nestedSession := by
  -- The steps and the last state make one goal, so that the prelude is evaluated once.
  suffices h : (_ ∧ _ ∧ _ ∧ _ ∧ _ ∧ _) ∧ _ ∧ _ ∧ _ ∧ _ ∧ _ ∧ _ ∧ _ ∧ _ ∧ _ ∧ _ by
    obtain ⟨⟨h₁, h₂, h₃, h₄, h₅, h₆⟩, houter, hinner, hmethod, hscope, hparams, htypes, hA, hB, hvoid,
      hbindings⟩ := h
    refine ⟨?_, houter, hinner, hmethod, hscope, hparams, htypes, hA, hB, hvoid, hbindings⟩
    exact .ask _ (.ask _ (.declare _ (.ask _ (.ask _ (.declare _ (.declare _ (.declare _ (.ask _ (.ask _
      (.declare _ (.declare _ .initial trivial) nofun) trivial) ⟨h₁, nofun⟩) trivial) nofun) h₂) trivial)
      trivial) h₃) ⟨h₄, h₅⟩) h₆
  unfold TypeSystem.Query.Admitted TypeSystem.Declaration.Admitted
  decide +kernel

theorem nestedSession_reachable : Reachable nestedSession := nestedSession_checked.1

theorem nestedSession_declares : DeclaresNested nestedSession := nestedSession_checked.2

/-- With strings for `A` and objects for `B`, the method of `Outer<A>.Inner<B>` becomes the method of
`Outer<core.String>.Inner<core.Object>`. -/
theorem seenTwice_eq_nested :
    let subs := Pool.substsOfImage ⟨3⟩ ⟨17⟩ nestedSession.types.pool
    let twice := TypeSystem.seenTwice ⟨15⟩ ⟨17⟩ ⟨3⟩ nestedSession.types
    (twice.2.member twice.1).kind.formals = [.string, .object] ∧
      subs.2.IsImage ⟨3⟩ subs.1.1 subs.1.2 ∧
      (TypeSystem.seenThrough ⟨15⟩ ⟨17⟩ ⟨3⟩ twice.2).1 = twice.1 := by
  obtain ⟨houter, hty, hm, hparams, hown, htypes, hA, hB, hvoid, ht⟩ := nestedSession_declares
  have hinstance : nestedSession.types.pool.IsInstance ⟨17⟩ :=
    .inst hty fun u hu => Option.some.inj hu ▸ .inst houter nofun
  have hscope : ∀ u ∈ (nestedSession.types.member ⟨15⟩).kind.types, ∀ v,
      nestedSession.types.pool.Occurs (.var v) u →
        v ∈ (nestedSession.types.member ⟨15⟩).kind.typeParams ∨
          v ∈ nestedSession.types.typeParamsInScope ⟨3⟩ := by
    rw [htypes, hparams]
    intro u hu v hv
    rcases List.mem_cons.mp hu with rfl | hu
    · cases hv.eq_of_parts_eq_nil hA rfl
      exact .inr (List.mem_cons_of_mem _ List.mem_cons_self)
    rcases List.mem_cons.mp hu with rfl | hu
    · cases hv.eq_of_parts_eq_nil hB rfl
      exact .inr List.mem_cons_self
    · rw [List.mem_singleton.mp hu] at hv
      cases hv.eq_of_parts_eq_nil hvoid rfl
  exact ⟨by decide +kernel, seenTwice_eq nestedSession_reachable hm hty hinstance hscope
    (by decide +kernel) ht fun v hv => nomatch hown ▸ hv⟩

/-- A generic method of an instantiation, with type arguments, has the declared signature under one
substitution: it binds the type parameters of the method to the arguments, and the variables that the
instantiation binds to their types with the arguments in place of the type parameters. Where no type
parameter of the method occurs in what the instantiation binds, these types stay as they are. -/
theorem instantiateIn_composed (hs : Reachable s) (hm : m ∈ (s.types.classDef c).members)
    (hty : s.types.pool.HasKind ty (.inst c sub outer)) {args : List TypeId}
    (hargs : ∀ u ∈ args, s.types.pool.Has u) :
    let kind := (s.types.member m).kind
    let made := TypeSystem.instantiateIn m ty args s.types
    (TypeSystem.substituteOnce Pool.compose kind ty args made.2.pool).1 =
        (made.2.member made.1).kind ∧
      ((∀ b ∈ s.types.pool.instanceBindings ty, ∀ v ∈ kind.typeParams,
        ¬ s.types.pool.Occurs (.var v) b.2) →
        (TypeSystem.substituteOnce Pool.union kind ty args made.2.pool).1 =
          (made.2.member made.1).kind) := by
  have hts := hs.valid.types
  have hkey := (hts.hasMember_of_declared hm).hasKey
  have hown := (hts.classes c).ownParams m hm
  refine ⟨TypeSystem.substituteOnce_eq hts hkey hown hty hargs Pool.compose_combines, fun hfree => ?_⟩
  refine TypeSystem.substituteOnce_eq hts hkey hown hty hargs
    (Pool.union_combines hts.pool (fun b hb => ?_) fun b hb v hv => ?_)
  · exact (Pool.isInstanceBinding_of_mem_instanceBindings hts.pool hty.has hb).has hts.pool
  · by_contra hbound
    obtain ⟨u, hu⟩ := Option.ne_none_iff_exists'.mp hbound
    have hzip := Bindings.mem_of_mem_ofList (Bindings.mem_of_lookup? hu)
    exact hfree b hb v (List.of_mem_zip hzip).1 hv

/-- In `Box<core.String>` the arguments of the method with an object for `U` are a string and an
object, by one substitution. -/
theorem instantiateIn_composed_string :
    let kind := (layersSession.types.member ⟨16⟩).kind
    let made := TypeSystem.instantiateIn ⟨16⟩ ⟨16⟩ [.object] layersSession.types
    (made.2.member made.1).kind.formals = [.string, .object] ∧
      (TypeSystem.substituteOnce Pool.compose kind ⟨16⟩ [.object] made.2.pool).1 =
        (made.2.member made.1).kind ∧
      (TypeSystem.substituteOnce Pool.union kind ⟨16⟩ [.object] made.2.pool).1 =
        (made.2.member made.1).kind := by
  obtain ⟨hm, hty, -⟩ := layersSession_declares
  obtain ⟨hbindings, hstring, hargs⟩ :
      layersSession.types.pool.instanceBindings ⟨16⟩ = [(⟨0⟩, .string)] ∧
        layersSession.types.pool.HasKind .string (.raw .string) ∧
        ∀ u ∈ [TypeId.object], layersSession.types.pool.Has u := by decide +kernel
  obtain ⟨hcompose, hunion⟩ := instantiateIn_composed layersSession_reachable hm hty hargs
  refine ⟨by decide +kernel, hcompose, hunion fun b hb v _ hv => ?_⟩
  rw [hbindings] at hb
  rw [List.mem_singleton.mp hb] at hv
  cases hv.eq_of_parts_eq_nil hstring rfl

/-- In `Box<U>`, as the method itself sees the class, the type argument for `U` replaces the argument of
the class as well, although `U` stands for the argument of the class there. -/
theorem instantiateIn_captured :
    Reachable layersSession ∧ ⟨16⟩ ∈ (layersSession.types.classDef ⟨2⟩).members ∧
      layersSession.types.typeParamsInScope ⟨2⟩ = [⟨0⟩] ∧
      layersSession.types.pool.HasKind ⟨18⟩ (.inst ⟨2⟩ ⟨3⟩ none) ∧
      layersSession.types.pool.HasBindings ⟨3⟩ [(⟨0⟩, ⟨14⟩)] ∧
      let kind := (layersSession.types.member ⟨16⟩).kind
      let made := TypeSystem.instantiateIn ⟨16⟩ ⟨18⟩ [.string] layersSession.types
      kind.typeParams = [⟨1⟩] ∧
        (TypeSystem.substituteOnce Pool.union kind ⟨18⟩ [.string] made.2.pool).1.formals =
          [⟨14⟩, .string] ∧
        (made.2.member made.1).kind.formals = [.string, .string] := by
  refine ⟨layersSession_reachable, ?_⟩
  decide +kernel

end Declared

end Canonicalizer

end Erasure
