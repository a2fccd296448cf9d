/-
Substitution keeps subtyping.

A substitution can put any reference type in place of a variable, and it can leave one candidate of
an upper bound. So the rule that relates two types is seldom the one that relates their images: each
rule is followed by what transitivity and the images of bounds say. The main statements:

* `isSubtype_of_candidate`: what is below a candidate is below the upper bound.
* `Images.isSubtype`: where all images exist, a derivation makes the images subtypes.
* `isSubtype_substitute`: a substitution under which every type variable stays below its bound keeps
  subtyping.
-/
import Erasure.Proofs.Subtyping.Derivation

namespace Erasure

/-- A set of which all members are one type has one member. -/
theorem Candidates.ofList_eq_singleton {tys : List TypeId} {ty : TypeId} (hne : tys ≠ [])
    (h : ∀ u ∈ tys, u = ty) : Candidates.ofList tys = [ty] := by
  refine (sorted_ofList tys).eq_of_mem_iff (List.pairwise_singleton _ _) fun u => ?_
  rw [mem_ofList, List.mem_singleton]
  refine ⟨h u, ?_⟩
  rintro rfl
  obtain ⟨w, hw⟩ := List.exists_mem_of_ne_nil tys hne
  exact h w hw ▸ hw

/-- If there is one image of all members, it is the image of each of them. -/
theorem Candidates.eq_of_ofList_map {g : TypeId → TypeId} {tys : List TypeId} {u r : TypeId}
    (h : ofList (tys.map g) = [r]) (hu : u ∈ tys) : g u = r := by
  have hmem : g u ∈ ofList (tys.map g) := mem_ofList.mpr (List.mem_map_of_mem hu)
  rwa [h, List.mem_singleton] at hmem

namespace Pool

variable {p : Pool}

/-- A pool can grow until it holds the results of substituting in all its types. -/
theorem exists_results {s : SubstId} {bs : Bindings} (hp : p.Valid) (hs : p.HasBindings s bs) :
    ∃ (q : Pool) (g : TypeId → TypeId), p ≤ q ∧ q.Valid ∧
      ∀ ty, p.Has ty → IsResult bs.lookup? ty (g ty) q := by
  let tys := (List.range p.size).map TypeId.mk
  have hcomputes : Computes (tys.mapM (substitute s)) p fun rs q =>
      List.Forall₂ (fun ty r => IsResult bs.lookup? ty r q) tys rs := by
    refine Computes.mapM (fun _ _ _ _ hqq h => h.of_le hqq.le) hp fun ty hty q hpq hq => ?_
    obtain ⟨i, hi, rfl⟩ := List.mem_map.mp hty
    have hhas : p.Has ⟨i⟩ := List.mem_range.mp hi
    exact substitute_computes hq (hs.of_le hpq.le) (hhas.of_le hpq.le)
  obtain ⟨g, hg⟩ := exists_substitutes_eq _ bs.lookup?
  obtain ⟨-, hresults⟩ := eq_map_of_forall₂ (fun u r hur => hg u r hur.1) hcomputes.post
  refine ⟨_, g, hcomputes.grows.le, hcomputes.valid, fun ty hty => hresults ty ?_⟩
  exact List.mem_map.mpr ⟨ty.index, List.mem_range.mpr hty, rfl⟩

end Pool

namespace TypeSystem

variable {ts us : TypeSystem} {t u : TypeId}

/-! ### Upper bounds -/

/-- Every open upper bound is that of one type at least, and of references only. -/
def OpenJoins (ts : TypeSystem) : Prop :=
  ∀ ty l, ts.pool.HasKind ty (.lub l) →
    ts.pool.candidates l ≠ [] ∧ ∀ c ∈ ts.pool.candidates l, ts.isReference c = true

/-- The type is a reference, and so are its candidates and theirs in turn. -/
inductive OnlyReferences (ts : TypeSystem) : TypeId → Prop
  | intro {t : TypeId} : (ts.kind t).isReference = true →
      (∀ l, ts.pool.HasKind t (.lub l) → ∀ c ∈ ts.pool.candidates l, OnlyReferences ts c) →
      OnlyReferences ts t

theorem OnlyReferences.isReference (h : ts.OnlyReferences t) : (ts.kind t).isReference = true := by
  cases h with
  | intro href _ => exact href

theorem OnlyReferences.of_isArrayOrClass (h : ts.IsArrayOrClass t) : ts.OnlyReferences t := by
  rcases h with ⟨a, hk⟩ | ⟨c, hc⟩
  · refine .intro (by rw [hk]; rfl) fun l hl => ?_
    exact nomatch hk.symm.trans hl.kind_eq
  · rw [classOf?] at hc
    refine .intro ?_ fun l hl => ?_
    · cases hk : ts.kind t with rw [hk] at hc
      | raw _ | inst _ _ _ => rfl
      | prim _ | null | array _ | var _ | lub _ => cases hc
    · rw [show ts.kind t = .lub l from hl.kind_eq] at hc
      cases hc

/-- The references of a type system with open upper bounds stay such when it grows. -/
theorem OpenJoins.onlyReferences (hjoins : ts.OpenJoins) (hp : ts.pool.Valid)
    (hext : Extends ts us) (ht : ts.pool.Has t) (href : (ts.kind t).isReference = true) :
    us.OnlyReferences t := by
  induction hn : t.index using Nat.strongRecOn generalizing t with
  | ind n ih =>
    refine .intro (by rwa [kind_of_le hext.le ht]) fun l hl c hc => ?_
    have hold := hl.of_ge hext.le.1 ht
    rw [show us.pool.candidates l = ts.pool.candidates l from
      Pool.parts_of_le hext.le.1 (hp.linked hold)] at hc
    have hhas := hp.has_part hold hc
    refine ih c.index (hn ▸ hp.parts_lt hold c hc) hhas ?_ rfl
    rw [← isReference_eq_kind hp hhas]
    exact (hjoins t l hold).2 c hc

/-- What is below a candidate is below the upper bound. -/
theorem isSubtype_of_candidate (h : ts.WellFormed) {c : TypeId} {l : LubId} (ht : ts.pool.Has t)
    (hrefs : ts.OnlyReferences t) (hk : ts.pool.HasKind u (.lub l))
    (hc : c ∈ ts.pool.candidates l) (htc : ts.isSubtype t c = true) : ts.isSubtype t u = true := by
  induction hrefs generalizing u c l with
  | @intro t href _ ih =>
    have hku : ts.kind u = .lub l := hk.kind_eq
    have hrefu : (ts.kind u).isReference = true := by rw [hku]; rfl
    have hnullu : ts.kind u ≠ .null := by rw [hku]; exact nofun
    by_cases hnull : ts.kind t = .null
    · exact (isSubtype_null_iff h ht hk.has hnull).mpr hrefu
    by_cases hlub : ∃ m, ts.kind t = .lub m
    · obtain ⟨m, hkt⟩ := hlub
      have hkt' : ts.pool.HasKind t (.lub m) := hkt ▸ ht.hasKind
      refine (isSubtype_lub_iff h ht hk.has hkt hrefu hnullu).mpr (.inr fun d hd => ?_)
      have hhasd := h.pool.has_part hkt' hd
      have hhasc := h.pool.has_part hk hc
      refine ih m hkt' d hd hhasd hk hc ?_
      by_cases htc' : t = c
      · -- the candidate is `t` itself, which its own candidate `d` is below
        exact ih m hkt' d hd hhasd (htc' ▸ hkt') hd (isSubtype_self ts d)
      · obtain ⟨-, hrefc, hnullc⟩ := isReference_of_isSubtype h ht hhasc htc' htc
        exact ((isSubtype_lub_iff h ht hhasc hkt hrefc hnullc).mp htc).resolve_left htc' d hd
    · rw [not_exists] at hlub
      exact (isSubtype_to_lub_iff h ht hk.has hku href hnull hlub).mpr ⟨c, hc, htc⟩

/-! ### Images -/

/-- The larger type system holds the image of every type of the smaller one, in which every type
variable becomes a reference type below the image of its bound. -/
structure Images (ts us : TypeSystem) (f : TypeVarId → Option TypeId) (g : TypeId → TypeId) :
    Prop where
  grows : Extends ts us
  valid : us.pool.Valid
  replacement : ∀ {v ty}, f v = some ty → ts.pool.Has ty
  result : ∀ {ty}, ts.pool.Has ty → Pool.IsResult f ty (g ty) us.pool
  reference : ∀ {ty v}, ts.pool.HasKind ty (.var v) → us.isReference (g ty) = true
  bound : ∀ {ty v}, ts.pool.HasKind ty (.var v) →
    us.isSubtype (g ty) (g (ts.typeVar v).bound) = true

namespace Images

variable {f : TypeVarId → Option TypeId} {g : TypeId → TypeId} (hg : Images ts us f g)
include hg

theorem has (ht : ts.pool.Has t) : us.pool.Has (g t) := (hg.result ht).2

theorem eq_of_isNormal (ht : ts.pool.IsNormal t) (hhas : ts.pool.Has t) : g t = t := by
  obtain ⟨shape, hshape⟩ := ht
  exact (hg.result hhas).1.of_isNormal ⟨shape, hshape.of_le hg.grows.le.1⟩

theorem eq_of_var {v : TypeVarId} (hk : ts.pool.HasKind t (.var v)) : g t = (f v).getD t :=
  (hg.result hk.has).1.of_var (hk.of_le hg.grows.le.1)

theorem hasKind_array {a : TypeId} (hk : ts.pool.HasKind t (.array a)) (ha : ts.pool.Has a) :
    us.pool.HasKind (g t) (.array (g a)) := by
  obtain ⟨a', hresult, hk'⟩ := (hg.result hk.has).1.of_array (hk.of_le hg.grows.le.1)
  rwa [← hresult.unique (hg.result ha).1]

/-- The image of a class type is a type of the same class. -/
theorem classOf?_eq (h : ts.WellFormed) {c : ClassId} (hc : ts.classOf? t = some c) :
    us.classOf? (g t) = some c := by
  have hhas := has_of_classOf? hc
  have hkind := hhas.hasKind
  rw [classOf?, kind] at hc
  cases hk : ts.pool.kind t with rw [hk] at hc hkind
  | raw d =>
    obtain rfl := Option.some.inj hc
    rw [hg.eq_of_isNormal ⟨_, .raw hkind⟩ hhas, classOf?, kind,
      (hkind.of_le hg.grows.le.1).kind_eq]
    rfl
  | inst d s outer =>
    obtain rfl := Option.some.inj hc
    obtain ⟨bs, hbs⟩ := h.pool.linked hkind
    obtain ⟨_, _, -, -, -, hk'⟩ := (hg.result hhas).1.of_inst (hkind.of_le hg.grows.le.1)
      (hbs.of_le hg.grows.le.1)
    rw [classOf?, kind, hk'.kind_eq]
    rfl
  | prim _ | null | array _ | var _ | lub _ => cases hc

/-- The image of an upper bound is one of the images of its candidates. -/
theorem isLub (h : ts.WellFormed) {l : LubId} (hk : ts.pool.HasKind t (.lub l)) :
    us.pool.IsLub (Candidates.ofList ((ts.pool.candidates l).map g)) (g t) := by
  obtain ⟨cs, hcs⟩ := h.pool.linked hk
  obtain ⟨g', hmembers, hlub⟩ := (hg.result hk.has).1.of_lub (hk.of_le hg.grows.le.1)
    (hcs.of_le hg.grows.le.1)
  have hmap : cs.map g' = cs.map g := List.map_congr_left fun c hc =>
    (hmembers c hc).unique (hg.result ((h.pool.candidates hcs).2.2 c hc)).1
  rwa [hcs.candidates_eq, ← hmap]

theorem onlyReferences_of_candidates (h : ts.WellFormed) {l : LubId}
    (hk : ts.pool.HasKind t (.lub l)) (hne : ts.pool.candidates l ≠ [])
    (hall : ∀ c ∈ ts.pool.candidates l, us.OnlyReferences (g c)) : us.OnlyReferences (g t) := by
  cases hg.isLub h hk with
  | only hcs _ =>
    obtain ⟨c, hc⟩ := List.exists_mem_of_ne_nil _ hne
    exact Candidates.eq_of_ofList_map hcs hc ▸ hall c hc
  | lub _ hcs hk' =>
    refine .intro (by rw [show us.kind (g t) = _ from hk'.kind_eq]; rfl) fun m hm r hr => ?_
    cases hk'.unique hm
    rw [hcs.candidates_eq, Candidates.mem_ofList] at hr
    obtain ⟨c, hc, rfl⟩ := List.mem_map.mp hr
    exact hall c hc

/-- References have references as images. -/
theorem onlyReferences (h : ts.WellFormed) (hjoins : ts.OpenJoins) (ht : ts.pool.Has t)
    (href : (ts.kind t).isReference = true) : us.OnlyReferences (g t) := by
  induction hn : t.index using Nat.strongRecOn generalizing t with
  | ind n ih =>
    have hkind := ht.hasKind
    have hold : ∀ {r}, ts.pool.Has r → (ts.kind r).isReference = true → us.OnlyReferences r :=
      hjoins.onlyReferences h.pool hg.grows
    cases hk : ts.pool.kind t with rw [hk] at hkind
    | prim r =>
      rw [kind, hk] at href
      cases href
    | null =>
      rw [hg.eq_of_isNormal ⟨_, .null hkind⟩ ht]
      exact hold ht href
    | raw c =>
      rw [hg.eq_of_isNormal ⟨_, .raw hkind⟩ ht]
      exact hold ht href
    | array a =>
      have himage := hg.hasKind_array hkind (h.pool.has_part hkind List.mem_cons_self)
      exact .of_isArrayOrClass (.inl ⟨g a, himage.kind_eq⟩)
    | var v =>
      have hhas : ts.pool.Has (g t) := by
        rw [hg.eq_of_var hkind]
        cases hf : f v with
        | none => exact ht
        | some r => exact hg.replacement hf
      have hrefs := isReference_eq_kind hg.valid (hg.has ht) ▸ hg.reference hkind
      exact hold hhas (kind_of_le hg.grows.le hhas ▸ hrefs)
    | inst c s outer =>
      have hclass : ts.classOf? t = some c := by
        rw [classOf?, kind, hk]
        rfl
      exact .of_isArrayOrClass (.inr ⟨c, hg.classOf?_eq h hclass⟩)
    | lub l =>
      obtain ⟨hne, hrefs⟩ := hjoins t l hkind
      refine hg.onlyReferences_of_candidates h hkind hne fun c hc => ?_
      have hhas := h.pool.has_part hkind hc
      refine ih c.index (hn ▸ h.pool.parts_lt hkind c hc) hhas ?_ rfl
      rw [← isReference_eq_kind h.pool hhas]
      exact hrefs c hc

/-- The image of an upper bound is below what the images of all its candidates are below. -/
theorem isSubtype_of_candidates (h : ts.WellFormed) (hjoins : ts.OpenJoins) {l : LubId}
    (hk : ts.pool.HasKind t (.lub l)) (hu : ts.pool.Has u)
    (href : (ts.kind u).isReference = true)
    (hall : ∀ c ∈ ts.pool.candidates l, us.isSubtype (g c) (g u) = true) :
    us.isSubtype (g t) (g u) = true := by
  have hus := h.of_extends hg.grows hg.valid
  have hhas : ∀ {c}, c ∈ ts.pool.candidates l → us.pool.Has (g c) := fun hc =>
    hg.has (h.pool.has_part hk hc)
  have hne := (hjoins t l hk).1
  cases hg.isLub h hk with
  | only hcs _ =>
    obtain ⟨c, hc⟩ := List.exists_mem_of_ne_nil _ hne
    exact Candidates.eq_of_ofList_map hcs hc ▸ hall c hc
  | lub hlength hcs hk' =>
    have hrefu := (hg.onlyReferences h hjoins hu href).isReference
    have hnull : us.kind (g u) ≠ .null := fun hnull => by
      -- below the null type there is only one image, so no upper bound would be left
      have hone : Candidates.ofList ((ts.pool.candidates l).map g) = [g u] := by
        refine Candidates.ofList_eq_singleton (by simpa using hne) fun r hr => ?_
        obtain ⟨c, hc, rfl⟩ := List.mem_map.mp hr
        exact (isSubtype_to_null_iff hus (hhas hc) (hg.has hu) hnull).mp (hall c hc)
      rw [hone] at hlength
      exact hlength rfl
    refine (isSubtype_lub_iff hus hk'.has (hg.has hu) hk'.kind_eq hrefu hnull).mpr
      (.inr fun r hr => ?_)
    rw [hcs.candidates_eq, Candidates.mem_ofList] at hr
    obtain ⟨c, hc, rfl⟩ := List.mem_map.mp hr
    exact hall c hc

/-- What is below the image of a candidate is below the image of the upper bound. -/
theorem isSubtype_of_candidate (h : ts.WellFormed) {l : LubId} {c r : TypeId}
    (hr : us.pool.Has r) (hrefs : us.OnlyReferences r) (hk : ts.pool.HasKind u (.lub l))
    (hc : c ∈ ts.pool.candidates l) (hrc : us.isSubtype r (g c) = true) :
    us.isSubtype r (g u) = true := by
  cases hg.isLub h hk with
  | only hcs _ => exact Candidates.eq_of_ofList_map hcs hc ▸ hrc
  | lub _ hcs hk' =>
    have hus := h.of_extends hg.grows hg.valid
    refine TypeSystem.isSubtype_of_candidate hus hr hrefs hk' ?_ hrc
    rw [hcs.candidates_eq, Candidates.mem_ofList]
    exact List.mem_map_of_mem hc

/-- A derivation between types makes their images subtypes. -/
theorem isSubtype (h : ts.WellFormed) (hjoins : ts.OpenJoins) (htu : ts.SubtypeOf t u)
    (ht : ts.pool.Has t) (hu : ts.pool.Has u) : us.isSubtype (g t) (g u) = true := by
  have hus := h.of_extends hg.grows hg.valid
  have href : ∀ {x}, ts.pool.Has x → (ts.kind x).isReference = true →
      (us.kind (g x)).isReference = true := fun hx hr =>
    (hg.onlyReferences h hjoins hx hr).isReference
  induction htu with
  | refl => exact isSubtype_self us _
  | @null t u hk hrefu =>
    have hnull : us.kind (g t) = .null := by
      rw [hg.eq_of_isNormal ⟨_, .null hk⟩ ht]
      exact (hk.of_le hg.grows.le.1).kind_eq
    exact (isSubtype_null_iff hus (hg.has ht) (hg.has hu) hnull).mpr (href hu hrefu)
  | candidates hk hrefu _ _ ih =>
    exact hg.isSubtype_of_candidates h hjoins hk hu hrefu fun c hc =>
      ih c hc (h.pool.has_part hk hc) hu
  | candidate hk hreft _ _ hc _ ih =>
    exact hg.isSubtype_of_candidate h (hg.has ht) (hg.onlyReferences h hjoins ht hreft) hk hc
      (ih ht (h.pool.has_part hk hc))
  | bound hk _ _ _ _ ih =>
    exact isSubtype_trans hus (hg.has ht) (hg.has (h.bound _)) (hg.has hu) (hg.bound hk)
      (ih (h.bound _) hu)
  | elems hkt hku ha hb _ ih =>
    have hhasa := h.pool.has_part hkt List.mem_cons_self
    have hhasb := h.pool.has_part hku List.mem_cons_self
    refine (isSubtype_array_iff hus (hg.has ht) (hg.has hu) (hg.hasKind_array hkt hhasa).kind_eq
      (hg.hasKind_array hku hhasb).kind_eq).mpr (.inr ⟨href hhasa ha, href hhasb hb, ?_⟩)
    exact ih hhasa hhasb
  | array hk hc =>
    have himage := hg.hasKind_array hk (h.pool.has_part hk List.mem_cons_self)
    exact (isSubtype_array_class_iff hus (hg.has ht) (hg.has hu) himage.kind_eq
      (hg.classOf?_eq h hc)).mpr rfl
  | inherits hb hc hreaches =>
    refine (isSubtype_class_iff hus (hg.has ht) (hg.has hu) (hg.classOf?_eq h hb)
      (hg.classOf?_eq h hc)).mpr ?_
    rwa [h.inherits_eq hg.grows]

end Images

/-! ### Substituting -/

/-- Whether a type is a subtype of what a substitution makes of another. -/
def isBelowImage (s : SubstId) (t u : TypeId) : StateM TypeSystem Bool := do
  let u' ← (liftM (Pool.substitute s u) : StateM TypeSystem TypeId)
  return (← get).isSubtype t u'

/-- Whether what a substitution makes of two types are a subtype and a supertype. -/
def relatesImages (s : SubstId) (t u : TypeId) : StateM TypeSystem Bool := do
  let t' ← (liftM (Pool.substitute s t) : StateM TypeSystem TypeId)
  isBelowImage s t' u

/-- Every type variable, or what the substitution puts in its place, is a reference type below what
the substitution makes of its bound. -/
def KeepsBounds (ts : TypeSystem) (s : SubstId) : Prop :=
  ∀ ty v, ts.pool.HasKind ty (.var v) →
    ts.isReference ((ts.pool.replacement? s v).getD ty) = true ∧
      (isBelowImage s ((ts.pool.replacement? s v).getD ty) (ts.typeVar v).bound ts).1 = true

theorem extends_of_pool {q : Pool} (hle : ts.pool ≤ q) : Extends ts { ts with pool := q } :=
  ⟨⟨hle, le_refl _, le_refl _, fun _ _ hm => hm⟩, rfl, rfl⟩

/-- Wherever a type system has come to without declarations, it can grow to hold all images. -/
theorem exists_images {s : SubstId} {bs : Bindings} (h : ts.WellFormed)
    (hs : ts.pool.HasBindings s bs) (hbounds : ts.KeepsBounds s) (hext : Extends ts us)
    (hp : us.pool.Valid) : ∃ vs g, Extends us vs ∧ Images ts vs bs.lookup? g := by
  obtain ⟨q, g, hle, hq, hresults⟩ := Pool.exists_results hp (hs.of_le hext.le.1)
  have hvs : Extends ts { us with pool := q } := hext.trans (extends_of_pool hle)
  have hbindings : ∀ b ∈ bs, ts.pool.Has b.2 := (h.pool.bindings hs).2
  have hreplaced : ∀ {ty v}, ts.pool.HasKind ty (.var v) →
      g ty = (ts.pool.replacement? s v).getD ty ∧ ts.pool.Has (g ty) := by
    intro ty v hk
    have heq := (hresults ty (hk.has.of_le hext.le.1)).1.of_var (hk.of_le hvs.le.1)
    rw [Pool.replacement?, hs.bindings_eq]
    refine ⟨heq, heq ▸ ?_⟩
    cases hf : bs.lookup? v with
    | none => exact hk.has
    | some r => exact hbindings _ (Bindings.mem_of_lookup? hf)
  refine ⟨_, g, extends_of_pool hle, hvs, hq, fun hf => hbindings _ (Bindings.mem_of_lookup? hf),
    fun hty => hresults _ (hty.of_le hext.le.1), fun {ty v} hk => ?_, fun {ty v} hk => ?_⟩
  · obtain ⟨heq, hhas⟩ := hreplaced hk
    rw [isReference, flags, Pool.flags_of_le hvs.le.1 hhas, heq]
    exact (hbounds ty v hk).1
  · obtain ⟨heq, hhas⟩ := hreplaced hk
    have hbelow := (hbounds ty v hk).2
    rw [← heq] at hbelow
    have hrun := Pool.substitute_computes h.pool hs (h.bound v)
    have hself : ∀ {x}, ts.pool.Has x → Pool.Mirrors _ q x x := fun hx =>
      Pool.mirrors_self h.pool hrun.valid hrun.grows.le hvs.le.1 hx
    have hreplace := Pool.replaceRelated_lookup? (Pool.related_self fun b hb =>
      hself (hbindings b hb))
    refine isSubtype_of_mirrors h (extends_of_pool hrun.grows.le) hvs hrun.valid hq (hself hhas) ?_
      hbelow
    exact (hself (h.bound v)).substitutes hrun.valid hq hreplace hrun.post.1
      (hresults _ ((h.bound v).of_le hext.le.1)).1

/-- A substitution keeps subtyping if it leaves every type variable a reference type below its
bound. -/
theorem isSubtype_substitute {s : SubstId} {bs : Bindings} {a b : TypeId} (h : ts.WellFormed)
    (hjoins : ts.OpenJoins) (hs : ts.pool.HasBindings s bs) (hbounds : ts.KeepsBounds s)
    (ha : ts.pool.Has a) (hb : ts.pool.Has b) (hab : ts.isSubtype a b = true) :
    (relatesImages s a b ts).1 = true := by
  have hruna := Pool.substitute_computes h.pool hs ha
  have hrunb := Pool.substitute_computes hruna.valid (hs.of_le hruna.grows.le)
    (hb.of_le hruna.grows.le)
  have hle := le_trans hruna.grows.le hrunb.grows.le
  have hext := extends_of_pool hle
  obtain ⟨us, g, hus, himages⟩ := exists_images h hs hbounds hext hrunb.valid
  have hresulta := hruna.post.of_le hrunb.grows.le
  have hga := (himages.result ha).1.unique (hresulta.1.of_le hus.le.1)
  have hgb := (himages.result hb).1.unique (hrunb.post.1.of_le hus.le.1)
  have hsub := himages.isSubtype h hjoins ((isSubtype_iff_subtypeOf h ha hb).mp hab) ha hb
  rw [hga, hgb] at hsub
  -- the images were there before the others, so they relate as they did then
  have hself : ∀ {x}, Pool.Has _ x → us.pool.Mirrors _ x x := fun hx =>
    Pool.mirrors_self hrunb.valid himages.valid hus.le.1 (le_refl _) hx
  exact isSubtype_of_mirrors h himages.grows hext himages.valid hrunb.valid (hself hresulta.2)
    (hself hrunb.post.2) hsub

/-! ### An example -/

/-- Whether the kind of a type leaves room for the substitution: a type variable keeps its bound,
and an upper bound is that of references. -/
def isSubstitutable (ts : TypeSystem) (s : SubstId) (ty : TypeId) : TypeKind → Bool
  | .var v => ts.isReference ((ts.pool.replacement? s v).getD ty) &&
      (isBelowImage s ((ts.pool.replacement? s v).getD ty) (ts.typeVar v).bound ts).1
  | .lub l => !(ts.pool.candidates l).isEmpty && (ts.pool.candidates l).all ts.isReference
  | .prim _ | .null | .array _ | .raw _ | .inst _ _ _ => true

theorem openJoins_and_keepsBounds {s : SubstId}
    (hkinds : ∀ i < ts.pool.size, ts.isSubstitutable s ⟨i⟩ (ts.kind ⟨i⟩) = true) :
    ts.OpenJoins ∧ ts.KeepsBounds s := by
  have hkind : ∀ {ty k}, ts.pool.HasKind ty k → ts.isSubstitutable s ty k = true := by
    intro ty k hk
    rw [← show ts.kind ty = k from hk.kind_eq]
    exact hkinds ty.index hk.has
  refine ⟨fun ty l hk => ?_, fun ty v hk => Bool.and_eq_true_iff.mp (hkind hk)⟩
  obtain ⟨hne, hrefs⟩ := Bool.and_eq_true_iff.mp (hkind hk)
  exact ⟨by simpa using hne, List.all_eq_true.mp hrefs⟩

/-- With `U` in place of `T`, the variable `U` stays a subtype of the upper bound: as a candidate
now, and no longer by its bound. -/
theorem isSubtype_substitute_chain : chainSession.types.WellFormed ∧
    chainSession.types.OpenJoins ∧ chainSession.types.KeepsBounds ⟨1⟩ ∧
    chainSession.types.pool.HasBindings ⟨1⟩ [(⟨0⟩, ⟨14⟩)] ∧
    chainSession.types.isSubtype ⟨14⟩ ⟨18⟩ = true ∧
    (relatesImages ⟨1⟩ ⟨14⟩ ⟨18⟩ chainSession.types).1 = true := by
  obtain ⟨hjoins, hbounds⟩ : chainSession.types.OpenJoins ∧ chainSession.types.KeepsBounds ⟨1⟩ :=
    openJoins_and_keepsBounds (by decide +kernel)
  have hbindings : chainSession.types.pool.HasBindings ⟨1⟩ [(⟨0⟩, ⟨14⟩)] := by decide +kernel
  have hsub : chainSession.types.isSubtype ⟨14⟩ ⟨18⟩ = true := by decide +kernel
  refine ⟨chainSession_wellFormed, hjoins, hbounds, hbindings, hsub, ?_⟩
  exact isSubtype_substitute chainSession_wellFormed hjoins hbindings hbounds (by decide +kernel)
    (by decide +kernel) hsub

end TypeSystem

end Erasure
