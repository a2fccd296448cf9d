/-
Upper bounds of upper bounds.

An upper bound is left open until it is made canonical, and may have another one among its
candidates. Its join is computed once: among several candidates an inner upper bound counts as a
type that is below the root class only, and where it is the one candidate that counts it is the
answer itself. The main statements:

* `Erases.of_joinsTo_raw`, `Erases.of_joinsTo_lub`: an upper bound is erased as the class that its
  candidates are joined to, and as the root class if its join is an upper bound again.
* `eq_object_of_nested`: the upper bound of a class type, or of the null type, and an upper bound is
  erased as the root class.
* `canonicalize_nested`: it has the canonical form of the upper bound of all the candidates together
  if and only if the root class is the one class above all of them.
-/
import Erasure.Proofs.Canonical.Upward
import Erasure.Proofs.Joins.Order
import Erasure.Proofs.Pool.Construction

namespace Erasure

namespace TypeSystem

variable {ts us : TypeSystem} {tys ys : List TypeId} {ty inner x : TypeId} {l : LubId} {c : ClassId}
  {shape : Shape}

/-! ### Erasing an upper bound -/

section Erasing

variable (hts : ts.Valid) (h : ts.Erases ∅ ty shape) (hk : ts.pool.HasKind ty (.lub l))
  (hrefs : ∀ t ∈ ts.pool.candidates l, ts.isReference t = true)
include hts h hk hrefs

/-- An upper bound comes down to the end of the bounds of its join. -/
theorem Erases.exists_join {form : JoinForm} (hform : ts.JoinsTo (ts.pool.candidates l) form) :
    ∃ j, HasForm ts.pool j form ∧ ts.ComesDownTo ty (ts.boundErasure j) := by
  obtain ⟨u, hdown, -⟩ := h.exists_comesDownTo
  obtain ⟨j, hj, rfl⟩ := id hdown
  have hkind : ts.kind ty = .lub l := hk.kind_eq
  rw [boundErasure_of_ne_var (by simp [hkind]), Resolves, hkind] at hj
  rw [(joinsTo_iff hts (has_candidates hts hk.has hkind) hrefs).mp hform]
  exact ⟨j, hj, hdown⟩

/-- An upper bound is erased as the class that its candidates are joined to. -/
theorem Erases.of_joinsTo_raw (hform : ts.JoinsTo (ts.pool.candidates l) (.raw c)) :
    shape = .raw c := by
  obtain ⟨j, hj, hdown⟩ := h.exists_join hts hk hrefs hform
  cases hj with
  | raw hkj =>
    rw [boundErasure_of_ne_var (by simp [kind, hkj.kind_eq])] at hdown
    exact h.unique (.raw rfl hdown hkj)

/-- An upper bound is erased as the root class if its join is an upper bound again. -/
theorem Erases.of_joinsTo_lub {m : LubId} (hinner : ts.pool.HasKind inner (.lub m))
    (hform : ts.JoinsTo (ts.pool.candidates l) (.known inner)) : shape = .raw .object := by
  obtain ⟨j, hj, hdown⟩ := h.exists_join hts hk hrefs hform
  cases hj with
  | known _ =>
    rw [boundErasure_of_ne_var (by simp [kind, hinner.kind_eq])] at hdown
    exact h.unique (.lub rfl hdown hinner)

end Erasing

/-! ### Upper bounds that are left open -/

/-- The upper bound of several types is left open. -/
theorem exists_hasKind_lub {t u : TypeId} (ht : t ∈ tys) (hu : u ∈ tys) (hne : t ≠ u)
    (hlub : ts.pool.IsLub (Candidates.ofList tys) ty) :
    ∃ l, ts.pool.HasKind ty (.lub l) ∧ ts.pool.candidates l = Candidates.ofList tys := by
  cases hlub with
  | only honly _ =>
    rw [← Candidates.mem_ofList, honly, List.mem_singleton] at ht hu
    exact absurd (ht.trans hu.symm) hne
  | lub _ hcs hk => exact ⟨_, hk, hcs.candidates_eq⟩

/-- The null type, or a class type that is below the root class. -/
def IsNullOrClass (ts : TypeSystem) (ty : TypeId) : Prop :=
  ty = .null ∨ ∃ c, ts.classOf? ty = some c ∧ .object ∈ ts.classClosure c

theorem IsNullOrClass.has (hts : ts.Valid) (hty : ts.IsNullOrClass ty) : ts.pool.Has ty := by
  rcases hty with rfl | ⟨c, hc, -⟩
  · exact hts.pool.null.has
  · exact has_of_classOf? hc

theorem IsNullOrClass.isReference (hts : ts.Valid) (hty : ts.IsNullOrClass ty) :
    ts.isReference ty = true := by
  rw [isReference_iff hts (hty.has hts)]
  rcases hty with rfl | ⟨c, hc, -⟩
  · simp [kind, hts.pool.null.kind_eq]
  · intro r hk
    simp [classOf?, hk, TypeKind.class?] at hc

theorem IsNullOrClass.of_extends (hts : ts.Valid) (hext : Extends ts us)
    (hty : ts.IsNullOrClass ty) : us.IsNullOrClass ty := by
  refine hty.imp_right ?_
  rintro ⟨c, hc, hobject⟩
  refine ⟨c, (classOf?_of_le hext.le (has_of_classOf? hc)).trans hc, ?_⟩
  rwa [hext.classClosure_eq hts]

/-- Class types that are not all one type are joined to a preferred class. -/
theorem exists_joinsTo_raw (hclasses : ∀ c, ¬ Relation.TransGen ts.Inherits c c)
    (htys : ∀ t ∈ tys, ts.IsNullOrClass t) (hdiffer : Differ tys) :
    ∃ c, ts.JoinsTo tys (.raw c) ∧ ts.IsPreferred (nonNull tys) c := by
  have hclass : ∀ t ∈ nonNull tys, ∃ c, ts.classOf? t = some c ∧ .object ∈ ts.classClosure c :=
    fun t ht => (htys t (mem_nonNull.mp ht).1).resolve_left (mem_nonNull.mp ht).2
  have hcommon : ts.IsCommon (nonNull tys) .object := fun t ht => by
    obtain ⟨c, hc, hobject⟩ := hclass t ht
    rwa [erasedClosure_of_classOf? hc]
  obtain ⟨c, hc⟩ := exists_commonClass? hclasses hdiffer.ne_nil hcommon
  obtain ⟨t, ht, -⟩ := id hdiffer
  obtain ⟨b, hb, -⟩ := hclass t ht
  exact ⟨c, .common hdiffer (arrayElements?_eq_none_of_class ht hb) hc,
    isPreferred_of_commonClass? hc⟩

/-- A nearest class is the root class exactly if no other class is above all the types. -/
theorem IsNearest.eq_object_iff (hts : ts.Valid)
    (hroot : ∀ c, ts.Mentions c → ts.ExtendsRoot c) {t : TypeId} (ht : t ∈ tys)
    (hhas : ts.pool.Has t) (hc : ts.IsNearest tys c) :
    c = .object ↔ ∀ d, ts.IsCommon tys d → d = .object := by
  constructor
  · rintro rfl d hd
    have hmentions := mentions_erasedClosure hts hhas (hd t ht)
    exact hc.eq_of_mem d hd (mem_classClosure_iff.mpr (hroot d hmentions))
  · exact fun honly => honly c hc.above

/-! ### An upper bound among the candidates -/

section Nested

/-- An upper bound counts as a type below the root class only. -/
theorem erasedClosure_of_lub (hinner : ts.pool.HasKind inner (.lub l)) :
    ts.erasedClosure inner = [.object] := by
  have hkind : ts.kind inner = .lub l := hinner.kind_eq
  exact erasedClosure_of_classOf?_eq_none (by simp [hkind]) (by rw [classOf?, hkind]; rfl)

variable (hts : ts.Valid) (hinner : ts.pool.HasKind inner (.lub l))
include hts hinner

theorem ne_null_of_lub : inner ≠ .null := by
  rintro rfl
  cases hinner.unique hts.pool.null

theorem isReference_of_lub : ts.isReference inner = true := by
  rw [isReference_iff hts hinner.has]
  simp [kind, hinner.kind_eq]

variable (hset : ∀ t, t ∈ [x, inner] ↔ t ∈ tys)
include hset

/-- With the null type an upper bound is joined to itself. -/
theorem joinsTo_of_null (hx : x = .null) : ts.JoinsTo tys (.known inner) := by
  have hne := ne_null_of_lub hts hinner
  refine .same ((mem_nonNull_iff hset inner).mp (by simp [hne])) fun t ht => ?_
  obtain ⟨hmem, hnull⟩ := mem_nonNull.mp ((mem_nonNull_iff hset t).mpr ht)
  simpa [hx, hnull] using hmem

/-- With a class type an upper bound is joined to the root class. -/
theorem joinsTo_of_class (hc : ts.classOf? x = some c) (hobject : .object ∈ ts.classClosure c) :
    ts.JoinsTo tys (.raw .object) := by
  have hx : x ∈ nonNull tys :=
    (mem_nonNull_iff hset x).mp (by simp [ne_null_of_classOf? hts hc])
  have hmem : inner ∈ nonNull tys :=
    (mem_nonNull_iff hset inner).mp (by simp [ne_null_of_lub hts hinner])
  have hne : x ≠ inner := by
    rintro rfl
    simp [classOf?, kind, hinner.kind_eq, TypeKind.class?] at hc
  have hclosure := erasedClosure_of_lub hinner
  have honly : ∀ d, ts.IsCommon (nonNull tys) d → d = .object := fun d hd => by
    simpa [hclosure] using hd inner hmem
  have hcommon : ts.IsCommon (nonNull tys) .object := fun t ht => by
    have := (hset t).mpr (mem_nonNull.mp ht).1
    rcases List.mem_pair.mp this with rfl | rfl
    · rwa [erasedClosure_of_classOf? hc]
    · simp [hclosure]
  obtain ⟨d, hd⟩ := (exists_commonClass?_iff (List.ne_nil_of_mem hx)).mpr
    ⟨.object, hcommon, fun d hd _ => honly d hd⟩
  obtain rfl := honly d (isPreferred_of_commonClass? hd).above
  exact .common ⟨x, hx, inner, hmem, hne⟩ (arrayElements?_eq_none_of_class hx hc) hd

end Nested

section Open

variable (hts : ts.Valid) (hinner : ts.pool.HasKind inner (.lub l))
include hts hinner

/-- The upper bound of a class type, or of the null type, and an upper bound is left open. -/
theorem exists_hasKind_nested (hx : ts.IsNullOrClass x)
    (hlub : ts.pool.IsLub (Candidates.ofList [x, inner]) ty) :
    ∃ m, ts.pool.HasKind ty (.lub m) ∧ (∀ t, t ∈ [x, inner] ↔ t ∈ ts.pool.candidates m) ∧
      ∀ t ∈ ts.pool.candidates m, ts.isReference t = true := by
  have hne : x ≠ inner := by
    rintro rfl
    rcases hx with hnull | ⟨c, hc, -⟩
    · exact ne_null_of_lub hts hinner hnull
    · simp [classOf?, kind, hinner.kind_eq, TypeKind.class?] at hc
  obtain ⟨m, hk, hcandidates⟩ := exists_hasKind_lub (by simp) (by simp) hne hlub
  have hset : ∀ t, t ∈ [x, inner] ↔ t ∈ ts.pool.candidates m := fun t => by
    rw [hcandidates, Candidates.mem_ofList]
  refine ⟨m, hk, hset, fun t ht => ?_⟩
  rcases List.mem_pair.mp ((hset t).mpr ht) with rfl | rfl
  · exact hx.isReference hts
  · exact isReference_of_lub hts hinner

/-- It is erased as the root class. -/
theorem eq_object_of_nested (hx : ts.IsNullOrClass x)
    (hlub : ts.pool.IsLub (Candidates.ofList [x, inner]) ty) (h : ts.Erases ∅ ty shape) :
    shape = .raw .object := by
  obtain ⟨m, hk, hset, hrefs⟩ := exists_hasKind_nested hts hinner hx hlub
  rcases hx with hnull | ⟨c, hc, hobject⟩
  · exact h.of_joinsTo_lub hts hk hrefs hinner (joinsTo_of_null hts hinner hset hnull)
  · exact h.of_joinsTo_raw hts hk hrefs (joinsTo_of_class hts hinner hset hc hobject)

/-- With the null type it is computed as the upper bound that is left open. -/
theorem resolveLub_of_null (hlub : ts.pool.IsLub (Candidates.ofList [.null, inner]) ty) :
    (resolveLub ty ts).1 = inner := by
  obtain ⟨m, hk, hset, hrefs⟩ := exists_hasKind_nested hts hinner (.inl rfl) hlub
  have hkind : ts.kind ty = .lub m := hk.kind_eq
  obtain ⟨form, hform, hr⟩ := (join_keeps hts (has_candidates hts hk.has hkind) hrefs).post
  obtain rfl := hform.unique (joinsTo_of_null hts hinner hset rfl)
  rw [resolveLub, get_bind_apply, hkind]
  cases hr
  rfl

end Open

/-! ### Asking for upper bounds -/

/-- The upper bound of a type and the upper bound of a list of types. -/
def openNested (x : TypeId) (ys : List TypeId) : StateM TypeSystem TypeId := do
  let inner ← liftM (Pool.lubOf ys)
  liftM (Pool.lubOf [x, inner])

theorem openNested_computes (hts : ts.Valid) (hhas : ∀ t ∈ x :: ys, ts.pool.Has t) :
    Computes (openNested x ys) ts fun ty us => ∃ inner, us.pool.IsLub (Candidates.ofList ys) inner ∧
      us.pool.IsLub (Candidates.ofList [x, inner]) ty := by
  obtain ⟨hx, hys⟩ := List.forall_mem_cons.mp hhas
  refine (lift_computes hts (Pool.lubOf_computes hts.pool hys)).bind ?_
  intro inner us hus hvalid hinner
  have hext : Extends ts us := hus
  have hpair : ∀ t ∈ [x, inner], us.pool.Has t :=
    List.forall_mem_cons.mpr ⟨hx.of_le hext.le.1, by simpa using hinner.has⟩
  refine (lift_computes hvalid (Pool.lubOf_computes hvalid.pool hpair)).mono ?_
  intro ty vs hvs _ hty
  exact ⟨inner, hinner.of_le (Store.Grows.le hvs).1, hty⟩

/-- Of types that are all one type the nested upper bound is that of all of them together. -/
theorem openNested_eq_lubOf (hne : ys ≠ []) (hsame : ∀ y ∈ ys, ∀ z ∈ ys, y = z) :
    openNested x ys = liftM (Pool.lubOf (x :: ys)) := by
  obtain ⟨y, hy⟩ := List.exists_mem_of_ne_nil ys hne
  have hset : ∀ t, t ∈ ys ↔ t ∈ [y] := fun t => by
    rw [List.mem_singleton]
    exact ⟨fun ht => hsame t ht y hy, fun heq => heq ▸ hy⟩
  have hall : ∀ t, t ∈ [x, y] ↔ t ∈ x :: ys := fun t => by simp [hset t]
  rw [openNested, Pool.lubOf_eq_of_mem_iff hset, ← Pool.lubOf_eq_of_mem_iff hall]
  rfl

/-- Computes the upper bound of a type and the upper bound of a list of types. -/
def resolveNested (x : TypeId) (ys : List TypeId) : StateM TypeSystem TypeId := do
  resolveLub (← openNested x ys)

/-- With the null type an upper bound of different types is left open even when it is computed. -/
theorem exists_hasKind_resolveNested (hts : ts.Valid) (hhas : ∀ t ∈ ys, ts.pool.Has t)
    {y z : TypeId} (hy : y ∈ ys) (hz : z ∈ ys) (hne : y ≠ z) :
    ∃ l, (resolveNested .null ys ts).2.pool.HasKind (resolveNested .null ys ts).1 (.lub l) := by
  have hopen := openNested_computes (x := .null) hts
    (List.forall_mem_cons.mpr ⟨hts.pool.null.has, hhas⟩)
  obtain ⟨inner, hinner, hlub⟩ := hopen.post
  obtain ⟨l, hk, -⟩ := exists_hasKind_lub hy hz hne hinner
  have hresolve := resolveLub_keeps hopen.valid hlub.has
  refine ⟨l, ?_⟩
  rw [resolveNested, bind_apply, resolveLub_of_null hopen.valid hk hlub]
  exact hk.of_le (Store.Grows.le hresolve.grows).1

end TypeSystem

namespace Canonicalizer

variable {s : Canonicalizer} {x : TypeId} {ys : List TypeId}

/-- Makes the type canonical that is asked for. -/
def canonicalizeOf (act : StateM TypeSystem TypeId) : CanonicalM TypeId := do
  canonicalize (← liftM act)

section Canonicalize

variable (hs : s.Valid) (hacyclic : s.types.Acyclic)
include hs hacyclic

theorem canonicalizeOf_computes {act : StateM TypeSystem TypeId} {P : TypeId → TypeSystem → Prop}
    (h : Computes act s.types P) (hhas : ∀ {ty us}, P ty us → us.pool.Has ty) :
    Computes (canonicalizeOf act) s fun r t => ∃ ty us, P ty us ∧ us ≤ t.types ∧
      t.memo.types.find? ty = some r := by
  refine (lift_computes hs h).bind fun ty t hst ht hty => ?_
  refine (canonicalize_computes ht (acyclic_of_grows hs hst hacyclic) (hhas hty)).mono ?_
  exact fun r u htu _ hr => ⟨ty, t.types, hty, htu.le.1, hr⟩

variable (hM : Coherent ∅ s)
include hM

/-- The nested upper bound of types that are not all one type has the root class as its canonical
form. -/
theorem canonicalizeOf_openNested (htys : ∀ t ∈ x :: ys, s.types.IsNullOrClass t) {y z : TypeId}
    (hy : y ∈ ys) (hz : z ∈ ys) (hne : y ≠ z) :
    (canonicalizeOf (TypeSystem.openNested x ys) s).1 = .object := by
  have h := canonicalizeOf_computes hs hacyclic
    (TypeSystem.openNested_computes hs.types fun t ht => (htys t ht).has hs.types)
    fun ⟨_, _, hlub⟩ => hlub.has
  obtain ⟨ty, us, ⟨inner, hinner, hlub⟩, hle, hfind⟩ := h.post
  obtain ⟨l, hk, -⟩ := TypeSystem.exists_hasKind_lub hy hz hne hinner
  obtain ⟨shape, herases, hshape⟩ := (Extends.coherent h.grows hM).erases hfind
  have hx := (htys x List.mem_cons_self).of_extends hs.types (Extends.types h.grows)
  obtain rfl := TypeSystem.eq_object_of_nested h.valid.types (hk.of_le hle.1) hx (hlub.of_le hle.1)
    herases
  exact hshape.inj (.raw h.valid.types.object)

/-- The upper bound of different types has a preferred class as its canonical form, also later. -/
theorem canonicalizeOf_lubOf (hclasses : ∀ c, ¬ Relation.TransGen s.types.Inherits c c)
    {tys : List TypeId} (htys : ∀ ty ∈ tys, s.types.IsNullOrClass ty)
    (hdiffer : TypeSystem.Differ tys) {t : Canonicalizer} (hst : Store.Grows s t) (ht : t.Valid) :
    ∃ c, s.types.IsPreferred (TypeSystem.nonNull tys) c ∧
      Keeps (canonicalizeOf (liftM (Pool.lubOf tys))) t
        fun r u => u.types.pool.HasKind r (.raw c) := by
  have hset : ∀ ty, ty ∈ tys ↔ ty ∈ Candidates.ofList tys := fun ty => Candidates.mem_ofList.symm
  have htys' : ∀ ty ∈ Candidates.ofList tys, s.types.IsNullOrClass ty := fun ty hty =>
    htys ty ((hset ty).mpr hty)
  obtain ⟨c, hform, hc⟩ := TypeSystem.exists_joinsTo_raw hclasses htys' (hdiffer.of_mem_iff hset)
  refine ⟨c, hc.of_mem_iff fun ty => (TypeSystem.mem_nonNull_iff hset ty).symm, ?_⟩
  have hhas : ∀ ty ∈ tys, t.types.pool.Has ty := fun ty hty =>
    ((htys ty hty).has hs.types).of_le hst.le.1.1
  have h := canonicalizeOf_computes ht (acyclic_of_grows hs hst hacyclic)
    (TypeSystem.lift_computes ht.types (Pool.lubOf_computes ht.types.pool hhas))
    fun hlub => hlub.has
  refine h.toKeeps.mono fun r u htu hu => ?_
  rintro ⟨ty, us, hlub, hle, hfind⟩
  have hext : TypeSystem.Extends s.types u.types := Extends.types (hst.trans htu)
  obtain ⟨y, hy, z, hz, hne⟩ := hdiffer
  obtain ⟨l, hk, hcandidates⟩ := TypeSystem.exists_hasKind_lub (TypeSystem.mem_nonNull.mp hy).1
    (TypeSystem.mem_nonNull.mp hz).1 hne (hlub.of_le hle.1)
  rw [← TypeSystem.joinsTo_iff_of_extends hs.types (fun ty hty => (htys' ty hty).has hs.types)
    (fun ty hty => (htys' ty hty).isReference hs.types) hu.types hext] at hform
  rw [← hcandidates] at htys' hform
  obtain ⟨shape, herases, hshape⟩ := (Extends.coherent (hst.trans htu) hM).erases hfind
  obtain rfl := herases.of_joinsTo_raw hu.types hk
    (fun ty hty => ((htys' ty hty).of_extends hs.types hext).isReference hu.types) hform
  cases hshape with
  | raw hr => exact hr

end Canonicalize

/-- In an acyclic type system in which every class extends the root class, take a class type or the
null type, and class types. If these are all one type, their upper bound with the first has the same
canonical form nested and flat. Otherwise the nested one has the root class as its canonical form
and, with the null type, is left open even when it is computed, whereas the flat one has a preferred
class of those above all the types. That is the root class only if no other class is above all of
them. -/
theorem canonicalize_nested {ts : TypeSystem} (hts : Reachable (fresh ts)) (hacyclic : ts.Acyclic)
    (hs : Later (fresh ts) s) (hclasses : ∀ c, ¬ Relation.TransGen s.types.Inherits c c)
    (hroot : ∀ c, s.types.Mentions c → s.types.ExtendsRoot c)
    (hx : x = .null ∨ (s.types.classOf? x).isSome) (hys : ∀ y ∈ ys, (s.types.classOf? y).isSome)
    (hne : ys ≠ []) :
    let nested := canonicalizeOf (TypeSystem.openNested x ys) s
    let flat := canonicalizeOf (liftM (Pool.lubOf (x :: ys))) nested.2
    let resolved := TypeSystem.resolveNested x ys s.types
    ((∀ y ∈ ys, ∀ z ∈ ys, y = z) → flat.1 = nested.1) ∧
      ((∃ y ∈ ys, ∃ z ∈ ys, y ≠ z) → nested.1 = .object ∧
        (x = .null → ∃ l, resolved.2.pool.HasKind resolved.1 (.lub l)) ∧
        ∃ c, flat.2.types.pool.HasKind flat.1 (.raw c) ∧
          s.types.IsPreferred (TypeSystem.nonNull (x :: ys)) c ∧
          (flat.1 = nested.1 ↔
            ∀ d, s.types.IsCommon (TypeSystem.nonNull (x :: ys)) d → d = .object)) := by
  obtain ⟨hgrows, hvalid⟩ := hs.grows hts.valid hacyclic
  have hM : Coherent ∅ s := Extends.coherent hgrows (coherent_fresh ts)
  have hacyclic' := acyclic_of_grows hts.valid hgrows hacyclic
  have hclass : ∀ t, (s.types.classOf? t).isSome → s.types.IsNullOrClass t := fun t ht => by
    obtain ⟨c, hc⟩ := Option.isSome_iff_exists.mp ht
    have hobject := hroot c ⟨t, TypeSystem.has_of_classOf? hc, hc⟩
    exact .inr ⟨c, hc, TypeSystem.mem_classClosure_iff.mpr hobject⟩
  have htys : ∀ t ∈ x :: ys, s.types.IsNullOrClass t :=
    List.forall_mem_cons.mpr ⟨hx.elim .inl (hclass x), fun y hy => hclass y (hys y hy)⟩
  have hhas : ∀ t ∈ x :: ys, s.types.pool.Has t := fun t ht => (htys t ht).has hvalid.types
  have hnested := canonicalizeOf_computes hvalid hacyclic'
    (TypeSystem.openNested_computes hvalid.types hhas) fun ⟨_, _, hlub⟩ => hlub.has
  refine ⟨fun hsame => ?_, ?_⟩
  · rw [← TypeSystem.openNested_eq_lubOf hne hsame, hnested.again _ (le_refl _)]
  · rintro ⟨y, hy, z, hz, hyz⟩
    have hcounts : ∀ t ∈ ys, t ∈ TypeSystem.nonNull (x :: ys) := fun t ht => by
      obtain ⟨c, hc⟩ := Option.isSome_iff_exists.mp (hys t ht)
      simp [ht, TypeSystem.ne_null_of_classOf? hvalid.types hc]
    obtain ⟨c, hpreferred, hflat⟩ := canonicalizeOf_lubOf hvalid hacyclic' hM hclasses htys
      ⟨y, hcounts y hy, z, hcounts z hz, hyz⟩ hnested.grows hnested.valid
    have hobject := canonicalizeOf_openNested hvalid hacyclic' hM htys hy hz hyz
    refine ⟨hobject, ?_, c, hflat.post, hpreferred, ?_⟩
    · rintro rfl
      exact TypeSystem.exists_hasKind_resolveNested hvalid.types
        (fun t ht => hhas t (List.mem_cons_of_mem _ ht)) hy hz hyz
    · have hroot' := hflat.valid.types.object
      rw [hobject, Pool.eq_iff_kind_eq hflat.post.has hroot'.has, hflat.post.kind_eq,
        hroot'.kind_eq, TypeKind.raw.injEq]
      exact hpreferred.eq_object_iff hvalid.types hroot (hcounts y hy)
        (hhas y (List.mem_cons_of_mem x hy))

/-- With the null type the upper bound of `Cube` and `Ball` has the root class as its canonical form
where it is nested, and `Body` where it is flat. -/
theorem canonicalize_nested_kin :
    let s := fresh kinSession.types
    let nested := canonicalizeOf (TypeSystem.openNested .null [⟨16⟩, ⟨17⟩]) s
    let flat := canonicalizeOf (liftM (Pool.lubOf [.null, ⟨16⟩, ⟨17⟩])) nested.2
    let resolved := TypeSystem.resolveNested .null [⟨16⟩, ⟨17⟩] s.types
    nested.1 = .object ∧ flat.1 ≠ nested.1 ∧ ∃ l, resolved.2.pool.HasKind resolved.1 (.lub l) := by
  have hacyclic : kinSession.types.Acyclic := TypeSystem.acyclic_of_isEnd (by decide +kernel)
  have hys : ∀ y ∈ ([⟨16⟩, ⟨17⟩] : List TypeId), (kinSession.types.classOf? y).isSome := by
    decide +kernel
  obtain ⟨-, hdiffer⟩ := canonicalize_nested kinSession_reachable.forget hacyclic (.refl _)
    (TypeSystem.not_inherits_self (by decide +kernel)) kinSession_rooted.root (.inl rfl) hys
    (by decide)
  obtain ⟨hobject, hopen, c, -, -, heq⟩ :=
    hdiffer ⟨⟨16⟩, by decide, ⟨17⟩, by decide, by decide⟩
  refine ⟨hobject, fun h => ?_, hopen rfl⟩
  -- `Body` is above both classes as well
  have hbody : kinSession.types.IsCommon (TypeSystem.nonNull [.null, ⟨16⟩, ⟨17⟩]) ⟨3⟩ := by
    unfold TypeSystem.IsCommon
    decide +kernel
  exact absurd (heq.mp h ⟨3⟩ hbody) (by decide)

end Canonicalizer

end Erasure
