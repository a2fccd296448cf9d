/-
Canonical members have symbols.

A type can be stored if it is neither `void` nor the null type nor an upper bound, and no array of
such. When declared formals and bounds can be stored, so can their canonical forms, which then have
argument codes. The main statements:

* `Erases.isStorable`: erasing a type that can be stored gives a shape that can be stored.
* `IsStorable.substitutes`: so does putting types that can be stored in the place of variables.
* `canonical_isLinkable`: the canonical form of a declared member is seen in a raw class, and its
  formals can be stored.
* `exists_procedureSymbol`, `exists_staticFieldSymbol`: such a member has a symbol.
-/
import Erasure.Symbol.Mangling
import Erasure.Proofs.Canonical.Concord

namespace Erasure

/-! ### Types that can be stored -/

/-- A shape without `void` and without the null type. -/
def Shape.IsStorable : Shape → Prop
  | prim r => r ≠ .void
  | null => False
  | raw _ => True
  | array elem => elem.IsStorable

namespace Pool

variable {p q : Pool}

/-- A type that is neither `void` nor the null type nor an upper bound, and no array of such. -/
inductive IsStorable (p : Pool) : TypeId → Prop
  | prim {ty : TypeId} {r : Primitive} : p.HasKind ty (.prim r) → r ≠ .void → IsStorable p ty
  | raw {ty : TypeId} {c : ClassId} : p.HasKind ty (.raw c) → IsStorable p ty
  | inst {ty : TypeId} {base : ClassId} {s : SubstId} {outer : Option TypeId} :
      p.HasKind ty (.inst base s outer) → IsStorable p ty
  | var {ty : TypeId} {v : TypeVarId} : p.HasKind ty (.var v) → IsStorable p ty
  | array {ty elem : TypeId} : p.HasKind ty (.array elem) → IsStorable p elem → IsStorable p ty

theorem IsStorable.of_le (hle : p ≤ q) {ty : TypeId} (h : p.IsStorable ty) : q.IsStorable ty := by
  induction h with
  | prim hk hvoid => exact .prim (hk.of_le hle) hvoid
  | raw hk => exact .raw (hk.of_le hle)
  | inst hk => exact .inst (hk.of_le hle)
  | var hk => exact .var (hk.of_le hle)
  | array hk _ ih => exact .array (hk.of_le hle) ih

/-- Where no part of a type is `void`, the null type or an upper bound, the type can be stored. -/
theorem isStorable_of_parts (hp : p.Valid) {ty : TypeId} (hty : p.Has ty)
    (h : ∀ u, Relation.ReflTransGen (fun t u => u ∈ p.parts (p.kind t)) ty u →
      p.kind u ≠ .prim .void ∧ p.kind u ≠ .null ∧ ∀ l, p.kind u ≠ .lub l) :
    p.IsStorable ty := by
  induction hn : ty.index using Nat.strongRecOn generalizing ty with
  | ind n ih =>
    obtain ⟨hvoid, hnull, hlub⟩ := h ty .refl
    have hkind := hty.hasKind
    cases hk : p.kind ty with
    | prim r =>
      rw [hk] at hkind hvoid
      exact .prim hkind fun hr => hvoid (hr ▸ rfl)
    | null => exact absurd hk hnull
    | lub l => exact absurd hk (hlub l)
    | raw c => exact .raw (hk ▸ hkind)
    | inst base s outer => exact .inst (hk ▸ hkind)
    | var v => exact .var (hk ▸ hkind)
    | array elem =>
      rw [hk] at hkind
      have helem : elem ∈ p.parts (.array elem) := List.mem_cons_self
      have hstep : elem ∈ p.parts (p.kind ty) := hk ▸ helem
      exact .array hkind (ih _ (hn ▸ hp.parts_lt hkind elem helem) (hp.has_part hkind helem)
        (fun u hu => h u (.head hstep hu)) rfl)

/-- Whether a type at most `depth` arrays deep can be stored. -/
def isStorableWithin (p : Pool) : (depth : Nat) → TypeId → Bool
  | 0, _ => false
  | depth + 1, ty =>
    match p.kind ty with
    | .prim r => r ≠ .void
    | .raw _ | .inst _ _ _ | .var _ => true
    | .array elem => p.isStorableWithin depth elem
    | .null | .lub _ => false

theorem isStorable_of_within (hp : p.Valid) {depth : Nat} {ty : TypeId} (hty : p.Has ty)
    (h : p.isStorableWithin depth ty = true) : p.IsStorable ty := by
  induction depth generalizing ty with
  | zero => cases h
  | succ depth ih =>
    have hkind := hty.hasKind
    unfold isStorableWithin at h
    cases hk : p.kind ty with
    | prim r =>
      rw [hk] at hkind h
      exact .prim hkind (of_decide_eq_true h)
    | raw c => exact .raw (hk ▸ hkind)
    | inst base s outer => exact .inst (hk ▸ hkind)
    | var v => exact .var (hk ▸ hkind)
    | array elem =>
      rw [hk] at hkind h
      exact .array hkind (ih (hp.has_part hkind List.mem_cons_self) h)
    | null | lub _ =>
      rw [hk] at h
      cases h

theorem HasShape.isStorable_iff {ty : TypeId} {shape : Shape} (h : p.HasShape ty shape) :
    p.IsStorable ty ↔ shape.IsStorable := by
  induction h with
  | prim hk =>
    refine ⟨fun h => ?_, .prim hk⟩
    cases h with
    | prim hk' hvoid => cases hk.unique hk'; exact hvoid
    | raw hk' | inst hk' | var hk' | array hk' _ => cases hk.unique hk'
  | null hk =>
    refine ⟨fun h => ?_, False.elim⟩
    cases h with
    | prim hk' _ | raw hk' | inst hk' | var hk' | array hk' _ => cases hk.unique hk'
  | raw hk => exact iff_of_true (.raw hk) trivial
  | array hk _ ih =>
    refine ⟨fun h => ?_, fun h => .array hk (ih.mpr h)⟩
    cases h with
    | array hk' helem => cases hk.unique hk'; exact ih.mp helem
    | prim hk' _ | raw hk' | inst hk' | var hk' => cases hk.unique hk'

/-- Types that can be stored are put in the place of variables. -/
theorem IsStorable.substitutes {f : TypeVarId → Option TypeId} {ty r : TypeId}
    (h : p.IsStorable ty) (hf : ∀ v u, f v = some u → p.IsStorable u)
    (hr : p.Substitutes f ty r) : p.IsStorable r := by
  induction hr with
  | prim _ | null _ | raw _ => exact h
  | @var ty v hk =>
    cases hv : f v with
    | none => exact h
    | some u => exact hf v u hv
  | array hk _ hk' ih =>
    cases h with
    | array hk'' helem => cases hk.unique hk''; exact .array hk' (ih helem)
    | prim hk'' _ | raw hk'' | inst hk'' | var hk'' => cases hk.unique hk''
  | inst g _ _ _ _ _ hk' _ _ => exact .inst hk'
  | lub g hk _ _ _ _ =>
    cases h with
    | prim hk' _ | raw hk' | inst hk' | var hk' | array hk' _ => cases hk.unique hk'

end Pool

namespace TypeSystem

variable {ts us : TypeSystem}

/-- The formals of declared members and the bounds of type variables can be stored. -/
structure DeclaresStorable (ts : TypeSystem) : Prop where
  bounds : ∀ v, ts.pool.IsStorable (ts.typeVar v).bound
  formals : ∀ c, ∀ m ∈ (ts.classDef c).members, ∀ ty ∈ (ts.member m).kind.formals,
    ts.pool.IsStorable ty

theorem DeclaresStorable.of_extends (hts : ts.Valid) (hext : Extends ts us)
    (h : ts.DeclaresStorable) : us.DeclaresStorable where
  bounds v := by
    rw [hext.typeVar_eq]
    exact (h.bounds v).of_le hext.le.1
  formals c m hm ty hty := by
    rw [hext.classDef_eq] at hm
    rw [member_of_le hext.le (hts.hasMember_of_declared hm)] at hty
    exact (h.formals c m hm ty hty).of_le hext.le.1

/-- Formals and bounds can be stored if those of every class and every variable can. -/
theorem DeclaresStorable.of_entries (hts : ts.Valid) {d : Nat}
    (hbounds : ∀ i ≤ ts.typeVars.size,
      ts.pool.isStorableWithin d (ts.typeVar ⟨i⟩).bound = true)
    (hformals : ∀ i < ts.classes.size, ∀ m ∈ (ts.classDef ⟨i⟩).members,
      ∀ ty ∈ (ts.member m).kind.formals, ts.pool.isStorableWithin d ty = true) :
    ts.DeclaresStorable where
  bounds v := by
    by_cases hv : v.index < ts.typeVars.size
    · exact Pool.isStorable_of_within hts.pool (hts.bound v) (hbounds v.index (Nat.le_of_lt hv))
    · have hlast : ts.typeVar ⟨ts.typeVars.size⟩ = ts.typeVar v :=
        (typeVar_of_not_lt (Nat.lt_irrefl _)).trans (typeVar_of_not_lt hv).symm
      exact Pool.isStorable_of_within hts.pool (hts.bound v)
        (hlast ▸ hbounds ts.typeVars.size (le_refl _))
  formals c m hm ty hty := by
    by_cases hc : c.index < ts.classes.size
    · have htypes := (hts.keys (hts.hasMember_of_declared hm).hasKey).types
      exact Pool.isStorable_of_within hts.pool
        (htypes ty (MemberKind.mem_types_of_mem_formals hty)) (hformals c.index hc m hm ty hty)
    · rw [classDef_of_not_lt hc] at hm
      exact absurd hm List.not_mem_nil

/-! ### Erasing -/

section Erasing

variable (hts : ts.Valid) (hbounds : ∀ v, ts.pool.IsStorable (ts.typeVar v).bound)
include hts hbounds

theorem isStorable_boundErasure {ty : TypeId} (h : ts.pool.IsStorable ty) :
    ts.pool.IsStorable (ts.boundErasure ty) := by
  have hfollow : ∀ steps ty u, ts.pool.IsStorable ty → ts.followBounds steps ty = some u →
      ts.pool.IsStorable u := by
    intro steps
    induction steps with
    | zero => exact fun ty u _ h => nomatch h
    | succ steps ih =>
      intro ty u hty h
      unfold followBounds at h
      split at h
      · exact ih _ u (hbounds _) h
      · exact Option.some.inj h ▸ hty
  unfold boundErasure
  cases hu : ts.followBounds (ts.typeVars.size + 1) ty with
  | none => exact .raw hts.object
  | some u => exact hfollow _ ty u h hu

theorem ComesDownTo.isStorable {ty u : TypeId} (hdown : ts.ComesDownTo ty u)
    (h : ts.pool.IsStorable ty) : ts.pool.IsStorable u := by
  obtain ⟨r, hr, rfl⟩ := hdown
  have hbound := isStorable_boundErasure hts hbounds h
  unfold Resolves at hr
  split at hr
  case h_1 l hk =>
    cases hbound with
    | prim hk' _ | raw hk' | inst hk' | var hk' | array hk' _ =>
      cases hk'.kind_eq.symm.trans hk
  case h_2 => exact isStorable_boundErasure hts hbounds (hr ▸ hbound)

/-- Erasing a type that can be stored gives a shape that can be stored. -/
theorem Erases.isStorable {ty : TypeId} {shape : Shape} (herases : ts.Erases ∅ ty shape)
    (h : ts.pool.IsStorable ty) : shape.IsStorable := by
  induction herases with
  | remembered hM _ => cases hM
  | prim _ hdown hk => exact (Pool.HasShape.prim hk).isStorable_iff.mp (hdown.isStorable hts hbounds h)
  | null _ hdown hk => exact (Pool.HasShape.null hk).isStorable_iff.mp (hdown.isStorable hts hbounds h)
  | raw _ _ _ | inst _ _ _ | lub _ _ _ => trivial
  | array _ hdown hk _ ih =>
    cases hdown.isStorable hts hbounds h with
    | array hk' helem => cases hk.unique hk'; exact ih helem
    | prim hk' _ | raw hk' | inst hk' | var hk' => cases hk.unique hk'

end Erasing

/-- A signature of types that can be stored has images of such types. -/
theorem SubstitutesKind.isStorable {p : Pool} {bs : Bindings} {k l : MemberKind}
    (h : SubstitutesKind p bs k l) (hbs : ∀ v u, bs.lookup? v = some u → p.IsStorable u)
    (hk : ∀ ty ∈ k.formals, p.IsStorable ty) : ∀ ty ∈ l.formals, p.IsStorable ty := by
  intro ty hty
  obtain ⟨formal, hformal, hresult⟩ := exists_of_forall₂_right h.formals hty
  exact (hk formal hformal).substitutes hbs hresult.1

/-! ### Members that have symbols -/

/-- The second member is of the form of the first one and has its flags. -/
def SameForm (ts : TypeSystem) (m n : MemberId) : Prop :=
  (ts.member n).kind.form = (ts.member m).kind.form ∧ (ts.member n).flags = (ts.member m).flags

theorem SameForm.refl (m : MemberId) : ts.SameForm m m := ⟨rfl, rfl⟩

theorem SameForm.symm {m n : MemberId} (h : ts.SameForm m n) : ts.SameForm n m := ⟨h.1.symm, h.2.symm⟩

theorem SameForm.trans {m n o : MemberId} (h : ts.SameForm m n) (h' : ts.SameForm n o) : ts.SameForm m o :=
  ⟨h'.1.trans h.1, h'.2.trans h.2⟩

theorem SameForm.of_hasKey {m n : MemberId} {kind : MemberKind} {container : TypeId}
    (hn : ts.HasKey n { (ts.member m).toMemberKey with kind, container })
    (hform : kind.form = (ts.member m).kind.form) : ts.SameForm m n :=
  ⟨hn.kind_eq.symm ▸ hform, hn.flags_eq⟩

/-- A member of a raw class, made from no generic method, whose formals can be stored. -/
structure IsLinkable (ts : TypeSystem) (m : MemberId) : Prop where
  hasMember : ts.HasMember m
  raw : ∃ c, ts.pool.HasKind (ts.member m).container (.raw c)
  generic : (ts.member m).generic = none
  formals : ∀ ty ∈ (ts.member m).kind.formals, ts.pool.IsStorable ty

theorem DeclaresStorable.isLinkable (hts : ts.Valid) (h : ts.DeclaresStorable) {c : ClassId}
    {m : MemberId} (hm : m ∈ (ts.classDef c).members) : ts.IsLinkable m := by
  obtain ⟨k, hkey, hraw, hgeneric⟩ := (hts.classes c).members m hm
  refine ⟨hkey.hasMember, ⟨c, ?_⟩, ?_, h.formals c m hm⟩
  · rwa [hkey.container_eq]
  · rw [hkey.generic_eq, hgeneric]

/-- An instance with another signature, seen in a raw class again. -/
theorem IsLinkable.of_hasKey {m n : MemberId} {kind : MemberKind} {container : TypeId}
    (h : ts.IsLinkable m) (hn : ts.HasKey n { (ts.member m).toMemberKey with kind, container })
    (hraw : ∃ c, ts.pool.HasKind container (.raw c))
    (hformals : ∀ ty ∈ kind.formals, ts.pool.IsStorable ty) : ts.IsLinkable n where
  hasMember := hn.hasMember
  raw := by rwa [hn.container_eq]
  generic := hn.generic_eq.trans h.generic
  formals := by rwa [hn.kind_eq]

theorem IsLinkable.of_le (hle : ts ≤ us) {m : MemberId} (h : ts.IsLinkable m) :
    us.IsLinkable m := by
  have hmember := member_of_le hle h.hasMember
  constructor
  case hasMember => exact h.hasMember.of_le hle
  case raw =>
    obtain ⟨c, hc⟩ := h.raw
    exact ⟨c, hmember ▸ hc.of_le hle.1⟩
  case generic => rw [hmember, h.generic]
  case formals => exact fun ty hty => (h.formals ty (hmember ▸ hty)).of_le hle.1

/-- An erased type that can be stored has an argument code. -/
theorem exists_argCode (hts : ts.Valid) {ty : TypeId} (hnormal : ts.pool.IsNormal ty)
    (h : ts.pool.IsStorable ty) : ∃ code, ts.argCode ty = .ok code := by
  have hwithin : ∀ ty shape, ts.pool.HasShape ty shape → shape.IsStorable → ∀ depth,
      ty.index < depth → ∃ code, ts.argCodeWithin depth ty = .ok code := by
    intro ty shape hshape
    induction hshape with
    | @prim ty r hk =>
      intro hvoid depth hdepth
      obtain ⟨depth, rfl⟩ := Nat.exists_eq_add_of_lt hdepth
      rw [argCodeWithin, show ts.kind ty = _ from hk.kind_eq]
      cases r with
      | void => exact absurd rfl hvoid
      | boolean | byte | short | char | int | long | float | double => exact ⟨_, rfl⟩
    | null _ => exact fun h => h.elim
    | @raw ty c hk =>
      intro _ depth hdepth
      obtain ⟨depth, rfl⟩ := Nat.exists_eq_add_of_lt hdepth
      rw [argCodeWithin, show ts.kind ty = _ from hk.kind_eq]
      exact ⟨_, rfl⟩
    | @array ty elem shape hk _ ih =>
      intro helem depth hdepth
      obtain ⟨depth, rfl⟩ := Nat.exists_eq_add_of_lt hdepth
      have hlt := hts.pool.parts_lt hk elem List.mem_cons_self
      obtain ⟨code, hcode⟩ := ih helem (ty.index + depth) (by omega)
      rw [argCodeWithin, show ts.kind ty = _ from hk.kind_eq]
      dsimp only
      rw [hcode]
      exact ⟨_, rfl⟩
  obtain ⟨shape, hshape⟩ := hnormal
  exact hwithin ty shape hshape (hshape.isStorable_iff.mp h) _ (Nat.lt_succ_self _)

theorem exists_mapM_argCode (hts : ts.Valid) {tys : List TypeId}
    (h : ∀ ty ∈ tys, ts.pool.IsNormal ty ∧ ts.pool.IsStorable ty) :
    ∃ codes, tys.mapM ts.argCode = .ok codes := by
  induction tys with
  | nil => exact ⟨[], rfl⟩
  | cons ty tys ih =>
    obtain ⟨⟨hnormal, hstorable⟩, htys⟩ := List.forall_mem_cons.mp h
    obtain ⟨code, hcode⟩ := exists_argCode hts hnormal hstorable
    obtain ⟨codes, hcodes⟩ := ih htys
    rw [List.mapM_cons, hcode]
    dsimp only [bind, Except.bind]
    rw [hcodes]
    exact ⟨_, rfl⟩

theorem linkName_raw {ty : TypeId} {c : ClassId} (h : ts.pool.HasKind ty (.raw c)) :
    ts.linkName ty = .ok (ts.className c) := by
  rw [linkName, show ts.kind ty = _ from h.kind_eq]

/-- The symbol of the table that a class keeps for an interface carries both names. -/
theorem interfaceTableSymbol_raw {iface ty : TypeId} {c d : ClassId}
    (hiface : ts.pool.HasKind iface (.raw c)) (hinterface : ts.isInterface c = true)
    (hty : ts.pool.HasKind ty (.raw d)) : ts.interfaceTableSymbol iface ty =
      .ok (.interfaceTable (ts.className c) (ts.className d)) := by
  unfold interfaceTableSymbol interfaceLinkName
  rw [show ts.kind iface = _ from hiface.kind_eq]
  dsimp only
  rw [if_pos hinterface, linkName_raw hty]
  rfl

/-- A procedure in canonical form has a symbol. -/
theorem IsLinkable.exists_procedureSymbol (hts : ts.Valid) {m : MemberId} (h : ts.IsLinkable m)
    (hsettled : ∀ ty ∈ (ts.member m).kind.types, ts.pool.IsNormal ty)
    (hform : (ts.member m).kind.form = .procedure) : ∃ y, ts.procedureSymbol m = .ok y := by
  obtain ⟨c, hc⟩ := h.raw
  have hformals : ∀ ty ∈ (ts.member m).kind.formals,
      ts.pool.IsNormal ty ∧ ts.pool.IsStorable ty := by
    intro ty hty
    exact ⟨hsettled ty (MemberKind.mem_types_of_mem_formals hty), h.formals ty hty⟩
  obtain ⟨codes, hcodes⟩ := exists_mapM_argCode hts hformals
  unfold procedureSymbol
  rw [linkName_raw hc]
  dsimp only [bind, Except.bind]
  cases hk : (ts.member m).kind with
  | method name formals result params =>
    rw [hk] at hcodes
    dsimp only [MemberKind.formals] at hcodes ⊢
    rw [hcodes]
    exact ⟨_, rfl⟩
  | constructor formals params =>
    rw [hk] at hcodes
    dsimp only [MemberKind.formals] at hcodes ⊢
    rw [hcodes]
    exact ⟨_, rfl⟩
  | field _ _ | initializer =>
    rw [hk] at hform
    cases hform

/-- A static field of a raw class has a symbol. -/
theorem IsLinkable.exists_staticFieldSymbol {m : MemberId} (h : ts.IsLinkable m)
    (hform : (ts.member m).kind.form = .field) (hstatic : (ts.member m).flags.isStatic = true) :
    ∃ y, ts.staticFieldSymbol m = .ok y := by
  obtain ⟨c, hc⟩ := h.raw
  unfold staticFieldSymbol
  rw [hstatic]
  cases hk : (ts.member m).kind with
  | field name type =>
    dsimp only
    rw [layoutTypeName, show ts.kind _ = _ from hc.kind_eq]
    exact ⟨_, rfl⟩
  | method _ _ _ _ | constructor _ _ | initializer =>
    rw [hk] at hform
    cases hform

end TypeSystem

/-! ### Canonical members -/

namespace Canonicalizer

variable {s : Canonicalizer}

open TypeSystem (SameForm IsLinkable)

/-- Erasing the own type parameters changes neither the form nor the flags. -/
theorem OwnErased.sameForm {m e : MemberId} (hm : s.types.HasMember m)
    (hgeneric : (s.types.member m).generic = none) (h : s.OwnErased m e) : s.types.SameForm m e := by
  rcases h.of_hasKey hm.hasKey hgeneric with ⟨-, rfl⟩ | ⟨-, sub, bs, kind, -, -, hkind, hkey⟩
  · exact .refl e
  · exact .of_hasKey hkey hkind.form_eq

/-- The declared member that explains an instance is of its form and has its flags. -/
theorem Explains.sameForm (hs : s.Valid) (hacyclic : s.types.Acyclic) {m decl : MemberId}
    {c base : ClassId} {sub : SubstId} {outer : Option TypeId} (hm : s.types.HasMember m)
    (hgeneric : (s.types.member m).generic = none)
    (hdecl : decl ∈ (s.types.classDef c).members)
    (hcontainer : s.types.pool.HasKind (s.types.member m).container (.inst base sub outer))
    (h : s.Explains (s.types.member m).container m decl) : s.types.SameForm decl m := by
  obtain ⟨subst, e, hsubst, himage, he⟩ := h
  obtain ⟨k, hkey, -, hnone⟩ := (hs.types.classes c).members decl hdecl
  obtain rfl := hkey.member_eq
  obtain ⟨image, kind, himage, hkind, hown⟩ := ImageErased.of_answers hs hs hacyclic (.refl s) hkey
    hcontainer (himage.answers hcontainer hsubst)
  have hdecl_image : s.types.SameForm decl image := .of_hasKey himage hkind.form_eq
  have himage_e : s.types.SameForm image e :=
    hown.sameForm himage.hasMember (himage.generic_eq.trans hnone)
  have hm_e : s.types.SameForm m e := (OwnErased.of_answers hs hacyclic hm he).sameForm hm hgeneric
  exact (hdecl_image.trans himage_e).trans hm_e.symm

section Storable

variable (hs : s.Consistent) (hbounds : ∀ v, s.types.pool.IsStorable (s.types.typeVar v).bound)
include hs hbounds

/-- The canonical form of a type that can be stored can be stored. -/
theorem isStorable_find? {ty r : TypeId} (h : s.types.pool.IsStorable ty)
    (hfind : s.memo.types.find? ty = some r) : s.types.pool.IsStorable r := by
  obtain ⟨shape, herases, hshape⟩ := hs.coherent.erases hfind
  exact hshape.isStorable_iff.mpr (herases.isStorable hs.valid.types hbounds h)

/-- What takes the place of type parameters that are erased can be stored. -/
theorem BindsCanonical.isStorable {vs : List TypeVarId} {sub : SubstId} {bs : Bindings}
    (h : s.BindsCanonical vs sub) (hbs : s.types.pool.HasBindings sub bs) :
    ∀ v u, bs.lookup? v = some u → s.types.pool.IsStorable u := by
  obtain ⟨l, hl, hvs⟩ := h
  obtain rfl := hbs.unique hl
  intro v u hu
  have hmem := Bindings.mem_of_mem_ofList (Bindings.mem_of_lookup? hu)
  obtain ⟨w, -, -, ty, hk, hfind⟩ := exists_of_forall₂_right hvs hmem
  exact isStorable_find? hs hbounds (.var hk) hfind

theorem OwnErased.isLinkable {m e : MemberId} (hm : s.types.IsLinkable m)
    (h : s.OwnErased m e) : s.types.IsLinkable e := by
  rcases h.of_hasKey hm.hasMember.hasKey hm.generic with
    ⟨-, rfl⟩ | ⟨-, sub, bs, kind, hfind, hbs, hkind, hkey⟩
  · exact hm
  · have hbinds := ((hs.valid.memberSubsts hfind).binds sub rfl).isStorable hs hbounds hbs
    exact hm.of_hasKey hkey hm.raw (hkind.isStorable hbinds hm.formals)

theorem ClassErased.isLinkable {c : ClassId} {container : TypeId} {m e : MemberId}
    (hm : s.types.IsLinkable m) (hcontainer : ∃ c, s.types.pool.HasKind container (.raw c))
    (h : s.ClassErased c container m e) : s.types.IsLinkable e ∧ s.types.SameForm m e := by
  rcases h with ⟨-, rfl⟩ | ⟨sub, bs, kind, hfind, hbs, hkind, hkey⟩
  · exact ⟨hm, .refl e⟩
  · have hbinds := ((hs.classSubsts hfind).binds sub rfl).isStorable hs hbounds hbs
    exact ⟨hm.of_hasKey hkey hcontainer (hkind.isStorable hbinds hm.formals),
      .of_hasKey hkey hkind.form_eq⟩

theorem SignatureErased.isLinkable {m e : MemberId} (hm : s.types.IsLinkable m)
    (h : s.SignatureErased m e) : s.types.IsLinkable e ∧ s.types.SameForm m e := by
  obtain ⟨kind, container, hkind, hcontainer, hkey⟩ := h
  obtain ⟨c, hc⟩ := hm.raw
  obtain rfl : container = (s.types.member m).container :=
    (hs.valid.canonical hcontainer).self ⟨_, .raw hc⟩
  constructor
  · refine hm.of_hasKey hkey hm.raw fun ty hty => ?_
    rw [MemberKind.withoutTypeParams, MemberKind.formals_filterTypeParams] at hty
    obtain ⟨formal, hformal, hfind⟩ := exists_of_forall₂_right hkind.formals hty
    exact isStorable_find? hs hbounds (hm.formals formal hformal) hfind
  · refine .of_hasKey hkey ?_
    rw [MemberKind.withoutTypeParams, MemberKind.form_filterTypeParams, hkind.form_eq]

/-- The canonical form of a declared member is of the form of the member and has its flags, it is seen
in a raw class, and its formals can be stored. -/
theorem canonical_isLinkable {m c : MemberId} (hm : s.types.IsLinkable m)
    (hfind : s.memo.members.find? m = some c) : s.types.IsLinkable c ∧ s.types.SameForm m c := by
  have hentry := hs.valid.members hfind
  obtain ⟨base, hbase⟩ := hm.raw
  rcases hentry.erased hbase with hsettled | ⟨own, erased, hown, hclass, hsignature⟩
  · rw [hentry.self hsettled]
    exact ⟨hm, .refl m⟩
  · have hlinkable := hown.isLinkable hs hbounds hm
    obtain ⟨herased, hsame⟩ := hclass.isLinkable hs hbounds hlinkable hm.raw
    obtain ⟨hcanonical, hsame'⟩ := hsignature.isLinkable hs hbounds herased
    exact ⟨hcanonical, ((hown.sameForm hm.hasMember hm.generic).trans hsame).trans hsame'⟩

end Storable

/-- The canonical form of a view is of the form of the view and has its flags, it is seen in a raw
class, and its formals can be stored. -/
theorem canonical_view_isLinkable (hs : s.Consistent) (h : s.types.DeclaresStorable)
    {m c : MemberId} (hm : s.types.IsView m) (hfind : s.memo.members.find? m = some c) :
    s.types.IsLinkable c ∧ s.types.SameForm m c := by
  have hts := hs.valid.types
  cases hm with
  | declared hm => exact canonical_isLinkable hs h.bounds (h.isLinkable hts hm) hfind
  | @image base decl m container sub outer kind hdecl hcontainer hkind hkey =>
    obtain rfl : (s.types.member m).container = container := hkey.container_eq
    obtain ⟨decl', hdecl', hfind', hexplains⟩ := (hs.valid.members hfind).explained hcontainer
    have hnone := (h.isLinkable hts hdecl).generic
    have hsame := hexplains.sameForm hs.valid hs.acyclic hkey.hasMember
      (hkey.generic_eq.trans hnone) hdecl' hcontainer
    obtain ⟨hlinkable, hsame'⟩ :=
      canonical_isLinkable hs h.bounds (h.isLinkable hts hdecl') hfind'
    exact ⟨hlinkable, hsame.symm.trans hsame'⟩

end Canonicalizer

end Erasure
