/-
Outlines: the canonical forms that the bounds alone decide.

A type that leads to no upper bound still to be computed has an outline: bounds in place of type
variables, raw classes in place of instantiations. No lookup and no memo has a say in it. The main
statements:

* `exists_outline`: such a type has an outline.
* `Erases.eq_of_hasOutline`: after results that follow the outlines, erasure follows them.
* `HasOutline.of_ge`: a declaration changes no outline unless it sets a bound that the type leads to.
* `HasOutline.substitutes`: replacing variables by types of their outlines keeps the outline.
-/
import Erasure.Proofs.Canonical.Depth

namespace Erasure.TypeSystem

variable {ts us : TypeSystem} {V : TypeVarId → Prop} {ty : TypeId} {shape : Shape}

/-- Erasing the type looks into the variable. -/
def LeadsTo (ts : TypeSystem) (ty : TypeId) (v : TypeVarId) : Prop :=
  ∃ u, Relation.ReflTransGen ts.LooksInto ty u ∧ ts.pool.HasKind u (.var v)

theorem LeadsTo.of_looksInto {u : TypeId} {v : TypeVarId} (hstep : ts.LooksInto ty u)
    (h : ts.LeadsTo u v) : ts.LeadsTo ty v :=
  h.imp fun _ hw => ⟨.head hstep hw.1, hw.2⟩

/-- The shape of a type when the bounds of the declared variables in `V` stand in their place. -/
inductive HasOutline (ts : TypeSystem) (V : TypeVarId → Prop) : TypeId → Shape → Prop
  | prim {ty : TypeId} {r : Primitive} : ts.pool.HasKind ty (.prim r) →
      HasOutline ts V ty (.prim r)
  | null {ty : TypeId} : ts.pool.HasKind ty .null → HasOutline ts V ty .null
  | raw {ty : TypeId} {c : ClassId} : ts.pool.HasKind ty (.raw c) → HasOutline ts V ty (.raw c)
  | inst {ty : TypeId} {c : ClassId} {s : SubstId} {outer : Option TypeId} :
      ts.pool.HasKind ty (.inst c s outer) → HasOutline ts V ty (.raw c)
  | array {ty elem : TypeId} {shape : Shape} : ts.pool.HasKind ty (.array elem) →
      HasOutline ts V elem shape → HasOutline ts V ty (.array shape)
  | var {ty : TypeId} {v : TypeVarId} {shape : Shape} : ts.pool.HasKind ty (.var v) → V v →
      v.index < ts.typeVars.size → HasOutline ts V (ts.typeVar v).bound shape →
      HasOutline ts V ty shape

namespace HasOutline

/-- An outline takes in only variables that the type leads to. -/
theorem within (h : ts.HasOutline V ty shape) {W : TypeVarId → Prop}
    (hW : ∀ v, ts.LeadsTo ty v → W v) : ts.HasOutline W ty shape := by
  induction h with
  | prim hk => exact .prim hk
  | null hk => exact .null hk
  | raw hk => exact .raw hk
  | inst hk => exact .inst hk
  | array hk _ ih => exact .array hk (ih fun v hv => hW v (hv.of_looksInto (.elem hk)))
  | var hk _ hlt _ ih =>
    exact .var hk (hW _ ⟨_, .refl, hk⟩) hlt (ih fun v hv => hW v (hv.of_looksInto (.bound hk)))

theorem unique {shape' : Shape} (h : ts.HasOutline V ty shape) (h' : ts.HasOutline V ty shape') :
    shape = shape' := by
  induction h generalizing shape' with
  | prim hk | null hk | raw hk | inst hk =>
    cases h' with
    | prim hk' | null hk' | raw hk' | inst hk' | array hk' _ | var hk' _ _ _ =>
      cases hk.unique hk' <;> rfl
  | array hk _ ih =>
    cases h' with
    | array hk' helem =>
      cases hk.unique hk'
      rw [ih helem]
    | prim hk' | null hk' | raw hk' | inst hk' | var hk' _ _ _ => cases hk.unique hk'
  | var hk _ _ _ ih =>
    cases h' with
    | var hk' _ _ hbound =>
      cases hk.unique hk'
      exact ih hbound
    | prim hk' | null hk' | raw hk' | inst hk' | array hk' _ => cases hk.unique hk'

/-- The outline of a type variable is that of its bound. -/
theorem of_var {v : TypeVarId} (h : ts.HasOutline V ty shape)
    (hk : ts.pool.HasKind ty (.var v)) :
    v.index < ts.typeVars.size ∧ ts.HasOutline V (ts.typeVar v).bound shape := by
  cases h with
  | var hk' _ hlt hbound =>
    cases hk.unique hk'
    exact ⟨hlt, hbound⟩
  | prim hk' | null hk' | raw hk' | inst hk' | array hk' _ => cases hk.unique hk'

theorem not_lub (h : ts.HasOutline V ty shape) {l : LubId} : ¬ ts.pool.HasKind ty (.lub l) := by
  intro hk
  cases h with
  | prim hk' | null hk' | raw hk' | inst hk' | array hk' _ | var hk' _ _ _ => cases hk.unique hk'

theorem has (h : ts.HasOutline V ty shape) : ts.pool.Has ty := by
  cases h with
  | prim hk | null hk | raw hk | inst hk | array hk _ | var hk _ _ _ => exact hk.has

end HasOutline

/-- An erased type has its shape for an outline. -/
theorem hasOutline_of_hasShape (h : ts.pool.HasShape ty shape) : ts.HasOutline V ty shape := by
  induction h with
  | prim hk => exact .prim hk
  | null hk => exact .null hk
  | raw hk => exact .raw hk
  | array hk _ ih => exact .array hk ih

/-- A type that leads to declared variables of `V` only, and to no upper bound, has an outline. -/
theorem exists_outline (hts : ts.Valid) (hacyclic : ts.Acyclic) (hty : ts.pool.Has ty)
    (hlub : ∀ u l, Relation.ReflTransGen ts.LooksInto ty u → ¬ ts.pool.HasKind u (.lub l))
    (hvars : ∀ v, ts.LeadsTo ty v → V v ∧ v.index < ts.typeVars.size) :
    ∃ shape, ts.HasOutline V ty shape := by
  induction hn : ts.rank ty using Nat.strongRecOn generalizing ty with
  | ind n ih =>
    have hpart : ∀ {u}, ts.LooksInto ty u → ∃ shape, ts.HasOutline V u shape := fun hstep =>
      ih _ (hn ▸ rank_lt hts.grounded hacyclic.acyclicBounds hstep) (hstep.has hts.grounded)
        (fun w l hw => hlub w l (.head hstep hw)) (fun v hv => hvars v (hv.of_looksInto hstep)) rfl
    have hkind := hty.hasKind
    cases hk : ts.pool.kind ty with rw [hk] at hkind
    | prim r => exact ⟨_, .prim hkind⟩
    | null => exact ⟨_, .null hkind⟩
    | raw c => exact ⟨_, .raw hkind⟩
    | inst c s outer => exact ⟨_, .inst hkind⟩
    | array elem =>
      obtain ⟨shape, helem⟩ := hpart (.elem hkind)
      exact ⟨_, .array hkind helem⟩
    | var v =>
      obtain ⟨shape, hbound⟩ := hpart (.bound hkind)
      obtain ⟨hv, hlt⟩ := hvars v ⟨_, .refl, hkind⟩
      exact ⟨shape, .var hkind hv hlt hbound⟩
    | lub l => exact absurd hkind (hlub ty l .refl)

/-! ### Outlines and bounds -/

/-- Following bounds comes to an end, and keeps the outline. -/
theorem HasOutline.followBounds (hacyclic : ts.Acyclic) {steps : Nat}
    (hsteps : (reached ts.LooksInto ts.varMark ts.typeVars.size ty).card < steps)
    (h : ts.HasOutline V ty shape) :
    ∃ u, ts.followBounds steps ty = some u ∧ ts.HasOutline V u shape := by
  induction steps generalizing ty with
  | zero => omega
  | succ steps ih =>
    unfold TypeSystem.followBounds
    split
    case h_1 v hk =>
      have hkind : ts.pool.HasKind ty (.var v) := h.has.hasKind_of_eq hk
      obtain ⟨hlt, hbound⟩ := h.of_var hkind
      have hfewer := card_reached_lt_of_var hacyclic.acyclicBounds (.bound hkind) hkind hlt
      exact ih (by omega) hbound
    case h_2 => exact ⟨ty, rfl, h⟩

theorem HasOutline.boundErasure (hacyclic : ts.Acyclic) (h : ts.HasOutline V ty shape) :
    ts.HasOutline V (ts.boundErasure ty) shape := by
  have hcard := card_reached_bound ts.LooksInto ts.varMark ts.typeVars.size ty
  obtain ⟨u, hu, houtline⟩ := h.followBounds hacyclic (Nat.lt_succ_of_le hcard)
  rwa [TypeSystem.boundErasure, hu]

/-- What a type comes down to has the outline of the type. -/
theorem HasOutline.comesDownTo (hacyclic : ts.Acyclic) {u : TypeId}
    (h : ts.HasOutline V ty shape) (hdown : ts.ComesDownTo ty u) : ts.HasOutline V u shape := by
  obtain ⟨r, hr, rfl⟩ := hdown
  have hbound := h.boundErasure hacyclic
  refine HasOutline.boundErasure hacyclic ?_
  unfold Resolves at hr
  split at hr
  case h_1 l hk =>
    exact absurd (hbound.has.hasKind_of_eq hk) hbound.not_lub
  case h_2 => exact hr ▸ hbound

/-- After results that follow the outlines, erasure follows them. -/
theorem Erases.eq_of_hasOutline (hts : ts.Valid) (hacyclic : ts.Acyclic) {M : Memo TypeId TypeId}
    (hM : ∀ t r shape, M.find? t = some r → ts.HasOutline V t shape → ts.pool.HasShape r shape)
    {shape' : Shape} (h : ts.Erases M ty shape') (houtline : ts.HasOutline V ty shape) :
    shape' = shape := by
  induction h generalizing shape with
  | remembered hfind hshape => exact hshape.unique (hM _ _ _ hfind houtline)
  | prim _ hdown hk | null _ hdown hk | raw _ hdown hk | inst _ hdown hk =>
    cases houtline.comesDownTo hacyclic hdown with
    | prim hk' | null hk' | raw hk' | inst hk' | array hk' _ => cases hk.unique hk' <;> rfl
    | var hk' _ _ _ => exact absurd hk'.kind_eq (hdown.kind_ne_var hts _)
  | array _ hdown hk _ ih =>
    cases houtline.comesDownTo hacyclic hdown with
    | array hk' helem =>
      cases hk.unique hk'
      rw [ih helem]
    | prim hk' | null hk' | raw hk' | inst hk' => cases hk.unique hk'
    | var hk' _ _ _ => exact absurd hk'.kind_eq (hdown.kind_ne_var hts _)
  | lub _ hdown hk => exact absurd hk (houtline.comesDownTo hacyclic hdown).not_lub

/-! ### Outlines and growth -/

theorem HasOutline.of_extends (hext : Extends ts us) (h : ts.HasOutline V ty shape) :
    us.HasOutline V ty shape := by
  induction h with
  | prim hk => exact .prim (hk.of_le hext.le.1)
  | null hk => exact .null (hk.of_le hext.le.1)
  | raw hk => exact .raw (hk.of_le hext.le.1)
  | inst hk => exact .inst (hk.of_le hext.le.1)
  | array hk _ ih => exact .array (hk.of_le hext.le.1) ih
  | var hk hv hlt _ ih =>
    refine .var (hk.of_le hext.le.1) hv (hext.typeVars_eq ▸ hlt) ?_
    rwa [hext.typeVar_eq]

/-- The bound of a declared type variable. -/
def bound? (ts : TypeSystem) (v : TypeVarId) : Option TypeId := ts.typeVars[v.index]?.map (·.bound)

theorem bound?_eq_some_iff {v : TypeVarId} {b : TypeId} :
    ts.bound? v = some b ↔ v.index < ts.typeVars.size ∧ (ts.typeVar v).bound = b := by
  rw [bound?, typeVar, Array.getD_eq_getD_getElem?]
  by_cases h : v.index < ts.typeVars.size
  · simp [h]
  · simp [h]

/-- The outline of a type was the same before, if no variable of `V` that the type leads to has been
given a bound since. -/
theorem HasOutline.of_ge (hts : ts.Valid) (hle : ts ≤ us) (hty : ts.pool.Has ty)
    (hbounds : ∀ v, V v → ts.LeadsTo ty v → us.bound? v = ts.bound? v)
    (h : us.HasOutline V ty shape) : ts.HasOutline V ty shape := by
  induction h with
  | prim hk => exact .prim (hk.of_ge hle.1 hty)
  | null hk => exact .null (hk.of_ge hle.1 hty)
  | raw hk => exact .raw (hk.of_ge hle.1 hty)
  | inst hk => exact .inst (hk.of_ge hle.1 hty)
  | array hk _ ih =>
    have hold := hk.of_ge hle.1 hty
    exact .array hold (ih (hts.pool.has_part hold List.mem_cons_self) fun v hv hleads =>
      hbounds v hv (hleads.of_looksInto (.elem hold)))
  | var hk hv hlt _ ih =>
    have hold := hk.of_ge hle.1 hty
    have hsame := (hbounds _ hv ⟨_, .refl, hold⟩).symm.trans (bound?_eq_some_iff.mpr ⟨hlt, rfl⟩)
    obtain ⟨hlt', hbound⟩ := bound?_eq_some_iff.mp hsame
    rw [← hbound] at ih
    exact .var hold hv hlt' (ih (hts.bound _) fun v hv hleads =>
      hbounds v hv (hleads.of_looksInto (.bound hold)))

/-! ### Outlines and substitution -/

/-- Replacing variables by types of their outlines keeps the outline. -/
theorem HasOutline.substitutes {f : TypeVarId → Option TypeId} {u : TypeId}
    (hf : ∀ {t v r shape}, ts.pool.HasKind t (.var v) → f v = some r →
      ts.HasOutline V t shape → ts.HasOutline V r shape)
    (h : ts.HasOutline V ty shape) (hsub : ts.pool.Substitutes f ty u) :
    ts.HasOutline V u shape := by
  induction h generalizing u with
  | prim hk | null hk | raw hk =>
    cases hsub with
    | prim _ | null _ | raw _ => first | exact .prim hk | exact .null hk | exact .raw hk
    | var hk' | array hk' _ _ | inst _ hk' _ _ _ _ _ | lub _ hk' _ _ _ => cases hk.unique hk'
  | inst hk =>
    cases hsub with
    | inst _ hk' _ _ _ _ hu =>
      cases hk.unique hk'
      exact .inst hu
    | prim hk' | null hk' | raw hk' | var hk' | array hk' _ _ | lub _ hk' _ _ _ =>
      cases hk.unique hk'
  | array hk _ ih =>
    cases hsub with
    | array hk' helem hu =>
      cases hk.unique hk'
      exact .array hu (ih helem)
    | prim hk' | null hk' | raw hk' | var hk' | inst _ hk' _ _ _ _ _ | lub _ hk' _ _ _ =>
      cases hk.unique hk'
  | @var ty v shape hk hv hlt hbound _ =>
    cases hsub with
    | @var _ w hk' =>
      cases hk.unique hk'
      cases hlookup : f v with
      | none => exact .var hk hv hlt hbound
      | some r => exact hf hk hlookup (.var hk hv hlt hbound)
    | prim hk' | null hk' | raw hk' | array hk' _ _ | inst _ hk' _ _ _ _ _ | lub _ hk' _ _ _ =>
      cases hk.unique hk'

end Erasure.TypeSystem
