/-
What the flags of a type say.

The flags of a type are computed once, from its kind and the flags of its parts. The flag of its
outermost level goes by the kind alone, the flag of an occurrence by all levels. The main
statements:

* `flags_of_head`: primitive types, references and arrays are known from the kind of the type.
* `flags_iff_occurs`: a type variable, an instantiation or an open upper bound occurs in a type, at
  any depth, if and only if its flags say so.
-/
import Erasure.Proofs.Pool.Validity

namespace Erasure

/-- The flags of the outermost level of a type. -/
def TypeKind.headFlags : TypeKind → TypeFlags
  | prim _ => { isPrimitive := true }
  | null | raw _ => { isReference := true }
  | array _ => { isReference := true, isArray := true }
  | var _ => { isReference := true, hasVar := true }
  | inst _ _ _ => { isReference := true, hasInst := true }
  | lub _ => { isReference := true, hasLub := true }

namespace Pool

variable {p : Pool} (flag : TypeFlags → Bool)

theorem flagsOfKind_eq_foldl (p : Pool) (k : TypeKind) : p.flagsOfKind k =
    (p.parts k).foldl (fun f part => f.addPart (p.flags part)) k.headFlags := by
  cases k with
  | prim _ | null | array _ | raw _ | var _ | inst _ _ _ | lub _ => rfl

/-! ### The outermost level -/

/-- A flag that parts do not pass on is that of the outermost level. -/
theorem flagsOfKind_of_head (hflag : ∀ f g : TypeFlags, flag (f.addPart g) = flag f) (p : Pool)
    (k : TypeKind) : flag (p.flagsOfKind k) = flag k.headFlags := by
  rw [flagsOfKind_eq_foldl]
  generalize k.headFlags = f
  induction p.parts k generalizing f with
  | nil => rfl
  | cons u parts ih => exact (ih _).trans (hflag f _)

theorem flags_of_head (hflag : ∀ f g : TypeFlags, flag (f.addPart g) = flag f) (hp : p.Valid)
    {ty : TypeId} (hty : p.Has ty) : flag (p.flags ty) = flag (p.kind ty).headFlags := by
  rw [hp.flags_eq hty.hasKind, flagsOfKind_of_head flag hflag]

/-! ### Occurrences -/

/-- A type of the given kind occurs in the type: the type itself is one, or a part of it has one. -/
inductive Occurs (p : Pool) (k : TypeKind) : TypeId → Prop
  | here {ty : TypeId} : p.HasKind ty k → Occurs p k ty
  | part {ty u : TypeId} {l : TypeKind} : p.HasKind ty l → u ∈ p.parts l → Occurs p k u →
      Occurs p k ty

theorem occurs_iff {ty : TypeId} {l : TypeKind} (hty : p.HasKind ty l) {k : TypeKind} :
    p.Occurs k ty ↔ k = l ∨ ∃ u ∈ p.parts l, p.Occurs k u := by
  constructor
  · rintro (hkind | ⟨hkind, hu, hoccurs⟩)
    · exact .inl (hkind.unique hty)
    · cases hkind.unique hty
      exact .inr ⟨_, hu, hoccurs⟩
  · rintro (rfl | ⟨u, hu, hoccurs⟩)
    · exact .here hty
    · exact .part hty hu hoccurs

theorem Occurs.eq_of_parts_eq_nil {ty : TypeId} {k l : TypeKind} (h : p.Occurs k ty)
    (hty : p.HasKind ty l) (hparts : p.parts l = []) : k = l := by
  refine ((occurs_iff hty).mp h).resolve_right fun ⟨u, hu, _⟩ => ?_
  rw [hparts] at hu
  exact List.not_mem_nil hu

/-- What occurs in a type of a later pool occurred in it when it was there before. -/
theorem Occurs.of_ge {q : Pool} (hp : p.Valid) (hle : p ≤ q) {k : TypeKind} {ty : TypeId}
    (h : q.Occurs k ty) (hty : p.Has ty) : p.Occurs k ty := by
  induction h with
  | here hk => exact .here (hk.of_ge hle hty)
  | part hk hu _ ih =>
    have hk' := hk.of_ge hle hty
    rw [parts_of_le hle (hp.linked hk')] at hu
    exact .part hk' hu (ih (hp.has_part hk' hu))

/-- A flag that parts pass on is set if the outermost level or a part sets it. -/
theorem flagsOfKind_iff_of_part (hflag : ∀ f g : TypeFlags, flag (f.addPart g) = (flag f || flag g))
    (p : Pool) (k : TypeKind) : flag (p.flagsOfKind k) = true ↔
      flag k.headFlags = true ∨ ∃ u ∈ p.parts k, flag (p.flags u) = true := by
  rw [flagsOfKind_eq_foldl]
  generalize k.headFlags = f
  induction p.parts k generalizing f with
  | nil => simp
  | cons u parts ih =>
    rw [List.foldl_cons, ih, hflag, Bool.or_eq_true, List.exists_mem_cons_iff, or_assoc]

/-- A flag that parts pass on is set if a level that sets it occurs in the type. -/
theorem flags_iff_occurs (hflag : ∀ f g : TypeFlags, flag (f.addPart g) = (flag f || flag g))
    (hp : p.Valid) {ty : TypeId} (hty : p.Has ty) :
    flag (p.flags ty) = true ↔ ∃ k, p.Occurs k ty ∧ flag k.headFlags = true := by
  induction hn : ty.index using Nat.strongRecOn generalizing ty with
  | ind n ih =>
    have hkind := hty.hasKind
    have hpart : ∀ u ∈ p.parts (p.kind ty),
        (flag (p.flags u) = true ↔ ∃ k, p.Occurs k u ∧ flag k.headFlags = true) := fun u hu =>
      ih _ (hn ▸ hp.parts_lt hkind u hu) (hp.has_part hkind hu) rfl
    rw [hp.flags_eq hkind, flagsOfKind_iff_of_part flag hflag]
    constructor
    · rintro (hhead | ⟨u, hu, hflagged⟩)
      · exact ⟨_, .here hkind, hhead⟩
      · obtain ⟨k, hoccurs, hhead⟩ := (hpart u hu).mp hflagged
        exact ⟨k, .part hkind hu hoccurs, hhead⟩
    · rintro ⟨k, hoccurs, hhead⟩
      rcases (occurs_iff hkind).mp hoccurs with rfl | ⟨u, hu, hoccurs⟩
      · exact .inl hhead
      · exact .inr ⟨u, hu, (hpart u hu).mpr ⟨k, hoccurs, hhead⟩⟩

/-- A flag that only the kinds of a family set at their outermost level is set if one of them occurs
in the type. -/
theorem flags_iff_exists_occurs {ι : Type} (family : ι → TypeKind)
    (hflag : ∀ f g : TypeFlags, flag (f.addPart g) = (flag f || flag g))
    (hfamily : ∀ k : TypeKind, flag k.headFlags = true ↔ ∃ i, family i = k) (hp : p.Valid)
    {ty : TypeId} (hty : p.Has ty) :
    flag (p.flags ty) = true ↔ ∃ i, p.Occurs (family i) ty := by
  rw [flags_iff_occurs flag hflag hp hty]
  constructor
  · rintro ⟨k, hoccurs, hhead⟩
    obtain ⟨i, rfl⟩ := (hfamily k).mp hhead
    exact ⟨i, hoccurs⟩
  · rintro ⟨i, hoccurs⟩
    exact ⟨_, hoccurs, (hfamily _).mpr ⟨i, rfl⟩⟩

theorem hasVar_iff_occurs (hp : p.Valid) {ty : TypeId} (hty : p.Has ty) :
    (p.flags ty).hasVar = true ↔ ∃ v, p.Occurs (.var v) ty :=
  flags_iff_exists_occurs TypeFlags.hasVar .var (fun _ _ => rfl)
    (fun k => by cases k <;> simp [TypeKind.headFlags]) hp hty

theorem hasInst_iff_occurs (hp : p.Valid) {ty : TypeId} (hty : p.Has ty) :
    (p.flags ty).hasInst = true ↔ ∃ base s outer, p.Occurs (.inst base s outer) ty := by
  have h := flags_iff_exists_occurs TypeFlags.hasInst
    (fun i : ClassId × SubstId × Option TypeId => .inst i.1 i.2.1 i.2.2) (fun _ _ => rfl)
    (fun k => by cases k <;> simp [TypeKind.headFlags]) hp hty
  simpa only [Prod.exists] using h

theorem hasLub_iff_occurs (hp : p.Valid) {ty : TypeId} (hty : p.Has ty) :
    (p.flags ty).hasLub = true ↔ ∃ l, p.Occurs (.lub l) ty :=
  flags_iff_exists_occurs TypeFlags.hasLub .lub (fun _ _ => rfl)
    (fun k => by cases k <;> simp [TypeKind.headFlags]) hp hty

end Pool

end Erasure
