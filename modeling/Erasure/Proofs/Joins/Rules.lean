/-
The rules of joining.

A join looks at its candidates without the null type. `JoinsTo` has one rule for each way in which
the form of the join of reference types is found, so that facts about joins go by induction on a
derivation and not along the procedure. The main statements:

* `joinsTo_joinForm`, `JoinsTo.unique`: the form that the procedure finds is the one that the rules
  give.
* `joinsTo_iff_of_extends`: they give the same form when the type system has grown.
* `join_keeps`: joining references finds or makes the type of that form.
-/
import Erasure.Proofs.Canonical.Subtyping

namespace Erasure.TypeSystem

variable {ts : TypeSystem} {tys elems : List TypeId} {form : JoinForm} {c : ClassId}

/-! ### Elements of arrays -/

theorem arrayElements?_eq_none_iff :
    ts.arrayElements? tys = none ↔ ∃ t ∈ tys, ∀ e, ts.kind t ≠ .array e := by
  induction tys with
  | nil => simp [arrayElements?]
  | cons t tys ih =>
    rw [arrayElements?_cons]
    cases hk : ts.kind t with
    | array e => simp [ih, hk]
    | prim _ | null | raw _ | var _ | inst _ _ _ | lub _ => simp [hk]

theorem exists_elem_of_mem_arrayElements? {tys elems : List TypeId}
    (h : ts.arrayElements? tys = some elems) : ∀ t ∈ tys, ∃ elem ∈ elems, ts.kind t = .array elem := by
  induction tys generalizing elems with
  | nil => exact fun t ht => absurd ht List.not_mem_nil
  | cons first rest ih =>
    intro t ht
    rcases List.mem_cons.mp ht with rfl | ht
    · exact exists_kind_of_arrayElements? h
    · rw [arrayElements?_cons] at h
      split at h
      case h_1 _ =>
        obtain ⟨elems', hrest, rfl⟩ := Option.map_eq_some_iff.mp h
        obtain ⟨elem, helem, hk⟩ := ih hrest t ht
        exact ⟨elem, List.mem_cons_of_mem _ helem, hk⟩
      case h_2 => cases h

/-- The elements of arrays are those of any of them. -/
theorem mem_of_arrayElements? (h : ts.arrayElements? tys = some elems) {e : TypeId} :
    e ∈ elems ↔ ∃ t ∈ tys, ts.kind t = .array e := by
  refine ⟨kind_of_mem_arrayElements? h, ?_⟩
  rintro ⟨t, ht, hk⟩
  obtain ⟨e', he', hk'⟩ := exists_elem_of_mem_arrayElements? h t ht
  cases hk.symm.trans hk'
  exact he'

/-! ### Candidates -/

/-- The candidates that count: all but the null type. -/
def nonNull (tys : List TypeId) : List TypeId := tys.filter (· ≠ .null)

@[simp] theorem mem_nonNull {t : TypeId} : t ∈ nonNull tys ↔ t ∈ tys ∧ t ≠ .null := by
  simp [nonNull]

theorem eq_null_of_nonNull_eq_nil (h : nonNull tys = []) : ∀ t ∈ tys, t = .null := by
  intro t ht
  by_contra hne
  exact absurd (mem_nonNull.mpr ⟨ht, hne⟩) (h ▸ List.not_mem_nil)

/-- Two of the candidates that count are different. -/
def Differ (tys : List TypeId) : Prop := ∃ t ∈ nonNull tys, ∃ u ∈ nonNull tys, t ≠ u

instance (tys : List TypeId) : Decidable (Differ tys) :=
  inferInstanceAs (Decidable (∃ t ∈ nonNull tys, ∃ u ∈ nonNull tys, t ≠ u))

/-! ### Rules -/

/-- The join of the reference types has the form. -/
inductive JoinsTo (ts : TypeSystem) : List TypeId → JoinForm → Prop
  | null {tys : List TypeId} : nonNull tys = [] → JoinsTo ts tys (.known .null)
  | same {tys : List TypeId} {t : TypeId} : t ∈ nonNull tys → (∀ u ∈ nonNull tys, u = t) →
      JoinsTo ts tys (.known t)
  | elems {tys elems : List TypeId} {form : JoinForm} : Differ tys →
      ts.arrayElements? (nonNull tys) = some elems → (∀ e ∈ elems, ts.isReference e = true) →
      JoinsTo ts elems form → JoinsTo ts tys (.array form)
  | arrays {tys elems : List TypeId} {e : TypeId} : Differ tys →
      ts.arrayElements? (nonNull tys) = some elems → e ∈ elems → ts.isReference e = false →
      JoinsTo ts tys (.known .object)
  | common {tys : List TypeId} {c : ClassId} : Differ tys →
      ts.arrayElements? (nonNull tys) = none → ts.commonClass? (nonNull tys) = some c →
      JoinsTo ts tys (.raw c)
  | root {tys : List TypeId} : Differ tys → ts.arrayElements? (nonNull tys) = none →
      ts.commonClass? (nonNull tys) = none → JoinsTo ts tys (.known .object)

/-- The rules give the form that the procedure finds, if it may go deep enough. -/
theorem joinsTo_joinForm (hts : ts.Valid) {depth : Nat} (hdepth : ∀ t ∈ tys, t.index < depth)
    (hpos : 0 < depth) (hhas : ∀ t ∈ tys, ts.pool.Has t)
    (hrefs : ∀ t ∈ tys, ts.isReference t = true) : ts.JoinsTo tys (ts.joinForm depth tys) := by
  induction depth generalizing tys with
  | zero => exact absurd hpos (Nat.lt_irrefl 0)
  | succ depth ih =>
    have hmem : ∀ t ∈ nonNull tys, t ∈ tys := fun t ht => (mem_nonNull.mp ht).1
    rw [joinForm, show tys.filter (· ≠ .null) = nonNull tys from rfl]
    cases hfilter : nonNull tys with
    | nil => exact .null hfilter
    | cons first rest =>
      have hfirst : first ∈ nonNull tys := hfilter ▸ List.mem_cons_self
      dsimp only
      rw [← hfilter]
      split
      case isTrue hall => exact .same hfirst (by simpa using hall)
      case isFalse hall =>
        have hdiffer : Differ tys := by
          obtain ⟨u, hu, hne⟩ : ∃ u ∈ nonNull tys, u ≠ first := by
            simpa [and_assoc] using hall
          exact ⟨u, hu, first, hfirst, hne⟩
        rw [if_neg]
        · cases helems : ts.arrayElements? (nonNull tys) with
          | some elems =>
            dsimp only
            have hparts := part_of_mem_arrayElements? hts (fun t ht => hhas t (hmem t ht)) helems
            split
            case isTrue hrefs' =>
              have hbelow : ∀ e ∈ elems, e.index < depth := by
                intro e he
                obtain ⟨-, t, ht, hlt⟩ := hparts e he
                have := hdepth t (hmem t ht)
                omega
              obtain ⟨e, he, -⟩ := exists_kind_of_arrayElements? (hfilter ▸ helems)
              exact .elems hdiffer helems (by simpa using hrefs')
                (ih hbelow (Nat.zero_lt_of_lt (hbelow e he)) (fun e he => (hparts e he).1)
                  (by simpa using hrefs'))
            case isFalse hrefs' =>
              obtain ⟨e, he, href⟩ : ∃ e ∈ elems, ts.isReference e = false := by simpa using hrefs'
              exact .arrays hdiffer helems he href
          | none =>
            cases hcommon : ts.commonClass? (nonNull tys) with
            | some c => exact .common hdiffer helems hcommon
            | none => exact .root hdiffer helems hcommon
        · -- references are not primitive
          intro hprims
          have hprim := List.all_eq_true.mp hprims first hfirst
          obtain ⟨r, hr⟩ := (isPrimitive_iff hts (hhas first (hmem first hfirst))).mp hprim
          have href := hrefs first (hmem first hfirst)
          exact (isReference_iff hts (hhas first (hmem first hfirst))).mp href r hr

/-! ### What the candidates say -/

theorem Differ.not_eq {t : TypeId} (h : Differ tys) : ¬ ∀ u ∈ nonNull tys, u = t := by
  obtain ⟨u, hu, v, hv, hne⟩ := h
  exact fun hall => hne ((hall u hu).trans (hall v hv).symm)

theorem Differ.ne_nil (h : Differ tys) : nonNull tys ≠ [] := by
  obtain ⟨u, hu, -⟩ := h
  exact List.ne_nil_of_mem hu

namespace JoinsTo

theorem of_nil (h : ts.JoinsTo tys form) (hnil : nonNull tys = []) : form = .known .null := by
  cases h with
  | null => rfl
  | same ht _ => simp [hnil] at ht
  | elems hdiffer _ _ _ | arrays hdiffer _ _ _ | common hdiffer _ _ | root hdiffer _ _ =>
    exact absurd hnil hdiffer.ne_nil

theorem of_same (h : ts.JoinsTo tys form) {t : TypeId} (ht : t ∈ nonNull tys)
    (hall : ∀ u ∈ nonNull tys, u = t) : form = .known t := by
  cases h with
  | null hnil => simp [hnil] at ht
  | same hu _ => rw [hall _ hu]
  | elems hdiffer _ _ _ | arrays hdiffer _ _ _ | common hdiffer _ _ | root hdiffer _ _ =>
    exact absurd hall hdiffer.not_eq

theorem of_elems (h : ts.JoinsTo tys form) (hdiffer : Differ tys)
    (helems : ts.arrayElements? (nonNull tys) = some elems)
    (hrefs : ∀ e ∈ elems, ts.isReference e = true) :
    ∃ form', form = .array form' ∧ ts.JoinsTo elems form' := by
  cases h with
  | null hnil => exact absurd hnil hdiffer.ne_nil
  | same _ hall => exact absurd hall hdiffer.not_eq
  | elems _ helems' _ hform =>
    cases helems.symm.trans helems'
    exact ⟨_, rfl, hform⟩
  | arrays _ helems' he href =>
    cases helems.symm.trans helems'
    simp [hrefs _ he] at href
  | common _ hnone _ | root _ hnone _ => cases helems.symm.trans hnone

theorem of_arrays (h : ts.JoinsTo tys form) (hdiffer : Differ tys)
    (helems : ts.arrayElements? (nonNull tys) = some elems) {e : TypeId} (he : e ∈ elems)
    (href : ts.isReference e = false) : form = .known .object := by
  cases h with
  | null hnil => exact absurd hnil hdiffer.ne_nil
  | same _ hall => exact absurd hall hdiffer.not_eq
  | elems _ helems' hrefs _ =>
    cases helems.symm.trans helems'
    simp [hrefs e he] at href
  | arrays => rfl
  | common _ hnone _ | root _ hnone _ => cases helems.symm.trans hnone

/-- Candidates that are not all arrays are joined to the class that is taken of those above all of
them. -/
theorem of_common (h : ts.JoinsTo tys form) (hdiffer : Differ tys)
    (hnone : ts.arrayElements? (nonNull tys) = none) :
    form = ((ts.commonClass? (nonNull tys)).map .raw).getD (.known .object) := by
  cases h with
  | null hnil => exact absurd hnil hdiffer.ne_nil
  | same _ hall => exact absurd hall hdiffer.not_eq
  | elems _ helems _ _ | arrays _ helems _ _ => cases helems.symm.trans hnone
  | common _ _ hcommon | root _ _ hcommon => rw [hcommon]; rfl

/-- The rules give one form. -/
theorem unique {form' : JoinForm} (h : ts.JoinsTo tys form) (h' : ts.JoinsTo tys form') :
    form = form' := by
  induction h generalizing form' with
  | null hnil => exact (h'.of_nil hnil).symm
  | same ht hall => exact (h'.of_same ht hall).symm
  | elems hdiffer helems hrefs _ ih =>
    obtain ⟨form'', rfl, hform⟩ := h'.of_elems hdiffer helems hrefs
    rw [ih hform]
  | arrays hdiffer helems he href => exact (h'.of_arrays hdiffer helems he href).symm
  | common hdiffer hnone hcommon | root hdiffer hnone hcommon =>
    rw [h'.of_common hdiffer hnone, hcommon]
    rfl

end JoinsTo

/-- A class type is no array. -/
theorem arrayElements?_eq_none_of_class {t : TypeId} (ht : t ∈ tys) (hc : ts.classOf? t = some c) :
    ts.arrayElements? tys = none := by
  refine arrayElements?_eq_none_iff.mpr ⟨t, ht, fun e hk => ?_⟩
  simp [classOf?, hk, TypeKind.class?] at hc

theorem ne_null_of_classOf? (hts : ts.Valid) {t : TypeId} (hc : ts.classOf? t = some c) :
    t ≠ .null := by
  rintro rfl
  simp [classOf?, kind, hts.pool.null.kind_eq, TypeKind.class?] at hc

theorem nonNull_eq_self (hts : ts.Valid) (hclasses : ∀ t ∈ tys, (ts.classOf? t).isSome) :
    nonNull tys = tys := by
  refine List.filter_eq_self.mpr fun t ht => decide_eq_true ?_
  obtain ⟨c, hc⟩ := Option.isSome_iff_exists.mp (hclasses t ht)
  exact ne_null_of_classOf? hts hc

/-! ### What is answered -/

section Answer

variable (hts : ts.Valid) (hhas : ∀ t ∈ tys, ts.pool.Has t)
  (hrefs : ∀ t ∈ tys, ts.isReference t = true)
include hts hhas hrefs

theorem joinsTo_iff : ts.JoinsTo tys form ↔ form = ts.joinForm (ts.pool.size + 1) tys := by
  have h := joinsTo_joinForm hts (fun t ht => Nat.lt_succ_of_lt (hhas t ht)) (Nat.succ_pos _) hhas
    hrefs
  exact ⟨fun h' => h'.unique h, fun heq => heq ▸ h⟩

/-- The rules give the form that they gave before the type system grew. -/
theorem joinsTo_iff_of_extends {us : TypeSystem} (hus : us.Valid) (hext : Extends ts us) :
    us.JoinsTo tys form ↔ ts.JoinsTo tys form := by
  have hpreserves := hext.preserves hts
  rw [joinsTo_iff hts hhas hrefs, joinsTo_iff hus (fun t ht => (hhas t ht).of_le hext.le.1)
    fun t ht => (hpreserves.isReference_eq (hhas t ht)).trans (hrefs t ht)]
  rw [hpreserves.joinForm_eq hts hhas (fun t ht => Nat.lt_succ_of_lt (hhas t ht))
    (fun t ht => Nat.lt_succ_of_lt ((hhas t ht).of_le hext.le.1)) (Nat.succ_pos _) (Nat.succ_pos _)]

/-- The join of references is of the form that the rules give. -/
theorem join_keeps : Keeps (join tys) ts fun r us =>
    ∃ form, ts.JoinsTo tys form ∧ HasForm us.pool r form := by
  unfold join
  refine Keeps.get_bind ((joinWithin_keeps hts hhas).mono fun r us _ _ hr => ?_)
  exact ⟨_, (joinsTo_iff hts hhas hrefs).mpr rfl, hr⟩

end Answer

end Erasure.TypeSystem
