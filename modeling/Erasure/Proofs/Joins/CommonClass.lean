/-
The class that a join of class types is.

Of the classes above all the types, a join takes one that has none of the others below it. The
closure of the first type says in which order these are looked through, and classes come before
interfaces. The main statements:

* `exists_isNearest`: there is such a class wherever there is a class above all the types, if no
  class inherits from itself.
* `isPreferred_of_commonClass?`: the class taken is one, and no interface unless all of them are.
* `commonClass?_eq_of_mem_iff`: where only one can be preferred, the order of the types makes no
  difference.
-/
import Mathlib.Data.Finset.Max
import Erasure.Proofs.Canonical.Subtyping

namespace Erasure.TypeSystem

variable {ts : TypeSystem} {tys tys' : List TypeId} {c d : ClassId}

/-! ### Nearest classes -/

/-- The class is above all the types. -/
def IsCommon (ts : TypeSystem) (tys : List TypeId) (c : ClassId) : Prop :=
  ∀ t ∈ tys, c ∈ ts.erasedClosure t

/-- The class is above all the types, and no other such class inherits from it. -/
structure IsNearest (ts : TypeSystem) (tys : List TypeId) (c : ClassId) : Prop where
  above : ts.IsCommon tys c
  eq_of_mem : ∀ d, ts.IsCommon tys d → c ∈ ts.classClosure d → d = c

/-- A nearest class that is no interface, unless all nearest classes are interfaces. -/
structure IsPreferred (ts : TypeSystem) (tys : List TypeId) (c : ClassId) : Prop
    extends IsNearest ts tys c where
  isInterface : (∃ d, ts.IsNearest tys d ∧ ts.isInterface d = false) → ts.isInterface c = false

theorem mem_classClosure_self (ts : TypeSystem) (c : ClassId) : c ∈ ts.classClosure c :=
  mem_classClosure_iff.mpr .refl

theorem mem_classClosure_trans {b : ClassId} (hc : c ∈ ts.classClosure b)
    (hd : d ∈ ts.classClosure c) : d ∈ ts.classClosure b :=
  mem_classClosure_iff.mpr ((mem_classClosure_iff.mp hc).trans (mem_classClosure_iff.mp hd))

section Acyclic

variable (hclasses : ∀ c, ¬ Relation.TransGen ts.Inherits c c)
include hclasses

/-- Classes that are above each other are one class. -/
theorem eq_of_mem_classClosure (hd : d ∈ ts.classClosure c) (hc : c ∈ ts.classClosure d) :
    c = d := by
  rcases Relation.reflTransGen_iff_eq_or_transGen.mp (mem_classClosure_iff.mp hd) with heq | hstep
  · exact heq.symm
  · exact absurd (hstep.trans_left (mem_classClosure_iff.mp hc)) (hclasses c)

/-- A class has more classes above it than any other class above it. -/
theorem card_classClosure_lt (hd : d ∈ ts.classClosure c) (hne : c ≠ d) :
    (ts.classClosure d).toFinset.card < (ts.classClosure c).toFinset.card := by
  refine Finset.card_lt_card ((Finset.ssubset_iff_of_subset fun e he => ?_).mpr ⟨c, ?_, ?_⟩)
  · simp only [List.mem_toFinset] at he ⊢
    exact mem_classClosure_trans hd he
  · simp [mem_classClosure_self]
  · simp only [List.mem_toFinset]
    exact fun hc => hne (eq_of_mem_classClosure hclasses hd hc)

/-- Where there is a class above all the types there is a nearest one. -/
theorem exists_isNearest (hne : tys ≠ []) (hc : ts.IsCommon tys c) : ∃ d, ts.IsNearest tys d := by
  classical
  obtain ⟨first, rest, rfl⟩ := List.exists_cons_of_ne_nil hne
  let common := (ts.erasedClosure first).toFinset.filter (ts.IsCommon (first :: rest))
  have hmem : ∀ {d}, ts.IsCommon (first :: rest) d → d ∈ common := fun hd =>
    Finset.mem_filter.mpr ⟨List.mem_toFinset.mpr (hd first List.mem_cons_self), hd⟩
  -- a nearest class is one with most classes above it
  obtain ⟨d, hd, hmost⟩ :=
    common.exists_max_image (fun d => (ts.classClosure d).toFinset.card) ⟨c, hmem hc⟩
  refine ⟨d, (Finset.mem_filter.mp hd).2, fun e he hde => ?_⟩
  by_contra hed
  exact absurd (hmost e (hmem he)) (Nat.not_le_of_lt (card_classClosure_lt hclasses hde hed))

end Acyclic

/-! ### The class that is taken -/

/-- The nearest classes, in the order in which they are looked through. -/
def nearestClasses (ts : TypeSystem) : List TypeId → List ClassId
  | [] => []
  | first :: rest =>
    let common := (ts.erasedClosure first).filter fun c =>
      (rest.map ts.erasedClosure).all (c ∈ ·)
    common.filter fun c => !common.any fun d => d ≠ c && c ∈ ts.classClosure d

theorem commonClass?_eq (ts : TypeSystem) (tys : List TypeId) :
    ts.commonClass? tys =
      ((ts.nearestClasses tys).find? (!ts.isInterface ·)).or (ts.nearestClasses tys).head? := by
  cases tys <;> rfl

theorem mem_nearestClasses (hne : tys ≠ []) : c ∈ ts.nearestClasses tys ↔ ts.IsNearest tys c := by
  obtain ⟨first, rest, rfl⟩ := List.exists_cons_of_ne_nil hne
  have hcommon : ∀ d, d ∈ (ts.erasedClosure first).filter
      (fun c => (rest.map ts.erasedClosure).all (c ∈ ·)) ↔ ts.IsCommon (first :: rest) d := by
    simp [IsCommon]
  simp only [nearestClasses, List.mem_filter (p := fun c => !_), hcommon]
  rw [Bool.not_eq_true', List.any_eq_false]
  constructor
  · rintro ⟨habove, hnone⟩
    refine ⟨habove, fun d hd hc => ?_⟩
    simpa [hc] using hnone d ((hcommon d).mpr hd)
  · rintro ⟨habove, heq⟩
    refine ⟨habove, fun d hd => ?_⟩
    by_cases hc : c ∈ ts.classClosure d
    · simp [heq d ((hcommon d).mp hd) hc]
    · simp [hc]

theorem ne_nil_of_commonClass? (h : ts.commonClass? tys = some c) : tys ≠ [] := by
  rintro rfl
  cases h

/-- The class that is taken is preferred. -/
theorem isPreferred_of_commonClass? (h : ts.commonClass? tys = some c) : ts.IsPreferred tys c := by
  have hne := ne_nil_of_commonClass? h
  rw [commonClass?_eq, Option.or_eq_some_iff] at h
  rcases h with hfind | ⟨hnone, hhead⟩
  · refine ⟨(mem_nearestClasses hne).mp (List.mem_of_find?_eq_some hfind), fun _ => ?_⟩
    simpa using List.find?_some hfind
  · refine ⟨(mem_nearestClasses hne).mp (List.mem_of_mem_head? hhead), ?_⟩
    rintro ⟨d, hd, hclass⟩
    have := List.find?_eq_none.mp hnone d ((mem_nearestClasses hne).mpr hd)
    simp [hclass] at this

/-- A class is taken unless there is no nearest one. -/
theorem exists_commonClass?_iff (hne : tys ≠ []) :
    (∃ c, ts.commonClass? tys = some c) ↔ ∃ c, ts.IsNearest tys c := by
  constructor
  · rintro ⟨c, hc⟩
    exact ⟨c, (isPreferred_of_commonClass? hc).toIsNearest⟩
  · rintro ⟨c, hc⟩
    rw [commonClass?_eq, ← Option.isSome_iff_exists, Option.isSome_or, Bool.or_eq_true]
    refine .inr ?_
    cases hnearest : ts.nearestClasses tys with
    | nil => simp [← mem_nearestClasses hne, hnearest] at hc
    | cons d rest => rfl

/-- Where there is a class above all the types one is taken. -/
theorem exists_commonClass? (hclasses : ∀ c, ¬ Relation.TransGen ts.Inherits c c) (hne : tys ≠ [])
    (hc : ts.IsCommon tys c) : ∃ d, ts.commonClass? tys = some d :=
  (exists_commonClass?_iff hne).mpr (exists_isNearest hclasses hne hc)

/-! ### Lists with the same types -/

theorem IsCommon.of_mem_iff (h : ∀ t, t ∈ tys ↔ t ∈ tys') (hc : ts.IsCommon tys c) :
    ts.IsCommon tys' c := fun t ht => hc t ((h t).mpr ht)

theorem IsNearest.of_mem_iff (h : ∀ t, t ∈ tys ↔ t ∈ tys') (hc : ts.IsNearest tys c) :
    ts.IsNearest tys' c where
  above := hc.above.of_mem_iff h
  eq_of_mem d hd := hc.eq_of_mem d (hd.of_mem_iff fun t => (h t).symm)

theorem IsPreferred.of_mem_iff (h : ∀ t, t ∈ tys ↔ t ∈ tys') (hc : ts.IsPreferred tys c) :
    ts.IsPreferred tys' c where
  toIsNearest := hc.toIsNearest.of_mem_iff h
  isInterface := fun ⟨d, hd, hclass⟩ =>
    hc.isInterface ⟨d, hd.of_mem_iff fun t => (h t).symm, hclass⟩

/-- Whether a class is taken does not depend on the order of the types. -/
theorem exists_commonClass?_of_mem_iff (h : ∀ t, t ∈ tys ↔ t ∈ tys')
    (hc : ts.commonClass? tys = some c) : ∃ d, ts.commonClass? tys' = some d := by
  obtain ⟨t, ht⟩ := List.exists_mem_of_ne_nil tys (ne_nil_of_commonClass? hc)
  refine (exists_commonClass?_iff (List.ne_nil_of_mem ((h t).mp ht))).mpr ⟨c, ?_⟩
  exact (isPreferred_of_commonClass? hc).toIsNearest.of_mem_iff h

theorem commonClass?_eq_none_of_mem_iff (h : ∀ t, t ∈ tys ↔ t ∈ tys')
    (hnone : ts.commonClass? tys = none) : ts.commonClass? tys' = none := by
  by_contra hsome
  obtain ⟨d, hd⟩ := Option.ne_none_iff_exists'.mp hsome
  obtain ⟨c, hc⟩ := exists_commonClass?_of_mem_iff (fun t => (h t).symm) hd
  simp [hnone] at hc

/-- Where one class only can be preferred, the order of the types makes no difference. -/
theorem commonClass?_eq_of_mem_iff (h : ∀ t, t ∈ tys ↔ t ∈ tys')
    (hunique : ∀ c d, ts.IsPreferred tys c → ts.IsPreferred tys d → c = d) :
    ts.commonClass? tys' = ts.commonClass? tys := by
  cases hc : ts.commonClass? tys with
  | none => exact commonClass?_eq_none_of_mem_iff h hc
  | some c =>
    obtain ⟨d, hd⟩ := exists_commonClass?_of_mem_iff h hc
    have hpreferred := (isPreferred_of_commonClass? hd).of_mem_iff fun t => (h t).symm
    rw [hd, hunique c d (isPreferred_of_commonClass? hc) hpreferred]

end Erasure.TypeSystem
