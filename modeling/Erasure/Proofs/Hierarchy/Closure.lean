/-
The closure of a class is what can be reached from it.

A closure can be found with a list of classes that grows while it is gone through and a set of those
in it (`Worklist`), or level by level (`classClosure`). Both come to the same list, in any hierarchy:
classes may extend themselves, or lead nowhere near the root class. The main statements:

* `inherits_iff`: what it means for a class to extend another directly.
* `Worklist.ends_classClosure`: going through the list ends, and the list is the closure.
* `FindsLevel.next`, `FindsLevel.closureWithin`: what has been found when so many levels have been.
* `classClosure_exact`: which classes a closure lists, and in what order.
-/
import Mathlib.Order.Lattice.Nat
import Erasure.Proofs.Canonical.Session
import Erasure.Proofs.Lookup.Search

namespace Erasure

namespace TypeSystem

open Relation (ReflTransGen)

variable {ts : TypeSystem} {c d e : ClassId} {n m : Nat}

/-! ### Direct supertypes -/

/-- The type is the class, or an instantiation of it. -/
def IsTypeOf (ts : TypeSystem) (ty : TypeId) (c : ClassId) : Prop :=
  ts.kind ty = .raw c ∨ ∃ s outer, ts.kind ty = .inst c s outer

/-- The first class declares a type of the second one as its superclass or as an interface. An
interface that declares no interfaces extends the root class. -/
inductive ExtendsDirectly (ts : TypeSystem) (c : ClassId) : ClassId → Prop
  | superclass {ty : TypeId} {d : ClassId} : (ts.classDef c).superclass = some ty →
      ts.IsTypeOf ty d → ExtendsDirectly ts c d
  | interface {ty : TypeId} {d : ClassId} : ty ∈ (ts.classDef c).interfaces →
      ts.IsTypeOf ty d → ExtendsDirectly ts c d
  | root : ts.isInterface c = true → (ts.classDef c).interfaces = [] →
      ExtendsDirectly ts c .object

/-- The second class is so many direct supertypes above the first one. -/
inductive IsLevelsAbove (ts : TypeSystem) (c : ClassId) : Nat → ClassId → Prop
  | self : IsLevelsAbove ts c 0 c
  | step {n : Nat} {d e : ClassId} : IsLevelsAbove ts c n d → ts.ExtendsDirectly d e →
      IsLevelsAbove ts c (n + 1) e

/-- The least number of direct supertypes that lead from the first class to the second one. -/
noncomputable def distance (ts : TypeSystem) (c d : ClassId) : Nat :=
  sInf {n | ts.IsLevelsAbove c n d}

theorem classOf?_eq_some_iff {ty : TypeId} : ts.classOf? ty = some c ↔ ts.IsTypeOf ty c := by
  unfold classOf? IsTypeOf
  cases ts.kind ty <;> simp [TypeKind.class?]

/-- The superclasses of a class are those that it extends directly. -/
theorem inherits_iff (hobject : ts.kind .object = .raw .object) :
    ts.Inherits c d ↔ ts.ExtendsDirectly c d := by
  have hroot : ts.IsTypeOf .object d ↔ d = .object := by
    simp [IsTypeOf, hobject, eq_comm]
  rw [Inherits, superclasses, List.mem_filterMap]
  simp only [declaredSupertypes, classOf?_eq_some_iff, List.mem_append, Option.mem_toList]
  constructor
  · rintro ⟨ty, (hty | hty) | hty, hd⟩
    · exact .superclass hty hd
    · exact .interface hty hd
    · split at hty
      case isTrue hinterface =>
        obtain rfl := List.mem_singleton.mp hty
        obtain rfl := hroot.mp hd
        rw [Bool.and_eq_true, List.isEmpty_iff] at hinterface
        exact .root hinterface.1 hinterface.2
      case isFalse => exact absurd hty List.not_mem_nil
  · intro h
    cases h with
    | superclass hty hd => exact ⟨_, .inl (.inl hty), hd⟩
    | interface hty hd => exact ⟨_, .inl (.inr hty), hd⟩
    | root hinterface hnone =>
      refine ⟨.object, .inr ?_, hroot.mpr rfl⟩
      exact if_pos (Bool.and_eq_true_iff.mpr ⟨hinterface, List.isEmpty_iff.mpr hnone⟩) ▸
        List.mem_cons_self

/-! ### The list that grows while it is gone through -/

/-- The classes found, in order and as a set, and how many of them have been gone through. -/
structure Worklist where
  order : List ClassId
  seen : Finset ClassId
  next : Nat

namespace Worklist

/-- Nothing has been gone through, and a class has been found. -/
def start (c : ClassId) : Worklist := ⟨[c], {c}, 0⟩

/-- Appends a class that has not been seen. -/
def visit (w : Worklist) (c : ClassId) : Worklist :=
  if c ∈ w.seen then w else { w with order := w.order ++ [c], seen := insert c w.seen }

/-- Visits the class that a type is of, if it is of a class. -/
def visitType (ts : TypeSystem) (w : Worklist) (ty : TypeId) : Worklist :=
  match ts.classOf? ty with
  | some c => w.visit c
  | none => w

/-- Goes through one class more. -/
def round (ts : TypeSystem) (w : Worklist) (current : ClassId) : Worklist :=
  (ts.declaredSupertypes current).foldl (visitType ts) { w with next := w.next + 1 }

/-- Going through the list from the first state on ends in the second one. -/
inductive Ends (ts : TypeSystem) : Worklist → Worklist → Prop
  | stop {w : Worklist} : ¬ w.next < w.order.length → Ends ts w w
  | round {w w' : Worklist} (h : w.next < w.order.length) : Ends ts (w.round ts w.order[w.next]) w' →
      Ends ts w w'

theorem Ends.unique {w w₁ w₂ : Worklist} (h : Ends ts w w₁) (h' : Ends ts w w₂) : w₁ = w₂ := by
  induction h with
  | stop hge =>
    cases h' with
    | stop => rfl
    | round hlt => exact absurd hlt hge
  | round hlt _ ih =>
    cases h' with
    | stop hge => exact absurd hlt hge
    | round _ hrest => exact ih hrest

/-- The set consists of the classes in the list. -/
def ofOrder (order : List ClassId) (next : Nat) : Worklist := ⟨order, order.toFinset, next⟩

theorem visit_ofOrder (order : List ClassId) (next : Nat) (c : ClassId) :
    (ofOrder order next).visit c = ofOrder (appendNew order [c]) next := by
  show (if c ∈ order.toFinset then _ else _) =
    ofOrder (if c ∈ order then order else order ++ [c]) next
  by_cases hc : c ∈ order
  · rw [if_pos hc, if_pos (List.mem_toFinset.mpr hc)]
  · rw [if_neg hc, if_neg (mt List.mem_toFinset.mp hc), ofOrder, ofOrder, List.toFinset_append,
      List.toFinset_cons, List.toFinset_nil, Finset.union_comm]
    rfl

/-- In a round the superclasses of the class are appended that were not found before. -/
theorem round_ofOrder (order : List ClassId) (next : Nat) (c : ClassId) :
    (ofOrder order next).round ts c = ofOrder (appendNew order (ts.superclasses c)) (next + 1) := by
  show (ts.declaredSupertypes c).foldl (visitType ts) (ofOrder order (next + 1)) = _
  rw [superclasses]
  generalize ts.declaredSupertypes c = sups
  induction sups generalizing order with
  | nil => rfl
  | cons ty sups ih =>
    rw [List.foldl_cons, visitType]
    cases hclass : ts.classOf? ty with
    | none => rw [List.filterMap_cons_none hclass, ← ih]
    | some d =>
      rw [List.filterMap_cons_some hclass, ← List.singleton_append, appendNew_append, ← ih,
        ← visit_ofOrder]

/-- Rounds for a stretch of the list append the superclasses of its classes, in order. -/
theorem Ends.of_rounds {level rest order : List ClassId} {next : Nat} {w : Worklist}
    (hlevel : order.drop next = level ++ rest)
    (h : Ends ts (ofOrder (appendNew order (level.flatMap ts.superclasses)) (next + level.length))
      w) : Ends ts (ofOrder order next) w := by
  induction level generalizing order next rest with
  | nil => exact h
  | cons c level ih =>
    have hlt : next < order.length := by
      by_contra hge
      rw [List.drop_eq_nil_of_le (Nat.le_of_not_lt hge)] at hlevel
      cases hlevel
    rw [List.drop_eq_getElem_cons hlt, List.cons_append, List.cons_eq_cons] at hlevel
    obtain ⟨hc, hlevel⟩ := hlevel
    obtain ⟨new, hnew, -⟩ := exists_appendNew_eq order (ts.superclasses c)
    -- What a round appends comes behind the rest of the stretch.
    have hbehind : (order ++ new).drop (next + 1) = level ++ (rest ++ new) := by
      rw [List.drop_append_of_le_length (Nat.succ_le_of_lt hlt), hlevel, List.append_assoc]
    refine .round hlt ?_
    show Ends ts ((ofOrder order next).round ts order[next]) w
    rw [hc, round_ofOrder]
    refine ih (hnew.symm ▸ hbehind) ?_
    rwa [← appendNew_append, ← List.flatMap_cons, Nat.add_right_comm]

/-- Rounds for the last level append the level above it. -/
theorem Ends.of_level {done level new : List ClassId} {w : Worklist}
    (hnew : appendNew (done ++ level) (level.flatMap ts.superclasses) = done ++ level ++ new)
    (h : Ends ts (ofOrder (done ++ level ++ new) (done ++ level).length) w) :
    Ends ts (ofOrder (done ++ level) done.length) w := by
  have hlevel : (done ++ level).drop done.length = level ++ [] := by
    rw [List.drop_left, List.append_nil]
  refine .of_rounds hlevel ?_
  rwa [hnew, ← List.length_append]

/-- Where no level is above the last one, going through the list ends in what there is. -/
theorem Ends.of_last {done level : List ClassId}
    (hnone : appendNew (done ++ level) (level.flatMap ts.superclasses) = done ++ level) :
    Ends ts (ofOrder (done ++ level) done.length)
      (ofOrder (done ++ level) (done ++ level).length) := by
  refine .of_level (hnone.trans (List.append_nil _).symm) ?_
  rw [List.append_nil]
  exact .stop (Nat.lt_irrefl _)

/-- From where the last level begins, going through the list ends in what the levels above it add. -/
theorem ends_closureWithin {levels : Nat} {done level : List ClassId}
    (henough : ts.EnoughLevels levels (done ++ level) level) :
    ∃ next, Ends ts (ofOrder (done ++ level) done.length)
      (ofOrder (ts.closureWithin levels (done ++ level) level) next) := by
  induction levels generalizing done level with
  | zero =>
    refine ⟨_, .of_last ?_⟩
    rw [List.flatMap_eq_nil_iff.mpr fun c hc => henough.superclasses_eq_nil hc]
    rfl
  | succ levels ih =>
    obtain ⟨new, heq, hnew, hstep⟩ := exists_closureWithin_succ ts (done ++ level) level
    rw [hstep]
    by_cases hnone : new = []
    · rw [if_pos hnone]
      rw [hnone, List.append_nil] at heq
      exact ⟨_, .of_last heq⟩
    · rw [if_neg hnone]
      obtain ⟨next, h⟩ := ih (henough.next hnone hnew)
      exact ⟨next, .of_level heq h⟩

/-- Going through the list ends, and the list is the closure. -/
theorem ends_classClosure (ts : TypeSystem) (c : ClassId) :
    ∃ w, Ends ts (start c) w ∧ w.order = ts.classClosure c := by
  have henough : ts.EnoughLevels ts.classes.size ([] ++ [c]) [c] := .start (le_refl _) c
  obtain ⟨next, h⟩ := ends_closureWithin henough
  exact ⟨_, h, rfl⟩

end Worklist

/-! ### Distance -/

theorem IsLevelsAbove.distance_le (h : ts.IsLevelsAbove c n d) : ts.distance c d ≤ n := Nat.sInf_le h

theorem IsLevelsAbove.distance_eq (h : ts.IsLevelsAbove c n d)
    (hleast : ∀ m < n, ¬ ts.IsLevelsAbove c m d) : ts.distance c d = n := by
  have hnear : ts.IsLevelsAbove c (ts.distance c d) d :=
    Nat.sInf_mem (s := {n | ts.IsLevelsAbove c n d}) ⟨n, h⟩
  exact Nat.le_antisymm h.distance_le (Nat.le_of_not_lt fun hlt => hleast _ hlt hnear)

/-- What has been found when the classes at most `n` levels above a class have been: these classes
in the order of their distance, each once, and those at that very distance as the last level. -/
structure FindsLevel (ts : TypeSystem) (c : ClassId) (n : Nat) (seen level : List ClassId) :
    Prop where
  head? : seen.head? = some c
  nodup : seen.Nodup
  mem_seen_iff : ∀ {d}, d ∈ seen ↔ ∃ m ≤ n, ts.IsLevelsAbove c m d
  mem_level_iff : ∀ {d}, d ∈ level ↔
    ts.IsLevelsAbove c n d ∧ ∀ m < n, ¬ ts.IsLevelsAbove c m d
  sorted : seen.Pairwise fun d e => ts.distance c d ≤ ts.distance c e

namespace FindsLevel

variable {seen level new : List ClassId}

theorem start (ts : TypeSystem) (c : ClassId) : ts.FindsLevel c 0 [c] [c] where
  head? := rfl
  nodup := List.nodup_singleton c
  mem_seen_iff := by
    intro d
    rw [List.mem_singleton]
    constructor
    · rintro rfl
      exact ⟨0, le_refl 0, .self⟩
    · rintro ⟨m, hm, h⟩
      obtain rfl := Nat.le_zero.mp hm
      cases h
      rfl
  mem_level_iff := by
    intro d
    rw [List.mem_singleton]
    constructor
    · rintro rfl
      exact ⟨.self, nofun⟩
    · rintro ⟨h, -⟩
      cases h
      rfl
  sorted := List.pairwise_singleton _ c

/-- What a class below the last level extends has been seen. -/
theorem closed (hobject : ts.kind .object = .raw .object) (h : ts.FindsLevel c n seen level)
    (hd : d ∈ seen) (hlevel : d ∉ level) (hstep : ts.Inherits d e) : e ∈ seen := by
  obtain ⟨m, hm, hmd⟩ := h.mem_seen_iff.mp hd
  have hlower : ∃ k < n, ts.IsLevelsAbove c k d := by
    by_contra hleast
    obtain rfl : m = n := Nat.le_antisymm hm (Nat.le_of_not_lt fun hlt => hleast ⟨m, hlt, hmd⟩)
    exact hlevel (h.mem_level_iff.mpr ⟨hmd, fun k hk hkd => hleast ⟨k, hk, hkd⟩⟩)
  obtain ⟨k, hk, hkd⟩ := hlower
  exact h.mem_seen_iff.mpr ⟨k + 1, hk, .step hkd ((inherits_iff hobject).mp hstep)⟩

section Next

variable (hobject : ts.kind .object = .raw .object) (h : ts.FindsLevel c n seen level)
  (heq : appendNew seen (level.flatMap ts.superclasses) = seen ++ new)
  (hnew : ∀ d ∈ new, d ∉ seen ∧ ∃ e ∈ level, d ∈ ts.superclasses e)
include hobject h hnew

/-- New classes are one level further up, since all that are nearer have been seen. -/
theorem isLeast_of_new (hd : d ∈ new) :
    ts.IsLevelsAbove c (n + 1) d ∧ ∀ m < n + 1, ¬ ts.IsLevelsAbove c m d := by
  obtain ⟨hseen, e, he, hsuper⟩ := hnew d hd
  refine ⟨.step (h.mem_level_iff.mp he).1 ((inherits_iff hobject).mp hsuper), fun m hm hmd => ?_⟩
  exact hseen (h.mem_seen_iff.mpr ⟨m, Nat.le_of_lt_succ hm, hmd⟩)

include heq

theorem mem_append_iff : d ∈ seen ++ new ↔ ∃ m ≤ n + 1, ts.IsLevelsAbove c m d := by
  constructor
  · intro hd
    rcases List.mem_append.mp hd with hd | hd
    · obtain ⟨m, hm, hmd⟩ := h.mem_seen_iff.mp hd
      exact ⟨m, Nat.le_succ_of_le hm, hmd⟩
    · exact ⟨n + 1, le_refl _, (h.isLeast_of_new hobject hnew hd).1⟩
  · rintro ⟨_, hm, hmd⟩
    cases hmd with
    | self => exact List.mem_append_left _ (h.mem_seen_iff.mpr ⟨0, Nat.zero_le n, .self⟩)
    | @step m e _ he hstep =>
      have hseen : e ∈ seen := h.mem_seen_iff.mpr ⟨m, Nat.le_of_succ_le_succ hm, he⟩
      rw [← heq]
      exact mem_appendNew_of_inherits (fun a ha hlevel b hb => h.closed hobject ha hlevel hb) hseen
        ((inherits_iff hobject).mpr hstep)

/-- The classes that those of the last level extend are the next level, but for those seen before. -/
theorem next : ts.FindsLevel c (n + 1) (seen ++ new) new where
  head? := by rw [List.head?_append, h.head?, Option.some_or]
  nodup := heq ▸ nodup_appendNew h.nodup _
  mem_seen_iff := h.mem_append_iff hobject heq hnew
  mem_level_iff := by
    intro d
    refine ⟨h.isLeast_of_new hobject hnew, fun ⟨hd, hleast⟩ => ?_⟩
    have hmem := (h.mem_append_iff hobject heq hnew).mpr ⟨n + 1, le_refl _, hd⟩
    refine (List.mem_append.mp hmem).resolve_left fun hseen => ?_
    obtain ⟨m, hm, hmd⟩ := h.mem_seen_iff.mp hseen
    exact hleast m (Nat.lt_succ_of_le hm) hmd
  sorted := by
    have hfar : ∀ {d}, d ∈ new → ts.distance c d = n + 1 := fun hd =>
      have hleast := h.isLeast_of_new hobject hnew hd
      hleast.1.distance_eq hleast.2
    refine List.pairwise_append.mpr ⟨h.sorted, ?_, fun d hd e he => ?_⟩
    · refine List.pairwise_of_forall_mem_list fun d hd e he => ?_
      rw [hfar hd, hfar he]
    · obtain ⟨m, hm, hmd⟩ := h.mem_seen_iff.mp hd
      rw [hfar he]
      exact hmd.distance_le.trans (Nat.le_succ_of_le hm)

end Next

/-- However many levels are looked at, those found are complete up to some distance. -/
theorem closureWithin (hobject : ts.kind .object = .raw .object) (h : ts.FindsLevel c n seen level)
    (levels : Nat) : ∃ n level', ts.FindsLevel c n (ts.closureWithin levels seen level) level' := by
  induction levels generalizing n seen level with
  | zero => exact ⟨n, level, h⟩
  | succ levels ih =>
    obtain ⟨new, heq, hnew, hstep⟩ := exists_closureWithin_succ ts seen level
    rw [hstep]
    split
    · exact ⟨n, level, h⟩
    · exact ih (h.next hobject heq hnew)

end FindsLevel

/-! ### Closures -/

/-- In every hierarchy going through the list that grows ends, and it finds the closure. The closure
begins with the class itself and lists each class once. It consists of the classes that can be reached
from this one by way of direct supertypes, in the order of their distance from it. -/
theorem classClosure_exact (hobject : ts.kind .object = .raw .object) (c : ClassId) :
    (∃ w, Worklist.Ends ts (.start c) w) ∧
      (∀ w, Worklist.Ends ts (.start c) w → w.order = ts.classClosure c) ∧
      (ts.classClosure c).head? = some c ∧ (ts.classClosure c).Nodup ∧
      (∀ d, d ∈ ts.classClosure c ↔ ReflTransGen ts.ExtendsDirectly c d) ∧
      (ts.classClosure c).Pairwise fun d e => ts.distance c d ≤ ts.distance c e := by
  obtain ⟨w, hends, horder⟩ := Worklist.ends_classClosure ts c
  obtain ⟨n, level, hfinds⟩ := (FindsLevel.start ts c).closureWithin hobject ts.classes.size
  have hinherits : ts.Inherits = ts.ExtendsDirectly :=
    funext fun d => funext fun e => propext (inherits_iff hobject)
  refine ⟨⟨w, hends⟩, ?_, hfinds.head?, hfinds.nodup, fun d => ?_, hfinds.sorted⟩
  · intro w' hends'
    rw [← hends.unique hends', horder]
  · rw [mem_classClosure_iff, hinherits]

end TypeSystem

namespace Canonicalizer

open Relation (ReflTransGen)

/-- A session with two classes that extend each other, one of them with an interface. -/
def knotSession : Canonicalizer :=
  let s := (fresh .initial).declared (.declareClass "A" {})
  let s := (s.declared (.declareClass "B" {})).declared (.declareClass "I" { isInterface := true })
  let s := ((s.asked (.rawClass ⟨2⟩)).asked (.rawClass ⟨3⟩)).asked (.rawClass ⟨4⟩)
  let s := (s.declared (.setSuperclass ⟨2⟩ ⟨14⟩)).declared (.setSuperclass ⟨3⟩ ⟨13⟩)
  s.declared (.addInterface ⟨3⟩ ⟨15⟩)

/-- The first class has the second one next to it in its closure, and only the interface leads to the
root class. -/
theorem classClosure_exact_knot :
    let ts := knotSession.types
    ts.kind .object = .raw .object ∧
      (∃ w, TypeSystem.Worklist.Ends ts (.start ⟨2⟩) w ∧ w.order = [⟨2⟩, ⟨3⟩, ⟨4⟩, .object]) ∧
      ts.classClosure ⟨2⟩ = [⟨2⟩, ⟨3⟩, ⟨4⟩, .object] ∧ (ts.classClosure ⟨2⟩).Nodup ∧
      ReflTransGen ts.ExtendsDirectly ⟨2⟩ .object ∧ ¬ ReflTransGen ts.ExtendsDirectly ⟨2⟩ .string ∧
      ts.distance ⟨2⟩ ⟨4⟩ ≤ ts.distance ⟨2⟩ .object := by
  intro ts
  have hstate : ts.kind .object = .raw .object ∧
      ts.classClosure ⟨2⟩ = [⟨2⟩, ⟨3⟩, ⟨4⟩, .object] := by decide +kernel
  obtain ⟨hobject, hclosure⟩ := hstate
  obtain ⟨⟨w, hends⟩, horder, -, hnodup, hmem, hsorted⟩ :=
    TypeSystem.classClosure_exact hobject ⟨2⟩
  rw [hclosure] at hsorted horder hmem
  refine ⟨hobject, ⟨w, hends, horder w hends⟩, hclosure, hnodup, (hmem _).mp (by decide),
    fun h => ?_, ?_⟩
  · exact absurd ((hmem _).mpr h) (by decide)
  · simp only [List.pairwise_cons] at hsorted
    exact hsorted.2.2.1 _ List.mem_cons_self

end Canonicalizer

end Erasure
