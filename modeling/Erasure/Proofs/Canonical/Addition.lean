/-
Type systems with more declarations.

`Adds` says that a type system was extended by new classes, members, variables, names and types,
while the classes that its types mention and the variables it declared are what they were, but for
members declared in addition. `Continues` says what erasure observes of that. The main statements:

* `classClosure_eq_of_le`, `enclosing_eq_of_le`: closures and enclosing classes end by themselves.
* `Adds.continues`: bounds, closures, joins, enclosing instances and the type parameters in scope
  are what they were.
-/
import Erasure.Proofs.Canonical.Depth
import Erasure.Proofs.TypeSystem.Lookup

namespace Erasure.TypeSystem

variable {ts us vs : TypeSystem}

/-! ### What a type system mentions -/

/-- Some type is the class or an instantiation of it. -/
def Mentions (ts : TypeSystem) (c : ClassId) : Prop :=
  ∃ ty, ts.pool.Has ty ∧ ts.classOf? ty = some c

theorem mentions_raw {ty : TypeId} {c : ClassId} (h : ts.pool.HasKind ty (.raw c)) :
    ts.Mentions c := ⟨ty, h.has, by rw [classOf?, show ts.kind ty = _ from h.kind_eq]; rfl⟩

theorem mentions_inst {ty : TypeId} {c : ClassId} {s : SubstId} {outer : Option TypeId}
    (h : ts.pool.HasKind ty (.inst c s outer)) : ts.Mentions c :=
  ⟨ty, h.has, by rw [classOf?, show ts.kind ty = _ from h.kind_eq]; rfl⟩

theorem classOf?_of_le (hle : ts ≤ us) {ty : TypeId} (hty : ts.pool.Has ty) :
    us.classOf? ty = ts.classOf? ty := by
  rw [classOf?, kind_of_le hle hty, classOf?]

theorem Mentions.of_le (hle : ts ≤ us) {c : ClassId} (h : ts.Mentions c) : us.Mentions c := by
  obtain ⟨ty, hty, hc⟩ := h
  exact ⟨ty, hty.of_le hle.1, (classOf?_of_le hle hty).trans hc⟩

theorem mentions_superclass (hts : ts.Valid) {c d : ClassId} (h : d ∈ ts.superclasses c) :
    ts.Mentions d := by
  obtain ⟨ty, hty, hd⟩ := List.mem_filterMap.mp h
  exact ⟨ty, hts.has_declaredSupertypes hty, hd⟩

theorem mentions_outer (hts : ts.Valid) {c d : ClassId} (h : ts.outerClass? c = some d) :
    ts.Mentions d := by
  obtain ⟨ty, hty, hd⟩ := Option.bind_eq_some_iff.mp h
  exact ⟨ty, (hts.classes c).outer ty hty, hd⟩

/-- The types mention declared variables only. -/
def DeclaresVars (ts : TypeSystem) : Prop :=
  ∀ {ty v}, ts.pool.HasKind ty (.var v) → v.index < ts.typeVars.size

/-! ### Bounds end -/

theorem followBounds_of_le {steps steps' : Nat} (hle : steps ≤ steps') {ty u : TypeId}
    (h : ts.followBounds steps ty = some u) : ts.followBounds steps' ty = some u := by
  induction steps generalizing steps' ty with
  | zero => cases h
  | succ steps ih =>
    obtain ⟨k, rfl⟩ := Nat.exists_eq_add_of_le hle
    rw [Nat.add_right_comm]
    unfold followBounds at h ⊢
    split at h
    · exact ih (by omega) h
    · exact h

/-- Where no variable is reached again from its own bound, the bounds of declared variables end. -/
theorem exists_followBounds (hts : ts.Valid) (hacyclic : ts.AcyclicBounds) {steps : Nat} {ty : TypeId}
    (hty : ts.pool.Has ty)
    (hvars : ∀ {u v}, Relation.ReflTransGen ts.LooksInto ty u → ts.pool.HasKind u (.var v) →
      v.index < ts.typeVars.size)
    (hsteps : (reached ts.LooksInto ts.varMark ts.typeVars.size ty).card ≤ steps) :
    ∃ u, ts.followBounds (steps + 1) ty = some u := by
  induction steps generalizing ty with
  | zero =>
    unfold followBounds
    split
    case h_1 v hk =>
      have hkind := hty.hasKind_of_eq hk
      have := card_reached_lt_of_var hacyclic (.bound hkind) hkind (hvars .refl hkind)
      omega
    case h_2 => exact ⟨ty, rfl⟩
  | succ steps ih =>
    unfold followBounds
    split
    case h_1 v hk =>
      have hkind := hty.hasKind_of_eq hk
      have := card_reached_lt_of_var hacyclic (.bound hkind) hkind (hvars .refl hkind)
      exact ih (hts.bound v) (fun h => hvars (.head (.bound hkind) h)) (by omega)
    case h_2 => exact ⟨ty, rfl⟩

/-! ### Closures end -/

open Classical in
/-- The declared classes that are still to be seen. -/
noncomputable def unseen (ts : TypeSystem) (seen : List ClassId) : Finset Nat :=
  (Finset.range ts.classes.size).filter fun i => (⟨i⟩ : ClassId) ∉ seen

theorem mem_unseen {seen : List ClassId} {i : Nat} :
    i ∈ ts.unseen seen ↔ i < ts.classes.size ∧ (⟨i⟩ : ClassId) ∉ seen := by
  simp only [unseen, Finset.mem_filter, Finset.mem_range]

/-- Some class of the level is declared. -/
def HasDeclared (ts : TypeSystem) (level : List ClassId) : Prop :=
  ∃ c ∈ level, c.index < ts.classes.size

theorem superclasses_of_not_lt {c : ClassId} (h : ¬ c.index < ts.classes.size) :
    ts.superclasses c = [] := by
  rw [superclasses, declaredSupertypes, classDef_of_not_lt h]
  rfl

/-- Only declared classes have others above them. -/
theorem hasDeclared_of_superclass {level : List ClassId} {c d : ClassId} (hd : d ∈ level)
    (h : c ∈ ts.superclasses d) : ts.HasDeclared level := by
  refine ⟨d, hd, ?_⟩
  by_contra hge
  rw [superclasses_of_not_lt hge] at h
  exact absurd h List.not_mem_nil

/-- The classes above the classes of a level, without those seen before. -/
theorem exists_closureWithin_succ (ts : TypeSystem) (seen level : List ClassId) :
    ∃ new, appendNew seen (level.flatMap ts.superclasses) = seen ++ new ∧
      (∀ c ∈ new, c ∉ seen ∧ ∃ d ∈ level, c ∈ ts.superclasses d) ∧
      ∀ levels, ts.closureWithin (levels + 1) seen level =
        if new = [] then seen else ts.closureWithin levels (seen ++ new) new := by
  obtain ⟨new, heq, hnew⟩ := exists_appendNew_eq seen (level.flatMap ts.superclasses)
  refine ⟨new, heq, fun c hc => ⟨(hnew c hc).2, List.mem_flatMap.mp (hnew c hc).1⟩, ?_⟩
  intro levels
  rw [closureWithin, heq, List.drop_left]
  cases new with
  | nil => rfl
  | cons c new => rfl

/-- There are as many levels left as declared classes to be seen, and one more if the level shows a
declared class. -/
structure EnoughLevels (ts : TypeSystem) (levels : Nat) (seen level : List ClassId) : Prop where
  card_le : (ts.unseen seen).card ≤ levels
  card_lt : ts.HasDeclared level → (ts.unseen seen).card < levels

namespace EnoughLevels

variable {levels : Nat} {seen level : List ClassId}

theorem start (h : ts.classes.size ≤ levels) (c : ClassId) : ts.EnoughLevels levels [c] [c] where
  card_le := (Finset.card_filter_le _ _).trans ((Finset.card_range _).le.trans h)
  card_lt := by
    rintro ⟨d, hd, hlt⟩
    obtain rfl := List.mem_singleton.mp hd
    have hsubset : ts.unseen [d] ⊂ Finset.range ts.classes.size := by
      refine ⟨Finset.filter_subset _ _, fun h => ?_⟩
      exact (mem_unseen.mp (h (Finset.mem_range.mpr hlt))).2 List.mem_cons_self
    exact (Finset.card_lt_card hsubset).trans_le ((Finset.card_range _).le.trans h)

/-- Without levels left there is nothing above the level. -/
theorem superclasses_eq_nil (h : ts.EnoughLevels 0 seen level) {c : ClassId} (hc : c ∈ level) :
    ts.superclasses c = [] :=
  List.eq_nil_iff_forall_not_mem.mpr fun _ hd =>
    absurd (h.card_lt (hasDeclared_of_superclass hc hd)) (Nat.not_lt_zero _)

/-- The next level leaves enough of them. -/
theorem next (h : ts.EnoughLevels (levels + 1) seen level) {new : List ClassId} (hne : new ≠ [])
    (hnew : ∀ c ∈ new, c ∉ seen ∧ ∃ d ∈ level, c ∈ ts.superclasses d) :
    ts.EnoughLevels levels (seen ++ new) new := by
  have hsubset : ts.unseen (seen ++ new) ⊆ ts.unseen seen := fun i hi => by
    obtain ⟨hlt, hnot⟩ := mem_unseen.mp hi
    exact mem_unseen.mpr ⟨hlt, fun h => hnot (List.mem_append_left _ h)⟩
  have hfewer : (ts.unseen seen).card ≤ levels := by
    obtain ⟨c, hc⟩ := List.exists_mem_of_ne_nil new hne
    obtain ⟨-, d, hd, hsuper⟩ := hnew c hc
    exact Nat.le_of_lt_succ (h.card_lt (hasDeclared_of_superclass hd hsuper))
  refine ⟨(Finset.card_le_card hsubset).trans hfewer, ?_⟩
  rintro ⟨c, hc, hlt⟩
  refine (Finset.card_lt_card ⟨hsubset, fun h => ?_⟩).trans_le hfewer
  have hmem := h (mem_unseen.mpr ⟨hlt, (hnew c hc).1⟩)
  exact (mem_unseen.mp hmem).2 (List.mem_append_right _ hc)

end EnoughLevels

/-- A level more makes no difference when there are enough of them. -/
theorem closureWithin_succ_eq {levels : Nat} {seen level : List ClassId}
    (h : ts.EnoughLevels levels seen level) :
    ts.closureWithin (levels + 1) seen level = ts.closureWithin levels seen level := by
  induction levels generalizing seen level with
  | zero =>
    obtain ⟨new, -, hnew, hstep⟩ := exists_closureWithin_succ ts seen level
    rw [hstep, closureWithin]
    refine if_pos (List.eq_nil_iff_forall_not_mem.mpr fun c hc => ?_)
    obtain ⟨-, d, hd, hsuper⟩ := hnew c hc
    exact List.not_mem_nil (h.superclasses_eq_nil hd ▸ hsuper)
  | succ levels ih =>
    obtain ⟨new, -, hnew, hstep⟩ := exists_closureWithin_succ ts seen level
    rw [hstep, hstep]
    by_cases hnone : new = []
    · rw [if_pos hnone, if_pos hnone]
    · rw [if_neg hnone, if_neg hnone]
      exact ih (h.next hnone hnew)

/-- More levels than there are classes make no difference. -/
theorem closureWithin_eq_classClosure {levels : Nat} (h : ts.classes.size ≤ levels) (c : ClassId) :
    ts.closureWithin levels [c] [c] = ts.classClosure c := by
  induction levels, h using Nat.le_induction with
  | base => rfl
  | succ levels hle ih => rw [closureWithin_succ_eq (.start hle c), ih]

/-! ### Enclosing classes end -/

/-- More steps than there are enclosing classes make no difference. -/
theorem enclosingWithin_succ_eq (hacyclic : ts.Acyclic) {depth : Nat} {c : ClassId}
    (h : (reached (fun c d => ts.outerClass? c = some d) classMark ts.classes.size c).card < depth) :
    ts.enclosingWithin (depth + 1) c = ts.enclosingWithin depth c := by
  induction depth generalizing c with
  | zero => exact absurd h (Nat.not_lt_zero _)
  | succ depth ih =>
    rw [enclosingWithin, enclosingWithin]
    cases houter : (ts.classDef c).outer.bind ts.classOf? with
    | none => rfl
    | some d =>
      have hstep : ts.outerClass? c = some d := houter
      have hlt : c.index < ts.classes.size := by
        by_contra hge
        rw [classDef_of_not_lt hge] at houter
        cases houter
      have hfewer := card_reached_lt (n := ts.classes.size) classMark hstep (hacyclic.enclosing c)
        hlt rfl fun x hx => congrArg ClassId.mk hx
      exact congrArg (c :: ·) (ih (by omega))

theorem enclosingWithin_eq_enclosing (hacyclic : ts.Acyclic) {depth : Nat}
    (h : ts.classes.size < depth) (c : ClassId) :
    ts.enclosingWithin depth c = ts.enclosing c := by
  induction depth, h using Nat.le_induction with
  | base => rfl
  | succ depth hle ih =>
    rw [enclosingWithin_succ_eq hacyclic (Nat.lt_of_le_of_lt (card_reached_bound ..) hle), ih]

/-! ### Mentioned classes -/

theorem mentions_closureWithin (hts : ts.Valid) {levels : Nat} {seen level : List ClassId}
    (hseen : ∀ c ∈ seen, ts.Mentions c) :
    ∀ c ∈ ts.closureWithin levels seen level, ts.Mentions c := by
  induction levels generalizing seen level with
  | zero => exact hseen
  | succ levels ih =>
    obtain ⟨new, -, hnew, hstep⟩ := exists_closureWithin_succ ts seen level
    rw [hstep]
    split
    · exact hseen
    · refine ih fun c hc => ?_
      rcases List.mem_append.mp hc with hc | hc
      · exact hseen c hc
      · obtain ⟨-, d, -, hsuper⟩ := hnew c hc
        exact mentions_superclass hts hsuper

theorem mentions_erasedClosure (hts : ts.Valid) {ty : TypeId} {c : ClassId}
    (hty : ts.pool.Has ty) (h : c ∈ ts.erasedClosure ty) : ts.Mentions c := by
  unfold erasedClosure at h
  split at h
  · rename_i d hd
    refine mentions_closureWithin hts (fun e he => ?_) c h
    exact List.mem_singleton.mp he ▸ ⟨_, has_boundErasure hts hty, hd⟩
  · exact List.mem_singleton.mp h ▸ mentions_raw hts.object

theorem mentions_enclosingWithin (hts : ts.Valid) {depth : Nat} {c d : ClassId}
    (hc : ts.Mentions c) (h : d ∈ ts.enclosingWithin depth c) : ts.Mentions d := by
  induction depth generalizing c with
  | zero => exact absurd h List.not_mem_nil
  | succ depth ih =>
    rw [enclosingWithin] at h
    split at h
    · rename_i outer houter
      rcases List.mem_cons.mp h with rfl | h
      · exact hc
      · exact ih (mentions_outer hts houter) h
    · exact List.mem_singleton.mp h ▸ hc

theorem mentions_enclosing (hts : ts.Valid) {c d : ClassId} (hc : ts.Mentions c)
    (h : d ∈ ts.enclosing c) : ts.Mentions d := mentions_enclosingWithin hts hc h

/-! ### What continues -/

/-- Members that a class declares in addition. No instance was linked to them before. -/
def AreNew (ts : TypeSystem) (ms : List MemberId) : Prop :=
  ∀ m ∈ ms, ∀ n, ts.HasMember n → (ts.member n).decl ≠ m

/-- The type system has grown, and all that erasure observes of its types, and of the classes that
they mention, is what it was. Classes declare further members at most. -/
structure Continues (ts us : TypeSystem) : Prop extends Preserves ts us where
  name : ∀ {c}, ts.Mentions c → (us.classDef c).name = (ts.classDef c).name
  isInterface : ∀ {c}, ts.Mentions c → us.isInterface c = ts.isInterface c
  outer : ∀ {c}, ts.Mentions c → (us.classDef c).outer = (ts.classDef c).outer
  isGeneric : ∀ {c}, ts.Mentions c → us.isGeneric c = ts.isGeneric c
  typeParamsInScope : ∀ {c}, ts.Mentions c → us.typeParamsInScope c = ts.typeParamsInScope c
  members : ∀ {c}, ts.Mentions c →
    ∃ new, (us.classDef c).members = (ts.classDef c).members ++ new ∧ ts.AreNew new

theorem Continues.trans (h : Continues ts us) (h' : Continues us vs) : Continues ts vs where
  toPreserves := h.toPreserves.trans h'.toPreserves
  name hc := (h'.name (hc.of_le h.le)).trans (h.name hc)
  isInterface hc := (h'.isInterface (hc.of_le h.le)).trans (h.isInterface hc)
  outer hc := (h'.outer (hc.of_le h.le)).trans (h.outer hc)
  isGeneric hc := (h'.isGeneric (hc.of_le h.le)).trans (h.isGeneric hc)
  typeParamsInScope hc := (h'.typeParamsInScope (hc.of_le h.le)).trans (h.typeParamsInScope hc)
  members hc := by
    obtain ⟨new, hmembers, hnew⟩ := h.members hc
    obtain ⟨new', hmembers', hnew'⟩ := h'.members (hc.of_le h.le)
    refine ⟨new ++ new', by rw [hmembers', hmembers, List.append_assoc], fun m hm n hn => ?_⟩
    rcases List.mem_append.mp hm with hm | hm
    · exact hnew m hm n hn
    · exact member_of_le h.le hn ▸ hnew' m hm n (hn.of_le h.le)

theorem enclosing_of_extends (h : Extends ts us) (hts : ts.Valid) (c : ClassId) :
    us.enclosing c = ts.enclosing c := by
  have hwithin : ∀ depth c, us.enclosingWithin depth c = ts.enclosingWithin depth c := by
    intro depth
    induction depth with
    | zero => exact fun _ => rfl
    | succ depth ih =>
      intro c
      have houter : (ts.classDef c).outer.bind us.classOf? = (ts.classDef c).outer.bind ts.classOf? := by
        cases hc : (ts.classDef c).outer with
        | none => rfl
        | some ty => exact classOf?_of_le h.le ((hts.classes c).outer ty hc)
      rw [enclosingWithin, enclosingWithin, h.classDef_eq, houter]
      simp only [ih]
  rw [enclosing, enclosing, hwithin, h.classes_eq]

/-- Nothing that erasure observes changes without a declaration. -/
theorem Extends.continues (hts : ts.Valid) (h : Extends ts us) : Continues ts us where
  toPreserves := h.preserves hts
  name _ := by rw [h.classDef_eq]
  isInterface _ := by rw [isInterface, isInterface, h.classDef_eq]
  outer _ := by rw [h.classDef_eq]
  isGeneric _ := by
    rw [isGeneric, isGeneric, enclosing_of_extends h hts]
    simp only [h.classDef_eq]
  typeParamsInScope _ := by
    rw [typeParamsInScope, typeParamsInScope, enclosing_of_extends h hts]
    simp only [h.classDef_eq]
  members _ := ⟨[], by rw [h.classDef_eq, List.append_nil], fun _ hm => absurd hm List.not_mem_nil⟩

theorem Continues.refl (hts : ts.Valid) : Continues ts ts := (Extends.refl ts).continues hts

/-! ### Additions -/

/-- The type system was extended by new classes, variables, members, names and types. The variables
that it declares keep their bounds, and the classes that its types mention are what they were, but
for members declared in addition. -/
structure Adds (ts us : TypeSystem) : Prop where
  le : ts ≤ us
  classes_size : ts.classes.size ≤ us.classes.size
  typeVars_size : ts.typeVars.size ≤ us.typeVars.size
  bound : ∀ {v}, v.index < ts.typeVars.size → (us.typeVar v).bound = (ts.typeVar v).bound
  classDef : ∀ {c}, ts.Mentions c → ∃ new, ts.AreNew new ∧
    us.classDef c = { ts.classDef c with members := (ts.classDef c).members ++ new }

namespace Adds

variable (h : Adds ts us)
include h

theorem declaredSupertypes_eq {c : ClassId} (hc : ts.Mentions c) :
    us.declaredSupertypes c = ts.declaredSupertypes c := by
  obtain ⟨new, -, hdef⟩ := h.classDef hc
  rw [declaredSupertypes, hdef]
  rfl

theorem isInterface_eq {c : ClassId} (hc : ts.Mentions c) :
    us.isInterface c = ts.isInterface c := by
  obtain ⟨new, -, hdef⟩ := h.classDef hc
  rw [TypeSystem.isInterface, hdef]
  rfl

theorem outer_eq {c : ClassId} (hc : ts.Mentions c) :
    (us.classDef c).outer = (ts.classDef c).outer := by
  obtain ⟨new, -, hdef⟩ := h.classDef hc
  rw [hdef]

theorem typeParams_eq {c : ClassId} (hc : ts.Mentions c) :
    (us.classDef c).typeParams = (ts.classDef c).typeParams := by
  obtain ⟨new, -, hdef⟩ := h.classDef hc
  rw [hdef]

variable (hts : ts.Valid)
include hts

theorem followBounds_eq (hvars : ts.DeclaresVars) (steps : Nat) {ty : TypeId}
    (hty : ts.pool.Has ty) : us.followBounds steps ty = ts.followBounds steps ty := by
  induction steps generalizing ty with
  | zero => rfl
  | succ steps ih =>
    unfold followBounds
    rw [kind_of_le h.le hty]
    split
    · rename_i v hk
      have hkind := hty.hasKind_of_eq hk
      rw [h.bound (hvars hkind), ih (hts.bound v)]
    · rfl

theorem boundErasure_eq (hacyclic : ts.Acyclic) (hvars : ts.DeclaresVars) {ty : TypeId}
    (hty : ts.pool.Has ty) : us.boundErasure ty = ts.boundErasure ty := by
  obtain ⟨u, hu⟩ := exists_followBounds hts hacyclic.acyclicBounds hty (fun _ hk => hvars hk)
    (card_reached_bound ..)
  have hu' := followBounds_of_le (Nat.succ_le_succ h.typeVars_size) hu
  rw [boundErasure, boundErasure, h.followBounds_eq hts hvars _ hty, hu, hu']

theorem superclasses_eq {c : ClassId} (hc : ts.Mentions c) :
    us.superclasses c = ts.superclasses c := by
  rw [superclasses, superclasses, h.declaredSupertypes_eq hc]
  exact List.filterMap_congr fun ty hty => classOf?_of_le h.le (hts.has_declaredSupertypes hty)

theorem closureWithin_eq (levels : Nat) {seen level : List ClassId}
    (hlevel : ∀ c ∈ level, ts.Mentions c) :
    us.closureWithin levels seen level = ts.closureWithin levels seen level := by
  induction levels generalizing seen level with
  | zero => rfl
  | succ levels ih =>
    obtain ⟨new, heq, hnew, hstep⟩ := exists_closureWithin_succ ts seen level
    obtain ⟨new', heq', -, hstep'⟩ := exists_closureWithin_succ us seen level
    have hsupers : level.flatMap us.superclasses = level.flatMap ts.superclasses :=
      List.flatMap_congr fun c hc => h.superclasses_eq hts (hlevel c hc)
    rw [hsupers, heq] at heq'
    obtain rfl := List.append_cancel_left heq'
    rw [hstep, hstep', ih fun c hc => ?_]
    obtain ⟨-, d, -, hsuper⟩ := hnew c hc
    exact mentions_superclass hts hsuper

theorem classClosure_eq {c : ClassId} (hc : ts.Mentions c) :
    us.classClosure c = ts.classClosure c := by
  rw [classClosure, h.closureWithin_eq hts _ fun d hd => List.mem_singleton.mp hd ▸ hc,
    closureWithin_eq_classClosure h.classes_size]

theorem enclosing_eq (hacyclic : ts.Acyclic) {c : ClassId} (hc : ts.Mentions c) :
    us.enclosing c = ts.enclosing c := by
  have hwithin : ∀ depth c, ts.Mentions c →
      us.enclosingWithin depth c = ts.enclosingWithin depth c := by
    intro depth
    induction depth with
    | zero => exact fun _ _ => rfl
    | succ depth ih =>
      intro c hc
      rw [enclosingWithin, enclosingWithin, h.outer_eq hc]
      cases houter : (ts.classDef c).outer with
      | none => rfl
      | some ty =>
        have hclass := classOf?_of_le h.le ((hts.classes c).outer ty houter)
        rw [Option.bind_some, Option.bind_some, hclass]
        cases hd : ts.classOf? ty with
        | none => rfl
        | some d => exact congrArg (c :: ·) (ih d ⟨ty, (hts.classes c).outer ty houter, hd⟩)
  rw [enclosing, hwithin _ c hc,
    enclosingWithin_eq_enclosing hacyclic (Nat.lt_succ_of_le h.classes_size)]

theorem commonClass?_eq (hacyclic : ts.Acyclic) (hvars : ts.DeclaresVars) {tys : List TypeId}
    (htys : ∀ ty ∈ tys, ts.pool.Has ty) : us.commonClass? tys = ts.commonClass? tys := by
  have hclosure : ∀ ty ∈ tys, us.erasedClosure ty = ts.erasedClosure ty := by
    intro ty hty
    have hbound := has_boundErasure hts (htys ty hty)
    rw [erasedClosure, erasedClosure, h.boundErasure_eq hts hacyclic hvars (htys ty hty),
      classOf?_of_le h.le hbound]
    cases hc : ts.classOf? (ts.boundErasure ty) with
    | none => rfl
    | some c => exact h.classClosure_eq hts ⟨_, hbound, hc⟩
  unfold commonClass?
  rw [List.map_congr_left hclosure]
  cases tys with
  | nil => rfl
  | cons ty tys =>
    have hmentions : ∀ c ∈ ts.erasedClosure ty, ts.Mentions c := fun c hc =>
      mentions_erasedClosure hts (htys ty List.mem_cons_self) hc
    rw [List.map_cons]
    dsimp only
    generalize hcommon : (ts.erasedClosure ty).filter
      (fun c => (tys.map ts.erasedClosure).all (c ∈ ·)) = common
    have hknown : ∀ c ∈ common, ts.Mentions c := fun c hc =>
      hmentions c (List.mem_filter.mp (hcommon ▸ hc)).1
    have hminimal : common.filter (fun c => !common.any fun d => d ≠ c && c ∈ us.classClosure d) =
        common.filter fun c => !common.any fun d => d ≠ c && c ∈ ts.classClosure d := by
      refine List.filter_congr fun c _ => congrArg Bool.not (any_congr_of_mem fun d hd => ?_)
      rw [h.classClosure_eq hts (hknown d hd)]
    rw [hminimal]
    refine congrArg (Option.or · _) (List.find?_congr fun c hc => ?_)
    rw [h.isInterface_eq (hknown c (List.mem_filter.mp hc).1)]

/-- What erasure observes is what it was. -/
theorem continues (hacyclic : ts.Acyclic) (hvars : ts.DeclaresVars) : Continues ts us where
  le := h.le
  boundErasure_eq := h.boundErasure_eq hts hacyclic hvars
  commonClass?_eq := h.commonClass?_eq hts hacyclic hvars
  name hc := by
    obtain ⟨new, -, hdef⟩ := h.classDef hc
    rw [hdef]
  isInterface := h.isInterface_eq
  outer := h.outer_eq
  isGeneric hc := by
    rw [isGeneric, isGeneric, h.enclosing_eq hts hacyclic hc]
    refine any_congr_of_mem fun d hd => ?_
    rw [h.typeParams_eq (mentions_enclosing hts hc hd)]
  typeParamsInScope hc := by
    rw [typeParamsInScope, typeParamsInScope, h.enclosing_eq hts hacyclic hc]
    refine List.flatMap_congr fun d hd => ?_
    rw [h.typeParams_eq (mentions_enclosing hts hc hd)]
  members hc := by
    obtain ⟨new, hnew, hdef⟩ := h.classDef hc
    exact ⟨new, by rw [hdef], hnew⟩

end Adds

end Erasure.TypeSystem
