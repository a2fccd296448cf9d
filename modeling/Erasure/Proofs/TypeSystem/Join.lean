/-
Bounds, closures and joins of a type system that grows.

Without new declarations, bounds and the classes above a type stay what they were
(`Extends.preserves`). A join is an array, some levels deep, of one of the types joined or of a raw
class, and bounds and the classes above say which (`joinForm`). The main statements:

* `kind_boundErasure_ne_var`: bounds end in a type that is no variable.
* `Preserves.joinForm_eq`: the form of a join stays what it was.
* `joinWithin_eq_join`: a join ends by itself.
* `joinWithin_keeps`: joining finds or makes the type of that form.
* `resolveLub_eq`: once it is there, nothing is made.
-/
import Mathlib.Data.List.Find
import Erasure.TypeSystem.Join
import Erasure.Proofs.Pool.Flags
import Erasure.Proofs.TypeSystem.Validity

namespace Erasure.TypeSystem

variable {ts us : TypeSystem}

/-! ### Bounds -/

theorem has_followBounds (hts : ts.Valid) {steps : Nat} {ty u : TypeId} (hty : ts.pool.Has ty)
    (h : ts.followBounds steps ty = some u) : ts.pool.Has u := by
  induction steps generalizing ty with
  | zero => cases h
  | succ steps ih =>
    unfold followBounds at h
    split at h
    · exact ih (hts.bound _) h
    · exact Option.some.inj h ▸ hty

theorem has_boundErasure (hts : ts.Valid) {ty : TypeId} (hty : ts.pool.Has ty) :
    ts.pool.Has (ts.boundErasure ty) := by
  unfold boundErasure
  cases h : ts.followBounds (ts.typeVars.size + 1) ty with
  | none => exact hts.object.has
  | some u => exact has_followBounds hts hty h

theorem kind_followBounds_ne_var {steps : Nat} {ty u : TypeId}
    (h : ts.followBounds steps ty = some u) (v : TypeVarId) : ts.kind u ≠ .var v := by
  induction steps generalizing ty with
  | zero => cases h
  | succ steps ih =>
    unfold followBounds at h
    split at h
    · exact ih h
    · rename_i hne
      exact Option.some.inj h ▸ fun hvar => hne v hvar

/-- Bounds end in a type that is no variable. -/
theorem kind_boundErasure_ne_var (hobject : ts.kind .object = .raw .object) (ty : TypeId)
    (v : TypeVarId) : ts.kind (ts.boundErasure ty) ≠ .var v := by
  unfold boundErasure
  cases h : ts.followBounds (ts.typeVars.size + 1) ty with
  | none =>
    intro hvar
    exact nomatch hvar.symm.trans hobject
  | some u => exact kind_followBounds_ne_var h v

theorem boundErasure_of_ne_var {ty : TypeId} (h : ∀ v, ts.kind ty ≠ .var v) :
    ts.boundErasure ty = ty := by
  rw [boundErasure, followBounds]
  split
  · rename_i v hv
    exact absurd hv (h v)
  · rfl

namespace Extends

variable (hts : ts.Valid) (h : Extends ts us)
include hts h

theorem followBounds_eq (steps : Nat) {ty : TypeId} (hty : ts.pool.Has ty) :
    us.followBounds steps ty = ts.followBounds steps ty := by
  induction steps generalizing ty with
  | zero => rfl
  | succ steps ih =>
    unfold followBounds
    rw [kind_of_le h.le hty]
    split
    · rw [h.typeVar_eq, ih (hts.bound _)]
    · rfl

theorem boundErasure_eq {ty : TypeId} (hty : ts.pool.Has ty) :
    us.boundErasure ty = ts.boundErasure ty := by
  rw [boundErasure, boundErasure, h.typeVars_eq, h.followBounds_eq hts _ hty]

theorem superclasses_eq (c : ClassId) : us.superclasses c = ts.superclasses c := by
  rw [superclasses, superclasses, h.declaredSupertypes_eq]
  refine List.filterMap_congr fun ty hty => ?_
  rw [classOf?, classOf?, kind_of_le h.le (hts.has_declaredSupertypes hty)]

theorem closureWithin_eq (levels : Nat) (seen level : List ClassId) :
    us.closureWithin levels seen level = ts.closureWithin levels seen level := by
  have hsuper : us.superclasses = ts.superclasses := funext (h.superclasses_eq hts)
  induction levels generalizing seen level with
  | zero => rfl
  | succ levels ih =>
    unfold closureWithin
    simp only [hsuper, ih]

theorem classClosure_eq (c : ClassId) : us.classClosure c = ts.classClosure c := by
  rw [classClosure, classClosure, h.classes_eq, h.closureWithin_eq hts]

theorem erasedClosure_eq {ty : TypeId} (hty : ts.pool.Has ty) :
    us.erasedClosure ty = ts.erasedClosure ty := by
  unfold erasedClosure
  rw [h.boundErasure_eq hts hty, classOf?, kind_of_le h.le (has_boundErasure hts hty), classOf?]
  split
  · exact h.classClosure_eq hts _
  · rfl

theorem commonClass?_eq {tys : List TypeId} (htys : ∀ ty ∈ tys, ts.pool.Has ty) :
    us.commonClass? tys = ts.commonClass? tys := by
  have hclosures : tys.map us.erasedClosure = tys.map ts.erasedClosure :=
    List.map_congr_left fun ty hty => h.erasedClosure_eq hts (htys ty hty)
  have hclosure : us.classClosure = ts.classClosure := funext (h.classClosure_eq hts)
  have hinterface : us.isInterface = ts.isInterface := by
    funext c
    rw [isInterface, isInterface, h.classDef_eq]
  unfold commonClass?
  rw [hclosures, hclosure, hinterface]

end Extends

/-- The type system has grown, and bounds and common classes of its types are what they were. -/
structure Preserves (ts us : TypeSystem) : Prop where
  le : ts ≤ us
  boundErasure_eq : ∀ {ty}, ts.pool.Has ty → us.boundErasure ty = ts.boundErasure ty
  commonClass?_eq : ∀ {tys}, (∀ ty ∈ tys, ts.pool.Has ty) → us.commonClass? tys = ts.commonClass? tys

theorem Preserves.refl (ts : TypeSystem) : Preserves ts ts :=
  ⟨le_refl ts, fun _ => rfl, fun _ => rfl⟩

theorem Preserves.trans {vs : TypeSystem} (h : Preserves ts us) (h' : Preserves us vs) :
    Preserves ts vs where
  le := le_trans h.le h'.le
  boundErasure_eq hty := (h'.boundErasure_eq (hty.of_le h.le.1)).trans (h.boundErasure_eq hty)
  commonClass?_eq htys :=
    (h'.commonClass?_eq fun ty hty => (htys ty hty).of_le h.le.1).trans (h.commonClass?_eq htys)

theorem Extends.preserves (hts : ts.Valid) (h : Extends ts us) : Preserves ts us :=
  ⟨h.le, h.boundErasure_eq hts, h.commonClass?_eq hts⟩

/-! ### The form of a join -/

/-- What a join is: an array, some levels deep, of a known type or of a raw class. -/
inductive JoinForm where
  | known (ty : TypeId)
  | raw (c : ClassId)
  | array (elem : JoinForm)
  deriving DecidableEq, Repr

/-- The form of the join of candidates whose array types are at most `depth` levels deep. -/
def joinForm (ts : TypeSystem) : (depth : Nat) → List TypeId → JoinForm
  | 0, _ => .known .object
  | depth + 1, candidates =>
    match candidates.filter (· ≠ .null) with
    | [] => .known .null
    | candidates@(first :: _) =>
      if candidates.all (· = first) then .known first
      else if candidates.all ts.isPrimitive then
        .known ((candidates.find? fun target =>
          candidates.all fun c => ts.isAssignable c target).getD .object)
      else
        match ts.arrayElements? candidates with
        | some elems =>
          if elems.all ts.isReference then .array (ts.joinForm depth elems) else .known .object
        | none =>
          match ts.commonClass? candidates with
          | some c => .raw c
          | none => .known .object

theorem mem_of_mem_filter_null {tys : List TypeId} {ty first : TypeId} {rest : List TypeId}
    (h : tys.filter (· ≠ .null) = first :: rest) (hty : ty ∈ first :: rest) : ty ∈ tys :=
  (List.mem_filter.mp (h ▸ hty)).1

theorem arrayElements?_cons (ts : TypeSystem) (ty : TypeId) (tys : List TypeId) :
    ts.arrayElements? (ty :: tys) = match ts.kind ty with
      | .array elem => (ts.arrayElements? tys).map (elem :: ·)
      | _ => none := by
  rw [arrayElements?, List.mapM_cons, arrayElements?]
  cases ts.kind ty with
  | array elem =>
    simp only [Option.bind_eq_bind, Option.bind_some]
    exact (Option.map_eq_bind ..).symm
  | prim _ | null | raw _ | var _ | inst _ _ _ | lub _ => rfl

theorem kind_of_mem_arrayElements? {tys elems : List TypeId}
    (h : ts.arrayElements? tys = some elems) {elem : TypeId} (helem : elem ∈ elems) :
    ∃ ty ∈ tys, ts.kind ty = .array elem := by
  induction tys generalizing elems with
  | nil =>
    obtain rfl := Option.some.inj h
    exact absurd helem List.not_mem_nil
  | cons ty tys ih =>
    rw [arrayElements?_cons] at h
    split at h
    case h_1 first hk =>
      obtain ⟨rest, hrest, rfl⟩ := Option.map_eq_some_iff.mp h
      rcases List.mem_cons.mp helem with rfl | helem
      · exact ⟨ty, List.mem_cons_self, hk⟩
      · obtain ⟨u, hu, hk⟩ := ih hrest helem
        exact ⟨u, List.mem_cons_of_mem _ hu, hk⟩
    case h_2 => cases h

theorem exists_kind_of_arrayElements? {first : TypeId} {rest elems : List TypeId}
    (h : ts.arrayElements? (first :: rest) = some elems) :
    ∃ elem ∈ elems, ts.kind first = .array elem := by
  rw [arrayElements?_cons] at h
  split at h
  case h_1 elem hk =>
    obtain ⟨elems', -, rfl⟩ := Option.map_eq_some_iff.mp h
    exact ⟨elem, List.mem_cons_self, hk⟩
  case h_2 => cases h

theorem part_of_mem_arrayElements? (hts : ts.Valid) {tys elems : List TypeId}
    (htys : ∀ ty ∈ tys, ts.pool.Has ty) (h : ts.arrayElements? tys = some elems) :
    ∀ elem ∈ elems, ts.pool.Has elem ∧ ∃ ty ∈ tys, elem.index < ty.index := by
  intro elem helem
  obtain ⟨ty, hty, hk⟩ := kind_of_mem_arrayElements? h helem
  have hkind := (htys ty hty).hasKind_of_eq hk
  exact ⟨hts.pool.has_part hkind List.mem_cons_self, ty, hty,
    hts.pool.parts_lt hkind elem List.mem_cons_self⟩

theorem all_congr_of_mem {α : Type} {l : List α} {p q : α → Bool} (h : ∀ x ∈ l, p x = q x) :
    l.all p = l.all q := by
  rw [Bool.eq_iff_iff, List.all_eq_true, List.all_eq_true]
  exact forall₂_congr fun x hx => by rw [h x hx]

theorem any_congr_of_mem {α : Type} {l : List α} {p q : α → Bool} (h : ∀ x ∈ l, p x = q x) :
    l.any p = l.any q := by
  rw [Bool.eq_iff_iff, List.any_eq_true, List.any_eq_true]
  exact exists_congr fun x => and_congr_right fun hx => by rw [h x hx]

/-- The flags tell which types are primitive. -/
theorem isPrimitive_iff (hts : ts.Valid) {ty : TypeId} (hty : ts.pool.Has ty) :
    ts.isPrimitive ty = true ↔ ∃ r, ts.kind ty = .prim r := by
  rw [isPrimitive, flags, Pool.flags_of_head TypeFlags.isPrimitive (fun _ _ => rfl) hts.pool hty,
    kind]
  cases ts.pool.kind ty <;> simp [TypeKind.headFlags]

namespace Preserves

variable (hts : ts.Valid) (h : Preserves ts us)
include h

theorem isPrimitive_eq {ty : TypeId} (hty : ts.pool.Has ty) :
    us.isPrimitive ty = ts.isPrimitive ty := by
  rw [isPrimitive, isPrimitive, flags, flags, Pool.flags_of_le h.le.1 hty]

theorem isReference_eq {ty : TypeId} (hty : ts.pool.Has ty) :
    us.isReference ty = ts.isReference ty := by
  rw [isReference, isReference, flags, flags, Pool.flags_of_le h.le.1 hty]

theorem arrayElements?_eq {tys : List TypeId} (htys : ∀ ty ∈ tys, ts.pool.Has ty) :
    us.arrayElements? tys = ts.arrayElements? tys := by
  induction tys with
  | nil => rfl
  | cons ty tys ih =>
    rw [arrayElements?_cons, arrayElements?_cons, kind_of_le h.le (htys ty List.mem_cons_self),
      ih fun u hu => htys u (List.mem_cons_of_mem _ hu)]

include hts

theorem isAssignable_eq {s t : TypeId} (hs : ts.pool.Has s) (ht : ts.pool.Has t)
    (hps : ts.isPrimitive s = true) (hpt : ts.isPrimitive t = true) :
    us.isAssignable s t = ts.isAssignable s t := by
  obtain ⟨r, hr⟩ := (isPrimitive_iff hts hs).mp hps
  obtain ⟨r', hr'⟩ := (isPrimitive_iff hts ht).mp hpt
  rw [isAssignable, isAssignable, kind_of_le h.le hs, kind_of_le h.le ht, hr, hr']

/-- The types joined, their bounds and common classes say which form a join has, and the depth does
not matter as long as it exceeds the numbers of the types. -/
theorem joinForm_eq {depth depth' : Nat} {candidates : List TypeId}
    (hhas : ∀ ty ∈ candidates, ts.pool.Has ty) (hdepth : ∀ ty ∈ candidates, ty.index < depth)
    (hdepth' : ∀ ty ∈ candidates, ty.index < depth') (hpos : 0 < depth) (hpos' : 0 < depth') :
    us.joinForm depth' candidates = ts.joinForm depth candidates := by
  induction depth generalizing depth' candidates with
  | zero => exact absurd hpos (Nat.lt_irrefl 0)
  | succ depth ih =>
    obtain ⟨depth', rfl⟩ := Nat.exists_eq_succ_of_ne_zero (Nat.pos_iff_ne_zero.mp hpos')
    unfold joinForm
    cases hfilter : candidates.filter (· ≠ .null) with
    | nil => rfl
    | cons first rest =>
      have hmem : ∀ ty ∈ first :: rest, ty ∈ candidates := fun ty hty =>
        mem_of_mem_filter_null hfilter hty
      have hhas' : ∀ ty ∈ first :: rest, ts.pool.Has ty := fun ty hty => hhas ty (hmem ty hty)
      have hprim : (first :: rest).all us.isPrimitive = (first :: rest).all ts.isPrimitive :=
        all_congr_of_mem fun ty hty => h.isPrimitive_eq (hhas' ty hty)
      dsimp only
      rw [hprim, h.arrayElements?_eq hhas', h.commonClass?_eq hhas']
      refine if_congr Iff.rfl rfl ?_
      by_cases hall : (first :: rest).all ts.isPrimitive = true
      · rw [if_pos hall, if_pos hall]
        have hp := List.all_eq_true.mp hall
        have hfind : (first :: rest).find? (fun t => (first :: rest).all fun c => us.isAssignable c t) =
            (first :: rest).find? fun t => (first :: rest).all fun c => ts.isAssignable c t := by
          refine List.find?_congr fun t ht => all_congr_of_mem fun c hc => ?_
          exact h.isAssignable_eq hts (hhas' c hc) (hhas' t ht) (hp c hc) (hp t ht)
        rw [hfind]
      · rw [if_neg hall, if_neg hall]
        cases helems : ts.arrayElements? (first :: rest) with
        | none => rfl
        | some elems =>
          have hparts := part_of_mem_arrayElements? hts hhas' helems
          have hrefs : elems.all us.isReference = elems.all ts.isReference :=
            all_congr_of_mem fun elem helem => h.isReference_eq (hparts elem helem).1
          have hbelow : ∀ {n}, (∀ ty ∈ candidates, ty.index < n + 1) →
              ∀ elem ∈ elems, elem.index < n := by
            intro n hn elem helem
            obtain ⟨-, ty, hty, hlt⟩ := hparts elem helem
            have := hn ty (hmem ty hty)
            omega
          obtain ⟨elem, helem, -⟩ := exists_kind_of_arrayElements? helems
          dsimp only
          rw [hrefs, ih (fun elem helem => (hparts elem helem).1) (hbelow hdepth) (hbelow hdepth')
            (Nat.zero_lt_of_lt (hbelow hdepth elem helem))
            (Nat.zero_lt_of_lt (hbelow hdepth' elem helem))]

end Preserves

/-- The type of the pool has the given form. -/
inductive HasForm (p : Pool) : TypeId → JoinForm → Prop
  | known {ty : TypeId} : p.Has ty → HasForm p ty (.known ty)
  | raw {ty : TypeId} {c : ClassId} : p.HasKind ty (.raw c) → HasForm p ty (.raw c)
  | array {ty elem : TypeId} {form : JoinForm} : p.HasKind ty (.array elem) →
      HasForm p elem form → HasForm p ty (.array form)

theorem HasForm.has {p : Pool} {ty : TypeId} {form : JoinForm} (h : HasForm p ty form) :
    p.Has ty := by
  cases h with
  | known hty => exact hty
  | raw hk | array hk _ => exact hk.has

theorem HasForm.of_le {p q : Pool} (hle : p ≤ q) {ty : TypeId} {form : JoinForm}
    (h : HasForm p ty form) : HasForm q ty form := by
  induction h with
  | known hty => exact .known (hty.of_le hle)
  | raw hk => exact .raw (hk.of_le hle)
  | array hk _ ih => exact .array (hk.of_le hle) ih

/-- One type of a pool has a form. -/
theorem HasForm.unique {p : Pool} {t u : TypeId} {form : JoinForm} (ht : HasForm p t form)
    (hu : HasForm p u form) : t = u := by
  induction ht generalizing u with
  | known => cases hu with | known => rfl
  | raw hk => cases hu with | raw hk' => exact hk.inj hk'
  | array hk _ ih =>
    cases hu with
    | array hk' helem => exact hk.inj (ih helem ▸ hk')

/-- A join that may go deeper than its candidates ends by itself. -/
theorem joinWithin_eq_of_lt (hts : ts.Valid) {n d d' : Nat} {candidates : List TypeId}
    (hcandidates : ∀ ty ∈ candidates, ts.pool.Has ty) (hn : ∀ ty ∈ candidates, ty.index < n)
    (hd : n < d) (hd' : n < d') : joinWithin d candidates ts = joinWithin d' candidates ts := by
  induction n generalizing d d' candidates with
  | zero =>
    obtain rfl := List.eq_nil_iff_forall_not_mem.mpr fun ty hty => Nat.not_lt_zero _ (hn ty hty)
    obtain ⟨d, rfl⟩ := Nat.exists_eq_add_of_lt hd
    obtain ⟨d', rfl⟩ := Nat.exists_eq_add_of_lt hd'
    rfl
  | succ n ih =>
    obtain ⟨d, rfl⟩ := Nat.exists_eq_add_of_lt hd
    obtain ⟨d', rfl⟩ := Nat.exists_eq_add_of_lt hd'
    unfold joinWithin
    cases hfilter : candidates.filter (· ≠ .null) with
    | nil => rfl
    | cons first rest =>
      have hmem : ∀ ty ∈ first :: rest, ty ∈ candidates := fun ty hty =>
        mem_of_mem_filter_null hfilter hty
      dsimp only
      rw [get_bind_apply, get_bind_apply]
      split
      · rfl
      · split
        · rfl
        · cases helems : ts.arrayElements? (first :: rest) with
          | none => rfl
          | some elems =>
            have hparts := part_of_mem_arrayElements? hts
              (fun ty hty => hcandidates ty (hmem ty hty)) helems
            have hbelow : ∀ elem ∈ elems, elem.index < n := by
              intro elem helem
              obtain ⟨-, ty, hty, hlt⟩ := hparts elem helem
              have := hn ty (hmem ty hty)
              omega
            have hrest : joinWithin (n + 1 + d) elems ts = joinWithin (n + 1 + d') elems ts :=
              ih (fun elem helem => (hparts elem helem).1) hbelow (by omega) (by omega)
            dsimp only
            split
            · rw [bind_apply, bind_apply, hrest]
            · rfl

/-- How deep a join may go makes no difference once it is more than the number of types. -/
theorem joinWithin_eq_join (hts : ts.Valid) {depth : Nat} (hdepth : ts.pool.size < depth)
    {candidates : List TypeId} (hcandidates : ∀ ty ∈ candidates, ts.pool.Has ty) :
    joinWithin depth candidates ts = join candidates ts :=
  joinWithin_eq_of_lt hts hcandidates hcandidates hdepth (Nat.lt_succ_self _)

/-- Joining finds or makes the type of the form of the join. -/
theorem joinWithin_keeps {depth : Nat} {candidates : List TypeId} (hts : ts.Valid)
    (hcandidates : ∀ ty ∈ candidates, ts.pool.Has ty) :
    Keeps (joinWithin depth candidates) ts
      fun r us => HasForm us.pool r (ts.joinForm depth candidates) := by
  induction depth generalizing ts candidates with
  | zero => exact Keeps.pure hts (.known hts.object.has)
  | succ depth ih =>
    unfold joinWithin joinForm
    cases hfilter : candidates.filter (· ≠ .null) with
    | nil => exact Keeps.pure hts (.known hts.pool.null.has)
    | cons first rest =>
      have hhas : ∀ ty ∈ first :: rest, ts.pool.Has ty := fun ty hty =>
        hcandidates ty (mem_of_mem_filter_null hfilter hty)
      refine Keeps.get_bind ?_
      dsimp only
      split
      · exact Keeps.pure hts (.known (hhas first List.mem_cons_self))
      · split
        · refine Keeps.pure hts (.known ?_)
          cases hfind : (first :: rest).find? _ with
          | none => exact hts.object.has
          | some ty => exact hhas ty (List.mem_of_find?_eq_some hfind)
        · cases helems : ts.arrayElements? (first :: rest) with
          | some elems =>
            dsimp only
            split
            · have hparts := part_of_mem_arrayElements? hts hhas helems
              refine (ih hts fun elem helem => (hparts elem helem).1).bind fun r us _ hus hr => ?_
              refine (lift_computes hus (Pool.array_computes hus.pool hr.has)).toKeeps.mono ?_
              exact fun a vs hvs _ ha => .array ha (hr.of_le hvs.le.1)
            · exact Keeps.pure hts (.known hts.object.has)
          | none =>
            cases hcommon : ts.commonClass? (first :: rest) with
            | some c =>
              exact (lift_computes hts (Pool.rawClass_computes hts.pool c)).toKeeps.mono
                fun _ _ _ _ hr => .raw hr
            | none => exact Keeps.pure hts (.known hts.object.has)

/-! ### Resolved upper bounds -/

/-- The second type is the first one with its upper bound computed, if it is one. -/
def Resolves (ts : TypeSystem) (ty r : TypeId) : Prop :=
  match ts.kind ty with
  | .lub l => HasForm ts.pool r (ts.joinForm (ts.pool.size + 1) (ts.pool.candidates l))
  | _ => r = ty

theorem Resolves.has {ty r : TypeId} (h : ts.Resolves ty r) (hty : ts.pool.Has ty) :
    ts.pool.Has r := by
  unfold Resolves at h
  split at h
  · exact h.has
  · exact h ▸ hty

theorem Resolves.unique {ty r r' : TypeId} (h : ts.Resolves ty r) (h' : ts.Resolves ty r') :
    r = r' := by
  unfold Resolves at h h'
  split at h
  case h_1 l hk =>
    rw [hk] at h'
    exact h.unique h'
  case h_2 hne =>
    split at h'
    · rename_i l hk
      exact absurd hk (hne l)
    · rw [h, h']

/-- Candidates are types of the pool. -/
theorem has_candidates (hts : ts.Valid) {ty : TypeId} {l : LubId} (hty : ts.pool.Has ty)
    (hk : ts.kind ty = .lub l) : ∀ u ∈ ts.pool.candidates l, ts.pool.Has u := by
  have hkind := hty.hasKind_of_eq hk
  exact fun u hu => hts.pool.has_part hkind hu

theorem candidates_of_le (hts : ts.Valid) (hle : ts ≤ us) {ty : TypeId} {l : LubId}
    (hty : ts.pool.Has ty) (hk : ts.kind ty = .lub l) :
    us.pool.candidates l = ts.pool.candidates l := by
  have hkind := hty.hasKind_of_eq hk
  exact Pool.parts_of_le hle.1 (hts.pool.linked hkind)

/-- The form of the join of candidates stays what it was. -/
theorem Preserves.joinForm_candidates_eq (hts : ts.Valid) (h : Preserves ts us) {ty : TypeId}
    {l : LubId} (hty : ts.pool.Has ty) (hk : ts.kind ty = .lub l) :
    us.joinForm (us.pool.size + 1) (us.pool.candidates l) =
      ts.joinForm (ts.pool.size + 1) (ts.pool.candidates l) := by
  have hhas := has_candidates hts hty hk
  rw [candidates_of_le hts h.le hty hk]
  refine h.joinForm_eq hts hhas (fun u hu => ?_) (fun u hu => ?_) (Nat.succ_pos _) (Nat.succ_pos _)
  · exact Nat.lt_succ_of_lt (hhas u hu)
  · exact Nat.lt_succ_of_lt ((hhas u hu).of_le h.le.1)

theorem Extends.joinForm_candidates_eq (hts : ts.Valid) (h : Extends ts us) {ty : TypeId}
    {l : LubId} (hty : ts.pool.Has ty) (hk : ts.kind ty = .lub l) :
    us.joinForm (us.pool.size + 1) (us.pool.candidates l) =
      ts.joinForm (ts.pool.size + 1) (ts.pool.candidates l) :=
  (h.preserves hts).joinForm_candidates_eq hts hty hk

theorem Resolves.of_preserves (hts : ts.Valid) (h : Preserves ts us) {ty r : TypeId}
    (hty : ts.pool.Has ty) (hr : ts.Resolves ty r) : us.Resolves ty r := by
  unfold Resolves at hr ⊢
  rw [kind_of_le h.le hty]
  split at hr
  case h_1 l hk =>
    rw [h.joinForm_candidates_eq hts hty hk]
    exact hr.of_le h.le.1
  case h_2 hne => exact hr

theorem Resolves.of_extends (hts : ts.Valid) (h : Extends ts us) {ty r : TypeId}
    (hty : ts.pool.Has ty) (hr : ts.Resolves ty r) : us.Resolves ty r :=
  hr.of_preserves hts (h.preserves hts) hty

theorem resolveLub_keeps (hts : ts.Valid) {ty : TypeId} (hty : ts.pool.Has ty) :
    Keeps (resolveLub ty) ts fun r us => us.Resolves ty r := by
  unfold resolveLub
  refine Keeps.get_bind ?_
  split
  case h_1 l hk =>
    unfold join
    refine Keeps.get_bind ((joinWithin_keeps hts (has_candidates hts hty hk)).mono ?_)
    intro r us hus _ hr
    unfold Resolves
    rw [kind_of_le hus.le hty, hk]
    dsimp only
    rwa [Extends.joinForm_candidates_eq hts hus hty hk]
  case h_2 hne =>
    refine Keeps.pure hts ?_
    unfold Resolves
    split
    · rename_i l hk
      exact absurd hk (hne l)
    · rfl

/-! ### Joins that are there -/

/-- Interning a kind that a type has already answers the type and changes nothing. -/
theorem lift_internKind_eq {ty : TypeId} {k : TypeKind} (h : ts.pool.HasKind ty k) :
    (liftM (Pool.internKind k) : StateM TypeSystem TypeId) ts = (ty, ts) := by
  rw [lift_apply, Pool.internKind_eq h]

/-- Joining makes nothing when there is a type of the form of the join. -/
theorem joinWithin_eq_of_hasForm {depth : Nat} {candidates : List TypeId} {r : TypeId}
    (h : HasForm ts.pool r (ts.joinForm depth candidates)) :
    joinWithin depth candidates ts = (r, ts) := by
  induction depth generalizing candidates r with
  | zero =>
    cases h
    rfl
  | succ depth ih =>
    unfold joinForm at h
    unfold joinWithin
    cases hfilter : candidates.filter (· ≠ .null) with rw [hfilter] at h
    | nil =>
      cases h
      rfl
    | cons first rest =>
      dsimp only at h ⊢
      rw [get_bind_apply]
      split at h
      case isTrue hall =>
        rw [if_pos hall]
        cases h
        rfl
      case isFalse hall =>
        rw [if_neg hall]
        split at h
        case isTrue hprim =>
          rw [if_pos hprim]
          cases h
          rfl
        case isFalse hprim =>
          rw [if_neg hprim]
          cases helems : ts.arrayElements? (first :: rest) with rw [helems] at h
          | some elems =>
            dsimp only at h ⊢
            split at h
            case isTrue hrefs =>
              rw [if_pos hrefs]
              cases h with
              | array hk helem =>
                rw [bind_apply, ih helem]
                exact lift_internKind_eq hk
            case isFalse hrefs =>
              rw [if_neg hrefs]
              cases h
              rfl
          | none =>
            cases hcommon : ts.commonClass? (first :: rest) with rw [hcommon] at h
            | some c =>
              cases h with
              | raw hk => exact lift_internKind_eq hk
            | none =>
              cases h
              rfl

/-- Computing an upper bound makes nothing when the bound is there. -/
theorem resolveLub_eq {ty r : TypeId} (h : ts.Resolves ty r) : resolveLub ty ts = (r, ts) := by
  unfold Resolves at h
  unfold resolveLub
  rw [get_bind_apply]
  split at h
  case h_1 l hk =>
    rw [hk]
    exact joinWithin_eq_of_hasForm h
  case h_2 hne =>
    cases hk : ts.kind ty with
    | lub l => exact absurd hk (hne l)
    | prim _ | null | array _ | raw _ | var _ | inst _ _ _ =>
      rw [h]
      rfl

end Erasure.TypeSystem
