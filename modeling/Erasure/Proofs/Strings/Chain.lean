/-
The chain of types above a container.

A lookup walks the types above its container level by level, in a bounded number of levels. The root
class is met on the way whenever bounds, candidates and superclasses lead there, and more levels only
add to the end of the chain. The main statements:

* `exists_short_path`: a goal is reached within as many steps as there are elements on the way.
* `chainWithin_root`: the chain has the root class.
* `chainWithin_prefix`: as long as nothing is declared, a later chain begins with an earlier one.
-/
import Mathlib.Data.Finset.Card
import Mathlib.Tactic.Linarith
import Erasure.Proofs.Canonical.Subtyping
import Erasure.Proofs.TypeSystem.Lookup

namespace Erasure

/-! ### Short paths -/

section Paths

variable {α : Type} {R : α → α → Prop} {p : α → Prop}

/-- An element with the property is reached in so many steps. -/
def Reaches (R : α → α → Prop) (p : α → Prop) : Nat → α → Prop
  | 0, a => p a
  | k + 1, a => ∃ b, R a b ∧ Reaches R p k b

/-- A path that leaves elements with numbers in a finite set only can be made as short as the set is
small. -/
theorem exists_short_path (index : α → Nat) (hindex : Function.Injective index) {n : Nat}
    {S : Finset Nat} (hcard : S.card = n) {a b : α}
    (h : Relation.ReflTransGen (fun x y => R x y ∧ index x ∈ S) a b) (hb : p b) :
    ∃ k ≤ n, Reaches R p k a := by
  induction n generalizing S a with
  | zero =>
    rcases Relation.ReflTransGen.cases_head h with rfl | ⟨c, ⟨-, ha⟩, -⟩
    · exact ⟨0, le_refl 0, hb⟩
    · rw [Finset.card_eq_zero.mp hcard] at ha
      exact absurd ha (Finset.notMem_empty _)
  | succ n ih =>
    let T := S.erase (index a)
    -- the part of the path after its last visit to `a` leaves out `a`
    have hlast : ∀ {x}, Relation.ReflTransGen (fun x y => R x y ∧ index x ∈ S) x b →
        Relation.ReflTransGen (fun x y => R x y ∧ index x ∈ T) x b ∨
          (index a ∈ S ∧ ∃ c, R a c ∧
            Relation.ReflTransGen (fun x y => R x y ∧ index x ∈ T) c b) := by
      intro x hx
      induction hx using Relation.ReflTransGen.head_induction_on with
      | refl => exact .inl .refl
      | @head x y hxy _ ihx =>
        rcases ihx with hy | hafter
        · by_cases hxa : x = a
          · exact .inr ⟨hxa ▸ hxy.2, y, hxa ▸ hxy.1, hy⟩
          · refine .inl (.head ⟨hxy.1, Finset.mem_erase.mpr ⟨fun h => hxa (hindex h), hxy.2⟩⟩ hy)
        · exact .inr hafter
    rcases hlast h with hnot | ⟨ha, c, hac, hc⟩
    · rcases Relation.ReflTransGen.cases_head hnot with rfl | ⟨c, ⟨-, hne⟩, -⟩
      · exact ⟨0, Nat.zero_le _, hb⟩
      · exact absurd hne (Finset.notMem_erase _ S)
    · have hfewer : T.card = n := by rw [Finset.card_erase_of_mem ha, hcard]; rfl
      obtain ⟨k, hk, hreaches⟩ := ih hfewer hc
      exact ⟨k + 1, Nat.succ_le_succ hk, c, hac, hreaches⟩

/-- A path that leaves elements numbered below `n` only need not be longer than `n`. -/
theorem exists_path_below (index : α → Nat) (hindex : Function.Injective index) {n : Nat}
    (hbelow : ∀ {x y}, R x y → index x < n) {a b : α} (h : Relation.ReflTransGen R a b)
    (hb : p b) : ∃ k ≤ n, Reaches R p k a := by
  refine exists_short_path index hindex (Finset.card_range n) ?_ hb
  exact Relation.ReflTransGen.mono (fun x y hxy => ⟨hxy, Finset.mem_range.mpr (hbelow hxy)⟩) _ _ h

end Paths

/-! ### Answers that stay -/

section Settled

variable {σ α β : Type} [Store σ]

open Store (Grows)

/-- The action keeps the store, and as long as nothing is declared it gives the same answer again and
changes nothing. -/
structure Settles (act : StateM σ α) (s : σ) (post : α → σ → Prop) : Prop
    extends Keeps act s post where
  again : ∀ u, Grows (act s).2 u → act u = ((act s).1, u)

namespace Settles

variable {act : StateM σ α} {s : σ} {P Q : α → σ → Prop}

theorem of_computes (h : Computes act s P) : Settles act s P :=
  ⟨h.toKeeps, fun u hu => h.again u hu.le⟩

theorem mono (h : Settles act s P) (hPQ : ∀ a t, Grows s t → Store.Valid t → P a t → Q a t) :
    Settles act s Q := ⟨h.toKeeps.mono hPQ, h.again⟩

theorem and_keeps (h : Settles act s P) (h' : Keeps act s Q) :
    Settles act s fun a t => P a t ∧ Q a t := ⟨h.toKeeps.and h', h.again⟩

theorem pure {a : α} (hs : Store.Valid s) (ha : P a s) : Settles (pure a : StateM σ α) s P :=
  ⟨Keeps.pure hs ha, fun _ _ => rfl⟩

theorem bind {f : α → StateM σ β} {R : β → σ → Prop} (h : Settles act s P)
    (hf : ∀ a t, Grows s t → Store.Valid t → P a t → Settles (f a) t R) :
    Settles (act >>= f) s R := by
  have h2 := hf _ _ h.grows h.valid h.post
  refine ⟨h.toKeeps.bind fun a t hst ht ha => (hf a t hst ht ha).toKeeps, fun t ht => ?_⟩
  rw [bind_apply, h.again t (h2.grows.trans ht), h2.again t ht]
  rfl

theorem get_bind {f : σ → StateM σ β} {R : β → σ → Prop} (h : Settles (f s) s R)
    (hf : ∀ t, Grows s t → f t t = f s t) : Settles ((get : StateM σ σ) >>= f) s R :=
  ⟨Keeps.get_bind h.toKeeps, fun t ht => (hf t (h.grows.trans ht)).trans (h.again t ht)⟩

theorem mapM {f : α → StateM σ β} {R : α → β → σ → Prop}
    (hmono : ∀ a b t u, Grows t u → R a b t → R a b u) {as : List α} {s : σ}
    (hs : Store.Valid s) (h : ∀ a ∈ as, ∀ t, Grows s t → Store.Valid t → Settles (f a) t (R a)) :
    Settles (as.mapM f) s (fun bs t => List.Forall₂ (R · · t) as bs) := by
  induction as generalizing s with
  | nil => exact Settles.pure hs List.Forall₂.nil
  | cons a as ih =>
    rw [List.mapM_cons]
    refine (h a List.mem_cons_self s (Grows.refl s) hs).bind fun b t hst ht hb => ?_
    have htail := ih ht fun a' ha' u htu => h a' (List.mem_cons_of_mem _ ha') u (hst.trans htu)
    refine htail.bind fun bs u htu hu hbs => Settles.pure hu ?_
    exact List.Forall₂.cons (hmono a b t u htu hb) hbs

/-- A search in steps that keep what was found, and find something where there is something. -/
theorem search {f : List β → α → StateM σ (List β)} {I : List β → σ → Prop} {p : α → Prop}
    {as : List α} {found : List β} {s : σ} (hs : Store.Valid s) (hfound : I found s)
    (h : ∀ a ∈ as, ∀ found t, Grows s t → Store.Valid t → I found t →
      Settles (f found a) t fun found' u =>
        I found' u ∧ (found ≠ [] → found' = found) ∧ (p a → found' ≠ [])) :
    Settles (as.foldlM f found) s fun found' u =>
      I found' u ∧ (found ≠ [] → found' = found) ∧ ((∃ a ∈ as, p a) → found' ≠ []) := by
  induction as generalizing found s with
  | nil =>
    exact Settles.pure hs ⟨hfound, fun _ => rfl, fun ⟨_, ha, _⟩ => absurd ha List.not_mem_nil⟩
  | cons a as ih =>
    rw [List.foldlM_cons]
    apply (h a List.mem_cons_self found s (Grows.refl s) hs hfound).bind
    intro found' t hst ht ⟨hfound', hsame, hhere⟩
    apply (ih ht hfound' fun a' ha' found'' u htu =>
      h a' (List.mem_cons_of_mem _ ha') found'' u (hst.trans htu)).mono
    intro found'' u _ _ ⟨hfound'', hsame', hlater⟩
    refine ⟨hfound'', fun hne => ?_, fun ⟨x, hx, hp⟩ => ?_⟩
    · have heq := hsame hne
      exact (hsame' (heq ▸ hne)).trans heq
    · cases hx with
      | head => exact hsame' (hhere hp) ▸ hhere hp
      | tail _ hx => exact hlater ⟨x, hx, hp⟩

end Settles

end Settled

namespace TypeSystem

variable {ts us : TypeSystem}

/-! ### The root class above a type -/

/-- The second type is the bound of the first one, or one of its candidates. -/
inductive BoundedBy (ts : TypeSystem) : TypeId → TypeId → Prop
  | bound {ty : TypeId} {v : TypeVarId} : ts.kind ty = .var v → BoundedBy ts ty (ts.typeVar v).bound
  | candidate {ty u : TypeId} {l : LubId} : ts.kind ty = .lub l → u ∈ ts.pool.candidates l →
      BoundedBy ts ty u

/-- Bounds and candidates lead from the type to an array type or to a declared class. -/
def LeadsToClass (ts : TypeSystem) (ty : TypeId) : Prop :=
  ∃ u, Relation.ReflTransGen ts.BoundedBy ty u ∧ ((∃ elem, ts.kind u = .array elem) ∨
    ∃ c, ts.classOf? u = some c ∧ c.index < ts.classes.size)

/-- The root class is so many steps above the type: along bounds, candidates and superclasses. -/
inductive RootAbove (ts : TypeSystem) : Nat → TypeId → Prop
  | classType {k : Nat} {ty : TypeId} {c : ClassId} : ts.classOf? ty = some c →
      Reaches ts.Inherits (· = .object) k c → RootAbove ts k ty
  | array {ty elem : TypeId} : ts.kind ty = .array elem → RootAbove ts 1 ty
  | next {k : Nat} {ty u : TypeId} : ts.BoundedBy ty u → RootAbove ts k u → RootAbove ts (k + 1) ty

theorem BoundedBy.has {ty u : TypeId} (h : ts.BoundedBy ty u) : ts.pool.Has ty := by
  refine has_of_kind_ne_null ?_
  cases h with
  | bound hk | candidate hk _ => rw [hk]; exact nofun

theorem BoundedBy.has_right (hts : ts.Valid) {ty u : TypeId} (h : ts.BoundedBy ty u) :
    ts.pool.Has u := by
  have hty := h.has
  cases h with
  | bound hk => exact hts.bound _
  | candidate hk hu => exact has_candidates hts hty hk u hu

theorem BoundedBy.of_extends (hts : ts.Valid) (hext : Extends ts us) {ty u : TypeId}
    (h : ts.BoundedBy ty u) : us.BoundedBy ty u := by
  have hkind := kind_of_le hext.le h.has
  have hty := h.has
  cases h with
  | @bound v hk =>
    rw [← hext.typeVar_eq v]
    exact .bound (hkind.trans hk)
  | candidate hk hu =>
    refine .candidate (hkind.trans hk) ?_
    rwa [candidates_of_le hts hext.le hty hk]

theorem LeadsToClass.of_extends (hts : ts.Valid) (hext : Extends ts us) {ty : TypeId}
    (h : ts.LeadsToClass ty) : us.LeadsToClass ty := by
  obtain ⟨u, hu, hend⟩ := h
  refine ⟨u, Relation.ReflTransGen.mono (fun _ _ h => h.of_extends hts hext) _ _ hu, ?_⟩
  rcases hend with ⟨elem, hk⟩ | ⟨c, hc, hlt⟩
  · have hhas : ts.pool.Has u := has_of_kind_ne_null (by rw [hk]; exact nofun)
    exact .inl ⟨elem, (kind_of_le hext.le hhas).trans hk⟩
  · have hhas : ts.pool.Has u := has_of_classOf? hc
    exact .inr ⟨c, (classOf?_of_le hext.le hhas).trans hc, hext.classes_eq ▸ hlt⟩

theorem Extends.inherits_eq (hts : ts.Valid) (hext : Extends ts us) : us.Inherits = ts.Inherits := by
  funext c d
  rw [Inherits, Inherits, hext.superclasses_eq hts]

theorem RootAbove.has {k : Nat} {ty : TypeId} (h : ts.RootAbove k ty) : ts.pool.Has ty := by
  cases h with
  | classType hc _ => exact has_of_classOf? hc
  | array hk => exact has_of_kind_ne_null (by rw [hk]; exact nofun)
  | next hstep _ => exact hstep.has

theorem RootAbove.of_extends (hts : ts.Valid) (hext : Extends ts us) {k : Nat} {ty : TypeId}
    (h : ts.RootAbove k ty) : us.RootAbove k ty := by
  induction h with
  | classType hc hpath =>
    have hhas := (RootAbove.classType hc hpath).has
    exact .classType ((classOf?_of_le hext.le hhas).trans hc) (hext.inherits_eq hts ▸ hpath)
  | array hk => exact .array ((kind_of_le hext.le (RootAbove.array hk).has).trans hk)
  | next hstep _ ih => exact .next (hstep.of_extends hts hext) ih

theorem BoundedBy.of_ge (hts : ts.Valid) (hext : Extends ts us) {ty u : TypeId} (hty : ts.pool.Has ty)
    (h : us.BoundedBy ty u) : ts.BoundedBy ty u := by
  have hkind := kind_of_le hext.le hty
  cases h with
  | @bound v hk =>
    rw [hext.typeVar_eq v]
    exact .bound (hkind.symm.trans hk)
  | candidate hk hu =>
    have hk' := hkind.symm.trans hk
    rw [candidates_of_le hts hext.le hty hk'] at hu
    exact .candidate hk' hu

/-- What leads to the root class later has done so from the start. -/
theorem RootAbove.of_ge (hts : ts.Valid) (hext : Extends ts us) {k : Nat} {ty : TypeId}
    (hty : ts.pool.Has ty) (h : us.RootAbove k ty) : ts.RootAbove k ty := by
  induction h with
  | classType hc hpath =>
    exact .classType ((classOf?_of_le hext.le hty).symm.trans hc) (hext.inherits_eq hts ▸ hpath)
  | array hk => exact .array ((kind_of_le hext.le hty).symm.trans hk)
  | next hstep _ ih =>
    have hstep' := hstep.of_ge hts hext hty
    exact .next hstep' (ih (hstep'.has_right hts))

theorem LeadsToClass.of_ge (hts : ts.Valid) (hext : Extends ts us) {ty : TypeId}
    (hty : ts.pool.Has ty) (h : us.LeadsToClass ty) : ts.LeadsToClass ty := by
  have hback : ∀ {u}, Relation.ReflTransGen us.BoundedBy ty u →
      ts.pool.Has u ∧ Relation.ReflTransGen ts.BoundedBy ty u := by
    intro u hu
    induction hu with
    | refl => exact ⟨hty, .refl⟩
    | tail _ hstep ih =>
      obtain ⟨hhas, hpath⟩ := ih
      have hstep' := hstep.of_ge hts hext hhas
      exact ⟨hstep'.has_right hts, hpath.tail hstep'⟩
  obtain ⟨u, hu, hend⟩ := h
  obtain ⟨hhas, hpath⟩ := hback hu
  refine ⟨u, hpath, hend.imp ?_ ?_⟩
  · rintro ⟨elem, hk⟩
    exact ⟨elem, (kind_of_le hext.le hhas).symm.trans hk⟩
  · rintro ⟨c, hc, hlt⟩
    exact ⟨c, (classOf?_of_le hext.le hhas).symm.trans hc, hext.classes_eq ▸ hlt⟩

/-- Nothing bounds a raw class: it leads to a class if it is declared itself. -/
theorem leadsToClass_raw_iff {ty : TypeId} {c : ClassId} (hk : ts.kind ty = .raw c) :
    ts.LeadsToClass ty ↔ c.index < ts.classes.size := by
  have hc : ts.classOf? ty = some c := by rw [classOf?, hk]; rfl
  constructor
  · rintro ⟨u, hu, hend⟩
    rcases Relation.ReflTransGen.cases_head hu with rfl | ⟨_, hstep, -⟩
    · rcases hend with ⟨elem, hk'⟩ | ⟨d, hd, hlt⟩
      · cases hk.symm.trans hk'
      · cases hc.symm.trans hd
        exact hlt
    · cases hstep with
      | bound hk' | candidate hk' _ => cases hk.symm.trans hk'
  · exact fun hlt => ⟨ty, .refl, .inr ⟨c, hc, hlt⟩⟩

/-- A join that is known before it is made is a type of the pool. -/
theorem has_of_joinForm_eq_known (hts : ts.Valid) {depth : Nat} {candidates : List TypeId}
    {ty : TypeId} (hcandidates : ∀ u ∈ candidates, ts.pool.Has u)
    (h : ts.joinForm depth candidates = .known ty) : ts.pool.Has ty := by
  cases depth with
  | zero =>
    cases h
    exact hts.object.has
  | succ depth =>
    unfold joinForm at h
    split at h
    case h_1 =>
      cases h
      exact hts.pool.null.has
    case h_2 first rest hfilter =>
      have hhas : ∀ u ∈ first :: rest, ts.pool.Has u :=
        fun u hu => hcandidates u (mem_of_mem_filter_null hfilter hu)
      split at h
      · cases h
        exact hhas _ List.mem_cons_self
      · split at h
        · cases h
          cases hfind : (first :: rest).find? fun target =>
              (first :: rest).all fun c => ts.isAssignable c target with
          | none => exact hts.object.has
          | some u => exact hhas u (List.mem_of_find?_eq_some hfind)
        · split at h
          · split at h
            · cases h
            · cases h
              exact hts.object.has
          · split at h
            · cases h
            · cases h
              exact hts.object.has

/-- Resolved now or later, a type leads to a class all the same. -/
theorem leadsToClass_resolveLub (hts : ts.Valid) (hus : us.Valid) (hext : Extends ts us) {ty : TypeId}
    (hty : ts.pool.Has ty) (h : (resolveLub ty ts).2.LeadsToClass (resolveLub ty ts).1) :
    (resolveLub ty us).2.LeadsToClass (resolveLub ty us).1 := by
  have hearlier := resolveLub_keeps hts hty
  have hlater := resolveLub_keeps hus (hty.of_le hext.le.1)
  have hext' : Extends ts (resolveLub ty us).2 := hext.trans hlater.grows
  have hresolves := hearlier.post
  have hresolves' := hlater.post
  have hto : Extends ts (resolveLub ty ts).2 := hearlier.grows
  generalize resolveLub ty ts = x at h hto hresolves
  generalize resolveLub ty us = y at hext' hresolves' ⊢
  obtain ⟨r, ts'⟩ := x
  obtain ⟨r', us'⟩ := y
  dsimp only at h hto hext' hresolves hresolves' ⊢
  have hsame : ∀ u, ts.pool.Has u → ts'.LeadsToClass u → us'.LeadsToClass u :=
    fun u hu h => (h.of_ge hts hto hu).of_extends hts hext'
  unfold Resolves at hresolves hresolves'
  rw [kind_of_le hto.le hty] at hresolves
  rw [kind_of_le hext'.le hty] at hresolves'
  cases hk : ts.kind ty with
  | lub l =>
    rw [hk] at hresolves hresolves'
    dsimp only at hresolves hresolves'
    rw [hto.joinForm_candidates_eq hts hty hk] at hresolves
    rw [hext'.joinForm_candidates_eq hts hty hk] at hresolves'
    generalize hform : ts.joinForm (ts.pool.size + 1) (ts.pool.candidates l) = form
      at hresolves hresolves'
    cases hresolves with
    | known _ =>
      cases hresolves'
      exact hsame r (has_of_joinForm_eq_known hts (has_candidates hts hty hk) hform) h
    | @raw _ c hraw =>
      cases hresolves' with
      | raw hraw' =>
        rw [leadsToClass_raw_iff hraw.kind_eq, hto.classes_eq] at h
        rwa [leadsToClass_raw_iff hraw'.kind_eq, hext'.classes_eq]
    | array _ _ =>
      cases hresolves' with
      | array harray _ => exact ⟨r', .refl, .inl ⟨_, harray.kind_eq⟩⟩
  | prim _ | null | array _ | raw _ | var _ | inst _ _ _ =>
    rw [hk] at hresolves hresolves'
    cases hresolves
    cases hresolves'
    exact hsame ty hty h

/-- If every declared class extends the root class, the root class is above each type that leads to a
class, and not too far. -/
theorem exists_rootAbove (hroot : ∀ c, c.index < ts.classes.size → ts.ExtendsRoot c) {ty : TypeId}
    (h : ts.LeadsToClass ty) : ∃ k ≤ ts.chainLevels, ts.RootAbove k ty := by
  obtain ⟨u, hu, hend⟩ := h
  have hsuper : ∃ k ≤ ts.classes.size + 1, ts.RootAbove k u := by
    rcases hend with ⟨elem, hk⟩ | ⟨c, hc, hlt⟩
    · exact ⟨1, by omega, .array hk⟩
    · have hbelow : ∀ {c d : ClassId}, ts.Inherits c d → c.index < ts.classes.size := by
        intro c d hd
        by_contra hge
        rw [Inherits, superclasses_of_not_lt hge] at hd
        exact absurd hd List.not_mem_nil
      obtain ⟨k, hk, hpath⟩ := exists_path_below ClassId.index
        (fun _ _ h => congrArg ClassId.mk h) hbelow (hroot c hlt)
        (p := (· = .object)) rfl
      exact ⟨k, by omega, .classType hc hpath⟩
  obtain ⟨j, hj, hpath⟩ := exists_path_below TypeId.index
    (fun _ _ => TypeId.eq_of_index) (fun h => h.has) hu
    (p := fun u => ∃ k ≤ ts.classes.size + 1, ts.RootAbove k u) hsuper
  have hsum : ∀ {j ty}, Reaches ts.BoundedBy
      (fun u => ∃ k ≤ ts.classes.size + 1, ts.RootAbove k u) j ty →
      ∃ k ≤ j + (ts.classes.size + 1), ts.RootAbove k ty := by
    intro j
    induction j with
    | zero =>
      rintro ty ⟨k, hk, h⟩
      exact ⟨k, by omega, h⟩
    | succ j ih =>
      rintro ty ⟨b, hb, hrest⟩
      obtain ⟨k, hk, h⟩ := ih hrest
      exact ⟨k + 1, by omega, .next hb h⟩
  obtain ⟨k, hk, h⟩ := hsum hpath
  have hlevels : ts.pool.size + (ts.classes.size + 1) ≤ ts.chainLevels := by
    unfold chainLevels
    nlinarith [Nat.zero_le (ts.classes.size * ts.pool.size),
      Nat.zero_le (ts.typeVars.size * ts.pool.size)]
  exact ⟨k, by omega, h⟩

/-! ### Direct supertypes -/

/-- A class type keeps its class under substitution. -/
theorem classOf?_of_isResult {f : TypeVarId → Option TypeId} {ty r : TypeId} {c : ClassId}
    (h : Pool.IsResult f ty r ts.pool) (hc : ts.classOf? ty = some c) : ts.classOf? r = some c := by
  rw [classOf?, kind] at hc ⊢
  cases h.1 with
  | prim hk | null hk | raw hk => exact hc
  | var hk | array hk _ _ | lub _ hk _ _ _ =>
    rw [hk.kind_eq] at hc
    cases hc
  | inst _ hk _ _ _ _ hk' =>
    rw [hk.kind_eq] at hc
    rw [hk'.kind_eq]
    exact hc

/-- The direct supertypes lead to the root class if the type does. -/
def Rises (ts : TypeSystem) (ty : TypeId) (sups : List TypeId) : Prop :=
  ∀ k, ts.RootAbove (k + 1) ty → ∃ s ∈ sups, ts.RootAbove k s

theorem Rises.of_extends (hts : ts.Valid) (hext : Extends ts us) {ty : TypeId} {sups : List TypeId}
    (hty : ts.pool.Has ty) (h : ts.Rises ty sups) : us.Rises ty sups := by
  intro k hk
  obtain ⟨s, hs, hroot⟩ := h k (hk.of_ge hts hext hty)
  exact ⟨s, hs, hroot.of_extends hts hext⟩

/-- Of a class type, the supertypes are those that its class declares, perhaps substituted. -/
theorem rises_of_classOf? {ty : TypeId} {c : ClassId} {sups : List TypeId}
    (hc : ts.classOf? ty = some c)
    (h : ∀ sup ∈ ts.declaredSupertypes c, ∀ d, ts.classOf? sup = some d →
      ∃ s ∈ sups, ts.classOf? s = some d) : ts.Rises ty sups := by
  intro k hk
  cases hk with
  | classType hc' hpath =>
    cases hc.symm.trans hc'
    obtain ⟨d, hd, hrest⟩ := hpath
    obtain ⟨sup, hsup, hsupd⟩ := List.mem_filterMap.mp hd
    obtain ⟨s, hs, hsd⟩ := h sup hsup d hsupd
    exact ⟨s, hs, .classType hsd hrest⟩
  | array hk =>
    rw [classOf?, hk] at hc
    cases hc
  | next hstep _ =>
    rw [classOf?] at hc
    cases hstep with
    | bound hk | candidate hk _ =>
      rw [hk] at hc
      cases hc

/-- A type that is no class type leads on to its bound, its candidates or the root class. -/
theorem rises_of_boundedBy {ty : TypeId} {sups : List TypeId} (hc : ts.classOf? ty = none)
    (harray : ∀ elem, ts.kind ty = .array elem → ∃ s ∈ sups, ts.RootAbove 0 s)
    (h : ∀ u, ts.BoundedBy ty u → u ∈ sups) : ts.Rises ty sups := by
  intro k hk
  cases hk with
  | classType hc' _ => exact nomatch hc.symm.trans hc'
  | array hk => exact harray _ hk
  | next hstep hrest => exact ⟨_, h _ hstep, hrest⟩

/-- The direct supertypes that the declarations of `ts` give. -/
def supertypesAt (ts : TypeSystem) (ty : TypeId) : StateM TypeSystem (List TypeId) :=
  match ts.kind ty with
  | .prim _ | .null => return []
  | .array _ => return [.object]
  | .var v => return [(ts.typeVar v).bound]
  | .lub l => return ts.pool.candidates l
  | .raw c => return ts.declaredSupertypes c
  | .inst base _ _ => do
    let s ← Pool.fullSubst ty
    (ts.declaredSupertypes base).mapM fun sup => liftM (Pool.substitute s sup)

theorem supertypes_eq (ty : TypeId) :
    supertypes ty = (do supertypesAt (← get) ty) := rfl

/-- Without new declarations the direct supertypes are asked for in the same way. -/
theorem supertypesAt_of_extends (hts : ts.Valid) (hext : Extends ts us) {ty : TypeId}
    (hty : ts.pool.Has ty) : us.supertypesAt ty = ts.supertypesAt ty := by
  unfold supertypesAt
  rw [kind_of_le hext.le hty]
  cases hk : ts.kind ty with
  | prim _ | null | array _ => rfl
  | var v => simp only [hext.typeVar_eq]
  | lub l => simp only [candidates_of_le hts hext.le hty hk]
  | raw c | inst c _ _ => simp only [hext.declaredSupertypes_eq]

/-- The direct supertypes of a class type are those that its class declares, perhaps substituted, and
they are found again. -/
theorem supertypes_of_class (hts : ts.Valid) {ty : TypeId} {c : ClassId}
    (hc : ts.classOf? ty = some c) :
    Settles (supertypes ty) ts fun tys us => List.Forall₂ (fun sup s =>
      us.pool.Has s ∧ ∀ d, ts.classOf? sup = some d → us.classOf? s = some d)
      (ts.declaredSupertypes c) tys := by
  have hty := has_of_classOf? hc
  rw [supertypes_eq]
  refine Settles.get_bind ?_ fun us hus => congrFun (supertypesAt_of_extends hts hus hty) us
  unfold supertypesAt
  rw [classOf?] at hc
  cases hk : ts.kind ty with rw [hk] at hc
  | prim _ | null | array _ | var _ | lub _ => cases hc
  | raw b =>
    cases hc
    refine Settles.pure hts (List.forall₂_same.mpr fun sup hsup => ?_)
    exact ⟨hts.has_declaredSupertypes hsup, fun _ hd => hd⟩
  | inst b s outer =>
    cases hc
    refine (Settles.of_computes (fullSubst_computes hts hty)).bind fun sub us hus hvalid hsub => ?_
    have hstep : ∀ sup ∈ ts.declaredSupertypes c, ∀ vs, Store.Grows us vs → vs.Valid →
        Settles (liftM (Pool.substitute sub sup) : StateM TypeSystem TypeId) vs fun r ws =>
          ws.pool.Has r ∧ ∀ d, ts.classOf? sup = some d → ws.classOf? r = some d := by
      intro sup hsup vs hvs hvalid'
      have hhas := hts.has_declaredSupertypes hsup
      have hext := hus.trans hvs
      refine (Settles.of_computes (lift_computes hvalid' (Pool.substitute_computes hvalid'.pool
        (hsub.of_le hvs.le.1) (hhas.of_le hext.le.1)))).mono fun r ws hws _ hr => ?_
      refine ⟨hr.2, fun d hd => classOf?_of_isResult hr ?_⟩
      rw [classOf?_of_le (hext.trans hws).le hhas, hd]
    apply Settles.mapM _ hvalid hstep
    rintro sup r ws ws' hws ⟨hhas, hclass⟩
    exact ⟨hhas.of_le hws.le.1, fun d hd => (classOf?_of_le hws.le hhas).trans (hclass d hd)⟩

/-- The direct supertypes are found again, and the root class is above one of them if it is above the
type. -/
theorem supertypes_settles (hts : ts.Valid) {ty : TypeId} (hty : ts.pool.Has ty) :
    Settles (supertypes ty) ts fun tys us => us.Rises ty tys := by
  cases hc : ts.classOf? ty with
  | some c =>
    apply (supertypes_of_class hts hc).mono
    intro tys us hus _ htys
    refine rises_of_classOf? ((classOf?_of_le hus.le hty).trans hc) fun sup hsup d hd => ?_
    rw [hus.declaredSupertypes_eq] at hsup
    rw [classOf?_of_le hus.le (hts.has_declaredSupertypes hsup)] at hd
    obtain ⟨s, hs, -, hclass⟩ := exists_of_forall₂_right htys.flip hsup
    exact ⟨s, hs, hclass d hd⟩
  | none =>
    have hobject : ts.RootAbove 0 .object := by
      refine .classType (c := .object) ?_ rfl
      rw [classOf?, show ts.kind .object = _ from hts.object.kind_eq]
      rfl
    have hrises : ∀ {tys}, (∀ elem, ts.kind ty = .array elem → ∃ s ∈ tys, ts.RootAbove 0 s) →
        (∀ u, ts.BoundedBy ty u → u ∈ tys) → ts.Rises ty tys := rises_of_boundedBy hc
    rw [supertypes_eq]
    refine Settles.get_bind ?_ fun us hus => congrFun (supertypesAt_of_extends hts hus hty) us
    unfold supertypesAt
    cases hk : ts.kind ty with
    | prim _ | null =>
      refine Settles.pure hts (hrises (by simp [hk]) fun u hu => ?_)
      cases hu with
      | bound hk' | candidate hk' _ => cases hk.symm.trans hk'
    | array elem =>
      refine Settles.pure hts (hrises ?_ fun u hu => ?_)
      · exact fun _ _ => ⟨.object, List.mem_cons_self, hobject⟩
      · cases hu with
        | bound hk' | candidate hk' _ => cases hk.symm.trans hk'
    | var v =>
      refine Settles.pure hts (hrises (by simp [hk]) fun u hu => ?_)
      cases hu with
      | bound hk' =>
        cases hk.symm.trans hk'
        exact List.mem_cons_self
      | candidate hk' _ => cases hk.symm.trans hk'
    | lub l =>
      refine Settles.pure hts (hrises (by simp [hk]) fun u hu => ?_)
      cases hu with
      | bound hk' => cases hk.symm.trans hk'
      | candidate hk' hu =>
        cases hk.symm.trans hk'
        exact hu
    | raw c | inst c _ _ =>
      rw [classOf?, hk] at hc
      cases hc

/-! ### The chain -/

/-- The chain begins with what was seen before. -/
theorem prefix_chainWithin (levels : Nat) (seen level : List TypeId) (ts : TypeSystem) :
    seen <+: (chainWithin levels seen level ts).1 := by
  induction levels generalizing seen level ts with
  | zero => exact List.prefix_refl seen
  | succ levels ih =>
    unfold chainWithin
    rw [bind_apply]
    obtain ⟨new, heq, -⟩ := exists_appendNew_eq seen (level.mapM supertypes ts).1.flatten
    rw [heq, List.drop_left]
    cases new with
    | nil => exact List.prefix_refl seen
    | cons ty new => exact (List.prefix_append seen _).trans (ih _ _ _)

section Levels

variable {levels : Nat} {seen level : List TypeId}

/-- The supertypes of a level are found again, and those of a type lead to the root class if the type
does. -/
theorem mapM_supertypes_settles (hts : ts.Valid) (hlevel : ts.HasAll level) :
    Settles (level.mapM supertypes) ts fun sups us => us.HasAll sups.flatten ∧
      ∀ ty ∈ level, us.Rises ty sups.flatten := by
  have hstep : ∀ ty ∈ level, ∀ us, Store.Grows ts us → us.Valid →
      Settles (supertypes ty) us fun sups vs =>
        vs.HasAll sups ∧ ∀ ws, Extends vs ws → ws.Rises ty sups := by
    intro ty hty us hus hvalid
    have hhas := (hlevel ty hty).of_le hus.le.1
    refine ((supertypes_settles hvalid hhas).and_keeps (supertypes_keeps hvalid hhas)).mono ?_
    intro sups vs hvs hvalid' ⟨hrises, hall⟩
    exact ⟨hall, fun ws hws => hrises.of_extends hvalid' hws (hhas.of_le hvs.le.1)⟩
  refine (Settles.mapM ?_ hts hstep).mono fun sups us _ _ hsups => ⟨fun s hs => ?_, fun ty hty => ?_⟩
  · exact fun ty sups us vs hvs ⟨hall, hrises⟩ =>
      ⟨hall.of_le hvs.le, fun ws hws => hrises ws (hvs.trans hws)⟩
  · obtain ⟨tys, htys, hs⟩ := List.mem_flatten.mp hs
    obtain ⟨_, -, hall, -⟩ := exists_of_forall₂_right hsups htys
    exact hall s hs
  · intro k hk
    obtain ⟨tys, htys, -, hrises⟩ := exists_of_forall₂_right hsups.flip hty
    obtain ⟨s, hs, hroot⟩ := hrises us (.refl us) k hk
    exact ⟨s, List.mem_flatten.mpr ⟨tys, htys, hs⟩, hroot⟩

/-- One level of the chain. -/
theorem chainWithin_succ {sups : List (List TypeId)} {new : List TypeId}
    (hsups : level.mapM supertypes ts = (sups, us))
    (hnew : appendNew seen sups.flatten = seen ++ new) :
    chainWithin (levels + 1) seen level ts =
      if new = [] then (seen, us) else chainWithin levels (seen ++ new) new us := by
  rw [chainWithin, bind_apply, hsups]
  dsimp only
  rw [hnew, List.drop_left]
  cases new with
  | nil => rfl
  | cons ty new => rfl

/-- As long as nothing is declared, a later chain of no fewer levels begins with the chain. -/
theorem chainWithin_prefix (hts : ts.Valid) (hseen : ts.HasAll seen) (hlevel : ts.HasAll level)
    {levels' : Nat} (hle : levels ≤ levels') {vs : TypeSystem}
    (hvs : Extends (chainWithin levels seen level ts).2 vs) :
    (chainWithin levels seen level ts).1 <+: (chainWithin levels' seen level vs).1 := by
  induction levels generalizing levels' seen level ts with
  | zero => exact prefix_chainWithin levels' seen level vs
  | succ levels ih =>
    obtain ⟨levels', rfl⟩ := Nat.exists_eq_add_of_le' (Nat.lt_of_lt_of_le (Nat.succ_pos _) hle)
    have hsups := mapM_supertypes_settles hts hlevel
    obtain ⟨new, heq, hnew⟩ := exists_appendNew_eq seen (level.mapM supertypes ts).1.flatten
    rw [chainWithin_succ rfl heq] at hvs ⊢
    by_cases hnil : new = []
    · rw [if_pos hnil]
      exact prefix_chainWithin _ seen level vs
    · rw [if_neg hnil] at hvs ⊢
      have hnew' : (level.mapM supertypes ts).2.HasAll new := fun ty hty =>
        hsups.post.1 ty (hnew ty hty).1
      have hseen' : (level.mapM supertypes ts).2.HasAll (seen ++ new) := fun ty hty =>
        (List.mem_append.mp hty).elim (hseen.of_le hsups.grows.le ty) (hnew' ty)
      have hgrows := (chainWithin_keeps hsups.valid hseen' hnew').grows.trans hvs
      rw [chainWithin_succ (hsups.again vs hgrows) heq, if_neg hnil]
      exact ih hsups.valid hseen' hnew' (Nat.le_of_succ_le_succ hle) hvs

/-- Among types closed under supertypes the root class is found if it is above one of them. -/
theorem exists_root_of_rises (hclosed : ∀ ty ∈ seen, ts.Rises ty seen) {k : Nat} {ty : TypeId}
    (hty : ty ∈ seen) (hroot : ts.RootAbove k ty) : ∃ u ∈ seen, ts.classOf? u = some .object := by
  induction k generalizing ty with
  | zero =>
    cases hroot with
    | classType hc hpath => exact ⟨ty, hty, (show _ = _ from hpath) ▸ hc⟩
  | succ k ih =>
    obtain ⟨u, hu, hroot'⟩ := hclosed ty hty k hroot
    exact ih hu hroot'

/-- If the root class is above a type seen and not too far, the chain meets it. -/
theorem chainWithin_root (hts : ts.Valid) (hseen : ts.HasAll seen) (hlevel : ∀ ty ∈ level, ty ∈ seen)
    (hdone : ∀ ty ∈ seen, ty ∉ level → ts.Rises ty seen) {k : Nat} {ty : TypeId} (hty : ty ∈ seen)
    (hroot : ts.RootAbove k ty) (hk : k ≤ levels) :
    ∃ u ∈ (chainWithin levels seen level ts).1,
      (chainWithin levels seen level ts).2.classOf? u = some .object := by
  induction levels generalizing seen level ts k ty with
  | zero =>
    obtain rfl := Nat.le_zero.mp hk
    cases hroot with
    | classType hc hpath => exact ⟨ty, hty, (show _ = _ from hpath) ▸ hc⟩
  | succ levels ih =>
    have hsups := mapM_supertypes_settles hts fun ty hty => hseen ty (hlevel ty hty)
    obtain ⟨new, heq, hnew⟩ := exists_appendNew_eq seen (level.mapM supertypes ts).1.flatten
    rw [chainWithin_succ rfl heq]
    -- with the next level the supertypes of all types seen before have been seen
    have hnext : ∀ ty ∈ seen, (level.mapM supertypes ts).2.Rises ty (seen ++ new) := by
      intro ty hty j hj
      by_cases hmem : ty ∈ level
      · obtain ⟨u, hu, hrest⟩ := hsups.post.2 ty hmem j hj
        exact ⟨u, heq ▸ mem_appendNew.mpr (Or.inr hu), hrest⟩
      · obtain ⟨u, hu, hrest⟩ :=
          (hdone ty hty hmem).of_extends hts hsups.grows (hseen ty hty) j hj
        exact ⟨u, List.mem_append_left _ hu, hrest⟩
    have hroot' := hroot.of_extends hts hsups.grows
    by_cases hnil : new = []
    · subst hnil
      rw [if_pos rfl]
      rw [List.append_nil] at hnext
      exact exists_root_of_rises hnext hty hroot'
    · rw [if_neg hnil]
      have hseen' : (level.mapM supertypes ts).2.HasAll (seen ++ new) := fun ty hty =>
        (List.mem_append.mp hty).elim (hseen.of_le hsups.grows.le ty)
          fun h => hsups.post.1 ty (hnew ty h).1
      have hdone' : ∀ ty ∈ seen ++ new, ty ∉ new → 
          (level.mapM supertypes ts).2.Rises ty (seen ++ new) := fun ty hty hnot =>
        hnext ty ((List.mem_append.mp hty).resolve_right hnot)
      have hmem : ∀ ty ∈ new, ty ∈ seen ++ new := fun ty hty => List.mem_append_right _ hty
      cases k with
      | zero => exact ih hsups.valid hseen' hmem hdone' (List.mem_append_left _ hty) hroot' (Nat.zero_le _)
      | succ k =>
        obtain ⟨u, hu, hrest⟩ := hnext ty hty k hroot'
        exact ih hsups.valid hseen' hmem hdone' hu hrest (Nat.le_of_succ_le_succ hk)

end Levels

/-! ### The chain of a container -/

section Container

variable {ty : TypeId} (hprim : ∀ r, ts.kind ty ≠ .prim r) (hnull : ts.kind ty ≠ .null)
include hprim hnull

theorem lookupChain_apply :
    (lookupChain ty).run ts =
      let (start, us) := resolveLub ty ts
      let (chain, vs) := chainWithin us.chainLevels [start] [start] us
      (.ok chain, vs) := by
  unfold lookupChain
  rw [run_get_bind_apply]
  cases hk : ts.kind ty with
  | prim r => exact absurd hk (hprim r)
  | null => exact absurd hk hnull
  | array _ | raw _ | var _ | inst _ _ _ | lub _ => rfl

/-- The chain of an object type meets the root class, and as long as nothing is declared later chains
begin with it. -/
theorem lookupChain_root (hts : ts.Valid) (hty : ts.pool.Has ty)
    (hroot : ∀ c, c.index < ts.classes.size → ts.ExtendsRoot c)
    (hlead : (resolveLub ty ts).2.LeadsToClass (resolveLub ty ts).1) :
    ∃ chain us, (lookupChain ty).run ts = (.ok chain, us) ∧ Extends ts us ∧ us.Valid ∧
      us.HasAll chain ∧ (∃ u ∈ chain, us.classOf? u = some .object) ∧
      ∀ vs, Extends us vs → vs.Valid → ∃ more ws, (lookupChain ty).run vs = (.ok (chain ++ more), ws) ∧
        Extends vs ws ∧ ws.Valid ∧ ws.HasAll (chain ++ more) := by
  have hext : Extends ts (resolveLub ty ts).2 := (resolveLub_keeps hts hty).grows
  have hvalid : (resolveLub ty ts).2.Valid := (resolveLub_keeps hts hty).valid
  have hresolves := (resolveLub_keeps hts hty).post
  rw [lookupChain_apply hprim hnull]
  generalize resolveLub ty ts = x at hlead hext hvalid hresolves ⊢
  obtain ⟨start, us⟩ := x
  have hall : us.HasAll [start] := fun u hu =>
    List.mem_singleton.mp hu ▸ hresolves.has (hty.of_le hext.le.1)
  have hroot' : ∀ c, c.index < us.classes.size → us.ExtendsRoot c := by
    intro c hc
    rw [ExtendsRoot, hext.inherits_eq hts]
    exact hroot c (hext.classes_eq ▸ hc)
  obtain ⟨k, hk, hrootAbove⟩ := exists_rootAbove hroot' hlead
  let chain := chainWithin us.chainLevels [start] [start] us
  have hchain : Keeps (chainWithin us.chainLevels [start] [start]) us fun tys vs => vs.HasAll tys :=
    chainWithin_keeps hvalid hall hall
  refine ⟨chain.1, chain.2, rfl, hext.trans hchain.grows, hchain.valid, hchain.post, ?_, ?_⟩
  · exact chainWithin_root hvalid hall (fun _ h => h) (fun _ h hnot => absurd h hnot)
      List.mem_cons_self hrootAbove hk
  · intro vs hvs hvs'
    have hext' : Extends us vs := Store.Grows.trans hchain.grows hvs
    have hkind := kind_of_le (hext.trans hext').le hty
    have hagain := resolveLub_eq (hresolves.of_extends hvalid hext' (hty.of_le hext.le.1))
    have hlevels : us.chainLevels ≤ vs.chainLevels := by
      unfold chainLevels
      rw [hext'.classes_eq, hext'.typeVars_eq]
      exact Nat.mul_le_mul_left _ (Nat.add_le_add_right (InternTable.size_le_of_le hext'.le.1.1) 2)
    obtain ⟨more, hmore⟩ := chainWithin_prefix hvalid hall hall hlevels hvs
    have hkeeps : Keeps (chainWithin vs.chainLevels [start] [start]) vs
        fun tys ws => ws.HasAll tys :=
      chainWithin_keeps hvs' (hall.of_le hext'.le) (hall.of_le hext'.le)
    refine ⟨more, _, ?_, hkeeps.grows, hkeeps.valid, hmore ▸ hkeeps.post⟩
    rw [lookupChain_apply (hkind ▸ hprim) (hkind ▸ hnull), hagain]
    exact congrArg (Except.ok ·, _) hmore.symm

end Container

end TypeSystem

end Erasure
