/-
The search of the types above a container.

A lookup takes the types in the order in which they were found, and appends of the direct supertypes
of each those that were not found before, until no type is left. `Searches` is a run of that search,
of any length. The main statements:

* `IsChain.precedes`: first supertypes come on the chain before all types that are no nearer.
* `Searches.isChain`: a search finds a chain of the type that it starts from.
* `lookupChain_searches`, `exists_walksChain`: if no class inherits from itself, then the search above
  a type of a class comes to an end, and a lookup walks the chain that it finds.
* `WalksChain.exists_class_iff`: the classes of that chain are those that the class inherits from.
-/
import Erasure.Proofs.Canonical.Rank
import Erasure.Proofs.Strings.RawClass

namespace Erasure

open Relation (ReflTransGen TransGen)

namespace TypeSystem

/-! ### Lists in the order of discovery -/

section Lists

variable {α β : Type}

/-- The first element stands in the list no later than the second one. -/
def Precedes (l : List α) (a b : α) : Prop := ∀ p, p <+: l → b ∈ p → a ∈ p

theorem prefix_append_cases {p xs ys : List α} (h : p <+: xs ++ ys) :
    p <+: xs ∨ ∃ q, q <+: ys ∧ p = xs ++ q := by
  rcases List.prefix_or_prefix_of_prefix h (List.prefix_append xs ys) with hp | ⟨q, rfl⟩
  · exact .inl hp
  · exact .inr ⟨q, (List.prefix_append_right_inj xs).mp h, rfl⟩

/-- A list that ends within the images of a list ends within the image of one element. -/
theorem exists_of_prefix_flatMap {f : α → List β} {xs : List α} {q : List β}
    (h : q <+: xs.flatMap f) (hq : q ≠ []) : ∃ before a after r,
      xs = before ++ a :: after ∧ q = before.flatMap f ++ r ∧ r <+: f a ∧ r ≠ [] := by
  induction xs generalizing q with
  | nil => exact absurd (List.prefix_nil.mp h) hq
  | cons a xs ih =>
    rcases prefix_append_cases h with hr | ⟨rest, hrest, rfl⟩
    · exact ⟨[], a, xs, q, rfl, rfl, hr, hq⟩
    · by_cases hnil : rest = []
      · subst hnil
        rw [List.append_nil] at hq ⊢
        exact ⟨[], a, xs, f a, rfl, rfl, List.prefix_refl _, hq⟩
      · obtain ⟨before, b, after, r, rfl, rfl, hr, hne⟩ := ih hrest hnil
        exact ⟨a :: before, b, after, r, rfl, by rw [List.flatMap_cons, List.append_assoc], hr, hne⟩

variable [DecidableEq α]

theorem appendNew_append (seen xs ys : List α) :
    appendNew seen (xs ++ ys) = appendNew (appendNew seen xs) ys := List.foldl_append

theorem nodup_appendNew {seen : List α} (h : seen.Nodup) (xs : List α) :
    (appendNew seen xs).Nodup := by
  refine List.foldlRecOn (motive := List.Nodup) xs _ h fun ys hys x _ => ?_
  split
  case isTrue => exact hys
  case isFalse hx => exact List.concat_eq_append ▸ hys.concat hx

/-- Left out is only what was found before, so that the order stays. -/
theorem Precedes.of_append {seen xs : List α} {a b : α} (h : Precedes (seen ++ xs) a b) :
    Precedes (appendNew seen xs) a b := by
  induction xs generalizing seen with
  | nil => rwa [List.append_nil] at h
  | cons x xs ih =>
    rw [show appendNew seen (x :: xs) = appendNew (if x ∈ seen then seen else seen ++ [x]) xs from rfl]
    split
    case isFalse => exact ih ((List.append_assoc seen [x] xs).symm ▸ h)
    case isTrue hx =>
      refine ih fun p hp hb => ?_
      rcases prefix_append_cases hp with hp | ⟨q, hq, rfl⟩
      · exact h p (hp.trans (List.prefix_append _ _)) hb
      · have hq' : seen ++ x :: q <+: seen ++ x :: xs :=
          (List.prefix_append_right_inj seen).mpr (List.cons_prefix_cons.mpr ⟨rfl, hq⟩)
        have hb' : b ∈ seen ++ x :: q :=
          List.mem_append.mpr ((List.mem_append.mp hb).imp_right (List.mem_cons_of_mem x))
        rcases List.mem_append.mp (h _ hq' hb') with ha | ha
        · exact List.mem_append_left _ ha
        · rcases List.mem_cons.mp ha with rfl | ha
          · exact List.mem_append_left _ hx
          · exact List.mem_append_right _ ha

end Lists

/-! ### Chains -/

section Chains

variable {α : Type} [DecidableEq α] {next : α → List α} {t : α} {chain : List α}

/-- The list begins with the element, and goes on with what comes next to its elements, each at its
first mention. -/
structure IsChain (next : α → List α) (t : α) (chain : List α) : Prop where
  eq_appendNew : chain = appendNew [t] (chain.flatMap next)
  reached : ∀ a ∈ chain, ReflTransGen (fun a b => b ∈ next a) t a

/-- The element is so many steps away. -/
inductive IsStepsAway (next : α → List α) (t : α) : Nat → α → Prop
  | self : IsStepsAway next t 0 t
  | step {d : Nat} {a b : α} : IsStepsAway next t d a → b ∈ next a → IsStepsAway next t (d + 1) b

/-- So many steps, each to the first that comes next, lead to the element. -/
inductive IsFirstsAway (next : α → List α) (t : α) : Nat → α → Prop
  | self : IsFirstsAway next t 0 t
  | step {d : Nat} {a b : α} {rest : List α} : IsFirstsAway next t d a → next a = b :: rest →
      IsFirstsAway next t (d + 1) b

namespace IsChain

variable (h : IsChain next t chain)
include h

theorem nodup : chain.Nodup := by
  rw [h.eq_appendNew]
  exact nodup_appendNew (List.nodup_singleton t) _

theorem mem_start : t ∈ chain := by
  rw [h.eq_appendNew]
  exact mem_appendNew.mpr (.inl List.mem_cons_self)

/-- What comes next to an element is in the chain as well. -/
theorem closed {a b : α} (ha : a ∈ chain) (hb : b ∈ next a) : b ∈ chain := by
  rw [h.eq_appendNew]
  exact mem_appendNew.mpr (.inr (List.mem_flatMap.mpr ⟨a, ha, hb⟩))

theorem mem_iff {a : α} : a ∈ chain ↔ ReflTransGen (fun a b => b ∈ next a) t a := by
  refine ⟨h.reached a, fun ha => ?_⟩
  induction ha with
  | refl => exact h.mem_start
  | tail _ hstep ih => exact h.closed ih hstep

/-- The firsts come in the chain before all that is no nearer. -/
theorem precedes {d : Nat} {a b : α} (ha : IsFirstsAway next t d a) (hb : b ∈ chain)
    (hfar : ∀ j < d, ¬ IsStepsAway next t j b) : Precedes chain a b := by
  induction ha generalizing b with
  | self =>
    rw [h.eq_appendNew]
    refine Precedes.of_append fun p hp hb => ?_
    rcases List.prefix_cons_iff.mp hp with rfl | ⟨q, rfl, -⟩
    · exact absurd hb List.not_mem_nil
    · exact List.mem_cons_self
  | @step d u v rest hu hnext ih =>
    rw [h.eq_appendNew]
    refine Precedes.of_append fun p hp hbp => ?_
    rcases List.prefix_cons_iff.mp hp with rfl | ⟨q, rfl, hq⟩
    · exact absurd hbp List.not_mem_nil
    rcases List.mem_cons.mp hbp with rfl | hbq
    · exact absurd .self (hfar 0 (Nat.succ_pos d))
    obtain ⟨before, x, after, r, heq, rfl, hr, hne⟩ :=
      exists_of_prefix_flatMap hq (List.ne_nil_of_mem hbq)
    -- an element that `b` comes next to is no nearer than `u`, so that `u` comes before it
    have hparent : ∃ y ∈ before ++ [x], b ∈ next y := by
      rcases List.mem_append.mp hbq with hb | hb
      · obtain ⟨y, hy, hb⟩ := List.mem_flatMap.mp hb
        exact ⟨y, List.mem_append_left _ hy, hb⟩
      · exact ⟨x, List.mem_append_right _ List.mem_cons_self, hr.subset hb⟩
    obtain ⟨y, hy, hby⟩ := hparent
    have hbefore : before ++ [x] <+: chain :=
      heq ▸ (List.prefix_append_right_inj before).mpr (List.cons_prefix_cons.mpr ⟨rfl, List.nil_prefix⟩)
    have hfar' : ∀ j < d, ¬ IsStepsAway next t j y := fun j hj hstep =>
      hfar (j + 1) (Nat.succ_lt_succ hj) (.step hstep hby)
    have hu : u ∈ before ++ [x] := ih (hbefore.subset hy) hfar' _ hbefore hy
    refine List.mem_cons_of_mem _ (List.mem_append.mpr ?_)
    rcases List.mem_append.mp hu with hu | hu
    · exact .inl (List.mem_flatMap.mpr ⟨u, hu, hnext ▸ List.mem_cons_self⟩)
    · obtain rfl := List.mem_singleton.mp hu
      rw [hnext] at hr
      rcases List.prefix_cons_iff.mp hr with rfl | ⟨r', rfl, -⟩
      · exact absurd rfl hne
      · exact .inr List.mem_cons_self

end IsChain

end Chains

variable {ts us vs : TypeSystem} {t ty : TypeId} {c : ClassId}

/-! ### Direct supertypes -/

/-- The direct supertypes of a type. -/
def above (ts : TypeSystem) (ty : TypeId) : List TypeId := (supertypes ty ts).1

/-- The direct supertypes of a class type are of the classes that its class extends, in their
order. -/
theorem supertypes_classes (hts : ts.Valid) (hlinks : ts.LinksClasses)
    (hc : ts.classOf? ty = some c) :
    Settles (supertypes ty) ts fun tys us =>
      tys.map us.classOf? = (us.superclasses c).map some := by
  apply (supertypes_of_class hts hc).mono
  intro tys us hus _ htys
  rw [hus.superclasses_eq hts, superclasses]
  have hlinked := hlinks c
  generalize ts.declaredSupertypes c = sups at htys hlinked
  induction htys with
  | nil => rfl
  | @cons sup s sups tys hs _ ih =>
    obtain ⟨d, hd⟩ := hlinked sup List.mem_cons_self
    rw [List.map_cons, List.filterMap_cons_some hd, List.map_cons, hs.2 d hd,
      ih fun s hs => hlinked s (List.mem_cons_of_mem _ hs)]

/-- A type of a class. -/
def IsClassType (ts : TypeSystem) (ty : TypeId) : Prop := ∃ c, ts.classOf? ty = some c

theorem IsClassType.of_le (hle : ts ≤ us) (h : ts.IsClassType ty) : us.IsClassType ty := by
  obtain ⟨c, hc⟩ := h
  exact ⟨c, (classOf?_of_le hle (has_of_classOf? hc)).trans hc⟩

/-- The direct supertypes of the type are known: to ask for them interns nothing. -/
def KnowsAbove (ts : TypeSystem) (ty : TypeId) : Prop := supertypes ty ts = (ts.above ty, ts)

theorem KnowsAbove.of_extends (hc : ts.classOf? ty = some c) (hts : ts.Valid)
    (hext : Extends (supertypes ty ts).2 us) :
    us.above ty = ts.above ty ∧ us.KnowsAbove ty := by
  have hagain : supertypes ty us = (ts.above ty, us) := (supertypes_of_class hts hc).again us hext
  have habove : us.above ty = ts.above ty := by rw [above, hagain]
  exact ⟨habove, hagain.trans (habove ▸ rfl)⟩

theorem KnowsAbove.classes (h : ts.KnowsAbove ty) (hts : ts.Valid) (hlinks : ts.LinksClasses)
    (hc : ts.classOf? ty = some c) :
    (ts.above ty).map ts.classOf? = (ts.superclasses c).map some := by
  have hclasses := (supertypes_classes hts hlinks hc).post
  rwa [h] at hclasses

/-- A class type is directly above another exactly if its class is extended by the other one. -/
theorem KnowsAbove.exists_iff (h : ts.KnowsAbove ty) (hts : ts.Valid) (hlinks : ts.LinksClasses)
    (hc : ts.classOf? ty = some c) {d : ClassId} :
    (∃ s ∈ ts.above ty, ts.classOf? s = some d) ↔ ts.Inherits c d := by
  have hiff : some d ∈ (ts.above ty).map ts.classOf? ↔ some d ∈ (ts.superclasses c).map some := by
    rw [h.classes hts hlinks hc]
  rw [List.mem_map, List.mem_map] at hiff
  rw [hiff]
  exact ⟨fun ⟨e, he, heq⟩ => Option.some.inj heq ▸ he, fun hd => ⟨d, hd, rfl⟩⟩

theorem KnowsAbove.isClassType (h : ts.KnowsAbove ty) (hts : ts.Valid) (hlinks : ts.LinksClasses)
    (hc : ts.classOf? ty = some c) {s : TypeId} (hs : s ∈ ts.above ty) : ts.IsClassType s := by
  have hmem : ts.classOf? s ∈ (ts.superclasses c).map some :=
    h.classes hts hlinks hc ▸ List.mem_map.mpr ⟨s, hs, rfl⟩
  obtain ⟨d, -, hd⟩ := List.mem_map.mp hmem
  exact ⟨d, hd.symm⟩

/-! ### Searches -/

/-- A run of the search, from the types whose direct supertypes were found and those still to be
taken, to all types that it finds. -/
inductive Searches : (done todo : List TypeId) → TypeSystem → (chain : List TypeId) → TypeSystem →
    Prop
  | stop {done : List TypeId} {ts : TypeSystem} : Searches done [] ts done ts
  | step {done todo sups new chain : List TypeId} {ty : TypeId} {ts us vs : TypeSystem} :
      supertypes ty ts = (sups, us) →
      appendNew (done ++ ty :: todo) sups = done ++ ty :: todo ++ new →
      Searches (done ++ [ty]) (todo ++ new) us chain vs → Searches done (ty :: todo) ts chain vs

namespace Searches

variable {done todo chain : List TypeId}

/-- A search comes to one result. -/
theorem unique {chain' : List TypeId} {vs' : TypeSystem} (h : Searches done todo ts chain vs)
    (h' : Searches done todo ts chain' vs') : chain = chain' ∧ vs = vs' := by
  induction h with
  | stop =>
    cases h'
    exact ⟨rfl, rfl⟩
  | step hsups hnew _ ih =>
    cases h' with
    | step hsups' hnew' hrest' =>
      obtain ⟨rfl, rfl⟩ := Prod.mk.inj (hsups.symm.trans hsups')
      obtain rfl := List.append_cancel_left (hnew.symm.trans hnew')
      exact ih hrest'

/-- A level that was looked at as a whole is looked at type by type. -/
theorem of_level {level extra new : List TypeId} {sups : List (List TypeId)}
    (hsups : level.mapM supertypes ts = (sups, us))
    (hnew : appendNew (done ++ level ++ extra) sups.flatten = done ++ level ++ extra ++ new)
    (hrest : Searches (done ++ level) (extra ++ new) us chain vs) :
    Searches done (level ++ extra) ts chain vs := by
  induction level generalizing ts done extra new sups with
  | nil =>
    cases hsups
    obtain rfl : [] = new := List.append_cancel_left ((List.append_nil _).trans hnew)
    rwa [List.append_nil, List.append_nil] at hrest
  | cons ty level ih =>
    rw [List.mapM_cons, bind_apply, bind_apply] at hsups
    cases hsups
    obtain ⟨first, hfirst, -⟩ :=
      exists_appendNew_eq (done ++ ty :: (level ++ extra)) (supertypes ty ts).1
    rw [List.flatten_cons, appendNew_append, List.append_assoc, List.cons_append, hfirst] at hnew
    obtain ⟨second, hsecond, -⟩ := exists_appendNew_eq (done ++ ty :: (level ++ extra) ++ first)
      (level.mapM supertypes (supertypes ty ts).2).1.flatten
    obtain rfl : first ++ second = new :=
      List.append_cancel_left ((List.append_assoc ..).symm.trans (hsecond.symm.trans hnew))
    refine .step (Prod.mk.eta).symm hfirst ?_
    show Searches (done ++ [ty]) (level ++ extra ++ first) _ chain vs
    rw [List.append_assoc]
    have hqueue : appendNew (done ++ [ty] ++ level ++ (extra ++ first))
        (level.mapM supertypes (supertypes ty ts).2).1.flatten =
          done ++ [ty] ++ level ++ (extra ++ first) ++ second := by
      simpa only [List.append_assoc, List.cons_append, List.nil_append] using hsecond
    refine ih (Prod.mk.eta).symm hqueue ?_
    simpa only [List.append_assoc, List.cons_append, List.nil_append] using hrest

/-- One step of a search interns what it needs, and finds class types. -/
theorem step_keeps (hts : ts.Valid) (hlinks : ts.LinksClasses) {sups new : List TypeId}
    (hclasses : ∀ u ∈ done ++ ty :: todo, ts.IsClassType u)
    (hsups : supertypes ty ts = (sups, us))
    (hnew : appendNew (done ++ ty :: todo) sups = done ++ ty :: todo ++ new) :
    Extends ts us ∧ us.Valid ∧ us.LinksClasses ∧
      (∀ u ∈ done ++ [ty] ++ (todo ++ new), us.IsClassType u) ∧
      ∀ vs, Extends us vs → vs.above ty = sups ∧ vs.KnowsAbove ty := by
  obtain ⟨c, hc⟩ := hclasses ty (List.mem_append_right _ List.mem_cons_self)
  have hstep := supertypes_classes hts hlinks hc
  obtain ⟨rfl, rfl⟩ := Prod.mk.inj (Prod.mk.eta.trans hsups)
  have hext : Extends ts (supertypes ty ts).2 := hstep.grows
  have hlinks' := hlinks.of_extends hts hext
  have hc' := (classOf?_of_le hext.le (has_of_classOf? hc)).trans hc
  have hknows := KnowsAbove.of_extends hc hts (.refl (supertypes ty ts).2)
  refine ⟨hext, hstep.valid, hlinks', fun u hu => ?_, fun vs => KnowsAbove.of_extends hc hts⟩
  have hu' : u ∈ appendNew (done ++ ty :: todo) (ts.above ty) := by
    rw [above, hnew]
    simpa only [List.append_assoc, List.cons_append, List.nil_append] using hu
  rcases mem_appendNew.mp hu' with hu | hu
  · exact (hclasses u hu).of_le hext.le
  · exact hknows.2.isClassType hstep.valid hlinks' hc' (hknows.1 ▸ hu)

/-- So does a search. -/
theorem grows (hts : ts.Valid) (hlinks : ts.LinksClasses) (h : Searches done todo ts chain vs)
    (hclasses : ∀ u ∈ done ++ todo, ts.IsClassType u) :
    Extends ts vs ∧ vs.Valid ∧ ∀ u ∈ chain, vs.IsClassType u := by
  induction h with
  | stop => exact ⟨.refl _, hts, fun u hu => hclasses u (List.mem_append_left _ hu)⟩
  | step hsups hnew _ ih =>
    obtain ⟨hext, hvalid, hlinks', hclasses', -⟩ := step_keeps hts hlinks hclasses hsups hnew
    obtain ⟨hext', hvalid', hchain⟩ := ih hvalid hlinks' hclasses'
    exact ⟨hext.trans hext', hvalid', hchain⟩

/-- What a search finds is a chain, if it starts from the beginning of one. Of all types found the
direct supertypes are known. -/
theorem isChain (hts : ts.Valid) (hlinks : ts.LinksClasses) (h : Searches done todo ts chain vs)
    (hclasses : ∀ u ∈ done ++ todo, ts.IsClassType u)
    (heq : done ++ todo = appendNew [t] (done.flatMap vs.above))
    (hreached : ∀ u ∈ done ++ todo, ReflTransGen (fun a b => b ∈ vs.above a) t u)
    (hknows : ∀ u ∈ done, vs.KnowsAbove u) :
    IsChain vs.above t chain ∧ ∀ u ∈ chain, vs.KnowsAbove u := by
  induction h with
  | stop =>
    rw [List.append_nil] at heq hreached
    exact ⟨⟨heq, hreached⟩, hknows⟩
  | @step done todo sups new chain ty ts us vs hsups hnew hrest ih =>
    obtain ⟨-, hvalid, hlinks', hclasses', hknown⟩ := step_keeps hts hlinks hclasses hsups hnew
    obtain ⟨rfl, hty⟩ := hknown vs (hrest.grows hvalid hlinks' hclasses').1
    have hqueue : done ++ [ty] ++ (todo ++ new) = appendNew (done ++ ty :: todo) (vs.above ty) := by
      rw [hnew]
      simp only [List.append_assoc, List.cons_append, List.nil_append]
    refine ih hvalid hlinks' hclasses' ?_ (fun u hu => ?_) fun u hu => ?_
    · rw [hqueue, heq, List.flatMap_append, appendNew_append, List.flatMap_singleton]
    · rcases mem_appendNew.mp (hqueue ▸ hu) with hu | hu
      · exact hreached u hu
      · exact (hreached ty (List.mem_append_right _ List.mem_cons_self)).tail hu
    · rcases List.mem_append.mp hu with hu | hu
      · exact hknows u hu
      · exact List.mem_singleton.mp hu ▸ hty

end Searches

/-! ### The end of a search -/

/-- How many classes there are above a class, with the class. -/
noncomputable def classRank (ts : TypeSystem) (c : ClassId) : Nat :=
  (reached ts.Inherits (fun d i => d.index = i) ts.classes.size c).card

theorem classRank_lt (hacyclic : ∀ c, ¬ TransGen ts.Inherits c c) {d : ClassId}
    (h : ts.Inherits c d) : ts.classRank d < ts.classRank c := by
  have hlt : c.index < ts.classes.size := by
    by_contra hnot
    rw [Inherits, superclasses_of_not_lt hnot] at h
    exact List.not_mem_nil h
  refine card_reached_lt _ h (hacyclic c) hlt rfl ?_
  rintro ⟨i⟩ rfl
  rfl

theorem classRank_lt_chainLevels (ts : TypeSystem) (c : ClassId) :
    ts.classRank c < ts.chainLevels := by
  have hle : ts.classRank c ≤ ts.classes.size := card_reached_bound ..
  have hlevels : ts.classes.size + ts.typeVars.size + 2 ≤ ts.chainLevels :=
    Nat.le_mul_of_pos_right _ (Nat.succ_pos _)
  omega

/-- The direct supertypes of a level of class types are of the classes that their classes extend. -/
theorem mapM_supertypes_inherits (hts : ts.Valid) (hlinks : ts.LinksClasses) {level : List TypeId}
    (hlevel : ∀ u ∈ level, ts.IsClassType u) :
    Keeps (level.mapM supertypes) ts fun sups us => ∀ s ∈ sups.flatten, ∃ u ∈ level, ∃ c d,
      ts.classOf? u = some c ∧ us.classOf? s = some d ∧ ts.Inherits c d := by
  have hstep : ∀ u ∈ level, ∀ us, Store.Grows ts us → us.Valid →
      Keeps (supertypes u) us fun tys vs => ∀ s ∈ tys, ∃ c d,
        ts.classOf? u = some c ∧ vs.classOf? s = some d ∧ ts.Inherits c d := by
    intro u hu us hus hvalid
    obtain ⟨c, hc⟩ := hlevel u hu
    have hc' : us.classOf? u = some c := (classOf?_of_le hus.le (has_of_classOf? hc)).trans hc
    apply (supertypes_classes hvalid (hlinks.of_extends hts hus) hc').toKeeps.mono
    intro tys vs hvs _ hclasses s hs
    have hmem : vs.classOf? s ∈ (vs.superclasses c).map some :=
      hclasses ▸ List.mem_map.mpr ⟨s, hs, rfl⟩
    obtain ⟨d, hd, heq⟩ := List.mem_map.mp hmem
    have hinherits : vs.Inherits = ts.Inherits := (hus.trans hvs).inherits_eq hts
    exact ⟨c, d, hc, heq.symm, hinherits ▸ hd⟩
  refine (Keeps.mapM (R := fun u tys us => ∀ s ∈ tys, ∃ c d,
    ts.classOf? u = some c ∧ us.classOf? s = some d ∧ ts.Inherits c d) ?_ hts hstep).mono ?_
  · intro u tys us vs hus h s hs
    obtain ⟨c, d, hc, hd, hinherits⟩ := h s hs
    exact ⟨c, d, hc, (classOf?_of_le hus.le (has_of_classOf? hd)).trans hd, hinherits⟩
  · intro sups us _ _ hsups s hs
    obtain ⟨tys, htys, hs⟩ := List.mem_flatten.mp hs
    obtain ⟨u, hu, h⟩ := exists_of_forall₂_right hsups htys
    exact ⟨u, hu, h s hs⟩

/-- With as many levels as there are classes above those of a level, all types above it are found. -/
theorem chainWithin_searches (hts : ts.Valid) (hlinks : ts.LinksClasses)
    (hacyclic : ∀ c, ¬ TransGen ts.Inherits c c) {levels : Nat} {done level : List TypeId}
    (hlevel : ∀ u ∈ level, ∃ c, ts.classOf? u = some c ∧ ts.classRank c < levels) :
    Searches done level ts (chainWithin levels (done ++ level) level ts).1
      (chainWithin levels (done ++ level) level ts).2 := by
  induction levels generalizing ts done level with
  | zero =>
    have hnil : level = [] :=
      List.eq_nil_iff_forall_not_mem.mpr fun u hu =>
        let ⟨_, _, hlt⟩ := hlevel u hu
        absurd hlt (Nat.not_lt_zero _)
    rw [hnil, List.append_nil]
    exact .stop
  | succ levels ih =>
    have hclasses : ∀ u ∈ level, ts.IsClassType u := fun u hu =>
      let ⟨c, hc, _⟩ := hlevel u hu
      ⟨c, hc⟩
    have hsups := mapM_supertypes_inherits hts hlinks hclasses
    have hext : Extends ts (level.mapM supertypes ts).2 := hsups.grows
    obtain ⟨new, heq, hnew⟩ :=
      exists_appendNew_eq (done ++ level) (level.mapM supertypes ts).1.flatten
    rw [chainWithin_succ rfl heq]
    have hqueue : appendNew (done ++ level ++ []) (level.mapM supertypes ts).1.flatten =
        done ++ level ++ [] ++ new := by rwa [List.append_nil]
    rw [show Searches done level ts = Searches done (level ++ []) ts by rw [List.append_nil]]
    refine Searches.of_level Prod.mk.eta.symm hqueue ?_
    rw [List.nil_append]
    by_cases hnil : new = []
    · rw [if_pos hnil, hnil]
      exact .stop
    · rw [if_neg hnil]
      refine ih hsups.valid (hlinks.of_extends hts hext) ?_ fun s hs => ?_
      · rwa [hext.inherits_eq hts]
      · obtain ⟨u, hu, c, d, hc, hd, hinherits⟩ := hsups.post s (hnew s hs).1
        obtain ⟨c', hc', hrank⟩ := hlevel u hu
        obtain rfl := Option.some.inj (hc.symm.trans hc')
        have hless := classRank_lt hacyclic hinherits
        refine ⟨d, hd, ?_⟩
        rw [classRank, hext.inherits_eq hts, hext.classes_eq, ← classRank]
        omega

/-- If no class inherits from itself, then the search above a class type comes to an end, and a
lookup walks the chain that it finds. -/
theorem lookupChain_searches (hts : ts.Valid) (hlinks : ts.LinksClasses)
    (hacyclic : ∀ c, ¬ TransGen ts.Inherits c c) (hc : ts.classOf? ty = some c) :
    ∃ chain us, (lookupChain ty).run ts = (.ok chain, us) ∧ Searches [] [ty] ts chain us := by
  have hkind : (∀ r, ts.kind ty ≠ .prim r) ∧ ts.kind ty ≠ .null ∧ ∀ l, ts.kind ty ≠ .lub l := by
    refine ⟨fun r hk => ?_, fun hk => ?_, (isRigid_of_classOf? hc).2⟩ <;>
      rw [classOf?, hk] at hc <;> cases hc
  obtain ⟨hprim, hnull, hlub⟩ := hkind
  have hresolve : resolveLub ty ts = (ty, ts) := by
    refine resolveLub_eq ?_
    unfold Resolves
    split
    case h_1 l hk => exact absurd hk (hlub l)
    case h_2 => rfl
  have hlevel : ∀ u ∈ [ty], ∃ c, ts.classOf? u = some c ∧ ts.classRank c < ts.chainLevels :=
    fun u hu => List.mem_singleton.mp hu ▸ ⟨c, hc, ts.classRank_lt_chainLevels c⟩
  have hsearch : Searches [] [ty] ts (chainWithin ts.chainLevels [ty] [ty] ts).1
      (chainWithin ts.chainLevels [ty] [ty] ts).2 := chainWithin_searches hts hlinks hacyclic hlevel
  rw [lookupChain_apply hprim hnull, hresolve]
  exact ⟨_, _, rfl, hsearch⟩

/-- A lookup in the type walks the chain, where the search for types above it has ended. -/
structure WalksChain (ts us : TypeSystem) (ty : TypeId) (chain : List TypeId) : Prop where
  lookup : (lookupChain ty).run ts = (.ok chain, us)
  searches : Searches [] [ty] ts chain us
  grows : Extends ts us
  valid : us.Valid
  isChain : IsChain us.above ty chain
  knows : ∀ u ∈ chain, us.KnowsAbove u
  classes : ∀ u ∈ chain, us.IsClassType u

/-- A lookup in a class type walks a chain. -/
theorem exists_walksChain (hts : ts.Valid) (hlinks : ts.LinksClasses)
    (hacyclic : ∀ c, ¬ TransGen ts.Inherits c c) (hc : ts.classOf? ty = some c) :
    ∃ chain us, WalksChain ts us ty chain := by
  obtain ⟨chain, us, hlookup, hsearch⟩ := lookupChain_searches hts hlinks hacyclic hc
  have hstart : ∀ u ∈ [] ++ [ty], ts.IsClassType u := fun u hu =>
    List.mem_singleton.mp hu ▸ ⟨c, hc⟩
  obtain ⟨hext, hvalid, hclasses⟩ := hsearch.grows hts hlinks hstart
  obtain ⟨hchain, hknows⟩ := hsearch.isChain hts hlinks hstart rfl
    (fun u hu => List.mem_singleton.mp hu ▸ .refl) fun u hu => absurd hu List.not_mem_nil
  exact ⟨chain, us, hlookup, hsearch, hext, hvalid, hchain, hknows, hclasses⟩

/-- A type of the class, or of one above it. -/
def IsAtOrAbove (ts : TypeSystem) (c : ClassId) (ty : TypeId) : Prop :=
  ∃ d, ts.classOf? ty = some d ∧ ReflTransGen ts.Inherits c d

theorem IsAtOrAbove.of_extends (hts : ts.Valid) (hext : Extends ts us) (h : ts.IsAtOrAbove c ty) :
    us.IsAtOrAbove c ty := by
  obtain ⟨d, hd, hcd⟩ := h
  exact ⟨d, (classOf?_of_le hext.le (has_of_classOf? hd)).trans hd, hext.inherits_eq hts ▸ hcd⟩

namespace WalksChain

variable {chain : List TypeId}

/-- The classes of the chain are those that the class inherits from. -/
theorem exists_class_iff (hts : ts.Valid) (hlinks : ts.LinksClasses)
    (h : WalksChain ts us ty chain) (hc : ts.classOf? ty = some c) {d : ClassId} :
    (∃ u ∈ chain, us.classOf? u = some d) ↔ ReflTransGen us.Inherits c d := by
  have hc' := (classOf?_of_le h.grows.le (has_of_classOf? hc)).trans hc
  have hlinks' := hlinks.of_extends hts h.grows
  constructor
  · rintro ⟨u, hu, hd⟩
    have hpath := h.isChain.reached u hu
    induction hpath generalizing d with
    | refl => exact Option.some.inj (hc'.symm.trans hd) ▸ .refl
    | @tail v u hpath hstep ih =>
      have hv := h.isChain.mem_iff.mpr hpath
      obtain ⟨e, he⟩ := h.classes v hv
      exact (ih hv he).tail (((h.knows v hv).exists_iff h.valid hlinks' he).mp ⟨u, hstep, hd⟩)
  · intro hpath
    induction hpath with
    | refl => exact ⟨ty, h.isChain.mem_start, hc'⟩
    | tail _ hstep ih =>
      obtain ⟨u, hu, he⟩ := ih
      obtain ⟨s, hs, hd⟩ := ((h.knows u hu).exists_iff h.valid hlinks' he).mpr hstep
      exact ⟨s, h.isChain.closed hu hs, hd⟩

theorem isAtOrAbove (hts : ts.Valid) (hlinks : ts.LinksClasses) (h : WalksChain ts us ty chain)
    (hc : ts.classOf? ty = some c) {u : TypeId} (hu : u ∈ chain) : us.IsAtOrAbove c u := by
  obtain ⟨d, hd⟩ := h.classes u hu
  exact ⟨d, hd, (h.exists_class_iff hts hlinks hc).mp ⟨u, hu, hd⟩⟩

end WalksChain

end TypeSystem

end Erasure
