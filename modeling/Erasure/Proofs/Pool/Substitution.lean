/-
Substitution as a relation, and the substitution of a pool computes it.

`Substitutes p f ty r` says what the numbers of a pool say about replacing variables: `r` is `ty`
with every variable `v` replaced by `f v`, where there is such a type. The main statements:

* `Substitutes.unique`: a type has one result in a pool.
* `substitute_computes`: substituting finds or makes that result; the shortcut for erased types
  and for the empty substitution gives what the structure of the type demands.
* `fullSubst_computes`: an instantiation substitutes what it and its enclosing instances bind.
-/
import Erasure.Pool.Substitution
import Erasure.Proofs.Pool.Shape

namespace Erasure

/-- Related lists have one image under functions that agree on what is related. -/
theorem map_eq_map_of_forall₂ {α β γ : Type} {R : α → β → Prop} {f : α → γ} {g : β → γ}
    {as : List α} {bs : List β} (h : List.Forall₂ R as bs) (hfg : ∀ a b, R a b → f a = g b) :
    as.map f = bs.map g := by
  rw [← List.forall₂_eq_eq_eq, List.forall₂_map_left_iff, List.forall₂_map_right_iff]
  exact h.imp hfg

/-- A list related to another by a relation that `g` follows is its image under `g`. -/
theorem eq_map_of_forall₂ {α β : Type} {R : α → β → Prop} {g : α → β} {as : List α} {bs : List β}
    (hg : ∀ a b, R a b → g a = b) (h : List.Forall₂ R as bs) :
    bs = as.map g ∧ ∀ a ∈ as, R a (g a) := by
  have hmap : as.map g = bs := by simpa using map_eq_map_of_forall₂ (g := id) h hg
  subst hmap
  rw [List.forall₂_map_right_iff, List.forall₂_same] at h
  exact ⟨rfl, h⟩

theorem exists_of_forall₂_right {α β : Type} {R : α → β → Prop} {as : List α} {bs : List β}
    (h : List.Forall₂ R as bs) {b : β} (hb : b ∈ bs) : ∃ a ∈ as, R a b := by
  induction h with
  | nil => exact absurd hb List.not_mem_nil
  | @cons a' b' as bs hab _ ih =>
    rcases List.mem_cons.mp hb with rfl | hb
    · exact ⟨a', List.mem_cons_self, hab⟩
    · obtain ⟨a, ha, hab⟩ := ih hb
      exact ⟨a, List.mem_cons_of_mem _ ha, hab⟩

theorem exists_of_forall₂_left {α β : Type} {R : α → β → Prop} {as : List α} {bs : List β}
    (h : List.Forall₂ R as bs) {a : α} (ha : a ∈ as) : ∃ b ∈ bs, R a b :=
  exists_of_forall₂_right (R := fun b a => R a b) h.flip ha

theorem exists_forall₂ {α β : Type} {R : α → β → Prop} {as : List α} (h : ∀ a ∈ as, ∃ b, R a b) :
    ∃ bs, List.Forall₂ R as bs := by
  induction as with
  | nil => exact ⟨[], .nil⟩
  | cons a as ih =>
    obtain ⟨b, hb⟩ := h a List.mem_cons_self
    obtain ⟨bs, hbs⟩ := ih fun c hc => h c (List.mem_cons_of_mem _ hc)
    exact ⟨b :: bs, .cons hb hbs⟩

/-- An optional value related to another by a relation that `g` follows is its image under
`g`. -/
theorem eq_map_of_rel {α β : Type} {R : α → β → Prop} {g : α → β} {a : Option α} {b : Option β}
    (hg : ∀ a b, R a b → g a = b) (h : Option.Rel R a b) :
    b = a.map g ∧ ∀ x ∈ a, R x (g x) := by
  cases h with
  | none => exact ⟨rfl, fun x hx => nomatch hx⟩
  | some hab =>
    obtain rfl := hg _ _ hab
    exact ⟨rfl, fun x hx => Option.some.inj hx ▸ hab⟩

/-- The bindings with another type for each variable. -/
def Bindings.mapTypes (g : TypeId → TypeId) (bs : Bindings) : Bindings :=
  bs.map fun b => (b.1, g b.2)

theorem Bindings.Sorted.mapTypes {bs : Bindings} (h : bs.Sorted) (g : TypeId → TypeId) :
    (bs.mapTypes g).Sorted := List.Pairwise.map _ (fun _ _ hlt => hlt) h

namespace Pool

variable {p q : Pool} {f : TypeVarId → Option TypeId}

/-! ### Substitution as a relation -/

/-- The second type is the first one with its variables replaced as `f` says. The types of the
parts are given by a function, since a type has one result only. -/
inductive Substitutes (p : Pool) (f : TypeVarId → Option TypeId) : TypeId → TypeId → Prop
  | prim {ty : TypeId} {r : Primitive} : p.HasKind ty (.prim r) → Substitutes p f ty ty
  | null {ty : TypeId} : p.HasKind ty .null → Substitutes p f ty ty
  | raw {ty : TypeId} {c : ClassId} : p.HasKind ty (.raw c) → Substitutes p f ty ty
  | var {ty : TypeId} {v : TypeVarId} : p.HasKind ty (.var v) → Substitutes p f ty ((f v).getD ty)
  | array {ty elem elem' ty' : TypeId} : p.HasKind ty (.array elem) →
      Substitutes p f elem elem' → p.HasKind ty' (.array elem') → Substitutes p f ty ty'
  | inst {ty ty' : TypeId} {base : ClassId} {s s' : SubstId} {outer : Option TypeId}
      {bs : Bindings} (g : TypeId → TypeId) : p.HasKind ty (.inst base s outer) →
      p.HasBindings s bs → (∀ b ∈ bs, Substitutes p f b.2 (g b.2)) →
      (∀ u ∈ outer, Substitutes p f u (g u)) → p.HasBindings s' (bs.mapTypes g) →
      p.HasKind ty' (.inst base s' (outer.map g)) → Substitutes p f ty ty'
  | lub {ty ty' : TypeId} {l : LubId} {cs : Candidates} (g : TypeId → TypeId) :
      p.HasKind ty (.lub l) → p.HasCandidates l cs → (∀ u ∈ cs, Substitutes p f u (g u)) →
      p.IsLub (Candidates.ofList (cs.map g)) ty' → Substitutes p f ty ty'

theorem Substitutes.of_le (hle : p ≤ q) {ty r : TypeId} (h : p.Substitutes f ty r) :
    q.Substitutes f ty r := by
  induction h with
  | prim hk => exact .prim (hk.of_le hle)
  | null hk => exact .null (hk.of_le hle)
  | raw hk => exact .raw (hk.of_le hle)
  | var hk => exact .var (hk.of_le hle)
  | array hk _ hk' ih => exact .array (hk.of_le hle) ih (hk'.of_le hle)
  | inst g hk hbs _ _ hbs' hk' ihargs ihouter =>
    exact .inst g (hk.of_le hle) (hbs.of_le hle) ihargs ihouter (hbs'.of_le hle) (hk'.of_le hle)
  | lub g hk hcs _ hlub ih => exact .lub g (hk.of_le hle) (hcs.of_le hle) ih (hlub.of_le hle)

theorem IsLub.unique {cs : Candidates} {t u : TypeId} (ht : p.IsLub cs t) (hu : p.IsLub cs u) :
    t = u := by
  cases ht with
  | only hcs _ =>
    cases hu with
    | only hcs' _ => exact List.cons.inj (hcs.symm.trans hcs') |>.1
    | lub hlength _ _ => exact absurd (by rw [hcs]; rfl) hlength
  | lub hlength hcs hk =>
    cases hu with
    | only hcs' _ => exact absurd (by rw [hcs']; rfl) hlength
    | lub _ hcs' hk' => exact hk.inj (hcs'.inj hcs ▸ hk')

/-- A type has one result in a pool. -/
theorem Substitutes.unique {ty r r' : TypeId} (h : p.Substitutes f ty r)
    (h' : p.Substitutes f ty r') : r = r' := by
  induction h generalizing r' with
  | prim hk | null hk | raw hk | var hk =>
    cases h' with
    | prim hk' | null hk' | raw hk' | var hk' | array hk' _ _ | inst _ hk' _ _ _ _ _
    | lub _ hk' _ _ _ => cases hk.unique hk' <;> rfl
  | array hk _ hr ih =>
    cases h' with
    | array hk' helem hr' =>
      cases hk.unique hk'
      exact hr.inj (ih helem ▸ hr')
    | prim hk' | null hk' | raw hk' | var hk' | inst _ hk' _ _ _ _ _ | lub _ hk' _ _ _ =>
      cases hk.unique hk'
  | inst g hk hbs _ _ hbs' hr ihargs ihouter =>
    cases h' with
    | inst g' hk' hbs₂ hargs houter hbs₂' hr' =>
      cases hk.unique hk'
      cases hbs.unique hbs₂
      have hbinds : Bindings.mapTypes g _ = Bindings.mapTypes g' _ :=
        List.map_congr_left fun b hb => by rw [ihargs b hb (hargs b hb)]
      have houters : Option.map g _ = Option.map g' _ :=
        Option.map_congr fun u hu => ihouter u hu (houter u hu)
      rw [hbinds] at hbs'
      rw [hbs'.inj hbs₂', houters] at hr
      exact hr.inj hr'
    | prim hk' | null hk' | raw hk' | var hk' | array hk' _ _ | lub _ hk' _ _ _ =>
      cases hk.unique hk'
  | lub g hk hcs _ hlub ih =>
    cases h' with
    | lub g' hk' hcs' hmembers hlub' =>
      cases hk.unique hk'
      cases hcs.unique hcs'
      rw [List.map_congr_left fun u hu => ih u hu (hmembers u hu)] at hlub
      exact hlub.unique hlub'
    | prim hk' | null hk' | raw hk' | var hk' | array hk' _ _ | inst _ hk' _ _ _ _ _ =>
      cases hk.unique hk'

/-- An erased type is its own result. -/
theorem IsNormal.substitutes {ty : TypeId} (h : p.IsNormal ty) : p.Substitutes f ty ty := by
  obtain ⟨shape, hshape⟩ := h
  induction hshape with
  | prim hk => exact .prim hk
  | null hk => exact .null hk
  | raw hk => exact .raw hk
  | array hk _ ih => exact .array hk ih hk

/-- Where no variable is replaced, every type is its own result. -/
theorem Substitutes.refl (hp : p.Valid) (hf : ∀ v, f v = none) {ty : TypeId} (hty : p.Has ty) :
    p.Substitutes f ty ty := by
  induction hn : ty.index using Nat.strongRecOn generalizing ty with
  | ind n ih =>
    have hpart : ∀ {k}, p.HasKind ty k → ∀ u ∈ p.parts k, p.Substitutes f u u := fun hk u hu =>
      ih _ (hn ▸ hp.parts_lt hk u hu) (hp.has_part hk hu) rfl
    have hkind := hty.hasKind
    cases hk : p.kind ty with
    | prim r => exact .prim (hk ▸ hkind)
    | null => exact .null (hk ▸ hkind)
    | raw c => exact .raw (hk ▸ hkind)
    | var v =>
      have hvar := Substitutes.var (f := f) (hk ▸ hkind)
      rwa [hf v] at hvar
    | array elem =>
      rw [hk] at hkind
      exact .array hkind (hpart hkind elem List.mem_cons_self) hkind
    | inst base s outer =>
      rw [hk] at hkind
      obtain ⟨bs, hbs⟩ := hp.linked hkind
      have hparts : p.parts (.inst base s outer) = bs.map (·.2) ++ outer.toList := by
        rw [parts, hbs.bindings_eq]
      refine .inst id hkind hbs (fun b hb => ?_) (fun u hu => ?_) (?_ : p.HasBindings s _) ?_
      · refine hpart hkind b.2 ?_
        rw [hparts]
        exact List.mem_append_left _ (List.mem_map_of_mem hb)
      · refine hpart hkind u ?_
        rw [hparts]
        exact List.mem_append_right _ (Option.mem_toList.mpr hu)
      · rwa [show Bindings.mapTypes id bs = bs from List.map_id bs]
      · rwa [Option.map_id, id]
    | lub l =>
      rw [hk] at hkind
      obtain ⟨cs, hcs⟩ := hp.linked hkind
      obtain ⟨hsorted, hlength, -⟩ := hp.candidates hcs
      refine .lub id hkind hcs (fun u hu => ?_) ?_
      · refine hpart hkind u ?_
        rwa [parts, hcs.candidates_eq]
      · rw [List.map_id, Candidates.ofList_of_sorted hsorted]
        exact .lub hlength hcs hkind

/-- In one pool the results of all types are given by a function. -/
theorem exists_substitutes_eq (p : Pool) (f : TypeVarId → Option TypeId) :
    ∃ g : TypeId → TypeId, ∀ u r, p.Substitutes f u r → g u = r := by
  classical
  refine ⟨fun u => if h : ∃ r, p.Substitutes f u r then h.choose else u, fun u r h => ?_⟩
  have hex : ∃ r, p.Substitutes f u r := ⟨r, h⟩
  simp only [dif_pos hex]
  exact hex.choose_spec.unique h

/-! ### Substituting -/

/-- A type of the pool that is the result of substituting in `ty`. -/
def IsResult (f : TypeVarId → Option TypeId) (ty r : TypeId) (p : Pool) : Prop :=
  p.Substitutes f ty r ∧ p.Has r

theorem IsResult.of_le {ty r : TypeId} (h : IsResult f ty r p) (hle : p ≤ q) :
    IsResult f ty r q := ⟨h.1.of_le hle, h.2.of_le hle⟩

/-- The action substitutes in the parts of a kind. -/
def SubstitutesParts (f : TypeVarId → Option TypeId) (act : TypeId → StateM Pool TypeId) (p : Pool)
    (k : TypeKind) : Prop :=
  ∀ u ∈ p.parts k, ∀ q, Store.Grows p q → q.Valid → Computes (act u) q (IsResult f u)

section Parts

variable {act : TypeId → StateM Pool TypeId} {ty : TypeId}

theorem array_substitutes {elem : TypeId} (hp : p.Valid) (hkind : p.HasKind ty (.array elem))
    (hact : SubstitutesParts f act p (.array elem)) :
    Computes (do array (← act elem)) p (IsResult f ty) := by
  refine (hact elem List.mem_cons_self p (.refl p) hp).bind fun r q hpq hq hr => ?_
  refine (array_computes hq hr.2).mono fun a q' hqq _ ha => ⟨?_, ha.has⟩
  exact .array (hkind.of_le (hpq.trans hqq).le) (hr.1.of_le hqq.le) ha

/-- Substituting in the types that bindings bind. -/
theorem mapBindings_substitutes {bs : Bindings} (hp : p.Valid)
    (hact : ∀ b ∈ bs, ∀ q, Store.Grows p q → q.Valid → Computes (act b.2) q (IsResult f b.2)) :
    Computes (bs.mapM fun b => return (b.1, ← act b.2)) p fun bs' q =>
      ∃ g, bs' = bs.mapTypes g ∧ ∀ b ∈ bs, IsResult f b.2 (g b.2) q := by
  have hargs : ∀ b ∈ bs, ∀ q, Store.Grows p q → q.Valid → Computes (do return (b.1, ← act b.2)) q
      fun b' q' => b' = (b.1, b'.2) ∧ IsResult f b.2 b'.2 q' := fun b hb q hpq hq =>
    (hact b hb q hpq hq).map fun r q' _ hr => ⟨rfl, hr⟩
  refine (Computes.mapM ?_ hp hargs).mono fun bs' q _ _ hbs' => ?_
  · exact fun b b' q q' hqq h => ⟨h.1, h.2.of_le hqq.le⟩
  obtain ⟨g, hg⟩ := q.exists_substitutes_eq f
  obtain ⟨rfl, hgs⟩ := eq_map_of_forall₂ (g := fun b => (b.1, g b.2))
    (fun b b' h => by rw [hg _ _ h.2.1]; exact h.1.symm) hbs'
  exact ⟨g, rfl, fun b hb => (hgs b hb).2⟩

theorem instantiation_substitutes {base : ClassId} {s : SubstId} {bs : Bindings}
    {outer : Option TypeId} (hp : p.Valid) (hkind : p.HasKind ty (.inst base s outer))
    (hbs : p.HasBindings s bs) (hact : SubstitutesParts f act p (.inst base s outer)) :
    Computes (do
      let inner ← internSubst (← bs.mapM fun b => return (b.1, ← act b.2))
      instantiation base inner (← outer.mapM act)) p (IsResult f ty) := by
  have hparts : p.parts (.inst base s outer) = bs.map (·.2) ++ outer.toList := by
    rw [parts, hbs.bindings_eq]
  have hargs : ∀ b ∈ bs, ∀ q, Store.Grows p q → q.Valid → Computes (act b.2) q (IsResult f b.2) := by
    intro b hb
    refine hact b.2 ?_
    rw [hparts]
    exact List.mem_append_left _ (List.mem_map_of_mem hb)
  refine (mapBindings_substitutes hp hargs).bind fun bs' q hpq hq hbs' => ?_
  obtain ⟨g, rfl, hgs⟩ := hbs'
  have hhas : ∀ b ∈ bs.mapTypes g, q.Has b.2 := fun b hb => by
    obtain ⟨b', hb', rfl⟩ := List.mem_map.mp hb
    exact (hgs b' hb').2
  refine (internSubst_computes hq hhas).bind fun s' q₁ hqq₁ hq₁ hs' => ?_
  rw [Bindings.ofList_of_sorted ((hp.bindings hbs).1.mapTypes g)] at hs'
  have houter : ∀ u ∈ outer, Computes (act u) q₁ (IsResult f u) := by
    intro u hu
    refine hact u ?_ q₁ (hpq.trans hqq₁) hq₁
    rw [hparts]
    exact List.mem_append_right _ (Option.mem_toList.mpr hu)
  refine (Computes.optionMapM hq₁ houter).bind fun outer' q₂ hqq₂ hq₂ houter' => ?_
  obtain ⟨g₂, hg₂⟩ := q₂.exists_substitutes_eq f
  obtain ⟨rfl, hgs₂⟩ := eq_map_of_rel (fun u r hur => hg₂ u r hur.1) houter'
  have hsame : bs.mapTypes g = bs.mapTypes g₂ := List.map_congr_left fun b hb => by
    rw [hg₂ _ _ ((hgs b hb).of_le (hqq₁.trans hqq₂).le).1]
  have hnew : ∀ u ∈ outer.map g₂, q₂.Has u := fun u hu => by
    obtain ⟨u', hu', rfl⟩ := Option.map_eq_some_iff.mp hu
    exact (hgs₂ u' hu').2
  have hbound : ∀ b ∈ bs.mapTypes g, q₂.IsBound b.1 := fun b hb => by
    obtain ⟨b', hb', rfl⟩ := List.mem_map.mp hb
    refine Pool.IsBound.of_le ((hpq.trans hqq₁).trans hqq₂).le (p := p) ?_
    exact ⟨b'.2, ty, base, s, outer, bs, hkind, hbs, hb'⟩
  refine (instantiation_computes hq₂ (hs'.of_le hqq₂.le) hnew hbound).mono fun r q₃ hqq₃ _ hr =>
    ⟨?_, hr.has⟩
  have hle : p ≤ q₃ := ((hpq.trans hqq₁).trans (hqq₂.trans hqq₃)).le
  rw [hsame] at hs'
  refine .inst g₂ (hkind.of_le hle) (hbs.of_le hle) (fun b hb => ?_) (fun u hu => ?_)
    (hs'.of_le (hqq₂.trans hqq₃).le) hr
  · rw [hg₂ _ _ ((hgs b hb).of_le (hqq₁.trans hqq₂).le).1]
    exact (hgs b hb).1.of_le (hqq₁.trans (hqq₂.trans hqq₃)).le
  · exact (hgs₂ u hu).1.of_le hqq₃.le

theorem lub_substitutes {l : LubId} {cs : Candidates} (hp : p.Valid)
    (hkind : p.HasKind ty (.lub l)) (hcs : p.HasCandidates l cs)
    (hact : SubstitutesParts f act p (.lub l)) :
    Computes (do lubOf (← cs.mapM act)) p (IsResult f ty) := by
  have hmembers : ∀ u ∈ cs, ∀ q, Store.Grows p q → q.Valid → Computes (act u) q (IsResult f u) :=
    fun u hu => hact u (by rwa [parts, hcs.candidates_eq])
  refine (Computes.mapM ?_ hp hmembers).bind fun rs q hpq hq hrs => ?_
  · exact fun u r q q' hqq h => h.of_le hqq.le
  obtain ⟨g, hg⟩ := q.exists_substitutes_eq f
  obtain ⟨rfl, hgs⟩ := eq_map_of_forall₂ (fun u r hur => hg u r hur.1) hrs
  have hhas : ∀ r ∈ cs.map g, q.Has r := fun r hr => by
    obtain ⟨u, hu, rfl⟩ := List.mem_map.mp hr
    exact (hgs u hu).2
  refine (lubOf_computes hq hhas).mono fun ty' q' hqq _ hlub => ⟨?_, hlub.has⟩
  have hle := (hpq.trans hqq).le
  exact .lub g (hkind.of_le hle) (hcs.of_le hle) (fun u hu => (hgs u hu).1.of_le hqq.le) hlub

end Parts

theorem substituteWithin_computes {s : SubstId} {bs : Bindings} {depth : Nat} {ty : TypeId}
    (hp : p.Valid) (hs : p.HasBindings s bs) (hty : p.Has ty) (hdepth : ty.index < depth) :
    Computes (substituteWithin depth s ty) p (IsResult bs.lookup? ty) := by
  induction depth generalizing p ty with
  | zero => exact absurd hdepth (Nat.not_lt_zero _)
  | succ depth ih =>
    have hparts : ∀ {k}, p.HasKind ty k →
        SubstitutesParts bs.lookup? (substituteWithin depth s) p k := by
      intro k hk u hu q hpq hq
      have hlt := hp.parts_lt hk u hu
      exact ih hq (hs.of_le hpq.le) ((hp.has_part hk hu).of_le hpq.le) (by omega)
    have hkind := hty.hasKind
    unfold substituteWithin
    refine Computes.get_bind ?_ fun q hpq => ?_
    · split
      case isTrue hshort =>
        refine Computes.pure hp ⟨?_, hty⟩
        rcases Bool.or_eq_true_iff.mp hshort with hempty | herased
        · rw [of_decide_eq_true hempty] at hs
          rw [hs.unique hp.empty]
          exact Substitutes.refl hp (fun _ => rfl) hty
        · exact ((isErased_flags_iff hp hty).mp herased).substitutes
      case isFalse =>
        cases hk : p.kind ty with rw [hk] at hkind
        | prim r => exact Computes.pure hp ⟨.prim hkind, hty⟩
        | null => exact Computes.pure hp ⟨.null hkind, hty⟩
        | raw c => exact Computes.pure hp ⟨.raw hkind, hty⟩
        | var v =>
          have hvar := Substitutes.var (f := bs.lookup?) hkind
          simp only [replacement?, hs.bindings_eq]
          refine Computes.pure hp ⟨hvar, ?_⟩
          cases hlookup : bs.lookup? v with
          | none => exact hty
          | some u => exact (hp.bindings hs).2 _ (Bindings.mem_of_lookup? hlookup)
        | array elem => exact array_substitutes hp hkind (hparts hkind)
        | inst base inner outer =>
          obtain ⟨bs', hbs⟩ := hp.linked hkind
          simp only [hbs.bindings_eq]
          exact instantiation_substitutes hp hkind hbs (hparts hkind)
        | lub l =>
          obtain ⟨cs, hcs⟩ := hp.linked hkind
          simp only [hcs.candidates_eq]
          exact lub_substitutes hp hkind hcs (hparts hkind)
    · refine congrFun (if_congr ?_ rfl ?_) q
      · rw [flags_of_le hpq hty]
      · rw [kind_of_le hpq hty]
        cases hk : p.kind ty with
        | prim r | null | raw c | array elem => rfl
        | var v => simp only [replacement?_of_le hpq hs]
        | inst base inner outer =>
          obtain ⟨bs', hbs⟩ := hp.linked (hk ▸ hkind)
          simp only [hbs.bindings_eq, (hbs.of_le hpq).bindings_eq]
        | lub l =>
          obtain ⟨cs, hcs⟩ := hp.linked (hk ▸ hkind)
          simp only [hcs.candidates_eq, (hcs.of_le hpq).candidates_eq]

/-- Substituting finds or makes the type with its variables replaced. -/
theorem substitute_computes {s : SubstId} {bs : Bindings} {ty : TypeId} (hp : p.Valid)
    (hs : p.HasBindings s bs) (hty : p.Has ty) :
    Computes (substitute s ty) p (IsResult bs.lookup? ty) :=
  substituteWithin_computes hp hs hty (Nat.lt_succ_self _)

/-! ### The substitution of an instantiation -/

theorem isInstanceBinding_of_mem (hp : p.Valid) {depth : Nat} {ty : TypeId} (hty : p.Has ty)
    {b : TypeVarId × TypeId} (hb : b ∈ p.instanceBindingsWithin depth ty) :
    p.IsInstanceBinding b := by
  induction depth generalizing ty with
  | zero => exact absurd hb List.not_mem_nil
  | succ depth ih =>
    have hkind := hty.hasKind
    unfold instanceBindingsWithin at hb
    cases hk : p.kind ty with rw [hk] at hb hkind
    | inst base s outer =>
      obtain ⟨bs, hbs⟩ := hp.linked hkind
      have hown : b ∈ p.bindings s → p.IsInstanceBinding b := fun hb =>
        ⟨ty, base, s, outer, bs, hkind, hbs, hbs.bindings_eq ▸ hb⟩
      cases outer with
      | none => exact hown hb
      | some outer =>
        rcases List.mem_append.mp hb with hb | hb
        · exact hown hb
        · exact ih (hp.has_part hkind (List.mem_append_right _ List.mem_cons_self)) hb
    | prim _ | null | array _ | raw _ | var _ | lub _ => exact absurd hb List.not_mem_nil

theorem IsInstanceBinding.has (hp : p.Valid) {b : TypeVarId × TypeId} (h : p.IsInstanceBinding b) :
    p.Has b.2 := by
  obtain ⟨ty, base, s, outer, bs, -, hbs, hb⟩ := h
  exact (hp.bindings hbs).2 b hb

theorem instanceBindingsWithin_of_le (hp : p.Valid) (hle : p ≤ q) {ty : TypeId} (hty : p.Has ty)
    (depth : Nat) : q.instanceBindingsWithin depth ty = p.instanceBindingsWithin depth ty := by
  induction depth generalizing ty with
  | zero => rfl
  | succ depth ih =>
    have hkind := hty.hasKind
    unfold instanceBindingsWithin
    rw [kind_of_le hle hty]
    cases hk : p.kind ty with rw [hk] at hkind
    | inst base s outer =>
      obtain ⟨bs, hbs⟩ := hp.linked hkind
      have hbindings : q.bindings s = p.bindings s := by
        rw [hbs.bindings_eq, (hbs.of_le hle).bindings_eq]
      cases outer with
      | none => exact hbindings
      | some outer =>
        simp only [hbindings,
          ih (hp.has_part hkind (List.mem_append_right _ List.mem_cons_self))]

/-- What an instantiation and its enclosing instances bind, the innermost first. -/
def instanceBindings (p : Pool) (ty : TypeId) : Bindings :=
  Bindings.ofList (p.instanceBindingsWithin (ty.index + 1) ty)

theorem instanceBindings_of_le (hp : p.Valid) (hle : p ≤ q) {ty : TypeId} (hty : p.Has ty) :
    q.instanceBindings ty = p.instanceBindings ty := by
  rw [instanceBindings, instanceBindings, instanceBindingsWithin_of_le hp hle hty]

theorem isInstanceBinding_of_mem_instanceBindings (hp : p.Valid) {ty : TypeId} (hty : p.Has ty)
    {b : TypeVarId × TypeId} (hb : b ∈ p.instanceBindings ty) : p.IsInstanceBinding b :=
  isInstanceBinding_of_mem hp hty (Bindings.mem_of_mem_ofList hb)

/-- The substitution of an instantiation binds what the instantiation and its enclosing instances
bind. -/
theorem fullSubst_computes (hp : p.Valid) {ty : TypeId} (hty : p.Has ty) :
    Computes (fullSubst ty) p fun s q => q.HasBindings s (p.instanceBindings ty) := by
  refine Computes.get_bind (internSubst_computes hp fun b hb => ?_) fun q hpq => ?_
  · exact (isInstanceBinding_of_mem hp hty hb).has hp
  · rw [instanceBindingsWithin_of_le hp hpq hty]

end Pool

end Erasure
