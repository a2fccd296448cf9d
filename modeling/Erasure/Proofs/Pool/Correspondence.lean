/-
Types of two pools that correspond.

Two pools that grow from one may number the same types differently. `Mirrors p q t u` says that the
type `u` of `q` is built as the type `t` of `p` is. The main statements:

* `Mirrors.unique`, `Mirrors.symm`: every type corresponds to one type at most.
* `mirrors_self`: the types that both pools had from the start correspond to themselves.
* `Mirrors.substitutes`: substituting what corresponds gives what corresponds.
-/
import Erasure.Proofs.Pool.Substitution

namespace Erasure

/-- Bindings of the same variables, to related types. -/
def Bindings.Related (R : TypeId → TypeId → Prop) (bs bs' : List (TypeVarId × TypeId)) : Prop :=
  List.Forall₂ (fun b b' => b'.1 = b.1 ∧ R b.2 b'.2) bs bs'

/-- Every member of one of the lists is related to a member of the other. -/
structure Candidates.Related (R : TypeId → TypeId → Prop) (cs cs' : List TypeId) : Prop where
  left : ∀ u ∈ cs, ∃ u' ∈ cs', R u u'
  right : ∀ u' ∈ cs', ∃ u ∈ cs, R u u'

namespace Pool

variable {p q : Pool}

/-! ### Kinds of one form -/

/-- The kinds have one form, and their parts are related. -/
inductive SameForm (p q : Pool) (R : TypeId → TypeId → Prop) : TypeKind → TypeKind → Prop
  | prim {r : Primitive} : SameForm p q R (.prim r) (.prim r)
  | null : SameForm p q R .null .null
  | raw {c : ClassId} : SameForm p q R (.raw c) (.raw c)
  | var {v : TypeVarId} : SameForm p q R (.var v) (.var v)
  | array {elem elem' : TypeId} : R elem elem' → SameForm p q R (.array elem) (.array elem')
  | inst {base : ClassId} {s s' : SubstId} {bs bs' : Bindings} {outer outer' : Option TypeId} :
      p.HasBindings s bs → q.HasBindings s' bs' → Bindings.Related R bs bs' →
      Option.Rel R outer outer' → SameForm p q R (.inst base s outer) (.inst base s' outer')
  | lub {l l' : LubId} {cs cs' : Candidates} : p.HasCandidates l cs → q.HasCandidates l' cs' →
      Candidates.Related R cs cs' → SameForm p q R (.lub l) (.lub l')

/-- The parts of an instantiation are the types that it binds and its enclosing instance. -/
theorem parts_inst {base : ClassId} {s : SubstId} {bs : Bindings} {outer : Option TypeId}
    (hs : p.HasBindings s bs) : p.parts (.inst base s outer) = bs.map (·.2) ++ outer.toList := by
  rw [parts, hs.bindings_eq]

theorem mem_parts_of_mem_bindings {base : ClassId} {s : SubstId} {bs : Bindings}
    {outer : Option TypeId} (hs : p.HasBindings s bs) {b : TypeVarId × TypeId} (hb : b ∈ bs) :
    b.2 ∈ p.parts (.inst base s outer) :=
  parts_inst hs ▸ List.mem_append_left _ (List.mem_map_of_mem hb)

theorem mem_parts_of_mem_outer {base : ClassId} {s : SubstId} {outer : Option TypeId} {u : TypeId}
    (hu : u ∈ outer) : u ∈ p.parts (.inst base s outer) :=
  List.mem_append_right _ (Option.mem_toList.mpr hu)

theorem mem_parts_lub {l : LubId} {cs : Candidates} (hl : p.HasCandidates l cs) {u : TypeId}
    (hu : u ∈ cs) : u ∈ p.parts (.lub l) := by
  rwa [parts, hl.candidates_eq]

variable {R S : TypeId → TypeId → Prop} {k l : TypeKind}

theorem SameForm.imp (h : SameForm p q R k l) (hRS : ∀ a ∈ p.parts k, ∀ b, R a b → S a b) :
    SameForm p q S k l := by
  cases h with
  | prim => exact .prim
  | null => exact .null
  | raw => exact .raw
  | var => exact .var
  | array helem => exact .array (hRS _ List.mem_cons_self _ helem)
  | inst hs hs' hbs houter =>
    refine .inst hs hs' ?_ ?_
    · have hparts := fun b hb => hRS _ (mem_parts_of_mem_bindings hs (b := b) hb)
      clear hs hs'
      induction hbs with
      | nil => exact .nil
      | cons hb _ ih =>
        refine .cons ⟨hb.1, hparts _ List.mem_cons_self _ hb.2⟩ (ih fun b hb => ?_)
        exact hparts b (List.mem_cons_of_mem _ hb)
    · cases houter with
      | none => exact .none
      | some hu => exact .some (hRS _ (mem_parts_of_mem_outer rfl) _ hu)
  | lub hl hl' hcs =>
    refine .lub hl hl' ⟨fun u hu => ?_, fun u' hu' => ?_⟩
    · obtain ⟨u', hu', hR⟩ := hcs.left u hu
      exact ⟨u', hu', hRS u (mem_parts_lub hl hu) u' hR⟩
    · obtain ⟨u, hu, hR⟩ := hcs.right u' hu'
      exact ⟨u, hu, hRS u (mem_parts_lub hl hu) u' hR⟩

theorem SameForm.symm (h : SameForm p q R k l) (hRS : ∀ a ∈ p.parts k, ∀ b, R a b → S b a) :
    SameForm q p S l k := by
  cases h.imp hRS with
  | prim => exact .prim
  | null => exact .null
  | raw => exact .raw
  | var => exact .var
  | array helem => exact .array helem
  | inst hs hs' hbs houter =>
    refine .inst hs' hs ?_ ?_
    · exact (List.Forall₂.imp (fun b b' hb => ⟨hb.1.symm, hb.2⟩) hbs).flip
    · cases houter with
      | none => exact .none
      | some hu => exact .some hu
  | lub hl hl' hcs => exact .lub hl' hl ⟨hcs.right, hcs.left⟩

theorem bindings_eq_of_related {bs bs₁ bs₂ : Bindings} (h₁ : Bindings.Related R bs bs₁)
    (h₂ : Bindings.Related S bs bs₂)
    (hRS : ∀ b ∈ bs, ∀ u u', R b.2 u → S b.2 u' → u = u') : bs₁ = bs₂ := by
  induction h₁ generalizing bs₂ with
  | nil =>
    cases h₂
    rfl
  | @cons b b₁ bs bs₁ hb _ ih =>
    cases h₂ with
    | @cons _ b₂ _ bs₂ hb' hbs' =>
      rw [ih hbs' fun b hb => hRS b (List.mem_cons_of_mem _ hb)]
      have htype := hRS b List.mem_cons_self b₁.2 b₂.2 hb.2 hb'.2
      rw [show b₁ = b₂ from Prod.ext (hb.1.trans hb'.1.symm) htype]

theorem candidates_eq_of_related {cs cs₁ cs₂ : Candidates} (hsorted₁ : cs₁.Sorted)
    (hsorted₂ : cs₂.Sorted) (h₁ : Candidates.Related R cs cs₁) (h₂ : Candidates.Related S cs cs₂)
    (hRS : ∀ c ∈ cs, ∀ u u', R c u → S c u' → u = u') : cs₁ = cs₂ := by
  refine hsorted₁.eq_of_mem_iff hsorted₂ fun u => ⟨fun hu => ?_, fun hu => ?_⟩
  · obtain ⟨c, hc, hR⟩ := h₁.right u hu
    obtain ⟨u', hu', hS⟩ := h₂.left c hc
    exact hRS c hc u u' hR hS ▸ hu'
  · obtain ⟨c, hc, hS⟩ := h₂.right u hu
    obtain ⟨u', hu', hR⟩ := h₁.left c hc
    exact hRS c hc u' u hR hS ▸ hu'

theorem SameForm.unique (hq : q.Valid) {l' : TypeKind} (h : SameForm p q R k l)
    (h' : SameForm p q S k l') (hRS : ∀ a ∈ p.parts k, ∀ b b', R a b → S a b' → b = b') :
    l = l' := by
  cases h with
  | prim | null | raw | var =>
    cases h'
    rfl
  | array helem =>
    cases h' with
    | array helem' => rw [hRS _ List.mem_cons_self _ _ helem helem']
  | inst hs hs₁ hbs houter =>
    cases h' with
    | inst hs' hs₂ hbs' houter' =>
      obtain rfl := hs.unique hs'
      obtain rfl := bindings_eq_of_related hbs hbs' fun b hb =>
        hRS _ (mem_parts_of_mem_bindings hs hb)
      rw [hs₁.inj hs₂]
      cases houter with
      | none =>
        cases houter'
        rfl
      | some hu =>
        cases houter' with
        | some hu' => rw [hRS _ (mem_parts_of_mem_outer rfl) _ _ hu hu']
  | lub hl hl₁ hcs =>
    cases h' with
    | lub hl' hl₂ hcs' =>
      obtain rfl := hl.unique hl'
      obtain rfl := candidates_eq_of_related (hq.candidates hl₁).1 (hq.candidates hl₂).1 hcs hcs'
        fun c hc => hRS c (mem_parts_lub hl hc)
      rw [hl₁.inj hl₂]

/-! ### Types that correspond -/

/-- The type `u` of the second pool is built as the type `t` of the first one is. -/
def Mirrors (p q : Pool) (t u : TypeId) : Prop :=
  ∃ k l, p.HasKind t k ∧ q.HasKind u l ∧
    SameForm p q (fun a b => ∃ _ : a.index < t.index, Mirrors p q a b) k l
termination_by t.index

theorem mirrors_iff (hp : p.Valid) {t u : TypeId} : p.Mirrors q t u ↔
    ∃ k l, p.HasKind t k ∧ q.HasKind u l ∧ SameForm p q (p.Mirrors q) k l := by
  rw [Mirrors]
  constructor
  · rintro ⟨k, l, hk, hl, h⟩
    exact ⟨k, l, hk, hl, h.imp fun _ _ _ ⟨_, hab⟩ => hab⟩
  · rintro ⟨k, l, hk, hl, h⟩
    exact ⟨k, l, hk, hl, h.imp fun a ha _ hab => ⟨hp.parts_lt hk a ha, hab⟩⟩

theorem Mirrors.unique (hp : p.Valid) (hq : q.Valid) {t u v : TypeId} (hu : p.Mirrors q t u)
    (hv : p.Mirrors q t v) : u = v := by
  induction hn : t.index using Nat.strongRecOn generalizing t u v with
  | ind n ih =>
    obtain ⟨k, l, hk, hl, hform⟩ := (mirrors_iff hp).mp hu
    obtain ⟨k', l', hk', hl', hform'⟩ := (mirrors_iff hp).mp hv
    obtain rfl := hk.unique hk'
    obtain rfl := hform.unique hq hform' fun a ha b b' hb hb' =>
      ih _ (hn ▸ hp.parts_lt hk a ha) hb hb' rfl
    exact hl.inj hl'

theorem Mirrors.symm (hp : p.Valid) (hq : q.Valid) {t u : TypeId} (h : p.Mirrors q t u) :
    q.Mirrors p u t := by
  induction hn : t.index using Nat.strongRecOn generalizing t u with
  | ind n ih =>
    obtain ⟨k, l, hk, hl, hform⟩ := (mirrors_iff hp).mp h
    refine (mirrors_iff hq).mpr ⟨l, k, hl, hk, hform.symm fun a ha b hab => ?_⟩
    exact ih _ (hn ▸ hp.parts_lt hk a ha) hab rfl

theorem Mirrors.inj (hp : p.Valid) (hq : q.Valid) {t t' u : TypeId} (h : p.Mirrors q t u)
    (h' : p.Mirrors q t' u) : t = t' := (h.symm hp hq).unique hq hp (h'.symm hp hq)

theorem related_self {bs : Bindings} (h : ∀ b ∈ bs, R b.2 b.2) : Bindings.Related R bs bs := by
  induction bs with
  | nil => exact .nil
  | cons b bs ih =>
    exact .cons ⟨rfl, h b List.mem_cons_self⟩ (ih fun b hb => h b (List.mem_cons_of_mem _ hb))

/-- The types that both pools had from the start correspond to themselves. -/
theorem mirrors_self {r : Pool} (hr : r.Valid) (hp : p.Valid) (hrp : r ≤ p) (hrq : r ≤ q)
    {t : TypeId} (ht : r.Has t) : p.Mirrors q t t := by
  induction hn : t.index using Nat.strongRecOn generalizing t with
  | ind n ih =>
    have hkind := ht.hasKind
    have hpart : ∀ u ∈ r.parts (r.kind t), p.Mirrors q u u := fun u hu =>
      ih _ (hn ▸ hr.parts_lt hkind u hu) (hr.has_part hkind hu) rfl
    refine (mirrors_iff hp).mpr ⟨_, _, hkind.of_le hrp, hkind.of_le hrq, ?_⟩
    cases hk : r.kind t with rw [hk] at hkind hpart
    | prim _ => exact .prim
    | null => exact .null
    | raw _ => exact .raw
    | var _ => exact .var
    | array elem => exact .array (hpart elem List.mem_cons_self)
    | inst base s outer =>
      obtain ⟨bs, hbs⟩ := hr.linked hkind
      refine .inst (hbs.of_le hrp) (hbs.of_le hrq)
        (related_self fun b hb => hpart _ (mem_parts_of_mem_bindings hbs hb)) ?_
      cases outer with
      | none => exact .none
      | some u => exact .some (hpart u (mem_parts_of_mem_outer rfl))
    | lub l =>
      obtain ⟨cs, hcs⟩ := hr.linked hkind
      have hself := fun u hu => hpart u (mem_parts_lub hcs hu)
      exact .lub (hcs.of_le hrp) (hcs.of_le hrq)
        ⟨fun u hu => ⟨u, hu, hself u hu⟩, fun u hu => ⟨u, hu, hself u hu⟩⟩

/-- Erased types of one shape correspond. -/
theorem mirrors_of_hasShape (hp : p.Valid) {t u : TypeId} {shape : Shape} (ht : p.HasShape t shape)
    (hu : q.HasShape u shape) : p.Mirrors q t u := by
  induction ht generalizing u with
  | prim hk => cases hu with | prim hk' => exact (mirrors_iff hp).mpr ⟨_, _, hk, hk', .prim⟩
  | null hk => cases hu with | null hk' => exact (mirrors_iff hp).mpr ⟨_, _, hk, hk', .null⟩
  | raw hk => cases hu with | raw hk' => exact (mirrors_iff hp).mpr ⟨_, _, hk, hk', .raw⟩
  | array hk _ ih =>
    cases hu with
    | array hk' helem => exact (mirrors_iff hp).mpr ⟨_, _, hk, hk', .array (ih helem)⟩

/-! ### Substituting -/

/-- The variables are replaced by related types, or by none on both sides. -/
def ReplaceRelated (R : TypeId → TypeId → Prop) (f f' : TypeVarId → Option TypeId) : Prop :=
  ∀ v, Option.Rel R (f v) (f' v)

section Inversion

variable {f : TypeVarId → Option TypeId} {ty r : TypeId}

theorem Substitutes.of_var {v : TypeVarId} (hk : p.HasKind ty (.var v))
    (h : p.Substitutes f ty r) : r = (f v).getD ty := by
  cases h with
  | var hk' =>
    cases hk.unique hk'
    rfl
  | prim hk' | null hk' | raw hk' | array hk' _ _ | inst _ hk' _ _ _ _ _ | lub _ hk' _ _ _ =>
    cases hk.unique hk'

theorem Substitutes.of_array {elem : TypeId} (hk : p.HasKind ty (.array elem))
    (h : p.Substitutes f ty r) : ∃ elem', p.Substitutes f elem elem' ∧ p.HasKind r (.array elem') := by
  cases h with
  | array hk' helem hr =>
    cases hk.unique hk'
    exact ⟨_, helem, hr⟩
  | prim hk' | null hk' | raw hk' | var hk' | inst _ hk' _ _ _ _ _ | lub _ hk' _ _ _ =>
    cases hk.unique hk'

theorem Substitutes.of_inst {base : ClassId} {s : SubstId} {outer : Option TypeId} {bs : Bindings}
    (hk : p.HasKind ty (.inst base s outer)) (hs : p.HasBindings s bs) (h : p.Substitutes f ty r) :
    ∃ g s', (∀ b ∈ bs, p.Substitutes f b.2 (g b.2)) ∧ (∀ u ∈ outer, p.Substitutes f u (g u)) ∧
      p.HasBindings s' (bs.mapTypes g) ∧ p.HasKind r (.inst base s' (outer.map g)) := by
  cases h with
  | inst g hk' hbs hargs houter hs' hr =>
    cases hk.unique hk'
    obtain rfl := hs.unique hbs
    exact ⟨g, _, hargs, houter, hs', hr⟩
  | prim hk' | null hk' | raw hk' | var hk' | array hk' _ _ | lub _ hk' _ _ _ => cases hk.unique hk'

theorem Substitutes.of_lub {l : LubId} {cs : Candidates} (hk : p.HasKind ty (.lub l))
    (hl : p.HasCandidates l cs) (h : p.Substitutes f ty r) :
    ∃ g, (∀ u ∈ cs, p.Substitutes f u (g u)) ∧ p.IsLub (Candidates.ofList (cs.map g)) r := by
  cases h with
  | lub g hk' hcs hmembers hr =>
    cases hk.unique hk'
    obtain rfl := hl.unique hcs
    exact ⟨g, hmembers, hr⟩
  | prim hk' | null hk' | raw hk' | var hk' | array hk' _ _ | inst _ hk' _ _ _ _ _ =>
    cases hk.unique hk'

theorem Substitutes.of_isNormal (hty : p.IsNormal ty) (h : p.Substitutes f ty r) : r = ty :=
  h.unique hty.substitutes

end Inversion

theorem related_mapTypes {f g : TypeId → TypeId} {bs bs' : Bindings}
    (h : Bindings.Related R bs bs')
    (hRS : ∀ b ∈ bs, ∀ b' ∈ bs', R b.2 b'.2 → S (f b.2) (g b'.2)) :
    Bindings.Related S (bs.mapTypes f) (bs'.mapTypes g) := by
  induction h with
  | nil => exact .nil
  | cons hb _ ih =>
    refine .cons ⟨hb.1, hRS _ List.mem_cons_self _ List.mem_cons_self hb.2⟩ (ih ?_)
    exact fun b hb b' hb' => hRS b (List.mem_cons_of_mem _ hb) b' (List.mem_cons_of_mem _ hb')

theorem related_ofList_map {f g : TypeId → TypeId} {cs cs' : Candidates}
    (h : Candidates.Related R cs cs') (hRS : ∀ u ∈ cs, ∀ u' ∈ cs', R u u' → S (f u) (g u')) :
    Candidates.Related S (Candidates.ofList (cs.map f)) (Candidates.ofList (cs'.map g)) := by
  refine ⟨fun x hx => ?_, fun x hx => ?_⟩
  · obtain ⟨u, hu, rfl⟩ := List.mem_map.mp (Candidates.mem_ofList.mp hx)
    obtain ⟨u', hu', hR⟩ := h.left u hu
    exact ⟨g u', Candidates.mem_ofList.mpr (List.mem_map_of_mem hu'), hRS u hu u' hu' hR⟩
  · obtain ⟨u', hu', rfl⟩ := List.mem_map.mp (Candidates.mem_ofList.mp hx)
    obtain ⟨u, hu, hR⟩ := h.right u' hu'
    exact ⟨f u, Candidates.mem_ofList.mpr (List.mem_map_of_mem hu), hRS u hu u' hu' hR⟩

/-- Candidate sets that correspond have as many members. -/
theorem length_eq_one_of_related (hp : p.Valid) (hq : q.Valid) {cs cs' : Candidates} {t : TypeId}
    (hsorted : cs'.Sorted) (h : Candidates.Related (p.Mirrors q) cs cs') (hcs : cs = [t]) :
    ∃ t', cs' = [t'] ∧ p.Mirrors q t t' := by
  subst hcs
  obtain ⟨t', ht', hmirrors⟩ := h.left t List.mem_cons_self
  refine ⟨t', hsorted.eq_of_mem_iff (List.pairwise_singleton _ _) fun u => ?_, hmirrors⟩
  rw [List.mem_singleton]
  refine ⟨fun hu => ?_, fun hu => hu ▸ ht'⟩
  obtain ⟨v, hv, hmirrors'⟩ := h.right u hu
  obtain rfl := List.mem_singleton.mp hv
  exact hmirrors'.unique hp hq hmirrors

theorem candidates_related_symm (hp : p.Valid) (hq : q.Valid) {cs cs' : Candidates}
    (h : Candidates.Related (p.Mirrors q) cs cs') : Candidates.Related (q.Mirrors p) cs' cs := by
  refine ⟨fun u' hu' => ?_, fun u hu => ?_⟩
  · obtain ⟨u, hu, hmirrors⟩ := h.right u' hu'
    exact ⟨u, hu, hmirrors.symm hp hq⟩
  · obtain ⟨u', hu', hmirrors⟩ := h.left u hu
    exact ⟨u', hu', hmirrors.symm hp hq⟩

theorem IsLub.mirrors (hp : p.Valid) (hq : q.Valid) {cs cs' : Candidates} {t t' : TypeId}
    (hsorted : cs.Sorted) (hsorted' : cs'.Sorted)
    (h : Candidates.Related (p.Mirrors q) cs cs') (ht : p.IsLub cs t) (ht' : q.IsLub cs' t') :
    p.Mirrors q t t' := by
  cases ht with
  | only hcs _ =>
    obtain ⟨u, hu, hmirrors⟩ := length_eq_one_of_related hp hq hsorted' h hcs
    cases ht' with
    | only hcs' _ => exact List.singleton_inj.mp (hcs'.symm.trans hu) ▸ hmirrors
    | lub hlength _ _ => exact absurd (by rw [hu]; rfl) hlength
  | lub hlength hl hk =>
    cases ht' with
    | only hcs' _ =>
      obtain ⟨u, hu, -⟩ := length_eq_one_of_related hq hp hsorted
        (candidates_related_symm hp hq h) hcs'
      exact absurd (by rw [hu]; rfl) hlength
    | lub _ hl' hk' => exact (mirrors_iff hp).mpr ⟨_, _, hk, hk', .lub hl hl' h⟩

/-- Substituting what corresponds gives what corresponds. -/
theorem Mirrors.substitutes (hp : p.Valid) (hq : q.Valid) {f f' : TypeVarId → Option TypeId}
    (hf : ReplaceRelated (p.Mirrors q) f f') {ty ty' r r' : TypeId} (h : p.Mirrors q ty ty')
    (hr : p.Substitutes f ty r) (hr' : q.Substitutes f' ty' r') : p.Mirrors q r r' := by
  induction hn : ty.index using Nat.strongRecOn generalizing ty ty' r r' with
  | ind n ih =>
    obtain ⟨k, l, hk, hl, hform⟩ := (mirrors_iff hp).mp h
    have hpart : ∀ a ∈ p.parts k, ∀ {b c d}, p.Mirrors q a b → p.Substitutes f a c →
        q.Substitutes f' b d → p.Mirrors q c d := fun a ha _ _ _ hab hc hd =>
      ih _ (hn ▸ hp.parts_lt hk a ha) hab hc hd rfl
    cases hform with
    | prim =>
      rw [hr.of_isNormal ⟨_, .prim hk⟩, hr'.of_isNormal ⟨_, .prim hl⟩]
      exact h
    | null =>
      rw [hr.of_isNormal ⟨_, .null hk⟩, hr'.of_isNormal ⟨_, .null hl⟩]
      exact h
    | raw =>
      rw [hr.of_isNormal ⟨_, .raw hk⟩, hr'.of_isNormal ⟨_, .raw hl⟩]
      exact h
    | @var v =>
      rw [hr.of_var hk, hr'.of_var hl]
      have hv := hf v
      generalize f v = a, f' v = b at hv
      cases hv with
      | none => exact h
      | some hu => exact hu
    | array helem =>
      obtain ⟨elem, helem₁, hr₁⟩ := hr.of_array hk
      obtain ⟨elem', helem₂, hr₂⟩ := hr'.of_array hl
      refine (mirrors_iff hp).mpr ⟨_, _, hr₁, hr₂, .array ?_⟩
      exact hpart _ List.mem_cons_self helem helem₁ helem₂
    | inst hs hs' hbs houter =>
      obtain ⟨g, s₁, hargs₁, houter₁, hs₁, hr₁⟩ := hr.of_inst hk hs
      obtain ⟨g', s₂, hargs₂, houter₂, hs₂, hr₂⟩ := hr'.of_inst hl hs'
      refine (mirrors_iff hp).mpr ⟨_, _, hr₁, hr₂, .inst hs₁ hs₂ ?_ ?_⟩
      · exact related_mapTypes hbs fun b hb b' hb' hmirrors =>
          hpart _ (mem_parts_of_mem_bindings hs hb) hmirrors (hargs₁ b hb) (hargs₂ b' hb')
      · cases houter with
        | none => exact .none
        | some hu =>
          exact .some (hpart _ (mem_parts_of_mem_outer rfl) hu (houter₁ _ rfl) (houter₂ _ rfl))
    | lub hcs hcs' hrelated =>
      obtain ⟨g, hmembers₁, hr₁⟩ := hr.of_lub hk hcs
      obtain ⟨g', hmembers₂, hr₂⟩ := hr'.of_lub hl hcs'
      refine hr₁.mirrors hp hq (Candidates.sorted_ofList _) (Candidates.sorted_ofList _) ?_ hr₂
      exact related_ofList_map hrelated fun u hu u' hu' hmirrors =>
        hpart u (mem_parts_lub hcs hu) hmirrors (hmembers₁ u hu) (hmembers₂ u' hu')

/-! ### Bindings -/

theorem related_bindNew {bs bs' : Bindings} (h : Bindings.Related R bs bs') (v : TypeVarId)
    {t t' : TypeId} (ht : R t t') :
    Bindings.Related R (bs.bindNew v t) (bs'.bindNew v t') := by
  induction h with
  | nil => exact .cons ⟨rfl, ht⟩ .nil
  | @cons b b' bs bs' hb hbs ih =>
    obtain ⟨w, u⟩ := b
    obtain ⟨w', u'⟩ := b'
    obtain ⟨rfl, hu⟩ := hb
    unfold Bindings.bindNew
    split
    · exact .cons ⟨rfl, ht⟩ (.cons ⟨rfl, hu⟩ hbs)
    · split
      · exact .cons ⟨rfl, hu⟩ hbs
      · exact .cons ⟨rfl, hu⟩ ih

theorem related_ofList {bs bs' : List (TypeVarId × TypeId)} (h : Bindings.Related R bs bs') :
    Bindings.Related R (Bindings.ofList bs) (Bindings.ofList bs') := by
  suffices hacc : ∀ acc acc' : Bindings, Bindings.Related R acc acc' →
      Bindings.Related R (bs.foldl (fun acc b => Bindings.bindNew b.1 b.2 acc) acc)
        (bs'.foldl (fun acc b => Bindings.bindNew b.1 b.2 acc) acc') from hacc [] [] .nil
  induction h with
  | nil => exact fun acc acc' hacc => hacc
  | cons hb _ ih =>
    intro acc acc' hacc
    rw [List.foldl_cons, List.foldl_cons, hb.1]
    exact ih _ _ (related_bindNew hacc _ hb.2)

theorem replaceRelated_lookup? {bs bs' : Bindings} (h : Bindings.Related R bs bs') :
    ReplaceRelated R bs.lookup? bs'.lookup? := by
  intro v
  induction h with
  | nil => exact .none
  | @cons b b' bs bs' hb _ ih =>
    rw [Bindings.lookup?, Bindings.lookup?, List.find?_cons, List.find?_cons, hb.1]
    split
    · exact .some hb.2
    · exact ih

end Pool

end Erasure
