/-
Valid pools, and what interning does to them.

In a valid pool every type refers to older types only, substitutions and candidate sets are
sorted, and the flags of a type are those of its kind. The main statements:

* `HasKind.inj`: no two types have one kind.
* `internKind_computes`, `internSubst_computes`, `lubOf_computes`: interning keeps a pool valid
  and answers an entry with the given content, the same one in every later pool.
-/
import Erasure.Pool
import Erasure.Proofs.Growth
import Erasure.Proofs.Pool.Sorted

namespace Erasure.Pool

variable {p q : Pool}

/-- A pool is below another when every entry has kept its number. -/
instance : Preorder Pool := Preorder.lift fun p => (p.types, p.substs, p.lubs)

theorem le_def : p ≤ q ↔ p.types ≤ q.types ∧ p.substs ≤ q.substs ∧ p.lubs ≤ q.lubs := Iff.rfl

/-! ### Entries -/

/-- The type is in the pool. -/
def Has (p : Pool) (ty : TypeId) : Prop := ty.index < p.size

instance (p : Pool) (ty : TypeId) : Decidable (p.Has ty) := inferInstanceAs (Decidable (_ < _))

/-- The type is in the pool and has the given kind. -/
def HasKind (p : Pool) (ty : TypeId) (k : TypeKind) : Prop :=
  (p.types.get? ty.index).map PooledType.kind = some k

instance (p : Pool) (ty : TypeId) (k : TypeKind) : Decidable (p.HasKind ty k) :=
  inferInstanceAs (Decidable (_ = _))

/-- The substitution is in the pool and binds exactly `bs`. -/
def HasBindings (p : Pool) (s : SubstId) (bs : Bindings) : Prop := p.substs.get? s.index = some bs

/-- The candidate set is in the pool and consists of exactly `cs`. -/
def HasCandidates (p : Pool) (l : LubId) (cs : Candidates) : Prop :=
  p.lubs.get? l.index = some cs

instance (ty : TypeId) (k : TypeKind) : Decidable (p.HasKind ty k) :=
  inferInstanceAs (Decidable (_ = _))

instance (s : SubstId) (bs : Bindings) : Decidable (p.HasBindings s bs) :=
  inferInstanceAs (Decidable (_ = _))

theorem HasKind.has {ty : TypeId} {k : TypeKind} (h : p.HasKind ty k) : p.Has ty := by
  obtain ⟨a, ha, -⟩ := Option.map_eq_some_iff.mp h
  exact InternTable.lt_size_of_get? ha

theorem HasKind.kind_eq {ty : TypeId} {k : TypeKind} (h : p.HasKind ty k) : p.kind ty = k := by
  obtain ⟨a, ha, hk⟩ := Option.map_eq_some_iff.mp h
  simp [kind, ha, hk]

theorem HasKind.unique {ty : TypeId} {k l : TypeKind} (hk : p.HasKind ty k)
    (hl : p.HasKind ty l) : k = l := hk.kind_eq.symm.trans hl.kind_eq

theorem Has.hasKind {ty : TypeId} (h : p.Has ty) : p.HasKind ty (p.kind ty) := by
  obtain ⟨a, ha⟩ := InternTable.exists_get? h
  simp [HasKind, kind, ha]

theorem Has.hasKind_of_eq {ty : TypeId} {k : TypeKind} (h : p.Has ty) (hk : p.kind ty = k) :
    p.HasKind ty k := hk ▸ h.hasKind

/-- No two types have one kind. -/
theorem HasKind.inj {t u : TypeId} {k : TypeKind} (ht : p.HasKind t k) (hu : p.HasKind u k) :
    t = u := TypeId.eq_of_index (InternTable.key_inj ht hu)

theorem HasBindings.bindings_eq {s : SubstId} {bs : Bindings} (h : p.HasBindings s bs) :
    p.bindings s = bs := by
  rw [bindings, h, Option.getD_some]

theorem HasBindings.unique {s : SubstId} {bs cs : Bindings} (hb : p.HasBindings s bs)
    (hc : p.HasBindings s cs) : bs = cs := hb.bindings_eq.symm.trans hc.bindings_eq

/-- No two substitutions bind the same. -/
theorem HasBindings.inj {s t : SubstId} {bs : Bindings} (hs : p.HasBindings s bs)
    (ht : p.HasBindings t bs) : s = t :=
  congrArg SubstId.mk (InternTable.key_inj (by rw [hs]; rfl) (by rw [ht]; rfl))

theorem HasCandidates.candidates_eq {l : LubId} {cs : Candidates} (h : p.HasCandidates l cs) :
    p.candidates l = cs := by
  rw [candidates, h, Option.getD_some]

theorem HasCandidates.unique {l : LubId} {cs ds : Candidates} (hc : p.HasCandidates l cs)
    (hd : p.HasCandidates l ds) : cs = ds := hc.candidates_eq.symm.trans hd.candidates_eq

/-- No two candidate sets consist of the same types. -/
theorem HasCandidates.inj {l m : LubId} {cs : Candidates} (hl : p.HasCandidates l cs)
    (hm : p.HasCandidates m cs) : l = m :=
  congrArg LubId.mk (InternTable.key_inj (by rw [hl]; rfl) (by rw [hm]; rfl))

/-! ### Entries of a later pool -/

theorem Has.of_le (hle : p ≤ q) {ty : TypeId} (h : p.Has ty) : q.Has ty :=
  Nat.lt_of_lt_of_le h (InternTable.size_le_of_le hle.1)

theorem HasKind.of_le (hle : p ≤ q) {ty : TypeId} {k : TypeKind} (h : p.HasKind ty k) :
    q.HasKind ty k := InternTable.map_get?_of_le hle.1 h

/-- A type has kept the kind that it had from the start. -/
theorem HasKind.of_ge (hle : p ≤ q) {ty : TypeId} {k : TypeKind} (hty : p.Has ty)
    (h : q.HasKind ty k) : p.HasKind ty k :=
  (hty.hasKind.of_le hle).unique h ▸ hty.hasKind

theorem HasBindings.of_le (hle : p ≤ q) {s : SubstId} {bs : Bindings} (h : p.HasBindings s bs) :
    q.HasBindings s bs := InternTable.get?_of_le hle.2.1 h

theorem HasCandidates.of_le (hle : p ≤ q) {l : LubId} {cs : Candidates}
    (h : p.HasCandidates l cs) : q.HasCandidates l cs := InternTable.get?_of_le hle.2.2 h

theorem kind_of_le (hle : p ≤ q) {ty : TypeId} (h : p.Has ty) : q.kind ty = p.kind ty :=
  (h.hasKind.of_le hle).kind_eq

theorem flags_of_le (hle : p ≤ q) {ty : TypeId} (h : p.Has ty) : q.flags ty = p.flags ty := by
  obtain ⟨a, ha⟩ := InternTable.exists_get? h
  rw [flags, flags, InternTable.get?_of_le hle.1 ha, ha]

theorem replacement?_of_le (hle : p ≤ q) {s : SubstId} {bs : Bindings}
    (h : p.HasBindings s bs) (v : TypeVarId) : q.replacement? s v = p.replacement? s v := by
  rw [replacement?, replacement?, h.bindings_eq, (h.of_le hle).bindings_eq]

/-! ### Parts of a kind -/

/-- The types that a kind refers to. -/
def parts (p : Pool) : TypeKind → List TypeId
  | .array elem => [elem]
  | .inst _ s outer => (p.bindings s).map (·.2) ++ outer.toList
  | .lub l => p.candidates l
  | .prim _ | .null | .raw _ | .var _ => []

/-- The substitution or candidate set of a kind is in the pool. -/
def Linked (p : Pool) : TypeKind → Prop
  | .inst _ s _ => ∃ bs, p.HasBindings s bs
  | .lub l => ∃ cs, p.HasCandidates l cs
  | .prim _ | .null | .array _ | .raw _ | .var _ => True

/-- Everything that a kind refers to is in the pool. -/
structure Admits (p : Pool) (k : TypeKind) : Prop where
  linked : p.Linked k
  parts : ∀ u ∈ p.parts k, p.Has u

theorem Linked.of_le (hle : p ≤ q) {k : TypeKind} (h : p.Linked k) : q.Linked k := by
  cases k with
  | inst base s outer => exact h.imp fun _ hbs => hbs.of_le hle
  | lub l => exact h.imp fun _ hcs => hcs.of_le hle
  | _ => trivial

theorem parts_of_le (hle : p ≤ q) {k : TypeKind} (h : p.Linked k) : q.parts k = p.parts k := by
  cases k with
  | inst base s outer =>
    obtain ⟨bs, hbs⟩ := h
    simp only [Pool.parts, hbs.bindings_eq, (hbs.of_le hle).bindings_eq]
  | lub l =>
    obtain ⟨cs, hcs⟩ := h
    simp only [Pool.parts, hcs.candidates_eq, (hcs.of_le hle).candidates_eq]
  | _ => rfl

theorem foldl_addPart_of_le (hle : p ≤ q) (f : TypeFlags) {tys : List TypeId}
    (h : ∀ u ∈ tys, p.Has u) :
    tys.foldl (fun f part => f.addPart (q.flags part)) f =
      tys.foldl (fun f part => f.addPart (p.flags part)) f :=
  List.foldl_ext _ _ f fun _ u hu => by rw [flags_of_le hle (h u hu)]

theorem flagsOfKind_of_le (hle : p ≤ q) {k : TypeKind} (h : p.Admits k) :
    q.flagsOfKind k = p.flagsOfKind k := by
  have hparts := parts_of_le hle h.linked
  cases k with
  | array elem => rw [flagsOfKind, flagsOfKind, flags_of_le hle (h.parts elem List.mem_cons_self)]
  | inst base s outer =>
    simp only [flagsOfKind]
    rw [show (q.bindings s).map (·.2) ++ outer.toList = (p.bindings s).map (·.2) ++ outer.toList
      from hparts]
    exact foldl_addPart_of_le hle _ h.parts
  | lub l =>
    simp only [flagsOfKind]
    rw [show q.candidates l = p.candidates l from hparts]
    exact foldl_addPart_of_le hle _ h.parts
  | _ => rfl

/-! ### Bound variables -/

/-- The binding belongs to an instantiation of the pool. -/
def IsInstanceBinding (p : Pool) (b : TypeVarId × TypeId) : Prop :=
  ∃ ty base s outer bs, p.HasKind ty (.inst base s outer) ∧ p.HasBindings s bs ∧ b ∈ bs

/-- An instantiation of the pool binds the variable. -/
def IsBound (p : Pool) (v : TypeVarId) : Prop := ∃ ty, p.IsInstanceBinding (v, ty)

theorem IsBound.of_le (hle : p ≤ q) {v : TypeVarId} (h : p.IsBound v) : q.IsBound v := by
  obtain ⟨u, ty, base, s, outer, bs, hk, hbs, hb⟩ := h
  exact ⟨u, ty, base, s, outer, bs, hk.of_le hle, hbs.of_le hle, hb⟩

/-- If a kind is an instantiation, the pool binds its variables already. -/
def BindsOld (p : Pool) : TypeKind → Prop
  | .inst _ s _ => ∀ b ∈ p.bindings s, p.IsBound b.1
  | .prim _ | .null | .array _ | .raw _ | .var _ | .lub _ => True

/-! ### Validity -/

/-- The invariant of pools. -/
structure Valid (p : Pool) : Prop where
  prims : ∀ r : Primitive, p.HasKind r.typeId (.prim r)
  null : p.HasKind .null .null
  empty : p.HasBindings .empty []
  linked : ∀ {ty k}, p.HasKind ty k → p.Linked k
  /-- A type is younger than its parts. -/
  parts_lt : ∀ {ty k}, p.HasKind ty k → ∀ u ∈ p.parts k, u.index < ty.index
  flags_eq : ∀ {ty k}, p.HasKind ty k → p.flags ty = p.flagsOfKind k
  bindings : ∀ {s bs}, p.HasBindings s bs → Bindings.Sorted bs ∧ ∀ b ∈ bs, p.Has b.2
  candidates : ∀ {l cs}, p.HasCandidates l cs →
    Candidates.Sorted cs ∧ cs.length ≠ 1 ∧ ∀ u ∈ cs, p.Has u

/-- Whether the kind is one of erased types with an older element type at most. -/
def isErasedBelow (i : Nat) : TypeKind → Bool
  | .prim _ | .null | .raw _ => true
  | .array elem => elem.index < i
  | .var _ | .inst _ _ _ | .lub _ => false

/-- A pool of erased types with the empty substitution is valid. -/
theorem Valid.of_erased (prims : ∀ r : Primitive, p.HasKind r.typeId (.prim r))
    (null : p.HasKind .null .null) (substs : p.substs.entries = #[[]])
    (lubs : p.lubs.entries = #[])
    (kinds : ∀ i < p.size, isErasedBelow i (p.kind ⟨i⟩) = true ∧
      p.flags ⟨i⟩ = p.flagsOfKind (p.kind ⟨i⟩)) : p.Valid := by
  have hkind : ∀ {ty k}, p.HasKind ty k → isErasedBelow ty.index k = true ∧
      p.flags ty = p.flagsOfKind k := by
    intro ty k h
    obtain ⟨herased, hflags⟩ := kinds ty.index h.has
    rw [show p.kind ⟨ty.index⟩ = k from h.kind_eq] at herased hflags
    exact ⟨herased, hflags⟩
  constructor
  case prims => exact prims
  case null => exact null
  case empty => rw [HasBindings, InternTable.get?, substs]; rfl
  case linked =>
    intro ty k h
    cases k with
    | inst base s outer => cases (hkind h).1
    | lub l => cases (hkind h).1
    | _ => trivial
  case parts_lt =>
    intro ty k h u hu
    cases k with
    | array elem => exact List.mem_singleton.mp hu ▸ of_decide_eq_true (hkind h).1
    | inst base s outer => cases (hkind h).1
    | lub l => cases (hkind h).1
    | _ => exact absurd hu List.not_mem_nil
  case flags_eq => exact fun h => (hkind h).2
  case bindings =>
    intro s bs h
    rw [HasBindings, InternTable.get?, substs] at h
    obtain ⟨-, rfl⟩ : s.index = 0 ∧ bs = [] := by
      cases hs : s.index with
      | zero => rw [hs] at h; exact ⟨rfl, (Option.some.inj h).symm⟩
      | succ i => rw [hs] at h; cases h
    exact ⟨List.Pairwise.nil, fun b hb => absurd hb List.not_mem_nil⟩
  case candidates =>
    intro l cs h
    rw [HasCandidates, InternTable.get?, lubs] at h
    cases h

theorem Valid.has_part (hp : p.Valid) {ty u : TypeId} {k : TypeKind} (h : p.HasKind ty k)
    (hu : u ∈ p.parts k) : p.Has u :=
  Nat.lt_trans (hp.parts_lt h u hu) h.has

theorem Valid.admits (hp : p.Valid) {ty : TypeId} {k : TypeKind} (h : p.HasKind ty k) :
    p.Admits k :=
  ⟨hp.linked h, fun _ => hp.has_part h⟩

/-- A pool has grown without an instantiation that binds a variable for the first time. -/
structure Extends (p q : Pool) : Prop where
  le : p ≤ q
  isBound : ∀ {v}, q.IsBound v → p.IsBound v

instance : Store Pool where
  Grows := Extends
  Valid := Valid
  grows_refl p := ⟨le_refl p, id⟩
  grows_trans h h' := ⟨le_trans h.le h'.le, fun hv => h.isBound (h'.isBound hv)⟩
  le_of_grows h := h.le

/-! ### Interning -/

theorem le_internKind (p : Pool) (k : TypeKind) : p ≤ (internKind k p).2 :=
  ⟨InternTable.le_intern _ _, le_refl _, le_refl _⟩

theorem le_internSubst (p : Pool) (bs : List (TypeVarId × TypeId)) : p ≤ (internSubst bs p).2 :=
  ⟨le_refl _, InternTable.le_intern _ _, le_refl _⟩

theorem le_internCandidates (p : Pool) (cs : Candidates) : p ≤ (internCandidates cs p).2 :=
  ⟨le_refl _, le_refl _, InternTable.le_intern _ _⟩

theorem hasKind_internKind (p : Pool) (k : TypeKind) :
    (internKind k p).2.HasKind (internKind k p).1 k := InternTable.get?_intern p.types _

/-- A type after interning a kind is an old one, or a new one of that kind. -/
theorem hasKind_internKind_cases {k l : TypeKind} {ty : TypeId}
    (h : (internKind k p).2.HasKind ty l) : p.HasKind ty l ∨
      (ty.index = p.size ∧ l = k ∧ (internKind k p).2.flags ty = p.flagsOfKind k) := by
  obtain ⟨a, ha, rfl⟩ := Option.map_eq_some_iff.mp h
  rcases InternTable.get?_intern_cases ha with hold | ⟨-, hsize, rfl⟩
  · exact Or.inl (by rw [HasKind, hold]; rfl)
  · refine Or.inr ⟨hsize, rfl, ?_⟩
    rw [flags]
    exact congrArg (fun o => (Option.map PooledType.flags o).getD {}) ha

theorem hasBindings_internSubst (p : Pool) (bs : List (TypeVarId × TypeId)) :
    (internSubst bs p).2.HasBindings (internSubst bs p).1 (Bindings.ofList bs) := by
  have h := InternTable.get?_intern p.substs (Bindings.ofList bs)
  rw [Option.map_id] at h
  exact h

theorem hasBindings_internSubst_cases {bs : List (TypeVarId × TypeId)} {s : SubstId}
    {cs : Bindings} (h : (internSubst bs p).2.HasBindings s cs) :
    p.HasBindings s cs ∨ cs = Bindings.ofList bs :=
  (InternTable.get?_intern_cases h).imp_right fun h => h.2.2

theorem hasCandidates_internCandidates (p : Pool) (cs : Candidates) :
    (internCandidates cs p).2.HasCandidates (internCandidates cs p).1 cs := by
  have h := InternTable.get?_intern p.lubs cs
  rw [Option.map_id] at h
  exact h

theorem hasCandidates_internCandidates_cases {cs ds : Candidates} {l : LubId}
    (h : (internCandidates cs p).2.HasCandidates l ds) : p.HasCandidates l ds ∨ ds = cs :=
  (InternTable.get?_intern_cases h).imp_right fun h => h.2.2

theorem Valid.internKind (hp : p.Valid) {k : TypeKind} (hk : p.Admits k) :
    (internKind k p).2.Valid := by
  have hle := le_internKind p k
  have hadmits : ∀ {ty l}, (Pool.internKind k p).2.HasKind ty l →
      p.Admits l ∧ ∀ u ∈ p.parts l, u.index < ty.index := by
    intro ty l h
    rcases hasKind_internKind_cases h with hold | ⟨hsize, rfl, -⟩
    · exact ⟨hp.admits hold, hp.parts_lt hold⟩
    · exact ⟨hk, fun u hu => hsize ▸ hk.parts u hu⟩
  constructor
  case prims => exact fun r => (hp.prims r).of_le hle
  case null => exact hp.null.of_le hle
  case empty => exact hp.empty
  case linked => exact fun h => (hadmits h).1.linked.of_le hle
  case parts_lt =>
    intro ty l h u hu
    exact (hadmits h).2 u (parts_of_le hle (hadmits h).1.linked ▸ hu)
  case flags_eq =>
    intro ty l h
    rw [flagsOfKind_of_le hle (hadmits h).1]
    rcases hasKind_internKind_cases h with hold | ⟨-, rfl, hflags⟩
    · rw [flags_of_le hle hold.has, hp.flags_eq hold]
    · exact hflags
  case bindings =>
    exact fun h => ⟨(hp.bindings h).1, fun b hb => ((hp.bindings h).2 b hb).of_le hle⟩
  case candidates =>
    intro l cs h
    obtain ⟨hsorted, hlength, hhas⟩ := hp.candidates h
    exact ⟨hsorted, hlength, fun u hu => (hhas u hu).of_le hle⟩

theorem extends_internKind (p : Pool) {k : TypeKind} (hbinds : p.BindsOld k) :
    Extends p (Pool.internKind k p).2 where
  le := le_internKind p k
  isBound := by
    rintro v ⟨u, ty, base, s, outer, bs, hkind, hbs, hb⟩
    rcases hasKind_internKind_cases hkind with hold | ⟨-, rfl, -⟩
    · exact ⟨u, ty, base, s, outer, bs, hold, hbs, hb⟩
    · have hbs' : p.HasBindings s bs := hbs
      exact hbinds (v, u) (hbs'.bindings_eq ▸ hb)

theorem Extends.of_types_eq (hp : p.Valid) (hle : p ≤ q) (htypes : q.types = p.types) :
    Extends p q where
  le := hle
  isBound := by
    rintro v ⟨u, ty, base, s, outer, bs, hkind, hbs, hb⟩
    rw [HasKind, htypes] at hkind
    obtain ⟨bs', hbs'⟩ := hp.linked hkind
    obtain rfl := hbs.unique (hbs'.of_le hle)
    exact ⟨u, ty, base, s, outer, bs, hkind, hbs', hb⟩

theorem Valid.of_types_eq (hp : p.Valid) (hle : p ≤ q) (htypes : q.types = p.types)
    (hbindings : ∀ {s bs}, q.HasBindings s bs → Bindings.Sorted bs ∧ ∀ b ∈ bs, p.Has b.2)
    (hcandidates : ∀ {l cs}, q.HasCandidates l cs →
      Candidates.Sorted cs ∧ cs.length ≠ 1 ∧ ∀ u ∈ cs, p.Has u) : q.Valid := by
  have hkind : ∀ {ty k}, q.HasKind ty k → p.HasKind ty k := fun h => by
    rwa [HasKind, htypes] at h
  constructor
  case prims => exact fun r => (hp.prims r).of_le hle
  case null => exact hp.null.of_le hle
  case empty => exact hp.empty.of_le hle
  case linked => exact fun h => (hp.linked (hkind h)).of_le hle
  case parts_lt =>
    intro ty k h u hu
    exact hp.parts_lt (hkind h) u (parts_of_le hle (hp.linked (hkind h)) ▸ hu)
  case flags_eq =>
    intro ty k h
    rw [flags_of_le hle (hkind h).has, hp.flags_eq (hkind h),
      flagsOfKind_of_le hle (hp.admits (hkind h))]
  case bindings =>
    exact fun h => ⟨(hbindings h).1, fun b hb => ((hbindings h).2 b hb).of_le hle⟩
  case candidates =>
    intro l cs h
    obtain ⟨hsorted, hlength, hhas⟩ := hcandidates h
    exact ⟨hsorted, hlength, fun u hu => (hhas u hu).of_le hle⟩

/-- Interning a kind that a type has already answers the type and changes nothing. -/
theorem internKind_eq {ty : TypeId} {k : TypeKind} (h : p.HasKind ty k) :
    internKind k p = (ty, p) := by
  have hfind : p.types.find? k = some ty.index := InternTable.find?_eq_some_iff.mpr h
  have hintern : p.types.intern ⟨k, p.flagsOfKind k⟩ = (ty.index, p.types) :=
    InternTable.intern_of_find?_eq_some hfind
  simp only [internKind, hintern]

theorem internKind_computes (hp : p.Valid) {k : TypeKind} (hk : p.Admits k) (hbinds : p.BindsOld k) :
    Computes (internKind k) p fun ty q => q.HasKind ty k where
  grows := extends_internKind p hbinds
  valid := hp.internKind hk
  post := hasKind_internKind p k
  again q hle := by
    have h := InternTable.intern_eq_of_le (b := ⟨k, q.flagsOfKind k⟩) hle.1 rfl
    simp only [internKind, h]

theorem array_computes (hp : p.Valid) {elem : TypeId} (h : p.Has elem) :
    Computes (array elem) p fun ty q => q.HasKind ty (.array elem) :=
  internKind_computes hp ⟨trivial, fun _ hu => List.mem_singleton.mp hu ▸ h⟩ trivial

theorem rawClass_computes (hp : p.Valid) (c : ClassId) :
    Computes (rawClass c) p fun ty q => q.HasKind ty (.raw c) :=
  internKind_computes hp ⟨trivial, fun _ hu => absurd hu List.not_mem_nil⟩ trivial

theorem typeVar_computes (hp : p.Valid) (v : TypeVarId) :
    Computes (typeVar v) p fun ty q => q.HasKind ty (.var v) :=
  internKind_computes hp ⟨trivial, fun _ hu => absurd hu List.not_mem_nil⟩ trivial

theorem admits_inst (hp : p.Valid) {base : ClassId} {s : SubstId} {bs : Bindings}
    {outer : Option TypeId} (hs : p.HasBindings s bs) (houter : ∀ u ∈ outer, p.Has u) :
    p.Admits (.inst base s outer) := by
  refine ⟨⟨bs, hs⟩, fun u hu => ?_⟩
  rcases List.mem_append.mp hu with hu | hu
  · rw [hs.bindings_eq] at hu
    obtain ⟨b, hb, rfl⟩ := List.mem_map.mp hu
    exact (hp.bindings hs).2 b hb
  · exact houter u (Option.mem_toList.mp hu)

theorem instantiation_computes (hp : p.Valid) {base : ClassId} {s : SubstId} {bs : Bindings}
    {outer : Option TypeId} (hs : p.HasBindings s bs) (houter : ∀ u ∈ outer, p.Has u)
    (hbinds : ∀ b ∈ bs, p.IsBound b.1) :
    Computes (instantiation base s outer) p fun ty q => q.HasKind ty (.inst base s outer) :=
  internKind_computes hp (admits_inst hp hs houter) fun b hb => hbinds b (hs.bindings_eq ▸ hb)

theorem internSubst_computes (hp : p.Valid) {bs : List (TypeVarId × TypeId)}
    (hbs : ∀ b ∈ bs, p.Has b.2) :
    Computes (internSubst bs) p fun s q => q.HasBindings s (Bindings.ofList bs) where
  grows := .of_types_eq hp (le_internSubst p bs) rfl
  valid := by
    refine hp.of_types_eq (le_internSubst p bs) rfl (fun h => ?_) hp.candidates
    rcases hasBindings_internSubst_cases h with hold | rfl
    · exact hp.bindings hold
    · exact ⟨Bindings.sorted_ofList bs, fun b hb => hbs b (Bindings.mem_of_mem_ofList hb)⟩
  post := hasBindings_internSubst p bs
  again q hle := by
    have h := InternTable.intern_eq_of_le (b := Bindings.ofList bs) hle.2.1 rfl
    simp only [internSubst, h]

theorem internCandidates_computes (hp : p.Valid) {cs : Candidates} (hsorted : cs.Sorted)
    (hlength : cs.length ≠ 1) (hcs : ∀ u ∈ cs, p.Has u) :
    Computes (internCandidates cs) p fun l q => q.HasCandidates l cs where
  grows := .of_types_eq hp (le_internCandidates p cs) rfl
  valid := by
    refine hp.of_types_eq (le_internCandidates p cs) rfl hp.bindings fun h => ?_
    rcases hasCandidates_internCandidates_cases h with hold | rfl
    · exact hp.candidates hold
    · exact ⟨hsorted, hlength, hcs⟩
  post := hasCandidates_internCandidates p cs
  again q hle := by
    have h := InternTable.intern_eq_of_le (b := cs) hle.2.2 rfl
    simp only [internCandidates, h]

/-- The type stands for the upper bound of a candidate set: its only member, or a type still to be
computed. -/
inductive IsLub (p : Pool) (cs : Candidates) : TypeId → Prop
  | only {ty : TypeId} : cs = [ty] → p.Has ty → IsLub p cs ty
  | lub {ty : TypeId} {l : LubId} : cs.length ≠ 1 → p.HasCandidates l cs →
      p.HasKind ty (.lub l) → IsLub p cs ty

theorem IsLub.has {cs : Candidates} {ty : TypeId} (h : p.IsLub cs ty) : p.Has ty := by
  cases h with
  | only _ hhas => exact hhas
  | lub _ _ hkind => exact hkind.has

theorem IsLub.of_le (hle : p ≤ q) {cs : Candidates} {ty : TypeId} (h : p.IsLub cs ty) :
    q.IsLub cs ty := by
  cases h with
  | only hcs hhas => exact .only hcs (hhas.of_le hle)
  | lub hlength hcs hkind => exact .lub hlength (hcs.of_le hle) (hkind.of_le hle)

theorem lubOf_computes (hp : p.Valid) {tys : List TypeId} (h : ∀ u ∈ tys, p.Has u) :
    Computes (lubOf tys) p fun ty q => q.IsLub (Candidates.ofList tys) ty := by
  have hhas : ∀ u ∈ Candidates.ofList tys, p.Has u := fun u hu => h u (Candidates.mem_ofList.mp hu)
  unfold lubOf
  split
  · rename_i only honly
    exact Computes.pure hp (.only honly (hhas only (by simp [honly])))
  · rename_i cs hne
    have hlength : (Candidates.ofList tys).length ≠ 1 := fun hone => by
      obtain ⟨u, hu⟩ := List.length_eq_one_iff.mp hone
      exact hne u hu
    have hcands := internCandidates_computes hp (Candidates.sorted_ofList tys) hlength hhas
    refine hcands.bind fun l q hpq hq hl => ?_
    have hadmits : q.Admits (.lub l) := by
      refine ⟨⟨_, hl⟩, fun u hu => ?_⟩
      rw [parts, hl.candidates_eq] at hu
      exact (hq.candidates hl).2.2 u hu
    exact (internKind_computes hq hadmits trivial).mono fun ty r hqr _ hty =>
      .lub hlength (hl.of_le hqr.le) hty

end Erasure.Pool
