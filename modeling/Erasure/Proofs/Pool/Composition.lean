/-
Substitutions one after the other.

Substituting with `s₁` and then with `s₂` is substituting once, with the composition of the two: it
replaces a variable of `s₁` by what `s₂` makes of its replacement, and the other variables as `s₂`
does. The main statements:

* `Substitutes.comp`: the results of two substitutions, one after the other, are those of their
  composition, also where an upper bound collapses to its only candidate.
* `compose_computes`: any two substitutions have a composition.
* `substituteTwice_computes`: substituting twice finds or makes the result of the composition.
-/
import Erasure.Proofs.Pool.Correspondence
import Erasure.Proofs.Pool.Flags

namespace Erasure

/-! ### Looking up -/

namespace Bindings

theorem lookup?_cons (b : TypeVarId × TypeId) (bs : Bindings) (v : TypeVarId) :
    lookup? (b :: bs) v = if b.1 = v then some b.2 else lookup? bs v := by
  by_cases h : b.1 = v <;> simp [lookup?, h]

theorem lookup?_append (bs cs : List (TypeVarId × TypeId)) (v : TypeVarId) :
    lookup? (bs ++ cs) v = (lookup? bs v).or (lookup? cs v) := by
  rw [lookup?, List.find?_append, Option.map_or]
  rfl

theorem lookup?_mapTypes (bs : Bindings) (g : TypeId → TypeId) (v : TypeVarId) :
    (bs.mapTypes g).lookup? v = (bs.lookup? v).map g := by
  rw [mapTypes, lookup?, lookup?, List.find?_map, Option.map_map, Option.map_map]
  rfl

theorem lookup?_bindNew {bs : Bindings} (hbs : bs.Sorted) (v w : TypeVarId) (ty : TypeId) :
    (bs.bindNew v ty).lookup? w = (bs.lookup? w).or (if v = w then some ty else none) := by
  fun_induction bindNew v ty bs with
  | case1 => rw [lookup?_cons]; rfl
  | case2 x u rest hlt =>
    rw [lookup?_cons]
    split
    case isTrue hvw =>
      -- the variables of the map are greater
      have hnone : lookup? ((x, u) :: rest) w = none := by
        cases hlookup : lookup? ((x, u) :: rest) w with
        | none => rfl
        | some t =>
          have hw : x.index ≤ w.index := by
            rcases List.mem_cons.mp (mem_of_lookup? hlookup) with heq | hmem
            · exact Nat.le_of_eq (congrArg (·.1.index) heq).symm
            · exact Nat.le_of_lt (List.rel_of_pairwise_cons hbs hmem)
          have hv := congrArg TypeVarId.index hvw
          dsimp only at hv
          omega
      rw [hnone, Option.none_or]
    case isFalse => rw [Option.or_none]
  | case3 u rest =>
    rw [lookup?_cons]
    split
    · rfl
    · rw [Option.or_none]
  | case4 x u rest _ hne ih =>
    rw [lookup?_cons, lookup?_cons, ih hbs.of_cons]
    split
    · rfl
    · rfl

/-- In the map of a list the first binding of a variable counts. -/
theorem lookup?_ofList (bs : List (TypeVarId × TypeId)) (v : TypeVarId) :
    (ofList bs).lookup? v = lookup? bs v := by
  suffices hacc : ∀ acc : Bindings, acc.Sorted →
      lookup? (bs.foldl (fun acc b => bindNew b.1 b.2 acc) acc) v =
        (lookup? acc v).or (lookup? bs v) from hacc [] List.Pairwise.nil
  induction bs with
  | nil => exact fun acc _ => (Option.or_none).symm
  | cons b bs ih =>
    intro acc hacc
    rw [List.foldl_cons, ih _ (hacc.bindNew b.1 b.2), lookup?_bindNew hacc, lookup?_cons,
      Option.or_assoc]
    congr 1
    split <;> rfl

theorem mapTypes_mapTypes (f g : TypeId → TypeId) (bs : Bindings) :
    (bs.mapTypes f).mapTypes g = bs.mapTypes (g ∘ f) := List.map_map

end Bindings

theorem Candidates.ofList_map_ofList (tys : List TypeId) (g : TypeId → TypeId) :
    ofList ((ofList tys).map g) = ofList (tys.map g) := by
  refine (sorted_ofList _).eq_of_mem_iff (sorted_ofList _) fun u => ?_
  simp only [mem_ofList, List.mem_map]

namespace Pool

variable {p q : Pool} {f g h : TypeVarId → Option TypeId} {ty r : TypeId}

theorem ReplaceRelated.exists_of_some {R : TypeId → TypeId → Prop} (hfg : ReplaceRelated R f g)
    {v : TypeVarId} {u : TypeId} (hu : f v = some u) : ∃ r, g v = some r ∧ R u r := by
  have hv := hfg v
  rw [hu] at hv
  generalize g v = x at hv
  cases hv with
  | some hur => exact ⟨_, rfl, hur⟩

theorem ReplaceRelated.eq_none_iff {R : TypeId → TypeId → Prop} (hfg : ReplaceRelated R f g)
    {v : TypeVarId} : f v = none ↔ g v = none := by
  have hv := hfg v
  generalize f v = x, g v = y at hv
  cases hv with
  | none => exact Iff.rfl
  | some _ => exact ⟨nofun, nofun⟩

/-! ### Results -/

/-- What a substitution does to the variables that do not occur in a type makes no difference. -/
theorem Substitutes.congr {f' : TypeVarId → Option TypeId} (hr : p.Substitutes f ty r)
    (hff' : ∀ v, p.Occurs (.var v) ty → f v = f' v) : p.Substitutes f' ty r := by
  induction hr with
  | prim hk => exact .prim hk
  | null hk => exact .null hk
  | raw hk => exact .raw hk
  | @var ty v hk =>
    rw [hff' v (.here hk)]
    exact .var hk
  | array hk _ hk' ih =>
    exact .array hk (ih fun v hv => hff' v (.part hk List.mem_cons_self hv)) hk'
  | inst g hk hbs _ _ hbs' hk' ihargs ihouter =>
    refine .inst g hk hbs (fun b hb => ihargs b hb fun v hv => ?_)
      (fun u hu => ihouter u hu fun v hv => ?_) hbs' hk'
    · exact hff' v (.part hk (mem_parts_of_mem_bindings hbs hb) hv)
    · exact hff' v (.part hk (mem_parts_of_mem_outer hu) hv)
  | lub g hk hcs _ hlub ih =>
    exact .lub g hk hcs (fun u hu => ih u hu fun v hv => hff' v (.part hk (mem_parts_lub hcs hu) hv))
      hlub

theorem IsLub.has_of_mem (hp : p.Valid) {cs : Candidates} (hr : p.IsLub cs r) {u : TypeId}
    (hu : u ∈ cs) : p.Has u := by
  cases hr with
  | only hcs hhas =>
    rw [hcs] at hu
    exact List.mem_singleton.mp hu ▸ hhas
  | lub _ hcs hk => exact hp.has_part hk (mem_parts_lub hcs hu)

theorem IsLub.of_ge (hp : p.Valid) (hle : p ≤ q) {cs : Candidates} (hr : q.IsLub cs r)
    (hhas : p.Has r) : p.IsLub cs r := by
  cases hr with
  | only hcs _ => exact .only hcs hhas
  | lub hlength hcs hk =>
    have hk' := hk.of_ge hle hhas
    obtain ⟨ds, hds⟩ := hp.linked hk'
    obtain rfl := (hds.of_le hle).unique hcs
    exact .lub hlength hds hk'

/-- A result that was there before was the result before. -/
theorem Substitutes.of_ge (hp : p.Valid) (hle : p ≤ q) (hr : q.Substitutes f ty r) (hty : p.Has ty)
    (hhas : p.Has r) : p.Substitutes f ty r := by
  induction hr with
  | prim hk => exact .prim (hk.of_ge hle hty)
  | null hk => exact .null (hk.of_ge hle hty)
  | raw hk => exact .raw (hk.of_ge hle hty)
  | var hk => exact .var (hk.of_ge hle hty)
  | array hk _ hk' ih =>
    have hty' := hk.of_ge hle hty
    have hr' := hk'.of_ge hle hhas
    exact .array hty'
      (ih (hp.has_part hty' List.mem_cons_self) (hp.has_part hr' List.mem_cons_self)) hr'
  | @inst ty ty' base s s' outer bs g hk hbs _ _ hbs' hk' ihargs ihouter =>
    have hty' := hk.of_ge hle hty
    have hr' := hk'.of_ge hle hhas
    obtain ⟨cs, hcs⟩ := hp.linked hty'
    obtain ⟨ds, hds⟩ := hp.linked hr'
    obtain rfl := (hcs.of_le hle).unique hbs
    obtain rfl := (hds.of_le hle).unique hbs'
    refine .inst g hty' hcs (fun b hb => ?_) (fun u hu => ?_) hds hr'
    · exact ihargs b hb (hp.has_part hty' (mem_parts_of_mem_bindings hcs hb))
        (hp.has_part hr' (mem_parts_of_mem_bindings hds (b := (b.1, g b.2)) (List.mem_map_of_mem hb)))
    · exact ihouter u hu (hp.has_part hty' (mem_parts_of_mem_outer hu))
        (hp.has_part hr' (mem_parts_of_mem_outer (Option.mem_map_of_mem g hu)))
  | @lub ty ty' l cs g hk hcs _ hlub ih =>
    have hty' := hk.of_ge hle hty
    have hlub' := hlub.of_ge hp hle hhas
    obtain ⟨ds, hds⟩ := hp.linked hty'
    obtain rfl := (hds.of_le hle).unique hcs
    refine .lub g hty' hds (fun u hu => ?_) hlub'
    exact ih u hu (hp.has_part hty' (mem_parts_lub hds hu))
      (hlub'.has_of_mem hp (Candidates.mem_ofList.mpr (List.mem_map_of_mem hu)))

/-! ### Compositions -/

/-- The substitution `h` does what `f` and then `g` do. -/
structure Composes (p : Pool) (f g h : TypeVarId → Option TypeId) : Prop where
  replaced : ∀ {v u}, f v = some u → ∃ r, h v = some r ∧ p.Substitutes g u r
  others : ∀ {v}, f v = none → h v = g v

theorem Composes.of_le (hle : p ≤ q) (hfgh : p.Composes f g h) : q.Composes f g h where
  replaced hu := by
    obtain ⟨r, hr, hur⟩ := hfgh.replaced hu
    exact ⟨r, hr, hur.of_le hle⟩
  others := hfgh.others

/-- Two substitutions compose to one that replaces what the first replaces, by the results of the
second, and what the second replaces besides. -/
theorem Composes.of_related (hfh : ReplaceRelated (p.Substitutes g) f h) :
    p.Composes f g fun v => (h v).or (g v) where
  replaced hu := by
    obtain ⟨r, hr, hur⟩ := hfh.exists_of_some hu
    exact ⟨r, by rw [hr, Option.some_or], hur⟩
  others hnone := by rw [hfh.eq_none_iff.mp hnone, Option.none_or]

/-- Substituting in the upper bound of some candidates is substituting in the candidates, also where
the only candidate is its own bound. -/
theorem Substitutes.of_isLub {cs : Candidates} (hty : p.IsLub cs ty) (hr : p.Substitutes f ty r)
    (hhas : p.Has r) : ∃ g, (∀ u ∈ cs, p.Substitutes f u (g u)) ∧
      p.IsLub (Candidates.ofList (cs.map g)) r := by
  cases hty with
  | only hcs _ =>
    subst hcs
    refine ⟨fun _ => r, fun u hu => ?_, .only rfl hhas⟩
    rwa [List.mem_singleton.mp hu]
  | lub _ hcs hk => exact hr.of_lub hk hcs

/-- The results of two substitutions, one after the other, are those of their composition. -/
theorem Substitutes.comp (hp : p.Valid) (hfgh : p.Composes f g h) {r' : TypeId}
    (hr : p.Substitutes f ty r) (hr' : p.Substitutes g r r') (hhas : p.Has r') :
    p.Substitutes h ty r' := by
  induction hr generalizing r' with
  | prim hk =>
    obtain rfl := hr'.unique (.prim hk)
    exact .prim hk
  | null hk =>
    obtain rfl := hr'.unique (.null hk)
    exact .null hk
  | raw hk =>
    obtain rfl := hr'.unique (.raw hk)
    exact .raw hk
  | @var ty v hk =>
    have hvar := Substitutes.var (f := h) hk
    cases hf : f v with
    | none =>
      rw [hf] at hr'
      rwa [hfgh.others hf, ← hr'.of_var hk] at hvar
    | some u =>
      rw [hf] at hr'
      obtain ⟨x, hx, hux⟩ := hfgh.replaced hf
      rwa [hx, show (some x).getD ty = r' from hux.unique hr'] at hvar
  | array hk _ hk' ih =>
    obtain ⟨elem, helem, hr'⟩ := hr'.of_array hk'
    exact .array hk (ih helem (hp.has_part hr' List.mem_cons_self)) hr'
  | @inst ty ty' base s s' outer bs g₁ hk hbs _ _ hbs' hk' ihargs ihouter =>
    obtain ⟨g₂, s₂, hargs, houter, hbs₂, hr'⟩ := hr'.of_inst hk' hbs'
    rw [Option.map_map] at hr'
    have hargs' : ∀ b ∈ bs, p.Substitutes h b.2 (g₂ (g₁ b.2)) := by
      intro b hb
      have hb₁ : (b.1, g₁ b.2) ∈ bs.mapTypes g₁ := List.mem_map_of_mem hb
      refine ihargs b hb (hargs _ hb₁) (hp.has_part hr' (mem_parts_of_mem_bindings hbs₂
        (b := (b.1, g₂ (g₁ b.2))) (List.mem_map_of_mem hb₁)))
    have houter' : ∀ u ∈ outer, p.Substitutes h u (g₂ (g₁ u)) := fun u hu =>
      ihouter u hu (houter _ (Option.mem_map_of_mem g₁ hu))
        (hp.has_part hr' (mem_parts_of_mem_outer (Option.mem_map_of_mem (g₂ ∘ g₁) hu)))
    rw [Bindings.mapTypes_mapTypes] at hbs₂
    exact .inst (g₂ ∘ g₁) hk hbs hargs' houter' hbs₂ hr'
  | @lub ty ty' l cs g₁ hk hcs _ hlub ih =>
    obtain ⟨g₂, hmembers, hr'⟩ := hr'.of_isLub hlub hhas
    rw [Candidates.ofList_map_ofList, List.map_map] at hr'
    refine .lub (g₂ ∘ g₁) hk hcs (fun u hu => ?_) hr'
    refine ih u hu (hmembers _ (Candidates.mem_ofList.mpr (List.mem_map_of_mem hu))) ?_
    exact hr'.has_of_mem hp (Candidates.mem_ofList.mpr (List.mem_map_of_mem hu))

theorem IsResult.comp (hp : p.Valid) (hfgh : p.Composes f g h) {r' : TypeId}
    (hr : IsResult f ty r p) (hr' : IsResult g r r' p) : IsResult h ty r' p :=
  ⟨hr.1.comp hp hfgh hr'.1 hr'.2, hr'.2⟩

/-! ### Composing -/

/-- The type that two substitutions make, one after the other. -/
def substituteTwice (s₁ s₂ : SubstId) (ty : TypeId) : StateM Pool TypeId := do
  substitute s₂ (← substitute s₁ ty)

/-- The substitution that does what `s₁` and then `s₂` do. -/
def compose (s₁ s₂ : SubstId) : StateM Pool SubstId := do
  let bs ← ((← get).bindings s₁).mapM fun b => return (b.1, ← substitute s₂ b.2)
  internSubst (bs ++ (← get).bindings s₂)

/-- The substitution that binds what `s₁` binds, and what only `s₂` binds as `s₂` does. -/
def union (s₁ s₂ : SubstId) : StateM Pool SubstId := do
  internSubst ((← get).bindings s₁ ++ (← get).bindings s₂)

/-- `s₁₂` binds every variable of `s₁` to what `s₂` makes of its replacement, and the other variables
of `s₂` as `s₂` does. -/
def IsComposition (p : Pool) (s₁ s₂ s₁₂ : SubstId) : Prop :=
  ∀ v, p.replacement? s₁₂ v =
    ((p.replacement? s₁ v).map fun u => (substitute s₂ u p).1).or (p.replacement? s₂ v)

section Composing

variable {s₁ s₂ s₁₂ : SubstId} {bs₁ bs₂ bs : Bindings}

/-- Substituting answers the result. -/
theorem Substitutes.eq_substitute (hp : p.Valid) {s : SubstId} (hs : p.HasBindings s bs)
    (hr : p.Substitutes bs.lookup? ty r) (hty : p.Has ty) : (substitute s ty p).1 = r := by
  have hrun := substitute_computes hp hs hty
  exact hrun.post.1.unique (hr.of_le hrun.grows.le)

theorem IsComposition.composes (hp : p.Valid) (h₁ : p.HasBindings s₁ bs₁)
    (h₂ : p.HasBindings s₂ bs₂) (hs : p.HasBindings s₁₂ bs) (h : p.IsComposition s₁ s₂ s₁₂) :
    p.Composes bs₁.lookup? bs₂.lookup? bs.lookup? := by
  have hlookup : ∀ v, bs.lookup? v =
      ((bs₁.lookup? v).map fun u => (substitute s₂ u p).1).or (bs₂.lookup? v) := fun v => by
    simpa only [replacement?, h₁.bindings_eq, h₂.bindings_eq, hs.bindings_eq] using h v
  refine ⟨fun {v u} hu => ?_, fun {v} hnone => ?_⟩
  · have hr : bs.lookup? v = some (substitute s₂ u p).1 := by
      rw [hlookup, hu, Option.map_some, Option.some_or]
    have hhas := (hp.bindings h₁).2 _ (Bindings.mem_of_lookup? hu)
    have hhas' := (hp.bindings hs).2 _ (Bindings.mem_of_lookup? hr)
    -- the result is in the pool already, since `s₁₂` binds a variable to it
    have hrun := substitute_computes hp h₂ hhas
    exact ⟨_, hr, hrun.post.1.of_ge hp hrun.grows.le hhas hhas'⟩
  · rw [hlookup, hnone, Option.map_none, Option.none_or]

/-- Any two substitutions have a composition. -/
theorem compose_computes (hp : p.Valid) (h₁ : p.HasBindings s₁ bs₁) (h₂ : p.HasBindings s₂ bs₂) :
    Computes (compose s₁ s₂) p fun s q =>
      (∃ bs, q.HasBindings s bs) ∧ q.IsComposition s₁ s₂ s := by
  have hhas₁ := (hp.bindings h₁).2
  unfold compose
  refine Computes.get_bind ?_ fun q hle => by rw [h₁.bindings_eq, (h₁.of_le hle).bindings_eq]
  rw [h₁.bindings_eq]
  have hact : ∀ b ∈ bs₁, ∀ q, Store.Grows p q → q.Valid →
      Computes (substitute s₂ b.2) q (IsResult bs₂.lookup? b.2) := fun b hb q hpq hq =>
    substitute_computes hq (h₂.of_le hpq.le) ((hhas₁ b hb).of_le hpq.le)
  refine (mapBindings_substitutes hp hact).bind fun bs' q hpq hq hbs' => ?_
  obtain ⟨g, rfl, hg⟩ := hbs'
  have h₁' := h₁.of_le hpq.le
  have h₂' := h₂.of_le hpq.le
  refine Computes.get_bind ?_ fun q' hle => by rw [h₂'.bindings_eq, (h₂'.of_le hle).bindings_eq]
  rw [h₂'.bindings_eq]
  have hall : ∀ b ∈ bs₁.mapTypes g ++ bs₂, q.Has b.2 := by
    intro b hb
    rcases List.mem_append.mp hb with hb | hb
    · obtain ⟨b', hb', rfl⟩ := List.mem_map.mp hb
      exact (hg b' hb').2
    · exact (hq.bindings h₂').2 b hb
  refine (internSubst_computes hq hall).mono fun s q' hqq hq' hs => ⟨⟨_, hs⟩, fun v => ?_⟩
  have h₁'' := h₁'.of_le hqq.le
  have h₂'' := h₂'.of_le hqq.le
  simp only [replacement?, h₁''.bindings_eq, h₂''.bindings_eq, hs.bindings_eq,
    Bindings.lookup?_ofList, Bindings.lookup?_append, Bindings.lookup?_mapTypes]
  congr 1
  refine Option.map_congr fun u hu => ?_
  have hb := Bindings.mem_of_lookup? hu
  have hresult := (hg _ hb).of_le hqq.le
  exact (hresult.1.eq_substitute hq' h₂'' ((hq'.bindings h₁'').2 _ hb)).symm

theorem union_computes (hp : p.Valid) (h₁ : p.HasBindings s₁ bs₁) (h₂ : p.HasBindings s₂ bs₂) :
    Computes (union s₁ s₂) p fun s q => ∃ bs, q.HasBindings s bs ∧
      ∀ v, bs.lookup? v = (bs₁.lookup? v).or (bs₂.lookup? v) := by
  have hall : ∀ b ∈ bs₁ ++ bs₂, p.Has b.2 := fun b hb =>
    (List.mem_append.mp hb).elim ((hp.bindings h₁).2 b) ((hp.bindings h₂).2 b)
  unfold union
  refine Computes.get_bind (Computes.get_bind ?_ fun q hle => ?_) fun q hle => ?_
  · rw [h₁.bindings_eq, h₂.bindings_eq]
    refine (internSubst_computes hp hall).mono fun s q _ _ hs => ⟨_, hs, fun v => ?_⟩
    rw [Bindings.lookup?_ofList, Bindings.lookup?_append]
  · rw [h₂.bindings_eq, (h₂.of_le hle).bindings_eq]
  · rw [h₁.bindings_eq, (h₁.of_le hle).bindings_eq]

/-- The action makes a composition of two substitutions with the given bindings. -/
def Combines (p : Pool) (bs₁ bs₂ : Bindings) (combine : SubstId → SubstId → StateM Pool SubstId) :
    Prop :=
  ∀ q s₁ s₂, p ≤ q → q.Valid → q.HasBindings s₁ bs₁ → q.HasBindings s₂ bs₂ →
    Computes (combine s₁ s₂) q fun s q' =>
      ∃ bs, q'.HasBindings s bs ∧ q'.Composes bs₁.lookup? bs₂.lookup? bs.lookup?

theorem Combines.of_le (hle : p ≤ q) {combine : SubstId → SubstId → StateM Pool SubstId}
    (h : p.Combines bs₁ bs₂ combine) : q.Combines bs₁ bs₂ combine :=
  fun r s₁ s₂ hqr => h r s₁ s₂ (le_trans hle hqr)

theorem compose_combines : p.Combines bs₁ bs₂ compose := by
  intro q s₁ s₂ _ hq h₁ h₂
  refine (compose_computes hq h₁ h₂).mono fun s q' hqq hq' hs => ?_
  obtain ⟨⟨bs, hbs⟩, hs⟩ := hs
  exact ⟨bs, hbs, hs.composes hq' (h₁.of_le hqq.le) (h₂.of_le hqq.le) hbs⟩

/-- Where the second substitution binds no variable that the first one introduces, their union is
their composition. -/
theorem union_combines (hp : p.Valid) (hhas : ∀ b ∈ bs₁, p.Has b.2)
    (hdisjoint : ∀ b ∈ bs₁, ∀ v, p.Occurs (.var v) b.2 → bs₂.lookup? v = none) :
    p.Combines bs₁ bs₂ union := by
  intro q s₁ s₂ hpq hq h₁ h₂
  refine (union_computes hq h₁ h₂).mono fun s q' hqq hq' hs => ?_
  obtain ⟨bs, hbs, hlookup⟩ := hs
  have hle := le_trans hpq hqq.le
  refine ⟨bs, hbs, fun {v u} hu => ⟨u, ?_, ?_⟩, fun {v} hnone => ?_⟩
  · rw [hlookup, hu, Option.some_or]
  · have hb := Bindings.mem_of_lookup? hu
    refine (Substitutes.refl hq' (fun _ => rfl) ((hhas _ hb).of_le hle)).congr fun w hw => ?_
    exact (hdisjoint _ hb w (hw.of_ge hp hle (hhas _ hb))).symm
  · rw [hlookup, hnone, Option.none_or]

/-- Substituting twice finds or makes what the composition makes. -/
theorem substituteTwice_computes (hp : p.Valid) (h₁ : p.HasBindings s₁ bs₁)
    (h₂ : p.HasBindings s₂ bs₂) (hcomposes : p.Composes bs₁.lookup? bs₂.lookup? h)
    (hty : p.Has ty) : Computes (substituteTwice s₁ s₂ ty) p (IsResult h ty) := by
  refine (substitute_computes hp h₁ hty).bind fun r q hpq hq hr => ?_
  refine (substitute_computes hq (h₂.of_le hpq.le) hr.2).mono fun r' q' hqq hq' hr' => ?_
  exact (hr.of_le hqq.le).comp hq' (hcomposes.of_le (hpq.trans hqq).le) hr'

end Composing

end Pool

end Erasure
