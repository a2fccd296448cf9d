/-
Erasure in two type systems that grow from one.

The intermediate types of an erasure may be numbered differently in the two, but they have one form,
which the common declarations and types fix. The main statements:

* `ComesDownTo.hasForm`: the form of what a type comes down to.
* `Erases.agree`: both type systems leave one shape only.
* `BindsErased.agree`: substitutions that erase the same variables correspond.
-/
import Erasure.Proofs.Canonical.Relation
import Erasure.Proofs.Pool.Correspondence

namespace Erasure.TypeSystem

variable {ts us vs : TypeSystem} {M : Memo TypeId TypeId}

/-! ### Forms -/

/-- The type that a form mentions, if it does, is there. -/
def KnowsForm (ts : TypeSystem) : JoinForm → Prop
  | .known ty => ts.pool.Has ty
  | .raw _ => True
  | .array elem => ts.KnowsForm elem

/-- The joins of known types have forms that mention known types. -/
theorem knowsForm_joinForm (hts : ts.Valid) {depth : Nat} {candidates : List TypeId}
    (h : ∀ ty ∈ candidates, ts.pool.Has ty) : ts.KnowsForm (ts.joinForm depth candidates) := by
  induction depth generalizing candidates with
  | zero => exact hts.object.has
  | succ depth ih =>
    unfold joinForm
    cases hfilter : candidates.filter (· ≠ .null) with
    | nil => exact hts.pool.null.has
    | cons first rest =>
      have hhas : ∀ ty ∈ first :: rest, ts.pool.Has ty := fun ty hty =>
        h ty (mem_of_mem_filter_null hfilter hty)
      dsimp only
      split
      · exact hhas first List.mem_cons_self
      · split
        · show ts.pool.Has _
          cases hfind : (first :: rest).find? _ with
          | none => exact hts.object.has
          | some ty => exact hhas ty (List.mem_of_find?_eq_some hfind)
        · cases helems : ts.arrayElements? (first :: rest) with
          | some elems =>
            dsimp only
            split
            · exact ih fun elem helem => (part_of_mem_arrayElements? hts hhas helems elem helem).1
            · exact hts.object.has
          | none =>
            dsimp only
            split
            · trivial
            · exact hts.object.has

/-- A form that was there from the start. -/
theorem HasForm.of_ge (hext : Extends ts us) (hts : ts.Valid) {ty : TypeId} {form : JoinForm}
    (hty : ts.pool.Has ty) (h : HasForm us.pool ty form) : HasForm ts.pool ty form := by
  induction h with
  | known _ => exact .known hty
  | raw hk => exact .raw (hk.of_ge hext.le.1 hty)
  | array hk _ ih =>
    have hk' := hk.of_ge hext.le.1 hty
    exact .array hk' (ih (hts.pool.has_part hk' List.mem_cons_self))

/-- A type of a form that both type systems have from the start is one type. -/
theorem HasForm.eq_of_has (hts : ts.Valid) (hu : Extends ts us) (hv : Extends ts vs)
    {t t' : TypeId} {form : JoinForm} (ht : ts.pool.Has t) (h : HasForm us.pool t form)
    (h' : HasForm vs.pool t' form) : t' = t :=
  h'.unique ((h.of_ge hu hts ht).of_le hv.le.1)

/-- The form of the type that bounds lead to. -/
def boundForm (ts : TypeSystem) : JoinForm → JoinForm
  | .known ty => .known (ts.boundErasure ty)
  | .raw c => .raw c
  | .array elem => .array elem

/-- The form of the type that a type of the given form comes down to. -/
def downForm (ts : TypeSystem) (form : JoinForm) : JoinForm :=
  match ts.boundForm form with
  | .known ty =>
    match ts.kind ty with
    | .lub l => ts.boundForm (ts.joinForm (ts.pool.size + 1) (ts.pool.candidates l))
    | _ => .known (ts.boundErasure ty)
  | form => form

theorem knowsForm_boundForm (hts : ts.Valid) {form : JoinForm} (h : ts.KnowsForm form) :
    ts.KnowsForm (ts.boundForm form) := by
  cases form with
  | known ty => exact has_boundErasure hts h
  | raw c => trivial
  | array elem => exact h

theorem knowsForm_downForm (hts : ts.Valid) {form : JoinForm} (h : ts.KnowsForm form) :
    ts.KnowsForm (ts.downForm form) := by
  have hbound := knowsForm_boundForm hts h
  unfold downForm
  split
  · rename_i ty hform
    rw [hform] at hbound
    split
    · rename_i l hk
      exact knowsForm_boundForm hts (knowsForm_joinForm hts (has_candidates hts hbound hk))
    · exact has_boundErasure hts hbound
  · exact hbound

theorem hasForm_boundErasure (hts : ts.Valid) (hext : Extends ts us) {ty : TypeId} {form : JoinForm}
    (hform : ts.KnowsForm form) (h : HasForm us.pool ty form) :
    HasForm us.pool (us.boundErasure ty) (ts.boundForm form) := by
  cases h with
  | known _ =>
    rw [hext.boundErasure_eq hts hform]
    exact .known ((has_boundErasure hts hform).of_le hext.le.1)
  | raw hk =>
    rw [boundErasure_of_ne_var fun v hv => nomatch hk.kind_eq.symm.trans hv]
    exact .raw hk
  | array hk helem =>
    rw [boundErasure_of_ne_var fun v hv => nomatch hk.kind_eq.symm.trans hv]
    exact .array hk helem

/-- The form of what a type comes down to is fixed from the start. -/
theorem ComesDownTo.hasForm (hts : ts.Valid) (hext : Extends ts us) {ty u : TypeId}
    {form : JoinForm} (hform : ts.KnowsForm form) (hty : HasForm us.pool ty form)
    (h : us.ComesDownTo ty u) : HasForm us.pool u (ts.downForm form) := by
  obtain ⟨r, hr, rfl⟩ := h
  have hbound := hasForm_boundErasure hts hext hform hty
  have hknows := knowsForm_boundForm hts hform
  unfold downForm
  generalize us.boundErasure ty = b, ts.boundForm form = f at hr hbound hknows
  unfold Resolves at hr
  cases hbound with
  | known _ =>
    rw [kind_of_le hext.le hknows] at hr
    dsimp only
    split
    · rename_i l hk
      rw [hk] at hr
      dsimp only at hr
      rw [hext.joinForm_candidates_eq hts hknows hk] at hr
      have hcandidates := has_candidates hts hknows hk
      exact hasForm_boundErasure hts hext (knowsForm_joinForm hts hcandidates) hr
    · rename_i hne
      have heq : r = b := by
        split at hr
        · rename_i l hk
          exact absurd hk (hne l)
        · exact hr
      subst heq
      exact hasForm_boundErasure hts hext hknows (.known (hknows.of_le hext.le.1))
  | raw hk =>
    rw [show us.kind b = _ from hk.kind_eq] at hr
    subst hr
    exact hasForm_boundErasure hts hext hknows (.raw hk)
  | array hk helem =>
    rw [show us.kind b = _ from hk.kind_eq] at hr
    subst hr
    exact hasForm_boundErasure hts hext hknows (.array hk helem)

/-! ### Agreement -/

/-- The kinds are one, except that the element types of arrays are only related. -/
inductive KindsAgree (R : TypeId → TypeId → Prop) : TypeKind → TypeKind → Prop
  | same {k : TypeKind} : (∀ elem, k ≠ .array elem) → KindsAgree R k k
  | array {elem elem' : TypeId} : R elem elem' → KindsAgree R (.array elem) (.array elem')

/-- The types have one form, which mentions types that were there from the start. -/
def SharesForm (ts us vs : TypeSystem) (t t' : TypeId) : Prop :=
  ∃ form, ts.KnowsForm form ∧ HasForm us.pool t form ∧ HasForm vs.pool t' form

theorem sharesForm_self (hu : Extends ts us) (hv : Extends ts vs) {t : TypeId}
    (ht : ts.pool.Has t) : ts.SharesForm us vs t t :=
  ⟨.known t, ht, .known (ht.of_le hu.le.1), .known (ht.of_le hv.le.1)⟩

theorem SharesForm.kindsAgree (hts : ts.Valid) (hu : Extends ts us) (hv : Extends ts vs)
    {t t' : TypeId} {k k' : TypeKind} (h : ts.SharesForm us vs t t') (hk : us.pool.HasKind t k)
    (hk' : vs.pool.HasKind t' k') : KindsAgree (ts.SharesForm us vs) k k' := by
  obtain ⟨form, hform, ht, ht'⟩ := h
  cases ht with
  | known _ =>
    cases ht' with
    | known _ =>
      have hkind : ts.pool.HasKind t (ts.pool.kind t) := Pool.Has.hasKind hform
      obtain rfl := (hkind.of_le hu.le.1).unique hk
      obtain rfl := (hkind.of_le hv.le.1).unique hk'
      cases hk₀ : ts.pool.kind t with
      | array elem =>
        rw [hk₀] at hkind
        exact .array (sharesForm_self hu hv (hts.pool.has_part hkind List.mem_cons_self))
      | _ => exact .same nofun
  | raw hraw =>
    cases ht' with
    | raw hraw' =>
      obtain rfl := hraw.unique hk
      obtain rfl := hraw'.unique hk'
      exact .same nofun
  | @array _ _ elemForm harray helem =>
    cases ht' with
    | array harray' helem' =>
      obtain rfl := harray.unique hk
      obtain rfl := harray'.unique hk'
      exact .array ⟨elemForm, hform, helem, helem'⟩

theorem SharesForm.comesDownTo (hts : ts.Valid) (hu : Extends ts us) (hv : Extends ts vs)
    {t t' w w' : TypeId} (h : ts.SharesForm us vs t t') (hw : us.ComesDownTo t w)
    (hw' : vs.ComesDownTo t' w') : ts.SharesForm us vs w w' := by
  obtain ⟨form, hform, ht, ht'⟩ := h
  exact ⟨_, knowsForm_downForm hts hform, hw.hasForm hts hu hform ht, hw'.hasForm hts hv hform ht'⟩

/-- What a memo of the common type system remembers, it remembers of the same types. -/
structure KnownMemo (ts : TypeSystem) (M : Memo TypeId TypeId) : Prop where
  has : ∀ {ty r}, M.find? ty = some r → ts.pool.Has ty
  normal : ∀ {ty r}, M.find? ty = some r → ts.pool.IsNormal r

/-- What erasure finds of two types before it goes into their parts is the same. -/
structure Alike (ts us vs : TypeSystem) (M : Memo TypeId TypeId) (t t' : TypeId) : Prop where
  find?_eq : M.find? t = M.find? t'
  comesDownTo : ∀ {w w'}, us.ComesDownTo t w → vs.ComesDownTo t' w' → ts.SharesForm us vs w w'

/-- Types that are the same if one of them is known are remembered alike. -/
theorem KnownMemo.find?_eq (hM : ts.KnownMemo M) {t t' : TypeId} (h : ts.pool.Has t → t = t')
    (h' : ts.pool.Has t' → t' = t) : M.find? t = M.find? t' := by
  cases hfind : M.find? t with
  | some r => rw [← h (hM.has hfind), hfind]
  | none =>
    cases hfind' : M.find? t' with
    | none => rfl
    | some r =>
      rw [h' (hM.has hfind'), hfind] at hfind'
      cases hfind'

theorem SharesForm.alike (hts : ts.Valid) (hu : Extends ts us) (hv : Extends ts vs)
    (hM : ts.KnownMemo M) {t t' : TypeId} (h : ts.SharesForm us vs t t') :
    ts.Alike us vs M t t' := by
  refine ⟨?_, h.comesDownTo hts hu hv⟩
  obtain ⟨form, -, ht, ht'⟩ := h
  exact hM.find?_eq (fun hhas => (ht.eq_of_has hts hu hv hhas ht').symm)
    fun hhas => (ht'.eq_of_has hts hv hu hhas ht).symm

/-- The bounds of a variable are known even where its type is not. -/
theorem boundErasure_of_var (hts : ts.Valid) (hext : Extends ts us) {t : TypeId} {v : TypeVarId}
    (hk : us.pool.HasKind t (.var v)) : us.boundErasure t =
      (ts.followBounds ts.typeVars.size (ts.typeVar v).bound).getD .object := by
  rw [boundErasure, followBounds, show us.kind t = _ from hk.kind_eq, hext.typeVars_eq]
  dsimp only
  rw [hext.typeVar_eq, hext.followBounds_eq hts _ (hts.bound v)]

/-- What a type comes down to, the type that its bounds end in comes down to. -/
theorem ComesDownTo.of_bound (hts : ts.Valid) {t w : TypeId} (h : ts.ComesDownTo t w) :
    ts.ComesDownTo (ts.boundErasure t) w := by
  obtain ⟨r, hr, rfl⟩ := h
  refine ⟨r, ?_, rfl⟩
  rwa [boundErasure_of_ne_var (kind_boundErasure_ne_var hts.object.kind_eq t)]

/-- The types of one variable are alike. -/
theorem alike_of_var (hts : ts.Valid) (hus : us.Valid) (hvs : vs.Valid) (hu : Extends ts us)
    (hv : Extends ts vs) (hM : ts.KnownMemo M) {t t' : TypeId} {v : TypeVarId} (hk : us.pool.HasKind t (.var v))
    (hk' : vs.pool.HasKind t' (.var v)) : ts.Alike us vs M t t' := by
  refine ⟨hM.find?_eq (fun hhas => ?_) (fun hhas => ?_), fun {w w'} hw hw' => ?_⟩
  · exact ((hk.of_ge hu.le.1 hhas).of_le hv.le.1).inj hk'
  · exact ((hk'.of_ge hv.le.1 hhas).of_le hu.le.1).inj hk
  · have hbound : ts.pool.Has (us.boundErasure t) := by
      rw [boundErasure_of_var hts hu hk]
      cases hfollow : ts.followBounds ts.typeVars.size (ts.typeVar v).bound with
      | none => exact hts.object.has
      | some b => exact has_followBounds hts (hts.bound v) hfollow
    have hsame : vs.boundErasure t' = us.boundErasure t := by
      rw [boundErasure_of_var hts hu hk, boundErasure_of_var hts hv hk']
    exact (sharesForm_self hu hv hbound).comesDownTo hts hu hv (hw.of_bound hus)
      (hsame ▸ hw'.of_bound hvs)

/-- Both type systems leave one shape only. -/
theorem Erases.agree (hts : ts.Valid) (hu : Extends ts us) (hv : Extends ts vs)
    (hM : ts.KnownMemo M) {t t' : TypeId} {shape shape' : Shape} (ht : ts.Alike us vs M t t')
    (h : us.Erases M t shape) (h' : vs.Erases M t' shape') : shape = shape' := by
  induction h generalizing t' shape' with
  | @remembered t r shape hfind hshape =>
    have hfind' := ht.find?_eq.symm.trans hfind
    cases h' with
    | remembered hfind₂ hshape' =>
      obtain rfl := Option.some.inj (hfind'.symm.trans hfind₂)
      obtain ⟨shape₀, hshape₀⟩ := hM.normal hfind
      rw [hshape.unique (hshape₀.of_le hu.le.1), hshape'.unique (hshape₀.of_le hv.le.1)]
    | prim hmiss _ _ | null hmiss _ _ | raw hmiss _ _ | inst hmiss _ _ | array hmiss _ _ _
    | lub hmiss _ _ => exact nomatch hmiss.symm.trans hfind'
  | prim hmiss hdown hk | null hmiss hdown hk | raw hmiss hdown hk | inst hmiss hdown hk
  | lub hmiss hdown hk =>
    cases h' with
    | remembered hfind _ => exact nomatch (hmiss.symm.trans ht.find?_eq).trans hfind
    | prim _ hdown' hk' | null _ hdown' hk' | raw _ hdown' hk' | inst _ hdown' hk'
    | array _ hdown' hk' _ | lub _ hdown' hk' =>
      cases (ht.comesDownTo hdown hdown').kindsAgree hts hu hv hk hk' <;> rfl
  | array hmiss hdown hk _ ih =>
    cases h' with
    | remembered hfind _ => exact nomatch (hmiss.symm.trans ht.find?_eq).trans hfind
    | array _ hdown' hk' helem =>
      cases (ht.comesDownTo hdown hdown').kindsAgree hts hu hv hk hk' with
      | same hne => exact absurd rfl (hne _)
      | array hshares => rw [ih (hshares.alike hts hu hv hM) helem]
    | prim _ hdown' hk' | null _ hdown' hk' | raw _ hdown' hk' | inst _ hdown' hk'
    | lub _ hdown' hk' =>
      cases (ht.comesDownTo hdown hdown').kindsAgree hts hu hv hk hk'

/-- Substitutions that erase the same variables correspond. -/
theorem BindsErased.agree (hts : ts.Valid) (hus : us.Valid) (hvs : vs.Valid) (hu : Extends ts us)
    (hv : Extends ts vs) (hM : ts.KnownMemo M) {params : List TypeVarId} {sub sub' : SubstId}
    (h : us.BindsErased M params sub) (h' : vs.BindsErased M params sub') : ∃ bs bs',
      us.pool.HasBindings sub bs ∧ vs.pool.HasBindings sub' bs' ∧
        Bindings.Related (us.pool.Mirrors vs.pool) bs bs' := by
  obtain ⟨bs, hbs, hparams⟩ := h
  obtain ⟨bs', hbs', hparams'⟩ := h'
  refine ⟨_, _, hbs, hbs', Pool.related_ofList ?_⟩
  clear hbs hbs'
  induction hparams generalizing bs' with
  | nil =>
    cases hparams'
    exact .nil
  | @cons v b params bs hb _ ih =>
    cases hparams' with
    | @cons _ b' _ bs' hb' hbs' =>
      obtain ⟨hvar, ty, shape, hk, herases, hshape⟩ := hb
      obtain ⟨hvar', ty', shape', hk', herases', hshape'⟩ := hb'
      refine .cons ⟨hvar'.trans hvar.symm, ?_⟩ (ih bs' hbs')
      obtain rfl := herases.agree hts hu hv hM (alike_of_var hts hus hvs hu hv hM hk hk') herases'
      exact Pool.mirrors_of_hasShape hus.pool hshape hshape'

end Erasure.TypeSystem
