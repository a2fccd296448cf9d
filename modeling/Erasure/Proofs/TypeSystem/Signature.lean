/-
Signatures up to the types in them.

`MemberKind.Related R k l` says that `l` is `k` with other types, each related by `R` to the one in
its place; `Computes.mapTypesM` gives it for an action run on every type of a signature.
-/
import Erasure.TypeSystem.Member
import Erasure.Proofs.Growth

namespace Erasure

/-! ### Signatures -/

/-- What a member is, its name and types apart. -/
inductive MemberForm where
  | procedure
  | field
  | initializer
  deriving DecidableEq, Repr

namespace MemberKind

/-- Methods and constructors are procedures. -/
def form : MemberKind → MemberForm
  | method .. | constructor .. => .procedure
  | field .. => .field
  | initializer => .initializer

/-- The types of a signature. -/
def types : MemberKind → List TypeId
  | method _ formals result _ => formals ++ [result]
  | constructor formals _ => formals
  | field _ type => [type]
  | initializer => []

theorem mem_types_of_mem_formals {k : MemberKind} {ty : TypeId} (h : ty ∈ k.formals) :
    ty ∈ k.types := by
  cases k with
  | method _ formals result _ => exact List.mem_append_left _ h
  | constructor formals _ => exact h
  | field _ _ | initializer => exact absurd h List.not_mem_nil

/-- Two signatures that differ in their types at most, and these are related. -/
inductive Related (R : TypeId → TypeId → Prop) : MemberKind → MemberKind → Prop
  | method {name formals formals' result result' params} : List.Forall₂ R formals formals' →
      R result result' →
      Related R (.method name formals result params) (.method name formals' result' params)
  | constructor {formals formals' params} : List.Forall₂ R formals formals' →
      Related R (.constructor formals params) (.constructor formals' params)
  | field {name type type'} : R type type' → Related R (.field name type) (.field name type')
  | initializer : Related R .initializer .initializer

variable {R S : TypeId → TypeId → Prop} {k l : MemberKind}

theorem Related.imp (hRS : ∀ t u, R t u → S t u) (h : Related R k l) : Related S k l := by
  cases h with
  | method hformals hresult => exact .method (hformals.imp hRS) (hRS _ _ hresult)
  | constructor hformals => exact .constructor (hformals.imp hRS)
  | field htype => exact .field (hRS _ _ htype)
  | initializer => exact .initializer

/-- Only the types of the signature matter. -/
theorem Related.imp_of_mem (hRS : ∀ t ∈ k.types, ∀ u, R t u → S t u) (h : Related R k l) :
    Related S k l := by
  have hlist : ∀ {ts us}, (∀ t ∈ ts, t ∈ k.types) → List.Forall₂ R ts us → List.Forall₂ S ts us :=
    fun hts h => ((List.forall₂_and_left _ _).mpr ⟨hts, h⟩).imp fun t u htu => hRS t htu.1 u htu.2
  cases h with
  | method hformals hresult =>
    exact .method (hlist (fun _ => List.mem_append_left _) hformals)
      (hRS _ (List.mem_append_right _ List.mem_cons_self) _ hresult)
  | constructor hformals => exact .constructor (hlist (fun _ => id) hformals)
  | field htype => exact .field (hRS _ List.mem_cons_self _ htype)
  | initializer => exact .initializer

theorem Related.typeParams_eq (h : Related R k l) : l.typeParams = k.typeParams := by
  cases h <;> rfl

theorem Related.name?_eq (h : Related R k l) : l.name? = k.name? := by
  cases h <;> rfl

theorem Related.form_eq (h : Related R k l) : l.form = k.form := by
  cases h <;> rfl

theorem Related.formals (h : Related R k l) : List.Forall₂ R k.formals l.formals := by
  cases h with
  | method hformals _ => exact hformals
  | constructor hformals => exact hformals
  | field _ | initializer => exact .nil

theorem Related.types (h : Related R k l) : List.Forall₂ R k.types l.types := by
  cases h with
  | method hformals hresult =>
    exact List.rel_append hformals (.cons hresult .nil)
  | constructor hformals => exact hformals
  | field htype => exact .cons htype .nil
  | initializer => exact .nil

theorem Related.unique (hR : ∀ t u v, R t u → R t v → u = v) {l' : MemberKind} (h : Related R k l)
    (h' : Related R k l') : l = l' := by
  have hlist : Relator.RightUnique (List.Forall₂ R) := Relator.RightUnique.forall₂ hR
  cases h with
  | method hformals hresult =>
    cases h' with
    | method hformals' hresult' =>
      rw [hlist hformals hformals', hR _ _ _ hresult hresult']
  | constructor hformals =>
    cases h' with
    | constructor hformals' => rw [hlist hformals hformals']
  | field htype =>
    cases h' with
    | field htype' => rw [hR _ _ _ htype htype']
  | initializer =>
    cases h' with
    | initializer => rfl

theorem Related.refl (h : ∀ ty ∈ k.types, R ty ty) : Related R k k := by
  cases k with
  | method name formals result params =>
    exact .method (List.forall₂_same.mpr fun ty hty => h ty (List.mem_append_left _ hty))
      (h result (List.mem_append_right _ List.mem_cons_self))
  | constructor formals params => exact .constructor (List.forall₂_same.mpr h)
  | field name type => exact .field (h type List.mem_cons_self)
  | initializer => exact .initializer

/-- Related signatures of the same types are one signature. -/
theorem Related.eq_of_types_eq (h : Related R k l) (htypes : l.types = k.types) : l = k := by
  cases h with
  | method hformals _ =>
    obtain ⟨rfl, hresult⟩ := List.append_inj htypes hformals.length_eq.symm
    rw [List.singleton_inj.mp hresult]
  | constructor _ =>
    simp only [MemberKind.types] at htypes
    rw [htypes]
  | field htype => rw [List.singleton_inj.mp htypes]
  | initializer => rfl

/-- Signatures that correspond are related to signatures that correspond. -/
theorem Related.map {R' S' : TypeId → TypeId → Prop} {k' l' : MemberKind} (hk : Related R k k')
    (h : Related S k l) (h' : Related S' k' l')
    (hR : ∀ t t' u u', R t t' → S t u → S' t' u' → R' u u') : Related R' l l' := by
  have hlist : ∀ {ts ts' us us' : List TypeId}, List.Forall₂ R ts ts' → List.Forall₂ S ts us →
      List.Forall₂ S' ts' us' → List.Forall₂ R' us us' := by
    intro ts ts' us us' hts
    induction hts generalizing us us' with
    | nil =>
      rintro ⟨⟩ ⟨⟩
      exact .nil
    | cons ht _ ih =>
      rintro (_ | ⟨hu, hus⟩) (_ | ⟨hu', hus'⟩)
      exact .cons (hR _ _ _ _ ht hu hu') (ih hus hus')
  cases hk with
  | method hformals hresult =>
    cases h with
    | method hformals₁ hresult₁ =>
      cases h' with
      | method hformals₂ hresult₂ =>
        exact .method (hlist hformals hformals₁ hformals₂) (hR _ _ _ _ hresult hresult₁ hresult₂)
  | constructor hformals =>
    cases h with
    | constructor hformals₁ =>
      cases h' with
      | constructor hformals₂ => exact .constructor (hlist hformals hformals₁ hformals₂)
  | field htype =>
    cases h with
    | field htype₁ =>
      cases h' with
      | field htype₂ => exact .field (hR _ _ _ _ htype htype₁ htype₂)
  | initializer =>
    cases h
    cases h'
    exact .initializer

theorem Related.trans {T : TypeId → TypeId → Prop} {m : MemberKind} (h : Related R k l)
    (h' : Related S l m) (hT : ∀ t u v, R t u → S u v → T t v) : Related T k m := by
  have hlist : ∀ {ts us vs : List TypeId}, List.Forall₂ R ts us → List.Forall₂ S us vs →
      List.Forall₂ T ts vs := by
    intro ts us vs hts
    induction hts generalizing vs with
    | nil =>
      rintro ⟨⟩
      exact .nil
    | cons ht _ ih =>
      rintro (_ | ⟨hu, hus⟩)
      exact .cons (hT _ _ _ ht hu) (ih hus)
  cases h with
  | method hformals hresult =>
    cases h' with
    | method hformals' hresult' => exact .method (hlist hformals hformals') (hT _ _ _ hresult hresult')
  | constructor hformals =>
    cases h' with
    | constructor hformals' => exact .constructor (hlist hformals hformals')
  | field htype =>
    cases h' with
    | field htype' => exact .field (hT _ _ _ htype htype')
  | initializer =>
    cases h'
    exact .initializer

theorem Related.flip (h : Related R k l) : Related (fun t u => R u t) l k := by
  cases h with
  | method hformals hresult => exact .method hformals.flip hresult
  | constructor hformals => exact .constructor hformals.flip
  | field htype => exact .field htype
  | initializer => exact .initializer

theorem Related.inj (hR : ∀ t u v, R t v → R u v → t = u) {k' : MemberKind} (h : Related R k l)
    (h' : Related R k' l) : k = k' := h.flip.unique (fun v t u => hR t u v) h'.flip

theorem Related.filterTypeParams (h : Related R k l) (keep : TypeVarId → Bool) :
    Related R (k.filterTypeParams keep) (l.filterTypeParams keep) := by
  cases h with
  | method hformals hresult => exact .method hformals hresult
  | constructor hformals => exact .constructor hformals
  | field htype => exact .field htype
  | initializer => exact .initializer

@[simp]
theorem name?_filterTypeParams (k : MemberKind) (keep : TypeVarId → Bool) :
    (k.filterTypeParams keep).name? = k.name? := by cases k <;> rfl

@[simp]
theorem form_filterTypeParams (k : MemberKind) (keep : TypeVarId → Bool) :
    (k.filterTypeParams keep).form = k.form := by cases k <;> rfl

@[simp]
theorem formals_filterTypeParams (k : MemberKind) (keep : TypeVarId → Bool) :
    (k.filterTypeParams keep).formals = k.formals := by cases k <;> rfl

@[simp]
theorem types_filterTypeParams (k : MemberKind) (keep : TypeVarId → Bool) :
    (k.filterTypeParams keep).types = k.types := by cases k <;> rfl

@[simp]
theorem typeParams_filterTypeParams (k : MemberKind) (keep : TypeVarId → Bool) :
    (k.filterTypeParams keep).typeParams = k.typeParams.filter keep := by cases k <;> rfl

@[simp]
theorem typeParams_withoutTypeParams (k : MemberKind) : k.withoutTypeParams.typeParams = [] := by
  simp [withoutTypeParams]

@[simp]
theorem name?_withoutTypeParams (k : MemberKind) : k.withoutTypeParams.name? = k.name? :=
  name?_filterTypeParams k _

@[simp]
theorem types_withoutTypeParams (k : MemberKind) : k.withoutTypeParams.types = k.types :=
  types_filterTypeParams k _

@[simp]
theorem withoutTypeParams_filterTypeParams (k : MemberKind) (keep : TypeVarId → Bool) :
    (k.filterTypeParams keep).withoutTypeParams = k.withoutTypeParams := by
  cases k <;> simp [withoutTypeParams, filterTypeParams]

theorem withoutTypeParams_eq_self (h : k.typeParams = []) : k.withoutTypeParams = k := by
  cases k <;> simp_all [withoutTypeParams, filterTypeParams, MemberKind.typeParams]

theorem filterTypeParams_eq_self (h : ∀ v ∈ k.typeParams, keep v = true) :
    k.filterTypeParams keep = k := by
  cases k <;> simp_all [filterTypeParams, MemberKind.typeParams]

end MemberKind

/-- What keeps the store for every type of a signature keeps it for the signature. -/
theorem Keeps.mapTypesM {σ : Type} [Store σ] {f : TypeId → StateM σ TypeId}
    {R : TypeId → TypeId → σ → Prop} (hmono : ∀ a b t u, Store.Grows t u → R a b t → R a b u)
    {k : MemberKind} {s : σ} (hs : Store.Valid s)
    (h : ∀ a ∈ k.types, ∀ t, Store.Grows s t → Store.Valid t → Keeps (f a) t (R a)) :
    Keeps (k.mapTypesM f) s (fun l t => k.Related (R · · t) l) := by
  cases k with
  | method name formals result params =>
    apply (Keeps.mapM hmono hs fun a ha => h a (List.mem_append_left _ ha)).bind
    intro formals' t hst ht hformals
    apply (h result (List.mem_append_right _ List.mem_cons_self) t hst ht).bind
    intro result' u htu hu hresult
    exact .pure hu (.method (hformals.imp fun a b => hmono a b t u htu) hresult)
  | constructor formals params =>
    apply (Keeps.mapM hmono hs h).bind
    intro formals' t _ ht hformals
    exact .pure ht (.constructor hformals)
  | field name type =>
    apply (h type List.mem_cons_self s (.refl s) hs).bind
    intro type' t _ ht htype
    exact .pure ht (.field htype)
  | initializer => exact .pure hs .initializer

/-- Computing with every type of a signature computes a related signature. -/
theorem Computes.mapTypesM {σ : Type} [Store σ] {f : TypeId → StateM σ TypeId}
    {R : TypeId → TypeId → σ → Prop} (hmono : ∀ a b t u, Store.Grows t u → R a b t → R a b u)
    {k : MemberKind} {s : σ} (hs : Store.Valid s)
    (h : ∀ a ∈ k.types, ∀ t, Store.Grows s t → Store.Valid t → Computes (f a) t (R a)) :
    Computes (k.mapTypesM f) s (fun l t => k.Related (R · · t) l) := by
  cases k with
  | method name formals result params =>
    refine (Computes.mapM hmono hs fun a ha => h a (List.mem_append_left _ ha)).bind ?_
    intro formals' t hst ht hformals
    refine (h result (List.mem_append_right _ List.mem_cons_self) t hst ht).bind ?_
    intro result' u htu hu hresult
    exact Computes.pure hu (.method (hformals.imp fun a b => hmono a b t u htu) hresult)
  | constructor formals params =>
    exact (Computes.mapM hmono hs h).bind fun formals' t _ ht hformals =>
      Computes.pure ht (.constructor hformals)
  | field name type =>
    exact (h type List.mem_cons_self s (.refl s) hs).bind fun type' t _ ht htype =>
      Computes.pure ht (.field htype)
  | initializer => exact Computes.pure hs .initializer

end Erasure
