/-
Canonicalizing types.

In an acyclic type system `canonicalize` remembers for every type the erased type that the
declarations demand, and never another one. The main statements:

* `canonicalizeWithin_keeps`: with enough steps the canonical form is found and remembered, and more
  steps change nothing.
* `canonicalize_computes`: the canonical form of a type, the same one from then on.
-/
import Erasure.Proofs.Canonical.Depth
import Erasure.Proofs.Canonical.Validity

namespace Erasure.Canonicalizer

variable {s t : Canonicalizer}

theorem acyclic_of_grows (hs : s.Valid) (hst : Store.Grows s t) (h : s.types.Acyclic) :
    t.types.Acyclic := h.of_extends hs.types (Extends.types hst)

/-! ### Remembering -/

/-- The right canonical form may be remembered. -/
theorem rememberType_keeps (hs : s.Valid) {ty r : TypeId} (hentry : CanonicalEntry s.types ty r)
    (hold : ∀ b, s.memo.types.find? ty = some b → b = r)
    (hright : ∀ M, Coherent M s → ∃ shape, s.types.Erases M ty shape ∧
      s.types.pool.HasShape r shape) :
    Keeps (rememberType ty r) s fun _ t => t.memo.types.find? ty = some r := by
  let t : Canonicalizer :=
    { s with memo := { s.memo with types := (s.memo.types.insert ty r).insert r r } }
  have hself : CanonicalEntry s.types r r := ⟨hentry.normal.has, hentry.normal, fun _ => rfl⟩
  have hlememo : s.memo.types ≤ t.memo.types :=
    Memo.le_insert_both hold fun b hb => (hs.canonical hb).self hentry.normal
  have hle : s ≤ t := ⟨le_refl _, hlememo, le_refl _, le_refl _, le_refl _⟩
  refine ⟨⟨hle, .refl _, fun hM => ⟨le_trans hM.le hlememo, fun h => ?_⟩⟩, ?_,
    Memo.find?_insert_both ..⟩
  · rcases Memo.find?_insert_both_cases h with h | ⟨rfl | rfl, rfl⟩
    · exact hM.erases h
    · exact hright _ hM
    · obtain ⟨shape, hshape⟩ := hentry.normal
      refine ⟨shape, TypeSystem.erases_of_hasShape hshape fun u b hb => ?_, hshape⟩
      exact (hs.canonical (Memo.find?_of_le hM.le hb)).self
  · refine hs.extend hle hs.types (fun h => ?_) Or.inl Or.inl Or.inl Or.inl
    have hfixed : t.memo.types.find? r = some r := Memo.find?_insert_self ..
    rcases Memo.find?_insert_both_cases h with h | ⟨rfl | rfl, rfl⟩
    · exact Or.inl h
    · exact Or.inr ⟨hentry, hfixed⟩
    · exact Or.inr ⟨hself, hfixed⟩

/-- An erased enclosing instance may be remembered. -/
theorem rememberOuter_keeps (hs : s.Valid) (c : ClassId) {outer : Option TypeId}
    (houter : ∀ ty ∈ outer, s.types.pool.IsNormal ty) :
    Keeps (modifyMemo fun m => { m with outers := m.outers.insert c outer }) s
      fun _ t => t.types = s.types := by
  let t : Canonicalizer :=
    { s with memo := { s.memo with outers := s.memo.outers.insert c outer } }
  have hle : s ≤ t := ⟨le_refl _, le_refl _, le_refl _, le_refl _, le_refl _⟩
  refine ⟨⟨hle, .refl _, fun hM => ⟨hM.le, hM.erases⟩⟩, ?_, rfl⟩
  refine hs.extend hle hs.types Or.inl (fun h => ?_) Or.inl Or.inl Or.inl
  rcases Memo.find?_insert_cases h with ⟨-, rfl⟩ | h
  · exact Or.inr houter
  · exact Or.inl h

/-! ### One step of erasure -/

/-- What a step does with the type that it has come down to, by the kind of that type. -/
def eraseKind (canonical : TypeId → CanonicalM TypeId) (ty : TypeId) :
    TypeKind → CanonicalM TypeId
  | .prim _ | .null => return ty
  | .inst base _ _ => do
    discard <| outerWith canonical base
    canonical (← liftM (Pool.rawClass base : StateM Pool TypeId))
  | .array elem => do
    let elem ← canonical elem
    liftM (Pool.array elem : StateM Pool TypeId)
  | .raw c => do
    discard <| outerWith canonical c
    return ty
  | .var _ | .lub _ => return .object

/-- A step follows the bounds, resolves an upper bound, follows the bounds again, and goes by the kind
of what it has come down to. -/
theorem eraseWith_eq (canonical : TypeId → CanonicalM TypeId) (ty : TypeId) :
    eraseWith canonical ty = (do
      let s ← get
      let resolved ← liftM (TypeSystem.resolveLub (s.types.boundErasure ty))
      let t ← get
      eraseKind canonical (t.types.boundErasure resolved)
        (t.types.kind (t.types.boundErasure resolved))) := rfl

section Step

/-- The type is found to be erased in the canonicalizer, and by the results before `M` it is what
`ty` erases to. -/
def IsErasure (ty r : TypeId) (t : Canonicalizer) : Prop :=
  t.types.pool.IsNormal r ∧ ∀ M, Coherent M t → M.find? ty = none →
    ∃ shape, t.types.Erases M ty shape ∧ t.types.pool.HasShape r shape

variable {canonical canonical' : TypeId → CanonicalM TypeId}

/-- Both functions make types canonical for which `d` steps are enough, in the same way. -/
def Canonicalizes (canonical canonical' : TypeId → CanonicalM TypeId) (d : Nat)
    (s : Canonicalizer) : Prop :=
  ∀ u t, Store.Grows s t → t.Valid → t.types.pool.Has u → t.types.Enough d u →
    KeepsBoth (canonical u) (canonical' u) t fun r v => v.memo.types.find? u = some r

theorem outerWith_keeps {d : Nat} {c : ClassId} (hs : s.Valid)
    (h : Canonicalizes canonical canonical' d s)
    (hc : ∀ ty ∈ (s.types.classDef c).outer, s.types.Enough d ty) :
    KeepsBoth (outerWith canonical c) (outerWith canonical' c) s
      fun x t => ∀ ty ∈ x, t.types.pool.IsNormal ty := by
  unfold outerWith
  refine KeepsBoth.get_bind ?_
  cases hfind : s.memo.outers.find? c with
  | some outer => exact .of_keeps (Keeps.pure hs (hs.outers hfind))
  | none =>
    have houter : ∀ ty ∈ (s.types.classDef c).outer, KeepsBoth (canonical ty) (canonical' ty) s
        fun r t => t.memo.types.find? ty = some r := fun ty hty =>
      h ty s (.refl s) hs ((hs.types.classes c).outer ty hty) (hc ty hty)
    refine (KeepsBoth.optionMapM hs houter).bind fun outer t _ ht hrel => .of_keeps ?_
    have hnormal : ∀ ty ∈ outer, t.types.pool.IsNormal ty := by
      intro ty hty
      generalize (s.types.classDef c).outer = declared at hrel
      cases hrel with
      | none => cases hty
      | some hr => exact Option.some.inj hty ▸ (ht.canonical hr).normal
    refine (rememberOuter_keeps ht c hnormal).bind fun _ u _ hu htypes => Keeps.pure hu ?_
    rwa [htypes]

theorem Canonicalizes.of_grows {d : Nat} (hst : Store.Grows s t)
    (h : Canonicalizes canonical canonical' d s) : Canonicalizes canonical canonical' d t :=
  fun u v htv => h u v (hst.trans htv)

/-- A raw class that is found remembered is remembered as itself. -/
theorem eq_of_find?_raw (ht : t.Valid) {ty r : TypeId} {c : ClassId}
    (hk : t.types.pool.HasKind ty (.raw c)) (hr : t.memo.types.find? ty = some r) : r = ty :=
  (ht.canonical hr).self ⟨_, .raw hk⟩

/-- What a step makes of the type that `ty` comes down to is the erasure of `ty`. -/
theorem eraseKind_keeps {d : Nat} {ty u : TypeId} {k : TypeKind} (hs : s.Valid)
    (hty : s.types.pool.Has ty) (hdown : s.types.ComesDownTo ty u)
    (hkind : s.types.pool.HasKind u k) (henough : s.types.Enough (d + 1) u)
    (h : Canonicalizes canonical canonical' d s) :
    KeepsBoth (eraseKind canonical u k) (eraseKind canonical' u k) s (IsErasure ty) := by
  have hdown' : ∀ {t}, Store.Grows s t → t.types.ComesDownTo ty u := fun hst =>
    hdown.of_extends hs.types (Extends.types hst) hty
  have hkind' : ∀ {t}, Store.Grows s t → t.types.pool.HasKind u k := fun hst =>
    hkind.of_le (Extends.types hst).le.1
  unfold eraseKind
  cases k with
  | prim p =>
    exact .of_keeps (Keeps.pure hs ⟨⟨_, .prim hkind⟩, fun M _ hM =>
      ⟨_, .prim hM hdown hkind, .prim hkind⟩⟩)
  | null =>
    exact .of_keeps (Keeps.pure hs ⟨⟨_, .null hkind⟩, fun M _ hM =>
      ⟨_, .null hM hdown hkind, .null hkind⟩⟩)
  | var v => exact absurd hkind.kind_eq (hdown.kind_ne_var hs.types v)
  | lub l =>
    have hobject := Pool.HasShape.raw hs.types.object
    exact .of_keeps (Keeps.pure hs ⟨⟨_, hobject⟩, fun M _ hM => ⟨_, .lub hM hdown hkind, hobject⟩⟩)
  | raw c =>
    have houter := (henough.outer_raw hkind).outer hs.types
    refine (outerWith_keeps hs h houter).discard.bind fun _ t hst ht _ => ?_
    exact .of_keeps (Keeps.pure ht ⟨⟨_, .raw (hkind' hst)⟩, fun M _ hM =>
      ⟨_, .raw hM (hdown' hst) (hkind' hst), .raw (hkind' hst)⟩⟩)
  | inst c sub outer =>
    have hc := henough.outer_inst hkind
    have houter := (hc.mono 1).outer hs.types
    refine (outerWith_keeps hs h houter).discard.bind fun _ t hst ht _ => ?_
    have hrawClass := TypeSystem.lift_computes ht.types (Pool.rawClass_computes ht.types.pool c)
    refine (KeepsBoth.of_keeps (lift_keeps ht hrawClass.toKeeps)).bind fun rawTy u htu hu hraw => ?_
    have hsu := hst.trans htu
    have hrawEnough := TypeSystem.Enough.raw hraw (hc.of_extends hs.types (Extends.types hsu))
    refine (h rawTy u hsu hu hraw.has hrawEnough).mono fun r v huv hv hr => ?_
    have hraw' := hraw.of_le (Extends.types huv).le.1
    obtain rfl := eq_of_find?_raw hv hraw' hr
    exact ⟨⟨_, .raw hraw'⟩, fun M _ hM =>
      ⟨_, .inst hM (hdown' (hsu.trans huv)) (hkind' (hsu.trans huv)), .raw hraw'⟩⟩
  | array elem =>
    have hhas := hs.types.pool.has_part hkind List.mem_cons_self
    refine (h elem s (.refl s) hs hhas (henough.elem hkind)).bind fun elem' t hst ht helem' => ?_
    have hnormal := (ht.canonical helem').normal
    have harray := TypeSystem.lift_computes ht.types
      (Pool.array_computes ht.types.pool hnormal.has)
    refine KeepsBoth.of_keeps ((lift_keeps ht harray.toKeeps).mono fun r u htu hu hr => ?_)
    refine ⟨(Pool.isNormal_array_iff hr).mpr (hnormal.of_le (Extends.types htu).le.1), ?_⟩
    intro M hM hmiss
    have hle : t.memo.types ≤ u.memo.types := htu.le.2.1
    obtain ⟨shape, herases, hshape⟩ := hM.erases (Memo.find?_of_le hle helem')
    exact ⟨_, .array hmiss (hdown' (hst.trans htu)) (hkind' (hst.trans htu)) herases,
      .array hr hshape⟩

theorem eraseWith_keeps {d : Nat} {ty : TypeId} (hs : s.Valid) (hty : s.types.pool.Has ty)
    (henough : s.types.Enough (d + 1) ty) (h : Canonicalizes canonical canonical' d s) :
    KeepsBoth (eraseWith canonical ty) (eraseWith canonical' ty) s (IsErasure ty) := by
  rw [eraseWith_eq, eraseWith_eq]
  refine KeepsBoth.get_bind ?_
  have hbound := TypeSystem.has_boundErasure hs.types hty
  refine (KeepsBoth.of_keeps
    (lift_keeps hs (TypeSystem.resolveLub_keeps hs.types hbound))).bind ?_
  intro resolved t hst ht hresolved
  have hext : TypeSystem.Extends s.types t.types := Extends.types hst
  have hty' := hty.of_le hext.le.1
  have hdown : t.types.ComesDownTo ty (t.types.boundErasure resolved) :=
    ⟨resolved, by rwa [hext.boundErasure_eq hs.types hty], rfl⟩
  exact KeepsBoth.get_bind (eraseKind_keeps ht hty' hdown (hdown.has ht.types hty').hasKind
    ((henough.of_extends hs.types hext).comesDownTo hdown) (h.of_grows hst))

end Step

/-! ### The canonical form -/

/-- With enough steps the canonical form is found and remembered, and one more step changes
nothing. -/
theorem canonicalizeWithin_keeps {d : Nat} {ty : TypeId} (hs : s.Valid)
    (hty : s.types.pool.Has ty) (henough : s.types.Enough d ty) :
    KeepsBoth (canonicalizeWithin d ty) (canonicalizeWithin (d + 1) ty) s
      fun r t => t.memo.types.find? ty = some r := by
  induction d generalizing s ty with
  | zero => exact absurd henough.pos (Nat.lt_irrefl 0)
  | succ d ih =>
    rw [canonicalizeWithin, canonicalizeWithin]
    refine KeepsBoth.get_bind ?_
    cases hfind : s.memo.types.find? ty with
    | some r => exact .of_keeps (Keeps.pure hs hfind)
    | none =>
      have hsteps : Canonicalizes (canonicalizeWithin d) (canonicalizeWithin (d + 1)) d s :=
        fun u t _ ht hu henough => ih ht hu henough
      refine (eraseWith_keeps hs hty henough hsteps).bind fun r t hst ht hr => .of_keeps ?_
      obtain ⟨hnormal, hright⟩ := hr
      have hty' := hty.of_le hst.le.1.1
      -- whatever was remembered of `ty` in between, it has the only shape that is right
      have hM := Extends.coherent hst (coherent_self hs)
      obtain ⟨shape, herases, hshape⟩ := hright _ hM hfind
      have honly : ∀ {b shape'}, t.types.Erases s.memo.types ty shape' →
          t.types.pool.HasShape b shape' → b = r := fun herases' hshape' =>
        hshape'.inj (herases.unique herases' ▸ hshape)
      have hentry : CanonicalEntry t.types ty r := by
        refine ⟨hty', hnormal, fun hself => ?_⟩
        obtain ⟨shape', hshape'⟩ := hself
        refine (honly (TypeSystem.erases_of_hasShape hshape' fun u b hb => ?_) hshape').symm
        exact (ht.canonical (Memo.find?_of_le hM.le hb)).self
      have hold : ∀ b, t.memo.types.find? ty = some b → b = r := fun b hb => by
        obtain ⟨shape', herases', hshape'⟩ := hM.erases hb
        exact honly herases' hshape'
      have hright' : ∀ M, Coherent M t → ∃ shape, t.types.Erases M ty shape ∧
          t.types.pool.HasShape r shape := fun M hM => by
        cases hmiss : M.find? ty with
        | none => exact hright M hM hmiss
        | some b =>
          obtain rfl := hold b (Memo.find?_of_le hM.le hmiss)
          exact ⟨shape, .remembered hmiss hshape, hshape⟩
      exact (rememberType_keeps ht hentry hold hright').bind fun _ u _ hu h => Keeps.pure hu h

/-- Once a canonical form is remembered, it is the answer in every later state. -/
theorem answers_canonicalizeWithin {d : Nat} {ty r : TypeId} (h : s.memo.types.find? ty = some r) :
    Answers (canonicalizeWithin (d + 1) ty) r s := by
  intro t hle
  rw [canonicalizeWithin, get_bind_apply, Memo.find?_of_le hle.2.1 h]
  rfl

theorem erasureDepth_pos (ts : TypeSystem) : 0 < erasureDepth ts := by
  unfold erasureDepth
  have := Nat.mul_pos (Nat.mul_pos (Nat.mul_pos (Nat.succ_pos 1) ts.classes.size.succ_pos)
    ts.typeVars.size.succ_pos) ts.pool.size.succ_pos
  exact this

theorem answers_canonicalize {ty r : TypeId} (h : s.memo.types.find? ty = some r) :
    Answers (canonicalize ty) r s := by
  intro t hle
  obtain ⟨d, hd⟩ := Nat.exists_eq_succ_of_ne_zero (erasureDepth_pos t.types).ne'
  rw [canonicalize, get_bind_apply, hd]
  exact answers_canonicalizeWithin h t hle

/-- In an acyclic type system the canonical form of a type is remembered, and from then on it is
the answer. -/
theorem canonicalize_computes (hs : s.Valid) (hacyclic : s.types.Acyclic) {ty : TypeId}
    (hty : s.types.pool.Has ty) :
    Computes (canonicalize ty) s fun r t => t.memo.types.find? ty = some r := by
  have henough := TypeSystem.enough_erasureDepth hs.types hacyclic hty
  have hkeeps : Keeps (canonicalize ty) s fun r t => t.memo.types.find? ty = some r := by
    unfold canonicalize
    exact Keeps.get_bind (canonicalizeWithin_keeps hs hty henough).toKeeps
  exact ⟨hkeeps, answers_canonicalize hkeeps.post⟩

/-- More steps than are enough change nothing. -/
theorem canonicalizeWithin_eq_of_le {d d' : Nat} {ty : TypeId} (hs : s.Valid)
    (hty : s.types.pool.Has ty) (henough : s.types.Enough d ty) (hle : d ≤ d') :
    canonicalizeWithin d' ty s = canonicalizeWithin d ty s := by
  induction d', hle using Nat.le_induction with
  | base => rfl
  | succ d' hle ih => rw [(canonicalizeWithin_keeps hs hty (henough.of_le hle)).same, ih]

/-- No more steps than `erasureDepth` are ever taken. -/
theorem canonicalizeWithin_eq_canonicalize (hs : s.Valid) (hacyclic : s.types.Acyclic)
    {ty : TypeId} (hty : s.types.pool.Has ty) {d : Nat} (hd : erasureDepth s.types ≤ d) :
    canonicalizeWithin d ty s = canonicalize ty s := by
  have henough := TypeSystem.enough_erasureDepth hs.types hacyclic hty
  rw [canonicalize, get_bind_apply, canonicalizeWithin_eq_of_le hs hty henough hd]

/-- Steps that are enough lead to the canonical form. -/
theorem canonicalizeWithin_eq_of_enough (hs : s.Valid) (hacyclic : s.types.Acyclic) {d : Nat}
    {ty : TypeId} (hty : s.types.pool.Has ty) (henough : s.types.Enough d ty) :
    canonicalizeWithin d ty s = canonicalize ty s := by
  rcases Nat.le_total d (erasureDepth s.types) with hle | hle
  · rw [canonicalize, get_bind_apply, canonicalizeWithin_eq_of_le hs hty henough hle]
  · exact canonicalizeWithin_eq_canonicalize hs hacyclic hty hle

/-- The canonical form that is remembered, or else the one that erasure finds, to be remembered. -/
theorem canonicalize_eq (hs : s.Valid) (hacyclic : s.types.Acyclic) {ty : TypeId}
    (hty : s.types.pool.Has ty) : canonicalize ty s = match s.memo.types.find? ty with
      | some r => (r, s)
      | none => (eraseWith canonicalize ty >>= fun r => rememberType ty r *> pure r) s := by
  have henough := TypeSystem.enough_erasureDepth hs.types hacyclic hty
  obtain ⟨d, hd⟩ := Nat.exists_eq_succ_of_ne_zero (erasureDepth_pos s.types).ne'
  rw [hd] at henough
  rw [canonicalize, get_bind_apply, hd, canonicalizeWithin, get_bind_apply]
  cases s.memo.types.find? ty with
  | some r => rfl
  | none =>
    have hsteps : Canonicalizes canonicalize (canonicalizeWithin d) d s := fun u t hst ht hu henough =>
      have hacyclic' := acyclic_of_grows hs hst hacyclic
      ⟨(canonicalize_computes ht hacyclic' hu).toKeeps,
        canonicalizeWithin_eq_of_enough ht hacyclic' hu henough⟩
    dsimp only
    rw [bind_apply, (eraseWith_keeps hs hty henough hsteps).same, bind_apply]
    rfl

end Erasure.Canonicalizer
