/-
Substitution without shortcuts.

`Pool.substitute` answers an erased type at once, and every type under the substitution that binds
nothing. `Pool.rebuildWithin` has no such tests: it takes every type apart down to its variables and
raw classes, and interns it again from what becomes of its parts. The main statements:

* `rebuildWithin_answers`: where no variable of a type is bound, every level is found again as it
  was, so the answer is the type and the pool stays as it is.
* `rebuildWithin_eq_substituteWithin`: with or without the shortcuts, the answer is the same type
  and the pool afterwards is the same.
* `Canonicalizer.substitute_eq_rebuildWithin`: so it is in every session.
-/
import Erasure.Proofs.TypeSystem.Layers

namespace Erasure

namespace Pool

variable {p : Pool} {s : SubstId} {bs : Bindings} {depth : Nat} {ty : TypeId}

/-- Substitution that takes every type apart, looking at most `depth` levels into it. -/
def rebuildWithin : (depth : Nat) → SubstId → TypeId → StateM Pool TypeId
  | 0, _, ty => pure ty
  | depth + 1, s, ty => do
    let p ← get
    match p.kind ty with
    | .prim _ | .null | .raw _ => return ty
    | .var v => return (p.replacement? s v).getD ty
    | .array elem => array (← rebuildWithin depth s elem)
    | .inst base inner outer =>
      let bs ← (p.bindings inner).mapM fun (v, arg) =>
        return (v, ← rebuildWithin depth s arg)
      let inner ← internSubst bs
      let outer ← outer.mapM (rebuildWithin depth s)
      instantiation base inner outer
    | .lub l => lubOf (← (p.candidates l).mapM (rebuildWithin depth s))

/-! ### Interning what is there -/

theorem HasKind.answers {k : TypeKind} (h : p.HasKind ty k) : Answers (internKind k) ty p :=
  fun _ hle => internKind_eq (h.of_le hle)

theorem HasBindings.answers (h : p.HasBindings s bs) (hsorted : bs.Sorted) :
    Answers (internSubst bs) s p := by
  intro q hle
  have hintern : q.substs.intern bs = (s.index, q.substs) :=
    InternTable.intern_of_get? (h.of_le hle)
  simp only [internSubst, Bindings.ofList_of_sorted hsorted, hintern]

theorem HasCandidates.answers {l : LubId} {cs : Candidates} (h : p.HasCandidates l cs) :
    Answers (internCandidates cs) l p := by
  intro q hle
  have hintern : q.lubs.intern cs = (l.index, q.lubs) := InternTable.intern_of_get? (h.of_le hle)
  simp only [internCandidates, hintern]

theorem IsLub.answers {tys : List TypeId} (h : p.IsLub (Candidates.ofList tys) ty) :
    Answers (lubOf tys) ty p := by
  unfold lubOf
  cases h with
  | only hcs _ =>
    rw [hcs]
    exact .pure
  | lub hlength hcs hk =>
    split
    · rename_i honly
      exact absurd (by rw [honly]; rfl) hlength
    · exact hcs.answers.bind hk.answers

/-! ### Where nothing is replaced -/

/-- A type without a bound variable is found again at every level, and nothing is interned. -/
theorem rebuildWithin_answers (hp : p.Valid) (hs : p.HasBindings s bs) (hty : p.Has ty)
    (hdepth : ty.index < depth) (hfree : ∀ v, p.Occurs (.var v) ty → bs.lookup? v = none) :
    Answers (rebuildWithin depth s ty) ty p := by
  induction depth generalizing ty with
  | zero => exact absurd hdepth (Nat.not_lt_zero _)
  | succ depth ih =>
    have hkind := hty.hasKind
    have hparts : ∀ {k}, p.HasKind ty k → ∀ u ∈ p.parts k, Answers (rebuildWithin depth s u) u p :=
      fun hk u hu => by
        have hlt := hp.parts_lt hk u hu
        exact ih (hp.has_part hk hu) (by omega) fun v hv => hfree v (.part hk hu hv)
    intro q hle
    rw [rebuildWithin, get_bind_apply, kind_of_le hle hty]
    cases hk : p.kind ty with rw [hk] at hkind
    | prim _ | null | raw _ => rfl
    | var v =>
      simp only [replacement?, (hs.of_le hle).bindings_eq, hfree v (.here hkind), Option.getD_none]
      rfl
    | array elem =>
      exact (Answers.bind (hparts hkind elem List.mem_cons_self) hkind.answers) q hle
    | inst base inner outer =>
      obtain ⟨bs', hbs⟩ := hp.linked hkind
      have hbindings :
          Answers (bs'.mapM fun b => return (b.1, ← rebuildWithin depth s b.2)) bs' p :=
        .mapM_self fun b hb => (hparts hkind b.2 (mem_parts_of_mem_bindings hbs hb)).bind .pure
      have houter : Answers (outer.mapM (rebuildWithin depth s)) outer p :=
        .optionMapM_self fun u hu => hparts hkind u (mem_parts_of_mem_outer hu)
      have hsubst : Answers (internSubst bs') inner p := hbs.answers (hp.bindings hbs).1
      simp only [(hbs.of_le hle).bindings_eq]
      exact (hbindings.bind (hsubst.bind (houter.bind hkind.answers))) q hle
    | lub l =>
      obtain ⟨cs, hcs⟩ := hp.linked hkind
      obtain ⟨hsorted, hlength, -⟩ := hp.candidates hcs
      have hmembers : Answers (cs.mapM (rebuildWithin depth s)) cs p :=
        .mapM_self fun u hu => hparts hkind u (mem_parts_lub hcs hu)
      have hlub : p.IsLub (Candidates.ofList cs) ty := by
        rw [Candidates.ofList_of_sorted hsorted]
        exact .lub hlength hcs hkind
      simp only [(hcs.of_le hle).candidates_eq]
      exact (hmembers.bind hlub.answers) q hle

/-! ### With and without the shortcuts -/

section Parts

variable {f : TypeVarId → Option TypeId} {act act' : TypeId → StateM Pool TypeId} {k : TypeKind}

/-- The first action substitutes in the parts of a kind, and the second one does the same there. -/
def SubstitutesPartsBoth (f : TypeVarId → Option TypeId) (act act' : TypeId → StateM Pool TypeId)
    (p : Pool) (k : TypeKind) : Prop :=
  ∀ u ∈ p.parts k, ∀ q, Store.Grows p q → q.Valid → KeepsBoth (act u) (act' u) q (IsResult f u)

theorem mapBindings_same (hp : p.Valid) (hbs : ∀ b ∈ bs, b.2 ∈ p.parts k)
    (hact : SubstitutesPartsBoth f act act' p k) :
    KeepsBoth (bs.mapM fun b => return (b.1, ← act b.2)) (bs.mapM fun b => return (b.1, ← act' b.2))
      p fun bs' q => ∀ b ∈ bs', q.Has b.2 := by
  have hargs : ∀ b ∈ bs, ∀ q, Store.Grows p q → q.Valid →
      KeepsBoth (do return (b.1, ← act b.2)) (do return (b.1, ← act' b.2)) q
        fun b' t => t.Has b'.2 := fun b hb q hpq hq =>
    (hact b.2 (hbs b hb) q hpq hq).bind fun r t _ ht hr => .of_keeps (.pure ht hr.2)
  refine (KeepsBoth.mapM (fun _ _ _ _ hle h => h.of_le hle.le) hp hargs).mono ?_
  exact fun bs' q _ _ hbs' b' hb' => (exists_of_forall₂_right hbs' hb').choose_spec.2

theorem instantiation_same {base : ClassId} {inner : SubstId} {outer : Option TypeId}
    (hp : p.Valid) (hbs : p.HasBindings inner bs)
    (hact : SubstitutesPartsBoth f act act' p (.inst base inner outer)) :
    (do
      let inner ← internSubst (← bs.mapM fun b => return (b.1, ← act' b.2))
      instantiation base inner (← outer.mapM act') : StateM Pool TypeId) p =
    (do
      let inner ← internSubst (← bs.mapM fun b => return (b.1, ← act b.2))
      instantiation base inner (← outer.mapM act) : StateM Pool TypeId) p := by
  have hargs := mapBindings_same hp (fun b hb => mem_parts_of_mem_bindings hbs hb) hact
  refine hargs.bind_eq fun bs' q hpq hq hbs' => ?_
  have hinner := KeepsBoth.of_keeps (internSubst_computes hq hbs').toKeeps
  refine hinner.bind_eq fun s' q' hqq hq' _ => ?_
  have houter := KeepsBoth.optionMapM hq' fun u hu =>
    hact u (mem_parts_of_mem_outer hu) q' (hpq.trans hqq) hq'
  exact houter.bind_eq fun outer' q'' _ _ _ => rfl

theorem lub_same {l : LubId} {cs : Candidates} (hp : p.Valid) (hcs : p.HasCandidates l cs)
    (hact : SubstitutesPartsBoth f act act' p (.lub l)) :
    (do lubOf (← cs.mapM act') : StateM Pool TypeId) p =
      (do lubOf (← cs.mapM act) : StateM Pool TypeId) p := by
  have hmembers := KeepsBoth.mapM (fun _ _ _ _ hle h => h.of_le hle.le) hp fun u hu =>
    hact u (mem_parts_lub hcs hu)
  exact hmembers.bind_eq fun us q _ _ _ => rfl

end Parts

/-- Substituting gives the same type and the same pool with and without the shortcuts. -/
theorem rebuildWithin_eq_substituteWithin {depth' : Nat} (hp : p.Valid) (hs : p.HasBindings s bs)
    (hty : p.Has ty) (hdepth : ty.index < depth) (hdepth' : ty.index < depth') :
    rebuildWithin depth' s ty p = substituteWithin depth s ty p := by
  induction depth generalizing p ty depth' with
  | zero => exact absurd hdepth (Nat.not_lt_zero _)
  | succ depth ih =>
    have hkind := hty.hasKind
    rw [substituteWithin, get_bind_apply]
    split
    case isTrue hshort =>
      -- under either shortcut no variable of the type is bound
      refine (rebuildWithin_answers hp hs hty hdepth' fun v hv => ?_).eq
      rcases Bool.or_eq_true_iff.mp hshort with hempty | herased
      · rw [of_decide_eq_true hempty] at hs
        rw [hs.unique hp.empty]
        rfl
      · have hvar : (p.flags ty).hasVar = true := (hasVar_iff_occurs hp hty).mpr ⟨v, hv⟩
        simp [TypeFlags.isErased, hvar] at herased
    case isFalse =>
      obtain ⟨depth', rfl⟩ := Nat.exists_eq_add_of_lt (Nat.zero_lt_of_lt hdepth')
      rw [Nat.zero_add] at hdepth' ⊢
      have hparts : ∀ {k}, p.HasKind ty k →
          SubstitutesPartsBoth bs.lookup? (substituteWithin depth s) (rebuildWithin depth' s) p
            k := by
        intro k hk u hu q hpq hq
        have hlt := hp.parts_lt hk u hu
        have hhas := (hp.has_part hk hu).of_le hpq.le
        have hs' := hs.of_le hpq.le
        exact ⟨(substituteWithin_computes hq hs' hhas (by omega)).toKeeps,
          ih hq hs' hhas (by omega) (by omega)⟩
      rw [rebuildWithin, get_bind_apply]
      cases hk : p.kind ty with rw [hk] at hkind
      | array elem =>
        exact (hparts hkind elem List.mem_cons_self p (.refl p) hp).bind_eq fun _ _ _ _ _ => rfl
      | inst base inner outer =>
        obtain ⟨bs', hbs⟩ := hp.linked hkind
        simp only [hbs.bindings_eq]
        exact instantiation_same hp hbs (hparts hkind)
      | lub l =>
        obtain ⟨cs, hcs⟩ := hp.linked hkind
        simp only [hcs.candidates_eq]
        exact lub_same hp hcs (hparts hkind)

end Pool

/-! ### In a session -/

namespace Canonicalizer

variable {s : Canonicalizer}

/-- In every session substituting without the shortcuts answers the same type and leaves the same
pool as substituting with them. If no variable that occurs in the type is bound, the type stays as
it is and nothing is added to the pool. -/
theorem substitute_eq_rebuildWithin (hs : Reachable s) {sub : SubstId} {bs : Bindings} {ty : TypeId}
    (hsub : s.types.pool.HasBindings sub bs) (hty : s.types.pool.Has ty) :
    (∀ depth > ty.index,
      Pool.rebuildWithin depth sub ty s.types.pool = Pool.substitute sub ty s.types.pool) ∧
      ((∀ v, s.types.pool.Occurs (.var v) ty → s.types.pool.replacement? sub v = none) →
        Pool.substitute sub ty s.types.pool = (ty, s.types.pool)) := by
  have hp := hs.valid.types.pool
  have hrebuild : ∀ depth > ty.index,
      Pool.rebuildWithin depth sub ty s.types.pool = Pool.substitute sub ty s.types.pool :=
    fun depth hdepth =>
      Pool.rebuildWithin_eq_substituteWithin hp hsub hty (Nat.lt_succ_self _) hdepth
  refine ⟨hrebuild, fun hfree => ?_⟩
  rw [← hrebuild _ (Nat.lt_succ_self _)]
  refine (Pool.rebuildWithin_answers hp hsub hty (Nat.lt_succ_self _) fun v hv => ?_).eq
  rw [← hfree v hv, Pool.replacement?, hsub.bindings_eq]

/-- `Box<U>` stays as it is when `T` is replaced by `U`, which no shortcut says. -/
theorem substitute_eq_rebuildWithin_box : Reachable layersSession ∧
    layersSession.types.pool.HasKind ⟨18⟩ (.inst ⟨2⟩ ⟨3⟩ none) ∧
    layersSession.types.pool.HasBindings ⟨3⟩ [(⟨0⟩, ⟨14⟩)] ∧
    (layersSession.types.pool.flags ⟨18⟩).isErased = false ∧
    Pool.rebuildWithin 19 ⟨3⟩ ⟨18⟩ layersSession.types.pool = (⟨18⟩, layersSession.types.pool) := by
  obtain ⟨-, -, hty, hsub, -⟩ := layersSession_declares
  obtain ⟨hrebuild, hfree⟩ := substitute_eq_rebuildWithin layersSession_reachable hsub hty.has
  refine ⟨layersSession_reachable, hty, hsub, by decide +kernel, ?_⟩
  rw [hrebuild 19 (by decide), hfree fun v hv => ?_]
  have hvar : layersSession.types.pool.HasKind ⟨14⟩ (.var ⟨1⟩) := by decide +kernel
  obtain ⟨⟨⟩⟩ | ⟨u, hu, hv⟩ := (Pool.occurs_iff hty).mp hv
  obtain rfl : u = ⟨14⟩ := by
    rw [Pool.parts, hsub.bindings_eq] at hu
    exact List.mem_singleton.mp hu
  cases hv.eq_of_parts_eq_nil hvar rfl
  rw [Pool.replacement?, hsub.bindings_eq]
  rfl

end Canonicalizer

end Erasure
