/-
Erasing substitutions.

The substitutions that erase the type parameters of a class or of a member are computed once and
remembered. The main statements:

* `canonicalize_leaves`, `erasingSubst_leaves`: canonicalizing types touches no other memo.
* `classErasure_computes`, `memberErasure_computes`: the remembered substitution is the answer from
  then on.
-/
import Erasure.Proofs.Canonical.Types

namespace Erasure.Canonicalizer

variable {s t : Canonicalizer}

/-! ### What is left alone -/

section Leaves

variable {γ : Type} {part : CanonicalMemo → γ}

theorem lift_leaves {α : Type} (act : StateM TypeSystem α) :
    Leaves (fun s => part s.memo) (liftM act : CanonicalM α) := fun _ => rfl

theorem modifyMemo_leaves {f : CanonicalMemo → CanonicalMemo} (h : ∀ m, part (f m) = part m) :
    Leaves (fun s => part s.memo) (modifyMemo f) := fun s => h s.memo

variable (houters : ∀ m outers, part { m with outers } = part m)
include houters

theorem outerWith_leaves {canonical : TypeId → CanonicalM TypeId}
    (h : ∀ ty, Leaves (fun s => part s.memo) (canonical ty)) (c : ClassId) :
    Leaves (fun s => part s.memo) (outerWith canonical c) := by
  unfold outerWith
  refine .get_bind fun s => ?_
  split
  · exact .pure _
  · refine (Leaves.optionMapM _ h).bind fun outer => ?_
    exact (modifyMemo_leaves fun m => houters m _).bind fun _ => .pure _

theorem eraseWith_leaves {canonical : TypeId → CanonicalM TypeId}
    (h : ∀ ty, Leaves (fun s => part s.memo) (canonical ty)) (ty : TypeId) :
    Leaves (fun s => part s.memo) (eraseWith canonical ty) := by
  have houter : ∀ c, Leaves (fun s => part s.memo) (discard <| outerWith canonical c) :=
    outerWith_leaves houters h
  rw [eraseWith_eq]
  refine .get_bind fun s => (lift_leaves _).bind fun resolved => .get_bind fun t => ?_
  unfold eraseKind
  split
  · exact .pure _
  · exact .pure _
  · exact (houter _).bind fun _ => (lift_leaves _).bind fun rawTy => h rawTy
  · exact (h _).bind fun elem => lift_leaves _
  · exact (houter _).bind fun _ => .pure _
  · exact .pure _
  · exact .pure _

variable (htypes : ∀ m types, part { m with types } = part m)
include htypes

theorem canonicalizeWithin_leaves (d : Nat) (ty : TypeId) :
    Leaves (fun s => part s.memo) (canonicalizeWithin d ty) := by
  induction d generalizing ty with
  | zero => exact .pure _
  | succ d ih =>
    unfold canonicalizeWithin
    refine .get_bind fun s => ?_
    split
    · exact .pure _
    · refine (eraseWith_leaves houters ih ty).bind fun r => ?_
      exact (modifyMemo_leaves fun m => htypes m _).bind fun _ => .pure _

/-- Canonicalizing a type touches the memos of types and enclosing instances only. -/
theorem canonicalize_leaves (ty : TypeId) : Leaves (fun s => part s.memo) (canonicalize ty) := by
  unfold canonicalize
  exact .get_bind fun s => canonicalizeWithin_leaves houters htypes _ _

theorem erasingSubst_leaves (vs : List TypeVarId) :
    Leaves (fun s => part s.memo) (erasingSubst vs) := by
  unfold erasingSubst
  refine (Leaves.mapM vs fun v => ?_).bind fun bs => lift_leaves _
  exact (lift_leaves _).bind fun ty =>
    (canonicalize_leaves houters htypes ty).bind fun r => .pure _

end Leaves

/-! ### Erasing type parameters -/

theorem erasingSubst_computes (hs : s.Valid) (hacyclic : s.types.Acyclic) (vs : List TypeVarId) :
    Computes (erasingSubst vs) s fun sub t => t.BindsCanonical vs sub := by
  let R : TypeVarId → TypeVarId × TypeId → Canonicalizer → Prop := fun v b t =>
    b.1 = v ∧ ∃ ty, t.types.pool.HasKind ty (.var v) ∧ t.memo.types.find? ty = some b.2
  have hmono : ∀ v b t u, Store.Grows t u → R v b t → R v b u := by
    rintro v b t u htu ⟨hb, ty, hk, hfind⟩
    exact ⟨hb, ty, hk.of_le htu.le.1.1, Memo.find?_of_le htu.le.2.1 hfind⟩
  have hstep : ∀ v ∈ vs, ∀ t, Store.Grows s t → t.Valid → Computes (do
      let ty ← liftM (Pool.typeVar v : StateM Pool TypeId)
      return (v, ← canonicalize ty)) t (R v) := by
    intro v _ t hst ht
    refine Computes.bind (lift_computes ht (TypeSystem.lift_computes ht.types
      (Pool.typeVar_computes ht.types.pool v))) fun ty u htu hu hk => ?_
    have hacyclic' := acyclic_of_grows hs (hst.trans htu) hacyclic
    refine (canonicalize_computes hu hacyclic' hk.has).bind fun r w huw hw hr => ?_
    exact Computes.pure hw ⟨rfl, ty, hk.of_le huw.le.1.1, hr⟩
  unfold erasingSubst
  refine (Computes.mapM hmono hs hstep).bind fun bs t hst ht hbs => ?_
  have hhas : ∀ b ∈ bs, t.types.pool.Has b.2 := by
    intro b hb
    obtain ⟨v, -, -, ty, -, hfind⟩ := exists_of_forall₂_right hbs hb
    exact (ht.canonical hfind).normal.has
  refine (lift_computes ht (TypeSystem.lift_computes ht.types
    (Pool.internSubst_computes ht.types.pool hhas))).mono fun sub u htu _ hsub => ?_
  exact ⟨bs, hsub, hbs.imp fun v b => hmono v b t u htu⟩

theorem rememberClassSubst_keeps (hs : s.Valid) {c : ClassId} {x : Option SubstId}
    (hmiss : s.memo.classSubsts.find? c = none)
    (hx : ∀ sub ∈ x, ∃ vs, s.BindsCanonical vs sub) :
    Keeps (modifyMemo fun m => { m with classSubsts := m.classSubsts.insert c x }) s
      fun _ t => t.memo.classSubsts.find? c = some x := by
  let t : Canonicalizer :=
    { s with memo := { s.memo with classSubsts := s.memo.classSubsts.insert c x } }
  have hle : s ≤ t := ⟨le_refl _, le_refl _, le_refl _,
    Memo.le_insert_of_none x hmiss, le_refl _⟩
  refine ⟨⟨hle, .refl _, fun hM => ⟨hM.le, hM.erases⟩⟩, ?_, Memo.find?_insert_self ..⟩
  refine hs.extend hle hs.types Or.inl Or.inl (fun h => ?_) Or.inl Or.inl
  rcases Memo.find?_insert_cases h with ⟨-, rfl⟩ | h
  · exact Or.inr fun sub hsub => (hx sub hsub).imp fun _ hbinds => hbinds.of_le hle
  · exact Or.inl h

theorem rememberMemberSubst_keeps (hs : s.Valid) {m : MemberId} {x : Option SubstId}
    (hmiss : s.memo.memberSubsts.find? m = none) (hx : s.MemberErasureEntry m x) :
    Keeps (modifyMemo fun memo => { memo with memberSubsts := memo.memberSubsts.insert m x }) s
      fun _ t => t.memo.memberSubsts.find? m = some x := by
  let t : Canonicalizer :=
    { s with memo := { s.memo with memberSubsts := s.memo.memberSubsts.insert m x } }
  have hle : s ≤ t := ⟨le_refl _, le_refl _, le_refl _, le_refl _,
    Memo.le_insert_of_none x hmiss⟩
  refine ⟨⟨hle, .refl _, fun hM => ⟨hM.le, hM.erases⟩⟩, ?_, Memo.find?_insert_self ..⟩
  refine hs.extend hle hs.types Or.inl Or.inl Or.inl (fun h => ?_) Or.inl
  rcases Memo.find?_insert_cases h with ⟨rfl, rfl⟩ | h
  · exact Or.inr (hx.of_le hle)
  · exact Or.inl h

/-- The substitution that erases the type parameters in scope of a class is remembered. -/
theorem classErasure_computes (hs : s.Valid) (hacyclic : s.types.Acyclic) (c : ClassId) :
    Computes (classErasure c) s fun x t => t.memo.classSubsts.find? c = some x := by
  have hkeeps : Keeps (classErasure c) s fun x t => t.memo.classSubsts.find? c = some x := by
    unfold classErasure
    refine Keeps.get_bind ?_
    cases hfind : s.memo.classSubsts.find? c with
    | some x => exact Keeps.pure hs hfind
    | none =>
      have hremember : ∀ x t, t.Valid → (∀ sub ∈ x, ∃ vs, t.BindsCanonical vs sub) →
          t.memo.classSubsts = s.memo.classSubsts →
          Keeps (do
            modifyMemo fun m => { m with classSubsts := m.classSubsts.insert c x }
            return x) t fun x t => t.memo.classSubsts.find? c = some x := fun x t ht hx hsame =>
        (rememberClassSubst_keeps ht (hsame ▸ hfind) hx).bind fun _ u _ hu h => Keeps.pure hu h
      dsimp only
      split
      · have hleaves := @erasingSubst_leaves _ (·.classSubsts) (fun _ _ => rfl)
          (fun _ _ => rfl) (s.types.typeParamsInScope c)
        refine (((erasingSubst_computes hs hacyclic _).toKeeps.with_leaves hleaves).map ?_).bind ?_
          (P := fun x t => (∀ sub ∈ x, ∃ vs, t.BindsCanonical vs sub) ∧
            t.memo.classSubsts = s.memo.classSubsts)
        · rintro sub t - ⟨hbinds, hsame⟩
          refine ⟨?_, hsame⟩
          rintro _ ⟨⟩
          exact ⟨_, hbinds⟩
        · exact fun x t _ ht hx => hremember x t ht hx.1 hx.2
      · exact hremember none s hs (by simp) rfl
  refine ⟨hkeeps, fun t hle => ?_⟩
  rw [classErasure, get_bind_apply, Memo.find?_of_le hle.2.2.2.1 hkeeps.post]
  rfl

/-- The substitution that erases the type parameters of a member is remembered. -/
theorem memberErasure_computes (hs : s.Valid) (hacyclic : s.types.Acyclic) {m : MemberId}
    (hm : s.types.HasMember m) :
    Computes (memberErasure m) s fun x t => t.memo.memberSubsts.find? m = some x := by
  have hkeeps : Keeps (memberErasure m) s fun x t => t.memo.memberSubsts.find? m = some x := by
    unfold memberErasure
    refine Keeps.get_bind ?_
    cases hfind : s.memo.memberSubsts.find? m with
    | some x => exact Keeps.pure hs hfind
    | none =>
      have hremember : ∀ x t, t.Valid → t.MemberErasureEntry m x ∧
          t.memo.memberSubsts = s.memo.memberSubsts →
          Keeps (do
            modifyMemo fun memo => { memo with memberSubsts := memo.memberSubsts.insert m x }
            return x) t fun x t => t.memo.memberSubsts.find? m = some x := fun x t ht hx =>
        (rememberMemberSubst_keeps ht (hx.2 ▸ hfind) hx.1).bind
          fun _ u _ hu h => Keeps.pure hu h
      dsimp only
      split
      case isTrue hempty =>
        refine hremember none s hs ⟨⟨hm, ?_, by simp⟩, rfl⟩
        exact iff_of_true rfl (List.isEmpty_iff.mp hempty)
      case isFalse hne =>
        have hleaves := @erasingSubst_leaves _ (·.memberSubsts) (fun _ _ => rfl)
          (fun _ _ => rfl) (s.types.member m).kind.typeParams
        refine (((erasingSubst_computes hs hacyclic _).toKeeps.with_leaves hleaves).map ?_).bind
          fun x t _ ht hx => hremember x t ht hx
        rintro sub t hst ⟨hbinds, hsame⟩
        have hmember := TypeSystem.member_of_le hst.le.1 hm
        refine ⟨⟨hm.of_le hst.le.1, iff_of_false (Option.some_ne_none _) fun hempty => hne ?_, ?_⟩, hsame⟩
        · rw [← hmember, hempty]
          rfl
        · rintro _ ⟨⟩
          rwa [hmember]
  refine ⟨hkeeps, fun t hle => ?_⟩
  rw [memberErasure, get_bind_apply, Memo.find?_of_le hle.2.2.2.2 hkeeps.post]
  rfl

end Erasure.Canonicalizer
