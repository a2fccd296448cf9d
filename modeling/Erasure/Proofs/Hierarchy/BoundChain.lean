/-
How far bounds have to be followed.

The bound of a type variable may be another type variable, and bounds may run into a cycle. Following
a chain of bounds takes a step for each variable on the way and one for the type behind them. No
variable comes twice on a chain that ends, so that one step more than there are variables tells the
chains that end from those that do not, and fewer would not. The main statements:

* `LeavesAfter.followBounds_iff`: how many steps it takes to follow a chain to its end.
* `LeavesAfter.le_size`: a chain that ends meets each variable once at most.
* `staysInVars_iff_isCyclic`: a chain that does not end runs into a cycle.
* `exists_longChain`: there are chains that meet all variables.
* `boundErasure_exact`: what the bound erasure of a type is, and that fewer steps would not find it.
-/
import Erasure.Proofs.Canonical.Extension

namespace Erasure

namespace TypeSystem

open Relation (ReflTransGen TransGen)

variable {ts us : TypeSystem} {t u w : TypeId} {n k : Nat}

/-! ### Chains of bounds -/

/-- Only types of the pool are type variables. -/
theorem hasKind_var_iff {v : TypeVarId} : ts.pool.HasKind t (.var v) ↔ ts.kind t = .var v := by
  refine ⟨fun h => h.kind_eq, fun hk => ?_⟩
  have hnull : ts.kind t ≠ .null := by rw [hk]; exact nofun
  exact (has_of_kind_ne_null hnull).hasKind_of_eq hk

/-- The type is a type variable. -/
def IsVar (ts : TypeSystem) (ty : TypeId) : Prop := ∃ v, ts.kind ty = .var v

/-- The second type is the bound of the first one, a declared type variable. -/
def HasBound (ts : TypeSystem) (ty bound : TypeId) : Prop :=
  ∃ v, ts.kind ty = .var v ∧ ts.bound? v = some bound

/-- From the first type on, the chain of bounds meets so many type variables and then leaves them,
for the second type. -/
inductive LeavesAfter (ts : TypeSystem) : Nat → TypeId → TypeId → Prop
  | here {u : TypeId} : ¬ ts.IsVar u → LeavesAfter ts 0 u u
  | bound {n : Nat} {t w u : TypeId} : ts.HasBound t w → LeavesAfter ts n w u →
      LeavesAfter ts (n + 1) t u

/-- From the type on, the chain of bounds meets declared type variables only. -/
def StaysInVars (ts : TypeSystem) (ty : TypeId) : Prop :=
  ∀ u, ReflTransGen ts.HasBound ty u → ∃ w, ts.HasBound u w

/-- From the type on, the chain of bounds comes to a type that it comes back to. -/
def IsCyclic (ts : TypeSystem) (ty : TypeId) : Prop :=
  ∃ u, ReflTransGen ts.HasBound ty u ∧ TransGen ts.HasBound u u

/-- Every type variable that the chain of bounds meets is declared, so that its bound can be read. -/
def DeclaresChain (ts : TypeSystem) (ty : TypeId) : Prop :=
  ∀ u v, ReflTransGen ts.HasBound ty u → ts.kind u = .var v → v.index < ts.typeVars.size

theorem DeclaresVars.declaresChain (h : ts.DeclaresVars) (ty : TypeId) : ts.DeclaresChain ty := by
  intro u v _ hk
  exact h (hasKind_var_iff.mpr hk)

theorem HasBound.isVar (h : ts.HasBound t w) : ts.IsVar t := h.imp fun _ hv => hv.1

theorem HasBound.unique (h : ts.HasBound t u) (h' : ts.HasBound t w) : u = w := by
  obtain ⟨v, hk, hu⟩ := h
  obtain ⟨v', hk', hw⟩ := h'
  cases hk.symm.trans hk'
  exact Option.some.inj (hu.symm.trans hw)

/-- The variables of a chain are types of the pool with a number below that of the variables. -/
theorem HasBound.exists_mark (h : ts.HasBound t w) : ∃ i < ts.typeVars.size, ts.varMark t i := by
  obtain ⟨v, hk, hbound⟩ := h
  exact ⟨v.index, (bound?_eq_some_iff.mp hbound).1, hasKind_var_iff.mpr hk⟩

/-! ### Following a chain -/

theorem followBounds_succ_of_not_isVar (h : ¬ ts.IsVar t) (k : Nat) :
    ts.followBounds (k + 1) t = some t := by
  unfold followBounds
  split
  · rename_i v hk
    exact absurd ⟨v, hk⟩ h
  · rfl

theorem followBounds_succ_of_hasBound (h : ts.HasBound t w) (k : Nat) :
    ts.followBounds (k + 1) t = ts.followBounds k w := by
  obtain ⟨v, hk, hbound⟩ := h
  rw [followBounds, hk]
  exact congrArg (ts.followBounds k) (bound?_eq_some_iff.mp hbound).2

/-- A chain is followed to its end by the steps that meet its variables and one more, and by no
fewer. -/
theorem LeavesAfter.followBounds_iff (h : ts.LeavesAfter n t u) :
    ts.followBounds k t = some w ↔ n < k ∧ u = w := by
  induction h generalizing k with
  | here hu =>
    cases k with
    | zero => exact ⟨nofun, fun h => absurd h.1 (Nat.lt_irrefl 0)⟩
    | succ k =>
      rw [followBounds_succ_of_not_isVar hu, Option.some_inj]
      exact ⟨fun h => ⟨Nat.succ_pos k, h⟩, fun h => h.2⟩
  | bound hstep _ ih =>
    cases k with
    | zero => exact ⟨nofun, fun h => absurd h.1 (Nat.not_lt_zero _)⟩
    | succ k => rw [followBounds_succ_of_hasBound hstep, ih, Nat.succ_lt_succ_iff]

/-- A chain leaves the type variables at one place. -/
theorem LeavesAfter.unique {m : Nat} (h : ts.LeavesAfter n t u) (h' : ts.LeavesAfter m t w) :
    n = m ∧ u = w := by
  induction h generalizing m with
  | here hu =>
    cases h' with
    | here => exact ⟨rfl, rfl⟩
    | bound hstep _ => exact absurd hstep.isVar hu
  | bound hstep _ ih =>
    cases h' with
    | here hu => exact absurd hstep.isVar hu
    | bound hstep' hrest =>
      obtain rfl := hstep.unique hstep'
      obtain ⟨rfl, rfl⟩ := ih hrest
      exact ⟨rfl, rfl⟩

/-- What a chain meets on its way is nearer to its end. -/
theorem LeavesAfter.of_steps {m : Nat} (h : ts.LeavesAfter n t u)
    (hsteps : ReflTransGen ts.HasBound t w) (hw : ts.LeavesAfter m w u) : m ≤ n := by
  induction hsteps using ReflTransGen.head_induction_on generalizing n with
  | refl => exact (hw.unique h).1.le
  | head hstep _ ih =>
    cases h with
    | here hu => exact absurd hstep.isVar hu
    | bound hstep' hrest =>
      obtain rfl := hstep.unique hstep'
      exact Nat.le_succ_of_le (ih hrest)

/-! ### Chains that end -/

/-- No type comes twice on a chain that ends. -/
theorem LeavesAfter.not_transGen_self (h : ts.LeavesAfter n t u) : ¬ TransGen ts.HasBound t t := by
  intro hcycle
  obtain ⟨w, hstep, hsteps⟩ := TransGen.head'_iff.mp hcycle
  cases h with
  | here hu => exact hu hstep.isVar
  | bound hstep' hrest =>
    obtain rfl := hstep.unique hstep'
    exact Nat.not_succ_le_self _ (hrest.of_steps hsteps (.bound hstep' hrest))

/-- Past a variable that is on no cycle there are fewer variables to be met. -/
theorem HasBound.card_reached_lt (h : ts.HasBound t w) (hacyclic : ¬ TransGen ts.HasBound t t) :
    (reached ts.HasBound ts.varMark ts.typeVars.size w).card <
      (reached ts.HasBound ts.varMark ts.typeVars.size t).card := by
  obtain ⟨i, hi, hmark⟩ := h.exists_mark
  exact Erasure.card_reached_lt ts.varMark h hacyclic hi hmark fun _ hx => hx.inj hmark

/-- A chain that ends meets each variable once at most. -/
theorem LeavesAfter.le_size (h : ts.LeavesAfter n t u) : n ≤ ts.typeVars.size := by
  -- More is true: each step to the end takes one off the variables that are still to be met.
  suffices hcard : n ≤ (reached ts.HasBound ts.varMark ts.typeVars.size t).card from
    hcard.trans (card_reached_bound ..)
  induction h with
  | here _ => exact Nat.zero_le _
  | bound hstep hrest ih =>
    exact Nat.succ_le_of_lt (Nat.lt_of_le_of_lt ih
      (hstep.card_reached_lt (LeavesAfter.bound hstep hrest).not_transGen_self))

/-! ### Chains that do not end -/

theorem StaysInVars.bound (h : ts.StaysInVars t) (hstep : ts.HasBound t w) : ts.StaysInVars w :=
  fun u hu => h u (.head hstep hu)

/-- Steps along a chain that stays in the variables find nothing. -/
theorem StaysInVars.followBounds_eq_none (h : ts.StaysInVars t) (k : Nat) :
    ts.followBounds k t = none := by
  induction k generalizing t with
  | zero => rfl
  | succ k ih =>
    obtain ⟨w, hstep⟩ := h t .refl
    rw [followBounds_succ_of_hasBound hstep, ih (h.bound hstep)]

/-- A chain of declared variables ends if it does not stay in them. -/
theorem exists_leavesAfter (hdeclared : ts.DeclaresChain t) (h : ¬ ts.StaysInVars t) :
    ∃ n u, ts.LeavesAfter n t u := by
  simp only [StaysInVars, not_forall] at h
  obtain ⟨u, hsteps, hend⟩ := h
  have hu : ¬ ts.IsVar u := fun ⟨v, hk⟩ =>
    hend ⟨_, v, hk, bound?_eq_some_iff.mpr ⟨hdeclared u v hsteps hk, rfl⟩⟩
  clear hdeclared
  induction hsteps using ReflTransGen.head_induction_on with
  | refl => exact ⟨0, u, .here hu⟩
  | head hstep _ ih =>
    obtain ⟨n, u, hrest⟩ := ih
    exact ⟨n + 1, u, .bound hstep hrest⟩

/-- A type that a chain comes back to is followed by such a type. -/
theorem transGen_self_of_steps (hcycle : TransGen ts.HasBound t t)
    (hsteps : ReflTransGen ts.HasBound t u) : TransGen ts.HasBound u u := by
  induction hsteps with
  | refl => exact hcycle
  | tail _ hstep ih =>
    obtain ⟨w, hstep', hback⟩ := TransGen.head'_iff.mp ih
    obtain rfl := hstep.unique hstep'
    exact .tail' hback hstep

/-- A chain stays in the variables exactly if it runs into a cycle. -/
theorem staysInVars_iff_isCyclic : ts.StaysInVars t ↔ ts.IsCyclic t := by
  constructor
  · intro h
    by_contra hacyclic
    -- Each step leaves fewer variables to be met, but there is always another step.
    induction hcard : (reached ts.HasBound ts.varMark ts.typeVars.size t).card
      using Nat.strongRecOn generalizing t with
    | ind c ih =>
      obtain ⟨w, hstep⟩ := h t .refl
      have hfewer := hstep.card_reached_lt fun hcycle => hacyclic ⟨t, .refl, hcycle⟩
      refine ih _ (hcard ▸ hfewer) (h.bound hstep) ?_ rfl
      exact fun ⟨u, hsteps, hcycle⟩ => hacyclic ⟨u, .head hstep hsteps, hcycle⟩
  · rintro ⟨u, hu, hcycle⟩ x hx
    have hunique : Relator.RightUnique ts.HasBound := fun _ _ _ => HasBound.unique
    -- The chain has come to the cycle before it comes to `x`, or it goes on from `x` to the cycle.
    rcases ReflTransGen.total_of_right_unique hunique hu hx with hux | hxu
    · obtain ⟨w, hstep, -⟩ := TransGen.head'_iff.mp (transGen_self_of_steps hcycle hux)
      exact ⟨w, hstep⟩
    · obtain ⟨w, hstep, -⟩ := TransGen.head'_iff.mp (TransGen.trans_right hxu hcycle)
      exact ⟨w, hstep⟩

/-! ### Long chains -/

/-- A chain stays as it is when no variable of it is given another bound. -/
theorem LeavesAfter.of_le (hts : ts.Valid) (hle : ts ≤ us)
    (hbound : ∀ v b, ts.bound? v = some b → us.bound? v = some b) (ht : ts.pool.Has t)
    (h : ts.LeavesAfter n t u) : us.LeavesAfter n t u := by
  induction h with
  | here hu => exact .here (by rwa [IsVar, kind_of_le hle ht])
  | bound hstep _ ih =>
    obtain ⟨v, hk, hb⟩ := hstep
    have hw := hts.bound v
    rw [(bound?_eq_some_iff.mp hb).2] at hw
    exact .bound ⟨v, (kind_of_le hle ht).trans hk, hbound v _ hb⟩ (ih hw)

open Canonicalizer in
/-- However many variables there are, in some session they make one chain. -/
theorem exists_longChain (n : Nat) : ∃ s, Reachable s ∧ s.types.typeVars.size = n ∧
    ∃ ty, s.types.pool.Has ty ∧ s.types.LeavesAfter n ty .string := by
  induction n with
  | zero =>
    have hinitial : initial.typeVars.size = 0 ∧ initial.pool.HasKind .string (.raw .string) := by
      decide +kernel
    obtain ⟨hsize, hkind⟩ := hinitial
    refine ⟨_, .initial, hsize, .string, hkind.has, .here fun ⟨v, hk⟩ => ?_⟩
    exact nomatch hkind.kind_eq.symm.trans hk
  | succ n ih =>
    obtain ⟨s, hs, hsize, ty, hty, hchain⟩ := ih
    -- One more variable, bounded by the chain that there is, and the variable as a type.
    let d : Declaration := .addMethodTypeParam "T" (some ty)
    have hd : d.Admitted s.types := fun u hu => Option.some.inj hu ▸ hty
    let q : Query := .typeVar ⟨n⟩
    let us := ((s.declared d).asked q).types
    have hle : s.types ≤ us :=
      le_trans (d.run_advances hs.valid.types hd).le
        (q.run_keeps (d.run_advances hs.valid.types hd).valid trivial).grows.le
    have hbound : us.bound? ⟨n⟩ = some ty := by
      show (s.types.typeVars.push _)[n]?.map (·.bound) = _
      rw [← hsize, Array.getElem?_push_size]
      rfl
    have hkind := Pool.hasKind_internKind s.types.pool (.var ⟨n⟩)
    refine ⟨_, .ask q (.declare d hs hd) trivial, ?_, _, hkind.has,
      .bound ⟨⟨n⟩, hkind.kind_eq, hbound⟩ ?_⟩
    · rw [← hsize]
      exact Array.size_push ..
    · refine hchain.of_le hs.valid.types hle (fun v b hb => ?_) hty
      have hlt := (bound?_eq_some_iff.mp hb).1
      exact (d.bound?_run (Nat.ne_of_lt hlt)).trans hb

/-! ### The erasure of bounds -/

theorem LeavesAfter.boundErasure_eq (h : ts.LeavesAfter n t u) : ts.boundErasure t = u := by
  rw [boundErasure, h.followBounds_iff.mpr ⟨Nat.lt_succ_of_le h.le_size, rfl⟩, Option.getD_some]

/-- Nothing is found exactly if the chain stays in the variables. -/
theorem followBounds_eq_none_iff (hdeclared : ts.DeclaresChain t) :
    ts.followBounds (ts.typeVars.size + 1) t = none ↔ ts.StaysInVars t := by
  refine ⟨fun hnone => ?_, fun h => h.followBounds_eq_none _⟩
  by_contra h
  obtain ⟨n, u, hchain⟩ := exists_leavesAfter hdeclared h
  have hfound := hchain.followBounds_iff.mpr ⟨Nat.lt_succ_of_le hchain.le_size, rfl⟩
  exact nomatch hnone.symm.trans hfound

/-- The root class is the bound erasure of what ends in it and of what does not end. -/
theorem boundErasure_eq_object_iff (hdeclared : ts.DeclaresChain t) :
    ts.boundErasure t = .object ↔ ts.StaysInVars t ∨ ∃ n, ts.LeavesAfter n t .object := by
  by_cases h : ts.StaysInVars t
  · rw [boundErasure, h.followBounds_eq_none]
    exact ⟨fun _ => .inl h, fun _ => rfl⟩
  · obtain ⟨n, u, hchain⟩ := exists_leavesAfter hdeclared h
    rw [hchain.boundErasure_eq]
    refine ⟨?_, fun hends => ?_⟩
    · rintro rfl
      exact .inr ⟨n, hchain⟩
    · obtain ⟨m, hobject⟩ := hends.resolve_left h
      exact (hchain.unique hobject).2

open Canonicalizer in
/-- With `n` variables, just the numbers of steps above `n` are enough for every chain that ends. -/
theorem followBounds_suffices_iff (n k : Nat) :
    (∀ s, Reachable s → s.types.typeVars.size = n → ∀ m ty u, s.types.LeavesAfter m ty u →
      s.types.followBounds k ty = some u) ↔ n < k := by
  constructor
  · intro h
    obtain ⟨s, hs, hsize, ty, -, hchain⟩ := exists_longChain n
    exact (hchain.followBounds_iff.mp (h s hs hsize n ty _ hchain)).1
  · intro hlt s _ hsize m ty u hchain
    exact hchain.followBounds_iff.mpr ⟨hchain.le_size.trans_lt (hsize ▸ hlt), rfl⟩

open Canonicalizer in
/-- Whatever the bounds, the bound erasure of a type is no type variable. It is the type for which the
chain of bounds leaves the variables, however far that is. A chain that never leaves them runs into a
cycle; for just these chains nothing is found, so that the root class is the answer. The number of
steps is the least that does this for all type systems with as many variables. -/
theorem boundErasure_exact :
    (∀ ts : TypeSystem, ts.kind .object = .raw .object → ∀ ty,
      ¬ ts.IsVar (ts.boundErasure ty) ∧
      (∀ n u, ts.LeavesAfter n ty u → ts.boundErasure ty = u) ∧
      (ts.StaysInVars ty ↔ ts.IsCyclic ty) ∧
      (ts.DeclaresChain ty →
        (ts.followBounds (ts.typeVars.size + 1) ty = none ↔ ts.StaysInVars ty) ∧
        (ts.boundErasure ty = .object ↔ ts.StaysInVars ty ∨ ∃ n, ts.LeavesAfter n ty .object))) ∧
    ∀ n k, (∀ s, Reachable s → s.types.typeVars.size = n → ∀ m ty u, s.types.LeavesAfter m ty u →
      s.types.followBounds k ty = some u) ↔ n < k := by
  refine ⟨fun ts hobject ty => ⟨?_, ?_, staysInVars_iff_isCyclic, fun hdeclared => ?_⟩,
    followBounds_suffices_iff⟩
  · exact fun ⟨v, hv⟩ => kind_boundErasure_ne_var hobject ty v hv
  · exact fun _ _ hchain => hchain.boundErasure_eq
  · exact ⟨followBounds_eq_none_iff hdeclared, boundErasure_eq_object_iff hdeclared⟩

end TypeSystem

namespace Canonicalizer

/-- A session with two type variables that bound each other, one that is bounded by them, and two in
a row with strings as their bound. -/
def mutualSession : Canonicalizer :=
  let s := (fresh .initial).declared (.addMethodTypeParam "T" none)
  let s := (s.asked (.typeVar ⟨0⟩)).declared (.addMethodTypeParam "U" (some ⟨13⟩))
  let s := (s.asked (.typeVar ⟨1⟩)).declared (.setBound ⟨0⟩ ⟨14⟩)
  let s := s.declared (.addMethodTypeParam "V" (some ⟨14⟩))
  let s := (s.asked (.typeVar ⟨2⟩)).declared (.addMethodTypeParam "W" (some .string))
  let s := (s.asked (.typeVar ⟨3⟩)).declared (.addMethodTypeParam "X" (some ⟨16⟩))
  s.asked (.typeVar ⟨4⟩)

theorem mutualSession_reachable : Reachable mutualSession := by
  -- The steps make one goal, so that the prelude is evaluated once.
  suffices h : _ ∧ _ ∧ _ ∧ _ ∧ _ ∧ _ by
    obtain ⟨h₁, h₂, h₃, h₄, h₅, h₆⟩ := h
    exact .ask _ (.declare _ (.ask _ (.declare _ (.ask _ (.declare _ (.declare _ (.ask _ (.declare _
      (.ask _ (.declare _ .initial h₁) trivial) h₂) trivial) h₃) h₄) trivial) h₅) trivial) h₆) trivial
  unfold TypeSystem.Declaration.Admitted
  decide +kernel

/-- The variables that bound each other have the root class as their bound erasure, and the row is
followed to its end. -/
theorem boundErasure_exact_mutual :
    let ts := mutualSession.types
    ts.kind .object = .raw .object ∧ ts.DeclaresChain ⟨15⟩ ∧ ts.LeavesAfter 2 ⟨17⟩ .string ∧
      ts.IsCyclic ⟨15⟩ ∧ ts.boundErasure ⟨15⟩ = .object ∧ ¬ ts.IsVar (ts.boundErasure ⟨15⟩) ∧
      ts.boundErasure ⟨17⟩ = .string ∧ ts.followBounds 6 ⟨17⟩ = some .string := by
  intro ts
  have hstate : ts.kind .object = .raw .object ∧ ts.typeVars.size = 5 ∧
      (∀ i < ts.pool.size, ts.mentionsDeclared (ts.kind ⟨i⟩) = true) ∧
      (∀ i < ts.members.size, (ts.member ⟨i⟩).decl.index < ts.members.size) ∧
      ts.followBounds 6 ⟨15⟩ = none ∧ ts.kind ⟨17⟩ = .var ⟨4⟩ ∧ ts.bound? ⟨4⟩ = some ⟨16⟩ ∧
      ts.kind ⟨16⟩ = .var ⟨3⟩ ∧ ts.bound? ⟨3⟩ = some .string ∧ ts.kind .string = .raw .string := by
    decide +kernel
  obtain ⟨hobject, hsize, hkinds, hdecls, hnone, hx, hxbound, hw, hwbound, hstring⟩ := hstate
  have hdeclared : ts.DeclaresChain ⟨15⟩ :=
    TypeSystem.DeclaresVars.declaresChain (TypeSystem.Closed.of_entries hkinds hdecls).vars _
  have hrow : ts.LeavesAfter 2 ⟨17⟩ .string :=
    .bound ⟨_, hx, hxbound⟩ (.bound ⟨_, hw, hwbound⟩ (.here fun ⟨_, hv⟩ =>
      nomatch hstring.symm.trans hv))
  obtain ⟨hexact, hlong⟩ := TypeSystem.boundErasure_exact
  obtain ⟨hvar, -, hcyclic, hends⟩ := hexact ts hobject ⟨15⟩
  obtain ⟨hstays, hroot⟩ := hends hdeclared
  rw [hsize] at hstays
  have hcut := hstays.mp hnone
  refine ⟨hobject, hdeclared, hrow, hcyclic.mp hcut, hroot.mpr (.inl hcut), hvar,
    (hexact ts hobject ⟨17⟩).2.1 2 _ hrow, ?_⟩
  exact (hlong 5 6).mpr (Nat.lt_succ_self 5) mutualSession mutualSession_reachable hsize 2 _ _ hrow

end Canonicalizer

end Erasure
