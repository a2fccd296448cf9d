/-
Pools made by the constructors of types.

A pool starts with the primitive types, the null type and the empty substitution, and grows by the
constructors, each applied to entries that are there. The main statements:

* `Construction.run_valid`, `Construction.le_run`: a constructor keeps a pool valid and its entries.
* `lubOf_eq_of_mem_iff`: the upper bound of a list of types depends on their set only.
* `Built.represents`: in every pool made so the number of a type stands for its kind, for good,
  parts are older than the whole, and the flags say what a walk through all levels would.
-/
import Erasure.Proofs.Pool.Flags

namespace Erasure.Pool

variable {p q : Pool}

/-! ### Constructors -/

/-- A constructor of types or substitutions with its arguments. -/
inductive Construction where
  | array (elem : TypeId)
  | rawClass (c : ClassId)
  | typeVar (v : TypeVarId)
  | instantiation (base : ClassId) (s : SubstId) (outer : Option TypeId)
  | internSubst (bs : List (TypeVarId × TypeId))
  | lubOf (tys : List TypeId)
  deriving Repr

namespace Construction

/-- The pool after a construction. -/
def run : Construction → Pool → Pool
  | array elem, p => (Pool.array elem p).2
  | rawClass c, p => (Pool.rawClass c p).2
  | typeVar v, p => (Pool.typeVar v p).2
  | instantiation base s outer, p => (Pool.instantiation base s outer p).2
  | internSubst bs, p => (Pool.internSubst bs p).2
  | lubOf tys, p => (Pool.lubOf tys p).2

/-- The arguments are entries of the pool. -/
def Admitted (p : Pool) : Construction → Prop
  | array elem => p.Has elem
  | rawClass _ | typeVar _ => True
  | instantiation _ s outer => (∃ bs, p.HasBindings s bs) ∧ ∀ u ∈ outer, p.Has u
  | internSubst bs => ∀ b ∈ bs, p.Has b.2
  | lubOf tys => ∀ u ∈ tys, p.Has u

theorem run_valid (hp : p.Valid) {c : Construction} (hc : c.Admitted p) : (c.run p).Valid := by
  cases c with
  | array elem => exact (array_computes hp hc).valid
  | rawClass c => exact (rawClass_computes hp c).valid
  | typeVar v => exact (typeVar_computes hp v).valid
  | instantiation base s outer =>
    -- the substitution may bind any variables, so this is more than `instantiation_computes` says
    obtain ⟨⟨bs, hs⟩, houter⟩ := hc
    exact hp.internKind (admits_inst hp hs houter)
  | internSubst bs => exact (internSubst_computes hp hc).valid
  | lubOf tys => exact (lubOf_computes hp hc).valid

theorem le_run (hp : p.Valid) {c : Construction} (hc : c.Admitted p) : p ≤ c.run p := by
  cases c with
  | array elem => exact le_internKind p _
  | rawClass c => exact le_internKind p _
  | typeVar v => exact le_internKind p _
  | instantiation base s outer => exact le_internKind p _
  | internSubst bs => exact le_internSubst p bs
  | lubOf tys => exact (lubOf_computes hp hc).grows.le

end Construction

/-- The second pool is made from the first by constructors. -/
inductive BuiltFrom (p : Pool) : Pool → Prop
  | refl : BuiltFrom p p
  | step {q : Pool} (c : Construction) : BuiltFrom p q → c.Admitted q → BuiltFrom p (c.run q)

/-- The pool is made by constructors from the one that holds the primitive types, the null type and
the empty substitution. -/
def Built (p : Pool) : Prop := BuiltFrom initial p

theorem BuiltFrom.valid (hp : p.Valid) (h : BuiltFrom p q) : q.Valid := by
  induction h with
  | refl => exact hp
  | step c _ hc ih => exact Construction.run_valid ih hc

theorem BuiltFrom.le (hp : p.Valid) (h : BuiltFrom p q) : p ≤ q := by
  induction h with
  | refl => exact le_refl p
  | step c hq hc ih => exact ih.trans (Construction.le_run (hq.valid hp) hc)

theorem initial_valid : initial.Valid := by
  refine .of_erased (fun r => ?_) ?_ ?_ ?_ ?_
  · cases r <;> decide +kernel
  all_goals decide +kernel

theorem Built.valid (h : Built p) : p.Valid := BuiltFrom.valid initial_valid h

/-! ### What a constructor answers -/

/-- The upper bound of a list of types depends on their set only. -/
theorem lubOf_eq_of_mem_iff {tys us : List TypeId} (h : ∀ u, u ∈ tys ↔ u ∈ us) :
    lubOf tys = lubOf us := by
  have hset : Candidates.ofList tys = Candidates.ofList us := by
    refine (Candidates.sorted_ofList tys).eq_of_mem_iff (Candidates.sorted_ofList us) fun u => ?_
    rw [Candidates.mem_ofList, Candidates.mem_ofList, h u]
  rw [lubOf, lubOf, hset]

/-- The upper bound of a set of types is the same type in every later pool. -/
theorem lubOf_again (hp : p.Valid) {tys us : List TypeId} (htys : ∀ u ∈ tys, p.Has u)
    (h : ∀ u, u ∈ tys ↔ u ∈ us) (hle : (lubOf tys p).2 ≤ q) :
    lubOf us q = ((lubOf tys p).1, q) := by
  rw [← lubOf_eq_of_mem_iff h]
  exact (lubOf_computes hp htys).again q hle

/-- Two types of a pool are one type if they have one kind. -/
theorem eq_iff_kind_eq {t u : TypeId} (ht : p.Has t) (hu : p.Has u) :
    t = u ↔ p.kind t = p.kind u :=
  ⟨fun h => h ▸ rfl, fun h => ht.hasKind.inj (h ▸ hu.hasKind)⟩

/-- In every pool that is made by constructors:

* two types are one exactly if their kinds are, and keep their kinds in all pools made from it;
* the types that a kind refers to, itself, in its bindings and among its candidates, are older than
  the type;
* candidate sets are in increasing order and have no single member, and the upper bound of a list of
  types depends on their set only, also in the pools made from it;
* the flags tell whether a type variable, an instantiation or an open upper bound occurs at any
  depth, and whether the type itself is an array, primitive or a reference. -/
theorem Built.represents (h : Built p) :
    (∀ t u, p.Has t → p.Has u → (t = u ↔ p.kind t = p.kind u)) ∧
      (∀ q, BuiltFrom p q → ∀ ty, p.Has ty → q.Has ty ∧ q.kind ty = p.kind ty) ∧
      (∀ ty, p.Has ty → ∀ u ∈ p.parts (p.kind ty), u.index < ty.index) ∧
      (∀ l cs, p.HasCandidates l cs → cs.Pairwise (·.index < ·.index) ∧ cs.length ≠ 1) ∧
      (∀ tys us, (∀ u ∈ tys, p.Has u) → (∀ u, u ∈ tys ↔ u ∈ us) → lubOf tys p = lubOf us p ∧
        ∀ q, BuiltFrom (lubOf tys p).2 q → lubOf us q = ((lubOf tys p).1, q)) ∧
      ∀ ty, p.Has ty →
        ((p.flags ty).hasVar = true ↔ ∃ v, p.Occurs (.var v) ty) ∧
        ((p.flags ty).hasInst = true ↔ ∃ base s outer, p.Occurs (.inst base s outer) ty) ∧
        ((p.flags ty).hasLub = true ↔ ∃ l, p.Occurs (.lub l) ty) ∧
        ((p.flags ty).isArray = true ↔ ∃ elem, p.kind ty = .array elem) ∧
        ((p.flags ty).isPrimitive = true ↔ ∃ r, p.kind ty = .prim r) ∧
        ((p.flags ty).isReference = true ↔ ∀ r, p.kind ty ≠ .prim r) := by
  have hp := h.valid
  refine ⟨fun t u => eq_iff_kind_eq, fun q hq ty hty => ?_, fun ty hty => hp.parts_lt hty.hasKind,
    fun l cs hcs => ?_, fun tys us htys hset => ?_, fun ty hty => ?_⟩
  · exact ⟨hty.of_le (hq.le hp), kind_of_le (hq.le hp) hty⟩
  · exact ⟨(hp.candidates hcs).1, (hp.candidates hcs).2.1⟩
  · refine ⟨by rw [lubOf_eq_of_mem_iff hset], fun q hq => ?_⟩
    exact lubOf_again hp htys hset (hq.le (lubOf_computes hp htys).valid)
  · refine ⟨hasVar_iff_occurs hp hty, hasInst_iff_occurs hp hty, hasLub_iff_occurs hp hty, ?_⟩
    rw [flags_of_head TypeFlags.isArray (fun _ _ => rfl) hp hty,
      flags_of_head TypeFlags.isPrimitive (fun _ _ => rfl) hp hty,
      flags_of_head TypeFlags.isReference (fun _ _ => rfl) hp hty]
    cases p.kind ty <;> simp [TypeKind.headFlags]

/-! ### An example -/

/-- A pool with an instantiation whose argument is a type variable, and the upper bound of an array
of that instantiation and a raw class. -/
def boxPool : Pool :=
  let p := (Construction.typeVar ⟨0⟩).run initial
  let p := (Construction.internSubst [(⟨0⟩, ⟨10⟩)]).run p
  let p := (Construction.instantiation ⟨1⟩ ⟨1⟩ none).run p
  let p := (Construction.array ⟨11⟩).run p
  let p := (Construction.rawClass ⟨0⟩).run p
  (Construction.lubOf [⟨13⟩, ⟨12⟩, ⟨13⟩]).run p

theorem boxPool_built : Built boxPool := by
  have hvar : Built ((Construction.typeVar ⟨0⟩).run initial) := .step _ .refl trivial
  have hsubst := hvar.step (.internSubst [(⟨0⟩, ⟨10⟩)])
    (List.forall_mem_singleton.mpr (by decide +kernel))
  have hinst := hsubst.step (.instantiation ⟨1⟩ ⟨1⟩ none)
    ⟨⟨[(⟨0⟩, ⟨10⟩)], by decide +kernel⟩, nofun⟩
  have harray := hinst.step (.array ⟨11⟩) (by decide +kernel : Has _ _)
  have hraw := harray.step (.rawClass ⟨0⟩) trivial
  exact hraw.step (.lubOf [⟨13⟩, ⟨12⟩, ⟨13⟩])
    (by decide +kernel : ∀ u ∈ [(⟨13⟩ : TypeId), ⟨12⟩, ⟨13⟩], Has _ u)

/-- The type variable occurs in the upper bound, three levels down, and its flags say so. -/
theorem Built.represents_box : Built boxPool ∧ boxPool.kind ⟨14⟩ = .lub ⟨0⟩ ∧
    (∃ v, boxPool.Occurs (.var v) ⟨14⟩) ∧ (boxPool.flags ⟨14⟩).isArray = false := by
  obtain ⟨-, -, -, -, -, hflags⟩ := Built.represents boxPool_built
  obtain ⟨hvar, -⟩ := hflags ⟨14⟩ (by decide +kernel)
  exact ⟨boxPool_built, by decide +kernel, hvar.mp (by decide +kernel), by decide +kernel⟩

end Erasure.Pool
