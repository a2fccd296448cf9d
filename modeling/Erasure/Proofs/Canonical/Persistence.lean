/-
Whether a member has a canonical form does not change.

What is asked and made canonical in between neither gives an instance a canonical form nor takes it
away, and the error of an instance without one has the same text at all times. The main statements:

* `Outcome.error_eq`: an instance without a canonical form has none at any other time, and the
  errors are equal.
* `canonicalizeMember_error_iff`: whatever members were made canonical before, a member fails with
  the error that it fails with at the start.
-/
import Erasure.Proofs.Canonical.Link
import Erasure.Proofs.TypeSystem.Display

namespace Erasure.Canonicalizer

variable {s t u : Canonicalizer} {m : MemberId}

/-! ### Names -/

/-- The type variables of a session have names that were handed out. -/
theorem Reachable.varsNamed (h : Reachable s) : s.types.VarsNamed := by
  have hfresh : ∀ {ts : TypeSystem}, ts.VarsNamed → (fresh ts).types.VarsNamed := id
  induction h with
  | initial => exact hfresh TypeSystem.initial_varsNamed
  | declare d _ _ ih => exact TypeSystem.Declaration.run_varsNamed ih d
  | ask q hs hq ih => exact ih.of_extends (TypeSystem.Query.run_keeps hs.valid.types hq).grows
  | canonicalize c hs hacyclic hc ih =>
    exact ih.of_extends (Extends.types (Canonicalization.run_keeps hs.valid hacyclic hc).grows)
  | forget _ ih => exact hfresh ih

/-! ### One verdict at all times -/

section

variable (hs : s.Valid) (hacyclic : s.types.Acyclic) (ht : t.Valid) (hu : u.Valid)
  (hst : Store.Grows s t) (hsu : Store.Grows s u) (hm : s.types.HasMember m)
include hs hacyclic ht hu hst hsu hm

/-- An instance that no declared member explains has no canonical form at any other time. -/
theorem Outcome.not_canonical {e : CanonError} (h : Outcome m (.error e) t) (c : MemberId) :
    u.memo.members.find? m ≠ some c := by
  intro hfind
  obtain ⟨base, sub, outer, erased, hkind, herased, hsearch⟩ : ∃ base sub outer erased,
      t.types.pool.HasKind (t.types.member m).container (.inst base sub outer) ∧
        Answers (eraseOwnTypeParams m) erased t ∧
        t.Search base (t.types.member m).container erased none := by
    cases h with
    | unexplained hkind herased hsearch => exact ⟨_, _, _, _, hkind, herased, hsearch⟩
  have hmember := TypeSystem.member_of_le hst.le.1 hm
  have hmember' := TypeSystem.member_of_le hsu.le.1 hm
  rw [hmember] at hkind hsearch
  have hkind₀ := hkind.of_ge hst.le.1.1 (hs.types.keys hm.hasKey).container
  -- A declared member explains the instance at the other time, and it was tried before.
  obtain ⟨decl, hdecl, -, subst, e', hsubst, himage, hown⟩ :=
    (hu.members hfind).explained (hmember' ▸ hkind₀.of_le hsu.le.1.1)
  rw [hmember'] at hsubst himage
  rw [(Extends.types hsu).classDef_eq] at hdecl
  obtain ⟨subst', tried, hsubst', htried, hne⟩ :=
    hsearch.missed rfl decl ((Extends.types hst).classDef_eq base ▸ hdecl)
  obtain ⟨k, hk, -, hgeneric⟩ := (hs.types.classes base).members decl hdecl
  have hacyclicₜ := acyclic_of_grows hs hst hacyclic
  have hacyclicᵤ := acyclic_of_grows hs hsu hacyclic
  have htried' := ImageErased.of_answers hs ht hacyclic hst hk hkind₀ (htried.answers hkind hsubst')
  have himage' := ImageErased.of_answers hs hu hacyclic hsu hk hkind₀
    (himage.answers (hkind₀.of_le hsu.le.1.1) hsubst)
  have herased' := OwnErased.of_answers ht hacyclicₜ (hm.of_le hst.le.1) herased
  have hown' := OwnErased.of_answers hu hacyclicᵤ (hm.of_le hsu.le.1) hown
  exact hne (ImageErased.eq_ownErased hs ht hu hst hsu hkind₀.has (hs.types.keys hk).types hgeneric
    hm htried' herased' himage' hown')

/-- An instance without a canonical form has none at any other time, and the errors are equal. -/
theorem Outcome.error_eq (hnames : s.types.VarsNamed) {e : CanonError} (h : Outcome m (.error e) t)
    {result : Except CanonError MemberId} (h' : Outcome m result u) : result = .error e := by
  have hnot := h.not_canonical hs hacyclic ht hu hst hsu hm
  have hcontainer := (hs.types.keys hm.hasKey).container
  cases h with
  | unexplained _ _ _ =>
    cases h' with
    | canonical hfind => exact absurd hfind (hnot _)
    | unexplained _ _ _ =>
      rw [TypeSystem.member_of_le hst.le.1 hm, TypeSystem.member_of_le hsu.le.1 hm,
        TypeSystem.displayMember_of_extends hs.types hnames hst.types hm,
        TypeSystem.displayMember_of_extends hs.types hnames hsu.types hm,
        TypeSystem.display_of_extends hs.types hnames hst.types hcontainer,
        TypeSystem.display_of_extends hs.types hnames hsu.types hcontainer]

end

/-! ### Members one after the other -/

/-- The canonicalizer after members were made canonical, one after the other. -/
def afterMembers (s : Canonicalizer) (ms : List MemberId) : Canonicalizer :=
  ms.foldl (fun t m => ((canonicalizeMember m).run t).2) s

theorem afterMembers_keeps (hs : s.Valid) (hacyclic : s.types.Acyclic) {ms : List MemberId}
    (hms : ∀ m ∈ ms, s.types.HasMember m) :
    Store.Grows s (s.afterMembers ms) ∧ (s.afterMembers ms).Valid := by
  induction ms generalizing s with
  | nil => exact ⟨.refl s, hs⟩
  | cons m ms ih =>
    have hkeeps := canonicalizeMember_keeps hs hacyclic (hms m List.mem_cons_self)
    obtain ⟨hgrows, hvalid⟩ := ih hkeeps.valid (acyclic_of_grows hs hkeeps.grows hacyclic)
      fun n hn => (hms n (List.mem_cons_of_mem m hn)).of_le hkeeps.grows.le.1
    exact ⟨hkeeps.grows.trans hgrows, hvalid⟩

/-- Whatever members were made canonical before, a member fails with the error that it fails with at
the start. -/
theorem canonicalizeMember_error_iff (hs : Reachable s) (hacyclic : s.types.Acyclic)
    {ms : List MemberId} (hms : ∀ m ∈ ms, s.types.HasMember m) (hm : s.types.HasMember m)
    {e : CanonError} : ((canonicalizeMember m).run (s.afterMembers ms)).1 = .error e ↔
      ((canonicalizeMember m).run s).1 = .error e := by
  obtain ⟨hst, ht⟩ := afterMembers_keeps hs.valid hacyclic hms
  have hnow := canonicalizeMember_keeps hs.valid hacyclic hm
  have hlater := canonicalizeMember_keeps ht (acyclic_of_grows hs.valid hst hacyclic)
    (hm.of_le hst.le.1)
  have hgrows := hst.trans hlater.grows
  have hnames := hs.varsNamed
  constructor
  · intro herror
    have hpost : Outcome m (.error e) _ := herror ▸ hlater.post
    exact hpost.error_eq hs.valid hacyclic hlater.valid hnow.valid hgrows hnow.grows hm hnames
      hnow.post
  · intro herror
    have hpost : Outcome m (.error e) _ := herror ▸ hnow.post
    exact hpost.error_eq hs.valid hacyclic hnow.valid hlater.valid hnow.grows hgrows hm hnames
      hlater.post

end Erasure.Canonicalizer
