/-
How far a join depends on the order of its candidates.

Two lists with the same types are joined by the same rules, down to the candidates whose classes
decide (`DecidedBy`). There the class is taken that comes first in the closure of the first
candidate, so that with several preferred classes the order of the candidates shows. The main
statements:

* `JoinsTo.compare`: the forms of the joins of two such lists are one form exactly if the same class
  is taken.
* `join_eq_iff`: so it is with the types that are answered, in particular where one class only can
  be preferred.
-/
import Erasure.Proofs.Joins.UpperBound

namespace Erasure.TypeSystem

variable {ts : TypeSystem} {xs ys zs ws elems : List TypeId} {form form' : JoinForm} {c d : ClassId}

/-! ### Lists with the same types -/

section Same

variable (hset : ∀ t, t ∈ xs ↔ t ∈ ys)
include hset

theorem mem_nonNull_iff (t : TypeId) : t ∈ nonNull xs ↔ t ∈ nonNull ys := by simp [hset t]

theorem Differ.of_mem_iff (h : Differ xs) : Differ ys := by
  obtain ⟨t, ht, u, hu, hne⟩ := h
  exact ⟨t, (mem_nonNull_iff hset t).mp ht, u, (mem_nonNull_iff hset u).mp hu, hne⟩

theorem arrayElements?_eq_none_of_mem_iff (h : ts.arrayElements? xs = none) :
    ts.arrayElements? ys = none := by
  obtain ⟨t, ht, hk⟩ := arrayElements?_eq_none_iff.mp h
  exact arrayElements?_eq_none_iff.mpr ⟨t, (hset t).mp ht, hk⟩

theorem exists_arrayElements?_of_mem_iff (h : ts.arrayElements? xs = some elems) :
    ∃ elems', ts.arrayElements? ys = some elems' ∧ ∀ e, e ∈ elems ↔ e ∈ elems' := by
  cases h' : ts.arrayElements? ys with
  | none => simp [arrayElements?_eq_none_of_mem_iff (fun t => (hset t).symm) h'] at h
  | some elems' =>
    refine ⟨elems', rfl, fun e => ?_⟩
    simp [mem_of_arrayElements? h, mem_of_arrayElements? h', hset]

end Same

/-! ### The candidates that decide -/

/-- The join of the first list is decided by the classes of the second: its candidates that count,
or those of the elements if it is one of arrays. -/
inductive DecidedBy (ts : TypeSystem) : List TypeId → List TypeId → Prop
  | here {xs : List TypeId} : Differ xs → ts.arrayElements? (nonNull xs) = none →
      DecidedBy ts xs (nonNull xs)
  | elems {xs elems zs : List TypeId} : Differ xs → ts.arrayElements? (nonNull xs) = some elems →
      (∀ e ∈ elems, ts.isReference e = true) → DecidedBy ts elems zs → DecidedBy ts xs zs

theorem DecidedBy.differ (h : ts.DecidedBy xs zs) : Differ xs := by
  cases h <;> assumption

theorem DecidedBy.of_none (h : ts.DecidedBy xs zs) (hnone : ts.arrayElements? (nonNull xs) = none) :
    zs = nonNull xs := by
  cases h with
  | here => rfl
  | elems _ helems _ _ => cases helems.symm.trans hnone

theorem DecidedBy.of_elems (h : ts.DecidedBy xs zs)
    (helems : ts.arrayElements? (nonNull xs) = some elems) :
    (∀ e ∈ elems, ts.isReference e = true) ∧ ts.DecidedBy elems zs := by
  cases h with
  | here _ hnone => cases helems.symm.trans hnone
  | elems _ helems' hrefs h =>
    cases helems.symm.trans helems'
    exact ⟨hrefs, h⟩

/-- A list is decided by one list only. -/
theorem DecidedBy.unique (h : ts.DecidedBy xs zs) (h' : ts.DecidedBy xs ws) : zs = ws := by
  induction h with
  | here _ hnone => exact (h'.of_none hnone).symm
  | elems _ helems _ _ ih => exact ih (h'.of_elems helems).2

/-- Lists with the same types are decided by lists with the same types. -/
theorem DecidedBy.mem_iff (hx : ts.DecidedBy xs zs) (hy : ts.DecidedBy ys ws)
    (hset : ∀ t, t ∈ xs ↔ t ∈ ys) : ∀ t, t ∈ zs ↔ t ∈ ws := by
  induction hx generalizing ys ws with
  | here _ hnone =>
    rw [hy.of_none (arrayElements?_eq_none_of_mem_iff (mem_nonNull_iff hset) hnone)]
    exact mem_nonNull_iff hset
  | elems _ helems _ _ ih =>
    have hset' := mem_nonNull_iff hset
    obtain ⟨elems', helems', hsame⟩ := exists_arrayElements?_of_mem_iff hset' helems
    exact ih (hy.of_elems helems').2 hsame

/-- Where one list is decided by classes, so is every list with the same types. -/
theorem DecidedBy.exists_of_mem_iff (hx : ts.DecidedBy xs zs) (hset : ∀ t, t ∈ xs ↔ t ∈ ys) :
    ∃ ws, ts.DecidedBy ys ws := by
  induction hx generalizing ys with
  | here hdiffer hnone =>
    exact ⟨_, .here (hdiffer.of_mem_iff hset)
      (arrayElements?_eq_none_of_mem_iff (mem_nonNull_iff hset) hnone)⟩
  | elems hdiffer helems hrefs _ ih =>
    have hset' := mem_nonNull_iff hset
    obtain ⟨elems', helems', hsame⟩ := exists_arrayElements?_of_mem_iff hset' helems
    obtain ⟨ws, hws⟩ := ih hsame
    exact ⟨ws, .elems (hdiffer.of_mem_iff hset) helems'
      (fun e he => hrefs e ((hsame e).mpr he)) hws⟩

/-! ### Comparing joins -/

/-- Whatever decides the two lists, the same class is taken. -/
def TakesSame (ts : TypeSystem) (xs ys : List TypeId) : Prop :=
  ∀ zs ws, ts.DecidedBy xs zs → ts.DecidedBy ys ws → ts.commonClass? zs = ts.commonClass? ws

/-- The same class is taken for two lists with the same types if and only if their joins have one
form, and forms in which another class is taken are those of different types. -/
theorem JoinsTo.compare (hx : ts.JoinsTo xs form) (hy : ts.JoinsTo ys form')
    (hset : ∀ t, t ∈ xs ↔ t ∈ ys) :
    (ts.TakesSame xs ys → form' = form) ∧
      ∀ {p r}, HasForm p r form → HasForm p r form' → ts.TakesSame xs ys := by
  have hset' := mem_nonNull_iff hset
  induction hx generalizing ys form' with
  | null hnil =>
    have hnil' : nonNull ys = [] := List.eq_nil_iff_forall_not_mem.mpr fun t ht => by
      simpa [hnil] using (hset' t).mpr ht
    exact ⟨fun _ => hy.of_nil hnil', fun _ _ zs _ hzs _ => absurd hnil hzs.differ.ne_nil⟩
  | same ht hall =>
    have hform := hy.of_same ((hset' _).mp ht) fun u hu => hall u ((hset' u).mpr hu)
    exact ⟨fun _ => hform, fun _ _ zs _ hzs _ => absurd hall hzs.differ.not_eq⟩
  | @elems xs elems form hdiffer helems hrefs _ ih =>
    obtain ⟨elems', helems', hsame⟩ := exists_arrayElements?_of_mem_iff hset' helems
    have hrefs' : ∀ e ∈ elems', ts.isReference e = true := fun e he => hrefs e ((hsame e).mpr he)
    have hdiffer' := hdiffer.of_mem_iff hset
    obtain ⟨form', rfl, hform⟩ := hy.of_elems hdiffer' helems' hrefs'
    obtain ⟨heq, hne⟩ := ih hform hsame (mem_nonNull_iff hsame)
    refine ⟨fun htakes => ?_, fun hr hr' zs ws hzs hws => ?_⟩
    · rw [heq fun zs ws hzs hws => htakes zs ws (.elems hdiffer helems hrefs hzs)
        (.elems hdiffer' helems' hrefs' hws)]
    · cases hr with
      | array hk hr =>
        cases hr' with
        | array hk' hr' =>
          cases hk.unique hk'
          exact hne hr hr' zs ws (hzs.of_elems helems).2 (hws.of_elems helems').2
  | arrays hdiffer helems he href =>
    obtain ⟨elems', helems', hsame⟩ := exists_arrayElements?_of_mem_iff hset' helems
    refine ⟨fun _ => hy.of_arrays (hdiffer.of_mem_iff hset) helems' ((hsame _).mp he) href, ?_⟩
    intro _ _ _ _ zs _ hzs _
    simp [(hzs.of_elems helems).1 _ he] at href
  | @common xs c hdiffer hnone hcommon =>
    have hnone' := arrayElements?_eq_none_of_mem_iff hset' hnone
    have hform := hy.of_common (hdiffer.of_mem_iff hset) hnone'
    refine ⟨fun htakes => ?_, fun hr hr' zs ws hzs hws => ?_⟩
    · have hsame := htakes _ _ (.here hdiffer hnone) (.here (hdiffer.of_mem_iff hset) hnone')
      rw [hform, ← hsame, hcommon]
      rfl
    · obtain ⟨d, hother⟩ := exists_commonClass?_of_mem_iff hset' hcommon
      rw [hform, hother] at hr'
      rw [hzs.of_none hnone, hws.of_none hnone', hcommon, hother]
      cases hr with
      | raw hk =>
        cases hr' with
        | raw hk' =>
          cases hk.unique hk'
          rfl
  | root hdiffer hnone hcommon =>
    have hnone' := arrayElements?_eq_none_of_mem_iff hset' hnone
    have hcommon' := commonClass?_eq_none_of_mem_iff hset' hcommon
    refine ⟨fun _ => ?_, fun _ _ zs ws hzs hws => ?_⟩
    · rw [hy.of_common (hdiffer.of_mem_iff hset) hnone', hcommon']
      rfl
    · rw [hzs.of_none hnone, hws.of_none hnone', hcommon, hcommon']

/-! ### What is answered -/

/-- Two lists with the same types have one join if and only if the same class is taken. -/
theorem join_eq_join_iff (hts : ts.Valid) (hset : ∀ t, t ∈ xs ↔ t ∈ ys)
    (hhas : ∀ t ∈ xs, ts.pool.Has t) (hrefs : ∀ t ∈ xs, ts.isReference t = true) :
    (join ys (join xs ts).2).1 = (join xs ts).1 ↔ ts.TakesSame xs ys := by
  have hjoin := join_keeps hts hhas hrefs
  obtain ⟨form, hform, hr⟩ := hjoin.post
  have hext : Extends ts _ := hjoin.grows
  have hhas' : ∀ t ∈ ys, ts.pool.Has t := fun t ht => hhas t ((hset t).mpr ht)
  have hrefs' : ∀ t ∈ ys, ts.isReference t = true := fun t ht => hrefs t ((hset t).mpr ht)
  have hjoin' := join_keeps hjoin.valid (fun t ht => (hhas' t ht).of_le hext.le.1) fun t ht =>
    ((hext.preserves hts).isReference_eq (hhas' t ht)).trans (hrefs' t ht)
  obtain ⟨form', hform', hr'⟩ := hjoin'.post
  rw [joinsTo_iff_of_extends hts hhas' hrefs' hjoin.valid hext] at hform'
  obtain ⟨heq, htakes⟩ := hform.compare hform' hset
  have hr := hr.of_le (Store.Grows.le hjoin'.grows).1
  constructor
  · intro hsame
    rw [hsame] at hr'
    exact htakes hr hr'
  · intro hsame
    rw [heq hsame] at hr'
    exact hr'.unique hr

/-- Two lists with the same reference types have one join if and only if the same class is taken for
the candidates that decide, and an upper bound that is left open is computed as the join of a list
if and only if the same class is taken for its candidates in the order of their numbers. The lists
are decided by lists with the same types, the classes taken are both preferred among those above
these, and the joins are one type whenever one class only is preferred. -/
theorem join_eq_iff (hts : ts.Valid) (hset : ∀ t, t ∈ xs ↔ t ∈ ys)
    (hhas : ∀ t ∈ xs, ts.pool.Has t) (hrefs : ∀ t ∈ xs, ts.isReference t = true) :
    let r := (join xs ts).1
    let us := (join xs ts).2
    ((join ys us).1 = r ↔ ts.TakesSame xs ys) ∧
      (∀ t l, ts.pool.HasKind t (.lub l) → (∀ u, u ∈ xs ↔ u ∈ ts.pool.candidates l) →
        ((resolveLub t us).1 = r ↔ ts.TakesSame xs (ts.pool.candidates l))) ∧
      (∀ zs, ts.DecidedBy xs zs → ∃ ws, ts.DecidedBy ys ws ∧ (∀ t, t ∈ zs ↔ t ∈ ws) ∧
        ∀ c d, ts.commonClass? zs = some c → ts.commonClass? ws = some d →
          ts.IsPreferred zs c ∧ ts.IsPreferred zs d) ∧
      ((∀ zs, ts.DecidedBy xs zs → ∀ c d, ts.IsPreferred zs c → ts.IsPreferred zs d → c = d) →
        (join ys us).1 = r) := by
  have hiff := join_eq_join_iff hts hset hhas hrefs
  refine ⟨hiff, fun t l hk hcandidates => ?_, fun zs hzs => ?_, fun hunique => ?_⟩
  · have hext : Extends ts _ := (join_keeps hts hhas hrefs).grows
    have hl := candidates_of_le hts hext.le hk.has hk.kind_eq
    have hk' := (hk.of_le hext.le.1).kind_eq
    rw [resolveLub, get_bind_apply, kind, hk']
    dsimp only
    rw [hl]
    exact join_eq_join_iff hts hcandidates hhas hrefs
  · obtain ⟨ws, hws⟩ := hzs.exists_of_mem_iff hset
    have hsame := hzs.mem_iff hws hset
    exact ⟨ws, hws, hsame, fun c d hc hd => ⟨isPreferred_of_commonClass? hc,
      (isPreferred_of_commonClass? hd).of_mem_iff fun t => (hsame t).symm⟩⟩
  · refine hiff.mpr fun zs ws hzs hws => ?_
    exact (commonClass?_eq_of_mem_iff (hzs.mem_iff hws hset) (hunique zs hzs)).symm

end Erasure.TypeSystem

namespace Erasure.Canonicalizer

/-- A session in which two classes implement the interfaces `Left` and `Right`, named in different
orders, with arrays of both classes and the open upper bound of these and the null type. -/
def tieSession : Canonicalizer :=
  let s := (fresh .initial).declared (.declareClass "Left" { isInterface := true })
  let s := s.declared (.declareClass "Right" { isInterface := true })
  let s := (s.declared (.declareClass "A" {})).declared (.declareClass "B" {})
  let s := (s.asked (.rawClass ⟨2⟩)).asked (.rawClass ⟨3⟩)
  let s := (s.asked (.rawClass ⟨4⟩)).asked (.rawClass ⟨5⟩)
  let s := (s.declared (.addInterface ⟨4⟩ ⟨13⟩)).declared (.addInterface ⟨4⟩ ⟨14⟩)
  let s := (s.declared (.addInterface ⟨5⟩ ⟨14⟩)).declared (.addInterface ⟨5⟩ ⟨13⟩)
  let s := (s.asked (.array ⟨15⟩)).asked (.array ⟨16⟩)
  s.asked (.lubOf [.null, ⟨17⟩, ⟨18⟩])

theorem tieSession_reachable : Reachable tieSession := by
  refine .ask _ (.ask _ (.ask _ (.declare _ (.declare _ (.declare _ (.declare _ (.ask _ (.ask _
    (.ask _ (.ask _ (.declare _ (.declare _ (.declare _ (.declare _ .initial ?_) ?_) ?_) ?_) ?_) ?_)
    ?_) ?_) ?_) ?_) ?_) ?_) ?_) ?_) ?_
  iterate 8 exact trivial
  iterate 4
    unfold TypeSystem.Declaration.Admitted
    decide +kernel
  all_goals
    unfold TypeSystem.Query.Admitted TypeSystem.HasAll
    decide +kernel

/-- Arrays of both classes are joined to arrays of `Left` or of `Right`, depending on which class
comes first. The upper bound that is left open is computed in one of these orders. -/
theorem join_eq_iff_tie :
    let ts := tieSession.types
    let r := (TypeSystem.join [⟨17⟩, .null, ⟨18⟩] ts).1
    let us := (TypeSystem.join [⟨17⟩, .null, ⟨18⟩] ts).2
    (TypeSystem.join [⟨18⟩, ⟨17⟩, .null] us).1 ≠ r ∧ (TypeSystem.resolveLub ⟨19⟩ us).1 = r ∧
      ts.IsPreferred [⟨15⟩, ⟨16⟩] ⟨2⟩ ∧ ts.IsPreferred [⟨15⟩, ⟨16⟩] ⟨3⟩ := by
  intro ts r us
  have hset : ∀ t, t ∈ ([⟨17⟩, .null, ⟨18⟩] : List TypeId) ↔
      t ∈ ([⟨18⟩, ⟨17⟩, .null] : List TypeId) := fun t => by simp; tauto
  have hopen : ∀ t, t ∈ ([⟨17⟩, .null, ⟨18⟩] : List TypeId) ↔
      t ∈ ([.null, ⟨17⟩, ⟨18⟩] : List TypeId) := fun t => by simp; tauto
  obtain ⟨hcandidates, helems, helems', hnone, hnone', hrefs, hclass, hclass'⟩ :
      ts.pool.candidates ⟨0⟩ = [.null, ⟨17⟩, ⟨18⟩] ∧
        ts.arrayElements? [⟨17⟩, ⟨18⟩] = some [⟨15⟩, ⟨16⟩] ∧
        ts.arrayElements? [⟨18⟩, ⟨17⟩] = some [⟨16⟩, ⟨15⟩] ∧
        ts.arrayElements? [⟨15⟩, ⟨16⟩] = none ∧ ts.arrayElements? [⟨16⟩, ⟨15⟩] = none ∧
        (∀ e ∈ ([⟨15⟩, ⟨16⟩] : List TypeId), ts.isReference e = true) ∧
        ts.commonClass? [⟨15⟩, ⟨16⟩] = some ⟨2⟩ ∧ ts.commonClass? [⟨16⟩, ⟨15⟩] = some ⟨3⟩ := by
    decide +kernel
  have hleft : ts.DecidedBy [⟨17⟩, .null, ⟨18⟩] [⟨15⟩, ⟨16⟩] :=
    .elems (by decide) helems hrefs (.here (by decide) hnone)
  have hright : ts.DecidedBy [⟨18⟩, ⟨17⟩, .null] [⟨16⟩, ⟨15⟩] :=
    .elems (by decide) helems' (by simpa [and_comm] using hrefs) (.here (by decide) hnone')
  have hlub : ts.DecidedBy (ts.pool.candidates ⟨0⟩) [⟨15⟩, ⟨16⟩] :=
    hcandidates ▸ .elems (by decide) helems hrefs (.here (by decide) hnone)
  obtain ⟨hjoin, hresolve, hpreferred, -⟩ := TypeSystem.join_eq_iff
    tieSession_reachable.valid.types hset (by decide +kernel) (by decide +kernel)
  rw [← hcandidates] at hopen
  obtain ⟨ws, hws, -, hboth⟩ := hpreferred _ hleft
  cases hws.unique hright
  obtain ⟨hl, hr⟩ := hboth ⟨2⟩ ⟨3⟩ hclass hclass'
  refine ⟨fun heq => ?_, (hresolve ⟨19⟩ ⟨0⟩ (by decide +kernel) hopen).mpr ?_, hl, hr⟩
  · have hsame := hjoin.mp heq _ _ hleft hright
    exact absurd (hclass.symm.trans (hsame.trans hclass')) (by decide)
  · intro zs ws hzs hws
    rw [hzs.unique hleft, hws.unique hlub]

end Erasure.Canonicalizer
