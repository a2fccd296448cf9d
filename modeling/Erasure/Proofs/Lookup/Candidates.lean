/-
How a lookup chooses among the methods of a name.

A lookup goes through the methods one after the other, and makes of each what the type above the
container sees of it. That adds to the type system, but changes nothing about what is applicable. So the
candidates can as well be told when all methods have been seen. The main statements:

* `methodCandidates_apply`: the candidates are told from the methods seen.
* `mem_candidatesAmong`, `nodup_formals_candidatesAmong`, `exists_candidate`: the candidates are
  applicable, and for all formals of an applicable method there is one of them.
* `findMethod_eq_ok_iff`: a lookup answers the candidate that converts to all others, if no other
  converts to it.
* `findMethod_eq_ok_iff_rivals`, `findMethod_of_ne`: so it comes to the applicable methods with other
  formals whether a candidate is found.
-/
import Erasure.Proofs.Strings.RawClass
import Erasure.Proofs.Subtyping.Outline

namespace Erasure

/-! ### Lists -/

theorem forall₂_trans_of_mem {α : Type} {P : α → α → Prop} {xs ys zs : List α}
    (h : ∀ x ∈ xs, ∀ y ∈ ys, ∀ z ∈ zs, P x y → P y z → P x z) (hxy : List.Forall₂ P xs ys)
    (hyz : List.Forall₂ P ys zs) : List.Forall₂ P xs zs := by
  induction hxy generalizing zs with
  | nil => exact hyz
  | @cons x y xs ys hxy _ ih =>
    cases hyz with
    | @cons _ z _ zs hyz hrest =>
      refine .cons (h x List.mem_cons_self y List.mem_cons_self z List.mem_cons_self hxy hyz) ?_
      refine ih (fun x hx y hy z hz => ?_) hrest
      exact h x (List.mem_cons_of_mem _ hx) y (List.mem_cons_of_mem _ hy) z
        (List.mem_cons_of_mem _ hz)

theorem eq_singleton_iff_of_nodup {α : Type} {l : List α} (hl : l.Nodup) {a : α} :
    l = [a] ↔ a ∈ l ∧ ∀ b ∈ l, b = a := by
  constructor
  · rintro rfl
    exact ⟨List.mem_cons_self, fun b hb => List.mem_singleton.mp hb⟩
  · rintro ⟨ha, hall⟩
    by_contra hne
    rcases (hl.ne_singleton_iff a).mp hne with rfl | ⟨b, hb, hne⟩
    · exact absurd ha List.not_mem_nil
    · exact hne (hall b hb)

namespace TypeSystem

variable {ts us : TypeSystem} {args : List TypeId} {n : Name}

/-! ### Methods seen -/

/-- The methods of a name that the types of a chain declare, each with its type. -/
def declaredOn (ts : TypeSystem) (chain : List TypeId) (name : Name) : List (MemberId × TypeId) :=
  chain.flatMap fun ty =>
    (((ts.classOf? ty).map fun c => ts.declaredMethods c name).getD []).map (·, ty)

/-- The methods of a name that the types of a chain declare, as these types see them. -/
def methodsSeen (chain : List TypeId) (name : Name) : StateM TypeSystem (List MemberId) := do
  ((← get).declaredOn chain name).mapM fun (decl, ty) => memberIn decl ty

/-- The candidates among the methods seen. -/
def candidatesAmong (ts : TypeSystem) (args : List TypeId) (methods : List MemberId) :
    List MemberId := methods.foldl (ts.withCandidate args) []

theorem mem_declaredOn {chain : List TypeId} {decl : MemberId} {ty : TypeId}
    (h : (decl, ty) ∈ ts.declaredOn chain n) :
    ty ∈ chain ∧ ∃ c, ts.classOf? ty = some c ∧ decl ∈ ts.declaredMethods c n := by
  obtain ⟨u, hu, hmem⟩ := List.mem_flatMap.mp h
  obtain ⟨m, hm, heq⟩ := List.mem_map.mp hmem
  cases heq
  refine ⟨hu, ?_⟩
  cases hc : ts.classOf? ty with
  | none =>
    rw [hc] at hm
    exact absurd hm List.not_mem_nil
  | some c =>
    rw [hc] at hm
    exact ⟨c, rfl, hm⟩

theorem Extends.declaredOn_eq (hts : ts.Valid) (hext : Extends ts us) {chain : List TypeId}
    (hchain : ts.HasAll chain) : us.declaredOn chain n = ts.declaredOn chain n := by
  unfold declaredOn
  rw [List.flatMap_def, List.flatMap_def]
  congr 1
  refine List.map_congr_left fun ty hty => ?_
  rw [classOf?_of_le hext.le (hchain ty hty)]
  cases ts.classOf? ty with
  | none => rfl
  | some c => simp [hext.declaredMethods_eq hts]

/-- A member that a type declares, and the type. -/
def HasDeclaration (ts : TypeSystem) (d : MemberId × TypeId) : Prop :=
  ts.HasMember d.1 ∧ ts.pool.Has d.2

theorem HasDeclaration.of_le (hle : ts ≤ us) {d : MemberId × TypeId} (h : ts.HasDeclaration d) :
    us.HasDeclaration d := ⟨h.1.of_le hle, h.2.of_le hle.1⟩

theorem hasDeclaration_of_mem (hts : ts.Valid) {chain : List TypeId} {d : MemberId × TypeId}
    (h : d ∈ ts.declaredOn chain n) : ts.HasDeclaration d := by
  obtain ⟨-, c, hc, hd⟩ := mem_declaredOn h
  exact ⟨hts.hasMember_of_declared (mem_declaredMethods hd).1, has_of_classOf? hc⟩

/-- The members that types see are members. -/
theorem mapM_memberIn_keeps (hts : ts.Valid) {decls : List (MemberId × TypeId)}
    (hdecls : ∀ d ∈ decls, ts.HasDeclaration d) :
    Keeps (decls.mapM fun d => memberIn d.1 d.2) ts
      fun methods us => ∀ m ∈ methods, us.HasMember m := by
  refine (Keeps.mapM (R := fun _ m us => us.HasMember m) ?_ hts ?_).mono ?_
  · exact fun _ _ _ _ hus hm => hm.of_le hus.le
  · intro d hd us hus hvalid
    have hd' := (hdecls d hd).of_le hus.le
    exact memberIn_keeps hvalid hd'.1 hd'.2
  · intro methods us _ _ hmethods m hm
    obtain ⟨_, -, hm⟩ := exists_of_forall₂_right hmethods hm
    exact hm

theorem methodsSeen_keeps (hts : ts.Valid) {chain : List TypeId} :
    Keeps (methodsSeen chain n) ts fun methods us => ∀ m ∈ methods, us.HasMember m :=
  Keeps.get_bind (mapM_memberIn_keeps hts fun _ hd => hasDeclaration_of_mem hts hd)

/-- A method is tested after a type has seen it. -/
theorem addMethodCandidate_apply (ty : TypeId) (candidates : List MemberId) (decl : MemberId) :
    addMethodCandidate args ty candidates decl ts =
      ((memberIn decl ty ts).2.withCandidate args candidates (memberIn decl ty ts).1,
        (memberIn decl ty ts).2) := by
  unfold addMethodCandidate withCandidate
  rw [bind_apply, get_bind_apply]
  split <;> rfl

theorem addMethodCandidate_grows (hts : ts.Valid) {d : MemberId × TypeId}
    (hd : ts.HasDeclaration d) (candidates : List MemberId) :
    Keeps (addMethodCandidate args d.2 candidates d.1) ts fun _ _ => True := by
  have himage := memberIn_keeps hts hd.1 hd.2
  refine ⟨?_, ?_, trivial⟩ <;> rw [addMethodCandidate_apply]
  · exact himage.grows
  · exact himage.valid

/-! ### Candidates of a lookup -/

/-- The methods of a chain are tested in a row. -/
theorem methodCandidates_eq_foldlM (hts : ts.Valid) {chain : List TypeId}
    (hchain : ts.HasAll chain) (candidates : List MemberId) :
    chain.foldlM (candidatesAt n args) candidates ts =
      (ts.declaredOn chain n).foldlM (fun ms d => addMethodCandidate args d.2 ms d.1)
        candidates ts := by
  induction chain generalizing ts candidates with
  | nil => rfl
  | cons ty chain ih =>
    let decls := ((ts.classOf? ty).map fun c => ts.declaredMethods c n).getD []
    have hsplit : ts.declaredOn (ty :: chain) n = decls.map (·, ty) ++ ts.declaredOn chain n := rfl
    have hfirst : candidatesAt n args candidates ty ts =
        (decls.map (·, ty)).foldlM (fun ms d => addMethodCandidate args d.2 ms d.1)
          candidates ts := by
      rw [List.foldlM_map]
      rfl
    have hkeeps : Keeps ((decls.map (·, ty)).foldlM
        (fun ms d => addMethodCandidate args d.2 ms d.1) candidates) ts fun _ _ => True := by
      refine Keeps.foldlM hts trivial fun d hd ms us hus hvalid _ => ?_
      refine addMethodCandidate_grows hvalid (HasDeclaration.of_le hus.le ?_) ms
      exact hasDeclaration_of_mem hts (hsplit ▸ List.mem_append_left _ hd)
    have hchain' : ts.HasAll chain := fun u hu => hchain u (List.mem_cons_of_mem _ hu)
    rw [hsplit, List.foldlM_append, List.foldlM_cons, bind_apply, bind_apply, hfirst,
      ih hkeeps.valid (hchain'.of_le hkeeps.grows.le), hkeeps.grows.declaredOn_eq hts hchain']

section

variable (hts : ts.Valid) (h : ts.WellFormed)
include hts h

/-- Growth without declarations changes nothing about what is applicable. -/
theorem isApplicable_of_extends (hext : Extends ts us) (hus : us.Valid) {m : MemberId}
    (hm : ts.HasMember m) (hargs : ts.HasAll args) :
    us.isApplicable m args = ts.isApplicable m args := by
  refine isApplicable_congr (member_of_le hext.le hm) fun formal hformal arg harg => ?_
  have hhas : ts.pool.Has formal :=
    (hts.keys hm.hasKey).types formal (MemberKind.mem_types_of_mem_formals hformal)
  rw [(hext.preserves hts).boundErasure_eq hhas]
  exact isAssignable_of_extends h hext hus.pool (hargs arg harg) (has_boundErasure hts hhas)

theorem withCandidate_of_extends (hext : Extends ts us) (hus : us.Valid) (hargs : ts.HasAll args)
    {candidates : List MemberId} (hcandidates : ∀ m ∈ candidates, ts.HasMember m) {decl : MemberId}
    (hdecl : ts.HasMember decl) :
    us.withCandidate args candidates decl = ts.withCandidate args candidates decl :=
  withCandidate_congr (member_of_le hext.le hdecl)
    (fun m hm => member_of_le hext.le (hcandidates m hm))
    (isApplicable_of_extends hts h hext hus hdecl hargs)

/-- Methods tested in a row can be seen first and tested when all were seen. -/
theorem foldlM_addMethodCandidate {decls : List (MemberId × TypeId)}
    (hdecls : ∀ d ∈ decls, ts.HasDeclaration d) (hargs : ts.HasAll args)
    {candidates : List MemberId} (hcandidates : ∀ m ∈ candidates, ts.HasMember m) :
    decls.foldlM (fun ms d => addMethodCandidate args d.2 ms d.1) candidates ts =
      let seen := decls.mapM (fun d => memberIn d.1 d.2) ts
      (seen.1.foldl (seen.2.withCandidate args) candidates, seen.2) := by
  induction decls generalizing ts candidates with
  | nil => rfl
  | cons d decls ih =>
    obtain ⟨hd, hrest⟩ := List.forall_mem_cons.mp hdecls
    have himage := memberIn_keeps hts hd.1 hd.2
    rw [List.foldlM_cons, List.mapM_cons, bind_apply, bind_apply, addMethodCandidate_apply]
    let image := (memberIn d.1 d.2 ts).1
    let us := (memberIn d.1 d.2 ts).2
    have hext : Extends ts us := himage.grows
    have hus : us.Valid := himage.valid
    have hhas : us.HasMember image := himage.post
    have hwf := h.of_extends hext hus.pool
    have hargs' := hargs.of_le hext.le
    have hrest' : ∀ d ∈ decls, us.HasDeclaration d := fun d hd => (hrest d hd).of_le hext.le
    have hold : ∀ m ∈ candidates, us.HasMember m := fun m hm => (hcandidates m hm).of_le hext.le
    have hmore : ∀ m ∈ us.withCandidate args candidates image, us.HasMember m := by
      intro m hm
      rcases mem_of_mem_withCandidate hm with hm | rfl
      · exact hold m hm
      · exact hhas
    have hkeeps := mapM_memberIn_keeps hus hrest'
    have hsame := withCandidate_of_extends hus hwf hkeeps.grows hkeeps.valid hargs' hold hhas
    refine (ih hus hwf hrest' hargs' hmore).trans ?_
    rw [bind_apply, pure_apply]
    dsimp only
    rw [List.foldl_cons, hsame]

/-- The candidates of a lookup are told from the methods that it has seen in the end. -/
theorem methodCandidates_apply {chain : List TypeId} (hchain : ts.HasAll chain)
    (hargs : ts.HasAll args) :
    methodCandidates chain n args ts =
      let seen := methodsSeen chain n ts
      (seen.2.candidatesAmong args seen.1, seen.2) := by
  have hdecls : ∀ d ∈ ts.declaredOn chain n, ts.HasDeclaration d := fun d hd =>
    hasDeclaration_of_mem hts hd
  rw [methodCandidates_eq, methodCandidates_eq_foldlM hts hchain,
    foldlM_addMethodCandidate hts h hdecls hargs fun m hm => absurd hm List.not_mem_nil]
  rfl

end

/-! ### Candidates among methods -/

section

variable {candidates methods : List MemberId} {m : MemberId}

/-- A method becomes a candidate if it is applicable and no candidate has its formals. -/
theorem withCandidate_cases (ts : TypeSystem) (args : List TypeId) (candidates : List MemberId)
    (m : MemberId) :
    (ts.isApplicable m args = true ∧
      (∀ k ∈ candidates, (ts.member k).kind.formals ≠ (ts.member m).kind.formals) ∧
      ts.withCandidate args candidates m = candidates ++ [m]) ∨
    ((ts.isApplicable m args = true →
      ∃ k ∈ candidates, (ts.member k).kind.formals = (ts.member m).kind.formals) ∧
      ts.withCandidate args candidates m = candidates) := by
  unfold withCandidate
  split
  case isTrue hadd =>
    obtain ⟨happlicable, hnew⟩ := Bool.and_eq_true_iff.mp hadd
    simp only [Bool.not_eq_true', List.any_eq_false, decide_eq_true_eq] at hnew
    exact .inl ⟨happlicable, hnew, rfl⟩
  case isFalse hadd =>
    refine .inr ⟨fun happlicable => ?_, rfl⟩
    simp only [happlicable, Bool.true_and, Bool.not_eq_true', Bool.not_eq_false, List.any_eq_true,
      decide_eq_true_eq] at hadd
    exact hadd

theorem mem_candidatesAmong (hm : m ∈ ts.candidatesAmong args methods) :
    m ∈ methods ∧ ts.isApplicable m args = true := by
  let IsChoice (k : MemberId) : Prop := k ∈ methods ∧ ts.isApplicable k args = true
  have hall : ∀ k ∈ ts.candidatesAmong args methods, IsChoice k := by
    refine List.foldlRecOn (motive := fun ms => ∀ k ∈ ms, IsChoice k) methods _
      (fun k hk => absurd hk List.not_mem_nil) fun ms hms decl hdecl k hk => ?_
    rcases withCandidate_cases ts args ms decl with ⟨happlicable, -, heq⟩ | ⟨-, heq⟩
    · rw [heq] at hk
      rcases List.mem_append.mp hk with hk | hk
      · exact hms k hk
      · exact List.mem_singleton.mp hk ▸ ⟨hdecl, happlicable⟩
    · exact hms k (heq ▸ hk)
  exact hall m hm

/-- Two candidates differ in their formals. -/
theorem nodup_formals_candidatesAmong (ts : TypeSystem) (args : List TypeId)
    (methods : List MemberId) :
    ((ts.candidatesAmong args methods).map fun m => (ts.member m).kind.formals).Nodup := by
  let formals (m : MemberId) : List TypeId := (ts.member m).kind.formals
  refine List.foldlRecOn (motive := fun ms => (List.map formals ms).Nodup) methods _ .nil
    fun ms hms decl _ => ?_
  rcases withCandidate_cases ts args ms decl with ⟨-, hnew, heq⟩ | ⟨-, heq⟩ <;> rw [heq]
  · rw [List.map_append, List.map_singleton, ← List.concat_eq_append]
    refine hms.concat fun hmem => ?_
    obtain ⟨k, hk, hformals⟩ := List.mem_map.mp hmem
    exact hnew k hk hformals
  · exact hms

theorem mem_foldl_withCandidate (hm : m ∈ candidates) :
    m ∈ methods.foldl (ts.withCandidate args) candidates := by
  refine List.foldlRecOn (motive := fun ms => m ∈ ms) methods _ hm fun ms hms decl _ => ?_
  rcases withCandidate_cases ts args ms decl with ⟨-, -, heq⟩ | ⟨-, heq⟩ <;> rw [heq]
  · exact List.mem_append_left _ hms
  · exact hms

/-- Some candidate has the formals of an applicable method. -/
theorem exists_candidate (hm : m ∈ methods) (happlicable : ts.isApplicable m args = true) :
    ∃ k ∈ ts.candidatesAmong args methods,
      (ts.member k).kind.formals = (ts.member m).kind.formals := by
  obtain ⟨before, after, rfl⟩ := List.append_of_mem hm
  rw [candidatesAmong, List.foldl_append, List.foldl_cons]
  rcases withCandidate_cases ts args (before.foldl (ts.withCandidate args) []) m with
    ⟨-, -, heq⟩ | ⟨hold, heq⟩ <;> rw [heq]
  · exact ⟨m, mem_foldl_withCandidate (List.mem_append_right _ List.mem_cons_self), rfl⟩
  · obtain ⟨k, hk, hformals⟩ := hold happlicable
    exact ⟨k, mem_foldl_withCandidate hk, hformals⟩

end

/-- The applicable methods with other formals than a method. -/
def rivals (ts : TypeSystem) (args : List TypeId) (methods : List MemberId) (m : MemberId) :
    List MemberId :=
  methods.filter fun k =>
    ts.isApplicable k args && (ts.member k).kind.formals ≠ (ts.member m).kind.formals

section

variable {methods : List MemberId} {m k : MemberId}

theorem mem_rivals_iff : k ∈ ts.rivals args methods m ↔ k ∈ methods ∧
    ts.isApplicable k args = true ∧ (ts.member k).kind.formals ≠ (ts.member m).kind.formals := by
  rw [rivals, List.mem_filter, Bool.and_eq_true, decide_eq_true_eq]

/-- A candidate is the only one with its formals. -/
theorem mem_rivals_of_ne (hm : m ∈ ts.candidatesAmong args methods)
    (hk : k ∈ ts.candidatesAmong args methods) (hne : k ≠ m) : k ∈ ts.rivals args methods m := by
  obtain ⟨hmem, happlicable⟩ := mem_candidatesAmong hk
  refine mem_rivals_iff.mpr ⟨hmem, happlicable, fun heq => hne ?_⟩
  exact List.inj_on_of_nodup_map (nodup_formals_candidatesAmong ts args methods) hk hm heq

/-- What holds of methods with equal formals alike holds of the other candidates if it does of the
rivals. -/
theorem forall_candidates_iff (hm : m ∈ ts.candidatesAmong args methods) {P : MemberId → Prop}
    (hP : ∀ {a b}, (ts.member a).kind.formals = (ts.member b).kind.formals → P a → P b) :
    (∀ k ∈ ts.candidatesAmong args methods, k ≠ m → P k) ↔ ∀ k ∈ ts.rivals args methods m, P k := by
  refine ⟨fun h k hk => ?_, fun h k hk hne => h k (mem_rivals_of_ne hm hk hne)⟩
  obtain ⟨hmem, happlicable, hformals⟩ := mem_rivals_iff.mp hk
  obtain ⟨a, ha, heq⟩ := exists_candidate hmem happlicable
  refine hP heq (h a ha ?_)
  rintro rfl
  exact hformals heq.symm

end

/-! ### The choice -/

theorem length_formals_of_isApplicable {m : MemberId} (h : ts.isApplicable m args = true) :
    (ts.member m).kind.formals.length = args.length := by
  unfold isApplicable at h
  exact of_decide_eq_true (Bool.and_eq_true_iff.mp h).1

theorem isMoreSpecific_iff_forall₂ {a b : MemberId} (ha : ts.isApplicable a args = true)
    (hb : ts.isApplicable b args = true) : ts.isMoreSpecific a b = true ↔
      List.Forall₂ (fun x y => ts.isAssignable x y = true) (ts.member a).kind.formals
        (ts.member b).kind.formals := by
  have hlength := (length_formals_of_isApplicable ha).trans (length_formals_of_isApplicable hb).symm
  rw [List.forall₂_iff_zip, isMoreSpecific, List.all_eq_true]
  exact ⟨fun h => ⟨hlength, fun hpair => h _ hpair⟩, fun h pair hpair => h.2 hpair⟩

/-- Being more specific is transitive among procedures that are applicable to the same arguments. -/
theorem isMoreSpecific_trans (hts : ts.Valid) (h : ts.WellFormed) {a b c : MemberId}
    (hmembers : ts.HasMember a ∧ ts.HasMember b ∧ ts.HasMember c)
    (ha : ts.isApplicable a args = true) (hb : ts.isApplicable b args = true)
    (hc : ts.isApplicable c args = true) (hab : ts.isMoreSpecific a b = true)
    (hbc : ts.isMoreSpecific b c = true) : ts.isMoreSpecific a c = true := by
  have hhas : ∀ m, ts.HasMember m → ∀ ty ∈ (ts.member m).kind.formals, ts.pool.Has ty :=
    fun m hm ty hty => (hts.keys hm.hasKey).types ty (MemberKind.mem_types_of_mem_formals hty)
  rw [isMoreSpecific_iff_forall₂ ha hb] at hab
  rw [isMoreSpecific_iff_forall₂ hb hc] at hbc
  rw [isMoreSpecific_iff_forall₂ ha hc]
  refine forall₂_trans_of_mem (fun x hx y hy z hz => ?_) hab hbc
  exact isAssignable_trans h (hhas a hmembers.1 x hx) (hhas b hmembers.2.1 y hy)
    (hhas c hmembers.2.2 z hz)

/-- Among candidates the one that converts to all others is chosen, if no other converts to it. -/
theorem mostSpecific?_eq_some_iff {candidates : List MemberId} (hnodup : candidates.Nodup)
    (htrans : ∀ a ∈ candidates, ∀ b ∈ candidates, ∀ c ∈ candidates, ts.isMoreSpecific a b = true →
      ts.isMoreSpecific b c = true → ts.isMoreSpecific a c = true) {m : MemberId} :
    ts.mostSpecific? candidates = some m ↔ m ∈ candidates ∧ ∀ k ∈ candidates, k ≠ m →
      ts.isMoreSpecific m k = true ∧ ¬ ts.isMoreSpecific k m = true := by
  let best (a : MemberId) : Bool := candidates.all fun b => a = b || ts.isMoreSpecific a b
  have hbest : ∀ {a}, best a = true ↔ ∀ b ∈ candidates, b ≠ a → ts.isMoreSpecific a b = true := by
    intro a
    simp only [best, List.all_eq_true, Bool.or_eq_true, decide_eq_true_eq, or_iff_not_imp_left,
      Ne, eq_comm (a := a)]
  have hsome : ts.mostSpecific? candidates = some m ↔ candidates.filter best = [m] := by
    unfold mostSpecific?
    split
    case h_1 only honly => rw [show candidates.filter best = [only] from honly]; simp
    case h_2 hnone => exact ⟨nofun, fun honly => absurd honly (hnone m)⟩
  rw [hsome, eq_singleton_iff_of_nodup (hnodup.filter best)]
  constructor
  case mp =>
    rintro ⟨hm, hall⟩
    obtain ⟨hm, hbestm⟩ := List.mem_filter.mp hm
    refine ⟨hm, fun k hk hne => ⟨hbest.mp hbestm k hk hne, fun hback => hne ?_⟩⟩
    refine hall k (List.mem_filter.mpr ⟨hk, hbest.mpr fun b hb hbk => ?_⟩)
    by_cases hbm : b = m
    · exact hbm ▸ hback
    · exact htrans k hk m hm b hb hback (hbest.mp hbestm b hb hbm)
  case mpr =>
    rintro ⟨hm, hall⟩
    refine ⟨List.mem_filter.mpr ⟨hm, hbest.mpr fun k hk hne => (hall k hk hne).1⟩, fun k hk => ?_⟩
    obtain ⟨hk, hbestk⟩ := List.mem_filter.mp hk
    by_contra hne
    exact (hall k hk hne).2 (hbest.mp hbestk m hm (Ne.symm hne))

section

variable {vs : TypeSystem} {container : TypeId} {name : String} {chain : List TypeId}
  {methods : List MemberId} {m : MemberId}

/-- A lookup of the name comes to the chain, and then has seen the methods. -/
structure Sees (ts us vs : TypeSystem) (container : TypeId) (name : String) (n : Name)
    (chain : List TypeId) (methods : List MemberId) : Prop where
  intern : intern name ts = (n, ts)
  lookup : (lookupChain container).run ts = (.ok chain, us)
  extends_lookup : Extends ts us
  valid_lookup : us.Valid
  hasAll : us.HasAll chain
  seen : methodsSeen chain n us = (methods, vs)

namespace Sees

variable (hsees : Sees ts us vs container name n chain methods)
include hsees

theorem keeps : Keeps (methodsSeen chain n) us fun methods us' => ∀ m ∈ methods, us'.HasMember m :=
  methodsSeen_keeps hsees.valid_lookup

theorem extends_seen : Extends us vs := by
  have hgrows := hsees.keeps.grows
  rwa [hsees.seen] at hgrows

theorem grows : Extends ts vs := hsees.extends_lookup.trans hsees.extends_seen

theorem valid : vs.Valid := by
  have hvalid := hsees.keeps.valid
  rwa [hsees.seen] at hvalid

theorem hasMember (hm : m ∈ methods) : vs.HasMember m := by
  have hmembers := hsees.keeps.post
  rw [hsees.seen] at hmembers
  exact hmembers m hm

end Sees

variable (h : ts.WellFormed) (hargs : ts.HasAll args)
  (hsees : Sees ts us vs container name n chain methods)
include h hargs hsees

/-- A lookup by the methods that it has seen. -/
theorem findMethod_run : (findMethod container name args).run ts =
    (match vs.mostSpecific? (vs.candidatesAmong args methods) with
    | some m => .ok m
    | none => .error (if (vs.candidatesAmong args methods).isEmpty
        then .noMethod (vs.display container) name (vs.displayList args)
        else vs.ambiguity container name args (vs.candidatesAmong args methods)), vs) := by
  have hext := hsees.extends_lookup
  have hcandidates := methodCandidates_apply (n := n) hsees.valid_lookup
    (h.of_extends hext hsees.valid_lookup.pool) hsees.hasAll (hargs.of_le hext.le)
  rw [hsees.seen] at hcandidates
  unfold findMethod
  rw [run_lift_bind_apply, hsees.intern]
  dsimp only
  rw [run_bind_of_ok hsees.lookup, run_lift_bind_apply, hcandidates, run_get_bind_apply]
  dsimp only
  cases vs.mostSpecific? (vs.candidatesAmong args methods) with
  | none => rfl
  | some m => rfl

theorem findMethod_apply : ((findMethod container name args).run ts).1 =
    match vs.mostSpecific? (vs.candidatesAmong args methods) with
    | some m => .ok m
    | none => .error (if (vs.candidatesAmong args methods).isEmpty
        then .noMethod (vs.display container) name (vs.displayList args)
        else vs.ambiguity container name args (vs.candidatesAmong args methods)) :=
  congrArg Prod.fst (findMethod_run h hargs hsees)

/-- A lookup answers the candidate that converts to all others, if no other converts to it. -/
theorem findMethod_eq_ok_iff : ((findMethod container name args).run ts).1 = .ok m ↔
    m ∈ vs.candidatesAmong args methods ∧ ∀ k ∈ vs.candidatesAmong args methods, k ≠ m →
      vs.isMoreSpecific m k = true ∧ ¬ vs.isMoreSpecific k m = true := by
  have hwf : vs.WellFormed := h.of_extends hsees.grows hsees.valid.pool
  have hnodup := (nodup_formals_candidatesAmong vs args methods).of_map
  rw [← mostSpecific?_eq_some_iff hnodup fun a ha b hb c hc => ?_, findMethod_apply h hargs hsees]
  · cases vs.mostSpecific? (vs.candidatesAmong args methods) with
    | none => exact ⟨nofun, nofun⟩
    | some k => exact ⟨fun heq => by cases heq; rfl, fun heq => by cases heq; rfl⟩
  · obtain ⟨ha, ha'⟩ := mem_candidatesAmong ha
    obtain ⟨hb, hb'⟩ := mem_candidatesAmong hb
    obtain ⟨hc, hc'⟩ := mem_candidatesAmong hc
    exact isMoreSpecific_trans hsees.valid hwf
      ⟨hsees.hasMember ha, hsees.hasMember hb, hsees.hasMember hc⟩ ha' hb' hc'

variable (hm : m ∈ vs.candidatesAmong args methods)
include hm

/-- A candidate is found if it beats its rivals. -/
theorem findMethod_eq_ok_iff_rivals : ((findMethod container name args).run ts).1 = .ok m ↔
    ∀ k ∈ vs.rivals args methods m,
      vs.isMoreSpecific m k = true ∧ ¬ vs.isMoreSpecific k m = true := by
  rw [findMethod_eq_ok_iff h hargs hsees, and_iff_right hm]
  refine forall_candidates_iff hm fun {a b} heq => ?_
  unfold isMoreSpecific
  rw [heq]
  exact id

/-- If it does not, a rival is found or the call is ambiguous. -/
theorem findMethod_of_ne (hne : ((findMethod container name args).run ts).1 ≠ .ok m) :
    (∃ k ∈ vs.rivals args methods m, ((findMethod container name args).run ts).1 = .ok k) ∨
      ((findMethod container name args).run ts).1 =
        .error (vs.ambiguity container name args (vs.candidatesAmong args methods)) := by
  rw [findMethod_apply h hargs hsees] at hne ⊢
  cases hchosen : vs.mostSpecific? (vs.candidatesAmong args methods) with
  | none =>
    have hcandidates := List.isEmpty_eq_false_iff_exists_mem.mpr ⟨m, hm⟩
    exact .inr (by rw [hcandidates]; rfl)
  | some k =>
    rw [hchosen] at hne
    have hk := mem_of_mostSpecific? hchosen
    exact .inl ⟨k, mem_rivals_of_ne hm hk fun heq => hne (heq ▸ rfl), rfl⟩

end

end TypeSystem

end Erasure
