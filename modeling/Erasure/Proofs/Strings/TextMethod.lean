/-
Methods without formals that answer a string.

If all methods of a name without formals are instance methods that answer a string, and the root class
declares one, then looking for the name in an object type finds one: the first on the chain hides all
others. The main statements:

* `memberIn_isTextMethod`: what a container sees of such a method is one.
* `methodCandidates_first`: the first one on the chain is the only candidate.
* `findMethod_text`: so it is found, and found again as long as nothing is declared.
-/
import Erasure.Proofs.Strings.Chain

namespace Erasure.TypeSystem

variable {ts us : TypeSystem} {n : Name}

/-- An instance method of the name without formals that answers a string. -/
structure IsTextMethod (ts : TypeSystem) (n : Name) (m : MemberId) : Prop where
  hasMember : ts.HasMember m
  kind : ∃ params, (ts.member m).kind = .method n [] .string params
  isStatic : (ts.member m).flags.isStatic = false

theorem IsTextMethod.of_le (hle : ts ≤ us) {m : MemberId} (h : ts.IsTextMethod n m) :
    us.IsTextMethod n m := by
  obtain ⟨hm, hkind, hstatic⟩ := h
  rw [← member_of_le hle hm] at hkind hstatic
  exact ⟨hm.of_le hle, hkind, hstatic⟩

theorem IsTextMethod.formals_eq {m : MemberId} (h : ts.IsTextMethod n m) :
    (ts.member m).kind.formals = [] := by
  obtain ⟨params, hkind⟩ := h.kind
  rw [hkind]
  rfl

/-- Methods of the name without formals are declared as text methods only, and the root class declares
one. -/
structure IsTextName (ts : TypeSystem) (n : Name) : Prop where
  string : ts.pool.HasKind .string (.raw .string)
  declared : ∀ c, ∀ m ∈ ts.declaredMethods c n, (ts.member m).kind.formals = [] → ts.IsTextMethod n m
  object : ∃ m ∈ ts.declaredMethods .object n, (ts.member m).kind.formals = []

theorem mem_declaredMethods {c : ClassId} {m : MemberId} (h : m ∈ ts.declaredMethods c n) :
    m ∈ (ts.classDef c).members ∧
      ∃ formals result params, (ts.member m).kind = .method n formals result params := by
  obtain ⟨hm, hkind⟩ := List.mem_filter.mp h
  refine ⟨hm, ?_⟩
  split at hkind
  · rename_i n' formals result params hk
    exact ⟨formals, result, params, of_decide_eq_true hkind ▸ hk⟩
  · cases hkind

theorem Extends.declaredMethods_eq (hts : ts.Valid) (hext : Extends ts us) (c : ClassId) (n : Name) :
    us.declaredMethods c n = ts.declaredMethods c n := by
  unfold declaredMethods
  rw [hext.classDef_eq]
  refine List.filter_congr fun m hm => ?_
  rw [member_of_le hext.le (hts.hasMember_of_declared hm)]

theorem Extends.declaredConstructors_eq (hts : ts.Valid) (hext : Extends ts us) (c : ClassId) :
    us.declaredConstructors c = ts.declaredConstructors c := by
  unfold declaredConstructors
  rw [hext.classDef_eq]
  refine List.filter_congr fun m hm => ?_
  rw [member_of_le hext.le (hts.hasMember_of_declared hm)]

theorem IsTextName.of_extends (hts : ts.Valid) (hext : Extends ts us) (h : ts.IsTextName n) :
    us.IsTextName n where
  string := h.string.of_le hext.le.1
  declared c m hm hformals := by
    rw [hext.declaredMethods_eq hts] at hm
    rw [member_of_le hext.le (hts.hasMember_of_declared (mem_declaredMethods hm).1)] at hformals
    exact (h.declared c m hm hformals).of_le hext.le
  object := by
    obtain ⟨m, hm, hformals⟩ := h.object
    refine ⟨m, hext.declaredMethods_eq hts _ _ ▸ hm, ?_⟩
    rwa [member_of_le hext.le (hts.hasMember_of_declared (mem_declaredMethods hm).1)]

/-! ### Images -/

/-- The member as a container sees it: the same member with a substituted signature. -/
theorem memberIn_substitutes (hts : ts.Valid) {m : MemberId} {container : TypeId}
    (hm : ts.HasMember m) (hcontainer : ts.pool.Has container) :
    Computes (memberIn m container) ts fun i us => us.HasMember i ∧
      (us.member i).flags = (ts.member m).flags ∧
      ∃ bs, SubstitutesKind us.pool bs (ts.member m).kind (us.member i).kind := by
  have hkind := hcontainer.hasKind
  cases hk : ts.pool.kind container with
  | inst base s outer =>
    refine (memberIn_computes hts hm.hasKey (hk ▸ hkind)).mono fun i us _ _ ⟨l, hl, hi⟩ => ?_
    refine ⟨hi.hasMember, (congrArg MemberKey.flags hi.member_eq :),
      ts.pool.instanceBindings container, ?_⟩
    rw [hi.kind_eq]
    exact hl
  | prim _ | null | array _ | raw _ | var _ | lub _ =>
    unfold memberIn
    refine Computes.get_bind ?_ fun us hle => ?_
    · rw [kind, hk]
      refine Computes.pure hts ⟨hm, rfl, [], .refl (fun ty hty => ?_) fun _ _ => rfl⟩
      have hhas := (hts.keys hm.hasKey).types ty hty
      exact ⟨.refl hts.pool (fun _ => rfl) hhas, hhas⟩
    · rw [kind_of_le hle hcontainer, kind, hk]

/-- A substituted signature has as many formals as the signature. -/
theorem SubstitutesKind.length_formals_eq {p : Pool} {bs : Bindings} {k l : MemberKind}
    (h : SubstitutesKind p bs k l) : l.formals.length = k.formals.length := by
  obtain ⟨kind, hkind, rfl⟩ := h
  cases hkind with
  | method hformals _ | constructor hformals => exact hformals.length_eq.symm
  | field _ | initializer => rfl

theorem IsTextMethod.of_substitutes {m i : MemberId} (hstring : us.pool.HasKind .string (.raw .string))
    (h : ts.IsTextMethod n m) (hi : us.HasMember i)
    (hflags : (us.member i).flags = (ts.member m).flags) {bs : Bindings}
    (hkind : SubstitutesKind us.pool bs (ts.member m).kind (us.member i).kind) :
    us.IsTextMethod n i := by
  refine ⟨hi, ?_, by rw [hflags, h.isStatic]⟩
  obtain ⟨params, hk⟩ := h.kind
  rw [hk] at hkind
  obtain ⟨l, hl, heq⟩ := hkind
  cases hl with
  | method hformals hresult =>
    cases hformals
    obtain rfl := hresult.1.unique (.raw hstring)
    exact ⟨_, heq⟩

/-- What a container sees of a text method is one. -/
theorem memberIn_isTextMethod (hts : ts.Valid) (hn : ts.IsTextName n) {m : MemberId}
    {container : TypeId} (hm : ts.HasMember m) (hcontainer : ts.pool.Has container) :
    Computes (memberIn m container) ts fun i us => us.HasMember i ∧
      (us.member i).kind.formals.length = (ts.member m).kind.formals.length ∧
      (ts.IsTextMethod n m → us.IsTextMethod n i) := by
  apply (memberIn_substitutes hts hm hcontainer).mono
  intro i us hus _ ⟨hi, hflags, bs, hkind⟩
  refine ⟨hi, hkind.length_formals_eq, fun h => ?_⟩
  exact h.of_substitutes (hn.string.of_le hus.le.1) hi hflags hkind

/-! ### The choice -/

/-- Text methods, at most one of them. -/
structure IsChoice (ts : TypeSystem) (n : Name) (ms : List MemberId) : Prop where
  text : ∀ m ∈ ms, ts.IsTextMethod n m
  length_le : ms.length ≤ 1

theorem isChoice_nil : ts.IsChoice n [] := ⟨fun _ h => absurd h List.not_mem_nil, Nat.zero_le 1⟩

theorem IsChoice.of_le (hle : ts ≤ us) {ms : List MemberId} (h : ts.IsChoice n ms) :
    us.IsChoice n ms := ⟨fun m hm => (h.text m hm).of_le hle, h.length_le⟩

theorem IsChoice.eq_singleton {ms : List MemberId} (h : ts.IsChoice n ms) (hne : ms ≠ []) :
    ∃ m, ms = [m] ∧ ts.IsTextMethod n m := by
  match ms, h, hne with
  | [m], h, _ => exact ⟨m, rfl, h.text m List.mem_cons_self⟩

theorem isApplicable_nil (m : MemberId) :
    ts.isApplicable m [] = decide ((ts.member m).kind.formals = []) := by
  unfold isApplicable
  cases (ts.member m).kind.formals <;> rfl

/-- A method without formals becomes a candidate if there is none yet. -/
theorem addMethodCandidate_settles (hts : ts.Valid) (hn : ts.IsTextName n) {ty : TypeId}
    {c : ClassId} {decl : MemberId} {candidates : List MemberId} (hty : ts.pool.Has ty)
    (hdecl : decl ∈ ts.declaredMethods c n) (hcandidates : ts.IsChoice n candidates) :
    Settles (addMethodCandidate [] ty candidates decl) ts fun ms us => us.IsChoice n ms ∧
      (candidates ≠ [] → ms = candidates) ∧ ((ts.member decl).kind.formals = [] → ms ≠ []) := by
  have hhas := hts.hasMember_of_declared (mem_declaredMethods hdecl).1
  unfold addMethodCandidate
  apply (Settles.of_computes (memberIn_isTextMethod hts hn hhas hty)).bind
  intro image us hus hvalid ⟨himage, hlength, htext⟩
  have hold := hcandidates.of_le hus.le
  have hnil : (us.member image).kind.formals = [] ↔ (ts.member decl).kind.formals = [] := by
    rw [← List.length_eq_zero_iff, hlength, List.length_eq_zero_iff]
  have hadds : ∀ vs, us ≤ vs → (vs.isApplicable image [] && !candidates.any fun c =>
      (vs.member c).kind.formals = (vs.member image).kind.formals) =
      decide ((ts.member decl).kind.formals = [] ∧ candidates = []) := by
    intro vs hvs
    rw [isApplicable_nil, member_of_le hvs himage]
    by_cases hformals : (ts.member decl).kind.formals = []
    · cases candidates with
      | nil => simp [hnil.mpr hformals, hformals]
      | cons m ms =>
        have hm := ((hold.of_le hvs).text m List.mem_cons_self).formals_eq
        simp [hnil.mpr hformals, hm]
    · simp [hnil, hformals]
  refine Settles.get_bind ?_ fun vs hvs => ?_
  · dsimp only
    rw [hadds us (le_refl us)]
    by_cases h : (ts.member decl).kind.formals = [] ∧ candidates = []
    · obtain ⟨hformals, rfl⟩ := h
      have himageText := htext (hn.declared c decl hdecl hformals)
      rw [if_pos (by simp [hformals])]
      refine Settles.pure hvalid ⟨⟨fun m hm => ?_, le_refl 1⟩, fun h => absurd rfl h, nofun⟩
      exact List.mem_singleton.mp hm ▸ himageText
    · rw [if_neg (by simpa using h)]
      exact Settles.pure hvalid ⟨hold, fun _ => rfl, fun hformals hnone => h ⟨hformals, hnone⟩⟩
  · rw [hadds us (le_refl us), hadds vs hvs.le]

/-- The candidates with those that one more type of the chain declares. -/
def candidatesAt (name : Name) (args : List TypeId) (candidates : List MemberId) (ty : TypeId) :
    StateM TypeSystem (List MemberId) := do
  let ts ← get
  let decls := ((ts.classOf? ty).map fun c => ts.declaredMethods c name).getD []
  decls.foldlM (addMethodCandidate args ty) candidates

theorem methodCandidates_eq (chain : List TypeId) (name : Name) (args : List TypeId) :
    methodCandidates chain name args = chain.foldlM (candidatesAt name args) [] := rfl

theorem candidatesAt_settles (hts : ts.Valid) (hn : ts.IsTextName n) {ty : TypeId}
    {found : List MemberId} (hty : ts.pool.Has ty) (hfound : ts.IsChoice n found) :
    Settles (candidatesAt n [] found ty) ts fun ms us => us.IsChoice n ms ∧
      (found ≠ [] → ms = found) ∧ (ts.classOf? ty = some .object → ms ≠ []) := by
  unfold candidatesAt
  refine Settles.get_bind ?_ fun us hus => ?_
  · cases hc : ts.classOf? ty with
    | none => exact Settles.pure hts ⟨hfound, fun _ => rfl, nofun⟩
    | some c =>
      have hstep : ∀ decl ∈ ts.declaredMethods c n, ∀ found us, Store.Grows ts us → us.Valid →
          us.IsChoice n found → Settles (addMethodCandidate [] ty found decl) us fun ms vs =>
            vs.IsChoice n ms ∧ (found ≠ [] → ms = found) ∧
              ((ts.member decl).kind.formals = [] → ms ≠ []) := by
        intro decl hdecl found us hus hvalid hfound
        rw [← member_of_le hus.le (hts.hasMember_of_declared (mem_declaredMethods hdecl).1)]
        exact addMethodCandidate_settles hvalid (hn.of_extends hts hus) (hty.of_le hus.le.1)
          (hus.declaredMethods_eq hts c n ▸ hdecl) hfound
      apply (Settles.search hts hfound hstep).mono
      intro ms us _ _ ⟨hms, hsame, hfinds⟩
      refine ⟨hms, hsame, fun hobject => hfinds ?_⟩
      cases hobject
      exact hn.object
  · have hext : Extends ts us := hus
    cases hc : ts.classOf? ty with
    | none => simp [classOf?_of_le hext.le hty, hc]
    | some c => simp [classOf?_of_le hext.le hty, hc, hext.declaredMethods_eq hts]

/-- The first method without formals on the chain is the only candidate. -/
theorem methodCandidates_first (hts : ts.Valid) (hn : ts.IsTextName n) {chain : List TypeId}
    {found : List MemberId} (hchain : ts.HasAll chain) (hfound : ts.IsChoice n found) :
    Settles (chain.foldlM (candidatesAt n []) found) ts fun ms us => us.IsChoice n ms ∧
      (found ≠ [] → ms = found) ∧ ((∃ ty ∈ chain, ts.classOf? ty = some .object) → ms ≠ []) := by
  apply Settles.search hts hfound
  intro ty hty found us hus hvalid hfound
  have hhas := hchain ty hty
  rw [← classOf?_of_le hus.le hhas]
  exact candidatesAt_settles hvalid (hn.of_extends hts hus) (hhas.of_le hus.le.1) hfound

/-! ### The lookup -/

/-- A lookup from its steps. -/
theorem findMethod_eq {container : TypeId} {name : String} {args : List TypeId}
    {chain : List TypeId} {candidates : List MemberId} {m : MemberId} {vs : TypeSystem}
    (hname : intern name ts = (n, ts)) (hchain : (lookupChain container).run ts = (.ok chain, us))
    (hcandidates : methodCandidates chain n args us = (candidates, vs))
    (hm : vs.mostSpecific? candidates = some m) :
    (findMethod container name args).run ts = (.ok m, vs) := by
  unfold findMethod
  rw [run_lift_bind_apply, hname]
  dsimp only
  rw [run_bind_of_ok hchain, run_lift_bind_apply, hcandidates, run_get_bind_apply, hm]
  rfl

theorem mostSpecific?_singleton (m : MemberId) : ts.mostSpecific? [m] = some m := by
  simp [mostSpecific?]

/-- The text method of an object type is found, and found again as long as nothing is declared. -/
theorem findMethod_text {name : String} {ty : TypeId} (hts : ts.Valid) (hn : ts.IsTextName n)
    (hname : ∀ us, Extends ts us → intern name us = (n, us)) (hty : ts.pool.Has ty)
    (hprim : ∀ r, ts.kind ty ≠ .prim r) (hnull : ts.kind ty ≠ .null)
    (hroot : ∀ c, c.index < ts.classes.size → ts.ExtendsRoot c)
    (hlead : (resolveLub ty ts).2.LeadsToClass (resolveLub ty ts).1) :
    ∃ m us, (findMethod ty name []).run ts = (.ok m, us) ∧ Extends ts us ∧ us.Valid ∧
      us.IsTextMethod n m ∧ ∀ vs, Extends us vs → vs.Valid →
        ∃ ws, (findMethod ty name []).run vs = (.ok m, ws) := by
  obtain ⟨chain, us, hchain, hext, hvalid, hall, hobject, hagain⟩ :=
    lookupChain_root hprim hnull hts hty hroot hlead
  have hsearch := methodCandidates_first hvalid (hn.of_extends hts hext) hall isChoice_nil
  obtain ⟨hchoice, -, hfinds⟩ := hsearch.post
  obtain ⟨m, hm, htext⟩ := hchoice.eq_singleton (hfinds hobject)
  have hext' : Extends ts (chain.foldlM (candidatesAt n []) [] us).2 := hext.trans hsearch.grows
  have hfirst : methodCandidates chain n [] us =
      ([m], (chain.foldlM (candidatesAt n []) [] us).2) := Prod.ext hm rfl
  refine ⟨m, _, ?_, hext', hsearch.valid, htext, ?_⟩
  · exact findMethod_eq (hname ts (.refl ts)) hchain hfirst (mostSpecific?_singleton m)
  · intro vs hvs hvs'
    obtain ⟨more, ws, hchain', hws, hws', hall'⟩ := hagain vs (hsearch.grows.trans hvs) hvs'
    have hlater : Extends ts ws := (hext'.trans hvs).trans hws
    have hmore := methodCandidates_first hws' (hn.of_extends hts hlater)
      (fun u hu => hall' u (List.mem_append_right _ hu))
      ⟨fun i hi => List.mem_singleton.mp hi ▸ htext.of_le (hvs.trans hws).le, le_refl 1⟩
    have hcandidates : methodCandidates (chain ++ more) n [] ws =
        ([m], (more.foldlM (candidatesAt n []) [m] ws).2) := by
      rw [methodCandidates_eq, List.foldlM_append, bind_apply, hsearch.again ws (hvs.trans hws)]
      dsimp only
      rw [hm]
      exact Prod.ext (hmore.post.2.1 nofun) rfl
    exact ⟨_, findMethod_eq (hname vs (hext'.trans hvs)) hchain' hcandidates
      (mostSpecific?_singleton m)⟩

end Erasure.TypeSystem
