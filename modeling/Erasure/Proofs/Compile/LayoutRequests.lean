/-
The layout cache as its users see it.

A cache is asked for layouts and interface tables in any order, while names are kept. It answers as
an empty cache would, with one exception: the key of an instantiation is that of its class, so that
an instantiation is refused only as long as its raw class has not been asked for. The main
statements:

* `Asked.holds`: a cache holds the layouts of the raw classes that it was asked for, and no others
  but that of arrays.
* `answer_eq_fresh_iff`: an answer is that of an empty cache, unless an instantiation is asked for
  whose raw class was asked for before. A failure leaves the cache alone.
-/
import Erasure.Proofs.Canonical.Session
import Erasure.Proofs.Compile.Layouts

namespace Erasure

open TypeSystem (KeepsNames)

/-- What is asked of a layout cache. -/
inductive LayoutRequest where
  | layout (ty : TypeId)
  | interfaceTable (interface ty : TypeId)

/-- What a layout cache answers. -/
inductive LayoutAnswer where
  | layout (l : ClassLayout)
  | symbol (s : String)

namespace LayoutRequest

variable {ts us : TypeSystem} {cache : LayoutCache} {rs : List LayoutRequest} {r : LayoutRequest}
  {ty : TypeId} {base : ClassId} {sub : SubstId} {outer : Option TypeId}

/-- Answers a request. -/
def answer (ts : TypeSystem) :
    LayoutRequest → ExceptT MangleError (StateM LayoutCache) LayoutAnswer
  | layout ty => .layout <$> LayoutCache.layout ts ty
  | interfaceTable interface ty => .symbol <$> LayoutCache.interfaceTable ts interface ty

/-- The answer of a cache that has not been asked before. -/
def fresh (ts : TypeSystem) (r : LayoutRequest) : Except MangleError LayoutAnswer :=
  ((r.answer ts).run {}).1

/-- The types that the request mentions are there. -/
def Admitted (ts : TypeSystem) : LayoutRequest → Prop
  | layout ty => ts.pool.Has ty
  | interfaceTable interface ty => ts.pool.Has interface ∧ ts.pool.Has ty

theorem Admitted.of_le (hle : ts ≤ us) (h : r.Admitted ts) : r.Admitted us := by
  cases r with
  | layout ty => exact Pool.Has.of_le hle.1 h
  | interfaceTable interface ty => exact ⟨h.1.of_le hle.1, h.2.of_le hle.1⟩

/-- The caches that have been asked for `rs`, the latest first, while names are kept. -/
inductive Asked : TypeSystem → List LayoutRequest → LayoutCache → Prop
  | empty (ts : TypeSystem) : Asked ts [] {}
  | request {ts : TypeSystem} {rs : List LayoutRequest} {cache : LayoutCache} (r : LayoutRequest) :
      Asked ts rs cache → r.Admitted ts → Asked ts (r :: rs) ((r.answer ts).run cache).2
  | keep {ts us : TypeSystem} {rs : List LayoutRequest} {cache : LayoutCache} :
      Asked ts rs cache → KeepsNames ts us → Asked us rs cache

/-- The raw type of a class is among what was asked for. -/
def AsksForRaw (ts : TypeSystem) (rs : List LayoutRequest) (c : ClassId) : Prop :=
  ∃ raw, layout raw ∈ rs ∧ ts.kind raw = .raw c

/-- The request is for an instantiation, and the raw type of its class was asked for before. -/
def IsShadowed (ts : TypeSystem) (rs : List LayoutRequest) : LayoutRequest → Prop
  | layout ty => ∃ base sub outer, ts.kind ty = .inst base sub outer ∧ AsksForRaw ts rs base
  | interfaceTable _ _ => False

/-! ### Running requests -/

theorem eq_error_of_map {ε α β : Type} {f : α → β} {x : Except ε α} {e : ε}
    (h : x.map f = .error e) : x = .error e := by
  cases x with
  | ok a => cases h
  | error e' => exact congrArg Except.error (Except.error.inj h)

/-- The answer to a request and the cache after it, from those of the cache itself. -/
theorem run_layout (ts : TypeSystem) (ty : TypeId) (cache : LayoutCache) :
    ((layout ty).answer ts).run cache =
      (((LayoutCache.layout ts ty).run cache).1.map .layout,
        ((LayoutCache.layout ts ty).run cache).2) := run_map_apply ..

theorem run_interfaceTable (ts : TypeSystem) (interface ty : TypeId) (cache : LayoutCache) :
    ((interfaceTable interface ty).answer ts).run cache =
      (((LayoutCache.interfaceTable ts interface ty).run cache).1.map .symbol,
        ((LayoutCache.interfaceTable ts interface ty).run cache).2) := run_map_apply ..

/-- An instantiation has no layout of its own. -/
theorem layoutOf_inst (hk : ts.kind ty = .inst base sub outer) :
    LayoutCache.layoutOf ts ty = .error
      (if ts.isInterface base then .notAnInterface (ts.display ty)
        else .notAClass (ts.display ty)) := by
  have hinterface : ts.isInterfaceType ty = ts.isInterface base := by
    rw [TypeSystem.isInterfaceType, TypeSystem.classOf?, hk]
    rfl
  have hname : ts.linkName ty = .error (.notAClass (ts.display ty)) := by
    rw [TypeSystem.linkName, hk]
  have hinterfaceName : ts.interfaceLinkName ty = .error (.notAnInterface (ts.display ty)) := by
    rw [TypeSystem.interfaceLinkName, hk]
  unfold LayoutCache.layoutOf LayoutCache.tableAndDescriptor TypeSystem.interfaceTableSymbol
    TypeSystem.dispatchVectorSymbol
  rw [hinterface, hname, hinterfaceName]
  cases ts.isInterface base <;> rfl

theorem keyOf_raw {c : ClassId} (hk : ts.kind ty = .raw c) :
    LayoutCache.keyOf ts ty = .ok (.classDef c) := by
  rw [LayoutCache.keyOf, TypeSystem.classOf?, hk]
  rfl

theorem keyOf_inst (hk : ts.kind ty = .inst base sub outer) :
    LayoutCache.keyOf ts ty = .ok (.classDef base) := by
  rw [LayoutCache.keyOf, TypeSystem.classOf?, hk]
  rfl

theorem classDef_of_keyOf {c : ClassId} (hkey : LayoutCache.keyOf ts ty = .ok (.classDef c)) :
    ts.kind ty = .raw c ∨ ∃ sub outer, ts.kind ty = .inst c sub outer := by
  unfold LayoutCache.keyOf TypeSystem.classOf? at hkey
  cases hk : ts.kind ty with
  | raw d =>
    rw [hk] at hkey
    cases hkey
    exact .inl rfl
  | inst d sub outer =>
    rw [hk] at hkey
    cases hkey
    exact .inr ⟨sub, outer, rfl⟩
  | prim _ | null | array _ | var _ | lub _ =>
    rw [TypeSystem.linkName, hk] at hkey
    cases hkey

/-! ### What a cache holds -/

/-- What a cache holds that has been asked for `rs`. -/
structure Holds (ts : TypeSystem) (rs : List LayoutRequest) (cache : LayoutCache) : Prop where
  admitted : ∀ r ∈ rs, r.Admitted ts
  right : cache.Right ts
  classes : ∀ c, (cache.layouts.find? (.classDef c)).isSome ↔ AsksForRaw ts rs c

theorem holds_empty (ts : TypeSystem) : Holds ts [] {} where
  admitted _ hr := absurd hr List.not_mem_nil
  right := LayoutCache.right_empty ts
  classes _ := iff_of_false Bool.false_ne_true fun ⟨_, hraw, _⟩ => absurd hraw List.not_mem_nil

theorem asksForRaw_of_keepsNames (h : KeepsNames ts us) (hrs : ∀ r ∈ rs, r.Admitted ts)
    (c : ClassId) : AsksForRaw us rs c ↔ AsksForRaw ts rs c :=
  exists_congr fun _ => and_congr_right fun hraw => by
    rw [TypeSystem.kind_of_le h.le (hrs _ hraw)]

theorem Holds.of_keepsNames (h : Holds ts rs cache) (hnames : KeepsNames ts us) :
    Holds us rs cache where
  admitted r hr := (h.admitted r hr).of_le hnames.le
  right := h.right.of_keepsNames hnames
  classes c := (h.classes c).trans (asksForRaw_of_keepsNames hnames h.admitted c).symm

/-- A request that adds no raw class to what was asked for, and no class to the cache. -/
theorem Holds.request (h : Holds ts rs cache) {cache' : LayoutCache} (hr : r.Admitted ts)
    (hright : cache'.Right ts) (hlayouts : ∀ c, cache'.layouts.find? (.classDef c) =
      cache.layouts.find? (.classDef c))
    (hraw : ∀ raw c, r = layout raw → ts.kind raw = .raw c → AsksForRaw ts rs c) :
    Holds ts (r :: rs) cache' where
  admitted := List.forall_mem_cons.mpr ⟨hr, h.admitted⟩
  right := hright
  classes c := by
    rw [hlayouts, h.classes]
    refine ⟨fun ⟨raw, hmem, hk⟩ => ⟨raw, List.mem_cons_of_mem _ hmem, hk⟩, fun ⟨raw, hmem, hk⟩ => ?_⟩
    rcases List.mem_cons.mp hmem with heq | hmem
    · exact hraw raw c heq.symm hk
    · exact ⟨raw, hmem, hk⟩

/-- A new layout is that of arrays or of a raw class that is asked for now. -/
theorem Holds.insert (h : Holds ts rs cache) (hty : ts.pool.Has ty) {key : LayoutKey}
    (hkey : LayoutCache.keyOf ts ty = .ok key)
    (hinst : ∀ base sub outer, ts.kind ty ≠ .inst base sub outer) :
    Holds ts (layout ty :: rs)
      { cache with layouts := cache.layouts.insert key (LayoutCache.layoutFor ts key) } where
  admitted := List.forall_mem_cons.mpr ⟨hty, h.admitted⟩
  right := h.right.insert hty hkey
  classes c := by
    have hraw : ts.kind ty = .raw c ↔ .classDef c = key := by
      refine ⟨fun hk => Except.ok.inj ((keyOf_raw hk).symm.trans hkey), ?_⟩
      rintro rfl
      exact (classDef_of_keyOf hkey).resolve_right fun ⟨sub, outer, hk⟩ => hinst c sub outer hk
    have hasks : AsksForRaw ts (layout ty :: rs) c ↔ ts.kind ty = .raw c ∨ AsksForRaw ts rs c := by
      simp only [AsksForRaw, List.mem_cons, layout.injEq, or_and_right, exists_or, exists_eq_left]
    rw [hasks, hraw, ← h.classes, Memo.find?_insert]
    split
    case isTrue hc => exact iff_of_true rfl (.inl hc)
    case isFalse hc => exact (or_iff_right hc).symm

/-- What a request for a layout comes to. Either it is for an instantiation whose raw class was asked
for before, and gets the layout of the class; or the answer is what it would have been at first. -/
structure IsServed (ts : TypeSystem) (rs : List LayoutRequest) (cache : LayoutCache) (ty : TypeId)
    (run : Except MangleError ClassLayout × LayoutCache) : Prop where
  holds : Holds ts (layout ty :: rs) run.2
  fails : ∀ e, run.1 = .error e → run.2 = cache
  answer : (∃ base sub outer, ts.kind ty = .inst base sub outer ∧ AsksForRaw ts rs base ∧
      run.1 = .ok (LayoutCache.layoutFor ts (.classDef base))) ∨
    ¬ IsShadowed ts rs (layout ty) ∧ run.1 = ((LayoutCache.layout ts ty).run {}).1

theorem not_isShadowed (h : ∀ base sub outer, ts.kind ty ≠ .inst base sub outer) :
    ¬ IsShadowed ts rs (layout ty) := fun ⟨base, sub, outer, hk, _⟩ => h base sub outer hk

theorem run_fresh_layout {key : LayoutKey} (hkey : LayoutCache.keyOf ts ty = .ok key) :
    ((LayoutCache.layout ts ty).run {}).1 = LayoutCache.layoutOf ts ty := by
  rw [LayoutCache.run_layout_new hkey rfl]

section

variable (h : Holds ts rs cache) (hty : ts.pool.Has ty)
include h hty

/-- A type without a layout is refused. -/
theorem Holds.layout_refused {e : MangleError} (hkey : LayoutCache.keyOf ts ty = .error e) :
    IsServed ts rs cache ty ((LayoutCache.layout ts ty).run cache) := by
  have hrun : ∀ cache', (LayoutCache.layout ts ty).run cache' = (.error e, cache') := fun _ =>
    LayoutCache.run_layout_without_key hkey
  have hinst : ∀ base sub outer, ts.kind ty ≠ .inst base sub outer := fun base sub outer hk =>
    nomatch hkey.symm.trans (keyOf_inst hk)
  rw [hrun]
  refine ⟨h.request hty h.right (fun _ => rfl) ?_, fun _ _ => rfl, .inr ⟨not_isShadowed hinst, ?_⟩⟩
  · rintro _ c ⟨⟩ hk
    exact nomatch hkey.symm.trans (keyOf_raw hk)
  · rw [hrun]

variable {key : LayoutKey} (hkey : LayoutCache.keyOf ts ty = .ok key)
include hkey

/-- A layout that the cache holds is answered. -/
theorem Holds.layout_known {l : ClassLayout} (hfind : cache.layouts.find? key = some l) :
    IsServed ts rs cache ty ((LayoutCache.layout ts ty).run cache) := by
  obtain ⟨rfl, -⟩ := h.right.layouts hfind
  have hasks : ∀ {c}, LayoutCache.keyOf ts ty = .ok (.classDef c) → AsksForRaw ts rs c := by
    intro c hc
    obtain rfl := Except.ok.inj (hkey.symm.trans hc)
    exact (h.classes c).mp (hfind ▸ rfl)
  rw [LayoutCache.run_layout_known hkey hfind]
  refine ⟨h.request hty h.right (fun _ => rfl) ?_, fun _ _ => rfl, ?_⟩
  · rintro _ c ⟨⟩ hk
    exact hasks (keyOf_raw hk)
  · by_cases hinst : ∃ base sub outer, ts.kind ty = .inst base sub outer
    · obtain ⟨base, sub, outer, hk⟩ := hinst
      obtain rfl := Except.ok.inj (hkey.symm.trans (keyOf_inst hk))
      exact .inl ⟨base, sub, outer, hk, hasks hkey, rfl⟩
    · have hinst' : ∀ base sub outer, ts.kind ty ≠ .inst base sub outer :=
        fun base sub outer hk => hinst ⟨base, sub, outer, hk⟩
      rw [run_fresh_layout hkey, LayoutCache.layoutOf_eq hinst' hkey]
      exact .inr ⟨not_isShadowed hinst', rfl⟩

/-- A layout that the cache does not hold is computed, and an instantiation is refused. -/
theorem Holds.layout_new (hfind : cache.layouts.find? key = none) :
    IsServed ts rs cache ty ((LayoutCache.layout ts ty).run cache) := by
  rw [LayoutCache.run_layout_new hkey hfind]
  by_cases hinst : ∃ base sub outer, ts.kind ty = .inst base sub outer
  · obtain ⟨base, sub, outer, hk⟩ := hinst
    obtain rfl := Except.ok.inj (hkey.symm.trans (keyOf_inst hk))
    have hasks : ¬ AsksForRaw ts rs base := fun hasks => by
      have hsome := (h.classes base).mpr hasks
      rw [hfind] at hsome
      cases hsome
    rw [layoutOf_inst hk]
    refine ⟨h.request hty h.right (fun _ => rfl) ?_, fun _ _ => rfl, .inr ⟨?_, ?_⟩⟩
    · rintro _ c ⟨⟩ hraw
      exact nomatch hk.symm.trans hraw
    · rintro ⟨base', _, _, hk', hasks'⟩
      obtain ⟨rfl, -, -⟩ := TypeKind.inst.inj (hk.symm.trans hk')
      exact hasks hasks'
    · rw [run_fresh_layout hkey, layoutOf_inst hk]
  · have hinst' : ∀ base sub outer, ts.kind ty ≠ .inst base sub outer :=
      fun base sub outer hk => hinst ⟨base, sub, outer, hk⟩
    have hlayout := LayoutCache.layoutOf_eq hinst' hkey
    rw [hlayout]
    refine ⟨h.insert hty hkey hinst', nofun, .inr ⟨not_isShadowed hinst', ?_⟩⟩
    rw [run_fresh_layout hkey, hlayout]

omit hkey

theorem Holds.layout : IsServed ts rs cache ty ((LayoutCache.layout ts ty).run cache) := by
  cases hkey : LayoutCache.keyOf ts ty with
  | error e => exact h.layout_refused hty hkey
  | ok key =>
    cases hfind : cache.layouts.find? key with
    | some l => exact h.layout_known hty hkey hfind
    | none => exact h.layout_new hty hkey hfind

end

/-- A request for an interface table gets the same answer at all times. -/
theorem Holds.interfaceTable (h : Holds ts rs cache) {iface : TypeId} (hiface : ts.pool.Has iface)
    (hty : ts.pool.Has ty) :
    let run := (LayoutCache.interfaceTable ts iface ty).run cache
    Holds ts (interfaceTable iface ty :: rs) run.2 ∧ (∀ e, run.1 = .error e → run.2 = cache) ∧
      run.1 = ((LayoutCache.interfaceTable ts iface ty).run {}).1 := by
  intro run
  obtain ⟨cache', hrun, hright⟩ := LayoutCache.interfaceTable_eq h.right hiface hty
  obtain ⟨fresh', hfresh, -⟩ :=
    LayoutCache.interfaceTable_eq (LayoutCache.right_empty ts) hiface hty
  have hsame : run.2.layouts = cache.layouts ∧ ∀ e, run.1 = .error e → run.2 = cache :=
    LayoutCache.interfaceTable_leaves ts iface ty cache
  refine ⟨?_, hsame.2, ?_⟩
  · refine h.request ⟨hiface, hty⟩ ?_ (fun c => by rw [hsame.1]) nofun
    rw [show run.2 = cache' from congrArg Prod.snd hrun]
    exact hright
  · exact (congrArg Prod.fst hrun).trans (congrArg Prod.fst hfresh).symm

/-- What a cache holds follows from what it was asked for. -/
theorem Asked.holds (h : Asked ts rs cache) : Holds ts rs cache := by
  induction h with
  | empty ts => exact holds_empty ts
  | keep _ hnames ih => exact ih.of_keepsNames hnames
  | request r _ hr ih =>
    cases r with
    | layout ty =>
      rw [run_layout]
      exact (ih.layout hr).holds
    | interfaceTable iface ty =>
      rw [run_interfaceTable]
      exact (ih.interfaceTable hr.1 hr.2).1

/-! ### Answers -/

theorem fresh_layout (ts : TypeSystem) (ty : TypeId) :
    fresh ts (layout ty) = ((LayoutCache.layout ts ty).run {}).1.map .layout := by
  rw [fresh, run_layout]

theorem fresh_interfaceTable (ts : TypeSystem) (iface ty : TypeId) :
    fresh ts (interfaceTable iface ty) =
      ((LayoutCache.interfaceTable ts iface ty).run {}).1.map .symbol := by
  rw [fresh, run_interfaceTable]

/-- An empty cache refuses an instantiation. -/
theorem fresh_inst (hk : ts.kind ty = .inst base sub outer) :
    fresh ts (layout ty) = .error
      (if ts.isInterface base then .notAnInterface (ts.display ty)
        else .notAClass (ts.display ty)) := by
  rw [fresh_layout, LayoutCache.run_layout_new (keyOf_inst hk) rfl, layoutOf_inst hk]
  rfl

/-- An empty cache answers the layout of a raw class. -/
theorem fresh_raw {c : ClassId} (hk : ts.kind ty = .raw c) :
    fresh ts (layout ty) = .ok (.layout (LayoutCache.layoutFor ts (.classDef c))) := by
  rw [fresh_layout, LayoutCache.run_layout_new (keyOf_raw hk) rfl, LayoutCache.layoutOf_raw hk]
  rfl

/-- A cache answers a request as an empty cache would, unless the request is for an instantiation
whose raw class was asked for before. Such a request gets the answer to the one for the raw class,
where an empty cache refuses it. A failing request leaves the cache as it is. -/
theorem answer_eq_fresh_iff (h : Asked ts rs cache) (hr : r.Admitted ts) :
    let run := (r.answer ts).run cache
    (run.1 = r.fresh ts ↔ ¬ r.IsShadowed ts rs) ∧
      (∀ ty base sub outer raw, r = layout ty → ts.kind ty = .inst base sub outer →
        layout raw ∈ rs → ts.kind raw = .raw base →
          run.1 = (layout raw).fresh ts ∧ ∃ l, (layout raw).fresh ts = .ok l) ∧
      (∀ ty base sub outer, r = layout ty → ts.kind ty = .inst base sub outer →
        r.fresh ts = .error (if ts.isInterface base then .notAnInterface (ts.display ty)
          else .notAClass (ts.display ty))) ∧
      ∀ e, run.1 = .error e → run.2 = cache := by
  cases r with
  | interfaceTable iface ty =>
    obtain ⟨-, hfail, hsame⟩ := h.holds.interfaceTable hr.1 hr.2
    rw [run_interfaceTable, fresh_interfaceTable, hsame]
    refine ⟨iff_of_true rfl id, nofun, nofun, fun e he => hfail e ?_⟩
    rw [hsame]
    exact eq_error_of_map he
  | layout ty =>
    obtain ⟨-, hfail, hcases⟩ := h.holds.layout hr
    have hfail' : ∀ e, (((layout ty).answer ts).run cache).1 = .error e →
        (((layout ty).answer ts).run cache).2 = cache := fun e he => by
      rw [run_layout] at he ⊢
      exact hfail e (eq_error_of_map he)
    have hrefused : ∀ ty' base sub outer, layout ty = layout ty' →
        ts.kind ty' = .inst base sub outer → fresh ts (layout ty) =
          .error (if ts.isInterface base then .notAnInterface (ts.display ty')
            else .notAClass (ts.display ty')) := by
      rintro _ base sub outer ⟨⟩ hk
      exact fresh_inst hk
    rcases hcases with ⟨base, sub, outer, hk, hasks, hrun⟩ | ⟨hfree, hrun⟩
    · have hanswer : (((layout ty).answer ts).run cache).1 =
          .ok (.layout (LayoutCache.layoutFor ts (.classDef base))) := by
        rw [run_layout, hrun]
        rfl
      refine ⟨iff_of_false (fun heq => ?_) (not_not_intro ⟨base, sub, outer, hk, hasks⟩), ?_,
        hrefused, hfail'⟩
      · exact nomatch hanswer.symm.trans (heq.trans (fresh_inst hk))
      · rintro _ base' _ _ raw ⟨⟩ hk' - hraw
        obtain ⟨rfl, -, -⟩ := TypeKind.inst.inj (hk.symm.trans hk')
        exact ⟨hanswer.trans (fresh_raw hraw).symm, _, fresh_raw hraw⟩
    · have hanswer : (((layout ty).answer ts).run cache).1 = fresh ts (layout ty) := by
        rw [run_layout, hrun, fresh_layout]
      refine ⟨iff_of_true hanswer hfree, ?_, hrefused, hfail'⟩
      rintro _ base sub outer raw ⟨⟩ hk hmem hraw
      exact absurd ⟨base, sub, outer, hk, raw, hmem, hraw⟩ hfree

/-- After its raw class, `Box<core.String>` has a layout; before, it has none. -/
theorem answer_eq_fresh_iff_box :
    let ts := Canonicalizer.boxSession.types
    let cache := (((layout ⟨15⟩).answer ts).run {}).2
    ts.kind ⟨15⟩ = .raw ⟨2⟩ ∧ ts.kind ⟨16⟩ = .inst ⟨2⟩ ⟨1⟩ none ∧
      Asked ts [layout ⟨15⟩] cache ∧
      (∃ l, (((layout ⟨16⟩).answer ts).run cache).1 = .ok l) ∧
      ¬ (((layout ⟨16⟩).answer ts).run cache).1 = (layout ⟨16⟩).fresh ts := by
  intro ts cache
  have hraw : ts.pool.HasKind ⟨15⟩ (.raw ⟨2⟩) := by decide +kernel
  have hinst : ts.pool.HasKind ⟨16⟩ (.inst ⟨2⟩ ⟨1⟩ none) :=
    Canonicalizer.boxSession_declares.2.2
  have hasked : Asked ts [layout ⟨15⟩] cache := .request _ (.empty ts) hraw.has
  obtain ⟨hsame, hshadowed, -, -⟩ := answer_eq_fresh_iff hasked (r := layout ⟨16⟩) hinst.has
  have hmem : layout ⟨15⟩ ∈ [layout ⟨15⟩] := List.mem_singleton_self _
  obtain ⟨hanswer, l, hl⟩ := hshadowed _ _ _ _ ⟨15⟩ rfl hinst.kind_eq hmem hraw.kind_eq
  refine ⟨hraw.kind_eq, hinst.kind_eq, hasked, ⟨l, hanswer.trans hl⟩, fun heq => ?_⟩
  exact hsame.mp heq ⟨⟨2⟩, _, _, hinst.kind_eq, ⟨15⟩, hmem, hraw.kind_eq⟩

end LayoutRequest

end Erasure
