/-
Remembering what would be computed again.

A canonicalizer may forget all that it remembers without a change of its answers, and of the types
that it makes on the way. `Recalls` says of every remembered result that a canonicalizer with
nothing remembered would find it again, now and in every type system that continues this one, and
make nothing new. The main statements:

* `Yields`: what an action answers, and the type system that it leaves, whatever is remembered.
* `Replays`: such an action, run again later, gives the same answer and makes nothing. `Replays.bind`
  and `Replays.mapM` put such actions together, `Replays.memoized` lets them remember.
* `canonicalize_replays`: canonicalizing a type is such an action.
-/
import Erasure.Proofs.Canonical.Addition
import Erasure.Proofs.Canonical.Session

namespace Erasure

/-! ### Type systems that follow -/

namespace TypeSystem

variable {ts us vs : TypeSystem}

/-- A valid and acyclic type system whose root class has no enclosing instance. -/
structure Regular (ts : TypeSystem) : Prop where
  valid : ts.Valid
  acyclic : ts.Acyclic
  root : (ts.classDef .object).outer = none

/-- A type system in which all that erasure observes of the first one is what it was. -/
structure Follows (ts us : TypeSystem) : Prop where
  continues : Continues ts us
  regular : us.Regular

theorem Regular.of_continues (hts : ts.Regular) (h : Continues ts us) (hus : us.Valid)
    (hacyclic : us.Acyclic) : us.Regular :=
  ⟨hus, hacyclic, (h.outer (mentions_raw hts.valid.object)).trans hts.root⟩

theorem Regular.of_extends (hts : ts.Regular) (h : Extends ts us) (hus : us.Valid) : us.Regular :=
  hts.of_continues (h.continues hts.valid) hus (hts.acyclic.of_extends hts.valid h)

theorem Regular.follows (hts : ts.Regular) : Follows ts ts := ⟨.refl hts.valid, hts⟩

theorem Follows.of_extends (hts : ts.Regular) (h : Extends ts us) (hus : us.Valid) :
    Follows ts us := ⟨h.continues hts.valid, hts.of_extends h hus⟩

theorem Follows.trans (h : Follows ts us) (h' : Follows us vs) : Follows ts vs :=
  ⟨h.continues.trans h'.continues, h'.regular⟩

theorem Follows.le (h : Follows ts us) : ts ≤ us := h.continues.le

end TypeSystem

namespace Canonicalizer

open TypeSystem (Regular Follows)

variable {s t : Canonicalizer} {ts us vs : TypeSystem} {α β : Type}

/-! ### Right memos -/

/-- With nothing remembered the action answers `a` and makes nothing, now and later. -/
def Recalled (act : CanonicalM α) (a : α) (ts : TypeSystem) : Prop :=
  ∀ us, Follows ts us → ∃ memo, act (fresh us) = (a, ⟨us, memo⟩)

theorem Recalled.of_follows {act : CanonicalM α} {a : α} (h : Recalled act a ts)
    (hfollows : Follows ts us) : Recalled act a us := fun vs hvs => h vs (hfollows.trans hvs)

/-- Whatever is remembered would be found again. -/
structure RecallsMemo (memo : CanonicalMemo) (ts : TypeSystem) : Prop where
  types : ∀ {ty r}, memo.types.find? ty = some r → Recalled (canonicalize ty) r ts
  members : ∀ {m c}, memo.members.find? m = some c → Recalled (canonicalizeMember m).run (.ok c) ts
  outers : ∀ {c x}, memo.outers.find? c = some x → Recalled (canonicalOuter c) x ts
  classSubsts : ∀ {c x}, memo.classSubsts.find? c = some x → Recalled (classErasure c) x ts
  memberSubsts : ∀ {m x}, memo.memberSubsts.find? m = some x → Recalled (memberErasure m) x ts

theorem RecallsMemo.of_follows {memo : CanonicalMemo} (h : RecallsMemo memo ts)
    (hfollows : Follows ts us) : RecallsMemo memo us where
  types hfind := (h.types hfind).of_follows hfollows
  members hfind := (h.members hfind).of_follows hfollows
  outers hfind := (h.outers hfind).of_follows hfollows
  classSubsts hfind := (h.classSubsts hfind).of_follows hfollows
  memberSubsts hfind := (h.memberSubsts hfind).of_follows hfollows

/-- A canonicalizer that remembers nothing but what it would find again. -/
structure Recalls (s : Canonicalizer) : Prop where
  valid : s.Valid
  regular : s.types.Regular
  memo : RecallsMemo s.memo s.types

theorem fresh_recalls (hts : ts.Regular) : (fresh ts).Recalls where
  valid := fresh_valid hts.valid
  regular := hts
  memo := ⟨nofun, nofun, nofun, nofun, nofun⟩

/-- What is remembered stays right while the type system goes on. -/
theorem Recalls.of_follows (hs : s.Recalls) (h : Follows s.types us) :
    Recalls { s with types := us } where
  valid := by
    have hle : s ≤ { s with types := us } :=
      ⟨h.le, le_refl _, le_refl _, le_refl _, le_refl _⟩
    exact hs.valid.extend hle h.regular.valid Or.inl Or.inl Or.inl Or.inl Or.inl
  regular := h.regular
  memo := hs.memo.of_follows h

/-! ### Actions that do not depend on the memo -/

/-- Whatever is remembered, the action answers `a` in the type system `ts` and leaves `us`. -/
def Yields (act : CanonicalM α) (ts : TypeSystem) (a : α) (us : TypeSystem) : Prop :=
  ∀ s, s.Recalls → s.types = ts → ∃ memo, act s = (a, ⟨us, memo⟩) ∧ Recalls ⟨us, memo⟩

theorem Yields.pure (a : α) : Yields (pure a) ts a ts := by
  rintro s hs rfl
  exact ⟨s.memo, rfl, hs⟩

theorem Yields.bind {act : CanonicalM α} {f : α → CanonicalM β} {a : α} {b : β}
    (h : Yields act ts a us) (hf : Yields (f a) us b vs) : Yields (act >>= f) ts b vs := by
  intro s hs hts
  obtain ⟨memo, heq, ht⟩ := h s hs hts
  rw [bind_apply, heq]
  exact hf _ ht rfl

theorem Yields.congr {act act' : CanonicalM α} {a : α}
    (hact : ∀ s, s.Recalls → s.types = ts → act' s = act s) (h : Yields act ts a us) :
    Yields act' ts a us := by
  intro s hs hts
  rw [hact s hs hts]
  exact h s hs hts

theorem Yields.get_bind {x : CanonicalM β} {f : Canonicalizer → CanonicalM β} {b : β}
    (hf : ∀ s, s.types = ts → f s = x) (h : Yields x ts b us) :
    Yields ((get : CanonicalM Canonicalizer) >>= f) ts b us :=
  h.congr fun s _ hs => by rw [get_bind_apply, hf s hs]

theorem Yields.lift {act : StateM TypeSystem α} {P : α → TypeSystem → Prop} (h : Keeps act ts P) :
    Yields (liftM act : CanonicalM α) ts (act ts).1 (act ts).2 := by
  rintro s hs rfl
  exact ⟨s.memo, lift_apply act s, hs.of_follows (.of_extends hs.regular h.grows h.valid)⟩

/-- From the type system `us` on the action answers `a` and makes nothing, whatever is remembered. -/
def Repeats (act : CanonicalM α) (a : α) (us : TypeSystem) : Prop :=
  ∀ vs, Follows us vs → Yields act vs a vs

theorem Repeats.of_follows {act : CanonicalM α} {a : α} (h : Repeats act a ts)
    (hfollows : Follows ts us) : Repeats act a us := fun vs hvs => h vs (hfollows.trans hvs)

theorem Repeats.bind {act : CanonicalM α} {f : α → CanonicalM β} {a : α} {b : β}
    (h : Repeats act a ts) (hf : Repeats (f a) b ts) : Repeats (act >>= f) b ts :=
  fun vs hvs => (h vs hvs).bind (hf vs hvs)

theorem Repeats.recalled {act : CanonicalM α} {a : α} (h : Repeats act a ts) :
    Recalled act a ts := by
  intro us hus
  obtain ⟨memo, heq, -⟩ := h us hus _ (fresh_recalls hus.regular) rfl
  exact ⟨memo, heq⟩

/-- Whatever is remembered, the action gives one answer and leaves one type system. If the answer
lasts, the action gives it again in every type system that follows, and makes nothing. -/
def ReplaysIf (lasts : α → Prop) (act : CanonicalM α) (ts : TypeSystem)
    (P : α → TypeSystem → Prop) : Prop :=
  ∃ a us, Yields act ts a us ∧ TypeSystem.Extends ts us ∧ us.Regular ∧ P a us ∧
    (lasts a → Repeats act a us)

/-- Such an action, when every answer lasts. -/
abbrev Replays (act : CanonicalM α) (ts : TypeSystem) (P : α → TypeSystem → Prop) : Prop :=
  ReplaysIf (fun _ => True) act ts P

namespace ReplaysIf

variable {lasts : α → Prop} {act : CanonicalM α} {P Q : α → TypeSystem → Prop}

theorem mono (h : ReplaysIf lasts act ts P)
    (hPQ : ∀ a us, TypeSystem.Extends ts us → us.Regular → P a us → Q a us) :
    ReplaysIf lasts act ts Q := by
  obtain ⟨a, us, hyields, hext, hus, ha, hrepeats⟩ := h
  exact ⟨a, us, hyields, hext, hus, hPQ a us hext hus ha, hrepeats⟩

theorem of_replays (h : Replays act ts P) : ReplaysIf lasts act ts P := by
  obtain ⟨a, us, hyields, hext, hus, ha, hrepeats⟩ := h
  exact ⟨a, us, hyields, hext, hus, ha, fun _ => hrepeats trivial⟩

theorem with_recalled (h : ReplaysIf lasts act ts P) :
    ReplaysIf lasts act ts fun a us => P a us ∧ (lasts a → Recalled act a us) := by
  obtain ⟨a, us, hyields, hext, hus, ha, hrepeats⟩ := h
  exact ⟨a, us, hyields, hext, hus, ⟨ha, fun hlasts => (hrepeats hlasts).recalled⟩, hrepeats⟩

/-- What the action keeps with nothing remembered holds of its answer. -/
theorem with_keeps {R : α → Canonicalizer → Prop} (hts : ts.Regular)
    (h : ReplaysIf lasts act ts P) (hkeeps : Keeps act (fresh ts) R) :
    ReplaysIf lasts act ts fun a us => P a us ∧
      ∃ memo, Store.Grows (fresh ts) ⟨us, memo⟩ ∧ Recalls ⟨us, memo⟩ ∧ R a ⟨us, memo⟩ := by
  obtain ⟨a, us, hyields, hext, hus, ha, hrepeats⟩ := h
  obtain ⟨memo, heq, hrecalls⟩ := hyields _ (fresh_recalls hts) rfl
  have hgrows := hkeeps.grows
  have hpost := hkeeps.post
  rw [heq] at hgrows hpost
  exact ⟨a, us, hyields, hext, hus, ⟨ha, memo, hgrows, hrecalls, hpost⟩, hrepeats⟩

/-- Where the answer is known and nothing is to be made, nothing is made whatever is remembered. -/
theorem yields_of_recalled {a : α} (hts : ts.Regular) (h : ReplaysIf lasts act ts P)
    (ha : Recalled act a ts) : Yields act ts a ts := by
  obtain ⟨b, us, hyields, -⟩ := h
  obtain ⟨memo, heq⟩ := ha ts hts.follows
  obtain ⟨memo', heq', -⟩ := hyields _ (fresh_recalls hts) rfl
  obtain ⟨rfl, hstate⟩ := Prod.mk.inj (heq.symm.trans heq')
  obtain rfl : ts = us := congrArg Canonicalizer.types hstate
  exact hyields

theorem bind {lasts' : β → Prop} {f : α → CanonicalM β} {R : β → TypeSystem → Prop}
    (h : Replays act ts P)
    (hf : ∀ a us, TypeSystem.Extends ts us → us.Regular → P a us → ReplaysIf lasts' (f a) us R) :
    ReplaysIf lasts' (act >>= f) ts R := by
  obtain ⟨a, us, hyields, hext, hus, ha, hrepeats⟩ := h
  obtain ⟨b, vs, hyields', hext', hvs, hb, hrepeats'⟩ := hf a us hext hus ha
  have hfollows : Follows us vs := .of_extends hus hext' hvs.valid
  exact ⟨b, vs, hyields.bind hyields', hext.trans hext', hvs, hb, fun hlasts =>
    ((hrepeats trivial).of_follows hfollows).bind (hrepeats' hlasts)⟩

/-- Reading the type system, when those that follow agree on all that is read. -/
theorem get_bind {x : CanonicalM α} {f : Canonicalizer → CanonicalM α} (hts : ts.Regular)
    (hf : ∀ s, Follows ts s.types → f s = x) (h : ReplaysIf lasts x ts P) :
    ReplaysIf lasts ((get : CanonicalM Canonicalizer) >>= f) ts P := by
  obtain ⟨a, us, hyields, hext, hus, ha, hrepeats⟩ := h
  have hfollows : Follows ts us := .of_extends hts hext hus.valid
  refine ⟨a, us, hyields.get_bind fun s hs => hf s (hs ▸ hts.follows), hext, hus, ha, ?_⟩
  exact fun hlasts vs hvs =>
    (hrepeats hlasts vs hvs).get_bind fun s hs => hf s (hs ▸ hfollows.trans hvs)

theorem congr {act' : CanonicalM α} (hts : ts.Regular)
    (hact : ∀ s, s.Recalls → Follows ts s.types → act' s = act s) (h : ReplaysIf lasts act ts P) :
    ReplaysIf lasts act' ts P := by
  obtain ⟨a, us, hyields, hext, hus, ha, hrepeats⟩ := h
  have hfollows : Follows ts us := .of_extends hts hext hus.valid
  refine ⟨a, us, hyields.congr fun s hs heq => hact s hs (heq ▸ hts.follows), hext, hus, ha, ?_⟩
  exact fun hlasts vs hvs => (hrepeats hlasts vs hvs).congr fun s hs heq =>
    hact s hs (heq ▸ hfollows.trans hvs)

/-- A result may be remembered when it is right to remember it: an action that looks for a
remembered result first, and remembers what it computes, does not depend on the memo either. -/
theorem memoized (body : CanonicalM α) (look : CanonicalMemo → Option α)
    (save : α → CanonicalMemo → CanonicalMemo) (hts : ts.Regular)
    (hact : ∀ s, s.Recalls → Follows ts s.types → act s = match look s.memo with
      | some a => (a, s)
      | none => ((body s).1, { (body s).2 with memo := save (body s).1 (body s).2.memo }))
    (hempty : look {} = none)
    (hlook : ∀ {s : Canonicalizer} {a}, s.Recalls → Follows ts s.types → look s.memo = some a →
      Recalled act a s.types)
    (hvalid : ∀ s, s.Recalls → Follows ts s.types → (act s).2.Valid)
    (hsave : ∀ a us memo, P a us → RecallsMemo memo us → (lasts a → Recalled act a us) →
      RecallsMemo (save a memo) us)
    (hP : ∀ a us vs, Follows us vs → P a us → P a vs)
    (hbody : ReplaysIf lasts body ts P) : ReplaysIf lasts act ts P := by
  obtain ⟨a, us, hyields, hext, hus, ha, hrepeats⟩ := hbody
  have hfollows : Follows ts us := .of_extends hts hext hus.valid
  have hrecalled : lasts a → Recalled act a us := by
    intro hlasts vs hvs
    obtain ⟨memo, heq, -⟩ := hrepeats hlasts vs hvs _ (fresh_recalls hvs.regular) rfl
    refine ⟨save a memo, ?_⟩
    rw [hact _ (fresh_recalls hvs.regular) (hfollows.trans hvs), show (fresh vs).memo = {} from rfl,
      hempty, heq]
  -- the action does what the body does, whether the result is remembered or not
  have hall : ∀ ts' us', Follows ts ts' → Follows us us' → Yields body ts' a us' →
      Yields act ts' a us' := by
    rintro ts' us' hts' hus' hbody' s hs rfl
    have hright := hact s hs hts'
    have hvalid' := hvalid s hs hts'
    cases hfind : look s.memo with
    | some b =>
      rw [hfind] at hright
      obtain ⟨memo, heq⟩ := hlook hs hts' hfind s.types hs.regular.follows
      obtain ⟨memo', heq', -⟩ := hbody' _ (fresh_recalls hs.regular) rfl
      rw [hact _ (fresh_recalls hs.regular) hts', show (fresh s.types).memo = {} from rfl, hempty,
        heq'] at heq
      obtain ⟨rfl, hstate⟩ := Prod.mk.inj heq
      obtain rfl : us' = s.types := congrArg Canonicalizer.types hstate
      exact ⟨s.memo, hright, hs⟩
    | none =>
      rw [hfind] at hright
      obtain ⟨memo, heq, hrecalls⟩ := hbody' s hs rfl
      rw [heq] at hright
      rw [hright] at hvalid'
      refine ⟨save a memo, hright, hvalid', hrecalls.regular, ?_⟩
      exact hsave a us' memo (hP a us us' hus' ha) hrecalls.memo fun hlasts =>
        (hrecalled hlasts).of_follows hus'
  refine ⟨a, us, hall ts us hts.follows hus.follows hyields, hext, hus, ha, ?_⟩
  exact fun hlasts vs hvs => hall vs vs (hfollows.trans hvs) hvs (hrepeats hlasts vs hvs)

theorem pure {a : α} (hts : ts.Regular) (ha : P a ts) : ReplaysIf lasts (pure a) ts P :=
  ⟨a, ts, .pure a, .refl ts, hts, ha, fun _ _ _ => .pure a⟩

theorem map {f : α → β} {R : β → TypeSystem → Prop} (h : Replays act ts P)
    (hf : ∀ a us, P a us → R (f a) us) : Replays (f <$> act) ts R :=
  h.bind (f := fun a => Pure.pure (f a)) fun a us _ hus ha => .pure hus (hf a us ha)

theorem discard (h : Replays act ts P) :
    Replays (Functor.discard act) ts fun _ us => ∃ a, P a us := h.map fun a _ ha => ⟨a, ha⟩

/-- Work on the type system that makes nothing when it is done again. -/
theorem lift_of_keeps {act : StateM TypeSystem α} (hts : ts.Regular) (h : Keeps act ts P)
    (hagain : ∀ us, Follows (act ts).2 us → act us = ((act ts).1, us)) :
    Replays (liftM act : CanonicalM α) ts P := by
  refine ⟨_, _, .lift h, h.grows, hts.of_extends h.grows h.valid, h.post, fun _ vs hvs => ?_⟩
  rintro s hs rfl
  refine ⟨s.memo, ?_, hs⟩
  rw [lift_apply, hagain s.types hvs]

theorem lift {act : StateM TypeSystem α} (hts : ts.Regular) (h : Computes act ts P) :
    Replays (liftM act : CanonicalM α) ts P :=
  lift_of_keeps hts h.toKeeps fun us hus => h.again us hus.le

theorem mapM {f : α → CanonicalM β} {R : α → β → TypeSystem → Prop}
    (hmono : ∀ a b us vs, Follows us vs → R a b us → R a b vs) {as : List α}
    (hts : ts.Regular)
    (h : ∀ a ∈ as, ∀ us, TypeSystem.Extends ts us → us.Regular → Replays (f a) us (R a)) :
    Replays (as.mapM f) ts fun bs us => List.Forall₂ (R · · us) as bs := by
  induction as generalizing ts with
  | nil => exact .pure hts .nil
  | cons a as ih =>
    rw [List.mapM_cons]
    refine (h a List.mem_cons_self ts (.refl ts) hts).bind fun b us hus hreg hb => ?_
    have htail := ih hreg fun a' ha' vs hvs => h a' (List.mem_cons_of_mem _ ha') vs (hus.trans hvs)
    refine htail.bind fun bs vs hvs hreg' hbs => .pure hreg' ?_
    exact .cons (hmono a b us vs (.of_extends hreg hvs hreg'.valid) hb) hbs

theorem optionMapM {f : α → CanonicalM β} {o : Option α} (hts : ts.Regular)
    (h : ∀ a ∈ o, Replays (f a) ts fun _ _ => True) :
    Replays (o.mapM f) ts fun _ _ => True := by
  cases o with
  | none => exact .pure hts trivial
  | some a => exact (h a rfl).map fun _ _ _ => trivial

end ReplaysIf

/-! ### Types -/

/-- An erased type that is its own canonical form, with nothing to be made. -/
structure AtRest (ty : TypeId) (ts : TypeSystem) : Prop where
  normal : ts.pool.IsNormal ty
  recalled : Recalled (canonicalize ty) ty ts

theorem AtRest.of_follows {ty : TypeId} (h : AtRest ty ts) (hfollows : Follows ts us) :
    AtRest ty us := ⟨h.normal.of_le hfollows.le.1, h.recalled.of_follows hfollows⟩

/-- What erasure finds again, canonicalizing finds again. -/
theorem recalled_canonicalize {ty r : TypeId} (hty : ts.pool.Has ty)
    (h : Recalled (eraseWith canonicalize ty) r ts) : Recalled (canonicalize ty) r ts := by
  intro us hus
  obtain ⟨memo, heq⟩ := h us hus
  have hfresh := fresh_recalls hus.regular
  rw [canonicalize_eq hfresh.valid hfresh.regular.acyclic (hty.of_le hus.le.1),
    show (fresh us).memo.types.find? ty = none from rfl]
  dsimp only
  rw [bind_apply, heq]
  exact ⟨_, rfl⟩

/-- A type that is neither a variable nor an upper bound is erased as it stands. -/
theorem eraseWith_eq_self {canonical : TypeId → CanonicalM TypeId} {ty : TypeId}
    (hvar : ∀ v, s.types.kind ty ≠ .var v) (hlub : ∀ l, s.types.kind ty ≠ .lub l) :
    eraseWith canonical ty s = eraseKind canonical ty (s.types.kind ty) s := by
  have hresolves : s.types.Resolves ty ty := by
    unfold TypeSystem.Resolves
    split
    · rename_i l hk
      exact absurd hk (hlub l)
    · rfl
  have hself := TypeSystem.boundErasure_of_ne_var hvar
  rw [eraseWith_eq, get_bind_apply, hself, bind_apply, lift_apply,
    TypeSystem.resolveLub_eq hresolves, get_bind_apply]
  dsimp only
  rw [hself]

theorem atRest_prim {ty : TypeId} {p : Primitive} (hk : ts.pool.HasKind ty (.prim p)) :
    AtRest ty ts := by
  refine ⟨⟨_, .prim hk⟩, recalled_canonicalize hk.has fun us hus => ⟨{}, ?_⟩⟩
  have hkind : (fresh us).types.kind ty = .prim p := (hk.of_le hus.le.1).kind_eq
  rw [eraseWith_eq_self (by simp [hkind]) (by simp [hkind]), hkind]
  rfl

theorem atRest_null {ty : TypeId} (hk : ts.pool.HasKind ty .null) : AtRest ty ts := by
  refine ⟨⟨_, .null hk⟩, recalled_canonicalize hk.has fun us hus => ⟨{}, ?_⟩⟩
  have hkind : (fresh us).types.kind ty = .null := (hk.of_le hus.le.1).kind_eq
  rw [eraseWith_eq_self (by simp [hkind]) (by simp [hkind]), hkind]
  rfl

/-- A raw class is at rest once the enclosing instance of the class is canonical. -/
theorem atRest_raw {ty : TypeId} {c : ClassId} {outer : Option TypeId}
    (hk : ts.pool.HasKind ty (.raw c)) (houter : Recalled (canonicalOuter c) outer ts) :
    AtRest ty ts := by
  refine ⟨⟨_, .raw hk⟩, recalled_canonicalize hk.has fun us hus => ?_⟩
  have hkind : (fresh us).types.kind ty = .raw c := (hk.of_le hus.le.1).kind_eq
  obtain ⟨memo, heq⟩ := houter us hus
  refine ⟨memo, ?_⟩
  rw [eraseWith_eq_self (by simp [hkind]) (by simp [hkind]), hkind]
  exact congrArg (fun r : Option TypeId × Canonicalizer => (ty, r.2)) heq

theorem atRest_array {ty elem : TypeId} (hk : ts.pool.HasKind ty (.array elem))
    (helem : AtRest elem ts) : AtRest ty ts := by
  refine ⟨(Pool.isNormal_array_iff hk).mpr helem.normal,
    recalled_canonicalize hk.has fun us hus => ?_⟩
  have hkind : (fresh us).types.kind ty = .array elem := (hk.of_le hus.le.1).kind_eq
  obtain ⟨memo, heq⟩ := helem.recalled us hus
  refine ⟨memo, ?_⟩
  rw [eraseWith_eq_self (by simp [hkind]) (by simp [hkind]), hkind, eraseKind, bind_apply, heq]
  exact congrArg (fun r : TypeId × Pool => (r.1, (⟨{ us with pool := r.2 }, memo⟩ : Canonicalizer)))
    (Pool.internKind_eq (hk.of_le hus.le.1))

/-- The root class has no enclosing instance. -/
theorem atRest_object (hts : ts.Regular) : AtRest .object ts := by
  have hnone : Recalled (canonicalOuter .object) none ts := by
    intro us hus
    have houter : ((fresh us).types.classDef .object).outer = none := hus.regular.root
    refine ⟨{ outers := ({} : CanonicalMemo).outers.insert .object none }, ?_⟩
    unfold canonicalOuter outerWith
    rw [get_bind_apply, show (fresh us).memo.outers.find? .object = none from rfl]
    dsimp only
    rw [houter]
    rfl
  exact atRest_raw hts.valid.object hnone

section Types

/-- What can be made canonical does not depend on the memo, for types with `d` steps enough. -/
def ReplaysWithin (d : Nat) (ts : TypeSystem) : Prop :=
  ∀ us ty, TypeSystem.Extends ts us → us.Regular → us.pool.Has ty → us.Enough d ty →
    Replays (canonicalize ty) us AtRest

/-- The canonical enclosing instance of a class does not depend on the memo. -/
theorem canonicalOuter_replays_of_within {d : Nat} {c : ClassId} (hts : ts.Regular)
    (hc : ts.Mentions c) (houter : ∀ ty ∈ (ts.classDef c).outer, ts.Enough d ty)
    (ih : ReplaysWithin d ts) :
    Replays (canonicalOuter c) ts fun x us => Recalled (canonicalOuter c) x us := by
  suffices hreplays : Replays (canonicalOuter c) ts fun _ _ => True from
    hreplays.with_recalled.mono fun _ _ _ _ h => h.2 trivial
  refine ReplaysIf.memoized ((ts.classDef c).outer.mapM canonicalize)
    (fun memo => memo.outers.find? c)
    (fun x memo => { memo with outers := memo.outers.insert c x }) hts ?_ rfl ?_ ?_ ?_ ?_ ?_
  · intro s _ hfollows
    unfold canonicalOuter outerWith
    rw [get_bind_apply, hfollows.continues.outer hc]
    cases s.memo.outers.find? c <;> rfl
  · exact fun hs _ hfind => hs.memo.outers hfind
  · exact fun s hs _ =>
      (Canonicalization.canonicalOuter_keeps hs.valid hs.regular.acyclic c).valid
  · intro x us memo _ hmemo hx
    refine ⟨hmemo.types, hmemo.members, fun hfind => ?_, hmemo.classSubsts, hmemo.memberSubsts⟩
    rcases Memo.find?_insert_cases hfind with ⟨rfl, rfl⟩ | hfind
    · exact hx trivial
    · exact hmemo.outers hfind
  · exact fun _ _ _ _ => id
  · refine .optionMapM hts fun ty hty => ?_
    refine (ih ts ty (.refl ts) hts ((hts.valid.classes c).outer ty hty) (houter ty hty)).mono ?_
    exact fun _ _ _ _ _ => trivial

/-- What a step does by the kind of a type does not depend on the memo. -/
theorem eraseKind_replays {d : Nat} {ty : TypeId} {k : TypeKind} (hts : ts.Regular)
    (hkind : ts.pool.HasKind ty k) (hvar : ∀ v, k ≠ .var v) (henough : ts.Enough (d + 1) ty)
    (ih : ReplaysWithin d ts) : Replays (eraseKind canonicalize ty k) ts AtRest := by
  unfold eraseKind
  cases k with
  | prim p => exact .pure hts (atRest_prim hkind)
  | null => exact .pure hts (atRest_null hkind)
  | var v => exact absurd rfl (hvar v)
  | lub l => exact .pure hts (atRest_object hts)
  | raw c =>
    have houter := (henough.outer_raw hkind).outer hts.valid
    have hreplays := canonicalOuter_replays_of_within hts (TypeSystem.mentions_raw hkind) houter ih
    refine ReplaysIf.bind (hreplays.discard) fun _ us hext hus h => ?_
    obtain ⟨x, hx⟩ := h
    exact .pure hus (atRest_raw (hkind.of_le hext.le.1) hx)
  | inst c sub outer =>
    have hc := henough.outer_inst hkind
    have houter := (hc.mono 1).outer hts.valid
    have hreplays := canonicalOuter_replays_of_within hts (TypeSystem.mentions_inst hkind) houter ih
    refine ReplaysIf.bind (hreplays.discard) fun _ us hext hus _ => ?_
    have hraw := TypeSystem.lift_computes hus.valid (Pool.rawClass_computes hus.valid.pool c)
    refine ReplaysIf.bind (ReplaysIf.lift hus hraw) fun raw vs huv hvs hrawKind => ?_
    have hext' := hext.trans huv
    exact ih vs raw hext' hvs hrawKind.has (.raw hrawKind (hc.of_extends hts.valid hext'))
  | array elem =>
    have helem := henough.elem hkind
    have hhas := hts.valid.pool.has_part hkind List.mem_cons_self
    refine ReplaysIf.bind (ih ts elem (.refl ts) hts hhas helem) fun elem' us _ hus helem' => ?_
    have harray := TypeSystem.lift_computes hus.valid
      (Pool.array_computes hus.valid.pool helem'.normal.has)
    refine (ReplaysIf.lift hus harray).mono fun r vs huv hvs hr => ?_
    exact atRest_array hr (helem'.of_follows (.of_extends hus huv hvs.valid))

/-- One step of erasure does not depend on the memo. -/
theorem eraseWith_replays {d : Nat} {ty : TypeId} (hts : ts.Regular) (hty : ts.pool.Has ty)
    (henough : ts.Enough (d + 1) ty) (ih : ReplaysWithin d ts) :
    Replays (eraseWith canonicalize ty) ts AtRest := by
  rw [eraseWith_eq]
  have hbound := TypeSystem.has_boundErasure hts.valid hty
  have hresolves := TypeSystem.resolveLub_keeps hts.valid hbound
  refine ReplaysIf.get_bind (x := ?_) hts (fun s hs => ?_) ?_
  rotate_left
  · rw [hs.continues.boundErasure_eq hty]
  refine ReplaysIf.bind (.lift_of_keeps hts hresolves fun us hus => ?_) ?_
  · exact TypeSystem.resolveLub_eq (hresolves.post.of_preserves hresolves.valid
      hus.continues.toPreserves (hbound.of_le hresolves.grows.le.1))
  intro resolved us hext hus hresolved
  have hty' := hty.of_le hext.le.1
  have hresolved' := hresolved.has (hbound.of_le hext.le.1)
  have hdown : us.ComesDownTo ty (us.boundErasure resolved) :=
    ⟨resolved, by rwa [hext.boundErasure_eq hts.valid hty], rfl⟩
  have hu := hdown.has hus.valid hty'
  refine ReplaysIf.get_bind hus (fun s hs => ?_) (eraseKind_replays hus hu.hasKind
    (hdown.kind_ne_var hus.valid) ((henough.of_extends hts.valid hext).comesDownTo hdown)
    fun vs w huv => ih vs w (hext.trans huv))
  rw [hs.continues.boundErasure_eq hresolved', TypeSystem.kind_of_le hs.le hu]
  rfl

theorem RecallsMemo.rememberType {memo : CanonicalMemo} {ty r : TypeId} (h : RecallsMemo memo ts)
    (hr : AtRest r ts) (hty : Recalled (canonicalize ty) r ts) :
    RecallsMemo { memo with types := (memo.types.insert ty r).insert r r } ts := by
  refine ⟨fun hfind => ?_, h.members, h.outers, h.classSubsts, h.memberSubsts⟩
  rcases Memo.find?_insert_both_cases hfind with hfind | ⟨rfl | rfl, rfl⟩
  · exact h.types hfind
  · exact hty
  · exact hr.recalled

theorem replaysWithin (d : Nat) (ts : TypeSystem) : ReplaysWithin d ts := by
  induction d generalizing ts with
  | zero => exact fun _ _ _ _ _ henough => absurd henough.pos (Nat.lt_irrefl 0)
  | succ d ih =>
    intro us ty _ hus hty henough
    refine ReplaysIf.memoized (eraseWith canonicalize ty) (fun memo => memo.types.find? ty)
      (fun r memo => { memo with types := (memo.types.insert ty r).insert r r })
      hus ?_ rfl ?_ ?_ ?_ ?_ ?_
    · intro s hs hfollows
      rw [canonicalize_eq hs.valid hs.regular.acyclic (hty.of_le hfollows.le.1)]
      cases s.memo.types.find? ty <;> rfl
    · exact fun hs _ hfind => hs.memo.types hfind
    · exact fun s hs hfollows => (canonicalize_computes hs.valid hs.regular.acyclic
        (hty.of_le hfollows.le.1)).valid
    · exact fun r vs memo hr hmemo hrecalled => hmemo.rememberType hr (hrecalled trivial)
    · exact fun _ _ _ hvs h => h.of_follows hvs
    · exact eraseWith_replays hus hty henough (ih us)

/-- Canonicalizing a type does not depend on what is remembered. -/
theorem canonicalize_replays {ty : TypeId} (hts : ts.Regular) (hty : ts.pool.Has ty) :
    Replays (canonicalize ty) ts fun r us => AtRest r us ∧ Recalled (canonicalize ty) r us :=
  (replaysWithin _ ts ts ty (.refl ts) hts hty (TypeSystem.enough_erasureDepth hts.valid hts.acyclic
    hty)).with_recalled.mono fun _ _ _ _ h => ⟨h.1, h.2 trivial⟩

/-- Nor does canonicalizing the enclosing instance of a class. -/
theorem canonicalOuter_replays {c : ClassId} (hts : ts.Regular) (hc : ts.Mentions c) :
    Replays (canonicalOuter c) ts fun x us => Recalled (canonicalOuter c) x us :=
  canonicalOuter_replays_of_within hts hc (fun _ hty =>
    TypeSystem.enough_erasureDepth hts.valid hts.acyclic ((hts.valid.classes c).outer _ hty))
    (replaysWithin _ ts)

end Types

end Canonicalizer

end Erasure
