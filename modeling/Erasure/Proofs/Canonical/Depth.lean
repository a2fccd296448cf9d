/-
How deep erasure goes.

`Enough ts d ty` says that `d` steps take the erasure of a type to its end. In an acyclic type
system `erasureDepth` is enough for every type (`enough_erasureDepth`): along a path of bounds,
element types and candidates the types get older except at a bound, and every variable is met once;
along enclosing classes every class is met once.
-/
import Erasure.Proofs.Canonical.Relation
import Erasure.Proofs.TypeSystem.Bounds

namespace Erasure.TypeSystem

variable {ts us : TypeSystem}

/-! ### Acyclic type systems -/

/-- The class of the enclosing instance of a class. -/
def outerClass? (ts : TypeSystem) (c : ClassId) : Option ClassId :=
  (ts.classDef c).outer.bind ts.classOf?

/-- Enclosing instances are of class types and their classes form no cycle, and no type variable is
reached again from its own bound. -/
structure Acyclic (ts : TypeSystem) : Prop where
  outer : ∀ {c ty}, (ts.classDef c).outer = some ty → ∃ d, ts.classOf? ty = some d
  enclosing : ∀ c, ¬ Relation.TransGen (fun c d => ts.outerClass? c = some d) c c
  bound : ∀ {ty v}, ts.pool.HasKind ty (.var v) →
    ¬ Relation.ReflTransGen ts.LooksInto (ts.typeVar v).bound ty

theorem Acyclic.acyclicBounds (h : ts.Acyclic) : ts.AcyclicBounds := fun _ _ => h.bound

theorem classDef_of_not_lt {c : ClassId} (h : ¬ c.index < ts.classes.size) :
    ts.classDef c = default := by
  rw [classDef, Array.getD_eq_getD_getElem?, Array.getElem?_eq_none (Nat.le_of_not_lt h)]
  rfl

theorem typeVar_of_not_lt {v : TypeVarId} (h : ¬ v.index < ts.typeVars.size) :
    ts.typeVar v = default := by
  rw [typeVar, Array.getD_eq_getD_getElem?, Array.getElem?_eq_none (Nat.le_of_not_lt h)]
  rfl

/-- A kind of types that erasure looks into no further. -/
def IsEnd : TypeKind → Bool
  | .prim _ | .null | .raw _ | .inst _ _ _ => true
  | .array _ | .var _ | .lub _ => false

theorem not_looksInto_of_isEnd {ty u : TypeId} (h : IsEnd (ts.kind ty)) : ¬ ts.LooksInto ty u := by
  intro hu
  cases hu with
  | bound hk | elem hk | candidate hk _ =>
    rw [show ts.kind ty = _ from hk.kind_eq] at h
    cases h

/-- A type system is acyclic when enclosing classes are declared earlier and no bound is looked into
any further. -/
theorem acyclic_of_isEnd
    (h : (∀ i < ts.classes.size, ∀ ty ∈ (ts.classDef ⟨i⟩).outer,
        ∃ j < i, ts.classOf? ty = some ⟨j⟩) ∧
      ∀ i ≤ ts.typeVars.size, IsEnd (ts.kind (ts.typeVar ⟨i⟩).bound)) : ts.Acyclic := by
  obtain ⟨houter, hbound⟩ := h
  have houter' : ∀ {c ty}, (ts.classDef c).outer = some ty →
      ∃ d, d.index < c.index ∧ ts.classOf? ty = some d := by
    intro c ty h
    by_cases hc : c.index < ts.classes.size
    · obtain ⟨j, hj, hclass⟩ := houter c.index hc ty h
      exact ⟨⟨j⟩, hj, hclass⟩
    · rw [classDef_of_not_lt hc] at h
      cases h
  have hbound' : ∀ v, IsEnd (ts.kind (ts.typeVar v).bound) := by
    intro v
    by_cases hv : v.index < ts.typeVars.size
    · exact hbound v.index (Nat.le_of_lt hv)
    · have h := hbound ts.typeVars.size (le_refl _)
      have hlast : ts.typeVar ⟨ts.typeVars.size⟩ = default := typeVar_of_not_lt (Nat.lt_irrefl _)
      rwa [hlast, ← typeVar_of_not_lt hv] at h
  constructor
  case outer =>
    intro c ty h
    obtain ⟨d, -, hd⟩ := houter' h
    exact ⟨d, hd⟩
  case enclosing =>
    have hlt : ∀ {c d}, Relation.TransGen (fun c d => ts.outerClass? c = some d) c d →
        d.index < c.index := by
      have hstep : ∀ {c d}, ts.outerClass? c = some d → d.index < c.index := by
        intro c d h
        obtain ⟨ty, hty, hd⟩ := Option.bind_eq_some_iff.mp h
        obtain ⟨d', hlt, hd'⟩ := houter' hty
        cases hd.symm.trans hd'
        exact hlt
      intro c d h
      induction h with
      | single h => exact hstep h
      | tail _ h ih => exact Nat.lt_trans (hstep h) ih
    exact fun c h => Nat.lt_irrefl _ (hlt h)
  case bound =>
    intro ty v hk h
    cases Relation.ReflTransGen.cases_head h with
    | inl heq =>
      have hend := hbound' v
      rw [heq, show ts.kind ty = _ from hk.kind_eq] at hend
      cases hend
    | inr hstep =>
      obtain ⟨u, hu, -⟩ := hstep
      exact not_looksInto_of_isEnd (hbound' v) hu

/-! ### Enough steps -/

/-- So many steps take the erasure of a raw class to its end, with its enclosing instances. -/
inductive OuterEnough (ts : TypeSystem) : Nat → ClassId → Prop
  | root {d : Nat} {c : ClassId} : (ts.classDef c).outer = none → OuterEnough ts (d + 1) c
  | inner {d : Nat} {c outer : ClassId} {ty : TypeId} : (ts.classDef c).outer = some ty →
      ts.classOf? ty = some outer → OuterEnough ts d outer → OuterEnough ts (d + 2) c

theorem OuterEnough.mono {d : Nat} {c : ClassId} (h : ts.OuterEnough d c) (k : Nat) :
    ts.OuterEnough (d + k) c := by
  induction h with
  | @root d c hc =>
    rw [Nat.add_right_comm]
    exact .root hc
  | @inner d c outer ty hc hty _ ih =>
    rw [Nat.add_right_comm]
    exact .inner hc hty ih

end Erasure.TypeSystem

namespace Erasure.TypeSystem.JoinForm

/-- How many levels of arrays a join has. -/
def levels : JoinForm → Nat
  | known _ | raw _ => 0
  | array elem => elem.levels + 1

/-- What a join is an array of. -/
def base : JoinForm → JoinForm
  | known ty => known ty
  | raw c => raw c
  | array elem => elem.base

end Erasure.TypeSystem.JoinForm

namespace Erasure.TypeSystem

variable {ts us : TypeSystem}

/-- So many steps take the erasure of a type to its end. -/
inductive Enough (ts : TypeSystem) : Nat → TypeId → Prop
  | prim {d : Nat} {ty : TypeId} {p : Primitive} : ts.pool.HasKind ty (.prim p) →
      Enough ts (d + 1) ty
  | null {d : Nat} {ty : TypeId} : ts.pool.HasKind ty .null → Enough ts (d + 1) ty
  | raw {d : Nat} {ty : TypeId} {c : ClassId} : ts.pool.HasKind ty (.raw c) →
      ts.OuterEnough d c → Enough ts d ty
  | inst {d : Nat} {ty : TypeId} {c : ClassId} {s : SubstId} {outer : Option TypeId} :
      ts.pool.HasKind ty (.inst c s outer) → ts.OuterEnough d c → Enough ts (d + 1) ty
  | array {d : Nat} {ty elem : TypeId} : ts.pool.HasKind ty (.array elem) →
      Enough ts d elem → Enough ts (d + 1) ty
  | var {d : Nat} {ty : TypeId} {v : TypeVarId} : ts.pool.HasKind ty (.var v) →
      Enough ts d (ts.boundErasure ty) → Enough ts d ty
  | joinKnown {d : Nat} {ty u : TypeId} {l : LubId} : ts.pool.HasKind ty (.lub l) →
      (ts.joinForm (ts.pool.size + 1) (ts.pool.candidates l)).base = .known u → Enough ts d u →
      Enough ts (d + (ts.joinForm (ts.pool.size + 1) (ts.pool.candidates l)).levels) ty
  | joinRaw {d : Nat} {ty : TypeId} {c : ClassId} {l : LubId} : ts.pool.HasKind ty (.lub l) →
      (ts.joinForm (ts.pool.size + 1) (ts.pool.candidates l)).base = .raw c →
      ts.OuterEnough d c →
      Enough ts (d + (ts.joinForm (ts.pool.size + 1) (ts.pool.candidates l)).levels) ty

theorem Enough.mono {d : Nat} {ty : TypeId} (h : ts.Enough d ty) (k : Nat) :
    ts.Enough (d + k) ty := by
  induction h with
  | prim hk =>
    rw [Nat.add_right_comm]
    exact .prim hk
  | null hk =>
    rw [Nat.add_right_comm]
    exact .null hk
  | raw hk hc => exact .raw hk (hc.mono k)
  | inst hk hc =>
    rw [Nat.add_right_comm]
    exact .inst hk (hc.mono k)
  | array hk _ ih =>
    rw [Nat.add_right_comm]
    exact .array hk ih
  | var hk _ ih => exact .var hk ih
  | joinKnown hk hbase _ ih =>
    rw [Nat.add_right_comm]
    exact .joinKnown hk hbase ih
  | joinRaw hk hbase hc =>
    rw [Nat.add_right_comm]
    exact .joinRaw hk hbase (hc.mono k)

theorem Enough.of_le {d d' : Nat} {ty : TypeId} (h : ts.Enough d ty) (hle : d ≤ d') :
    ts.Enough d' ty := by
  obtain ⟨k, rfl⟩ := Nat.exists_eq_add_of_le hle
  exact h.mono k

theorem OuterEnough.pos {d : Nat} {c : ClassId} (h : ts.OuterEnough d c) : 0 < d := by
  cases h <;> omega

theorem Enough.pos {d : Nat} {ty : TypeId} (h : ts.Enough d ty) : 0 < d := by
  induction h with
  | prim | null | inst | array => omega
  | raw _ hc => exact hc.pos
  | var _ _ ih => exact ih
  | joinKnown _ _ _ ih => omega
  | joinRaw _ _ hc =>
    have := hc.pos
    omega

theorem enough_of_hasForm {d : Nat} {ty u : TypeId} {form : JoinForm} (h : HasForm ts.pool ty form)
    (hbase : form.base = .known u) (hu : ts.Enough d u) : ts.Enough (d + form.levels) ty := by
  induction h with
  | known _ =>
    cases hbase
    exact hu
  | raw _ => cases hbase
  | array hk _ ih => exact .array hk (ih hbase)

theorem enough_of_hasForm_raw {d : Nat} {ty : TypeId} {c : ClassId} {form : JoinForm}
    (h : HasForm ts.pool ty form) (hbase : form.base = .raw c) (hc : ts.OuterEnough d c) :
    ts.Enough (d + form.levels) ty := by
  induction h with
  | known _ => cases hbase
  | raw hk =>
    cases hbase
    exact .raw hk hc
  | array hk _ ih => exact .array hk (ih hbase)

theorem Enough.boundErasure {d : Nat} {ty : TypeId} (h : ts.Enough d ty) :
    ts.Enough d (ts.boundErasure ty) := by
  have hself : ∀ {k}, ts.pool.HasKind ty k → (∀ v, k ≠ .var v) → ts.boundErasure ty = ty :=
    fun hk hne => boundErasure_of_ne_var fun v hv => hne v (hk.kind_eq.symm.trans hv)
  cases h with
  | prim hk => rw [hself hk nofun]; exact .prim hk
  | null hk => rw [hself hk nofun]; exact .null hk
  | raw hk hc => rw [hself hk nofun]; exact .raw hk hc
  | inst hk hc => rw [hself hk nofun]; exact .inst hk hc
  | array hk helem => rw [hself hk nofun]; exact .array hk helem
  | var _ hbound => exact hbound
  | joinKnown hk hbase hu => rw [hself hk nofun]; exact .joinKnown hk hbase hu
  | joinRaw hk hbase hc => rw [hself hk nofun]; exact .joinRaw hk hbase hc

theorem Enough.resolves {d : Nat} {ty r : TypeId} (h : ts.Enough d ty) (hr : ts.Resolves ty r) :
    ts.Enough d r := by
  unfold Resolves at hr
  split at hr
  case h_1 l hk =>
    have hkind : ∀ {k}, ts.pool.HasKind ty k → k = .lub l := fun hk' => hk'.kind_eq.symm.trans hk
    cases h with
    | joinKnown hk' hbase hu =>
      cases hkind hk'
      exact enough_of_hasForm hr hbase hu
    | joinRaw hk' hbase hc =>
      cases hkind hk'
      exact enough_of_hasForm_raw hr hbase hc
    | prim hk' | null hk' | raw hk' _ | inst hk' _ | array hk' _ | var hk' _ => cases hkind hk'
  case h_2 => exact hr ▸ h

theorem Enough.elem {d : Nat} {ty elem : TypeId} (h : ts.Enough (d + 1) ty)
    (hk : ts.pool.HasKind ty (.array elem)) : ts.Enough d elem := by
  generalize hd : d + 1 = n at h
  cases h with
  | array hk' helem =>
    cases hk.unique hk'
    cases hd
    exact helem
  | prim hk' | null hk' | raw hk' _ | inst hk' _ | var hk' _ | joinKnown hk' _ _
  | joinRaw hk' _ _ => cases hk.unique hk'

theorem Enough.outer_raw {d : Nat} {ty : TypeId} {c : ClassId} (h : ts.Enough d ty)
    (hk : ts.pool.HasKind ty (.raw c)) : ts.OuterEnough d c := by
  cases h with
  | raw hk' hc =>
    cases hk.unique hk'
    exact hc
  | prim hk' | null hk' | array hk' _ | inst hk' _ | var hk' _ | joinKnown hk' _ _
  | joinRaw hk' _ _ => cases hk.unique hk'

theorem Enough.outer_inst {d : Nat} {ty : TypeId} {c : ClassId} {s : SubstId}
    {outer : Option TypeId} (h : ts.Enough (d + 1) ty)
    (hk : ts.pool.HasKind ty (.inst c s outer)) : ts.OuterEnough d c := by
  generalize hd : d + 1 = n at h
  cases h with
  | inst hk' hc =>
    cases hk.unique hk'
    cases hd
    exact hc
  | prim hk' | null hk' | array hk' _ | raw hk' _ | var hk' _ | joinKnown hk' _ _
  | joinRaw hk' _ _ => cases hk.unique hk'

/-- The erasure of a class leaves enough steps for its enclosing instance. -/
theorem OuterEnough.outer (hts : ts.Valid) {d : Nat} {c : ClassId} (h : ts.OuterEnough (d + 1) c) :
    ∀ ty ∈ (ts.classDef c).outer, ts.Enough d ty := by
  intro ty houter
  cases h with
  | root hc => cases hc.symm.trans houter
  | inner hc hty hrest =>
    cases hc.symm.trans houter
    have hkind := ((hts.classes c).outer ty houter).hasKind
    unfold classOf? at hty
    rw [show ts.kind ty = ts.pool.kind ty from rfl] at hty
    cases hk : ts.pool.kind ty with rw [hk] at hty hkind
    | raw c' =>
      obtain rfl := Option.some.inj hty
      exact .raw hkind (hrest.mono 1)
    | inst c' s outer' =>
      obtain rfl := Option.some.inj hty
      exact .inst hkind hrest
    | prim _ | null | array _ | var _ | lub _ => cases hty

/-- Steps that are enough for a type are enough for what it comes down to. -/
theorem Enough.comesDownTo {d : Nat} {ty u : TypeId} (h : ts.Enough d ty)
    (hdown : ts.ComesDownTo ty u) : ts.Enough d u := by
  obtain ⟨r, hr, rfl⟩ := hdown
  exact (h.boundErasure.resolves hr).boundErasure

/-! ### The depth of erasure -/

/-- A class has its own number as its mark. -/
def classMark (c : ClassId) (i : Nat) : Prop := c.index = i

/-- Along enclosing classes every class is met once. -/
theorem outerEnough_of_acyclic (hacyclic : ts.Acyclic) (c : ClassId) :
    ts.OuterEnough (2 * ts.classes.size + 1) c := by
  let height : ClassId → Nat := fun c =>
    (reached (fun c d => ts.outerClass? c = some d) classMark ts.classes.size c).card
  have hheight : ∀ c, height c ≤ ts.classes.size := fun c => card_reached_bound ..
  suffices henough : ∀ n c, height c = n → ts.OuterEnough (2 * n + 1) c by
    obtain ⟨k, hk⟩ := Nat.exists_eq_add_of_le (hheight c)
    have h := (henough _ c rfl).mono (2 * k)
    rwa [show 2 * height c + 1 + 2 * k = 2 * ts.classes.size + 1 by omega] at h
  intro n
  induction n using Nat.strongRecOn with
  | ind n ih =>
    intro c hn
    cases houter : (ts.classDef c).outer with
    | none => exact .root houter
    | some ty =>
      obtain ⟨outer, hty⟩ := hacyclic.outer houter
      have hstep : ts.outerClass? c = some outer := by rw [outerClass?, houter]; exact hty
      have hlt : c.index < ts.classes.size := by
        by_contra hge
        rw [classDef_of_not_lt hge] at houter
        cases houter
      have hfewer : height outer < height c :=
        card_reached_lt classMark hstep (hacyclic.enclosing c) hlt rfl fun x hx => congrArg ClassId.mk hx
      obtain ⟨k, hk⟩ := Nat.exists_eq_add_of_lt hfewer
      have h := OuterEnough.inner houter hty ((ih _ (hn ▸ hfewer) outer rfl).mono (2 * k))
      rwa [show 2 * height outer + 1 + 2 * k + 2 = 2 * n + 1 by omega] at h

/-- The levels of a form and the measure of its base stay within the measure of a candidate. -/
structure Measured (ts : TypeSystem) (measure : TypeId → Nat) (candidates : List TypeId)
    (form : JoinForm) : Prop where
  levels : form.levels = 0 ∨ ∃ ty ∈ candidates, form.levels ≤ measure ty
  base : (∃ c, form.base = .raw c) ∨ ∃ u, form.base = .known u ∧ (u = .null ∨ u = .object ∨
    (ts.pool.Has u ∧ ∃ ty ∈ candidates, measure u + form.levels ≤ measure ty))

section Measured

variable {measure : TypeId → Nat} {candidates elems : List TypeId} {form : JoinForm}

theorem measured_null : ts.Measured measure candidates (.known .null) :=
  ⟨.inl rfl, .inr ⟨.null, rfl, .inl rfl⟩⟩

theorem measured_object : ts.Measured measure candidates (.known .object) :=
  ⟨.inl rfl, .inr ⟨.object, rfl, .inr (.inl rfl)⟩⟩

theorem measured_candidate {ty : TypeId} (hty : ty ∈ candidates) (hhas : ts.pool.Has ty) :
    ts.Measured measure candidates (.known ty) :=
  ⟨.inl rfl, .inr ⟨ty, rfl, .inr (.inr ⟨hhas, ty, hty, Nat.le_refl _⟩)⟩⟩

theorem Measured.array (h : ts.Measured measure elems form) (hne : ∃ elem, elem ∈ elems)
    (habove : ∀ elem ∈ elems, ∃ ty ∈ candidates, measure elem < measure ty) :
    ts.Measured measure candidates (.array form) := by
  constructor
  case levels =>
    refine .inr ?_
    rcases h.levels with hzero | ⟨elem, helem, hle⟩
    · obtain ⟨elem, helem⟩ := hne
      obtain ⟨ty, hty, hlt⟩ := habove elem helem
      exact ⟨ty, hty, by rw [JoinForm.levels]; omega⟩
    · obtain ⟨ty, hty, hlt⟩ := habove elem helem
      exact ⟨ty, hty, by rw [JoinForm.levels]; omega⟩
  case base =>
    rcases h.base with hraw | ⟨u, hu, hnull | hroot | ⟨hhas, elem, helem, hle⟩⟩
    · exact .inl hraw
    · exact .inr ⟨u, hu, .inl hnull⟩
    · exact .inr ⟨u, hu, .inr (.inl hroot)⟩
    · obtain ⟨ty, hty, hlt⟩ := habove elem helem
      refine .inr ⟨u, hu, .inr (.inr ⟨hhas, ty, hty, ?_⟩)⟩
      rw [JoinForm.levels]
      omega

/-- For a measure that falls from an array type to its element type, the form of a join stays within
the measure of a candidate. -/
theorem joinForm_measured (hts : ts.Valid)
    (hmeasure : ∀ ty elem, ts.pool.HasKind ty (.array elem) → measure elem < measure ty)
    (depth : Nat) (hhas : ∀ ty ∈ candidates, ts.pool.Has ty) :
    ts.Measured measure candidates (ts.joinForm depth candidates) := by
  induction depth generalizing candidates with
  | zero => exact measured_object
  | succ depth ih =>
    unfold joinForm
    cases hfilter : candidates.filter (· ≠ .null) with
    | nil => exact measured_null
    | cons first rest =>
      have hmem : ∀ ty ∈ first :: rest, ty ∈ candidates := fun ty hty =>
        mem_of_mem_filter_null hfilter hty
      have hhas' : ∀ ty ∈ first :: rest, ts.pool.Has ty := fun ty hty => hhas ty (hmem ty hty)
      have hcandidate : ∀ ty ∈ first :: rest, ts.Measured measure candidates (.known ty) :=
        fun ty hty => measured_candidate (hmem ty hty) (hhas' ty hty)
      dsimp only
      split
      · exact hcandidate first List.mem_cons_self
      · split
        · cases hfind : (first :: rest).find? _ with
          | none => exact measured_object
          | some ty => exact hcandidate ty (List.mem_of_find?_eq_some hfind)
        · cases helems : ts.arrayElements? (first :: rest) with
          | none =>
            cases ts.commonClass? (first :: rest) with
            | some c => exact ⟨.inl rfl, .inl ⟨c, rfl⟩⟩
            | none => exact measured_object
          | some elems =>
            dsimp only
            split
            · have hparts := part_of_mem_arrayElements? hts hhas' helems
              obtain ⟨elem, helem, -⟩ := exists_kind_of_arrayElements? helems
              refine (ih fun elem helem => (hparts elem helem).1).array ⟨elem, helem⟩ ?_
              intro elem helem
              obtain ⟨ty, hty, hk⟩ := kind_of_mem_arrayElements? helems helem
              exact ⟨ty, hmem ty hty, hmeasure ty elem ((hhas' ty hty).hasKind_of_eq hk)⟩
            · exact measured_object

end Measured

theorem rank_followBounds_le (hts : ts.Valid) (hacyclic : ts.Acyclic) {steps : Nat}
    {ty u : TypeId} (hty : ts.pool.Has ty) (h : ts.followBounds steps ty = some u) :
    ts.rank u ≤ ts.rank ty := by
  induction steps generalizing ty with
  | zero => cases h
  | succ steps ih =>
    unfold followBounds at h
    split at h
    case h_1 v hk =>
      have hkind := hty.hasKind_of_eq hk
      exact (ih (hts.bound v) h).trans (rank_lt hts.grounded hacyclic.acyclicBounds (.bound hkind)).le
    case h_2 => exact Option.some.inj h ▸ Nat.le_refl _

/-- The steps that enclosing instances take, and then as many as the rank of the type. -/
theorem enough_rank (hts : ts.Valid) (hacyclic : ts.Acyclic) {ty : TypeId} (hty : ts.pool.Has ty) :
    ts.Enough (2 * ts.classes.size + 2 + ts.rank ty) ty := by
  have houter := outerEnough_of_acyclic hacyclic
  have hnull : ∀ d, ts.Enough (2 * ts.classes.size + 2 + d) .null := fun d =>
    (Enough.null (d := 0) hts.pool.null).of_le (by omega)
  have hobject : ∀ d, ts.Enough (2 * ts.classes.size + 2 + d) .object := fun d =>
    (Enough.raw hts.object (houter _)).of_le (by omega)
  induction hn : ts.rank ty using Nat.strongRecOn generalizing ty with
  | ind n ih =>
    have hkind := hty.hasKind
    cases hk : ts.pool.kind ty with rw [hk] at hkind
    | prim r => exact (Enough.prim (d := 0) hkind).of_le (by omega)
    | null => exact (Enough.null (d := 0) hkind).of_le (by omega)
    | raw c => exact (Enough.raw hkind (houter c)).of_le (by omega)
    | inst c s outer => exact (Enough.inst hkind (houter c)).of_le (by omega)
    | array elem =>
      have hlt := rank_lt hts.grounded hacyclic.acyclicBounds (.elem hkind)
      have helem := hts.pool.has_part hkind List.mem_cons_self
      exact (Enough.array hkind (ih _ (hn ▸ hlt) helem rfl)).of_le (by omega)
    | var v =>
      refine .var hkind ?_
      unfold boundErasure
      have hlt := rank_lt hts.grounded hacyclic.acyclicBounds (.bound hkind)
      cases hfollow : ts.followBounds (ts.typeVars.size + 1) ty with
      | none => exact hobject _
      | some u =>
        unfold followBounds at hfollow
        rw [show ts.kind ty = .var v from hk] at hfollow
        have hle := rank_followBounds_le hts hacyclic (hts.bound v) hfollow
        exact (ih _ (by omega) (has_followBounds hts (hts.bound v) hfollow) rfl).of_le (by omega)
    | lub l =>
      have hcandidate : ∀ u ∈ ts.pool.candidates l, ts.rank u < n := fun u hu =>
        hn ▸ rank_lt hts.grounded hacyclic.acyclicBounds (.candidate hkind hu)
      obtain ⟨hlevels, hbase⟩ := joinForm_measured hts
        (fun _ _ hk => rank_lt hts.grounded hacyclic.acyclicBounds (.elem hk)) (ts.pool.size + 1)
        (has_candidates hts hty hk)
      have hlevels' : (ts.joinForm (ts.pool.size + 1) (ts.pool.candidates l)).levels ≤ n := by
        rcases hlevels with hzero | ⟨u, hu, hle⟩
        · omega
        · have := hcandidate u hu
          omega
      obtain ⟨k, hk'⟩ := Nat.exists_eq_add_of_le hlevels'
      rcases hbase with ⟨c, hbase⟩ | ⟨u, hbase, hcases⟩
      · refine (Enough.joinRaw hkind hbase ((houter c).mono (k + 1))).of_le ?_
        omega
      · rcases hcases with rfl | rfl | ⟨hu, t, ht, hle⟩
        · refine (Enough.joinKnown hkind hbase (hnull k)).of_le ?_
          omega
        · refine (Enough.joinKnown hkind hbase (hobject k)).of_le ?_
          omega
        · have hlt := hcandidate t ht
          refine (Enough.joinKnown hkind hbase (ih _ (by omega) hu rfl)).of_le ?_
          omega

/-- In an acyclic type system `erasureDepth` takes the erasure of every type to its end. -/
theorem enough_erasureDepth (hts : ts.Valid) (hacyclic : ts.Acyclic) {ty : TypeId}
    (hty : ts.pool.Has ty) : ts.Enough (Canonicalizer.erasureDepth ts) ty := by
  refine (enough_rank hts hacyclic hty).of_le ?_
  -- with `span` for the steps between two enclosing classes, the bound is `2 * (classes + 1) * span`
  let span := (ts.typeVars.size + 1) * (ts.pool.size + 1)
  have hrank : ts.rank ty < span := rank_lt_mul hty
  have hspan : 1 * (ts.pool.size + 1) ≤ span := Nat.mul_le_mul_right _ (Nat.succ_pos _)
  have hindex : ty.index < ts.pool.size := hty
  have htwo : (ts.classes.size + 1) * 2 ≤ (ts.classes.size + 1) * span :=
    Nat.mul_le_mul_left _ (by omega)
  have hone : span ≤ (ts.classes.size + 1) * span := Nat.le_mul_of_pos_left _ (Nat.succ_pos _)
  have hdepth : Canonicalizer.erasureDepth ts = 2 * ((ts.classes.size + 1) * span) := by
    simp only [Canonicalizer.erasureDepth, span, Nat.mul_assoc]
  omega

/-! ### Growth -/

/-- Growth without declarations brings in no cycle. -/
theorem Acyclic.of_extends (hts : ts.Valid) (hext : Extends ts us) (h : ts.Acyclic) :
    us.Acyclic where
  outer houter := by
    rw [hext.classDef_eq] at houter
    obtain ⟨d, hd⟩ := h.outer houter
    refine ⟨d, ?_⟩
    rwa [classOf?, kind_of_le hext.le ((hts.classes _).outer _ houter)]
  enclosing c := by
    have hsame : us.outerClass? = ts.outerClass? := by
      funext c
      rw [outerClass?, outerClass?, hext.classDef_eq]
      cases houter : (ts.classDef c).outer with
      | none => rfl
      | some ty =>
        have hty := (hts.classes c).outer ty houter
        rw [Option.bind_some, Option.bind_some, classOf?, classOf?, kind_of_le hext.le hty]
    rw [hsame]
    exact h.enclosing c
  bound := h.acyclicBounds.of_extends hts.grounded hext _ _

theorem OuterEnough.of_extends (hts : ts.Valid) (hext : Extends ts us) {d : Nat} {c : ClassId}
    (h : ts.OuterEnough d c) : us.OuterEnough d c := by
  induction h with
  | @root d c hc => exact .root (by rw [hext.classDef_eq, hc])
  | @inner d c outer ty hc hty _ ih =>
    refine .inner (by rw [hext.classDef_eq, hc]) ?_ ih
    rwa [classOf?, kind_of_le hext.le ((hts.classes c).outer ty hc)]

/-- Steps that are enough stay enough without new declarations. -/
theorem Enough.of_extends (hts : ts.Valid) (hext : Extends ts us) {d : Nat} {ty : TypeId}
    (h : ts.Enough d ty) : us.Enough d ty := by
  induction h with
  | prim hk => exact .prim (hk.of_le hext.le.1)
  | null hk => exact .null (hk.of_le hext.le.1)
  | raw hk hc => exact .raw (hk.of_le hext.le.1) (hc.of_extends hts hext)
  | inst hk hc => exact .inst (hk.of_le hext.le.1) (hc.of_extends hts hext)
  | array hk _ ih => exact .array (hk.of_le hext.le.1) ih
  | var hk _ ih =>
    refine .var (hk.of_le hext.le.1) ?_
    rwa [hext.boundErasure_eq hts hk.has]
  | joinKnown hk hbase _ ih =>
    have hform := hext.joinForm_candidates_eq hts hk.has hk.kind_eq
    rw [← hform] at hbase ⊢
    exact .joinKnown (hk.of_le hext.le.1) hbase ih
  | joinRaw hk hbase hc =>
    have hform := hext.joinForm_candidates_eq hts hk.has hk.kind_eq
    rw [← hform] at hbase ⊢
    exact .joinRaw (hk.of_le hext.le.1) hbase (hc.of_extends hts hext)

end Erasure.TypeSystem
