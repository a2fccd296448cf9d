/-
The links between member instances.

An instance leads to the one that it was derived from, and so on to a declaration. The links form a
forest, whose roots are the declarations; each class lists its own. The main statements:

* `Linked`: the invariant of the links, which does not rely on anything else being valid.
* `Linked.root`: from every instance the links lead to its declaration.
* `MemberForest`, `Linked.forest`: the table of members as a forest.
* `Linked.of_derived`, `Linked.of_declared`: a derived instance or a declaration may be added.
-/
import Erasure.Proofs.TypeSystem.Operation
import Erasure.Proofs.TypeSystem.TypesOnly

namespace Erasure.TypeSystem

variable {ts us : TypeSystem} {m n : MemberId} {c : ClassId} {x : Member}

/-! ### Links -/

/-- The instance is a declaration: it is its own declaration and origin, and it is seen in the raw
class of a class that is there. -/
structure IsDeclared (ts : TypeSystem) (m : MemberId) : Prop where
  decl_eq : (ts.member m).decl = m
  origin_eq : (ts.member m).origin = m
  container : ∃ c : ClassId, c.index < ts.classes.size ∧
    ts.pool.HasKind (ts.member m).container (.raw c)

/-- The instance was derived from an older one, and has its declaration and flags. -/
structure IsDerived (ts : TypeSystem) (m : MemberId) : Prop where
  origin_lt : (ts.member m).origin.index < m.index
  decl_eq : (ts.member m).decl = (ts.member (ts.member m).origin).decl
  flags_eq : (ts.member m).flags = (ts.member (ts.member m).origin).flags

/-- The invariant of the links between instances. -/
structure Linked (ts : TypeSystem) : Prop where
  cases : ∀ {m}, ts.HasMember m → ts.IsDeclared m ∨ ts.IsDerived m
  generic : ∀ {m}, ts.HasMember m → ∀ g ∈ (ts.member m).generic, ts.HasMember g
  mem_members_iff : ∀ {c m}, m ∈ (ts.classDef c).members ↔
    ts.HasMember m ∧ (ts.member m).decl = m ∧ ts.pool.HasKind (ts.member m).container (.raw c)
  increasing : ∀ c, (ts.classDef c).members.Pairwise (·.index < ·.index)

theorem IsDeclared.of_le (hle : ts ≤ us) (hsize : ts.classes.size ≤ us.classes.size)
    (hm : ts.HasMember m) (h : ts.IsDeclared m) : us.IsDeclared m := by
  obtain ⟨hdecl, horigin, c, hc, hkind⟩ := h
  rw [← member_of_le hle hm] at hdecl horigin hkind
  exact ⟨hdecl, horigin, c, Nat.lt_of_lt_of_le hc hsize, hkind.of_le hle.1⟩

theorem IsDerived.of_le (hle : ts ≤ us) (hm : ts.HasMember m) (h : ts.IsDerived m) :
    us.IsDerived m := by
  obtain ⟨hlt, hdecl, hflags⟩ := h
  have horigin : ts.HasMember (ts.member m).origin := Nat.lt_trans hlt hm
  rw [← member_of_le hle horigin, ← member_of_le hle hm] at hdecl hflags
  rw [← member_of_le hle hm] at hlt
  exact ⟨hlt, hdecl, hflags⟩

theorem HasMember.genericForm (h : ts.Linked) (hm : ts.HasMember m) :
    ts.HasMember (ts.genericForm m) := by
  rw [TypeSystem.genericForm]
  cases hg : (ts.member m).generic with
  | none => exact hm
  | some g => exact h.generic hm g hg

/-! ### The forest -/

/-- What the table of members looks like: a forest with the declarations as its roots. -/
structure MemberForest (ts : TypeSystem) : Prop where
  key_inj : ∀ {m n}, ts.HasMember m → ts.HasMember n →
    (ts.member m).toMemberKey = (ts.member n).toMemberKey → m = n
  origin_le : ∀ {m}, ts.HasMember m → (ts.member m).origin.index ≤ m.index
  /-- Exactly the declarations are their own origin. -/
  origin_eq_iff : ∀ {m}, ts.HasMember m → ((ts.member m).origin = m ↔ (ts.member m).decl = m)
  /-- From origin to origin every instance comes to its declaration. -/
  leads : ∀ {m}, ts.HasMember m → ∃ k, (fun n => (ts.member n).origin)^[k] m = (ts.member m).decl
  decl_isRoot : ∀ {m}, ts.HasMember m → ts.HasMember (ts.member m).decl ∧
    (ts.member (ts.member m).decl).decl = (ts.member m).decl ∧
    (ts.member (ts.member m).decl).origin = (ts.member m).decl
  flags_eq : ∀ {m}, ts.HasMember m →
    (ts.member m).flags = (ts.member (ts.member m).decl).flags
  /-- A class has the declarations as members that are seen in its raw class. -/
  mem_members_iff : ∀ {c m}, m ∈ (ts.classDef c).members ↔
    ts.HasMember m ∧ (ts.member m).decl = m ∧ ts.pool.HasKind (ts.member m).container (.raw c)
  increasing : ∀ c, (ts.classDef c).members.Pairwise (·.index < ·.index)

namespace Linked

variable (h : ts.Linked)
include h

/-- What holds of declarations, and of derived instances if it holds of their origin, holds of all. -/
theorem induction {motive : MemberId → Prop}
    (declared : ∀ m, ts.HasMember m → ts.IsDeclared m → motive m)
    (derived : ∀ m, ts.HasMember m → ts.IsDerived m → ts.HasMember (ts.member m).origin →
      motive (ts.member m).origin → motive m) (hm : ts.HasMember m) : motive m := by
  suffices hall : ∀ i, ∀ n : MemberId, n.index = i → ts.HasMember n → motive n from hall _ m rfl hm
  intro i
  induction i using Nat.strong_induction_on with
  | h i ih =>
    rintro n rfl hn
    rcases h.cases hn with hdeclared | hderived
    · exact declared n hn hdeclared
    · have horigin := Nat.lt_trans hderived.origin_lt hn
      exact derived n hn hderived horigin (ih _ hderived.origin_lt _ rfl horigin)

theorem decl_le (hm : ts.HasMember m) : (ts.member m).decl.index ≤ m.index := by
  refine h.induction (motive := fun m => (ts.member m).decl.index ≤ m.index)
    (fun m _ hdeclared => ?_) (fun m _ hderived _ ih => ?_) hm
  · exact Nat.le_of_eq (congrArg MemberId.index hdeclared.decl_eq)
  · rw [hderived.decl_eq]
    exact Nat.le_of_lt (Nat.lt_of_le_of_lt ih hderived.origin_lt)

/-- A derived instance is not its own declaration. -/
theorem isDeclared_of_decl_eq (hm : ts.HasMember m) (hdecl : (ts.member m).decl = m) :
    ts.IsDeclared m := by
  refine (h.cases hm).resolve_right fun hderived => ?_
  have hle := h.decl_le (Nat.lt_trans hderived.origin_lt hm)
  rw [← hderived.decl_eq, hdecl] at hle
  exact Nat.not_le_of_lt hderived.origin_lt hle

/-- From every instance the links lead to its declaration, which has its flags. -/
theorem root (hm : ts.HasMember m) : ts.HasMember (ts.member m).decl ∧
    ts.IsDeclared (ts.member m).decl ∧
    (ts.member m).flags = (ts.member (ts.member m).decl).flags ∧
    ∃ k, (fun n => (ts.member n).origin)^[k] m = (ts.member m).decl := by
  refine h.induction (motive := fun m => ts.HasMember (ts.member m).decl ∧
      ts.IsDeclared (ts.member m).decl ∧
      (ts.member m).flags = (ts.member (ts.member m).decl).flags ∧
      ∃ k, (fun n => (ts.member n).origin)^[k] m = (ts.member m).decl)
    (fun m hm hdeclared => ?_) (fun m _ hderived _ ih => ?_) hm
  · rw [hdeclared.decl_eq]
    exact ⟨hm, hdeclared, rfl, 0, rfl⟩
  · obtain ⟨hdecl, hdeclared, hflags, k, hk⟩ := ih
    rw [hderived.decl_eq]
    exact ⟨hdecl, hdeclared, hderived.flags_eq.trans hflags, k + 1, hk⟩

theorem origin_le (hm : ts.HasMember m) : (ts.member m).origin.index ≤ m.index := by
  rcases h.cases hm with hdeclared | hderived
  · exact Nat.le_of_eq (congrArg MemberId.index hdeclared.origin_eq)
  · exact Nat.le_of_lt hderived.origin_lt

/-- Exactly the declarations are their own origin. -/
theorem origin_eq_iff (hm : ts.HasMember m) :
    (ts.member m).origin = m ↔ (ts.member m).decl = m := by
  refine ⟨fun heq => ?_, fun heq => (h.isDeclared_of_decl_eq hm heq).origin_eq⟩
  rcases h.cases hm with hdeclared | hderived
  · exact hdeclared.decl_eq
  · exact absurd (congrArg MemberId.index heq) (Nat.ne_of_lt hderived.origin_lt)

/-- The instances are a forest with the declarations as its roots. -/
theorem forest : ts.MemberForest where
  key_inj hm hn hkey := (HasMember.hasKey hm).inj (hkey ▸ hn.hasKey)
  origin_le := h.origin_le
  origin_eq_iff := h.origin_eq_iff
  leads hm := (h.root hm).2.2.2
  decl_isRoot hm := ⟨(h.root hm).1, (h.root hm).2.1.decl_eq, (h.root hm).2.1.origin_eq⟩
  flags_eq hm := (h.root hm).2.2.1
  mem_members_iff := h.mem_members_iff
  increasing := h.increasing

/-- An instance stays among the members of a class, or not, while the type system grows. -/
theorem mem_members_iff_of_le (hle : ts ≤ us) (hm : ts.HasMember m) :
    m ∈ (ts.classDef c).members ↔
      (us.member m).decl = m ∧ us.pool.HasKind (us.member m).container (.raw c) := by
  rw [h.mem_members_iff, member_of_le hle hm]
  constructor
  · rintro ⟨-, hdecl, hkind⟩
    exact ⟨hdecl, hkind.of_le hle.1⟩
  · rintro ⟨hdecl, hkind⟩
    obtain ⟨d, -, hold⟩ := (h.isDeclared_of_decl_eq hm hdecl).container
    exact ⟨hm, hdecl, hkind.of_ge hle.1 hold.has⟩

/-! ### Growth -/

/-- The links stay while no instance is added and the classes keep their members. -/
theorem of_members_eq (hle : ts ≤ us) (hmembers : us.members = ts.members)
    (hsize : ts.classes.size ≤ us.classes.size)
    (hlists : ∀ c, (us.classDef c).members = (ts.classDef c).members) : us.Linked := by
  have hhas : ∀ {m}, us.HasMember m → ts.HasMember m := fun hm => by rwa [HasMember, ← hmembers]
  refine ⟨fun hm => ?_, fun hm g hg => ?_, fun {c m} => ?_, fun c => ?_⟩
  · exact (h.cases (hhas hm)).imp (.of_le hle hsize (hhas hm)) (.of_le hle (hhas hm))
  · rw [member_of_le hle (hhas hm)] at hg
    exact (h.generic (hhas hm) g hg).of_le hle
  · rw [hlists]
    refine ⟨fun hm => ?_, fun ⟨hm, hdecl⟩ => (h.mem_members_iff_of_le hle (hhas hm)).mpr hdecl⟩
    have hold := (h.mem_members_iff.mp hm).1
    exact ⟨hold.of_le hle, (h.mem_members_iff_of_le hle hold).mp hm⟩
  · rw [hlists]
    exact h.increasing c

theorem of_addsTypes (hadds : AddsTypes ts us) : us.Linked :=
  h.of_members_eq hadds.le hadds.members_eq (Nat.le_of_eq (congrArg Array.size hadds.classes_eq).symm)
    fun c => by rw [hadds.classDef_eq]

end Linked

/-! ### New instances -/

/-- The instance is added to the table as its last one. -/
structure AddsMember (ts us : TypeSystem) (x : Member) : Prop where
  le : ts ≤ us
  size : us.members.size = ts.members.size + 1
  new : us.member ⟨ts.members.size⟩ = x

theorem AddsMember.cases (h : ts.AddsMember us x) (hm : us.HasMember m) :
    ts.HasMember m ∨ m = ⟨ts.members.size⟩ := by
  rw [HasMember, h.size] at hm
  exact (Nat.lt_succ_iff_lt_or_eq.mp hm).imp_right (congrArg MemberId.mk)

/-- Interning an instance finds one with its key, or adds it. -/
theorem internMember_cases (x : Member) (ts : TypeSystem) :
    (∃ n, ts.HasKey n x.toMemberKey ∧ internMember x ts = (n, ts)) ∨
      (∀ n, ¬ ts.HasKey n x.toMemberKey) ∧ (internMember x ts).1 = ⟨ts.members.size⟩ ∧
        ts.AddsMember (internMember x ts).2 x := by
  cases hfind : ts.members.find? x.toMemberKey with
  | some i =>
    have hintern := InternTable.intern_of_find?_eq_some hfind
    refine .inl ⟨⟨i⟩, InternTable.find?_eq_some_iff.mp hfind, ?_⟩
    unfold internMember
    rw [hintern]
  | none =>
    obtain ⟨hindex, hentries⟩ := InternTable.intern_of_find?_eq_none hfind
    have hnew : (ts.members.intern x).2.get? ts.members.size = some x := by
      rw [InternTable.get?, hentries]
      exact Array.getElem?_push_size
    refine .inr ⟨fun n hn => ?_, congrArg MemberId.mk hindex, ?_, ?_, ?_⟩
    · rw [InternTable.find?_eq_some_iff.mpr hn] at hfind
      cases hfind
    · exact ⟨le_refl _, InternTable.le_intern _ _, le_refl _, fun _ _ hm => hm⟩
    · exact (congrArg Array.size hentries).trans (Array.size_push x)
    · exact congrArg (Option.getD · default) hnew

/-- The instance is derived from one that is there. -/
structure Derives (ts : TypeSystem) (x : Member) : Prop where
  origin : ts.HasMember x.origin
  decl_eq : x.decl = (ts.member x.origin).decl
  flags_eq : x.flags = (ts.member x.origin).flags
  generic : ∀ g ∈ x.generic, ts.HasMember g

/-- A derived instance may be added. -/
theorem Linked.of_derived (h : ts.Linked) (hadds : ts.AddsMember us x)
    (hclasses : us.classes = ts.classes) (hx : ts.Derives x) : us.Linked := by
  have hle := hadds.le
  have hsize : ts.classes.size ≤ us.classes.size := Nat.le_of_eq (congrArg Array.size hclasses).symm
  have hlists : ∀ c, us.classDef c = ts.classDef c := fun c => by
    rw [classDef, hclasses]
    rfl
  refine ⟨fun hm => ?_, fun hm g hg => ?_, fun {c m} => ?_, fun c => ?_⟩
  · rcases hadds.cases hm with hold | rfl
    · exact (h.cases hold).imp (.of_le hle hsize hold) (.of_le hle hold)
    · right
      constructor <;> rw [hadds.new]
      · exact hx.origin
      · rw [member_of_le hle hx.origin, hx.decl_eq]
      · rw [member_of_le hle hx.origin, hx.flags_eq]
  · rcases hadds.cases hm with hold | rfl
    · rw [member_of_le hle hold] at hg
      exact (h.generic hold g hg).of_le hle
    · rw [hadds.new] at hg
      exact (hx.generic g hg).of_le hle
  · rw [hlists]
    constructor
    · intro hm
      have hold := (h.mem_members_iff.mp hm).1
      exact ⟨hold.of_le hle, (h.mem_members_iff_of_le hle hold).mp hm⟩
    · rintro ⟨hm, hdecl⟩
      rcases hadds.cases hm with hold | rfl
      · exact (h.mem_members_iff_of_le hle hold).mpr hdecl
      · -- the new instance is younger than its declaration
        rw [hadds.new, hx.decl_eq] at hdecl
        have hlt := Nat.lt_of_le_of_lt (h.decl_le hx.origin) hx.origin
        exact absurd (congrArg MemberId.index hdecl.1) (Nat.ne_of_lt hlt)
  · rw [hlists]
    exact h.increasing c

/-- The instance is added to the table as a declaration, and to the end of the members of its class. -/
structure AddsDeclaration (ts us : TypeSystem) (c : ClassId) (x : Member) : Prop
    extends AddsMember ts us x where
  decl_eq : x.decl = ⟨ts.members.size⟩
  origin_eq : x.origin = ⟨ts.members.size⟩
  generic_eq : x.generic = none
  container : us.pool.HasKind x.container (.raw c)
  classes_size : us.classes.size = ts.classes.size
  own : (us.classDef c).members = (ts.classDef c).members ++ [⟨ts.members.size⟩]
  others : ∀ d, d ≠ c → (us.classDef d).members = (ts.classDef d).members

theorem AddsDeclaration.mem_members_iff (h : ts.AddsDeclaration us c x) {d : ClassId} :
    m ∈ (us.classDef d).members ↔
      m ∈ (ts.classDef d).members ∨ (d = c ∧ m = ⟨ts.members.size⟩) := by
  by_cases hd : d = c
  · subst hd
    rw [h.own, List.mem_append, List.mem_singleton]
    exact or_congr_right (and_iff_right rfl).symm
  · rw [h.others d hd]
    exact (or_iff_left fun hm => hd hm.1).symm

/-- A declaration may be added to a class that is there. -/
theorem Linked.of_declared (h : ts.Linked) (hadds : ts.AddsDeclaration us c x)
    (hc : c.index < ts.classes.size) : us.Linked := by
  have hle := hadds.le
  have hsize := Nat.le_of_eq hadds.classes_size.symm
  have hnew : us.HasMember ⟨ts.members.size⟩ := by
    rw [HasMember, hadds.size]
    exact Nat.lt_succ_self _
  refine ⟨fun hm => ?_, fun hm g hg => ?_, fun {d m} => ?_, fun d => ?_⟩
  · rcases hadds.cases hm with hold | rfl
    · exact (h.cases hold).imp (.of_le hle hsize hold) (.of_le hle hold)
    · left
      constructor <;> rw [hadds.new]
      · exact hadds.decl_eq
      · exact hadds.origin_eq
      · exact ⟨c, Nat.lt_of_lt_of_le hc hsize, hadds.container⟩
  · rcases hadds.cases hm with hold | rfl
    · rw [member_of_le hle hold] at hg
      exact (h.generic hold g hg).of_le hle
    · rw [hadds.new, hadds.generic_eq] at hg
      cases hg
  · rw [hadds.mem_members_iff]
    constructor
    · rintro (hm | ⟨rfl, rfl⟩)
      · have hold := (h.mem_members_iff.mp hm).1
        exact ⟨hold.of_le hle, (h.mem_members_iff_of_le hle hold).mp hm⟩
      · rw [hadds.new]
        exact ⟨hnew, hadds.decl_eq, hadds.container⟩
    · rintro ⟨hm, hdecl⟩
      rcases hadds.cases hm with hold | rfl
      · exact .inl ((h.mem_members_iff_of_le hle hold).mpr hdecl)
      · rw [hadds.new] at hdecl
        exact .inr ⟨TypeKind.raw.inj (hdecl.2.unique hadds.container), rfl⟩
  · by_cases hd : d = c
    · subst hd
      rw [hadds.own]
      refine List.pairwise_append.mpr ⟨h.increasing d, List.pairwise_singleton _ _, ?_⟩
      intro m hm n hn
      rw [List.mem_singleton.mp hn]
      exact (h.mem_members_iff.mp hm).1
    · rw [hadds.others d hd]
      exact h.increasing d

end Erasure.TypeSystem
