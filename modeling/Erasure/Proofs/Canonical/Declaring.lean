/-
Declaring a member in any state of a session.

Declarations and derived instances share one table, and the canonical form of a member is seen in the
raw class as a declaration is. So the signature that is declared may be that of a derived instance
already; then the declaration gives that instance, and the class has no such member. The main
statement:

* `Session.declareMember_declares_iff`: the answer is a declaration of the class unless there is a
  derived instance with its key.
-/
import Erasure.Proofs.Canonical.MemberForest

namespace Erasure.Canonicalizer

open TypeSystem

variable {s : Canonicalizer} {c : ClassId} {m : MemberId} {us : TypeSystem}

/-- The class declares the member: it is its own declaration and origin, and the class lists it. -/
structure Declares (ts : TypeSystem) (c : ClassId) (m : MemberId) : Prop where
  decl_eq : (ts.member m).decl = m
  origin_eq : (ts.member m).origin = m
  listed : m ∈ (ts.classDef c).members

/-- Declaring a member gives an instance with the signature and flags, seen in the raw class. The class
declares it unless there is a derived instance with that key; an instance with the key is the answer,
and then no member is added. -/
theorem Session.declareMember_declares_iff (h : Session s) (hc : c.index < s.types.classes.size)
    {kind : MemberKind} {flags : MemberFlags}
    (hrun : declareMember c kind flags s.types = (m, us)) : ∃ container,
      us.pool.HasKind container (.raw c) ∧
      us.HasKey m { kind, container, flags, generic := none } ∧
      (Declares us c m ↔ ∀ n, s.types.HasKey n { kind, container, flags, generic := none } →
        (s.types.member n).decl = n) ∧
      ∀ n, s.types.HasKey n { kind, container, flags, generic := none } →
        m = n ∧ us.members = s.types.members ∧ us.classes = s.types.classes := by
  obtain ⟨ts, container, hadds, hcontainer, hkeyed⟩ := declareMember_apply c kind flags s.types
  rw [hkeyed] at hrun
  have hts := h.linked.of_addsTypes hadds
  rw [← hadds.classes_eq] at hc
  let key : MemberKey := { kind, container, flags, generic := none }
  have hold : ∀ n, s.types.HasKey n key ↔ ts.HasKey n key := fun n => by
    rw [TypeSystem.HasKey, TypeSystem.HasKey, hadds.members_eq]
  by_cases hfound : ∃ n, ts.HasKey n key
  · obtain ⟨n, hn⟩ := hfound
    rw [declareKey_of_hasKey hn] at hrun
    obtain ⟨rfl, rfl⟩ := Prod.mk.inj hrun
    have hsame := TypeSystem.member_of_le hadds.le ((hold n).mpr hn).hasMember
    refine ⟨container, hcontainer, hn, ⟨fun hdecl l hl => ?_, fun hdecl => ?_⟩, fun l hl => ?_⟩
    · rw [((hold l).mp hl).inj hn, ← hsame]
      exact hdecl.decl_eq
    · have hdecl := hdecl n ((hold n).mpr hn)
      rw [← hsame] at hdecl
      refine ⟨hdecl, (hts.origin_eq_iff hn.hasMember).mpr hdecl, hts.mem_members_iff.mpr ?_⟩
      exact ⟨hn.hasMember, hdecl, hn.container_eq ▸ hcontainer⟩
    · exact ⟨hn.inj ((hold l).mp hl), hadds.members_eq, hadds.classes_eq⟩
  · have habsent : ∀ n, ¬ ts.HasKey n key := fun n hn => hfound ⟨n, hn⟩
    obtain ⟨hid, hnew⟩ := declareKey_of_absent habsent hc hcontainer rfl
    rw [hrun] at hid hnew
    obtain rfl : m = ⟨ts.members.size⟩ := hid
    have hhas : us.HasMember ⟨ts.members.size⟩ := by
      rw [HasMember, hnew.size]
      exact Nat.lt_succ_self _
    refine ⟨container, hcontainer.of_le hnew.le.1, ?_, iff_of_true ⟨?_, ?_, ?_⟩ ?_, ?_⟩
    · have hkey := hhas.hasKey
      rwa [hnew.new] at hkey
    · rw [hnew.new]
    · rw [hnew.new]
    · exact hnew.mem_members_iff.mpr (.inr ⟨rfl, rfl⟩)
    · exact fun n hn => absurd ((hold n).mp hn) (habsent n)
    · exact fun n hn => absurd ((hold n).mp hn) (habsent n)

/-- The canonical form of the field of type `T` has the key of a field of type `core.Object`. -/
theorem boxSession_not_declares :
    let s := boxSession.canonicalized (.member ⟨15⟩)
    let r := declareMember ⟨2⟩ (.field ⟨12⟩ .object) {} s.types
    ¬ Declares r.2 ⟨2⟩ r.1 ∧ ∃ n container, (s.types.member n).decl ≠ n ∧
      s.types.HasKey n { kind := .field ⟨12⟩ .object, container, flags := {}, generic := none } := by
  intro s r
  have hs : Session s := by
    refine .canonicalize _ boxSession_session ?_
    unfold Canonicalization.HasMembers
    decide +kernel
  have hnot : ¬ Declares r.2 ⟨2⟩ r.1 := fun h =>
    absurd h.decl_eq (by decide +kernel : (r.2.member r.1).decl ≠ r.1)
  obtain ⟨container, -, -, hiff, -⟩ := hs.declareMember_declares_iff
    (by decide +kernel : (⟨2⟩ : ClassId).index < s.types.classes.size) (Prod.eta r).symm
  refine ⟨hnot, ?_⟩
  rw [hiff] at hnot
  push Not at hnot
  obtain ⟨n, hn, hdecl⟩ := hnot
  exact ⟨n, container, hdecl, hn⟩

end Erasure.Canonicalizer
