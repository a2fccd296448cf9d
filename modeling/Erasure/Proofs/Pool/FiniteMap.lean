/-
Substitutions as finite maps.

The bindings of a substitution can be made by sorting a list of bindings by variable, without changing
the order of those of one variable, and dropping all but the first of each run; and a variable can be
found in them by halving. Both come to the map that the list stands for. The main statements:

* `Bindings.Sorted.eq_of_lookup?_eq`: a sorted map is known from what it binds.
* `Bindings.ofList_eq_destutter`: inserting in order is sorting and dropping repetitions.
* `Bindings.search_eq_lookup?`: halving a sorted map finds what it binds.
* `Pool.Constructed.internSubst_represents`: the number of a substitution stands for the finite map that
  its list of bindings is, in which the first binding of a variable counts.
-/
import Mathlib.Data.List.Destutter
import Erasure.Proofs.Pool.Composition
import Erasure.Proofs.Pool.Construction

namespace Erasure

namespace Bindings

variable {bs cs : Bindings} {v : TypeVarId} {ty : TypeId}

/-! ### First bindings -/

/-- The first binding of the variable in the list is to the type. -/
def BindsFirst (bs : List (TypeVarId × TypeId)) (v : TypeVarId) (ty : TypeId) : Prop :=
  ∃ before after, bs = before ++ (v, ty) :: after ∧ ∀ b ∈ before, b.1 ≠ v

theorem lookup?_eq_some_iff : lookup? bs v = some ty ↔ BindsFirst bs v ty := by
  rw [lookup?, Option.map_eq_some_iff]
  constructor
  · rintro ⟨⟨w, u⟩, hfind, rfl⟩
    obtain ⟨hw, before, after, rfl, hbefore⟩ := List.find?_eq_some_iff_append.mp hfind
    obtain rfl : w = v := of_decide_eq_true hw
    exact ⟨before, after, rfl, fun b hb heq => by simpa [heq] using hbefore b hb⟩
  · rintro ⟨before, after, rfl, hbefore⟩
    have hfind : (before ++ (v, ty) :: after).find? (·.1 = v) = some (v, ty) := by
      refine List.find?_eq_some_iff_append.mpr ⟨decide_eq_true rfl, before, after, rfl, ?_⟩
      exact fun b hb => by simpa using hbefore b hb
    exact ⟨(v, ty), hfind, rfl⟩

theorem lookup?_eq_none_iff : lookup? bs v = none ↔ ∀ b ∈ bs, b.1 ≠ v := by
  rw [lookup?, Option.map_eq_none_iff, List.find?_eq_none]
  exact forall₂_congr fun b _ => not_congr decide_eq_true_iff

/-- Two lists bind the same if every variable has the same first binding in both. -/
theorem lookup?_eq_iff :
    (∀ v, lookup? bs v = lookup? cs v) ↔ ∀ v ty, BindsFirst bs v ty ↔ BindsFirst cs v ty := by
  refine forall_congr' fun v => Option.ext_iff.trans (forall_congr' fun ty => ?_)
  rw [lookup?_eq_some_iff, lookup?_eq_some_iff]

/-! ### Sorted maps -/

theorem Sorted.lookup?_eq_some_iff_mem (h : Sorted bs) : lookup? bs v = some ty ↔ (v, ty) ∈ bs := by
  refine ⟨mem_of_lookup?, fun hmem => lookup?_eq_some_iff.mpr ?_⟩
  obtain ⟨before, after, rfl⟩ := List.append_of_mem hmem
  refine ⟨before, after, rfl, fun b hb heq => ?_⟩
  have hlt := (List.pairwise_append.mp h).2.2 b hb (v, ty) List.mem_cons_self
  exact absurd (congrArg TypeVarId.index heq) (Nat.ne_of_lt hlt)

/-- A sorted map is known from what it binds. -/
theorem Sorted.eq_of_lookup?_eq (hbs : Sorted bs) (hcs : Sorted cs)
    (h : ∀ v, lookup? bs v = lookup? cs v) : bs = cs := by
  have hnodup : ∀ {l : Bindings}, Sorted l → l.Nodup := fun hl =>
    hl.imp fun hlt heq => absurd (congrArg (·.1.index) heq) (Nat.ne_of_lt hlt)
  have hmem : ∀ b, b ∈ bs ↔ b ∈ cs := fun ⟨v, ty⟩ => by
    rw [← hbs.lookup?_eq_some_iff_mem, ← hcs.lookup?_eq_some_iff_mem, h v]
  refine ((List.perm_ext_iff_of_nodup (hnodup hbs) (hnodup hcs)).mpr hmem).eq_of_pairwise
    (fun b c _ _ hbc hcb => absurd hbc (Nat.lt_asymm hcb)) hbs hcs

/-! ### Sorting and dropping repetitions -/

/-- The order of bindings by their variables. -/
def byVar (b c : TypeVarId × TypeId) : Bool := b.1.index ≤ c.1.index

theorem byVar_trans (a b c : TypeVarId × TypeId) (hab : byVar a b) (hbc : byVar b c) :
    byVar a c :=
  decide_eq_true (Nat.le_trans (of_decide_eq_true hab) (of_decide_eq_true hbc))

theorem byVar_total (a b : TypeVarId × TypeId) : byVar a b || byVar b a := by
  rw [byVar, byVar, ← Bool.decide_or]
  exact decide_eq_true (Nat.le_total ..)

/-- Sorting leaves the bindings of one variable in their order. -/
theorem filter_mergeSort (bs : List (TypeVarId × TypeId)) (v : TypeVarId) :
    (bs.mergeSort byVar).filter (·.1 = v) = bs.filter (·.1 = v) := by
  have hsame : (bs.filter (·.1 = v)).Pairwise (byVar · ·) := by
    refine List.pairwise_of_forall_mem_list fun b hb c hc => ?_
    have hbv : b.1 = v := by simpa using (List.mem_filter.mp hb).2
    have hcv : c.1 = v := by simpa using (List.mem_filter.mp hc).2
    rw [byVar, hbv, hcv]
    exact decide_eq_true (Nat.le_refl _)
  have hsublist := (List.sublist_mergeSort byVar_trans byVar_total hsame
    List.filter_sublist).filter (·.1 = v)
  simp only [List.filter_filter, Bool.and_self] at hsublist
  exact (hsublist.eq_of_length ((List.mergeSort_perm bs byVar).filter _).length_eq.symm).symm

/-- What a variable is bound to depends on its own bindings. -/
theorem lookup?_filter (bs : List (TypeVarId × TypeId)) (v : TypeVarId) :
    lookup? (bs.filter (·.1 = v)) v = lookup? bs v := by
  rw [lookup?, lookup?, List.find?_filter]
  simp only [and_self, Bool.decide_eq_true]

theorem lookup?_mergeSort (bs : List (TypeVarId × TypeId)) (v : TypeVarId) :
    lookup? (bs.mergeSort byVar) v = lookup? bs v := by
  rw [← lookup?_filter, filter_mergeSort, lookup?_filter]

/-- Where the first of each run is kept, every variable keeps its first binding. -/
theorem lookup?_destutter' (b : TypeVarId × TypeId) (bs : List (TypeVarId × TypeId))
    (v : TypeVarId) : lookup? (bs.destutter' (fun b c => b.1 ≠ c.1) b) v = lookup? (b :: bs) v := by
  induction bs generalizing b with
  | nil => rfl
  | cons c bs ih =>
    rw [List.destutter'_cons, lookup?_cons b (c :: bs)]
    split
    case isTrue hne => rw [lookup?_cons, ih]
    case isFalse heq =>
      rw [ih, lookup?_cons, lookup?_cons c bs]
      have heq : b.1 = c.1 := Classical.not_not.mp heq
      split
      · rfl
      · rw [if_neg (heq ▸ ‹_›)]

theorem lookup?_destutter (bs : List (TypeVarId × TypeId)) (v : TypeVarId) :
    lookup? (bs.destutter fun b c => b.1 ≠ c.1) v = lookup? bs v := by
  cases bs with
  | nil => rfl
  | cons b bs => exact lookup?_destutter' b bs v

theorem sorted_destutter_mergeSort (bs : List (TypeVarId × TypeId)) :
    Sorted ((bs.mergeSort byVar).destutter fun b c => b.1 ≠ c.1) := by
  have hsorted := (List.pairwise_mergeSort byVar_trans byVar_total bs).sublist
    (List.destutter_sublist (fun b c : TypeVarId × TypeId => b.1 ≠ c.1) _)
  have hchain := List.isChain_destutter (fun b c : TypeVarId × TypeId => b.1 ≠ c.1)
    (bs.mergeSort byVar)
  have : IsTrans (TypeVarId × TypeId) fun b c => b.1.index < c.1.index := ⟨fun _ _ _ => Nat.lt_trans⟩
  refine List.isChain_iff_pairwise.mp (List.isChain_iff_forall_rel_of_append_cons_cons.mpr ?_)
  intro b c before after heq
  rw [heq] at hsorted hchain
  have hne := List.isChain_iff_forall_rel_of_append_cons_cons.mp hchain rfl
  have hle := List.rel_of_pairwise_cons (List.pairwise_append.mp hsorted).2.1 List.mem_cons_self
  exact Nat.lt_of_le_of_ne (of_decide_eq_true hle) fun h => hne (TypeVarId.eq_of_index h)

/-- Inserting the bindings in order is sorting them and dropping repeated variables. -/
theorem ofList_eq_destutter (bs : List (TypeVarId × TypeId)) :
    ofList bs = (bs.mergeSort byVar).destutter fun b c => b.1 ≠ c.1 := by
  refine (sorted_ofList bs).eq_of_lookup?_eq (sorted_destutter_mergeSort bs) fun v => ?_
  rw [lookup?_ofList, lookup?_destutter, lookup?_mergeSort]

/-! ### Halving -/

/-- Looks a variable up in the half of the bindings that can have it. -/
def search (v : TypeVarId) (bs : Bindings) : Option TypeId :=
  if h : bs.length ≤ 1 then
    lookup? bs v
  else
    have hhalf : bs.length / 2 < bs.length := by omega
    if v.index < bs[bs.length / 2].1.index then
      search v (bs.take (bs.length / 2))
    else
      search v (bs.drop (bs.length / 2))
termination_by bs.length
decreasing_by
  · rw [List.length_take]
    omega
  · rw [List.length_drop]
    omega

/-- Halving a sorted map finds what it binds. -/
theorem search_eq_lookup? (h : Sorted bs) (v : TypeVarId) : search v bs = lookup? bs v := by
  fun_induction search v bs with
  | case1 => rfl
  | case2 bs hlong hhalf hlt ih =>
    have hparts := List.take_append_drop (bs.length / 2) bs
    have hmid := List.drop_eq_getElem_cons hhalf
    have hupper : Sorted (bs.drop (bs.length / 2)) := h.sublist (List.drop_sublist ..)
    have hnone : lookup? (bs.drop (bs.length / 2)) v = none := by
      rw [hmid] at hupper ⊢
      refine lookup?_eq_none_iff.mpr fun b hb heq => ?_
      have hle : bs[bs.length / 2].1.index ≤ b.1.index := by
        rcases List.mem_cons.mp hb with rfl | hb
        · exact Nat.le_refl _
        · exact Nat.le_of_lt (List.rel_of_pairwise_cons hupper hb)
      rw [heq] at hle
      exact Nat.not_lt_of_le hle hlt
    rw [ih (h.sublist (List.take_sublist ..))]
    conv_rhs => rw [← hparts, lookup?_append, hnone, Option.or_none]
  | case3 bs hlong hhalf hge ih =>
    have hparts := List.take_append_drop (bs.length / 2) bs
    have hmid : bs[bs.length / 2] ∈ bs.drop (bs.length / 2) :=
      List.drop_eq_getElem_cons hhalf ▸ List.mem_cons_self
    have hnone : lookup? (bs.take (bs.length / 2)) v = none := by
      refine lookup?_eq_none_iff.mpr fun b hb heq => hge ?_
      have hsorted : Sorted (bs.take (bs.length / 2) ++ bs.drop (bs.length / 2)) := hparts.symm ▸ h
      exact heq ▸ (List.pairwise_append.mp hsorted).2.2 b hb _ hmid
    rw [ih (h.sublist (List.drop_sublist ..))]
    conv_rhs => rw [← hparts, lookup?_append, hnone, Option.none_or]

end Bindings

/-! ### Substitutions -/

namespace Pool

open Bindings (BindsFirst byVar search)

variable {p q : Pool} {s : SubstId} {bs : Bindings}

theorem lubOf_substs (tys : List TypeId) (p : Pool) : (lubOf tys p).2.substs = p.substs := by
  unfold lubOf
  cases Candidates.ofList tys with
  | nil => rfl
  | cons ty rest => cases rest <;> rfl

/-- A pool that constructors make, whatever they are applied to. -/
inductive Constructed : Pool → Prop
  | initial : Constructed initial
  | step {p : Pool} (c : Construction) : Constructed p → Constructed (c.run p)

/-- The bindings of all substitutions are in order. -/
theorem Constructed.sorted (h : Constructed p) (hs : p.HasBindings s bs) : bs.Sorted := by
  induction h with
  | initial => exact (initial_valid.bindings hs).1
  | step c _ ih =>
    cases c with
    | array elem => exact ih hs
    | rawClass c => exact ih hs
    | typeVar v => exact ih hs
    | instantiation base t outer => exact ih hs
    | internSubst cs =>
      rcases hasBindings_internSubst_cases hs with hold | rfl
      · exact ih hold
      · exact Bindings.sorted_ofList cs
    | lubOf tys =>
      refine ih (Eq.trans ?_ hs)
      rw [Construction.run, lubOf_substs]

/-- The substitution of a list keeps its bindings in all later pools. -/
theorem hasBindings_of_internSubst_le {bs : List (TypeVarId × TypeId)}
    (hle : (internSubst bs p).2 ≤ q) :
    q.HasBindings (internSubst bs p).1 (Bindings.ofList bs) :=
  (hasBindings_internSubst p bs).of_le hle

/-- Two lists have one substitution exactly if they bind the same. -/
theorem internSubst_eq_iff {bs cs : List (TypeVarId × TypeId)} (hle : (internSubst bs p).2 ≤ q) :
    (internSubst cs q).1 = (internSubst bs p).1 ↔
      ∀ v, Bindings.lookup? cs v = Bindings.lookup? bs v := by
  have hbs := (hasBindings_of_internSubst_le hle).of_le (le_internSubst q cs)
  have hcs := hasBindings_internSubst q cs
  constructor
  · intro heq v
    have hsame : Bindings.ofList cs = Bindings.ofList bs := (heq ▸ hcs).unique hbs
    rw [← Bindings.lookup?_ofList, hsame, Bindings.lookup?_ofList]
  · intro hsame
    have heq : Bindings.ofList cs = Bindings.ofList bs :=
      (Bindings.sorted_ofList cs).eq_of_lookup?_eq (Bindings.sorted_ofList bs) fun v => by
        rw [Bindings.lookup?_ofList, Bindings.lookup?_ofList, hsame v]
    exact hcs.inj (heq ▸ hbs)

/-- The substitution of a list of bindings stands, in the pool and all that come after it, for the
finite map in which the first binding of a variable counts: it keeps the list sorted by variable with
repetitions dropped, it replaces a variable by its first binding and no variable without one, and
another list has the same substitution exactly if it binds the same. Halving finds in every substitution
what it puts in place of a variable. -/
theorem Constructed.internSubst_represents (h : Constructed p) :
    (∀ bs q, (internSubst bs p).2 ≤ q →
      (∀ v ty, q.replacement? (internSubst bs p).1 v = some ty ↔ BindsFirst bs v ty) ∧
      (∀ v, q.replacement? (internSubst bs p).1 v = none ↔ ∀ b ∈ bs, b.1 ≠ v) ∧
      q.HasBindings (internSubst bs p).1 ((bs.mergeSort byVar).destutter fun b c => b.1 ≠ c.1) ∧
      ∀ cs, (internSubst cs q).1 = (internSubst bs p).1 ↔
        ∀ v ty, BindsFirst cs v ty ↔ BindsFirst bs v ty) ∧
    ∀ s bs, p.HasBindings s bs → bs.Sorted ∧ ∀ v, p.replacement? s v = search v bs := by
  refine ⟨fun bs q hle => ?_, fun s bs hs => ⟨h.sorted hs, fun v => ?_⟩⟩
  · have hbindings := hasBindings_of_internSubst_le hle
    have hlookup : ∀ v, q.replacement? (internSubst bs p).1 v = Bindings.lookup? bs v := fun v => by
      rw [replacement?, hbindings.bindings_eq, Bindings.lookup?_ofList]
    refine ⟨fun v ty => ?_, fun v => ?_, ?_, fun cs => ?_⟩
    · rw [hlookup, Bindings.lookup?_eq_some_iff]
    · rw [hlookup, Bindings.lookup?_eq_none_iff]
    · exact Bindings.ofList_eq_destutter bs ▸ hbindings
    · exact (internSubst_eq_iff hle).trans Bindings.lookup?_eq_iff
  · rw [Bindings.search_eq_lookup? (h.sorted hs), replacement?, hs.bindings_eq]

theorem boxPool_constructed : Constructed boxPool :=
  Constructed.initial.step (.typeVar ⟨0⟩) |>.step (.internSubst [(⟨0⟩, ⟨10⟩)])
    |>.step (.instantiation ⟨1⟩ ⟨1⟩ none) |>.step (.array ⟨11⟩) |>.step (.rawClass ⟨0⟩)
    |>.step (.lubOf [⟨13⟩, ⟨12⟩, ⟨13⟩])

/-- A variable that is bound twice is replaced by what it is bound to first, and leaving the second
binding out, in another order, gives the same substitution. -/
theorem internSubst_represents_box : ∃ s q,
    internSubst [(⟨1⟩, ⟨10⟩), (⟨0⟩, ⟨13⟩), (⟨1⟩, ⟨12⟩)] boxPool = (s, q) ∧
      q.replacement? s ⟨1⟩ = some ⟨10⟩ ∧ q.replacement? s ⟨2⟩ = none ∧
      (internSubst [(⟨0⟩, ⟨13⟩), (⟨1⟩, ⟨10⟩)] q).1 = s := by
  refine ⟨_, _, (Prod.eta _).symm, ?_⟩
  obtain ⟨hfirst, hnone, -, hsame⟩ := boxPool_constructed.internSubst_represents.1 _ _ (le_refl _)
  refine ⟨(hfirst ⟨1⟩ ⟨10⟩).mpr ⟨[], _, rfl, nofun⟩, (hnone ⟨2⟩).mpr (by decide),
    (hsame _).mpr (Bindings.lookup?_eq_iff.mp fun v => ?_)⟩
  simp only [Bindings.lookup?_cons]
  by_cases hv : (⟨0⟩ : TypeVarId) = v
  · subst hv
    rfl
  · simp only [if_neg hv]
    split_ifs <;> rfl

end Pool

end Erasure
