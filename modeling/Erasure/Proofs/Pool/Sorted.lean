/-
Sorted bindings and candidate sets.

* `sorted_ofList`: the map or set made of a list is sorted.
* `ofList_of_sorted`: a sorted list is the map or set that it makes.
* `Candidates.Sorted.eq_of_mem_iff`: a candidate set is known from its members.
-/
import Mathlib.Data.List.Perm.Basic
import Erasure.Pool.Kind

namespace Erasure

theorem TypeId.eq_of_index {t u : TypeId} (h : t.index = u.index) : t = u := congrArg TypeId.mk h

theorem TypeVarId.eq_of_index {v w : TypeVarId} (h : v.index = w.index) : v = w :=
  congrArg TypeVarId.mk h

/-! ### Sorted maps and sets -/

namespace Bindings

/-- The variables increase from entry to entry. -/
def Sorted (bs : Bindings) : Prop := bs.Pairwise fun a b => a.1.index < b.1.index

theorem mem_of_mem_bindNew {v : TypeVarId} {ty : TypeId} {b : TypeVarId × TypeId} {bs : Bindings}
    (h : b ∈ bindNew v ty bs) : b = (v, ty) ∨ b ∈ bs := by
  fun_induction bindNew v ty bs with
  | case1 => exact Or.inl (List.mem_singleton.mp h)
  | case2 => exact List.mem_cons.mp h
  | case3 => exact Or.inr h
  | case4 w u rest _ _ ih =>
    rcases List.mem_cons.mp h with rfl | h
    · exact Or.inr List.mem_cons_self
    · exact (ih h).imp_right (List.mem_cons_of_mem _)

theorem Sorted.bindNew {bs : Bindings} (h : Sorted bs) (v : TypeVarId) (ty : TypeId) :
    Sorted (bs.bindNew v ty) := by
  fun_induction Bindings.bindNew v ty bs with
  | case1 => exact List.pairwise_singleton _ _
  | case2 w u rest hlt =>
    refine List.Pairwise.cons (fun b hb => ?_) h
    rcases List.mem_cons.mp hb with rfl | hb
    · exact hlt
    · exact Nat.lt_trans hlt (List.rel_of_pairwise_cons h hb)
  | case3 => exact h
  | case4 w u rest hge hne ih =>
    refine List.Pairwise.cons (fun b hb => ?_) (ih h.of_cons)
    rcases mem_of_mem_bindNew hb with rfl | hb
    · have hne' : v.index ≠ w.index := fun e => hne (TypeVarId.eq_of_index e)
      show w.index < v.index
      omega
    · exact List.rel_of_pairwise_cons h hb

theorem foldl_bindNew (bs : List (TypeVarId × TypeId)) (acc : Bindings) :
    (Sorted acc → Sorted (bs.foldl (fun acc b => bindNew b.1 b.2 acc) acc)) ∧
      ∀ b ∈ bs.foldl (fun acc b => bindNew b.1 b.2 acc) acc, b ∈ acc ∨ b ∈ bs := by
  induction bs generalizing acc with
  | nil => exact ⟨id, fun b hb => Or.inl hb⟩
  | cons a bs ih =>
    obtain ⟨hsorted, hmem⟩ := ih (bindNew a.1 a.2 acc)
    refine ⟨fun hacc => hsorted (hacc.bindNew a.1 a.2), fun b hb => ?_⟩
    rcases hmem b hb with hb | hb
    · rcases mem_of_mem_bindNew hb with rfl | hb
      · exact Or.inr List.mem_cons_self
      · exact Or.inl hb
    · exact Or.inr (List.mem_cons_of_mem _ hb)

theorem sorted_ofList (bs : List (TypeVarId × TypeId)) : Sorted (ofList bs) :=
  (foldl_bindNew bs []).1 List.Pairwise.nil

theorem mem_of_mem_ofList {bs : List (TypeVarId × TypeId)} {b : TypeVarId × TypeId}
    (h : b ∈ ofList bs) : b ∈ bs :=
  ((foldl_bindNew bs []).2 b h).resolve_left List.not_mem_nil

theorem bindNew_of_all_lt {bs : Bindings} {v : TypeVarId} {ty : TypeId}
    (h : ∀ b ∈ bs, b.1.index < v.index) : bs.bindNew v ty = bs ++ [(v, ty)] := by
  induction bs with
  | nil => rfl
  | cons a bs ih =>
    have hlt := h a List.mem_cons_self
    rw [Bindings.bindNew, if_neg (by omega), if_neg (fun e => by subst e; omega),
      ih fun b hb => h b (List.mem_cons_of_mem _ hb)]
    rfl

/-- A sorted list of bindings is the map that it makes. -/
theorem mem_of_lookup? {bs : Bindings} {v : TypeVarId} {ty : TypeId}
    (h : bs.lookup? v = some ty) : (v, ty) ∈ bs := by
  obtain ⟨⟨w, u⟩, hfind, rfl⟩ := Option.map_eq_some_iff.mp h
  have hvar := List.find?_some hfind
  rw [← of_decide_eq_true hvar]
  exact List.mem_of_find?_eq_some hfind

theorem ofList_of_sorted {bs : Bindings} (h : Sorted bs) : ofList bs = bs := by
  suffices hacc : ∀ acc : Bindings, Sorted (acc ++ bs) →
      bs.foldl (fun acc b => bindNew b.1 b.2 acc) acc = acc ++ bs from hacc [] h
  intro acc hacc
  induction bs generalizing acc with
  | nil => exact (List.append_nil acc).symm
  | cons a bs ih =>
    have hlt : ∀ b ∈ acc, b.1.index < a.1.index := fun b hb =>
      (List.pairwise_append.mp hacc).2.2 b hb a List.mem_cons_self
    rw [List.foldl_cons, bindNew_of_all_lt hlt, ih h.of_cons _ (by simpa using hacc)]
    simp

end Bindings

namespace Candidates

/-- The types increase from entry to entry. -/
def Sorted (cs : Candidates) : Prop := cs.Pairwise fun t u => t.index < u.index

theorem mem_add {ty u : TypeId} {cs : Candidates} : u ∈ add ty cs ↔ u = ty ∨ u ∈ cs := by
  fun_induction add ty cs with
  | case1 => simp
  | case2 => simp
  | case3 => simp
  | case4 w rest _ _ ih => simp only [List.mem_cons, ih]; tauto

theorem Sorted.add {cs : Candidates} (h : Sorted cs) (ty : TypeId) : Sorted (cs.add ty) := by
  fun_induction Candidates.add ty cs with
  | case1 => exact List.pairwise_singleton _ _
  | case2 w rest hlt =>
    refine List.Pairwise.cons (fun u hu => ?_) h
    rcases List.mem_cons.mp hu with rfl | hu
    · exact hlt
    · exact Nat.lt_trans hlt (List.rel_of_pairwise_cons h hu)
  | case3 => exact h
  | case4 w rest hge hne ih =>
    refine List.Pairwise.cons (fun u hu => ?_) (ih h.of_cons)
    rcases mem_add.mp hu with rfl | hu
    · have : u.index ≠ w.index := fun e => hne (TypeId.eq_of_index e)
      omega
    · exact List.rel_of_pairwise_cons h hu

theorem foldl_add (tys : List TypeId) (acc : Candidates) :
    (Sorted acc → Sorted (tys.foldl (fun acc ty => add ty acc) acc)) ∧
      ∀ u, u ∈ tys.foldl (fun acc ty => add ty acc) acc ↔ u ∈ acc ∨ u ∈ tys := by
  induction tys generalizing acc with
  | nil => exact ⟨id, fun u => by simp⟩
  | cons ty tys ih =>
    obtain ⟨hsorted, hmem⟩ := ih (add ty acc)
    refine ⟨fun hacc => hsorted (hacc.add ty), fun u => ?_⟩
    rw [List.foldl_cons, hmem u, mem_add, List.mem_cons]
    tauto

theorem sorted_ofList (tys : List TypeId) : Sorted (ofList tys) :=
  (foldl_add tys []).1 List.Pairwise.nil

theorem mem_ofList {tys : List TypeId} {u : TypeId} : u ∈ ofList tys ↔ u ∈ tys :=
  ((foldl_add tys []).2 u).trans (by simp)

/-- A sorted list is known from its members. -/
theorem Sorted.eq_of_mem_iff {cs ds : Candidates} (hcs : Sorted cs) (hds : Sorted ds)
    (h : ∀ u, u ∈ cs ↔ u ∈ ds) : cs = ds := by
  have hnodup : ∀ {l : Candidates}, Sorted l → l.Nodup := fun hl =>
    hl.imp fun hlt e => absurd (congrArg TypeId.index e) (Nat.ne_of_lt hlt)
  refine ((List.perm_ext_iff_of_nodup (hnodup hcs) (hnodup hds)).mpr h).eq_of_pairwise
    (fun t u _ _ htu hut => absurd htu (Nat.lt_asymm hut)) hcs hds

theorem ofList_of_sorted {cs : Candidates} (h : Sorted cs) : ofList cs = cs :=
  (sorted_ofList cs).eq_of_mem_iff h fun _ => mem_ofList

end Candidates

end Erasure
