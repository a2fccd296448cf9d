/-
Editing as a whole from its steps.

An editor goes through the trees of a unit, which may share nodes, while it replaces some of them. What
leaving a node does when its children are done is `Establishes`. The main statements:

* `editWithin_clear`, `editAll_clear`: editing a tree with nothing to do in it undoes nothing.
* `editWithin_ends`, `editAll_ends`: in a unit without cycles all roots are done in the end.
-/
import Erasure.Proofs.Tree.ReadBack
import Erasure.Tree.Editor

namespace Erasure

/-! ### Actions that end -/

section

variable {σ ε α β : Type} {F : Prop}

/-- The action ends with an answer and in a state as described. It fails only if `F` allows it. -/
def Ends (F : Prop) (act : ExceptT ε (StateM σ) α) (s : σ) (P : α → σ → Prop) : Prop :=
  match act.run s with
  | (.ok a, t) => P a t
  | (.error _, _) => F

namespace Ends

variable {act : ExceptT ε (StateM σ) α} {s : σ} {P Q : α → σ → Prop}

theorem pure {a : α} (h : P a s) : Ends F (pure a : ExceptT ε (StateM σ) α) s P := h

theorem mono (h : Ends F act s P) (hPQ : ∀ a t, P a t → Q a t) : Ends F act s Q := by
  unfold Ends at *
  split at h
  · exact hPQ _ _ h
  · exact h

theorem bind {f : α → ExceptT ε (StateM σ) β} {R : β → σ → Prop} (h : Ends F act s P)
    (hf : ∀ a t, P a t → Ends F (f a) t R) : Ends F (act >>= f) s R := by
  unfold Ends at h
  rw [Ends, run_bind_apply]
  split at h
  · rename_i a t heq
    rw [heq]
    exact hf a t h
  · rename_i e t heq
    rw [heq]
    exact h

theorem get_bind {f : σ → ExceptT ε (StateM σ) β} {R : β → σ → Prop} (h : Ends F (f s) s R) :
    Ends F (get >>= f : ExceptT ε (StateM σ) β) s R := h

theorem modify_bind {f : σ → σ} {k : PUnit → ExceptT ε (StateM σ) β} {R : β → σ → Prop}
    (h : Ends F (k ⟨⟩) (f s) R) : Ends F (modify f >>= k : ExceptT ε (StateM σ) β) s R := h

theorem of_ok (h : Ends F act s P) {a : α} (ha : (act.run s).1 = .ok a) : P a (act.run s).2 := by
  unfold Ends at h
  split at h
  · rename_i b t heq
    rw [heq] at ha ⊢
    cases ha
    exact h
  · rename_i e t heq
    rw [heq] at ha
    cases ha

theorem exists_ok (h : Ends False act s P) : ∃ a, (act.run s).1 = .ok a := by
  unfold Ends at h
  split at h
  · rename_i a t heq
    exact ⟨a, by rw [heq]⟩
  · exact h.elim

end Ends

end

namespace Editor

variable {ρ : Type} {r : Editor ρ} {F : Prop} {u : CompilationUnit} {I : Editing ρ → Prop}
  {Clear Done : Editing ρ → NodeId → Prop} {s t : Editing ρ} {n : NodeId}

/-- What was clear or done stays so. -/
structure Progress (Clear Done : Editing ρ → NodeId → Prop) (s t : Editing ρ) : Prop where
  clear : ∀ {n}, Clear s n → Clear t n
  done : ∀ {n}, Done s n → Done t n

theorem Progress.refl (s : Editing ρ) : Progress Clear Done s s := ⟨id, id⟩

theorem Progress.trans {s' : Editing ρ} (h : Progress Clear Done s t)
    (h' : Progress Clear Done t s') : Progress Clear Done s s' :=
  ⟨h'.clear ∘ h.clear, h'.done ∘ h.done⟩

/-- Step by step the editor gets the nodes of a unit done. There is nothing to do any more in the
trees of clear nodes, and all states on the way satisfy `I`. -/
structure Establishes (r : Editor ρ) (F : Prop) (u : CompilationUnit) (I : Editing ρ → Prop)
    (Clear Done : Editing ρ → NodeId → Prop) : Prop where
  pending : ∀ {s n}, I s → u.HasNode n → Done s n ∨ u.arena.SameAt s.builder.arena n
  clear : ∀ {s n}, Done s n → Clear s n
  child : ∀ {s n c}, Clear s n → c ∈ s.builder.arena.children n → Clear s c
  stmt : ∀ {s id}, I s → u.HasNode (.stmt id) → u.arena.SameAt s.builder.arena (.stmt id) →
    (∀ c ∈ u.arena.children (.stmt id), Done s c) → Done s (.stmt id)
  again : ∀ {s id}, I s → Clear s (.expr id) →
    Ends F (r.leave id) s fun _ t => I t ∧ Progress Clear Done s t
  leave : ∀ {s id}, I s → u.HasNode (.expr id) → u.arena.SameAt s.builder.arena (.expr id) →
    (∀ c ∈ u.arena.children (.expr id), Done s c) →
    Ends F (r.leave id) s fun _ t => I t ∧ Progress Clear Done s t ∧ Done t (.expr id)

/-- What each step brings about for its node holds of all nodes in the end. -/
theorem forM_ends {D : Editing ρ → NodeId → Prop} {f : NodeId → EditM ρ Unit} {ns : List NodeId}
    (hD : ∀ {s t n}, Progress Clear Done s t → D s n → D t n) (hI : I s)
    (h : ∀ n ∈ ns, ∀ t, I t → Progress Clear Done s t →
      Ends F (f n) t fun _ t' => I t' ∧ Progress Clear Done t t' ∧ D t' n) :
    Ends F (ns.forM f) s fun _ t => I t ∧ Progress Clear Done s t ∧ ∀ n ∈ ns, D t n := by
  induction ns generalizing s with
  | nil => exact Ends.pure ⟨hI, .refl s, fun _ hn => absurd hn List.not_mem_nil⟩
  | cons n ns ih =>
    refine (h n List.mem_cons_self s hI (.refl s)).bind fun _ t ⟨ht, hst, hn⟩ => ?_
    have hrest := ih ht fun m hm t' ht' htt' =>
      h m (List.mem_cons_of_mem _ hm) t' ht' (hst.trans htt')
    refine hrest.mono fun _ t' ⟨ht', htt', hns⟩ => ⟨ht', hst.trans htt', ?_⟩
    exact List.forall_mem_cons.mpr ⟨hD htt' hn, hns⟩

/-- Editing a clear node undoes nothing. -/
theorem editWithin_clear (h : r.Establishes F u I Clear Done) {depth : Nat} (hI : I s)
    (hn : Clear s n) :
    Ends F (r.editWithin depth n) s fun _ t => I t ∧ Progress Clear Done s t := by
  induction depth generalizing s n with
  | zero => exact Ends.pure ⟨hI, .refl s⟩
  | succ depth ih =>
    unfold editWithin
    refine Ends.get_bind ?_
    refine (forM_ends (D := fun _ _ => True) (fun _ _ => trivial) hI fun c hc t ht hst =>
      (ih ht (hst.clear (h.child hn hc))).mono fun _ t' ⟨ht', htt'⟩ =>
        ⟨ht', htt', trivial⟩).bind fun _ t ⟨ht, hst, _⟩ => ?_
    cases n with
    | expr id =>
      exact (h.again ht (hst.clear hn)).mono fun _ t' ⟨ht', htt'⟩ => ⟨ht', hst.trans htt'⟩
    | stmt _ => exact Ends.pure ⟨ht, hst⟩

/-- Editing what is clear undoes nothing. -/
theorem editAll_clear (h : r.Establishes F u I Clear Done) {roots : List NodeId} (hI : I s)
    (hroots : ∀ n ∈ roots, Clear s n) :
    Ends F (r.editAll roots) s fun _ t => I t ∧ Progress Clear Done s t := by
  unfold editAll
  refine Ends.get_bind ?_
  refine (forM_ends (D := fun _ _ => True) (fun _ _ => trivial) hI fun n hn t ht hst =>
    (editWithin_clear h ht (hst.clear (hroots n hn))).mono fun _ t' ⟨ht', htt'⟩ =>
      ⟨ht', htt', trivial⟩).mono ?_
  exact fun _ _ ⟨ht, hst, _⟩ => ⟨ht, hst⟩

/-- A node of the unit is done when it has been edited as deep as it goes. -/
theorem editWithin_ends (h : r.Establishes F u I Clear Done) {k depth : Nat} (hI : I s)
    (hn : u.HasNode n) (hlevels : u.arena.Levels k n) (hle : k ≤ depth) :
    Ends F (r.editWithin depth n) s fun _ t =>
      I t ∧ Progress Clear Done s t ∧ Done t n := by
  induction k generalizing depth s n with
  | zero => exact hlevels.elim
  | succ k ih =>
    obtain ⟨depth, rfl⟩ := Nat.exists_eq_add_of_le' (Nat.lt_of_lt_of_le (Nat.succ_pos k) hle)
    rcases h.pending hI hn with hdone | hsame
    · exact (editWithin_clear h hI (h.clear hdone)).mono fun _ t ⟨ht, hst⟩ =>
        ⟨ht, hst, hst.done hdone⟩
    unfold editWithin
    refine Ends.get_bind ?_
    rw [hsame.children]
    refine (forM_ends (D := Done) (fun hst => hst.done) hI fun c hc t ht _ =>
      ih ht (hn.child hc) (hlevels c hc) (Nat.le_of_succ_le_succ hle)).bind ?_
    rintro _ t ⟨ht, hst, hchildren⟩
    -- The node would have become done meanwhile only if it were below itself, but that need not be
    -- excluded.
    rcases h.pending ht hn with hdone | hsame
    · cases n with
      | expr id =>
        exact (h.again ht (h.clear hdone)).mono fun _ t' ⟨ht', htt'⟩ =>
          ⟨ht', hst.trans htt', htt'.done hdone⟩
      | stmt _ => exact Ends.pure ⟨ht, hst, hdone⟩
    · cases n with
      | expr id =>
        exact (h.leave ht hn hsame hchildren).mono fun _ t' ⟨ht', htt', hid⟩ =>
          ⟨ht', hst.trans htt', hid⟩
      | stmt id => exact Ends.pure ⟨ht, hst, h.stmt ht hn hsame hchildren⟩

/-- In a unit without cycles all roots are done in the end. -/
theorem editAll_ends (h : r.Establishes F u I Clear Done) (hu : u.IsAcyclic) (hI : I s)
    (harena : s.builder.arena = u.arena) :
    Ends F (r.editAll u.roots) s fun _ t => I t ∧ ∀ n ∈ u.roots, Done t n := by
  unfold editAll
  refine Ends.get_bind ?_
  have hdepth : u.arena.nodeCount + 1 ≤ depthFor s.builder.arena := by
    rw [harena, depthFor]
    omega
  refine (forM_ends (D := Done) (fun hst => hst.done) hI fun n hn t ht _ =>
    editWithin_ends h ht (.root hn) (hu.levels (.root hn)) hdepth).mono ?_
  exact fun _ _ ⟨ht, _, hroots⟩ => ⟨ht, hroots⟩

end Editor

end Erasure
