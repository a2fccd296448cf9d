/-
Stores that only grow, and actions on them that compute without declaring anything.

Entries of a table keep their positions and remembered results stay, so a later state answers
every question about an earlier entry as before. The main statements:

* `intern_le`, `intern_eq_of_le`: interning extends a table, and in every later table the same
  entry has the same position.
* `Keeps`: an action extends the store, leaves the declarations alone and establishes a fact.
* `Computes`: such an action, run again in any later store, gives the same answer and changes
  nothing. `Computes.bind` and `Computes.mapM` put such actions together.
-/
import Mathlib.Order.Basic
import Mathlib.Data.List.Forall2
import Erasure.InternTable
import Erasure.Memo

namespace Erasure

/-! ### Tables -/

namespace InternTable

variable {α κ : Type} {key : α → κ}

/-- A table is below another when every entry has kept its position. -/
instance : Preorder (InternTable key) where
  le t u := ∀ i a, t.get? i = some a → u.get? i = some a
  le_refl _ _ _ h := h
  le_trans _ _ _ htu huv i a h := huv i a (htu i a h)

theorem get?_of_le {t u : InternTable key} (hle : t ≤ u) {i : Nat} {a : α}
    (h : t.get? i = some a) : u.get? i = some a := hle i a h

theorem map_get?_of_le {t u : InternTable key} (hle : t ≤ u) {i : Nat} {β : Type} {f : α → β}
    {b : β} (h : (t.get? i).map f = some b) : (u.get? i).map f = some b := by
  obtain ⟨a, ha, hb⟩ := Option.map_eq_some_iff.mp h
  rw [get?_of_le hle ha, Option.map_some, hb]

theorem get?_eq_none_iff {t : InternTable key} {i : Nat} : t.get? i = none ↔ t.size ≤ i := by
  rw [get?, Array.getElem?_eq_none_iff]
  rfl

theorem lt_size_of_get? {t : InternTable key} {i : Nat} {a : α} (h : t.get? i = some a) :
    i < t.size := by
  by_contra hge
  rw [get?_eq_none_iff.mpr (Nat.le_of_not_lt hge)] at h
  cases h

theorem exists_get? {t : InternTable key} {i : Nat} (h : i < t.size) : ∃ a, t.get? i = some a := by
  cases hget : t.get? i with
  | some a => exact ⟨a, rfl⟩
  | none => exact absurd (get?_eq_none_iff.mp hget) (Nat.not_le_of_lt h)

theorem size_le_of_le {t u : InternTable key} (hle : t ≤ u) : t.size ≤ u.size := by
  rcases Nat.eq_zero_or_pos t.size with hzero | hpos
  · omega
  · obtain ⟨a, ha⟩ := exists_get? (t := t) (i := t.size - 1) (by omega)
    have := lt_size_of_get? (get?_of_le hle ha)
    omega

variable [DecidableEq κ]

theorem le_intern (t : InternTable key) (a : α) : t ≤ (t.intern a).2 :=
  fun _ _ h => get?_intern_of_get? h

/-- Interning an entry with the same key, in any later table, finds the position that the key has
already. -/
theorem intern_eq_of_le {t u : InternTable key} {a b : α} (hle : (t.intern a).2 ≤ u)
    (hkey : key b = key a) : u.intern b = ((t.intern a).1, u) :=
  intern_of_find?_eq_some (hkey ▸ find?_eq_some_iff.mpr (map_get?_of_le hle (get?_intern t a)))

/-- Interning finds what is there. -/
theorem intern_of_get? {t : InternTable key} {a : α} {i : Nat} (h : t.get? i = some a) :
    t.intern a = (i, t) :=
  intern_of_find?_eq_some (find?_eq_some_iff.mpr (by simp [h]))

/-- An entry of the table after interning is an old one, or the new one at its position. -/
theorem get?_intern_cases {t : InternTable key} {a b : α} {i : Nat}
    (h : (t.intern a).2.get? i = some b) :
    t.get? i = some b ∨ (i = (t.intern a).1 ∧ i = t.size ∧ b = a) := by
  cases hf : t.find? (key a) with
  | some j =>
    rw [intern_of_find?_eq_some hf] at h
    exact Or.inl h
  | none =>
    rw [get?, (intern_of_find?_eq_none hf).2, Array.getElem?_push] at h
    split at h
    · exact Or.inr ⟨by rw [(intern_of_find?_eq_none hf).1]; assumption, by assumption,
        (Option.some.inj h).symm⟩
    · exact Or.inl h

end InternTable

/-! ### Memos -/

namespace Memo

variable {κ α : Type} [DecidableEq κ]

/-- A memo is below another when it remembers nothing else. -/
instance : Preorder (Memo κ α) where
  le m n := ∀ k a, m.find? k = some a → n.find? k = some a
  le_refl _ _ _ h := h
  le_trans _ _ _ hmn hno k a h := hno k a (hmn k a h)

theorem find?_of_le {m n : Memo κ α} (hle : m ≤ n) {k : κ} {a : α} (h : m.find? k = some a) :
    n.find? k = some a := hle k a h

theorem eq_empty_of_le {m : Memo κ α} (hle : m ≤ ∅) : m = ∅ := by
  obtain ⟨entries⟩ := m
  cases entries with
  | nil => rfl
  | cons entry rest =>
    have hfirst : Memo.find? ⟨entry :: rest⟩ entry.1 = some entry.2 := by
      simp [find?]
    have hnone := hle _ _ hfirst
    cases hnone

/-- Remembering a result extends the memo unless another result was remembered. -/
theorem le_insert {m : Memo κ α} {k : κ} {a : α} (h : ∀ b, m.find? k = some b → b = a) :
    m ≤ m.insert k a := by
  intro j b hj
  rw [find?_insert]
  split
  · rename_i hjk
    rw [h b (hjk ▸ hj)]
  · exact hj

theorem le_insert_of_none {m : Memo κ α} {k : κ} (a : α) (h : m.find? k = none) :
    m ≤ m.insert k a := le_insert fun _ hb => nomatch h.symm.trans hb

theorem find?_insert_self (m : Memo κ α) (k : κ) (a : α) : (m.insert k a).find? k = some a := by
  rw [find?_insert, if_pos rfl]

/-- A result remembered after an insertion is the inserted one or an old one. -/
theorem find?_insert_cases {m : Memo κ α} {k j : κ} {a b : α}
    (h : (m.insert k a).find? j = some b) : (j = k ∧ b = a) ∨ m.find? j = some b := by
  rw [find?_insert] at h
  split at h
  · exact Or.inl ⟨by assumption, (Option.some.inj h).symm⟩
  · exact Or.inr h

/-! A representative is remembered together with itself. -/

section Representatives

variable {m : Memo κ κ} {k a : κ}

theorem find?_insert_both_cases {j b : κ} (h : ((m.insert k a).insert a a).find? j = some b) :
    m.find? j = some b ∨ ((j = k ∨ j = a) ∧ b = a) := by
  rcases find?_insert_cases h with ⟨hj, hb⟩ | h
  · exact Or.inr ⟨Or.inr hj, hb⟩
  · exact (find?_insert_cases h).elim (fun h => Or.inr ⟨Or.inl h.1, h.2⟩) Or.inl

theorem le_insert_both (hk : ∀ b, m.find? k = some b → b = a)
    (ha : ∀ b, m.find? a = some b → b = a) : m ≤ (m.insert k a).insert a a := by
  refine le_trans (le_insert hk) (le_insert fun b hb => ?_)
  exact (find?_insert_cases hb).elim And.right (ha b)

theorem find?_insert_both (m : Memo κ κ) (k a : κ) :
    ((m.insert k a).insert a a).find? k = some a := by
  by_cases hk : k = a
  · rw [hk]
    exact find?_insert_self ..
  · rw [find?_insert, if_neg hk]
    exact find?_insert_self ..

end Representatives

end Memo

/-! ### Actions -/

section Answers

variable {σ α β γ : Type}

theorem bind_apply (act : StateM σ α) (f : α → StateM σ β) (s : σ) :
    (act >>= f) s = f (act s).1 (act s).2 := rfl

theorem map_apply (act : StateM σ α) (f : α → β) (s : σ) :
    (f <$> act) s = (f (act s).1, (act s).2) := rfl

theorem pure_apply (a : α) (s : σ) : (pure a : StateM σ α) s = (a, s) := rfl

theorem get_bind_apply (f : σ → StateM σ β) (s : σ) : ((get : StateM σ σ) >>= f) s = f s s := rfl

theorem run_get_bind_apply {ε : Type} (f : σ → ExceptT ε (StateM σ) β) (s : σ) :
    (get >>= f : ExceptT ε (StateM σ) β).run s = (f s).run s := rfl

theorem run_lift_bind_apply {ε : Type} (act : StateM σ α) (f : α → ExceptT ε (StateM σ) β) (s : σ) :
    (liftM act >>= f : ExceptT ε (StateM σ) β).run s = (f (act s).1).run (act s).2 := rfl

theorem run_lift_ok_bind_apply {ε : Type} (a : α) (f : α → ExceptT ε (StateM σ) β) (s : σ) :
    (liftM (Except.ok a : Except ε α) >>= f : ExceptT ε (StateM σ) β).run s = (f a).run s := rfl

theorem run_bind_apply {ε : Type} (act : ExceptT ε (StateM σ) α) (f : α → ExceptT ε (StateM σ) β)
    (s : σ) : (act >>= f).run s = ExceptT.bindCont f (act.run s).1 (act.run s).2 := rfl

theorem run_bind_of_ok {ε : Type} {act : ExceptT ε (StateM σ) α} {f : α → ExceptT ε (StateM σ) β}
    {s t : σ} {a : α} (h : act.run s = (.ok a, t)) : (act >>= f).run s = (f a).run t := by
  rw [run_bind_apply, h]
  rfl

theorem run_map_apply {ε : Type} (f : α → β) (act : ExceptT ε (StateM σ) α) (s : σ) :
    (f <$> act).run s = ((act.run s).1.map f, (act.run s).2) := by
  rw [map_eq_pure_bind, run_bind_apply]
  cases (act.run s).1 <;> rfl

/-- The action leaves the part `f` of the state as it is. -/
def Leaves (f : σ → γ) (act : StateM σ α) : Prop := ∀ s, f (act s).2 = f s

namespace Leaves

variable {f : σ → γ} {act : StateM σ α}

theorem pure (a : α) : Leaves f (pure a : StateM σ α) := fun _ => rfl

theorem bind {g : α → StateM σ β} (h : Leaves f act) (hg : ∀ a, Leaves f (g a)) :
    Leaves f (act >>= g) := fun s => (hg _ _).trans (h s)

theorem map {g : α → β} (h : Leaves f act) : Leaves f (g <$> act) := h

theorem get_bind {g : σ → StateM σ β} (hg : ∀ s, Leaves f (g s)) :
    Leaves f ((get : StateM σ σ) >>= g) := fun s => hg s s

theorem mapM {g : α → StateM σ β} (as : List α) (hg : ∀ a, Leaves f (g a)) :
    Leaves f (as.mapM g) := by
  induction as with
  | nil => exact .pure []
  | cons a as ih =>
    rw [List.mapM_cons]
    exact (hg a).bind fun b => ih.bind fun bs => .pure (b :: bs)

theorem optionMapM {g : α → StateM σ β} (o : Option α) (hg : ∀ a, Leaves f (g a)) :
    Leaves f (o.mapM g) := by
  cases o with
  | none => exact .pure none
  | some a => exact (hg a).map

/-! Actions that can fail. -/

variable {ε : Type}

theorem run_bind {x : ExceptT ε (StateM σ) α} {g : α → ExceptT ε (StateM σ) β}
    (h : Leaves f x.run) (hg : ∀ a, Leaves f (g a).run) : Leaves f (x >>= g).run := by
  refine bind (g := ExceptT.bindCont g) h fun r => ?_
  cases r with
  | ok a => exact hg a
  | error e => exact pure _

theorem run_get_bind {g : σ → ExceptT ε (StateM σ) β} (h : ∀ s, Leaves f (g s).run) :
    Leaves f (get >>= g : ExceptT ε (StateM σ) β).run := fun s => h s s

theorem run_lift (h : Leaves f act) : Leaves f (liftM act : ExceptT ε (StateM σ) α).run := h

theorem run_mapM {g : α → ExceptT ε (StateM σ) β} (as : List α) (h : ∀ a, Leaves f (g a).run) :
    Leaves f (as.mapM g).run := by
  induction as with
  | nil => exact pure _
  | cons a as ih =>
    rw [List.mapM_cons]
    exact run_bind (h a) fun _ => run_bind ih fun _ => pure _

theorem run_forM {g : α → ExceptT ε (StateM σ) PUnit} (as : List α) (h : ∀ a, Leaves f (g a).run) :
    Leaves f (as.forM g).run := by
  induction as with
  | nil => exact pure _
  | cons a as ih => exact run_bind (h a) fun _ => ih

end Leaves

variable [Preorder σ]

/-- From the state `t` on the action answers `a` and changes nothing. -/
def Answers (act : StateM σ α) (a : α) (t : σ) : Prop := ∀ u, t ≤ u → act u = (a, u)

theorem Answers.of_le {act : StateM σ α} {a : α} {t u : σ} (h : Answers act a t) (hle : t ≤ u) :
    Answers act a u := fun v huv => h v (le_trans hle huv)

theorem Answers.eq {act : StateM σ α} {a : α} {t : σ} (h : Answers act a t) : act t = (a, t) :=
  h t (le_refl t)

theorem Answers.unique {act : StateM σ α} {a b : α} {t : σ} (ha : Answers act a t)
    (hb : Answers act b t) : a = b := congrArg Prod.fst (ha.eq.symm.trans hb.eq)

theorem Answers.bind {act : StateM σ α} {f : α → StateM σ β} {a : α} {b : β} {t : σ}
    (h : Answers act a t) (hf : Answers (f a) b t) : Answers (act >>= f) b t := by
  intro u hu
  rw [bind_apply, h u hu]
  exact hf u hu

theorem Answers.pure {a : α} {t : σ} : Answers (pure a : StateM σ α) a t := fun _ _ => rfl

theorem Answers.map {act : StateM σ α} {f : α → β} {a : α} {t : σ} (h : Answers act a t) :
    Answers (f <$> act) (f a) t := by
  intro u hu
  rw [map_apply, h u hu]

/-- An action that answers every entry of a list itself answers the list. -/
theorem Answers.mapM_self {f : α → StateM σ α} {as : List α} {t : σ}
    (h : ∀ a ∈ as, Answers (f a) a t) : Answers (as.mapM f) as t := by
  induction as with
  | nil => exact .pure
  | cons a as ih =>
    rw [List.mapM_cons]
    refine (h a List.mem_cons_self).bind (.bind (ih fun b hb => ?_) .pure)
    exact h b (List.mem_cons_of_mem _ hb)

theorem Answers.optionMapM_self {f : α → StateM σ α} {o : Option α} {t : σ}
    (h : ∀ a ∈ o, Answers (f a) a t) : Answers (o.mapM f) o t := by
  cases o with
  | none => exact .pure
  | some a => exact (h a rfl).map

end Answers

/-! ### Actions on a store -/

/-- States with entries that are only ever added. -/
class Store (σ : Type) extends Preorder σ where
  /-- Growth without a change of what is declared. -/
  Grows : σ → σ → Prop
  /-- The invariant of the states. -/
  Valid : σ → Prop
  grows_refl : ∀ s, Grows s s
  grows_trans : ∀ {s t u}, Grows s t → Grows t u → Grows s u
  le_of_grows : ∀ {s t}, Grows s t → s ≤ t

namespace Store

variable {σ : Type} [Store σ] {s t u : σ}

theorem Grows.refl (s : σ) : Grows s s := grows_refl s

theorem Grows.trans (hst : Grows s t) (htu : Grows t u) : Grows s u := grows_trans hst htu

theorem Grows.le (h : Grows s t) : s ≤ t := le_of_grows h

end Store

section Actions

variable {σ α β : Type} [Store σ]

open Store (Grows)

/-- The action extends the store `s` to a valid one, declares nothing, and its answer and final
state satisfy `post`. -/
structure Keeps (act : StateM σ α) (s : σ) (post : α → σ → Prop) : Prop where
  grows : Grows s (act s).2
  valid : Store.Valid (act s).2
  post : post (act s).1 (act s).2

/-- The action extends the store `s` to a valid one, perhaps with declarations, and its answer and
final state satisfy `post`. -/
structure Advances (act : StateM σ α) (s : σ) (post : α → σ → Prop) : Prop where
  le : s ≤ (act s).2
  valid : Store.Valid (act s).2
  post : post (act s).1 (act s).2

/-- The action keeps the store, and in every later store it gives the same answer and changes
nothing. -/
structure Computes (act : StateM σ α) (s : σ) (post : α → σ → Prop) : Prop
    extends Keeps act s post where
  again : Answers act (act s).1 (act s).2

namespace Advances

variable {act : StateM σ α} {s : σ} {P Q : α → σ → Prop}

theorem mono (h : Advances act s P) (hPQ : ∀ a t, s ≤ t → Store.Valid t → P a t → Q a t) :
    Advances act s Q :=
  ⟨h.le, h.valid, hPQ _ _ h.le h.valid h.post⟩

theorem pure {a : α} (hs : Store.Valid s) (ha : P a s) : Advances (pure a : StateM σ α) s P :=
  ⟨le_refl s, hs, ha⟩

theorem bind {f : α → StateM σ β} {R : β → σ → Prop} (h : Advances act s P)
    (hf : ∀ a t, s ≤ t → Store.Valid t → P a t → Advances (f a) t R) :
    Advances (act >>= f) s R := by
  have h2 := hf _ _ h.le h.valid h.post
  exact ⟨le_trans h.le h2.le, h2.valid, h2.post⟩

theorem get_bind {f : σ → StateM σ β} {R : β → σ → Prop} (h : Advances (f s) s R) :
    Advances ((get : StateM σ σ) >>= f) s R := ⟨h.le, h.valid, h.post⟩

theorem discard (h : Advances act s P) : Advances (Functor.discard act) s fun _ _ => True :=
  ⟨h.le, h.valid, trivial⟩

/-- What holds of the final state holds of it also when the answer is dropped. -/
theorem drop {R : σ → Prop} (h : Advances act s fun _ t => R t) :
    Advances (Functor.discard act) s fun _ t => R t := ⟨h.le, h.valid, h.post⟩

end Advances

namespace Keeps

variable {act : StateM σ α} {s : σ} {P Q : α → σ → Prop}

theorem advances (h : Keeps act s P) : Advances act s P := ⟨h.grows.le, h.valid, h.post⟩

theorem mono (h : Keeps act s P) (hPQ : ∀ a t, Grows s t → Store.Valid t → P a t → Q a t) :
    Keeps act s Q :=
  ⟨h.grows, h.valid, hPQ _ _ h.grows h.valid h.post⟩

/-- Another action that does the same in this store. -/
theorem congr {act' : StateM σ α} (h : act' s = act s) (hact : Keeps act s P) : Keeps act' s P :=
  ⟨h ▸ hact.grows, h ▸ hact.valid, h ▸ hact.post⟩

theorem pure {a : α} (hs : Store.Valid s) (ha : P a s) : Keeps (pure a : StateM σ α) s P :=
  ⟨Grows.refl s, hs, ha⟩

theorem bind {f : α → StateM σ β} {R : β → σ → Prop} (h : Keeps act s P)
    (hf : ∀ a t, Grows s t → Store.Valid t → P a t → Keeps (f a) t R) :
    Keeps (act >>= f) s R := by
  have h2 := hf _ _ h.grows h.valid h.post
  exact ⟨h.grows.trans h2.grows, h2.valid, h2.post⟩

theorem map {f : α → β} {R : β → σ → Prop} (h : Keeps act s P)
    (hf : ∀ a t, Grows s t → P a t → R (f a) t) : Keeps (f <$> act) s R :=
  ⟨h.grows, h.valid, hf _ _ h.grows h.post⟩

theorem and (h : Keeps act s P) (h' : Keeps act s Q) : Keeps act s fun a t => P a t ∧ Q a t :=
  ⟨h.grows, h.valid, h.post, h'.post⟩

theorem with_leaves {γ : Type} {part : σ → γ} (h : Keeps act s P) (hleaves : Leaves part act) :
    Keeps act s fun a t => P a t ∧ part t = part s := ⟨h.grows, h.valid, h.post, hleaves s⟩

theorem bind_advances {f : α → StateM σ β} {R : β → σ → Prop} (h : Keeps act s P)
    (hf : ∀ a t, Grows s t → Store.Valid t → P a t → Advances (f a) t R) :
    Advances (act >>= f) s R := by
  have h2 := hf _ _ h.grows h.valid h.post
  exact ⟨le_trans h.grows.le h2.le, h2.valid, h2.post⟩

theorem get_bind {f : σ → StateM σ β} {R : β → σ → Prop} (h : Keeps (f s) s R) :
    Keeps ((get : StateM σ σ) >>= f) s R := ⟨h.grows, h.valid, h.post⟩

theorem discard (h : Keeps act s P) : Keeps (Functor.discard act) s fun _ _ => True :=
  ⟨h.grows, h.valid, trivial⟩

theorem mapM {f : α → StateM σ β} {R : α → β → σ → Prop}
    (hmono : ∀ a b t u, Grows t u → R a b t → R a b u) {as : List α} {s : σ}
    (hs : Store.Valid s) (h : ∀ a ∈ as, ∀ t, Grows s t → Store.Valid t → Keeps (f a) t (R a)) :
    Keeps (as.mapM f) s (fun bs t => List.Forall₂ (R · · t) as bs) := by
  induction as generalizing s with
  | nil => exact Keeps.pure hs List.Forall₂.nil
  | cons a as ih =>
    rw [List.mapM_cons]
    refine (h a List.mem_cons_self s (Grows.refl s) hs).bind fun b t hst ht hb => ?_
    have htail := ih ht fun a' ha' u htu => h a' (List.mem_cons_of_mem _ ha') u (hst.trans htu)
    refine htail.bind fun bs u htu hu hbs => Keeps.pure hu ?_
    exact List.Forall₂.cons (hmono a b t u htu hb) hbs

theorem optionMapM {f : α → StateM σ β} {R : α → β → σ → Prop} {o : Option α} {s : σ}
    (hs : Store.Valid s) (h : ∀ a ∈ o, Keeps (f a) s (R a)) :
    Keeps (o.mapM f) s (fun o' t => Option.Rel (R · · t) o o') := by
  cases o with
  | none => exact Keeps.pure hs Option.Rel.none
  | some a => exact (h a rfl).map fun b t _ hb => Option.Rel.some hb

theorem foldlM {f : β → α → StateM σ β} {R : β → σ → Prop} {as : List α} {b : β} {s : σ}
    (hs : Store.Valid s) (hb : R b s)
    (h : ∀ a ∈ as, ∀ b t, Grows s t → Store.Valid t → R b t → Keeps (f b a) t R) :
    Keeps (as.foldlM f b) s R := by
  induction as generalizing b s with
  | nil => exact Keeps.pure hs hb
  | cons a as ih =>
    rw [List.foldlM_cons]
    refine (h a List.mem_cons_self b s (Grows.refl s) hs hb).bind fun b' t hst ht hb' => ?_
    exact ih ht hb' fun a' ha' b'' u htu => h a' (List.mem_cons_of_mem _ ha') b'' u (hst.trans htu)

/-! Actions that can fail. -/

section Failing

variable {ε : Type} {R : Except ε β → σ → Prop}

theorem run_get_bind {f : σ → ExceptT ε (StateM σ) β} (h : Keeps (f s).run s R) :
    Keeps (get >>= f : ExceptT ε (StateM σ) β).run s R := ⟨h.grows, h.valid, h.post⟩

theorem run_lift {R : Except ε α → σ → Prop} (h : Keeps act s P)
    (hR : ∀ a t, Grows s t → P a t → R (.ok a) t) :
    Keeps (liftM act : ExceptT ε (StateM σ) α).run s R := h.map hR

/-- Work that cannot fail, followed by work that can. -/
theorem run_lift_bind {f : α → ExceptT ε (StateM σ) β} (h : Keeps act s P)
    (hf : ∀ a t, Grows s t → Store.Valid t → P a t → Keeps (f a).run t R) :
    Keeps (liftM act >>= f : ExceptT ε (StateM σ) β).run s R := h.bind hf

theorem run_bind {x : ExceptT ε (StateM σ) α} {f : α → ExceptT ε (StateM σ) β}
    {Q : Except ε α → σ → Prop} (h : Keeps x.run s Q)
    (herror : ∀ e t, Grows s t → Store.Valid t → Q (.error e) t → R (.error e) t)
    (hf : ∀ a t, Grows s t → Store.Valid t → Q (.ok a) t → Keeps (f a).run t R) :
    Keeps (x >>= f).run s R := by
  refine Keeps.bind (f := ExceptT.bindCont f) h fun a t hst ht ha => ?_
  cases a with
  | ok a => exact hf a t hst ht ha
  | error e => exact Keeps.pure ht (herror e t hst ht ha)

theorem run_mapM_lift {f : α → StateM σ β} {R : α → β → σ → Prop}
    (hmono : ∀ a b t u, Grows t u → R a b t → R a b u) {as : List α} {s : σ}
    (hs : Store.Valid s) (h : ∀ a ∈ as, ∀ t, Grows s t → Store.Valid t → Keeps (f a) t (R a)) :
    Keeps (as.mapM fun a => (liftM (f a) : ExceptT ε (StateM σ) β)).run s
      fun x t => ∃ bs, x = .ok bs ∧ List.Forall₂ (R · · t) as bs := by
  induction as generalizing s with
  | nil => exact Keeps.pure hs ⟨[], rfl, List.Forall₂.nil⟩
  | cons a as ih =>
    rw [List.mapM_cons]
    refine (h a List.mem_cons_self s (Grows.refl s) hs).run_lift_bind fun b t hst ht hb => ?_
    have htail := ih ht fun a' ha' u htu => h a' (List.mem_cons_of_mem _ ha') u (hst.trans htu)
    refine htail.run_bind (fun e u _ _ hu => ?_) fun bs u htu hu hbs => ?_
    · obtain ⟨_, he, -⟩ := hu
      cases he
    · obtain ⟨_, ⟨⟩, hbs⟩ := hbs
      exact Keeps.pure hu ⟨b :: bs, rfl, List.Forall₂.cons (hmono a b t u htu hb) hbs⟩

/-- Changing the state. -/
theorem run_modify_bind {f : σ → σ} {k : PUnit → ExceptT ε (StateM σ) β} (hs : Grows s (f s))
    (hk : Keeps (k ⟨⟩).run (f s) R) :
    Keeps (modify f >>= k : ExceptT ε (StateM σ) β).run s R := ⟨hs.trans hk.grows, hk.valid, hk.post⟩

theorem run_modify {f : σ → σ} {R : Except ε PUnit → σ → Prop} (hs : Grows s (f s))
    (hvalid : Store.Valid (f s)) (hR : R (.ok ⟨⟩) (f s)) :
    Keeps (modify f : ExceptT ε (StateM σ) PUnit).run s R := ⟨hs, hvalid, hR⟩

/-- What every step preserves holds in the end, also after a failure. -/
theorem run_forM {I : σ → Prop} {f : α → ExceptT ε (StateM σ) PUnit} {as : List α}
    (hs : Store.Valid s) (hI : I s)
    (h : ∀ a ∈ as, ∀ t, Store.Valid t → I t → Keeps (f a).run t fun _ u => I u) :
    Keeps (as.forM f).run s fun _ t => I t := by
  induction as generalizing s with
  | nil => exact Keeps.pure hs hI
  | cons a as ih =>
    refine (h a List.mem_cons_self s hs hI).run_bind (fun _ _ _ _ => id) ?_
    exact fun _ t _ ht hIt => ih ht hIt fun b hb => h b (List.mem_cons_of_mem _ hb)

end Failing

end Keeps

namespace Computes

variable {act : StateM σ α} {s : σ} {P Q : α → σ → Prop}

theorem mono (h : Computes act s P) (hPQ : ∀ a t, Grows s t → Store.Valid t → P a t → Q a t) :
    Computes act s Q :=
  ⟨h.toKeeps.mono hPQ, h.again⟩

theorem pure {a : α} (hs : Store.Valid s) (ha : P a s) : Computes (pure a : StateM σ α) s P :=
  ⟨Keeps.pure hs ha, fun _ _ => rfl⟩

theorem bind {f : α → StateM σ β} {R : β → σ → Prop} (h : Computes act s P)
    (hf : ∀ a t, Grows s t → Store.Valid t → P a t → Computes (f a) t R) :
    Computes (act >>= f) s R := by
  have h2 := hf _ _ h.grows h.valid h.post
  refine ⟨h.toKeeps.bind fun a t hst ht ha => (hf a t hst ht ha).toKeeps, fun t ht => ?_⟩
  rw [bind_apply, h.again t (le_trans h2.grows.le ht), h2.again t ht]
  rfl

theorem map {f : α → β} {R : β → σ → Prop} (h : Computes act s P)
    (hf : ∀ a t, Grows s t → P a t → R (f a) t) : Computes (f <$> act) s R :=
  ⟨h.toKeeps.map hf, fun t ht => by rw [map_apply, h.again t ht]; rfl⟩

/-- Reading the state, when later states agree on all that is read. -/
theorem get_bind {f : σ → StateM σ β} {R : β → σ → Prop} (h : Computes (f s) s R)
    (hf : ∀ t, s ≤ t → f t t = f s t) : Computes ((get : StateM σ σ) >>= f) s R :=
  ⟨Keeps.get_bind h.toKeeps, fun t ht => (hf t (le_trans h.grows.le ht)).trans (h.again t ht)⟩

theorem mapM {f : α → StateM σ β} {R : α → β → σ → Prop}
    (hmono : ∀ a b t u, Grows t u → R a b t → R a b u) {as : List α} {s : σ}
    (hs : Store.Valid s)
    (h : ∀ a ∈ as, ∀ t, Grows s t → Store.Valid t → Computes (f a) t (R a)) :
    Computes (as.mapM f) s (fun bs t => List.Forall₂ (R · · t) as bs) := by
  induction as generalizing s with
  | nil => exact Computes.pure hs List.Forall₂.nil
  | cons a as ih =>
    rw [List.mapM_cons]
    refine (h a List.mem_cons_self s (Grows.refl s) hs).bind fun b t hst ht hb => ?_
    have htail := ih ht fun a' ha' u htu => h a' (List.mem_cons_of_mem _ ha') u (hst.trans htu)
    refine htail.bind fun bs u htu hu hbs => Computes.pure hu ?_
    exact List.Forall₂.cons (hmono a b t u htu hb) hbs

theorem optionMapM {f : α → StateM σ β} {R : α → β → σ → Prop} {o : Option α} {s : σ}
    (hs : Store.Valid s) (h : ∀ a ∈ o, Computes (f a) s (R a)) :
    Computes (o.mapM f) s (fun o' t => Option.Rel (R · · t) o o') := by
  cases o with
  | none => exact Computes.pure hs Option.Rel.none
  | some a => exact (h a rfl).map fun b t _ hb => Option.Rel.some hb

theorem with_answers (h : Computes act s P) : Computes act s fun a t => P a t ∧ Answers act a t :=
  ⟨⟨h.grows, h.valid, h.post, h.again⟩, h.again⟩

end Computes

/-! ### Two actions that do the same -/

/-- The first action keeps the store, and the second does the same. -/
structure KeepsBoth (act act' : StateM σ α) (s : σ) (post : α → σ → Prop) : Prop
    extends Keeps act s post where
  same : act' s = act s

namespace KeepsBoth

variable {act act' : StateM σ α} {s : σ} {P Q : α → σ → Prop}

theorem mono (h : KeepsBoth act act' s P)
    (hPQ : ∀ a t, Grows s t → Store.Valid t → P a t → Q a t) : KeepsBoth act act' s Q :=
  ⟨h.toKeeps.mono hPQ, h.same⟩

theorem of_keeps (h : Keeps act s P) : KeepsBoth act act s P := ⟨h, rfl⟩

theorem bind {f f' : α → StateM σ β} {R : β → σ → Prop} (h : KeepsBoth act act' s P)
    (hf : ∀ a t, Grows s t → Store.Valid t → P a t → KeepsBoth (f a) (f' a) t R) :
    KeepsBoth (act >>= f) (act' >>= f') s R := by
  refine ⟨h.toKeeps.bind fun a t hst ht ha => (hf a t hst ht ha).toKeeps, ?_⟩
  rw [bind_apply, bind_apply, h.same]
  exact (hf _ _ h.grows h.valid h.post).same

theorem get_bind {f f' : σ → StateM σ β} {R : β → σ → Prop} (h : KeepsBoth (f s) (f' s) s R) :
    KeepsBoth ((get : StateM σ σ) >>= f) ((get : StateM σ σ) >>= f') s R :=
  ⟨Keeps.get_bind h.toKeeps, h.same⟩

theorem discard (h : KeepsBoth act act' s P) :
    KeepsBoth (Functor.discard act) (Functor.discard act') s fun _ _ => True :=
  ⟨⟨h.grows, h.valid, trivial⟩, congrArg (fun r : α × σ => (PUnit.unit, r.2)) h.same⟩

/-- When the first steps do the same, so do the actions, if the continuations agree on what the
first steps establish. -/
theorem bind_eq {f f' : α → StateM σ β} (h : KeepsBoth act act' s P)
    (hf : ∀ a t, Grows s t → Store.Valid t → P a t → f' a t = f a t) :
    (act' >>= f') s = (act >>= f) s := by
  rw [bind_apply, bind_apply, h.same]
  exact hf _ _ h.grows h.valid h.post

theorem mapM {f f' : α → StateM σ β} {R : α → β → σ → Prop}
    (hmono : ∀ a b t u, Grows t u → R a b t → R a b u) {as : List α} {s : σ}
    (hs : Store.Valid s)
    (h : ∀ a ∈ as, ∀ t, Grows s t → Store.Valid t → KeepsBoth (f a) (f' a) t (R a)) :
    KeepsBoth (as.mapM f) (as.mapM f') s (fun bs t => List.Forall₂ (R · · t) as bs) := by
  refine ⟨Keeps.mapM hmono hs fun a ha t hst ht => (h a ha t hst ht).toKeeps, ?_⟩
  induction as generalizing s with
  | nil => rfl
  | cons a as ih =>
    rw [List.mapM_cons, List.mapM_cons]
    refine (h a List.mem_cons_self s (Grows.refl s) hs).bind_eq fun b t hst ht _ => ?_
    rw [bind_apply, bind_apply, ih ht fun a' ha' u htu =>
      h a' (List.mem_cons_of_mem _ ha') u (hst.trans htu)]

theorem optionMapM {f f' : α → StateM σ β} {R : α → β → σ → Prop} {o : Option α} {s : σ}
    (hs : Store.Valid s) (h : ∀ a ∈ o, KeepsBoth (f a) (f' a) s (R a)) :
    KeepsBoth (o.mapM f) (o.mapM f') s (fun o' t => Option.Rel (R · · t) o o') := by
  refine ⟨Keeps.optionMapM hs fun a ha => (h a ha).toKeeps, ?_⟩
  cases o with
  | none => rfl
  | some a => exact congrArg (fun r => (some r.1, r.2)) (h a rfl).same

end KeepsBoth

end Actions

end Erasure
