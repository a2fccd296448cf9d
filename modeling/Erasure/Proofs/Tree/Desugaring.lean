/-
Editing keeps arenas sound.

An editor replaces expressions by new ones, from the leaves up. If what it puts in their place is
sound, the arena stays sound for the set of nodes that hold the old trees and everything new. The
main statements:

* `editWithin_keeps`, `editAll_keeps`: sound replacements leave a sound arena, also after a failure.
* `desugar_keeps`: desugaring strings declares nothing and leaves a sound arena.
-/
import Erasure.Tree.StringForm
import Erasure.Proofs.Tree.Building
import Erasure.Proofs.Tree.Reachability

namespace Erasure

variable {Q : Mention → TypeSystem → Prop} {G : NodeId → Prop}

/-! ### Replacing nodes -/

namespace Builder

variable {b : Builder}

/-- A sound expression may take the place of another one. -/
theorem Sound.replaceExpr (hb : Sound Q G b) (id : ExprId) (x : Expr)
    (hchildren : ∀ c ∈ x.kind.children, G c) (hmentions : ∀ y ∈ x.mentions, Q y b.types)
    (htype : b.types.pool.Has x.type) : Sound Q G { b with arena := b.arena.replaceExpr id x } := by
  have hexpr := Arena.expr_replaceExpr b.arena id x
  constructor
  case string => exact hb.string
  case newExpr =>
    exact fun he => hb.newExpr ((Arena.size_replaceExpr b.arena id x).ge.trans he)
  case newStmt => exact hb.newStmt
  case children =>
    rintro (e | s) hn
    · rw [Arena.children, hexpr]
      split
      · exact hchildren
      · exact hb.children hn
    · exact hb.children hn
  case mentions =>
    rintro (e | s) hn
    · rw [Arena.mentions, hexpr]
      split
      · exact hmentions
      · exact hb.mentions hn
    · exact hb.mentions hn
  case types =>
    intro e hn
    rw [typeOf, hexpr]
    split
    · exact htype
    · exact hb.types hn

end Builder

/-! ### Editing -/

namespace Editor

open Builder (Accepts Sound Built)

variable {ρ : Type} {r : Editor ρ} {s : Editing ρ}

instance : Preorder (Editing ρ) := Preorder.lift Editing.builder

instance : Store (Editing ρ) where
  Grows s t := Builder.Extends s.builder t.builder
  Valid s := s.builder.types.Valid
  grows_refl s := Store.grows_refl s.builder
  grows_trans h h' := Store.grows_trans (σ := Builder) h h'
  le_of_grows h := Store.le_of_grows (σ := Builder) h

/-- Replacements are sound. -/
def SoundReplacements (Q : Mention → TypeSystem → Prop) (G : NodeId → Prop) (r : Editor ρ) : Prop :=
  ∀ b id, b.types.Valid → Sound Q G b → G (.expr id) → Keeps (r.replace id).run b fun x b' =>
    Sound Q G b' ∧ ∀ e, x = .ok (some e) → G (.expr e)

theorem build_keeps {α : Type} {act : BuildM α} {P : Except TreeError α → Builder → Prop}
    (h : Keeps act.run s.builder P) : Keeps (build act : EditM ρ α).run s fun x t => P x t.builder :=
  ⟨h.grows, h.valid, h.post⟩

theorem putReplacement_keeps (hr : r.SoundReplacements Q G) (hvalid : s.builder.types.Valid)
    (hs : Sound Q G s.builder) {id : ExprId} (hid : G (.expr id)) :
    Keeps (do
      match ← build (r.replace id) with
      | some replacement => modify (putInPlace id replacement)
      | none => pure () : EditM ρ Unit).run s fun _ t => Sound Q G t.builder := by
  refine (build_keeps (hr _ id hvalid hs hid)).run_bind
    (R := fun _ t => Sound Q G t.builder) (fun _ _ _ _ h => h.1) ?_
  rintro (_ | replacement) t - hvalid' ⟨ht, hreplacement⟩
  · exact Keeps.pure hvalid' ht
  · have hG := hreplacement replacement rfl
    refine Keeps.run_modify ⟨.refl _, ?_, le_refl _, rfl⟩ hvalid' ?_
    · exact (Arena.size_replaceExpr ..).ge
    · exact ht.replaceExpr id _ (ht.children hG) (ht.mentions hG) (ht.types hG)

theorem leave_keeps (hr : r.SoundReplacements Q G) (hvalid : s.builder.types.Valid)
    (hs : Sound Q G s.builder) {id : ExprId} (hid : G (.expr id)) :
    Keeps (r.leave id).run s fun _ t => Sound Q G t.builder := by
  unfold leave
  refine Keeps.run_modify_bind ⟨.refl _, le_refl _, le_refl _, rfl⟩ ?_
  refine Keeps.run_modify_bind ⟨.refl _, le_refl _, le_refl _, rfl⟩ ?_
  refine putReplacement_keeps hr ?_ ?_ hid
  · exact hvalid
  · exact hs.with_span _

/-- Editing a tree keeps the arena sound. -/
theorem editWithin_keeps (hr : r.SoundReplacements Q G) {depth : Nat} {n : NodeId}
    (hvalid : s.builder.types.Valid) (hs : Sound Q G s.builder) (hn : G n) :
    Keeps (r.editWithin depth n).run s fun _ t => Sound Q G t.builder := by
  induction depth generalizing s n with
  | zero => exact Keeps.pure hvalid hs
  | succ depth ih =>
    unfold editWithin
    refine Keeps.run_get_bind ?_
    refine (Keeps.run_forM (I := fun t => Sound Q G t.builder) hvalid hs fun c hc t ht hsound =>
      ih ht hsound (hs.children hn c hc)).run_bind (fun _ _ _ _ => id) fun _ t _ ht hsound => ?_
    cases n with
    | expr id => exact leave_keeps hr ht hsound hn
    | stmt _ => exact Keeps.pure ht hsound

theorem editAll_keeps (hr : r.SoundReplacements Q G) {roots : List NodeId}
    (hvalid : s.builder.types.Valid) (hs : Sound Q G s.builder) (hroots : ∀ n ∈ roots, G n) :
    Keeps (r.editAll roots).run s fun _ t => Sound Q G t.builder := by
  unfold editAll
  exact Keeps.run_get_bind (Keeps.run_forM (I := fun t : Editing ρ => Sound Q G t.builder) hvalid hs
    fun n hn t ht hsound => editWithin_keeps hr ht hsound (hroots n hn))

end Editor

/-! ### Desugaring -/

namespace StringForm

open Builder (Accepts Sound Built)

variable {b : Builder}

theorem promote_keeps (hQ : Accepts Q) (hvalid : b.types.Valid) (hb : Sound Q G b) {e : ExprId}
    (he : G (.expr e)) : Keeps (promote e).run b (Built Q G) := by
  have hself : ∀ c ∈ (Receiver.expr e).children, G c := fun c hc => List.mem_singleton.mp hc ▸ he
  unfold promote
  refine Keeps.run_get_bind ?_
  dsimp only
  split
  · exact Keeps.pure hvalid ⟨hb, fun _ h => by cases h; exact he⟩
  · split
    · exact Builder.newString_keeps hQ hvalid hb "null"
    · exact Builder.staticCall_keeps hQ hvalid hb (fun _ ha => List.mem_singleton.mp ha ▸ he)
        hb.string "valueOf"
    · exact Builder.call_keeps hQ hvalid hb hself (fun _ ha => absurd ha List.not_mem_nil)
        (hb.types he) "toString"

/-- What an expression with a string form is. -/
theorem ofExpr?_eq_some {a : Arena} {e : ExprId} {form : StringForm}
    (h : ofExpr? a e = some form) :
    (∃ text, form = .literal text ∧ (a.expr e).kind = .str text) ∨
      ∃ left right, form = .concatenation left right ∧
        (a.expr e).kind = .binary .add left right ∧
        ((a.expr left).type = .string ∨ (a.expr right).type = .string) := by
  unfold ofExpr? at h
  split at h
  case h_1 text hk => exact Or.inl ⟨text, (Option.some.inj h).symm, hk⟩
  case h_2 left right hk =>
    split at h
    case isTrue htype =>
      refine Or.inr ⟨left, right, (Option.some.inj h).symm, hk, ?_⟩
      simpa only [Bool.or_eq_true, decide_eq_true_eq] using htype
    case isFalse => cases h
  case h_3 => cases h

/-- The parts of a string form are children of its expression. -/
theorem children_of_ofExpr? {a : Arena} {e left right : ExprId}
    (h : ofExpr? a e = some (.concatenation left right)) :
    NodeId.expr left ∈ a.children (.expr e) ∧ NodeId.expr right ∈ a.children (.expr e) := by
  rcases ofExpr?_eq_some h with ⟨text, heq, -⟩ | ⟨l, r, heq, hk, -⟩
  · cases heq
  · cases heq
    rw [Arena.children, hk]
    exact ⟨List.mem_cons_self, List.mem_cons_of_mem _ List.mem_cons_self⟩

theorem replacement_keeps (hQ : Accepts Q) (hvalid : b.types.Valid) (hb : Sound Q G b)
    {e : ExprId} {form : StringForm} (he : G (.expr e)) (hform : ofExpr? b.arena e = some form) :
    Keeps (replacement form).run b (Built Q G) := by
  unfold replacement
  cases form with
  | literal text => exact Keeps.run_get_bind (Builder.newString_keeps hQ hvalid hb _)
  | concatenation left right =>
    obtain ⟨hleft, hright⟩ := children_of_ofExpr? hform
    have hleft := hb.children he _ hleft
    have hright := hb.children he _ hright
    refine (promote_keeps hQ hvalid hb hleft).run_bind (fun _ _ _ _ h => .error h.1 _) ?_
    rintro left' b' - hvalid' ⟨hb', hleft'⟩
    refine (promote_keeps hQ hvalid' hb' hright).run_bind (fun _ _ _ _ h => .error h.1 _) ?_
    rintro right' b'' - hvalid'' ⟨hb'', hright'⟩
    have hreceiver : ∀ c ∈ (Receiver.expr left').children, G c := fun c hc =>
      List.mem_singleton.mp hc ▸ hleft' left' rfl
    exact Builder.call_keeps hQ hvalid'' hb'' hreceiver
      (fun _ ha => List.mem_singleton.mp ha ▸ hright' right' rfl) hb''.string "concat"

theorem editor_soundReplacements (hQ : Accepts Q) : editor.SoundReplacements Q G := by
  intro b id hvalid hb hid
  refine Keeps.run_get_bind ?_
  cases hform : ofExpr? b.arena id with
  | none => exact Keeps.pure hvalid ⟨hb, fun _ h => nomatch h⟩
  | some form =>
    refine (replacement_keeps hQ hvalid hb hid hform).run_bind (fun _ _ _ _ h => ⟨h.1, nofun⟩) ?_
    rintro e b' - hvalid' ⟨hb', he⟩
    exact Keeps.pure hvalid' ⟨hb', fun _ h => by cases h; exact he e rfl⟩

/-- Desugaring declares nothing, and it leaves a sound arena, also after a failure. -/
theorem desugar_keeps (hQ : Accepts Q) {ts : TypeSystem} {u : CompilationUnit} (hts : ts.Valid)
    (hu : Sound Q G ⟨ts, u.arena, .generated⟩) (hroots : ∀ n ∈ u.roots, G n) :
    TypeSystem.Extends ts (desugar ts u).2.1 ∧ (desugar ts u).2.1.Valid ∧
      Sound Q G ⟨(desugar ts u).2.1, (desugar ts u).2.2.arena, .generated⟩ ∧
      (desugar ts u).2.2.classes = u.classes := by
  have h := Editor.editAll_keeps (s := ⟨⟨ts, u.arena, .generated⟩, {}, 0⟩)
    (editor_soundReplacements hQ) hts hu hroots
  exact ⟨h.grows.types, h.valid, h.post.with_span _, rfl⟩

end StringForm

end Erasure
