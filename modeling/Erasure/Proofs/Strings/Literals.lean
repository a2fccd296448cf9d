/-
Literals keep their texts.

Desugaring spells a string literal out, code unit by code unit, in the place of the literal. The
code units tell which text it was. The main statements:

* `spells_of_spellsOut`: a spelled-out text is a node of the constructor over the array of code
  units.
* `literals_keep_texts`: desugaring keeps the texts of all literals apart.
-/
import Mathlib.Tactic.IntervalCases
import Erasure.Proofs.Strings.CodeUnits
import Erasure.Proofs.Strings.Desugared
import Erasure.Proofs.Strings.StringClass

namespace Erasure.StringForm

open TypeSystem (Later Between MakesStrings stringConstructor)

variable {ts us ts' : TypeSystem} {u u' : CompilationUnit} {a b : Arena} {e : ExprId} {span : Span}
  {units : List UInt16}

/-- The expression constructs a string from the array of the code units. -/
def Spells (a : Arena) (span : Span) (units : List UInt16) (e : ExprId) : Prop :=
  ∃ array elems, a.expr e = ⟨.new stringConstructor none [array], .string, span⟩ ∧
    a.expr array = ⟨.newArray elems, .charArray, span⟩ ∧
    List.Forall₂ (fun elem unit => a.expr elem = ⟨.char unit, Primitive.char.typeId, span⟩)
      elems units

/-- The code units of a construction are read off its array. -/
theorem Spells.unitsOf? (h : Spells a span units e) : unitsOf? a e = some units := by
  obtain ⟨array, elems, he, harray, helems⟩ := h
  rw [StringForm.unitsOf?, he]
  dsimp only
  rw [harray]
  dsimp only
  clear harray
  induction helems with
  | nil => rfl
  | cons helem _ ih => rw [List.mapM_cons, ih, unitOf?, helem]; rfl

/-- New character literals, read back. -/
theorem chars_of_reads {chars : List LocatedTree} {elems : List ExprId}
    (hchars : List.Forall₂ (fun unit => IsNew a span (.char unit) Primitive.char.typeId [])
      units chars) (helems : List.Forall₂ (fun elem => b.Reads (.expr elem)) elems chars) :
    List.Forall₂ (fun elem unit => b.expr elem = ⟨.char unit, Primitive.char.typeId, span⟩)
      elems units := by
  induction hchars generalizing elems with
  | nil =>
    obtain rfl := List.forall₂_nil_right_iff.mp helems
    exact .nil
  | cons hchar _ ih =>
    obtain ⟨elem, elems, helem, hrest, rfl⟩ := List.forall₂_cons_right_iff.mp helems
    obtain ⟨_, -, rfl⟩ := hchar
    obtain ⟨k, hk, hbare, -⟩ := helem.expr
    refine .cons ?_ (ih hrest)
    rw [hk, ExprKind.eq_of_bare_char hbare]

/-- A text that is spelled out is a construction from the array of its code units. -/
theorem spells_of_spellsOut {text : String} {x : NodeId} {f : Form} {parts : List LocatedTree}
    (hts : ts.Valid) (hmakes : ts.MakesStrings)
    (h : SpellsOut (Between ts us) a span text (.node (x, f) parts))
    (he : b.Reads (.expr e) (.node (.expr e, f) parts)) :
    Spells b span (Utf16.units text.toList) e := by
  obtain ⟨vs, ws, ctor, ws', chars, array, hvs, hws, -, hchars, ⟨y, -, rfl⟩, hctor, ⟨_, -, hnew⟩⟩ := h
  obtain ⟨hlabel, rfl⟩ := RoseTree.node.inj hnew
  obtain rfl := congrArg Prod.snd hlabel
  have hmakes' : ∀ {vs}, Between ts us vs → vs.MakesStrings := fun hvs =>
    hmakes.of_extends hts (hvs.1 hts).2
  have hcharArray : (Pool.array Primitive.char.typeId vs.pool).1 = .charArray :=
    congrArg Prod.fst (TypeSystem.charArray_eq (hmakes' hvs).le)
  rw [hcharArray] at hctor he
  obtain rfl : ctor = stringConstructor := Except.ok.inj
    (congrArg Prod.fst (hctor.symm.trans (TypeSystem.findConstructor_string (hmakes' hws))))
  obtain ⟨k, hk, hbare, hchildren⟩ := he.expr
  obtain ⟨elem, rfl⟩ := ExprKind.eq_of_bare_new hbare
  obtain ⟨_, _, harray, -, heq⟩ := List.forall₂_cons_left_iff.mp hchildren
  obtain ⟨rfl, rfl⟩ := List.cons.inj heq
  obtain ⟨k', hk', hbare', helems⟩ := harray.expr
  obtain ⟨elems, rfl⟩ := ExprKind.eq_of_bare_newArray hbare'
  exact ⟨elem, elems, hk, hk', chars_of_reads hchars (List.forall₂_map_left_iff.mp helems)⟩

/-- A literal of the unit is spelled out in its place. -/
theorem IsRewritten.spells {text : Name} (h : IsRewritten ts u ts' u') (hts : ts.Valid)
    (hmakes : ts.MakesStrings) (he : u.HasNode (.expr e)) (hk : (u.arena.expr e).kind = .str text)
    (htext : ts.HasName text) :
    Spells u'.arena (u.arena.expr e).span (Utf16.units (ts.text text).toList) e := by
  obtain ⟨vs, x, f, parts, hvs, hspells, hreads⟩ := (h.rewritten he).of_str hk
  have hsame : vs.text text = ts.text text := TypeSystem.text_of_le (hvs.1 hts).2.le htext
  exact hsame ▸ spells_of_spellsOut hts hmakes hspells hreads

/-- Strings can be made for all literals, so that only additions can make desugaring fail. -/
theorem desugar_ok_or_hasAddition (hts : ts.Valid) (hmakes : ts.MakesStrings) (hu : u.IsAcyclic) :
    (∃ counts ts' u', desugar ts u = (.ok counts, ts', u')) ∨
      ∃ e left right, u.HasNode (.expr e) ∧ (u.arena.expr e).kind = .binary .add left right := by
  refine or_iff_not_imp_right.mpr fun hnone => ?_
  have hF : CanDesugar ts u := by
    refine ⟨fun hus => Builder.canSpell (hmakes.of_extends hts (hus hts).2), ?_⟩
    intro us id ty span l r _ hn hform
    obtain ⟨left, right, hk⟩ := ExprKind.eq_of_bare_binary (congrArg (·.kind) (Form.expr.inj hform))
    exact absurd ⟨id, left, right, hn, hk⟩ hnone
  exact exists_desugar_ok hu hF

/-- Desugaring keeps the texts of literals. It succeeds unless the unit has additions, and when it
does then each literal is the construction of a string from an array of character literals,
under its own span, whose code units decode as its text. Literals with the same code units have
the same text. -/
theorem literals_keep_texts (hts : ts.Valid) (hmakes : ts.MakesStrings) (hu : u.IsAcyclic) :
    ((∃ counts ts' u', desugar ts u = (.ok counts, ts', u')) ∨
      ∃ e left right, u.HasNode (.expr e) ∧ (u.arena.expr e).kind = .binary .add left right) ∧
      ∀ counts ts' u', desugar ts u = (.ok counts, ts', u') →
        (∀ e text, u.HasNode (.expr e) → (u.arena.expr e).kind = .str text → ts.HasName text →
          ∃ units, Spells u'.arena (u.arena.expr e).span units e ∧ unitsOf? u'.arena e = some units ∧
            Utf16.decode units = some (ts.text text).toList) ∧
        ∀ e₁ e₂ text₁ text₂, u.HasNode (.expr e₁) → (u.arena.expr e₁).kind = .str text₁ →
          ts.HasName text₁ → u.HasNode (.expr e₂) → (u.arena.expr e₂).kind = .str text₂ →
            ts.HasName text₂ → unitsOf? u'.arena e₁ = unitsOf? u'.arena e₂ →
              ts.text text₁ = ts.text text₂ := by
  refine ⟨desugar_ok_or_hasAddition hts hmakes hu, fun counts ts' u' h => ?_⟩
  have hspells : ∀ {e : ExprId} {text : Name}, u.HasNode (.expr e) →
      (u.arena.expr e).kind = .str text → ts.HasName text →
        Spells u'.arena (u.arena.expr e).span (Utf16.units (ts.text text).toList) e :=
    (desugar_isRewritten hu h).spells hts hmakes
  constructor
  · intro e text he hk htext
    have := hspells he hk htext
    exact ⟨_, this, this.unitsOf?, Utf16.decode_units _⟩
  · intro e₁ e₂ text₁ text₂ he₁ hk₁ htext₁ he₂ hk₂ htext₂ heq
    rw [(hspells he₁ hk₁ htext₁).unitsOf?, (hspells he₂ hk₂ htext₂).unitsOf?] at heq
    exact String.toList_injective (Utf16.units_inj (Option.some.inj heq))

/-- A type system with the name of a text of the character `a`, a zero and a character that takes a
surrogate pair. -/
def textTypes : TypeSystem :=
  (TypeSystem.intern (String.ofList [Char.ofNat 0x61, Char.ofNat 0, Char.ofNat 0x1F600])
    .initial).2

/-- A method body that evaluates this text and the empty one. -/
def textUnit : CompilationUnit where
  arena :=
    { exprs := #[⟨.str ⟨9⟩, .string, .generated⟩, ⟨.str ⟨0⟩, .string, .generated⟩]
      stmts := #[⟨.eval ⟨0⟩, .generated⟩, ⟨.eval ⟨1⟩, .generated⟩, ⟨.block [⟨0⟩, ⟨1⟩], .generated⟩] }
  classes := [⟨.object, [⟨⟨0⟩, .method [] (some ⟨2⟩), .generated⟩], .generated⟩]

theorem textUnit_isAcyclic : textUnit.IsAcyclic := by
  refine CompilationUnit.isAcyclic_of_rank
    (NodeId.rank id (2 + ·)) ?_ ?_ ?_ <;> decide

theorem textUnit_hasNode : textUnit.HasNode (.expr ⟨0⟩) ∧ textUnit.HasNode (.expr ⟨1⟩) := by
  have hbody : textUnit.HasNode (.stmt ⟨2⟩) := .root (by decide)
  exact ⟨.child (.child hbody (c := .stmt ⟨0⟩) (by decide)) (by decide),
    .child (.child hbody (c := .stmt ⟨1⟩) (by decide)) (by decide)⟩

theorem literals_keep_texts_pair :
    textTypes.Valid ∧ textTypes.MakesStrings ∧ textUnit.IsAcyclic ∧
      ∃ counts ts' u', desugar textTypes textUnit = (.ok counts, ts', u') ∧
        unitsOf? u'.arena ⟨0⟩ = some [0x61, 0, 0xD83D, 0xDE00] ∧ unitsOf? u'.arena ⟨1⟩ = some [] := by
  have hkeeps := TypeSystem.intern_keeps TypeSystem.initial_valid
    (String.ofList [Char.ofNat 0x61, Char.ofNat 0, Char.ofNat 0x1F600])
  have hvalid : textTypes.Valid := hkeeps.valid
  have hmakes : textTypes.MakesStrings :=
    TypeSystem.initial_hasPrelude.makesStrings.of_extends TypeSystem.initial_valid hkeeps.grows
  obtain ⟨⟨hname, htext⟩, hempty, hempty'⟩ : (textTypes.HasName ⟨9⟩ ∧ (textTypes.text ⟨9⟩).toList =
      [Char.ofNat 0x61, Char.ofNat 0, Char.ofNat 0x1F600]) ∧ textTypes.HasName ⟨0⟩ ∧
        (textTypes.text ⟨0⟩).toList = [] := by
    decide +kernel
  obtain ⟨hok, hkeep⟩ := literals_keep_texts hvalid hmakes textUnit_isAcyclic
  obtain ⟨counts, ts', u', hdesugar⟩ : ∃ counts ts' u', desugar textTypes textUnit =
      (.ok counts, ts', u') := by
    refine hok.resolve_right ?_
    rintro ⟨⟨e⟩, left, right, hn, hk⟩
    have he : e < 2 := textUnit_isAcyclic.has hn
    interval_cases e <;> cases hk
  refine ⟨hvalid, hmakes, textUnit_isAcyclic, counts, ts', u', hdesugar, ?_⟩
  obtain ⟨hliterals, -⟩ := hkeep counts ts' u' hdesugar
  constructor
  · obtain ⟨units, -, hunits, hdecode⟩ := hliterals ⟨0⟩ ⟨9⟩ textUnit_hasNode.1 rfl hname
    rw [hunits, Utf16.decode_eq_some_iff.mp hdecode, htext]
    decide
  · obtain ⟨units, -, hunits, hdecode⟩ := hliterals ⟨1⟩ ⟨0⟩ textUnit_hasNode.2 rfl hempty
    rw [hunits, Utf16.decode_eq_some_iff.mp hdecode, hempty']
    decide

end Erasure.StringForm
