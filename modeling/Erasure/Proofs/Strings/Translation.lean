/-
Desugaring of strings as a relation between trees.

`Desugars` says what tree takes the place of a tree: every string form is replaced by what it stands
for over its desugared parts, and all else stays. Members are looked up in type systems of a given
kind, and new nodes are none of those that were there. The main statements:

* `stringForm?_eq_none_iff`: a node has a string form when its form and the types of its parts say so.
* `desugars_node`: a tree is desugared from its desugared parts.
* `Desugars.mono`: the relation grows with the kind of type systems.
-/
import Erasure.Tree.StringForm
import Erasure.Proofs.Tree.ReadBack

namespace Erasure

/-! ### Nodes without string forms -/

namespace Arena

variable {a b c : Arena} {n m : NodeId}

/-- The nodes of an arena are in a later arena, and they are the same there. -/
structure Grows (a b : Arena) : Prop where
  has : ∀ {n}, a.Has n → b.Has n
  same : ∀ {n}, a.Has n → a.SameAt b n

theorem SameAt.refl (a : Arena) (n : NodeId) : a.SameAt a n := by cases n <;> rfl

theorem SameAt.trans (h : a.SameAt b n) (h' : b.SameAt c n) : a.SameAt c n := by
  cases n with
  | expr e => exact Eq.trans h' h
  | stmt s => exact Eq.trans h' h

theorem Grows.refl (a : Arena) : a.Grows a := ⟨id, fun _ => .refl a _⟩

theorem Grows.trans (h : a.Grows b) (h' : b.Grows c) : a.Grows c :=
  ⟨h'.has ∘ h.has, fun hn => (h.same hn).trans (h'.same (h.has hn))⟩

/-- The string form of a node. -/
def stringForm? (a : Arena) : NodeId → Option StringForm
  | .expr e => StringForm.ofExpr? a e
  | .stmt _ => none

/-- The string form of an expression depends on its node and its children. -/
theorem ofExpr?_congr {e e' : ExprId} (h : b.expr e' = a.expr e)
    (hchildren : ∀ c ∈ a.children (.expr e), a.SameAt b c) :
    StringForm.ofExpr? b e' = StringForm.ofExpr? a e := by
  rw [StringForm.ofExpr?, StringForm.ofExpr?, h]
  rw [children] at hchildren
  split
  case h_1 text hk => rfl
  case h_2 left right hk =>
    rw [hk] at hchildren
    have hleft : b.expr left = a.expr left := hchildren (.expr left) List.mem_cons_self
    have hright : b.expr right = a.expr right :=
      hchildren (.expr right) (List.mem_cons_of_mem _ List.mem_cons_self)
    rw [hleft, hright]
  case h_3 => rfl

theorem stringForm?_congr (h : a.SameAt b n) (hchildren : ∀ c ∈ a.children n, a.SameAt b c) :
    b.stringForm? n = a.stringForm? n := by
  cases n with
  | stmt s => rfl
  | expr e => exact ofExpr?_congr h hchildren

/-- The tree of the node is in the arena and has no string forms. -/
def Settled (a : Arena) (n : NodeId) : Prop :=
  ∀ m, a.Leads n m → a.Has m ∧ a.stringForm? m = none

theorem Settled.has (h : a.Settled n) : a.Has n := (h n .refl).1

theorem Settled.stringForm? (h : a.Settled n) : a.stringForm? n = none := (h n .refl).2

theorem Settled.of_leads (h : a.Settled n) (hm : a.Leads n m) : a.Settled m :=
  fun _ hk => h _ (hm.trans hk)

theorem Settled.child (h : a.Settled n) (hm : m ∈ a.children n) : a.Settled m :=
  h.of_leads (.single hm)

/-- A node without a string form over settled children is settled. -/
theorem settled_of_children (hn : a.Has n) (hform : a.stringForm? n = none)
    (hchildren : ∀ c ∈ a.children n, a.Settled c) : a.Settled n := by
  intro m hm
  rcases Relation.ReflTransGen.cases_head hm with rfl | ⟨c, hc, hm⟩
  · exact ⟨hn, hform⟩
  · exact hchildren c hc m hm

theorem Settled.congr (h : a.Settled n) (hhas : ∀ m, a.Leads n m → b.Has m)
    (hsame : ∀ m, a.Leads n m → a.SameAt b m) : b.Settled n := by
  intro m hm
  have hm := (leads_iff_of_children_eq fun m hm => (hsame m hm).children).mp hm
  refine ⟨hhas m hm, ?_⟩
  rw [stringForm?_congr (hsame m hm) fun c hc => hsame c (hm.tail hc)]
  exact (h m hm).2

theorem Settled.grows (h : a.Settled n) (hab : a.Grows b) : b.Settled n :=
  h.congr (fun m hm => hab.has (h m hm).1) fun m hm => hab.same (h m hm).1

theorem Reads.grows {t : LocatedTree} (h : a.Reads n t) (hn : a.Settled n) (hab : a.Grows b) :
    b.Reads n t := h.congr fun m hm => hab.same (hn m hm).1

/-- The form of the tree that a node reads as. -/
theorem Reads.label {t : LocatedTree} (h : a.Reads n t) : t.label = (n, a.form n) := by
  obtain ⟨_, -, rfl⟩ := reads_iff.mp h
  rfl

theorem Reads.type_eq {e : ExprId} {t : LocatedTree} (h : a.Reads (.expr e) t) :
    t.type = (a.expr e).type := by
  rw [LocatedTree.type, h.label]
  rfl

end Arena

/-- A form that desugaring removes over parts that are desugared. -/
def Form.IsString (parts : List LocatedTree) : Form → Prop
  | .expr ⟨.str _, _, _⟩ => True
  | .expr ⟨.binary .add _ _, _, _⟩ => ∃ p ∈ parts, p.type = .string
  | _ => False

theorem Form.isString_add_iff {x y : ExprId} {type : TypeId} {span : Span} {l r : LocatedTree} :
    (Form.expr ⟨.binary .add x y, type, span⟩).IsString [l, r] ↔
      l.type = .string ∨ r.type = .string := by
  show (∃ p ∈ [l, r], LocatedTree.type p = .string) ↔ _
  rw [List.exists_mem_cons_iff, List.exists_mem_cons_iff]
  exact or_congr_right (or_iff_left (by simp))

/-- A node has a string form when its form and the types of its parts say so. -/
theorem Arena.stringForm?_eq_none_iff {a : Arena} {n : NodeId} {parts : List LocatedTree}
    (h : List.Forall₂ a.Reads (a.children n) parts) :
    a.stringForm? n = none ↔ ¬ (a.form n).IsString parts := by
  cases n with
  | stmt s => exact iff_of_true rfl id
  | expr e =>
    rw [stringForm?, StringForm.ofExpr?, form]
    rw [children] at h
    generalize a.expr e = x at h ⊢
    obtain ⟨kind, type, span⟩ := x
    cases kind with
    | str text => exact iff_of_false (Option.some_ne_none _) fun h => h trivial
    | binary op left right =>
      cases op with
      | add =>
        obtain ⟨l, _, hl, hrest, rfl⟩ := List.forall₂_cons_left_iff.mp h
        obtain ⟨r, _, hr, hnil, rfl⟩ := List.forall₂_cons_left_iff.mp hrest
        obtain rfl := List.forall₂_nil_left_iff.mp hnil
        refine Iff.trans ?_ (not_congr Form.isString_add_iff).symm
        rw [hl.type_eq, hr.type_eq]
        simp only [Bool.or_eq_true, decide_eq_true_eq, ite_eq_right_iff, reduceCtorEq, imp_false]
      | _ => exact iff_of_true rfl id
    | _ => exact iff_of_true rfl id

namespace StringForm

/-! ### Replacements -/

section

variable (K : TypeSystem → Prop) (a : Arena) (span : Span)

/-- A new expression over the given parts. -/
def IsNew (kind : ExprKind) (type : TypeId) (parts : List LocatedTree) (t : LocatedTree) : Prop :=
  ∃ n, ¬ a.Has n ∧ t = .node (n, .expr ⟨kind, type, span⟩) parts

/-- The static type of a call of a method. -/
def callType (ts : TypeSystem) (m : MemberId) : TypeId :=
  match (ts.member m).kind with
  | .method _ _ result _ => result
  | _ => Primitive.void.typeId

/-- The receiver of a call, without its number. -/
def callReceiver (container : TypeId) : Option LocatedTree → Receiver
  | some _ => .expr .hole
  | none => .type container

/-- A call of the method that a lookup finds. A static method is called without the receiver. -/
def IsCall (receiver : Option LocatedTree) (container : TypeId) (name : String)
    (args : List LocatedTree) (t : LocatedTree) : Prop :=
  ∃ us m us' receiver', K us ∧ K us' ∧
    (TypeSystem.findMethod container name (args.map LocatedTree.type)).run us = (.ok m, us') ∧
    receiver' = (if Builder.classify us' m container = .static then none else receiver) ∧
    IsNew a span (.call (callReceiver container receiver') m (args.map fun _ => .hole)
      (Builder.classify us' m container)) (callType us' m) (receiver'.toList ++ args) t

/-- The construction of a string from the array of its code units. -/
def SpellsOut (text : String) (t : LocatedTree) : Prop :=
  ∃ us vs ctor vs' units array, K us ∧ K vs ∧ K vs' ∧
    List.Forall₂ (fun unit => IsNew a span (.char unit) Primitive.char.typeId [])
      (text.toList.flatMap Builder.utf16Units) units ∧
    IsNew a span (.newArray (units.map fun _ => .hole))
      (Pool.array Primitive.char.typeId us.pool).1 units array ∧
    (TypeSystem.findConstructor .string [array.type]).run vs = (.ok ctor, vs') ∧
    IsNew a span (.new ctor none [.hole]) .string [array] t

/-- The conversion of an operand to a string. -/
inductive Promotes (t : LocatedTree) : LocatedTree → Prop
  | string : t.type = .string → Promotes t t
  | null {us : TypeSystem} {t' : LocatedTree} : t.type ≠ .string → K us →
      us.kind t.type = .null → SpellsOut K a span "null" t' → Promotes t t'
  | prim {us : TypeSystem} {p : Primitive} {t' : LocatedTree} : t.type ≠ .string → K us →
      us.kind t.type = .prim p → IsCall K a span none .string "valueOf" [t] t' → Promotes t t'
  | object {us : TypeSystem} {t' : LocatedTree} : t.type ≠ .string → K us →
      us.kind t.type ≠ .null → (∀ p, us.kind t.type ≠ .prim p) →
      IsCall K a span (some t) t.type "toString" [] t' → Promotes t t'

end

variable {K L : TypeSystem → Prop} {a : Arena} {span : Span}

/-- What takes the place of a node over its desugared parts. -/
inductive Rewrites (K : TypeSystem → Prop) (a : Arena) :
    NodeId × Form → List LocatedTree → LocatedTree → Prop
  | keep {n : NodeId} {f : Form} {parts : List LocatedTree} : ¬ f.IsString parts →
      Rewrites K a (n, f) parts (.node (n, f) parts)
  | literal {n x : NodeId} {f : Form} {us : TypeSystem} {text : Name} {ty : TypeId} {span : Span}
      {parts : List LocatedTree} : K us →
      SpellsOut K a span (us.text text) (.node (x, f) parts) →
      Rewrites K a (n, .expr ⟨.str text, ty, span⟩) [] (.node (n, f) parts)
  | concat {n x : NodeId} {f : Form} {ty : TypeId} {span : Span} {l r l' r' : LocatedTree}
      {parts : List LocatedTree} : l.type = .string ∨ r.type = .string →
      Promotes K a span l l' → Promotes K a span r r' →
      IsCall K a span (some l') .string "concat" [r'] (.node (x, f) parts) →
      Rewrites K a (n, .expr ⟨.binary .add .hole .hole, ty, span⟩) [l, r] (.node (n, f) parts)

/-- What takes the place of a tree. -/
def Desugars (K : TypeSystem → Prop) (a : Arena) : LocatedTree → LocatedTree → Prop :=
  RoseTree.fold fun label parts t =>
    ∃ parts', List.Forall₂ (fun part t' => part t') parts parts' ∧ Rewrites K a label parts' t

theorem desugars_node {label : NodeId × Form} {parts : List LocatedTree} {t : LocatedTree} :
    Desugars K a (.node label parts) t ↔
      ∃ parts', List.Forall₂ (Desugars K a) parts parts' ∧ Rewrites K a label parts' t := by
  rw [Desugars, RoseTree.fold_node]
  refine exists_congr fun parts' => and_congr_left fun _ => ?_
  rw [List.forall₂_map_left_iff]

/-! ### Other kinds of type systems -/

section

variable (hKL : ∀ ts, K ts → L ts) {t t' : LocatedTree}
include hKL

theorem IsCall.mono {receiver : Option LocatedTree} {container : TypeId} {name : String}
    {args : List LocatedTree} (h : IsCall K a span receiver container name args t) :
    IsCall L a span receiver container name args t := by
  obtain ⟨us, m, us', receiver', hus, hus', h⟩ := h
  exact ⟨us, m, us', receiver', hKL us hus, hKL us' hus', h⟩

theorem SpellsOut.mono {text : String} (h : SpellsOut K a span text t) :
    SpellsOut L a span text t := by
  obtain ⟨us, vs, ctor, vs', units, array, hus, hvs, hvs', h⟩ := h
  exact ⟨us, vs, ctor, vs', units, array, hKL us hus, hKL vs hvs, hKL vs' hvs', h⟩

theorem Promotes.mono (h : Promotes K a span t t') : Promotes L a span t t' := by
  cases h with
  | string hty => exact .string hty
  | null hty hus hkind h => exact .null hty (hKL _ hus) hkind (h.mono hKL)
  | prim hty hus hkind h => exact .prim hty (hKL _ hus) hkind (h.mono hKL)
  | object hty hus hnull hprim h => exact .object hty (hKL _ hus) hnull hprim (h.mono hKL)

theorem Rewrites.mono {label : NodeId × Form} {parts : List LocatedTree}
    (h : Rewrites K a label parts t) : Rewrites L a label parts t := by
  cases h with
  | keep hform => exact .keep hform
  | literal hus h => exact .literal (hKL _ hus) (h.mono hKL)
  | concat htype hl hr h => exact .concat htype (hl.mono hKL) (hr.mono hKL) (h.mono hKL)

theorem Desugars.mono (h : Desugars K a t t') : Desugars L a t t' := by
  induction t using RoseTree.induction generalizing t' with
  | h label parts ih =>
    obtain ⟨parts', hparts, hrewrites⟩ := desugars_node.mp h
    refine desugars_node.mpr ⟨parts', ?_, hrewrites.mono hKL⟩
    obtain ⟨hlength, hzip⟩ := List.forall₂_iff_zip.mp hparts
    exact List.forall₂_iff_zip.mpr
      ⟨hlength, fun hp => ih _ (List.of_mem_zip hp).1 (hzip hp)⟩

end

end StringForm

end Erasure
