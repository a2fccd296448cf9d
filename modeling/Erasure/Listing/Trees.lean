/-
Listings of trees: nodes with their parts, locals, and whole units.
-/
import Erasure.Listing.Declarations
import Erasure.Tree.CompilationUnit

namespace Erasure

open Datum

/-! ### Words for forms -/

/-- The word for a binary operator. -/
def BinaryOp.label : BinaryOp → String
  | add => "Add"
  | sub => "Sub"
  | mul => "Mul"
  | div => "Div"
  | rem => "Rem"
  | eq => "Eq"
  | notEq => "NotEq"
  | lt => "Lt"
  | ltEq => "LtEq"
  | gt => "Gt"
  | gtEq => "GtEq"
  | bitAnd => "BitAnd"
  | bitOr => "BitOr"
  | bitXor => "BitXor"
  | shl => "Shl"
  | shr => "Shr"
  | ushr => "UShr"
  | condAnd => "CondAnd"
  | condOr => "CondOr"

/-- All binary operators. -/
def BinaryOp.all : List BinaryOp := [add, sub, mul, div, rem, eq, notEq, lt, ltEq, gt, gtEq,
  bitAnd, bitOr, bitXor, shl, shr, ushr, condAnd, condOr]

/-- The word for a unary operator. -/
def UnaryOp.label : UnaryOp → String
  | neg => "Neg"
  | not => "Not"
  | bitNot => "BitNot"

/-- All unary operators. -/
def UnaryOp.all : List UnaryOp := [neg, not, bitNot]

/-- The word for a way to reach the target of a call. -/
def Dispatch.label : Dispatch → String
  | static => "Static"
  | direct => "Direct"
  | interface => "Interface"
  | virtual => "Virtual"

/-- All ways to reach the target of a call. -/
def Dispatch.all : List Dispatch := [static, direct, interface, virtual]

/-- The word for a call of another constructor. -/
def ConstructorCallKind.label : ConstructorCallKind → String
  | sameClass => "This"
  | superclass => "Super"

/-- All calls of other constructors. -/
def ConstructorCallKind.all : List ConstructorCallKind := [sameClass, superclass]

/-- The word for the body of a member. -/
def MemberBody.label : MemberBody → String
  | method .. => "method"
  | constructor .. => "ctor"
  | field _ => "field"
  | initializer _ => "init"

/-- The properties of a local. -/
def LocalFlags.listing (f : LocalFlags) : Datum := labels [
  (f.isFinal, "FINAL"), (f.isTemp, "TEMP"), (f.isSsa, "SSA")]

/-! ### Nodes -/

namespace TypeSystem

/-- An expression by its number. -/
def exprNumber (e : ExprId) : Datum := number e.index

/-- A statement by its number. -/
def stmtNumber (s : StmtId) : Datum := number s.index

/-- The 64 bits of a word, in hexadecimal digits. -/
def bitsListing (bits : UInt64) : Datum :=
  let digits := Nat.toDigits 16 bits.toNat
  string (String.ofList (List.replicate (16 - digits.length) '0' ++ digits))

/-- What a member is applied to. -/
def receiverListing (ts : TypeSystem) : Receiver → Datum
  | .expr e => record [("expr", exprNumber e)]
  | .type ty => record [("type", ts.typeListing ty)]

/-- The word for the form of an expression, and its parts. -/
def exprParts (ts : TypeSystem) : ExprKind → String × List (String × Datum)
  | .bool v => ("Bool", [("v", truth v)])
  | .int v => ("Int", [("v", string (toString v))])
  | .float bits => ("Float", [("bits", bitsListing bits)])
  | .char unit => ("Char", [("v", number unit.toNat)])
  | .str n => ("Str", [("v", string (ts.text n))])
  | .null => ("Null", [])
  | .localVar l => ("Local", [("local", number l.index)])
  | .field r m => ("Field", [("recv", ts.receiverListing r), ("member", ts.memberText m)])
  | .arrayAccess base index guarded =>
    ("ArrayAccess",
      [("base", exprNumber base), ("index", exprNumber index), ("guarded", truth guarded)])
  | .call r m args dispatch =>
    ("Call", [("recv", ts.receiverListing r), ("member", ts.memberText m),
      ("args", each exprNumber args), ("dispatch", string dispatch.label)])
  | .new m outer args =>
    ("New", [("member", ts.memberText m), ("outer", optional exprNumber outer),
      ("args", each exprNumber args)])
  | .newArray elems => ("NewArray", [("elems", each exprNumber elems)])
  | .binary op left right =>
    ("Binary", [("op", string op.label), ("left", exprNumber left), ("right", exprNumber right)])
  | .unary op e => ("Unary", [("op", string op.label), ("operand", exprNumber e)])
  | .cast e target => ("Cast", [("expr", exprNumber e), ("target", ts.typeListing target)])
  | .instanceOf e target =>
    ("InstanceOf", [("expr", exprNumber e), ("target", ts.typeListing target)])
  | .classLiteral target => ("ClassLit", [("target", ts.typeListing target)])
  | .assign target value =>
    ("Assign", [("target", exprNumber target), ("value", exprNumber value)])
  | .self => ("This", [])
  | .sequence stmts value =>
    ("ESeq", [("stmts", each stmtNumber stmts), ("expr", exprNumber value)])

/-- An expression. -/
def exprListing (ts : TypeSystem) (a : Arena) (e : ExprId) : Datum :=
  let node := a.expr e
  let (form, parts) := ts.exprParts node.kind
  record ([("id", exprNumber e), ("ty", ts.typeListing node.type),
    ("span", string node.span.describe), ("k", string form)] ++ parts)

/-- The word for the form of a statement, and its parts. -/
def stmtParts (ts : TypeSystem) : StmtKind → String × List (String × Datum)
  | .localDecl l init =>
    ("LocalDecl", [("local", number l.index), ("init", optional exprNumber init)])
  | .eval e => ("Eval", [("expr", exprNumber e)])
  | .branch cond onTrue onFalse =>
    ("If", [("cond", exprNumber cond), ("then", stmtNumber onTrue),
      ("else", optional stmtNumber onFalse)])
  | .block stmts => ("Block", [("stmts", each stmtNumber stmts)])
  | .result e => ("Return", [("expr", optional exprNumber e)])
  | .throwing e => ("Throw", [("expr", exprNumber e)])
  | .constructorCall kind m args =>
    ("ConstructorCall", [("kind", string kind.label), ("member", ts.memberText m),
      ("args", each exprNumber args)])

/-- A statement. -/
def stmtListing (ts : TypeSystem) (a : Arena) (s : StmtId) : Datum :=
  let node := a.stmt s
  let (form, parts) := ts.stmtParts node.kind
  record ([("id", stmtNumber s), ("span", string node.span.describe), ("k", string form)] ++ parts)

/-- A local. -/
def localListing (ts : TypeSystem) (a : Arena) (l : LocalId) : Datum :=
  let d := a.localDef l
  record [("id", number l.index), ("name", string (ts.text d.name)), ("ty", ts.typeListing d.type),
    ("flags", d.flags.listing)]

/-! ### Units -/

/-- The root of a tree by its number. -/
def rootListing : NodeId → Datum
  | .expr e => exprNumber e
  | .stmt s => stmtNumber s

/-- The declaration of a member. -/
def declListing (ts : TypeSystem) (d : MemberDecl) : Datum :=
  record [("member", ts.memberText d.member), ("kind", string d.body.label),
    ("root", optional rootListing d.body.root?),
    ("formals", each (fun l => number l.index) d.body.formals),
    ("span", string d.span.describe)]

/-- The declaration of a class. -/
def classDeclListing (ts : TypeSystem) (d : ClassDecl) : Datum :=
  record [("class", string (ts.className d.classId)), ("span", string d.span.describe),
    ("members", each ts.declListing d.members)]

/-- All nodes, locals and declarations of a unit. -/
def unitListing (ts : TypeSystem) (u : CompilationUnit) : Datum :=
  let a := u.arena
  record [
    ("exprs", each (fun i => ts.exprListing a ⟨i⟩) (List.range a.exprs.size)),
    ("stmts", each (fun i => ts.stmtListing a ⟨i⟩) (List.range a.stmts.size)),
    ("locals", each (fun i => ts.localListing a ⟨i⟩) (List.range a.locals.size)),
    ("classes", each ts.classDeclListing u.classes)]

/-- The lines of a walk through a unit in preorder: classes, members, and nodes by their
numbers. -/
def walkLines (ts : TypeSystem) (u : CompilationUnit) : List String :=
  u.classes.flatMap fun c =>
    ("class " ++ ts.className c.classId) :: c.members.flatMap fun m =>
      ("member " ++ ts.displayMember m.member) ::
        (m.body.root?.toList.flatMap u.arena.preorder).map fun
          | .expr e => "e" ++ toString e.index
          | .stmt s => "s" ++ toString s.index

end TypeSystem

end Erasure
