/-
Building typed trees.

Every operation resolves the members that its node refers to and gives the node its static type,
so that a built tree looks like a checked one. New nodes take the span of the builder. A failed
operation adds no node, though its lookups may have interned names and types.
-/
import Erasure.Tree.Error
import Erasure.Tree.CompilationUnit

namespace Erasure

/-- A type system and an arena under construction, with the span for new nodes. -/
structure Builder where
  types : TypeSystem
  arena : Arena
  span : Span

/-- Building that can fail. -/
abbrev BuildM := ExceptT TreeError (StateM Builder)

/-- Work on the type system. -/
instance : MonadLift (StateM TypeSystem) (StateM Builder) where
  monadLift act := fun b =>
    let (a, types) := act b.types
    (a, { b with types })

/-- Work on the arena. -/
instance : MonadLift (StateM Arena) (StateM Builder) where
  monadLift act := fun b =>
    let (a, arena) := act b.arena
    (a, { b with arena })

namespace Builder

/-- A lookup as part of building. -/
def lookup {α : Type} (act : LookupM α) : BuildM α := do
  match ← (liftM act.run : StateM Builder (Except LookupError α)) with
  | .ok a => return a
  | .error e => throw (.lookup e)

/-! ### Nodes -/

/-- Adds an expression with the span of the builder. -/
def newExpr (kind : ExprKind) (type : TypeId) : StateM Builder ExprId := do
  liftM (Arena.addExpr ⟨kind, type, (← get).span⟩)

/-- Adds a statement with the span of the builder. -/
def newStmt (kind : StmtKind) : StateM Builder StmtId := do
  liftM (Arena.addStmt ⟨kind, (← get).span⟩)

/-- The static type of an expression. -/
def typeOf (b : Builder) (e : ExprId) : TypeId := (b.arena.expr e).type

/-- The types of locals. -/
def localTypes (b : Builder) (ls : List LocalId) : List TypeId :=
  ls.map fun l => (b.arena.localDef l).type

/-- Fails unless an expression is a truth value. -/
def requireBoolean (context : String) (e : ExprId) : BuildM Unit := do
  let b ← get
  unless b.typeOf e = Primitive.boolean.typeId do
    throw (.notBoolean context (b.types.display (b.typeOf e)))

/-- Fails unless a type is a reference type. -/
def requireReference (ty : TypeId) : BuildM Unit := do
  let ts := (← get).types
  unless ts.isReference ty do
    throw (.notAReference (ts.display ty))

/-! ### Declarations -/

/-- Declares a field with its initializer. -/
def declareField (c : ClassId) (name : String) (type : TypeId) (init : Option ExprId)
    (flags : MemberFlags) : StateM Builder MemberDecl := do
  let name ← liftM (TypeSystem.intern name)
  let member ← liftM (TypeSystem.declareMember c (.field name type) flags)
  return ⟨member, .field init, (← get).span⟩

/-- Declares a method whose formals are the given locals. -/
def declareMethod (c : ClassId) (name : String) (result : TypeId) (formals : List LocalId)
    (body : Option StmtId) (flags : MemberFlags) : StateM Builder MemberDecl := do
  let name ← liftM (TypeSystem.intern name)
  let types := (← get).localTypes formals
  let member ← liftM (TypeSystem.declareMember c (.method name types result []) flags)
  return ⟨member, .method formals body, (← get).span⟩

/-- Declares a constructor whose formals are the given locals. -/
def declareConstructor (c : ClassId) (formals : List LocalId) (body : Option StmtId) :
    StateM Builder MemberDecl := do
  let types := (← get).localTypes formals
  let member ← liftM (TypeSystem.declareMember c (.constructor types []) {})
  return ⟨member, .constructor formals body, (← get).span⟩

/-! ### Locals -/

/-- Adds a local or formal parameter. -/
def newLocal (name : String) (type : TypeId) (flags : LocalFlags) : StateM Builder LocalId := do
  let name ← liftM (TypeSystem.intern name)
  liftM (Arena.addLocal ⟨name, type, flags⟩)

/-- Adds a local together with its declaration. -/
def newLocalDecl (name : String) (type : TypeId) (init : Option ExprId) (flags : LocalFlags) :
    StateM Builder (LocalId × StmtId) := do
  let l ← newLocal name type flags
  return (l, ← newStmt (.localDecl l init))

/-- Adds a temporary variable with its declaration. -/
def tempVar (name : String) (type : TypeId) (init : Option ExprId) :
    StateM Builder (LocalId × StmtId) :=
  newLocalDecl name type init { isTemp := true }

/-- Adds a temporary that is assigned once, with the type and span of its initializer. -/
def tempSsa (name : String) (init : Option ExprId) : BuildM (LocalId × StmtId) := do
  match init with
  | none => throw (.ssaWithoutInit name)
  | some e =>
    let b ← get
    let init := b.arena.expr e
    set { b with span := init.span }
    let temp ← liftM
      (newLocalDecl name init.type (some e) { isFinal := true, isTemp := true, isSsa := true })
    modify ({ · with span := b.span })
    return temp

/-- The value of a local. -/
def localVar (l : LocalId) : StateM Builder ExprId := do
  newExpr (.localVar l) ((← get).arena.localDef l).type

/-! ### Members -/

/-- The static type of a receiver. -/
def receiverType (b : Builder) : Receiver → TypeId
  | .expr e => b.typeOf e
  | .type ty => ty

/-- The field `name` of a receiver. -/
def field (receiver : Receiver) (name : String) : BuildM ExprId := do
  let m ← lookup (TypeSystem.findField ((← get).receiverType receiver) name)
  let type :=
    match ((← get).types.member m).kind with
    | .field _ type => type
    | _ => default
  liftM (newExpr (.field receiver m) type)

/-- The static field `name` of a type. -/
def staticField (container : TypeId) (name : String) : BuildM ExprId :=
  field (.type container) name

/-- How a call of a method through a container reaches its target. -/
def classify (ts : TypeSystem) (m : MemberId) (container : TypeId) : Dispatch :=
  let member := ts.member m
  if member.flags.isStatic then .static
  else if member.flags.isPrivate || member.flags.isFinal then .direct
  else if (ts.classOf? container).any fun c => (ts.classDef c).flags.isFinal then .direct
  else if ts.classOf? member.container |>.any ts.isInterface then .interface
  else .virtual

/-- A call of the method `name` of a container. A static method is called on the container
itself, whatever the receiver is. -/
def call (receiver : Receiver) (container : TypeId) (name : String) (args : List ExprId) :
    BuildM ExprId := do
  let argTypes := args.map (← get).typeOf
  let m ← lookup (TypeSystem.findMethod container name argTypes)
  let ts := (← get).types
  let type :=
    match (ts.member m).kind with
    | .method _ _ result _ => result
    | _ => Primitive.void.typeId
  let dispatch := classify ts m container
  let receiver := if dispatch = .static then .type container else receiver
  liftM (newExpr (.call receiver m args dispatch) type)

/-- A call of the static method `name` of a container. -/
def staticCall (container : TypeId) (name : String) (args : List ExprId) : BuildM ExprId :=
  call (.type container) container name args

/-- The call of another constructor, of `container`, at the head of a constructor body. -/
def constructorCall (kind : ConstructorCallKind) (container : TypeId) (args : List ExprId) :
    BuildM StmtId := do
  let argTypes := args.map (← get).typeOf
  let m ← lookup (TypeSystem.findConstructor container argTypes)
  liftM (newStmt (.constructorCall kind m args))

/-! ### Objects and arrays -/

/-- An allocation of a class with a call of its constructor. -/
def newObject (ty : TypeId) (outer : Option ExprId) (args : List ExprId) : BuildM ExprId := do
  let b ← get
  unless (b.types.classOf? ty).any fun c => !b.types.isInterface c do
    throw (.notInstantiable (b.types.display ty))
  let m ← lookup (TypeSystem.findConstructor ty (args.map b.typeOf))
  liftM (newExpr (.new m outer args) ty)

/-- An array of the given elements. -/
def newArray (elem : TypeId) (elems : List ExprId) : StateM Builder ExprId := do
  let ty ← liftM (liftM (Pool.array elem) : StateM TypeSystem TypeId)
  newExpr (.newArray elems) ty

/-- A character literal. -/
def charLit (unit : UInt16) : StateM Builder ExprId :=
  newExpr (.char unit) Primitive.char.typeId

/-- The code units of UTF-16 of a character: one, or a surrogate pair. -/
def utf16Units (c : Char) : List UInt16 :=
  let n := c.toNat
  if n < 0x10000 then [n.toUInt16]
  else [(0xD800 + (n - 0x10000) / 0x400).toUInt16, (0xDC00 + (n - 0x10000) % 0x400).toUInt16]

/-- The construction of a string from an array of its code units. -/
def newString (text : String) : BuildM ExprId := do
  let units ← (text.toList.flatMap utf16Units).mapM fun unit => liftM (charLit unit)
  let array ← liftM (newArray Primitive.char.typeId units)
  newObject .string none [array]

/-! ### Other expressions -/

/-- A conversion to another type. -/
def cast (e : ExprId) (target : TypeId) : StateM Builder ExprId :=
  newExpr (.cast e target) target

/-- A class literal. It has the type of the root class. -/
def classLiteral (ty : TypeId) : BuildM ExprId := do
  requireReference ty
  liftM (newExpr (.classLiteral ty) .object)

/-- The current object, seen as `container`. -/
def self (container : TypeId) : StateM Builder ExprId := newExpr .self container

/-- A test whether an object has a type. -/
def instanceOf (e : ExprId) (target : TypeId) : BuildM ExprId := do
  requireReference target
  liftM (newExpr (.instanceOf e target) Primitive.boolean.typeId)

/-- Statements run for their effect, then a value. -/
def sequence (stmts : List StmtId) (value : ExprId) : StateM Builder ExprId := do
  newExpr (.sequence stmts value) ((← get).typeOf value)

/-- Negation of a truth value. -/
def not (e : ExprId) : BuildM ExprId := do
  requireBoolean "operand of `!`" e
  liftM (newExpr (.unary .not e) Primitive.boolean.typeId)

/-- The disjunction that evaluates its right operand only when it has to. -/
def condOr (left right : ExprId) : BuildM ExprId := do
  requireBoolean "left operand of `||`" left
  requireBoolean "right operand of `||`" right
  liftM (newExpr (.binary .condOr left right) Primitive.boolean.typeId)

/-- An element of an array. -/
def arrayAccess (base index : ExprId) (guarded : Bool) : BuildM ExprId := do
  let b ← get
  match b.types.kind (b.typeOf base) with
  | .array elem => liftM (newExpr (.arrayAccess base index guarded) elem)
  | _ => throw (.notAnArray (b.types.display (b.typeOf base)))

/-! ### Literals -/

/-- A string literal. -/
def stringLit (text : String) : StateM Builder ExprId := do
  let name ← liftM (TypeSystem.intern text)
  newExpr (.str name) .string

/-- An `int` literal. -/
def intLit (value : Int) : StateM Builder ExprId := newExpr (.int value) Primitive.int.typeId

/-- A truth value. -/
def boolLit (value : Bool) : StateM Builder ExprId :=
  newExpr (.bool value) Primitive.boolean.typeId

/-- The null literal. -/
def nullLit : StateM Builder ExprId := newExpr .null .null

/-! ### Statements -/

/-- An expression evaluated for its effect. -/
def eval (e : ExprId) : StateM Builder StmtId := newStmt (.eval e)

/-- An assignment as a statement. -/
def evalAssign (target value : ExprId) : BuildM StmtId := do
  let node := (← get).arena.expr target
  unless node.kind.isAssignable do
    throw (.notAssignable node.span)
  let assignment ← liftM (newExpr (.assign target value) node.type)
  liftM (eval assignment)

/-- Statements in order. -/
def block (stmts : List StmtId) : StateM Builder StmtId := newStmt (.block stmts)

/-- A choice between statements. -/
def branch (cond : ExprId) (onTrue : StmtId) (onFalse : Option StmtId) : BuildM StmtId := do
  requireBoolean "condition" cond
  liftM (newStmt (.branch cond onTrue onFalse))

/-- Allocates an exception and throws it. -/
def throwNew (ty : TypeId) (args : List ExprId) : BuildM StmtId := do
  let exception ← newObject ty none args
  liftM (newStmt (.throwing exception))

end Builder

end Erasure
