/-!
# Syntax trees

What is kept of a program's syntax: containers of statements, calls, literal strings, plain names,
and everything else by its kind. `Call` is the view of a call with its four parts named.
-/

namespace FactoryRoster

/-- A node of a syntax tree. In a call, no block and an empty block are different things. -/
inductive Node where
  | program (children : List Node)
  | statements (children : List Node)
  | call (receiver : Option Node) (method : String) (arguments : List Node)
      (block : Option (List Node))
  | string (text : String)
  | identifier (name : String)
  | other (kind : String)
  deriving Inhabited, BEq, Repr

/-- A call: `receiver.method(arguments) { block }`. -/
structure Call where
  receiver : Option Node := none
  method : String
  arguments : List Node := []
  block : Option (List Node) := none
  deriving BEq, Repr

namespace Node

def kind : Node → String
  | program _ => "program"
  | statements _ => "statements"
  | call .. => "call"
  | string _ => "string_literal"
  | identifier _ => "identifier"
  | other kind => kind

def call? : Node → Option Call
  | call receiver method arguments block => some ⟨receiver, method, arguments, block⟩
  | _ => none

def text? : Node → Option String
  | string text => some text
  | _ => none

def name? : Node → Option String
  | identifier name => some name
  | _ => none

end Node

namespace Call

def toNode (c : Call) : Node :=
  .call c.receiver c.method c.arguments c.block

def receiverName? (c : Call) : Option String :=
  c.receiver.bind Node.name?

def firstArgument? (c : Call) : Option Node :=
  c.arguments.head?

/-- The statements of the block; none when there is no block. -/
def blockStatements (c : Call) : List Node :=
  c.block.getD []

def withReceiver (c : Call) (node : Node) : Call :=
  { c with receiver := some node }

def withArgument (c : Call) (node : Node) : Call :=
  { c with arguments := c.arguments ++ [node] }

def withBlock (c : Call) (nodes : List Node) : Call :=
  { c with block := some nodes }

@[simp] theorem call?_toNode (c : Call) : c.toNode.call? = some c := rfl

end Call

theorem Node.call?_eq_some_iff {n : Node} {c : Call} : n.call? = some c ↔ n = c.toNode := by
  cases n <;> cases c <;> simp [Node.call?, Call.toNode]

end FactoryRoster
