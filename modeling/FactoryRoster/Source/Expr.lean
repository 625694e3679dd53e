import FactoryRoster.Tree
import FactoryRoster.Source.Literal

/-!
# Concrete trees

What is kept of the concrete tree of a Ruby program, and the syntax tree that it is lowered to
(`Expr.toNode`). The body of a block or construct is a container of its own in the concrete tree.
Below a block its statements take its place; anywhere else it is lowered to a container.
-/

namespace FactoryRoster.Source

/-- The two containers of the statements of a body. -/
inductive Body where
  /-- The body of a definition, a class or a block after `do`. -/
  | statement
  /-- The body of a block in braces. -/
  | block
  deriving DecidableEq

/-- A node of a concrete tree: a program, a body, a call, a string or symbol without interpolation,
a plain name, or something else by its kind. A call may lack the name of its method. Of a block its
children are kept. -/
inductive Expr where
  | program (children : List Expr)
  | body (kind : Body) (children : List Expr)
  | call (receiver : Option Expr) (method : Option (List Char)) (arguments : List Expr)
      (block : Option (List Expr))
  | string (text : List Char)
  | name (spelling : List Char)
  /-- The parameters of a block. -/
  | parameters
  | node (kind : String) (children : List Expr)

namespace Expr

/-- Something of which only the kind is kept: what is in it is lowered to nothing. -/
@[match_pattern]
abbrev other (kind : String) : Expr :=
  .node kind []

mutual

/-- The syntax tree that a node is lowered to. -/
def toNode : Expr → Node
  | program children => .program (listToNodes children)
  | body _ children => .statements (listToNodes children)
  | call receiver (some method) arguments block =>
    .call (optionToNode receiver) (String.ofList method) (listToNodes arguments)
      (blockToNodes block)
  | call _ none _ _ => .other "call"
  | string text => .string (String.ofList text)
  | name spelling => .identifier (String.ofList spelling)
  | parameters => .other "block_parameters"
  | node kind _ => .other kind

def listToNodes : List Expr → List Node
  | [] => []
  | e :: es => e.toNode :: listToNodes es

def optionToNode : Option Expr → Option Node
  | none => none
  | some e => some e.toNode

/-- The trees of the statements of a block, if there is one. -/
def blockToNodes : Option (List Expr) → Option (List Node)
  | none => none
  | some children => some (statementNodes children)

/-- The trees of the statements among the children of a block: the statements of a body take its
place, and parameters are left out. -/
def statementNodes : List Expr → List Node
  | [] => []
  | .parameters :: es => statementNodes es
  | .body _ children :: es => listToNodes children ++ statementNodes es
  | e :: es => e.toNode :: statementNodes es

end

/-- A container of statements, which is only there if there are any. -/
def bodyOf (kind : Body) : List Expr → List Expr
  | [] => []
  | statements => [.body kind statements]

/-- A literal: a string or symbol with its text, or else its kind. An interpolation makes a literal
something else. -/
def ofLiteral (kind : LiteralKind) (quoting : Quoting) (parts : List Part) : Expr :=
  if (kind == .string || kind == .symbol) && parts.all isText then
    match quoting with
    | .verbatim => string (parts.flatMap raw)
    | .single => string (unescapeQuotes (parts.flatMap raw))
    | .double => string (parts.flatMap decoded)
  else other kind.name
where
  /-- Whether a part is text. -/
  isText : Part → Bool
    | .code => false
    | _ => true
  /-- A part as it is written. -/
  raw : Part → List Char
    | .plain text => text
    | .escape sequence => '\\' :: sequence
    | .code => []
  /-- A part with its escape decoded. -/
  decoded : Part → List Char
    | .plain text => text
    | .escape sequence => Escape.decode sequence
    | .code => []

end Expr

end FactoryRoster.Source
