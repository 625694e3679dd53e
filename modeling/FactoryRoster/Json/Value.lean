import FactoryRoster.Json.Number
import FactoryRoster.Json.Quoted

/-!
# JSON values

Passing over a value of any shape (`dropValue`), and the readers of the values that documents are
made of: texts, truth values, lists, and values that may be `null`. Where a value of another shape
stands, it is looked at far enough to tell whether it is JSON (`misplaced`).
-/

namespace FactoryRoster.Json

mutual

/-- Passes over a value; `depth` bounds how many values it takes to get to its end. -/
def dropValueWithin : (depth : Nat) → List Char → Except Fault (List Char)
  | 0, _ => .error .truncated
  | depth + 1, cs =>
    match dropBlanks cs with
    | [] => .error .truncated
    | 'n' :: rest => dropWord ['u', 'l', 'l'] rest
    | 't' :: rest => dropWord ['r', 'u', 'e'] rest
    | 'f' :: rest => dropWord ['a', 'l', 's', 'e'] rest
    | '"' :: rest => dropQuoted rest
    | '-' :: rest => dropNumber rest
    | '[' :: rest =>
      match dropBlanks rest with
      | ']' :: rest => .ok rest
      | _ => dropItemsWithin depth rest
    | '\x7b' :: rest =>
      match dropBlanks rest with
      | '\x7d' :: rest => .ok rest
      | _ => dropMembersWithin depth rest
    | c :: rest => if c.isDigit then dropNumber (c :: rest) else .error .malformed

/-- Passes over the items of a list from one of them on, with the closing bracket. -/
def dropItemsWithin : (depth : Nat) → List Char → Except Fault (List Char)
  | 0, _ => .error .truncated
  | depth + 1, cs => do
    let rest ← dropValueWithin depth cs
    match dropBlanks rest with
    | ',' :: rest => dropItemsWithin depth rest
    | ']' :: rest => .ok rest
    | rest => .error (unexpected rest)

/-- Passes over the members of an object from one of them on, with the closing brace. -/
def dropMembersWithin : (depth : Nat) → List Char → Except Fault (List Char)
  | 0, _ => .error .truncated
  | depth + 1, cs =>
    match dropBlanks cs with
    | '"' :: rest => do
      let rest ← dropQuoted rest
      match dropBlanks rest with
      | ':' :: rest => do
        let rest ← dropValueWithin depth rest
        match dropBlanks rest with
        | ',' :: rest => dropMembersWithin depth rest
        | '\x7d' :: rest => .ok rest
        | rest => .error (unexpected rest)
      | rest => .error (unexpected rest)
    | rest => .error (unexpected rest)

end

def dropValue (cs : List Char) : Except Fault (List Char) :=
  dropValueWithin (2 * cs.length + 1) cs

/-- The fault of a value that stands where one of another shape is asked for. -/
def misplaced (cs : List Char) : Fault :=
  let after (result : Except Fault (List Char)) : Fault :=
    match result with
    | .error fault => fault
    | .ok _ => .mismatched
  match dropBlanks cs with
  | [] => .truncated
  | 'n' :: rest => after (dropWord ['u', 'l', 'l'] rest)
  | 't' :: rest => after (dropWord ['r', 'u', 'e'] rest)
  | 'f' :: rest => after (dropWord ['a', 'l', 's', 'e'] rest)
  | '"' :: rest => after ((quoted rest).map Prod.snd)
  | '-' :: rest => misplacedNumber rest
  | '[' :: _ | '\x7b' :: _ => .mismatched
  | c :: rest => if c.isDigit then misplacedNumber (c :: rest) else .malformed

def text : Reader String := fun cs =>
  match dropBlanks cs with
  | '"' :: rest => (quoted rest).map fun (chars, rest) => (String.ofList chars, rest)
  | _ => .error (misplaced cs)

def truth : Reader Bool := fun cs =>
  match dropBlanks cs with
  | 't' :: rest => (dropWord ['r', 'u', 'e'] rest).map (true, ·)
  | 'f' :: rest => (dropWord ['a', 'l', 's', 'e'] rest).map (false, ·)
  | _ => .error (misplaced cs)

/-- Reads a value that may be `null`. -/
def nullable {α : Type} (read : Reader α) : Reader (Option α) := fun cs =>
  match dropBlanks cs with
  | 'n' :: rest => (dropWord ['u', 'l', 'l'] rest).map (none, ·)
  | _ => (read cs).map fun (value, rest) => (some value, rest)

/-- Reads the items of a list from one of them on, at most `count`, with the closing bracket. -/
def itemsWithin {α : Type} (item : Reader α) : (count : Nat) → Reader (List α)
  | 0, _ => .error .truncated
  | count + 1, cs => do
    let (value, rest) ← item cs
    match dropBlanks rest with
    | ',' :: rest => do
      let (values, rest) ← itemsWithin item count rest
      .ok (value :: values, rest)
    | ']' :: rest => .ok ([value], rest)
    | rest => .error (unexpected rest)

def list {α : Type} (item : Reader α) : Reader (List α) := fun cs =>
  match dropBlanks cs with
  | '[' :: rest =>
    match dropBlanks rest with
    | ']' :: rest => .ok ([], rest)
    | _ => itemsWithin item (rest.length + 1) rest
  | _ => .error (misplaced cs)

/-- The items with commas between them. -/
def separated : List (List Char) → List Char
  | [] => []
  | [item] => item
  | item :: items => item ++ ',' :: separated items

def listText (items : List (List Char)) : List Char :=
  '[' :: (separated items ++ [']'])

def truthText : Bool → List Char
  | true => ['t', 'r', 'u', 'e']
  | false => ['f', 'a', 'l', 's', 'e']

end FactoryRoster.Json
