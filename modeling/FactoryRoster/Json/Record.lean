import FactoryRoster.Json.Value

/-!
# Records in JSON

A record is read from an object or from a list of its fields in order. In an object the fields may
come in any order, none of them twice, and members with other keys are passed over; a list may end
early. What has been read is collected in a draft, from which the record is made at the end.
-/

namespace FactoryRoster.Json

/-- A field of a record that is read into drafts of type `σ`. -/
structure Field (σ : Type) where
  key : String
  /-- Whether a draft has the field already. -/
  isIn : σ → Bool
  /-- Reads the field into a draft. -/
  read : σ → Reader σ

/-- A field of a draft that holds what `value` reads. -/
def Field.ofReader {σ α : Type} (key : String) (value : Reader α) (get : σ → Option α)
    (set : σ → α → σ) : Field σ where
  key
  isIn draft := (get draft).isSome
  read draft cs := (value cs).map fun (v, rest) => (set draft v, rest)

/-- Takes the colon after a key. -/
def dropColon (cs : List Char) : Except Fault (List Char) :=
  match dropBlanks cs with
  | ':' :: rest => .ok rest
  | rest => .error (unexpected rest)

/-- Reads the members of an object from one of them on, at most `count`, with the closing brace. A
second member for a field is refused at its key. -/
def membersWithin {σ : Type} (fields : List (Field σ)) : (count : Nat) → σ → Reader σ
  | 0, _, _ => .error .truncated
  | count + 1, draft, cs =>
    match dropBlanks cs with
    | '"' :: rest => do
      let (key, rest) ← quoted rest
      let (draft, rest) ←
        match fields.find? (·.key.toList == key) with
        | some field =>
          if field.isIn draft then .error .mismatched
          else do field.read draft (← dropColon rest)
        | none => do .ok (draft, ← dropValue (← dropColon rest))
      match dropBlanks rest with
      | ',' :: rest => membersWithin fields count draft rest
      | '\x7d' :: rest => .ok (draft, rest)
      | rest => .error (unexpected rest)
    | rest => .error (unexpected rest)

/-- Reads the fields that are left from the items of a list, up to its closing bracket, which is
left. -/
def itemsInOrder {σ : Type} : (first : Bool) → List (Field σ) → σ → Reader σ
  | _, [], draft, cs => .ok (draft, cs)
  | first, field :: fields, draft, cs =>
    match dropBlanks cs with
    | ']' :: rest => .ok (draft, ']' :: rest)
    | [] => .error .truncated
    | c :: rest =>
      if first then do
        let (draft, rest) ← field.read draft (c :: rest)
        itemsInOrder false fields draft rest
      else if c = ',' then do
        let (draft, rest) ← field.read draft rest
        itemsInOrder false fields draft rest
      else .error .malformed

/-- Reads a record with the given fields; `finish` makes it from the draft, unless the draft lacks
a field that it needs. -/
def record {σ α : Type} (fields : List (Field σ)) (blank : σ) (finish : σ → Option α) :
    Reader α := fun cs =>
  match dropBlanks cs with
  | '\x7b' :: rest => do
    let (draft, rest) ←
      match dropBlanks rest with
      | '\x7d' :: rest => .ok (blank, rest)
      | _ => membersWithin fields (rest.length + 1) blank rest
    match finish draft with
    | some value => .ok (value, rest)
    | none => .error .mismatched
  | '[' :: rest => do
    let (draft, rest) ← itemsInOrder true fields blank rest
    match finish draft with
    | none => .error .mismatched
    | some value =>
      match dropBlanks rest with
      | ']' :: rest => .ok (value, rest)
      | rest => .error (unexpected rest)
  | _ => .error (misplaced cs)

def objectText (members : List (String × List Char)) : List Char :=
  '\x7b' :: (separated (members.map fun (key, value) => quote key.toList ++ ':' :: value) ++
    ['\x7d'])

end FactoryRoster.Json
