import FactoryRoster.Source.Characters

/-!
# Comments

A comment reaches from a hash sign to the end of its line, or over the lines from `=begin` to
`=end`.
-/

namespace FactoryRoster.Source

/-- What follows the block comment that has been opened before `text`: it ends with the line of the
first `=end`. -/
def afterBlockComment? : List Char → Option (List Char)
  | '=' :: 'e' :: 'n' :: 'd' :: rest => some (rest.dropWhile (· != '\n'))
  | '=' :: 'e' :: 'n' :: _ :: rest => afterBlockComment? rest
  | '=' :: 'e' :: _ :: rest => afterBlockComment? rest
  | '=' :: _ :: rest => afterBlockComment? rest
  | _ :: rest => afterBlockComment? rest
  | [] => none

/-- What follows the comment with which a text begins. -/
def afterComment? (text : List Char) : Option (List Char) :=
  match text with
  | '#' :: rest => some (rest.dropWhile fun c => c != '\n' && c != '\x00')
  | '=' :: 'b' :: 'e' :: 'g' :: 'i' :: 'n' :: rest =>
    match rest.dropWhile (· != '\n') with
    | '\n' :: lines => afterBlockComment? lines
    | _ => none
  | _ => none

end FactoryRoster.Source
