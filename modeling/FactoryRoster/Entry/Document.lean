import FactoryRoster.Entry
import FactoryRoster.Json.Record

/-!
# The roster as a document

A list of entries in JSON. An entry is an object with its `name` and, if it has a list of them, its
`traits`. Where entries are read, an empty list of traits, `null` and no list mean the same.
-/

namespace FactoryRoster

namespace Entry

/-- What has been read of an entry. -/
structure Draft where
  name : Option String := none
  traits : Option (Option (List String)) := none

def fields : List (Json.Field Draft) :=
  [.ofReader "name" Json.text Draft.name fun d name => { d with name := some name },
   .ofReader "traits" (Json.nullable (Json.list Json.text)) Draft.traits
     fun d traits => { d with traits := some traits }]

/-- The entry that a draft describes; it has to have a name. -/
def ofDraft? (d : Draft) : Option Entry :=
  d.name.map fun name => ofTraits name ((d.traits.getD none).getD [])

def read : Json.Reader Entry :=
  Json.record fields {} ofDraft?

def text (e : Entry) : List Char :=
  Json.objectText <|
    ("name", Json.quote e.name.toList) ::
      (e.traits.map fun traits =>
        ("traits", Json.listText (traits.map fun t => Json.quote t.toList))).toList

end Entry

namespace Roster

def document (entries : Roster) : String :=
  String.ofList (Json.listText (entries.map Entry.text))

def ofDocument (document : String) : Except Json.Fault Roster :=
  (Json.list Entry.read).whole document.toList

end Roster

end FactoryRoster
