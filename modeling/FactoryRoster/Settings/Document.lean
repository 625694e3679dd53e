import FactoryRoster.Settings
import FactoryRoster.Json.Record

/-!
# Settings as documents

Conventions and settings in JSON: an object with a member for each field, in a fixed order. A field
that is not given keeps its default.
-/

namespace FactoryRoster

namespace Conventions

/-- What has been read of conventions. -/
structure Draft where
  receiver : Option String := none
  method : Option String := none
  factoryWord : Option String := none
  traitWord : Option String := none

def fields : List (Json.Field Draft) :=
  [.ofReader "registration_receiver" Json.text Draft.receiver
     fun d word => { d with receiver := some word },
   .ofReader "registration_method" Json.text Draft.method
     fun d word => { d with method := some word },
   .ofReader "fixture_keyword" Json.text Draft.factoryWord
     fun d word => { d with factoryWord := some word },
   .ofReader "variant_keyword" Json.text Draft.traitWord
     fun d word => { d with traitWord := some word }]

/-- The conventions that a draft describes. -/
def ofDraft (d : Draft) : Conventions :=
  let defaults : Conventions := {}
  { receiver := d.receiver.getD defaults.receiver
    method := d.method.getD defaults.method
    factoryWord := d.factoryWord.getD defaults.factoryWord
    traitWord := d.traitWord.getD defaults.traitWord }

def read : Json.Reader Conventions :=
  Json.record fields {} fun d => some (ofDraft d)

def text (c : Conventions) : List Char :=
  Json.objectText
    [("registration_receiver", Json.quote c.receiver.toList),
     ("registration_method", Json.quote c.method.toList),
     ("fixture_keyword", Json.quote c.factoryWord.toList),
     ("variant_keyword", Json.quote c.traitWord.toList)]

def document (c : Conventions) : String :=
  String.ofList c.text

def ofDocument (document : String) : Except Json.Fault Conventions :=
  read.whole document.toList

end Conventions

namespace Settings

/-- What has been read of settings. -/
structure Draft where
  directory : Option String := none
  extension : Option String := none
  gem : Option String := none
  parallel : Option Bool := none
  conventions : Option Conventions := none

def fields : List (Json.Field Draft) :=
  [.ofReader "factories_dir" Json.text Draft.directory
     fun d path => { d with directory := some path },
   .ofReader "extension" Json.text Draft.extension
     fun d extension => { d with extension := some extension },
   .ofReader "gem_name" Json.text Draft.gem fun d gem => { d with gem := some gem },
   .ofReader "parallel" Json.truth Draft.parallel
     fun d parallel => { d with parallel := some parallel },
   .ofReader "conventions" Conventions.read Draft.conventions
     fun d conventions => { d with conventions := some conventions }]

/-- The settings that a draft describes. -/
def ofDraft (d : Draft) : Settings :=
  let defaults : Settings := {}
  { directory := d.directory.getD defaults.directory
    extension := d.extension.getD defaults.extension
    gem := d.gem.getD defaults.gem
    parallel := d.parallel.getD defaults.parallel
    conventions := d.conventions.getD defaults.conventions }

def read : Json.Reader Settings :=
  Json.record fields {} fun d => some (ofDraft d)

def text (s : Settings) : List Char :=
  Json.objectText
    [("factories_dir", Json.quote s.directory.toList),
     ("extension", Json.quote s.extension.toList),
     ("gem_name", Json.quote s.gem.toList),
     ("parallel", Json.truthText s.parallel),
     ("conventions", s.conventions.text)]

def document (s : Settings) : String :=
  String.ofList s.text

def ofDocument (document : String) : Except Json.Fault Settings :=
  read.whole document.toList

end Settings

end FactoryRoster
