import FactoryRoster.Settings.Document
import FactoryRoster.Proofs.Json.Layouts

/-!
# Settings of which only some are given

A document of settings says what it says, and nothing else: what it names has the value that it
gives, and everything else has its default, in the settings and in the conventions inside them. In
which order it names things, which unknown members stand between them, and whether it is an object
or a list makes no difference.
-/

namespace FactoryRoster

open Json

namespace Conventions

/-- A convention that is given. -/
inductive Part where
  | receiver (word : String)
  | method (word : String)
  | factoryWord (word : String)
  | traitWord (word : String)

def Part.key : Part → String
  | receiver _ => "registration_receiver"
  | method _ => "registration_method"
  | factoryWord _ => "fixture_keyword"
  | traitWord _ => "variant_keyword"

def Part.word : Part → String
  | receiver word => word
  | method word => word
  | factoryWord word => word
  | traitWord word => word

/-- Whether conventions have a given part. -/
def Part.Holds (c : Conventions) : Part → Prop
  | receiver word => c.receiver = word
  | method word => c.method = word
  | factoryWord word => c.factoryWord = word
  | traitWord word => c.traitWord = word

def layout : Layout Part where
  keys := ["registration_receiver", "registration_method", "fixture_keyword", "variant_keyword"]
  key := Part.key
  Value p := IsText p.word

def defaultParts : List Part :=
  [.receiver "FactoryBot", .method "define", .factoryWord "factory", .traitWord "trait"]

/-- Whether conventions are the default ones but for the given parts. -/
def Overrides (c : Conventions) (given : layout.Given) : Prop :=
  layout.Overrides defaultParts (Part.Holds c) given.parts

/-- The draft with one more part. -/
def Draft.put (d : Draft) : Part → Draft
  | .receiver word => { d with receiver := some word }
  | .method word => { d with method := some word }
  | .factoryWord word => { d with factoryWord := some word }
  | .traitWord word => { d with traitWord := some word }

theorem readBy : layout.ReadBy fields Draft.put where
  keys := rfl
  mem p := by cases p <;> simp [layout, Part.key]
  opens := opens_isText
  takes := by
    intro field hfield p hkey written hvalue draft
    simp only [fields, List.mem_cons, List.not_mem_nil, or_false] at hfield
    rcases hfield with rfl | rfl | rfl | rfl <;> cases p <;>
      simp [layout, Part.key, Field.ofReader] at hkey
    all_goals exact (takes_text hvalue).ofReader draft
  isIn_put := by
    intro field hfield p hkey draft
    simp only [fields, List.mem_cons, List.not_mem_nil, or_false] at hfield
    rcases hfield with rfl | rfl | rfl | rfl <;> cases p
    all_goals
      first
        | rfl
        | exact absurd rfl hkey
  put_comm := by
    intro p q hkey draft
    cases p <;> cases q
    all_goals
      first
        | rfl
        | exact absurd rfl hkey

/-- The conventions that have the given parts. -/
def ofParts (given : layout.Given) : Conventions :=
  ofDraft (given.parts.foldl Draft.put {})

theorem isIn_blank {field : Json.Field Draft} (hfield : field ∈ fields) :
    field.isIn {} = false := by
  simp only [fields, List.mem_cons, List.not_mem_nil, or_false] at hfield
  rcases hfield with rfl | rfl | rfl | rfl <;> rfl

theorem takes_read (given : layout.Given) {written : List Char}
    (h : layout.Writes given.parts written) : Takes read written (ofParts given) := by
  apply readBy.takes_record given (fun _ => isIn_blank) _ h
  rfl

theorem overrides_ofParts (given : layout.Given) : (ofParts given).Overrides given := by
  apply readBy.overrides given (fun _ => isIn_blank)
  · intro draft p
    cases p <;> rfl
  · intro p hp draft hlacks
    simp only [defaultParts, List.mem_cons, List.not_mem_nil, or_false] at hp
    rcases hp with rfl | rfl | rfl | rfl
    · exact hlacks.getD_eq (.head _) "FactoryBot"
    · exact hlacks.getD_eq (.tail _ (.head _)) "define"
    · exact hlacks.getD_eq (.tail _ (.tail _ (.head _))) "factory"
    · exact hlacks.getD_eq (.tail _ (.tail _ (.tail _ (.head _)))) "trait"

end Conventions

namespace Settings

/-- A setting that is given; of the conventions, only some may be. -/
inductive Part where
  | directory (path : String)
  | extension (name : String)
  | gem (name : String)
  | parallel (answer : Bool)
  | conventions (given : Conventions.layout.Given)

def Part.key : Part → String
  | directory _ => "factories_dir"
  | extension _ => "extension"
  | gem _ => "gem_name"
  | parallel _ => "parallel"
  | conventions _ => "conventions"

/-- The texts of the value of a part. -/
def Part.IsValue : Part → List Char → Prop
  | directory path => IsText path
  | extension name => IsText name
  | gem name => IsText name
  | parallel answer => (truthText answer = ·)
  | conventions given => Conventions.layout.Writes given.parts

/-- Whether settings have a given part. -/
def Part.Holds (s : Settings) : Part → Prop
  | directory path => s.directory = path
  | extension name => s.extension = name
  | gem name => s.gem = name
  | parallel answer => s.parallel = answer
  | conventions given => s.conventions.Overrides given

def layout : Layout Part where
  keys := ["factories_dir", "extension", "gem_name", "parallel", "conventions"]
  key := Part.key
  Value := Part.IsValue

def defaultParts : List Part :=
  [.directory "spec/factories", .extension "rb", .gem "factory_bot", .parallel true,
    .conventions ⟨[], .nil⟩]

/-- Whether settings are the default ones but for the given parts. -/
def Overrides (s : Settings) (given : layout.Given) : Prop :=
  layout.Overrides defaultParts (Part.Holds s) given.parts

/-- The draft with one more part. -/
def Draft.put (d : Draft) : Part → Draft
  | .directory path => { d with directory := some path }
  | .extension name => { d with extension := some name }
  | .gem name => { d with gem := some name }
  | .parallel answer => { d with parallel := some answer }
  | .conventions given => { d with conventions := some (.ofParts given) }

theorem readBy : layout.ReadBy fields Draft.put where
  keys := rfl
  mem p := by cases p <;> simp [layout, Part.key]
  opens := by
    intro p written hvalue
    cases p with
    | directory path => exact opens_isText hvalue
    | extension name => exact opens_isText hvalue
    | gem name => exact opens_isText hvalue
    | parallel answer =>
        obtain rfl := hvalue
        cases answer <;> exact ⟨_, _, rfl, by decide, by decide⟩
    | conventions given => exact hvalue.opens
  takes := by
    intro field hfield p hkey written hvalue draft
    simp only [fields, List.mem_cons, List.not_mem_nil, or_false] at hfield
    rcases hfield with rfl | rfl | rfl | rfl | rfl <;> cases p <;>
      simp [layout, Part.key, Field.ofReader] at hkey
    · exact (takes_text hvalue).ofReader draft
    · exact (takes_text hvalue).ofReader draft
    · exact (takes_text hvalue).ofReader draft
    · obtain rfl := hvalue
      exact (takes_truth _).ofReader draft
    · exact (Conventions.takes_read _ hvalue).ofReader draft
  isIn_put := by
    intro field hfield p hkey draft
    simp only [fields, List.mem_cons, List.not_mem_nil, or_false] at hfield
    rcases hfield with rfl | rfl | rfl | rfl | rfl <;> cases p
    all_goals
      first
        | rfl
        | exact absurd rfl hkey
  put_comm := by
    intro p q hkey draft
    cases p <;> cases q
    all_goals
      first
        | rfl
        | exact absurd rfl hkey

theorem isIn_blank {field : Json.Field Draft} (hfield : field ∈ fields) :
    field.isIn {} = false := by
  simp only [fields, List.mem_cons, List.not_mem_nil, or_false] at hfield
  rcases hfield with rfl | rfl | rfl | rfl | rfl <;> rfl

/-- The settings that have the given parts. -/
def ofParts (given : layout.Given) : Settings :=
  ofDraft (given.parts.foldl Draft.put {})

theorem takes_read (given : layout.Given) {written : List Char}
    (h : layout.Writes given.parts written) : Takes read written (ofParts given) := by
  apply readBy.takes_record given (fun _ => isIn_blank) _ h
  rfl

theorem overrides_ofParts (given : layout.Given) : (ofParts given).Overrides given := by
  apply readBy.overrides given (fun _ => isIn_blank)
  · intro draft p
    cases p with
    | conventions given => exact Conventions.overrides_ofParts given
    | _ => rfl
  · intro p hp draft hlacks
    simp only [defaultParts, List.mem_cons, List.not_mem_nil, or_false] at hp
    rcases hp with rfl | rfl | rfl | rfl | rfl
    · exact hlacks.getD_eq (.head _) "spec/factories"
    · exact hlacks.getD_eq (.tail _ (.head _)) "rb"
    · exact hlacks.getD_eq (.tail _ (.tail _ (.head _))) "factory_bot"
    · exact hlacks.getD_eq (.tail _ (.tail _ (.tail _ (.head _)))) true
    · have hdefault : (ofDraft draft).conventions = {} :=
        hlacks.getD_eq (.tail _ (.tail _ (.tail _ (.tail _ (.head _))))) {}
      show (ofDraft draft).conventions.Overrides ⟨[], .nil⟩
      rw [hdefault]
      exact Conventions.overrides_ofParts ⟨[], .nil⟩

/-- The documents of settings of which some parts are given. -/
def IsDocument (given : layout.Given) (document : String) : Prop :=
  ∃ before written after, Blanks before ∧ layout.Writes given.parts written ∧
    Blanks after ∧ document.toList = before ++ (written ++ after)

/-- Settings of which some are given are the default ones but for these, at both levels, in whatever
order and form a document gives them, and whatever else it holds. -/
theorem ofDocument_of_given (given : layout.Given) :
    ∃ s : Settings, s.Overrides given ∧
      ∀ document, IsDocument given document → ofDocument document = .ok s := by
  refine ⟨ofParts given, overrides_ofParts given, ?_⟩
  rintro document ⟨before, written, after, hbefore, hwritten, hafter, hdocument⟩
  rw [ofDocument, hdocument]
  exact (takes_read given hwritten).whole hbefore hafter

theorem isDocument_ofList {given : layout.Given} {written : List Char}
    (h : layout.Writes given.parts written) : IsDocument given (String.ofList written) := by
  refine ⟨[], written, [], blanks_nil, h, blanks_nil, ?_⟩
  rw [String.toList_ofList, List.nil_append, List.append_nil]

/-- The first two settings as a list and as an object with another member between them, and one word
of the conventions alone, after a member that means nothing there. -/
theorem ofDocument_of_given_partly :
    ofDocument (String.ofList (listText [quote "lib".toList, quote "rake".toList])) =
        .ok { directory := "lib", extension := "rake" } ∧
      ofDocument (String.ofList (objectText [("extension", quote "rake".toList),
          ("parallels", listText [truthText true, ['n', 'u', 'l', 'l']]),
          ("factories_dir", quote "lib".toList)])) =
        .ok { directory := "lib", extension := "rake" } ∧
      ofDocument (String.ofList (objectText [("conventions",
          objectText [("gem_name", truthText true), ("variant_keyword", quote "state".toList)])])) =
        .ok { conventions := { traitWord := "state" } } := by
  obtain ⟨s, ⟨hgiven, hdefault⟩, hread⟩ :=
    ofDocument_of_given ⟨[.directory "lib", .extension "rake"], by decide⟩
  obtain ⟨t, ⟨hgiven', hdefault'⟩, hread'⟩ :=
    ofDocument_of_given ⟨[.conventions ⟨[.traitWord "state"], by decide⟩], by decide⟩
  have hs : s = { directory := "lib", extension := "rake" } := by
    simp [layout, Part.key, Part.Holds, defaultParts, Conventions.Overrides, Layout.Overrides,
      Conventions.Part.Holds, Conventions.defaultParts] at hgiven hdefault
    obtain ⟨directory, extension, gem, parallel, receiver, method, factoryWord, traitWord⟩ := s
    simp_all
  have ht : t = { conventions := { traitWord := "state" } } := by
    simp [layout, Part.key, Part.Holds, defaultParts, Conventions.Overrides, Layout.Overrides,
      Conventions.layout, Conventions.Part.key, Conventions.Part.Holds, Conventions.defaultParts]
      at hgiven' hdefault'
    obtain ⟨directory, extension, gem, parallel, receiver, method, factoryWord, traitWord⟩ := t
    simp_all
  subst hs ht
  have hvalue : IsValue (listText [truthText true, ['n', 'u', 'l', 'l']]) := by
    apply isValue_listText
    simp only [List.forall_mem_cons]
    exact ⟨.truth true, .null, fun _ h => nomatch h⟩
  have hwords : Conventions.layout.Writes [.traitWord "state"] (objectText
      [("gem_name", truthText true), ("variant_keyword", quote "state".toList)]) :=
    Layout.writes_objectText (.refl _)
      (.other (by decide) (.truth true) (.part (isText_quote "state") .nil))
  refine ⟨hread _ (isDocument_ofList ?_), hread _ (isDocument_ofList ?_),
    hread' _ (isDocument_ofList ?_)⟩
  · apply Layout.writes_listText (by decide)
    exact .cons (isText_quote "lib") (.cons (isText_quote "rake") .nil)
  · apply Layout.writes_objectText
      (List.Perm.swap (Part.directory "lib") (Part.extension "rake") [])
    exact .part (isText_quote "rake") (.other (by decide) hvalue (.part (isText_quote "lib") .nil))
  · apply Layout.writes_objectText (.refl _)
    exact .part hwords .nil

end Settings

end FactoryRoster
