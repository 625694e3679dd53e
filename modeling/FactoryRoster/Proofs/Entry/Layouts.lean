import FactoryRoster.Proofs.Json.Items
import FactoryRoster.Proofs.Scan.Documents

/-!
# The layouts of an entry

An entry may be laid out as an object or as a list, and if it has no traits, this may be said in
three ways. All of its texts are read alike (`Entry.takes_read`). What is read is normal: it has no
empty list of traits, so it is read back from the document that is written of it.
-/

namespace FactoryRoster

open Json

namespace Entry

/-- A member of an entry that is given. -/
inductive Part where
  | name (name : String)
  /-- The traits, or `null`. -/
  | traits (traits : Option (List String))

def Part.key : Part → String
  | name _ => "name"
  | traits _ => "traits"

/-- The texts of the value of a part. -/
inductive Part.IsValue : Part → List Char → Prop
  | name {name : String} {written : List Char} (h : IsText name written) :
      IsValue (.name name) written
  | null : IsValue (.traits none) ['n', 'u', 'l', 'l']
  | list {traits : List String} {inner : List Char} (h : Listed IsText traits inner) :
      IsValue (.traits (some traits)) ('[' :: (inner ++ [']']))

def layout : Layout Part where
  keys := ["name", "traits"]
  key := Part.key
  Value := Part.IsValue

/-- The parts that may be given of an entry with some traits. That there are none is said by an
empty list, by `null`, or by saying nothing. -/
inductive IsGiven (name : String) : List String → List Part → Prop
  | list (traits : List String) : IsGiven name traits [.name name, .traits (some traits)]
  | null : IsGiven name [] [.name name, .traits none]
  | absent : IsGiven name [] [.name name]

theorem IsGiven.nodup {name : String} {traits : List String} {parts : List Part}
    (h : IsGiven name traits parts) : (parts.map layout.key).Nodup := by
  cases h <;> simp [layout, Part.key]

/-- The texts of an entry. -/
def IsWritten (name : String) (traits : List String) (written : List Char) : Prop :=
  ∃ parts, IsGiven name traits parts ∧ layout.Writes parts written

/-- The draft with one more part. -/
def Draft.put (d : Draft) : Part → Draft
  | .name name => { d with name := some name }
  | .traits traits => { d with traits := some traits }

theorem takes_part {p : Part} {written : List Char} (h : p.IsValue written)
    {field : Json.Field Draft} (hfield : field ∈ fields) (hkey : field.key = p.key) (d : Draft) :
    Takes (field.read d) written (d.put p) := by
  simp only [fields, List.mem_cons, List.not_mem_nil, or_false] at hfield
  cases h with
  | name h =>
      obtain rfl | rfl := hfield
      · exact (takes_text h).ofReader d
      · simp [Part.key, Field.ofReader] at hkey
  | null =>
      obtain rfl | rfl := hfield
      · simp [Part.key, Field.ofReader] at hkey
      · exact (takes_null _).ofReader d
  | @list traits inner h =>
      obtain rfl | rfl := hfield
      · simp [Part.key, Field.ofReader] at hkey
      · have hlist : Takes (Json.list Json.text) ('[' :: (inner ++ [']'])) (traits.map id) :=
          takes_list h (fun t _ item => takes_text) (fun t _ item => opens_isText)
        rw [List.map_id] at hlist
        exact (hlist.nullable ⟨_, _, rfl, by decide, by decide⟩ (by simp)).ofReader d

theorem readBy : layout.ReadBy fields Draft.put where
  keys := rfl
  mem p := by cases p <;> simp [layout, Part.key]
  opens := by
    intro p written hvalue
    cases hvalue with
    | name h => exact opens_isText h
    | null => exact ⟨_, _, rfl, by decide, by decide⟩
    | list h => exact ⟨_, _, rfl, by decide, by decide⟩
  takes := by
    intro field hfield p hkey written hvalue draft
    exact takes_part hvalue hfield hkey draft
  isIn_put := by
    intro field hfield p hkey draft
    simp only [fields, List.mem_cons, List.not_mem_nil, or_false] at hfield
    rcases hfield with rfl | rfl <;> cases p
    all_goals
      first
        | rfl
        | exact absurd rfl hkey
  put_comm := by
    intro p q hkey draft
    cases p <;> cases q
    all_goals
      first
        | rfl
        | exact absurd rfl hkey

theorem isIn_blank {field : Json.Field Draft} (hfield : field ∈ fields) :
    field.isIn {} = false := by
  simp only [fields, List.mem_cons, List.not_mem_nil, or_false] at hfield
  rcases hfield with rfl | rfl <;> rfl

/-- An entry is read from every one of its texts, and from all of them alike. -/
theorem takes_read {name : String} {traits : List String} {written : List Char}
    (h : IsWritten name traits written) : Takes read written (ofTraits name traits) := by
  obtain ⟨parts, hgiven, hwritten⟩ := h
  apply readBy.takes_record ⟨parts, hgiven.nodup⟩ (fun _ => isIn_blank) _ hwritten
  cases hgiven <;> rfl

theorem opens_isWritten {name : String} {traits : List String} {written : List Char}
    (h : IsWritten name traits written) : Opens written := by
  obtain ⟨parts, -, hwritten⟩ := h
  exact hwritten.opens

/-- An entry without an empty list of traits. -/
def IsNormal (e : Entry) : Prop :=
  e.traits ≠ some []

theorem yields_read : Yields read IsNormal := by
  intro cs e rest hread
  obtain ⟨draft, hdraft⟩ := yields_record _ _ _ hread
  obtain ⟨name, -, rfl⟩ := Option.map_eq_some_iff.mp hdraft
  exact traits_ofTraits_ne_some_nil _ _

theorem IsNormal.withoutEmptyList_eq {e : Entry} (h : e.IsNormal) : e.withoutEmptyList = e := by
  obtain ⟨name, traits⟩ := e
  match traits, h with
  | none, _ => rfl
  | some [], h => exact absurd rfl h
  | some (t :: ts), _ => rfl

end Entry

namespace Roster

/-- The documents of a roster of which the names and traits are given. -/
def IsDocument (entries : List (String × List String)) (document : String) : Prop :=
  ∃ before inner after, Blanks before ∧ Listed (fun e => Entry.IsWritten e.1 e.2) entries inner ∧
    Blanks after ∧ document.toList = before ++ ('[' :: (inner ++ [']']) ++ after)

theorem IsDocument.ofDocument {entries : List (String × List String)} {document : String}
    (h : IsDocument entries document) :
    ofDocument document = .ok (entries.map fun e => Entry.ofTraits e.1 e.2) := by
  obtain ⟨before, inner, after, hbefore, hinner, hafter, hdocument⟩ := h
  have hlist : Takes (list Entry.read) ('[' :: (inner ++ [']']))
      (entries.map fun e => Entry.ofTraits e.1 e.2) :=
    takes_list hinner (fun e _ item => Entry.takes_read) (fun e _ item => Entry.opens_isWritten)
  rw [Roster.ofDocument, hdocument]
  exact hlist.whole hbefore hafter

/-- A roster of normal entries is read back from its document. -/
theorem ofDocument_document_of_isNormal {entries : Roster} (h : ∀ e ∈ entries, e.IsNormal) :
    ofDocument (document entries) = .ok entries := by
  have hsame : entries.map Entry.withoutEmptyList = entries := by
    conv_rhs => rw [← List.map_id entries]
    exact List.map_congr_left fun e he => (h e he).withoutEmptyList_eq
  rw [Roster.ofDocument, Roster.document, String.toList_ofList, (reads_listText entries).whole,
    hsame]

end Roster

/-- An entry is read from every one of its texts as the entry with that name and those traits,
alone and among others. Whatever is read has no empty list of traits, and it is read back as it is
from the document that is written of it. -/
theorem ofDocument_of_layouts :
    (∀ name traits written before after, Entry.IsWritten name traits written → Blanks before →
      Blanks after →
        Entry.read.whole (before ++ (written ++ after)) = .ok (Entry.ofTraits name traits)) ∧
    (∀ entries document, Roster.IsDocument entries document →
      Roster.ofDocument document = .ok (entries.map fun e => Entry.ofTraits e.1 e.2)) ∧
    ∀ document entries, Roster.ofDocument document = .ok entries →
      (∀ e ∈ entries, e.traits ≠ some []) ∧
      Roster.ofDocument (Roster.document entries) = .ok entries := by
  refine ⟨?_, fun entries document h => h.ofDocument, ?_⟩
  · intro name traits written before after hwritten hbefore hafter
    exact (Entry.takes_read hwritten).whole hbefore hafter
  · intro document entries hread
    have hnormal : ∀ e ∈ entries, e.IsNormal := Entry.yields_read.list.whole hread
    exact ⟨hnormal, Roster.ofDocument_document_of_isNormal hnormal⟩

/-- An entry with its traits first and with two members of another key, as an object. -/
def turnedAround : List Char :=
  objectText [("traits", listText [quote "admin".toList]), ("id", listText [['n', 'u', 'l', 'l']]),
    ("id", truthText true), ("name", quote "user".toList)]

/-- An entry with `null` for its traits, as a list. -/
def listedWithNull : List Char :=
  listText [quote "post".toList, ['n', 'u', 'l', 'l']]

theorem ofDocument_of_layouts_turnedAround :
    Entry.IsWritten "user" ["admin"] turnedAround ∧
    Entry.IsWritten "post" [] listedWithNull ∧
    Entry.read.whole ([' '] ++ (turnedAround ++ ['\n'])) = .ok ⟨"user", some ["admin"]⟩ ∧
    Roster.ofDocument (String.ofList (listText [turnedAround, listedWithNull])) =
      .ok [⟨"user", some ["admin"]⟩, ⟨"post", none⟩] ∧
    Roster.ofDocument (Roster.document [⟨"user", some ["admin"]⟩, ⟨"post", none⟩]) =
      .ok [⟨"user", some ["admin"]⟩, ⟨"post", none⟩] := by
  have hid : IsValue (listText [['n', 'u', 'l', 'l']]) :=
    isValue_listText (List.forall_mem_singleton.mpr .null)
  have htraits : Listed IsText ["admin"] (separated [quote "admin".toList]) :=
    listed_separated (.cons (isText_quote "admin") .nil)
  have hobject : Entry.IsWritten "user" ["admin"] turnedAround := by
    refine ⟨_, .list _, Layout.writes_objectText (.swap (Entry.Part.name "user") _ []) ?_⟩
    exact .part (.list htraits) (.other (by decide) hid
      (.other (by decide) (.truth true) (.part (.name (isText_quote "user")) .nil)))
  have hlist : Entry.IsWritten "post" [] listedWithNull := by
    refine ⟨_, .null, Layout.writes_listText (by decide) ?_⟩
    exact .cons (.name (isText_quote "post")) (.cons .null .nil)
  have hblank : ∀ c, isBlank c = true → Blanks [c] := fun c hc =>
    List.forall_mem_singleton.mpr hc
  have hdocument : Roster.IsDocument [("user", ["admin"]), ("post", [])]
      (String.ofList (listText [turnedAround, listedWithNull])) := by
    refine ⟨[], _, [], blanks_nil, listed_separated (.cons hobject (.cons hlist .nil)),
      blanks_nil, ?_⟩
    rw [String.toList_ofList, List.nil_append, List.append_nil]
    rfl
  have hread := ofDocument_of_layouts.2.1 _ _ hdocument
  refine ⟨hobject, hlist, ?_, hread, (ofDocument_of_layouts.2.2 _ _ hread).2⟩
  exact ofDocument_of_layouts.1 _ _ _ _ _ hobject (hblank _ (by decide)) (hblank _ (by decide))

end FactoryRoster
