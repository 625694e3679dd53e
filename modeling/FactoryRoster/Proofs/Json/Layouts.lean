import Mathlib.Data.List.Nodup
import FactoryRoster.Proofs.Json.Grammar

/-!
# The layouts of a record

A record of which some parts are given is written as an object, with members of other keys anywhere
between the parts, or as a list, if the parts are those of its first fields (`Json.Layout.Writes`).
Either way it is read to the draft into which its parts have been put.
-/

namespace FactoryRoster.Json

/-- Whether a reader takes a value off the front of any text, with any blanks before it. -/
def Takes {α : Type} (read : Reader α) (written : List Char) (value : α) : Prop :=
  ∀ ⦃before : List Char⦄, Blanks before → ∀ rest,
    read (before ++ (written ++ rest)) = .ok (value, rest)

theorem Takes.whole {α : Type} {read : Reader α} {written : List Char} {value : α}
    (h : Takes read written value) {before after : List Char} (hbefore : Blanks before)
    (hafter : Blanks after) : read.whole (before ++ (written ++ after)) = .ok value := by
  have hend : dropBlanks after = [] := by
    have hdrop := dropBlanks_append hafter []
    rw [List.append_nil] at hdrop
    rw [hdrop]
    rfl
  rw [Reader.whole, h hbefore after]
  simp only [bind, Except.bind, hend]
  rfl

/-- The texts of a string. -/
def IsText (s : String) (written : List Char) : Prop :=
  ∃ body, Spells s.toList body ∧ written = '"' :: (body ++ ['"'])

theorem isText_quote (s : String) : IsText s (quote s.toList) :=
  ⟨s.toList.flatMap escape, spells_flatMap_escape s.toList, rfl⟩

theorem opens_isText {s : String} {written : List Char} (h : IsText s written) : Opens written := by
  obtain ⟨body, -, rfl⟩ := h
  exact ⟨_, _, rfl, by decide, by decide⟩

theorem takes_text {s : String} {written : List Char} (h : IsText s written) :
    Takes text written s := by
  obtain ⟨body, hbody, rfl⟩ := h
  intro before hbefore rest
  have hquoted := hbody.quoted rest
  rw [List.cons_append, List.append_assoc, text, dropBlanks_append_cons hbefore (by decide)]
  show (quoted (body ++ '"' :: rest)).map _ = _
  rw [hquoted, Except.map]
  simp only [String.ofList_toList]

theorem takes_truth (b : Bool) : Takes truth (truthText b) b := by
  intro before hbefore rest
  cases b <;>
  · rw [truth, truthText, List.cons_append, dropBlanks_append_cons hbefore (by decide)]
    rfl

theorem Takes.ofReader {σ α : Type} {key : String} {read : Reader α} {get : σ → Option α}
    {set : σ → α → σ} {written : List Char} {value : α} (h : Takes read written value)
    (draft : σ) :
    Takes ((Field.ofReader key read get set).read draft) written (set draft value) := by
  intro before hbefore rest
  show (read (before ++ (written ++ rest))).map _ = _
  rw [h hbefore rest]
  rfl

/-! ### Objects -/

section Objects

variable {σ α : Type} {fields : List (Field σ)}

/-- One member takes one draft to the next, or it is passed over. -/
inductive Gathers (fields : List (Field σ)) : σ → List Char × List Char → σ → Prop
  | field {draft next : σ} {key written : List Char} {field : Field σ}
      (hfield : fields.find? (·.key.toList == key) = some field)
      (hnew : field.isIn draft = false) (hread : Takes (field.read draft) written next) :
      Gathers fields draft (key, written) next
  | other {draft : σ} {key written : List Char}
      (hfield : fields.find? (·.key.toList == key) = none) (hvalue : IsValue written) :
      Gathers fields draft (key, written) draft

/-- Members take one draft to another, one after the other. -/
inductive GathersAll (fields : List (Field σ)) : σ → List (List Char × List Char) → σ → Prop
  | nil (draft : σ) : GathersAll fields draft [] draft
  | cons {draft next last : σ} {member : List Char × List Char}
      {members : List (List Char × List Char)} (hmember : Gathers fields draft member next)
      (hmembers : GathersAll fields next members last) :
      GathersAll fields draft (member :: members) last

/-- Reads what comes after a member. -/
def membersAfter (fields : List (Field σ)) (count : Nat) (draft : σ) : Reader σ := fun cs =>
  match dropBlanks cs with
  | ',' :: rest => membersWithin fields count draft rest
  | '\x7d' :: rest => .ok (draft, rest)
  | rest => .error (unexpected rest)

theorem membersAfter_comma (count : Nat) (draft : σ) {gap : List Char} (hgap : Blanks gap)
    (rest : List Char) :
    membersAfter fields count draft (gap ++ ',' :: rest) =
      membersWithin fields count draft rest := by
  rw [membersAfter, dropBlanks_append_cons hgap (by decide)]
  rfl

theorem membersAfter_brace (count : Nat) (draft : σ) {gap : List Char} (hgap : Blanks gap)
    (rest : List Char) :
    membersAfter fields count draft (gap ++ '\x7d' :: rest) = .ok (draft, rest) := by
  rw [membersAfter, dropBlanks_append_cons hgap (by decide)]
  rfl

theorem membersWithin_isMember {draft next : σ} {member : List Char × List Char}
    (h : Gathers fields draft member next) {written : List Char}
    (hmember : IsMember Spells member written) {before rest : List Char} (hbefore : Blanks before)
    (hrest : Ends rest) (count : Nat) :
    membersWithin fields (count + 1) draft (before ++ (written ++ rest)) =
      membersAfter fields count next rest := by
  cases hmember with
  | @mk key body gap gap' value hbody hgap hgap' =>
      have htext : '"' :: (body ++ '"' :: (gap ++ ':' :: (gap' ++ value))) ++ rest =
          '"' :: (body ++ '"' :: (gap ++ ':' :: (gap' ++ (value ++ rest)))) := by simp
      have hcolon : dropColon (gap ++ ':' :: (gap' ++ (value ++ rest))) =
          .ok (gap' ++ (value ++ rest)) := by
        rw [dropColon, dropBlanks_append_cons hgap (by decide)]
        rfl
      have hquote : membersWithin fields (count + 1) draft
          (before ++ '"' :: (body ++ '"' :: (gap ++ ':' :: (gap' ++ (value ++ rest))))) =
          membersWithin fields (count + 1) draft
            ('"' :: (body ++ '"' :: (gap ++ ':' :: (gap' ++ (value ++ rest))))) := by
        rw [membersWithin, membersWithin, dropBlanks_append_cons hbefore (by decide),
          dropBlanks_cons (by decide)]
      rw [htext, hquote, membersWithin_quote, hbody.quoted]
      cases h with
      | field hfield hnew hread =>
          simp only [bind, Except.bind, hfield, hnew, hcolon, hread hgap', Bool.false_eq_true,
            if_false]
          rfl
      | other hfield hvalue =>
          simp only [bind, Except.bind, hfield, hcolon, hvalue.dropValue hgap' hrest]
          rfl

theorem membersWithin_listed {draft last : σ} {members : List (List Char × List Char)}
    {inner : List Char} (hinner : Listed (IsMember Spells) members inner) (hne : members ≠ [])
    (h : GathersAll fields draft members last) {count : Nat} (hcount : members.length ≤ count)
    (rest : List Char) :
    membersWithin fields count draft (inner ++ '\x7d' :: rest) = .ok (last, rest) := by
  induction hinner generalizing draft count with
  | nil hgap => exact absurd rfl hne
  | @single member before written after hbefore hmember hafter =>
      obtain ⟨count, rfl⟩ := Nat.exists_eq_add_one_of_ne_zero (Nat.ne_zero_of_lt hcount)
      cases h with
      | cons hgathers hnil =>
          cases hnil
          rw [List.append_assoc, List.append_assoc,
            membersWithin_isMember hgathers hmember hbefore
              (Ends.append_cons hafter (.inr (.inr rfl)) rest),
            membersAfter_brace count _ hafter]
  | @cons member next members before written after more hbefore hmember hafter hmore ih =>
      obtain ⟨count, rfl⟩ := Nat.exists_eq_add_one_of_ne_zero (Nat.ne_zero_of_lt hcount)
      cases h with
      | cons hgathers hall =>
          have hrest := ih (by simp) hall (show _ ≤ count by simpa using hcount)
          rw [List.append_assoc, List.append_assoc, List.append_assoc, List.cons_append,
            membersWithin_isMember hgathers hmember hbefore
              (Ends.append_cons hafter (.inl rfl) (more ++ '\x7d' :: rest)),
            membersAfter_comma count _ hafter]
          exact hrest

theorem Listed.length_le {ι : Type} {Item : ι → List Char → Prop} {xs : List ι}
    {inner : List Char} (h : Listed Item xs inner) : xs.length ≤ inner.length + 1 := by
  induction h with
  | nil hgap => exact Nat.zero_le _
  | single hbefore hitem hafter => simp
  | cons hbefore hitem hafter hmore ih =>
      simp only [List.length_cons, List.length_append] at ih ⊢
      omega

variable {blank last : σ} {finish : σ → Option α} {value : α}

theorem takes_record_object {members : List (List Char × List Char)} {inner : List Char}
    (h : GathersAll fields blank members last) (hinner : Listed (IsMember Spells) members inner)
    (hfinish : finish last = some value) :
    Takes (record fields blank finish) ('\x7b' :: (inner ++ ['\x7d'])) value := by
  intro before hbefore rest
  have hbrace : record fields blank finish (before ++ '\x7b' :: (inner ++ '\x7d' :: rest)) =
      record fields blank finish ('\x7b' :: (inner ++ '\x7d' :: rest)) := by
    rw [record, record, dropBlanks_append_cons hbefore (by decide), dropBlanks_cons (by decide)]
    rfl
  rw [List.cons_append, List.append_assoc, List.singleton_append, hbrace, record_brace]
  cases members with
  | nil =>
      cases h
      rw [hinner.dropBlanks_nil (by decide)]
      simp only [bind, Except.bind, hfinish]
  | cons member members =>
      have hlength := hinner.length_le
      have hread := membersWithin_listed hinner (by simp) h
        (show _ ≤ (inner ++ '\x7d' :: rest).length + 1 by
          rw [List.length_append]
          omega) rest
      obtain ⟨item, more, hmember, hdrop⟩ := hinner.dropBlanks_cons ('\x7d' :: rest)
      obtain ⟨cs, rfl⟩ := hmember.exists_quote
      rw [hdrop _ _ rfl (by decide)]
      show (membersWithin fields _ blank (inner ++ '\x7d' :: rest) >>= _) = _
      rw [hread]
      simp only [bind, Except.bind, hfinish]

end Objects

/-! ### The parts of a record -/

/-- How the parts of a record are written. -/
structure Layout (π : Type) where
  /-- The keys of the record, in the order of its fields. -/
  keys : List String
  /-- The key of a part. -/
  key : π → String
  /-- The texts of the value of a part. -/
  Value : π → List Char → Prop

namespace Layout

/-- Parts of a record, each of them given once. -/
structure Given {π : Type} (L : Layout π) where
  parts : List π
  nodup : (parts.map L.key).Nodup

/-- Members that give the parts in their order, with any members of other keys between them. -/
inductive Members {π : Type} (L : Layout π) : List π → List (List Char × List Char) → Prop
  | nil : Members L [] []
  | part {p : π} {ps : List π} {written : List Char} {members : List (List Char × List Char)}
      (hvalue : L.Value p written) (h : Members L ps members) :
      Members L (p :: ps) (((L.key p).toList, written) :: members)
  | other {key written : List Char} {ps : List π} {members : List (List Char × List Char)}
      (hkey : ∀ k ∈ L.keys, k.toList ≠ key) (hvalue : IsValue written) (h : Members L ps members) :
      Members L ps ((key, written) :: members)

/-- The texts of a record of which `parts` are given: objects with the parts in any order, and, if
they are the first in the order of the fields, lists. -/
inductive Writes {π : Type} (L : Layout π) (parts : List π) : List Char → Prop
  | object {ordered : List π} {members : List (List Char × List Char)} {inner : List Char}
      (hordered : ordered.Perm parts) (hmembers : L.Members ordered members)
      (hinner : Listed (IsMember Spells) members inner) :
      Writes L parts ('\x7b' :: (inner ++ ['\x7d']))
  | list {inner : List Char} (hkeys : parts.map L.key <+: L.keys)
      (hinner : Listed L.Value parts inner) : Writes L parts ('[' :: (inner ++ [']']))

theorem Writes.opens {π : Type} {L : Layout π} {parts : List π} {written : List Char}
    (h : L.Writes parts written) : Opens written := by
  cases h with
  | object hordered hmembers hinner => exact ⟨_, _, rfl, by decide, by decide⟩
  | list hkeys hinner => exact ⟨_, _, rfl, by decide, by decide⟩

/-- What is the case for the given parts, and for the default of every other key. -/
def Overrides {π : Type} (L : Layout π) (defaults : List π) (Holds : π → Prop) (parts : List π) :
    Prop :=
  (∀ p ∈ parts, Holds p) ∧ ∀ p ∈ defaults, L.key p ∉ parts.map L.key → Holds p

/-- What the fields of a record have to do with its layout: each reads the parts of its key, and
parts of different keys do not touch each other. -/
structure ReadBy {π σ : Type} (L : Layout π) (fields : List (Field σ)) (put : σ → π → σ) :
    Prop where
  keys : fields.map Field.key = L.keys
  mem : ∀ p, L.key p ∈ L.keys
  opens : ∀ {p written}, L.Value p written → Opens written
  takes : ∀ {field}, field ∈ fields → ∀ {p}, field.key = L.key p → ∀ {written},
    L.Value p written → ∀ draft, Takes (field.read draft) written (put draft p)
  isIn_put : ∀ {field}, field ∈ fields → ∀ {p}, field.key ≠ L.key p → ∀ draft,
    field.isIn (put draft p) = field.isIn draft
  put_comm : ∀ {p q}, L.key p ≠ L.key q → ∀ draft,
    put (put draft p) q = put (put draft q) p

end Layout

section Parts

variable {π σ α : Type} {L : Layout π} {fields : List (Field σ)} {put : σ → π → σ}

theorem Layout.ReadBy.exists_field (h : L.ReadBy fields put) (p : π) :
    ∃ field ∈ fields, field.key = L.key p ∧
      fields.find? (·.key.toList == (L.key p).toList) = some field := by
  have hkey := h.mem p
  rw [← h.keys, List.mem_map] at hkey
  obtain ⟨known, hknown, hkeyKnown⟩ := hkey
  have hsome : (fields.find? (·.key.toList == (L.key p).toList)).isSome = true := by
    rw [List.find?_isSome]
    exact ⟨known, hknown, by rw [hkeyKnown, beq_self_eq_true]⟩
  obtain ⟨field, hfield⟩ := Option.isSome_iff_exists.mp hsome
  have hsame := List.find?_some hfield
  rw [beq_iff_eq, String.toList_inj] at hsame
  exact ⟨field, List.mem_of_find?_eq_some hfield, hsame, hfield⟩

theorem Layout.ReadBy.find?_other (h : L.ReadBy fields put) {key : List Char}
    (hkey : ∀ k ∈ L.keys, k.toList ≠ key) : fields.find? (·.key.toList == key) = none := by
  rw [List.find?_eq_none]
  intro field hfield
  rw [beq_iff_eq]
  apply hkey
  rw [← h.keys]
  exact List.mem_map_of_mem hfield

/-- Whether a draft has none of the fields of some keys. -/
def Lacks (fields : List (Field σ)) (draft : σ) (key : String) : Prop :=
  ∀ field ∈ fields, field.key = key → field.isIn draft = false

/-- A field that a draft lacks is taken from elsewhere. -/
theorem Lacks.getD_eq {β : Type} {draft : σ} {key : String} (h : Lacks fields draft key)
    {read : Reader β} {get : σ → Option β} {set : σ → β → σ}
    (hfield : Field.ofReader key read get set ∈ fields) (default : β) :
    (get draft).getD default = default := by
  have hnone : (get draft).isSome = false := h _ hfield rfl
  cases hget : get draft with
  | none => rfl
  | some value =>
      rw [hget] at hnone
      cases hnone

theorem Layout.ReadBy.lacks_put (h : L.ReadBy fields put) {draft : σ} {key : String} {p : π}
    (hlacks : Lacks fields draft key) (hne : key ≠ L.key p) : Lacks fields (put draft p) key := by
  intro field hfield hkey
  subst hkey
  rw [h.isIn_put hfield hne]
  exact hlacks field hfield rfl

theorem Layout.ReadBy.lacks_foldl (h : L.ReadBy fields put) {parts : List π} {draft : σ}
    {key : String} (hlacks : Lacks fields draft key) (hkey : key ∉ parts.map L.key) :
    Lacks fields (parts.foldl put draft) key := by
  induction parts generalizing draft with
  | nil => exact hlacks
  | cons p parts ih =>
      rw [List.map_cons, List.mem_cons, not_or] at hkey
      exact ih (h.lacks_put hlacks hkey.1) hkey.2

theorem Layout.ReadBy.gathersAll (h : L.ReadBy fields put) {parts : List π}
    {members : List (List Char × List Char)} (hmembers : L.Members parts members)
    (hnodup : (parts.map L.key).Nodup) {draft : σ}
    (hlacks : ∀ p ∈ parts, Lacks fields draft (L.key p)) :
    GathersAll fields draft members (parts.foldl put draft) := by
  induction hmembers generalizing draft with
  | nil => exact .nil draft
  | @part p ps written members hvalue hmembers ih =>
      obtain ⟨field, hfield, hkey, hfind⟩ := h.exists_field p
      rw [List.forall_mem_cons] at hlacks
      rw [List.map_cons, List.nodup_cons] at hnodup
      apply GathersAll.cons
      · exact .field hfind (hlacks.1 field hfield hkey) (h.takes hfield hkey hvalue draft)
      · apply ih hnodup.2
        intro q hq
        apply h.lacks_put (hlacks.2 q hq)
        intro heq
        exact hnodup.1 (heq ▸ List.mem_map_of_mem hq)
  | other hkey hvalue hmembers ih =>
      exact .cons (.other (h.find?_other hkey) hvalue) (ih hnodup hlacks)

/-- Parts that are put into a draft in another order make the same draft. -/
theorem Layout.ReadBy.foldl_perm (h : L.ReadBy fields put) {ps qs : List π} (hperm : ps.Perm qs)
    (hnodup : (ps.map L.key).Nodup) (draft : σ) : ps.foldl put draft = qs.foldl put draft := by
  apply hperm.foldl_eq'
  intro p hp q hq d
  by_cases hkey : L.key p = L.key q
  · rw [List.inj_on_of_nodup_map hnodup hp hq hkey]
  · exact h.put_comm hkey d

/-! ### Lists -/

/-- What stands before an item of a list: a comma, but nothing before the first one. -/
inductive Leading : Bool → List Char → Prop
  | first : Leading true []
  | comma {gap : List Char} (hgap : Blanks gap) : Leading false (gap ++ [','])

theorem itemsInOrder_item {field : Field σ} {draft next : σ} {item : List Char}
    (hread : Takes (field.read draft) item next) (hopens : Opens item) {first : Bool}
    {lead before : List Char} (hlead : Leading first lead) (hbefore : Blanks before)
    (later : List (Field σ)) (rest : List Char) :
    itemsInOrder first (field :: later) draft (lead ++ (before ++ (item ++ rest))) =
      itemsInOrder false later next rest := by
  cases hlead with
  | first =>
      obtain ⟨c, cs, rfl, hblank, hend⟩ := hopens
      have hfield := hread blanks_nil rest
      rw [List.nil_append, List.cons_append] at hfield
      rw [List.nil_append, List.cons_append, itemsInOrder, dropBlanks_append_cons hbefore hblank]
      split
      · rename_i heq
        exact absurd (List.cons.inj heq).1 hend
      · rename_i heq
        cases heq
      · rename_i heq
        obtain ⟨rfl, rfl⟩ := List.cons.inj heq
        rw [if_pos rfl, hfield]
        rfl
  | comma hgap =>
      rw [List.append_assoc, itemsInOrder, List.singleton_append,
        dropBlanks_append_cons hgap (by decide)]
      show ((field.read draft (before ++ (item ++ rest))) >>= _) = _
      rw [hread hbefore rest]
      rfl

theorem itemsInOrder_end (later : List (Field σ)) (draft : σ) (first : Bool) {gap : List Char}
    (hgap : Blanks gap) (rest : List Char) :
    ∃ tail, itemsInOrder first later draft (gap ++ ']' :: rest) = .ok (draft, tail) ∧
      dropBlanks tail = ']' :: rest := by
  cases later with
  | nil => exact ⟨_, rfl, dropBlanks_append_cons hgap (by decide) rest⟩
  | cons field later =>
      refine ⟨']' :: rest, ?_, dropBlanks_cons (by decide) rest⟩
      rw [itemsInOrder, dropBlanks_append_cons hgap (by decide)]
      rfl

theorem Layout.ReadBy.itemsInOrder_listed (h : L.ReadBy fields put) {parts : List π}
    {inner : List Char} (hinner : Listed L.Value parts inner) {later : List (Field σ)}
    (hlater : ∀ field ∈ later, field ∈ fields)
    (hkeys : parts.map L.key <+: later.map Field.key) {first : Bool} {lead : List Char}
    (hlead : Leading first lead) (hfirst : parts = [] → first = true) (draft : σ)
    (rest : List Char) :
    ∃ tail, itemsInOrder first later draft (lead ++ (inner ++ ']' :: rest)) =
      .ok (parts.foldl put draft, tail) ∧ dropBlanks tail = ']' :: rest := by
  induction hinner generalizing later first lead draft with
  | @nil gap hgap =>
      obtain rfl := hfirst rfl
      cases hlead
      exact itemsInOrder_end later draft true hgap rest
  | @single p before item after hbefore hitem hafter =>
      cases later with
      | nil => simp at hkeys
      | cons field later =>
          rw [List.map_cons, List.map_cons, List.cons_prefix_cons] at hkeys
          have hread := h.takes (hlater field List.mem_cons_self) hkeys.1.symm hitem draft
          rw [List.append_assoc, List.append_assoc,
            itemsInOrder_item hread (h.opens hitem) hlead hbefore]
          exact itemsInOrder_end later (put draft p) false hafter rest
  | @cons p q ps before item after more hbefore hitem hafter hmore ih =>
      cases later with
      | nil => simp at hkeys
      | cons field later =>
          rw [List.forall_mem_cons] at hlater
          simp only [List.map_cons, List.cons_prefix_cons] at hkeys
          have hread := h.takes hlater.1 hkeys.1.symm hitem draft
          obtain ⟨tail, htail, hend⟩ := ih hlater.2 hkeys.2 (.comma hafter) (by simp) (put draft p)
          refine ⟨tail, ?_, hend⟩
          rw [List.append_assoc, List.append_assoc, List.append_assoc, List.cons_append,
            itemsInOrder_item hread (h.opens hitem) hlead hbefore]
          rw [List.append_assoc, List.singleton_append] at htail
          exact htail

variable {blank : σ} {finish : σ → Option α} {value : α}

theorem record_bracket {before : List Char} (hbefore : Blanks before) (rest : List Char) :
    record fields blank finish (before ++ '[' :: rest) = (do
      let (draft, rest) ← itemsInOrder true fields blank rest
      match finish draft with
      | none => .error .mismatched
      | some value =>
        match dropBlanks rest with
        | ']' :: rest => .ok (value, rest)
        | rest => .error (unexpected rest)) := by
  rw [record, dropBlanks_append_cons hbefore (by decide)]
  rfl

/-- A record is read from every one of its texts, and from all of them alike. -/
theorem Layout.ReadBy.takes_record (h : L.ReadBy fields put) (given : L.Given)
    (hblank : ∀ field ∈ fields, field.isIn blank = false)
    (hfinish : finish (given.parts.foldl put blank) = some value) {written : List Char}
    (hwritten : L.Writes given.parts written) :
    Takes (record fields blank finish) written value := by
  cases hwritten with
  | @object ordered members inner hordered hmembers hinner =>
      have hnodup : (ordered.map L.key).Nodup :=
        ((hordered.map L.key).nodup_iff).mpr given.nodup
      rw [← h.foldl_perm hordered hnodup] at hfinish
      apply takes_record_object _ hinner hfinish
      apply h.gathersAll hmembers hnodup
      intro p hp field hfield hkey
      exact hblank field hfield
  | @list inner hkeys hinner =>
      intro before hbefore rest
      rw [← h.keys] at hkeys
      obtain ⟨tail, htail, hend⟩ := h.itemsInOrder_listed hinner (fun field hfield => hfield) hkeys
        .first (fun _ => rfl) blank rest
      rw [List.nil_append] at htail
      rw [List.cons_append, List.append_assoc, List.singleton_append, record_bracket hbefore, htail]
      simp only [bind, Except.bind, hfinish, hend]

/-- What has been put in stands in the record, and so does the default of whatever has not. -/
theorem Layout.ReadBy.overrides (h : L.ReadBy fields put) (given : L.Given)
    (hblank : ∀ field ∈ fields, field.isIn blank = false) {make : σ → α} {Holds : α → π → Prop}
    {defaults : List π} (hput : ∀ draft p, Holds (make (put draft p)) p)
    (hdefault : ∀ p ∈ defaults, ∀ draft, Lacks fields draft (L.key p) → Holds (make draft) p) :
    L.Overrides defaults (Holds (make (given.parts.foldl put blank))) given.parts := by
  constructor
  · intro p hp
    obtain ⟨before, after, hparts⟩ := List.append_of_mem hp
    -- any given part may be taken to be the last one that is put in
    have hlast : given.parts.Perm (before ++ after ++ [p]) := by
      rw [hparts]
      exact List.perm_middle.trans (List.perm_append_singleton p (before ++ after)).symm
    rw [h.foldl_perm hlast given.nodup, List.foldl_append]
    exact hput _ p
  · intro p hp hkey
    apply hdefault p hp
    apply h.lacks_foldl _ hkey
    intro field hfield _
    exact hblank field hfield

/-! ### Texts without blanks -/

theorem listed_separated {ι : Type} {Item : ι → List Char → Prop} {xs : List ι}
    {items : List (List Char)} (h : List.Forall₂ Item xs items) :
    Listed Item xs (separated items) := by
  induction h with
  | nil => exact .nil blanks_nil
  | @cons x item xs items hitem hmore ih =>
      cases hmore with
      | nil =>
          rw [separated, ← List.append_nil item]
          exact .single blanks_nil hitem blanks_nil
      | cons hnext hmore =>
          rw [separated_cons_cons]
          exact .cons blanks_nil hitem blanks_nil ih

theorem isMember_memberText (key : String) (written : List Char) :
    IsMember Spells (key.toList, written) (memberText (key, written)) := by
  have hmember : IsMember Spells (key.toList, written) _ :=
    .mk (spells_flatMap_escape key.toList) blanks_nil blanks_nil
  have htext : memberText (key, written) =
      '"' :: (key.toList.flatMap escape ++ '"' :: ([] ++ ':' :: ([] ++ written))) := by
    rw [memberText, quote_append]
    rfl
  rw [htext]
  exact hmember

theorem isValue_listText {items : List (List Char)} (h : ∀ item ∈ items, IsValue item) :
    IsValue (listText items) :=
  .list h (listed_separated (List.forall₂_refl items))

theorem Layout.writes_listText {parts : List π} {items : List (List Char)}
    (hkeys : parts.map L.key <+: L.keys) (h : List.Forall₂ L.Value parts items) :
    L.Writes parts (listText items) :=
  .list hkeys (listed_separated h)

theorem Layout.writes_objectText {ordered parts : List π} {members : List (String × List Char)}
    (hordered : ordered.Perm parts)
    (hmembers : L.Members ordered (members.map fun (key, written) => (key.toList, written))) :
    L.Writes parts (objectText members) := by
  apply Layout.Writes.object hordered hmembers
  apply listed_separated
  rw [List.forall₂_map_left_iff, List.forall₂_map_right_iff, List.forall₂_same]
  intro member hmember
  exact isMember_memberText member.1 member.2

end Parts

end FactoryRoster.Json
