import FactoryRoster.Json.Record
import FactoryRoster.Proofs.Json.Strings

/-!
# Lists and objects are read as they are written

A list is read back if each of its items is (`Json.reads_list`), and an object if each of its
members is read by the field of its key, one draft after the other (`Json.ReadsMembers`).
-/

namespace FactoryRoster.Json

theorem dropBlanks_cons {c : Char} (hc : isBlank c = false) (cs : List Char) :
    dropBlanks (c :: cs) = c :: cs :=
  List.dropWhile_cons_of_neg (by simp [hc])

theorem separated_cons_cons (x y : List Char) (items : List (List Char)) :
    separated (x :: y :: items) = x ++ ',' :: separated (y :: items) := rfl

theorem length_le_separated (items : List (List Char)) :
    items.length ≤ (separated items).length + 1 := by
  induction items with
  | nil => exact Nat.zero_le _
  | cons x items ih =>
      cases items with
      | nil => simp
      | cons y items =>
          rw [separated_cons_cons]
          simp only [List.length_cons, List.length_append] at ih ⊢
          omega

theorem exists_separated_append (x : List Char) (items : List (List Char)) (rest : List Char) :
    ∃ more, separated (x :: items) ++ rest = x ++ more := by
  cases items with
  | nil => exact ⟨rest, rfl⟩
  | cons y items =>
      refine ⟨',' :: (separated (y :: items) ++ rest), ?_⟩
      rw [separated_cons_cons, List.append_assoc]
      rfl

/-- A written value that cannot be taken for a blank or for the end of a list. -/
def Opens (written : List Char) : Prop :=
  ∃ c cs, written = c :: cs ∧ isBlank c = false ∧ c ≠ ']'

theorem opens_quote (chars : List Char) : Opens (quote chars) :=
  ⟨'"', chars.flatMap escape ++ ['"'], rfl, by decide, by decide⟩

theorem opens_objectText (members : List (String × List Char)) : Opens (objectText members) :=
  ⟨'\x7b', _, rfl, by decide, by decide⟩

section Lists

variable {α β : Type} {read : Reader α} {write : β → List Char} {value : β → α}

theorem itemsWithin_separated {x : β} {xs : List β}
    (h : ∀ y ∈ x :: xs, Reads read (write y) (value y)) {count : Nat} (hcount : xs.length < count)
    (rest : List Char) :
    itemsWithin read count (separated ((x :: xs).map write) ++ ']' :: rest) =
      .ok ((x :: xs).map value, rest) := by
  induction xs generalizing x count with
  | nil =>
      obtain ⟨count, rfl⟩ := Nat.exists_eq_add_one_of_ne_zero (Nat.ne_of_gt hcount)
      have hx := h x List.mem_cons_self (']' :: rest)
      show itemsWithin read (count + 1) (write x ++ ']' :: rest) = _
      rw [itemsWithin, hx]
      rfl
  | cons y ys ih =>
      obtain ⟨count, rfl⟩ : ∃ n, count = n + 1 := ⟨count - 1, by omega⟩
      rw [List.forall_mem_cons] at h
      have hys := ih h.2 (show ys.length < count by simpa using hcount)
      have hx := h.1 (',' :: (separated ((y :: ys).map write) ++ ']' :: rest))
      have htext : separated ((x :: y :: ys).map write) ++ ']' :: rest =
          write x ++ ',' :: (separated ((y :: ys).map write) ++ ']' :: rest) := by
        rw [List.map_cons, List.map_cons, separated_cons_cons, List.append_assoc]
        rfl
      rw [htext, itemsWithin, hx]
      show (itemsWithin read count _ >>= _) = _
      rw [hys]
      rfl

theorem list_bracket (read : Reader α) (rest : List Char) :
    list read ('[' :: rest) =
      match dropBlanks rest with
      | ']' :: rest => .ok ([], rest)
      | _ => itemsWithin read (rest.length + 1) rest := rfl

/-- A list is read back if its items are. -/
theorem reads_list {xs : List β} (h : ∀ x ∈ xs, Reads read (write x) (value x))
    (hopens : ∀ x ∈ xs, Opens (write x)) :
    Reads (list read) (listText (xs.map write)) (xs.map value) := by
  intro rest
  have htext : listText (xs.map write) ++ rest =
      '[' :: (separated (xs.map write) ++ ']' :: rest) := by
    rw [listText, List.cons_append, List.append_assoc]
    rfl
  rw [htext]
  cases xs with
  | nil => rfl
  | cons x xs =>
      have hlength := length_le_separated ((x :: xs).map write)
      have hitems := itemsWithin_separated h
        (show xs.length < (separated ((x :: xs).map write) ++ ']' :: rest).length + 1 by
          simp only [List.length_map, List.length_cons, List.length_append] at hlength ⊢
          omega) rest
      obtain ⟨c, cs, hx, hblank, hend⟩ := hopens x List.mem_cons_self
      obtain ⟨more, hmore⟩ := exists_separated_append (write x) (xs.map write) (']' :: rest)
      rw [List.map_cons, hmore, hx, List.cons_append] at hitems ⊢
      rw [list_bracket, dropBlanks_cons hblank, ← hitems]
      split
      · rename_i hbracket
        exact absurd (List.cons.inj hbracket).1 hend
      · rfl

end Lists

theorem Reads.nullable {α : Type} {read : Reader α} {written : List Char} {value : α}
    (h : Reads read written value) (hnull : written.head? ≠ some 'n') (hopens : Opens written) :
    Reads (nullable read) written (some value) := by
  intro rest
  obtain ⟨c, cs, rfl, hblank, -⟩ := hopens
  have hread := h rest
  rw [List.cons_append] at hread ⊢
  rw [Json.nullable, dropBlanks_cons hblank]
  split
  · rename_i hn
    obtain ⟨rfl, -⟩ := List.cons.inj hn
    exact absurd rfl hnull
  · rw [hread]
    rfl

/-! ### Objects -/

section Objects

variable {σ α : Type} {fields : List (Field σ)}

/-- Members that are read by the fields of their keys, from one draft to another. -/
inductive ReadsMembers (fields : List (Field σ)) : σ → List (String × List Char) → σ → Prop
  | nil (draft : σ) : ReadsMembers fields draft [] draft
  | cons {draft next last : σ} {key : String} {written : List Char} {field : Field σ}
      {members : List (String × List Char)}
      (hfield : fields.find? (·.key.toList == key.toList) = some field)
      (hnew : field.isIn draft = false) (hread : Reads (field.read draft) written next)
      (hmembers : ReadsMembers fields next members last) :
      ReadsMembers fields draft ((key, written) :: members) last

/-- A member as it is written. -/
def memberText (member : String × List Char) : List Char :=
  quote member.1.toList ++ ':' :: member.2

theorem memberText_append (key : String) (written rest : List Char) :
    memberText (key, written) ++ rest =
      '"' :: (key.toList.flatMap escape ++ '"' :: ':' :: (written ++ rest)) := by
  rw [memberText, List.append_assoc, quote_append, List.cons_append]

theorem membersWithin_quote (count : Nat) (draft : σ) (rest : List Char) :
    membersWithin fields (count + 1) draft ('"' :: rest) = (do
      let (key, rest) ← quoted rest
      let (draft, rest) ←
        match fields.find? (·.key.toList == key) with
        | some field =>
          if field.isIn draft then .error .mismatched
          else do field.read draft (← dropColon rest)
        | none => do .ok (draft, ← dropValue (← dropColon rest))
      match dropBlanks rest with
      | ',' :: rest => membersWithin fields count draft rest
      | '\x7d' :: rest => .ok (draft, rest)
      | rest => .error (unexpected rest)) := rfl

/-- One member is read, with whatever comes after its value. -/
theorem membersWithin_memberText {draft next : σ} {key : String} {written : List Char}
    {field : Field σ} (hfield : fields.find? (·.key.toList == key.toList) = some field)
    (hnew : field.isIn draft = false) (hread : Reads (field.read draft) written next)
    (count : Nat) (more : List Char) :
    membersWithin fields (count + 1) draft (memberText (key, written) ++ more) =
      match dropBlanks more with
      | ',' :: rest => membersWithin fields count next rest
      | '\x7d' :: rest => .ok (next, rest)
      | rest => .error (unexpected rest) := by
  have hcolon : dropColon (':' :: (written ++ more)) = .ok (written ++ more) := rfl
  rw [memberText_append, membersWithin_quote, quoted_flatMap_escape]
  simp only [bind, Except.bind, hfield, hnew, hcolon, hread more, Bool.false_eq_true, if_false]

theorem membersWithin_separated {draft last : σ} {members : List (String × List Char)}
    (h : ReadsMembers fields draft members last) (hmembers : members ≠ []) {count : Nat}
    (hcount : members.length ≤ count) (rest : List Char) :
    membersWithin fields count draft (separated (members.map memberText) ++ '\x7d' :: rest) =
      .ok (last, rest) := by
  induction h generalizing count with
  | nil draft => exact absurd rfl hmembers
  | @cons draft next last key written field members hfield hnew hread hmore ih =>
      obtain ⟨count, rfl⟩ : ∃ n, count = n + 1 := ⟨count - 1, by
        rw [List.length_cons] at hcount
        omega⟩
      have hstep := membersWithin_memberText hfield hnew hread count
      cases members with
      | nil =>
          cases hmore with
          | nil => exact hstep _
      | cons member members =>
          have htext : separated (((key, written) :: member :: members).map memberText) ++
              '\x7d' :: rest = memberText (key, written) ++
                ',' :: (separated ((member :: members).map memberText) ++ '\x7d' :: rest) := by
            rw [List.map_cons, List.map_cons, separated_cons_cons, List.append_assoc]
            rfl
          rw [htext, hstep, dropBlanks_cons (by decide)]
          exact ih (by simp) (by simpa using hcount)

theorem record_brace (blank : σ) (finish : σ → Option α) (rest : List Char) :
    record fields blank finish ('\x7b' :: rest) = (do
      let (draft, rest) ←
        match dropBlanks rest with
        | '\x7d' :: rest => .ok (blank, rest)
        | _ => membersWithin fields (rest.length + 1) blank rest
      match finish draft with
      | some value => .ok (value, rest)
      | none => .error .mismatched) := rfl

/-- An object is read back if its members are, and if a value can be made of what they say. -/
theorem reads_record {blank last : σ} {finish : σ → Option α} {value : α}
    {members : List (String × List Char)} (h : ReadsMembers fields blank members last)
    (hmembers : members ≠ []) (hfinish : finish last = some value) :
    Reads (record fields blank finish) (objectText members) value := by
  intro rest
  have htext : objectText members ++ rest =
      '\x7b' :: (separated (members.map memberText) ++ '\x7d' :: rest) := by
    rw [objectText, List.cons_append, List.append_assoc]
    rfl
  have hlength := length_le_separated (members.map memberText)
  have hread := membersWithin_separated h hmembers
    (show members.length ≤ (separated (members.map memberText) ++ '\x7d' :: rest).length + 1 by
      simp only [List.length_map, List.length_cons, List.length_append] at hlength ⊢
      omega) rest
  have hfirst : ∃ more, separated (members.map memberText) ++ '\x7d' :: rest = '"' :: more := by
    obtain ⟨⟨key, written⟩, members, rfl⟩ := List.exists_cons_of_ne_nil hmembers
    obtain ⟨more, hmore⟩ := exists_separated_append (memberText (key, written))
      (members.map memberText) ('\x7d' :: rest)
    rw [List.map_cons, hmore]
    exact ⟨_, memberText_append key written more⟩
  obtain ⟨more, hmore⟩ := hfirst
  rw [hmore] at hread
  have hbrace : dropBlanks ('"' :: more) = '"' :: more := rfl
  rw [htext, record_brace, hmore, hbrace]
  show (membersWithin fields _ blank ('"' :: more) >>= _) = _
  rw [hread]
  simp only [bind, Except.bind, hfinish]

theorem Reads.ofReader {key : String} {read : Reader α} {get : σ → Option α} {set : σ → α → σ}
    {written : List Char} {value : α} (h : Reads read written value) (draft : σ) :
    Reads ((Field.ofReader key read get set).read draft) written (set draft value) := by
  intro rest
  show (read (written ++ rest)).map _ = _
  rw [h rest]
  rfl

end Objects

theorem Reads.whole {α : Type} {read : Reader α} {written : List Char} {value : α}
    (h : Reads read written value) : read.whole written = .ok value := by
  have hread := h []
  rw [List.append_nil] at hread
  rw [Reader.whole, hread]
  rfl

end FactoryRoster.Json
