import FactoryRoster.Proofs.Json.Layouts

/-!
# Lists in any layout, and what readers yield

A list is read from every one of its texts if each of its items is, and so is a value that may be
`null` (`Json.takes_list`, `Json.Takes.nullable`). The other way round, what a reader of lists or of
records takes from a text is made of what the readers of the parts can yield (`Json.Yields`),
whatever the text says.
-/

namespace FactoryRoster.Json

section Layouts

variable {ι α : Type} {Item : ι → List Char → Prop} {read : Reader α} {value : ι → α} {xs : List ι}
  {inner : List Char}

theorem itemsWithin_listed (hinner : Listed Item xs inner) (hne : xs ≠ [])
    (hitems : ∀ x ∈ xs, ∀ item, Item x item → Takes read item (value x)) {count : Nat}
    (hcount : xs.length ≤ count) (rest : List Char) :
    itemsWithin read count (inner ++ ']' :: rest) = .ok (xs.map value, rest) := by
  induction hinner generalizing count with
  | nil hgap => exact absurd rfl hne
  | @single x before item after hbefore hitem hafter =>
      obtain ⟨count, rfl⟩ := Nat.exists_eq_add_one_of_ne_zero (Nat.ne_zero_of_lt hcount)
      have hread := hitems x List.mem_cons_self item hitem hbefore (after ++ ']' :: rest)
      rw [List.append_assoc, List.append_assoc, itemsWithin, hread]
      simp only [bind, Except.bind, dropBlanks_append_cons hafter (by decide : isBlank ']' = false)]
      rfl
  | @cons x y xs before item after more hbefore hitem hafter hmore ih =>
      obtain ⟨count, rfl⟩ := Nat.exists_eq_add_one_of_ne_zero (Nat.ne_zero_of_lt hcount)
      rw [List.forall_mem_cons] at hitems
      have hread := hitems.1 item hitem hbefore (after ++ ',' :: (more ++ ']' :: rest))
      have hrest := ih (by simp) hitems.2 (show _ ≤ count by simpa using hcount)
      rw [List.append_assoc, List.append_assoc, List.append_assoc, List.cons_append, itemsWithin,
        hread]
      simp only [bind, Except.bind, dropBlanks_append_cons hafter (by decide : isBlank ',' = false),
        hrest]
      rfl

/-- A list is read from every one of its texts if its items are. -/
theorem takes_list (hinner : Listed Item xs inner)
    (hitems : ∀ x ∈ xs, ∀ item, Item x item → Takes read item (value x))
    (hopens : ∀ x ∈ xs, ∀ item, Item x item → Opens item) :
    Takes (list read) ('[' :: (inner ++ [']'])) (xs.map value) := by
  intro before hbefore rest
  have hbracket : list read (before ++ '[' :: (inner ++ ']' :: rest)) =
      list read ('[' :: (inner ++ ']' :: rest)) := by
    rw [list, list, dropBlanks_append_cons hbefore (by decide), dropBlanks_cons (by decide)]
    rfl
  rw [List.cons_append, List.append_assoc, List.singleton_append, hbracket, list_bracket]
  cases xs with
  | nil =>
      rw [hinner.dropBlanks_nil (by decide)]
      rfl
  | cons x xs =>
      have hlength := hinner.length_le
      have hread := itemsWithin_listed hinner (by simp) hitems
        (show _ ≤ (inner ++ ']' :: rest).length + 1 by
          rw [List.length_append]
          omega) rest
      obtain ⟨item, more, hitem, hdrop⟩ := hinner.dropBlanks_cons (']' :: rest)
      obtain ⟨c, cs, hfirst, hblank, hend⟩ := hopens x List.mem_cons_self item hitem
      rw [hdrop c cs hfirst hblank]
      split
      · rename_i heq
        exact absurd (List.cons.inj heq).1 hend
      · exact hread

theorem takes_null (read : Reader α) : Takes (nullable read) ['n', 'u', 'l', 'l'] none := by
  intro before hbefore rest
  rw [nullable, List.cons_append, dropBlanks_append_cons hbefore (by decide)]
  rfl

theorem Takes.nullable {written : List Char} {v : α} (h : Takes read written v)
    (hopens : Opens written) (hnull : written.head? ≠ some 'n') :
    Takes (nullable read) written (some v) := by
  intro before hbefore rest
  obtain ⟨c, cs, rfl, hblank, -⟩ := hopens
  have hread := h hbefore rest
  rw [List.cons_append] at hread ⊢
  rw [Json.nullable, dropBlanks_append_cons hbefore hblank]
  split
  · rename_i heq
    obtain ⟨rfl, -⟩ := List.cons.inj heq
    exact absurd rfl hnull
  · rw [hread]
    rfl

end Layouts

/-! ### What readers yield -/

/-- Whether everything that a reader can take from a text is of one kind. -/
def Yields {α : Type} (read : Reader α) (Kind : α → Prop) : Prop :=
  ∀ ⦃cs value rest⦄, read cs = .ok (value, rest) → Kind value

theorem exists_of_bind_eq_ok {α β : Type} {first : Except Fault α} {next : α → Except Fault β}
    {value : β} (h : (first >>= next) = .ok value) :
    ∃ x, first = .ok x ∧ next x = .ok value := by
  cases first with
  | error fault => cases h
  | ok x => exact ⟨x, rfl, h⟩

section Yields

variable {α σ : Type} {read : Reader α} {Kind : α → Prop}

theorem Yields.itemsWithin (h : Yields read Kind) (count : Nat) :
    Yields (itemsWithin read count) fun xs => ∀ x ∈ xs, Kind x := by
  induction count with
  | zero =>
      intro cs xs rest hread
      cases hread
  | succ count ih =>
      intro cs xs rest hread
      rw [Json.itemsWithin] at hread
      obtain ⟨⟨x, more⟩, hfirst, hread⟩ := exists_of_bind_eq_ok hread
      dsimp only at hread
      split at hread
      · obtain ⟨⟨ys, left⟩, hmore, hread⟩ := exists_of_bind_eq_ok hread
        cases hread
        exact List.forall_mem_cons.mpr ⟨h hfirst, ih hmore⟩
      · cases hread
        exact List.forall_mem_singleton.mpr (h hfirst)
      · cases hread

/-- A list has what its item reader yields. -/
theorem Yields.list (h : Yields read Kind) : Yields (list read) fun xs => ∀ x ∈ xs, Kind x := by
  intro cs xs rest hread
  rw [Json.list] at hread
  split at hread
  · split at hread
    · cases hread
      simp
    · exact h.itemsWithin _ hread
  · cases hread

theorem exists_of_finish {first : Except Fault (σ × List Char)} {finish : σ → Option α} {value : α}
    {rest : List Char}
    (h : (first >>= fun (draft, rest) =>
      match finish draft with
      | some value => .ok (value, rest)
      | none => .error .mismatched) = .ok (value, rest)) :
    ∃ draft, finish draft = some value := by
  obtain ⟨⟨draft, more⟩, -, hvalue⟩ := exists_of_bind_eq_ok h
  dsimp only at hvalue
  split at hvalue
  · rename_i hfinish
    cases hvalue
    exact ⟨draft, hfinish⟩
  · cases hvalue

/-- A record is what is made of some draft. -/
theorem yields_record (fields : List (Field σ)) (blank : σ) (finish : σ → Option α) :
    Yields (record fields blank finish) fun value => ∃ draft, finish draft = some value := by
  intro cs value rest hread
  rw [record] at hread
  split at hread
  · dsimp only at hread
    split at hread
    · exact exists_of_finish hread
    · exact exists_of_finish hread
  · obtain ⟨⟨draft, more⟩, -, hread⟩ := exists_of_bind_eq_ok hread
    dsimp only at hread
    split at hread
    · cases hread
    · rename_i hfinish
      split at hread
      · cases hread
        exact ⟨draft, hfinish⟩
      · cases hread
  · cases hread

theorem Yields.whole (h : Yields read Kind) {text : List Char} {value : α}
    (hread : read.whole text = .ok value) : Kind value := by
  obtain ⟨⟨v, rest⟩, hvalue, hrest⟩ := exists_of_bind_eq_ok hread
  dsimp only at hrest
  split at hrest
  · cases hrest
    exact h hvalue
  · cases hrest

end Yields

end FactoryRoster.Json
