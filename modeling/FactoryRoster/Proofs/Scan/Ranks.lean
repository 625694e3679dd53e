import Mathlib.Data.List.Induction
import FactoryRoster.Proofs.Scan.Files

/-!
# Ranks

The order of a scan is one of labels first and of paths then. Paths of different components are
never of one rank, and those of different walks are not either, so a scan orders the walks below a
directory in one way only.
-/

namespace FactoryRoster

/-! ### The order of paths -/

/-- Bytes are told apart by the number that they are summed up in. -/
theorem Glyph.foldl_bytes_injective :
    Function.Injective fun bytes : List UInt8 =>
      bytes.foldl (fun n b => 257 * n + b.toNat + 1) 0 := by
  intro x
  dsimp only
  induction x using List.reverseRecOn with
  | nil =>
    intro y h
    rcases List.eq_nil_or_concat' y with rfl | ⟨ys, b, rfl⟩
    · rfl
    · rw [List.foldl_append] at h
      cases h
  | append_singleton xs a ih =>
    intro y h
    rcases List.eq_nil_or_concat' y with rfl | ⟨ys, b, rfl⟩
    · rw [List.foldl_append] at h
      cases h
    · -- The last byte is what is left after division, since a byte and one are less than 257.
      rw [List.foldl_append, List.foldl_append] at h
      simp only [List.foldl_cons, List.foldl_nil] at h
      have ha := a.toNat_lt
      have hb := b.toNat_lt
      have hinit : xs = ys := ih (by omega)
      have hlast : a = b := UInt8.toNat_inj.mp (by omega)
      rw [hinit, hlast]

theorem Glyph.code_injective : Function.Injective Glyph.code := by
  have hvalid : ∀ c : Char, c.toNat < 0x110000 := by
    intro c
    have hval : c.val.toNat < 0xD800 ∨ 0xDFFF < c.val.toNat ∧ c.val.toNat < 0x110000 := c.valid
    show c.val.toNat < 0x110000
    omega
  rintro (c | x) (c' | y) h
  · exact congrArg Glyph.char (Char.toNat_inj.mp h)
  · have hc := hvalid c
    simp only [Glyph.code] at h
    omega
  · have hc := hvalid c'
    simp only [Glyph.code] at h
    omega
  · exact congrArg Glyph.broken (Glyph.foldl_bytes_injective (Nat.add_left_cancel h))

namespace Path

theorem Component.code_injective : Function.Injective Component.code := by
  rintro (_ | _ | _ | x) (_ | _ | _ | y) h
  case name.name =>
    -- what comes after the first zero tells the glyphs
    have hzero : ∀ (gs : List Glyph) (codes : List Nat),
        ((Utf8.bytes gs).map (fun b : UInt8 => b.toNat + 1) ++ 0 :: codes).dropWhile (· != 0) =
          0 :: codes := by
      intro gs codes
      rw [List.dropWhile_append_of_pos (by simp)]
      rfl
    have hcodes := congrArg (List.dropWhile (· != 0)) (List.cons.inj h).2
    rw [hzero, hzero] at hcodes
    exact congrArg Component.name
      (List.map_injective_iff.mpr Glyph.code_injective (List.cons.inj hcodes).2)
  all_goals first | rfl | cases h

/-- Paths are of one place in the order of paths just if their components are the same. -/
theorem code_inj {p q : Path} : code p = code q ↔ components p = components q :=
  (List.map_injective_iff.mpr Component.code_injective).eq_iff

end Path

end FactoryRoster

namespace FactoryRoster.Disk

open Glob

theorem rankLE_eq_true {a b : List Char × List (List Nat)} :
    rankLE a b = true ↔ a.1 < b.1 ∨ a.1 = b.1 ∧ ¬ b.2 < a.2 := by
  simp [rankLE]

theorem rankLE_trans (a b c : List Char × List (List Nat)) (hab : rankLE a b = true)
    (hbc : rankLE b c = true) : rankLE a c = true := by
  rw [rankLE_eq_true] at hab hbc ⊢
  rcases hab with hab | ⟨hab, hab'⟩
  · rcases hbc with hbc | ⟨hbc, -⟩
    · exact .inl (List.lt_trans hab hbc)
    · exact .inl (hbc ▸ hab)
  · rcases hbc with hbc | ⟨hbc, hbc'⟩
    · exact .inl (hab ▸ hbc)
    · exact .inr ⟨hab.trans hbc, List.le_trans hab' hbc'⟩

theorem rankLE_total (a b : List Char × List (List Nat)) :
    (rankLE a b || rankLE b a) = true := by
  rw [Bool.or_eq_true, rankLE_eq_true, rankLE_eq_true]
  by_cases hlt : a.1 < b.1
  · exact .inl (.inl hlt)
  · by_cases hgt : b.1 < a.1
    · exact .inr (.inl hgt)
    · have heq : a.1 = b.1 := List.le_antisymm hgt hlt
      by_cases hcode : b.2 < a.2
      · exact .inr (.inr ⟨heq.symm, List.lt_asymm hcode⟩)
      · exact .inl (.inr ⟨heq, hcode⟩)

theorem rankLE_antisymm {a b : List Char × List (List Nat)} (hab : rankLE a b = true)
    (hba : rankLE b a = true) : a = b := by
  rw [rankLE_eq_true] at hab hba
  rcases hab with hab | ⟨hab, hab'⟩
  · rcases hba with hba | ⟨hba, -⟩
    · exact absurd hba (List.lt_asymm hab)
    · rw [hba] at hab
      exact absurd hab (List.lt_irrefl _)
  · rcases hba with hba | ⟨-, hba'⟩
    · rw [hab] at hba
      exact absurd hba (List.lt_irrefl _)
    · exact Prod.ext hab (List.le_antisymm hab' hba')

/-- Paths are put in order by their ranks. -/
theorem inOrder_eq (d : Disk) (base : Path) (paths : List Path) :
    d.inOrder base paths =
      paths.mergeSort fun p q => rankLE (d.rank base p) (d.rank base q) := by
  have hpairs := List.map_mergeSort
    (r := fun p q => rankLE (d.rank base p) (d.rank base q)) (s := fun a b => rankLE a.1 b.1)
    (f := fun p => (d.rank base p, p)) (l := paths) fun _ _ _ _ => rfl
  rw [inOrder, ← hpairs, List.map_map]
  exact List.map_id _

variable {d : Disk} {place : Place} {base : Path} {v w : Walk}

/-- Paths that stand in the order of a scan are left as they stand. -/
theorem inOrder_of_ordered {paths : List Path}
    (h : paths.Pairwise fun p q => rankLE (d.rank base p) (d.rank base q) = true) :
    d.inOrder base paths = paths := by
  rw [inOrder_eq, List.mergeSort_of_pairwise h]

/-- Whether a walk comes no later than another one in a scan. -/
def noLater (d : Disk) (base : Path) (v w : Walk) : Bool :=
  rankLE (d.rank base (reached base v)) (d.rank base (reached base w))

/-- Ordering the paths of walks is ordering the walks. -/
theorem inOrder_map_reached (walks : List Walk) :
    d.inOrder base (walks.map (reached base)) =
      (walks.mergeSort (d.noLater base)).map (reached base) := by
  rw [inOrder_eq]
  symm
  exact List.map_mergeSort fun _ _ _ _ => rfl

theorem noLater_trans {u v w : Walk} (huv : d.noLater base u v = true)
    (hvw : d.noLater base v w = true) : d.noLater base u w = true :=
  rankLE_trans _ _ _ huv hvw

theorem noLater_total (v w : Walk) : (d.noLater base v w || d.noLater base w v) = true :=
  rankLE_total _ _

theorem pairwise_noLater (walks : List Walk) :
    (walks.mergeSort (d.noLater base)).Pairwise fun v w => d.noLater base v w = true := by
  have htrans : ∀ u v w, d.noLater base u v = true → d.noLater base v w = true →
      d.noLater base u w = true := fun _ _ _ => noLater_trans
  exact List.pairwise_mergeSort htrans noLater_total walks

/-- What a scan goes through are the walks to files, in the order of their ranks. -/
theorem exists_ordered (hd : d.Tidy) (hbase : d.isDirectory base = true)
    (htext : ∃ text, base = glyphs text) {extension : String}
    (hextension : IsLiteral extension.toList) :
    ∃ (walks : List Walk) (notices : List Notice),
      walks.Perm (d.fileWalks base extension.toList) ∧
      (walks.Pairwise fun v w => d.noLater base v w = true) ∧
      d.factoryFiles base extension = .ok ⟨walks.map (reached base), notices⟩ := by
  obtain ⟨notices, hfiles⟩ := factoryFiles_eq hd hbase htext hextension
  refine ⟨(d.fileWalks base extension.toList).mergeSort (d.noLater base), notices, ?_, ?_, ?_⟩
  · exact List.mergeSort_perm _ _
  · exact pairwise_noLater _
  · rw [hfiles, inOrder_map_reached]

/-! ### Walks of one rank -/

/-- Whether a code is that of a segment, and not of an anchor. -/
def isSegmentCode (code : List Nat) : Bool :=
  code != [0] && code != [1]

theorem isSegmentCode_component (s : List Glyph) :
    isSegmentCode (Path.component s).code = true := by
  unfold Path.component
  split
  · rfl
  · simp [isSegmentCode, Path.Component.code]

theorem filter_code (p : Path) :
    (Path.code p).filter isSegmentCode =
      (Path.counting (Path.segments p)).map fun s => (Path.component s).code := by
  rw [Path.code, Path.components_eq_segments, List.map_append, List.filter_append, List.map_map]
  have hanchor :
      ((Path.anatomy p).1.components.map Path.Component.code).filter isSegmentCode = [] := by
    cases (Path.anatomy p).1 <;> rfl
  rw [hanchor, List.nil_append]
  refine List.filter_eq_self.mpr fun code hcode => ?_
  obtain ⟨s, -, rfl⟩ := List.mem_map.mp hcode
  exact isSegmentCode_component s

/-- What counts of the path that a walk is found by are the parts of the directory's path and the
names. -/
theorem counting_segments_reached (base : Path) (hnames : ∀ x ∈ w, IsName x) :
    Path.counting (Path.segments (reached base w)) = Path.counting (partsOf base) ++ w := by
  rw [reached, Path.counting_segments_along _ fun x hx => (hnames x hx).noSlash,
    counting_segments_baseSpot, Path.counting_of_forall (Path.not_isIdle_of_names hnames)]

/-- Different walks are found by paths of different codes. -/
theorem eq_of_code_eq (hv : ∀ x ∈ v, IsName x) (hw : ∀ x ∈ w, IsName x)
    (h : Path.code (reached base v) = Path.code (reached base w)) : v = w := by
  have hfilter := congrArg (List.filter isSegmentCode) h
  rw [filter_code, filter_code, counting_segments_reached base hv,
    counting_segments_reached base hw, List.map_append, List.map_append] at hfilter
  have hcode : Function.Injective fun s : List Glyph => (Path.component s).code :=
    Path.Component.code_injective.comp Path.component_injective
  exact List.map_injective_iff.mpr hcode (List.append_cancel_left hfilter)

theorem eq_of_noLater (hv : ∀ x ∈ v, IsName x) (hw : ∀ x ∈ w, IsName x)
    (hvw : d.noLater base v w = true) (hwv : d.noLater base w v = true) : v = w :=
  eq_of_code_eq hv hw (congrArg Prod.snd (rankLE_antisymm hvw hwv))

end FactoryRoster.Disk
