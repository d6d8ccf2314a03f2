import DegreeScore.Proofs.Files.Following

/-!
# Writing files and making directories

A file is written, and a directory made, where that does no harm (`Files.Free`). So making a directory
with those on the way to it changes no file (`ensureDirectory_extends`).
-/

namespace DegreeScore

namespace Files

variable {fs fs' : Files} {l : Location} {path : String} {content : Bytes}

/-- Writing puts a file where the path stands for no directory. -/
theorem write_eq_ok_iff : fs.write path content = .ok fs' ↔
    ∃ l, fs.locate path = .ok l ∧ (∀ cs, fs.find? l ≠ some (.directory cs)) ∧
      fs' = fs.put l (.file content) := by
  rw [write]
  cases fs.locate path with
  | error fault => simp
  | ok l =>
    cases hl : fs.find? l with
    | none => simp [hl, eq_comm]
    | some e => cases e <;> simp [hl, eq_comm]

/-- Where a path stands for no directory, there is room for a file. -/
theorem free_of_locate (h : fs.locate path = .ok l)
    (hfree : ∀ cs, fs.find? l ≠ some (.directory cs)) : fs.Free l :=
  (locate_eq_ok_iff.1 h).2.free hfree

-- ════════════════════════════════════════════════════════════════════════
-- Directories
-- ════════════════════════════════════════════════════════════════════════

/-- Everything is kept, and no file has changed. -/
structure Extends (fs fs' : Files) : Prop where
  keeps : fs.Keeps fs'
  file : ∀ l c, fs.find? l = some (.file c) → fs'.find? l = some (.file c)

theorem Extends.refl (fs : Files) : fs.Extends fs := ⟨.refl fs, fun _ _ h => h⟩

theorem Extends.trans {fs'' : Files} (h : fs.Extends fs') (h' : fs'.Extends fs'') :
    fs.Extends fs'' :=
  ⟨h.keeps.trans h'.keeps, fun l c hl => h'.file l c (h.file l c hl)⟩

theorem Extends.read (h : fs.Extends fs') (hread : fs.read path = .ok content) :
    fs'.read path = .ok content := by
  obtain ⟨l, hlocate, hl⟩ := read_eq_ok_iff.1 hread
  exact read_eq_ok_iff.2 ⟨l, h.keeps.locate hlocate, h.file l content hl⟩

/-- A directory is made only where there is nothing. -/
theorem makeDirectory_extends (h : fs.makeDirectory path = .ok fs') : fs.Extends fs' := by
  rw [makeDirectory] at h
  cases husable : unusable? path with
  | some fault =>
    rw [husable] at h
    cases h
  | none =>
    simp only [husable, Bind.bind, Except.bind] at h
    generalize ((Path.names path).reverse.dropWhile (· = "")).reverse = names at h
    cases hlocate : fs.locateNames (Path.isAbsolute path) names with
    | error fault =>
      simp [hlocate] at h
    | ok l =>
      simp only [hlocate] at h
      cases hl : fs.find? l with
      | some e => simp [hl] at h
      | none =>
        simp only [hl, Option.isSome_none] at h
        obtain rfl := Except.ok.inj h
        have hfree : fs.Free l := (locateNames_eq_ok_iff.1 hlocate).free (by simp [hl])
        refine ⟨hfree.keeps (by simp [hl]), fun l' c hl' => hfree.find?_put_file ?_ hl' _⟩
        rintro rfl
        rw [hl] at hl'
        cases hl'

/-- Directories are made on the way without harm. -/
theorem ensureFirst_extends (fs : Files) (paths : List String) :
    fs.Extends (fs.ensureFirst paths).1 := by
  induction paths with
  | nil => exact .refl fs
  | cons path outer ih =>
    rw [ensureFirst]
    split
    · exact .refl fs
    · exact .refl fs
    · split
      · next heq =>
        rw [heq] at ih
        exact ih
      · next heq =>
        rw [heq] at ih
        split
        · next hmade => exact ih.trans (makeDirectory_extends hmade)
        · exact ih
        · exact ih

theorem ensureDirectory_extends (fs : Files) (path : String) :
    fs.Extends (fs.ensureDirectory path).1 :=
  fs.ensureFirst_extends _

end Files

end DegreeScore
