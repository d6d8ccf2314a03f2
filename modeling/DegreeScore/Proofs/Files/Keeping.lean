import DegreeScore.Files.Basic

/-!
# What a change to files keeps

An entry that is put somewhere changes nothing that is neither on the way there nor below it. So
where it is put into a directory and in place of no other one (`Files.Free`), every directory stays a
directory and every file a file (`Files.Keeps`), and the files elsewhere stay as they are.
-/

namespace DegreeScore

-- ════════════════════════════════════════════════════════════════════════
-- Entries that are put
-- ════════════════════════════════════════════════════════════════════════

namespace Entry

variable {name n : String} {new e : Entry} {cs : List (String × Entry)} {l l' m : Location}

@[simp] theorem lookup_setChild_self (name : String) (new : Entry) (cs : List (String × Entry)) :
    (setChild name new cs).lookup name = some new := by
  fun_induction setChild name new cs with
  | case1 => simp
  | case2 => simp
  | case3 => simp
  | case4 n e rest hn _ ih => simp [List.lookup_cons, beq_false_of_ne (Ne.symm hn), ih]

theorem lookup_setChild_of_ne (h : n ≠ name) (new : Entry) (cs : List (String × Entry)) :
    (setChild name new cs).lookup n = cs.lookup n := by
  fun_induction setChild name new cs with
  | case1 => simp [List.lookup_cons, beq_false_of_ne h]
  | case2 => simp [List.lookup_cons, beq_false_of_ne h]
  | case3 => simp [List.lookup_cons, beq_false_of_ne h]
  | case4 m e rest _ _ ih => simp [List.lookup_cons, ih]

theorem find?_append (e : Entry) (l m : Location) :
    e.find? (l ++ m) = (e.find? l).bind (·.find? m) := by
  induction l generalizing e with
  | nil => rfl
  | cons name rest ih =>
    rw [List.cons_append, find?, find?]
    cases e.child? name with
    | none => rfl
    | some c => exact ih c

theorem find?_put_self (new : Entry) (l : Location) (e : Entry) :
    (put new l e).find? l = some new := by
  induction l generalizing e with
  | nil => rfl
  | cons name rest ih =>
    rw [put, find?, child?, children, lookup_setChild_self]
    exact ih _

/-- On the way to where an entry is put there are directories. -/
theorem find?_put_of_prefix (h : l' <+: l) (hne : l' ≠ l) (new e : Entry) :
    ∃ cs, (put new l e).find? l' = some (.directory cs) := by
  induction l generalizing l' e with
  | nil => exact absurd (List.prefix_nil.1 h) hne
  | cons name rest ih =>
    rw [put]
    cases l' with
    | nil => exact ⟨_, rfl⟩
    | cons n rest' =>
      obtain ⟨rfl, hrest⟩ := List.cons_prefix_cons.1 h
      rw [find?, child?, children, lookup_setChild_self]
      exact ih hrest (fun heq => hne (by rw [heq])) _

/-- Nothing changes that is neither on the way to where an entry is put nor below it. -/
theorem find?_put_of_apart (h : ¬l' <+: l) (h' : ¬l <+: l') (new e : Entry) :
    (put new l e).find? l' = e.find? l' := by
  induction l generalizing l' e with
  | nil => exact absurd List.nil_prefix h'
  | cons name rest ih =>
    cases l' with
    | nil => exact absurd List.nil_prefix h
    | cons n rest' =>
      rw [put, find?, find?, child?, children]
      by_cases hn : n = name
      · subst hn
        have hrest : ¬rest' <+: rest := fun hle => h (List.cons_prefix_cons.2 ⟨rfl, hle⟩)
        have hrest' : ¬rest <+: rest' := fun hle => h' (List.cons_prefix_cons.2 ⟨rfl, hle⟩)
        rw [lookup_setChild_self, Option.bind_some, ih hrest hrest']
        cases e.child? n with
        | some c => rfl
        | none =>
          -- Nothing stands below an empty directory.
          cases rest' with
          | nil => exact absurd List.nil_prefix hrest
          | cons => rfl
      · rw [lookup_setChild_of_ne hn]
        rfl

end Entry

namespace Files

variable {fs fs' : Files} {l l' : Location}

theorem find?_append (fs : Files) (l m : Location) :
    fs.find? (l ++ m) = (fs.find? l).bind (·.find? m) :=
  fs.root.find?_append l m

/-- What has something below it is a directory. -/
theorem directory_of_append {m : Location} {e : Entry} (hm : m ≠ [])
    (h : fs.find? (l ++ m) = some e) : ∃ cs, fs.find? l = some (.directory cs) := by
  rw [find?_append] at h
  cases hl : fs.find? l with
  | none =>
    rw [hl] at h
    cases h
  | some e' =>
    cases e' with
    | directory cs => exact ⟨cs, rfl⟩
    | file content =>
      rw [hl] at h
      cases m with
      | nil => exact absurd rfl hm
      | cons => cases h

/-- What a directory is in is a directory. -/
theorem directory_of_prefix {cs : List (String × Entry)} (h : fs.find? l = some (.directory cs))
    (hle : l' <+: l) : ∃ cs', fs.find? l' = some (.directory cs') := by
  obtain ⟨more, rfl⟩ := hle
  by_cases hmore : more = []
  · rw [hmore, List.append_nil] at h
    exact ⟨cs, h⟩
  · exact directory_of_append hmore h

/-- Directories stay directories and files stay files. -/
structure Keeps (fs fs' : Files) : Prop where
  here : fs'.here = fs.here
  directory : ∀ l cs, fs.find? l = some (.directory cs) → ∃ cs', fs'.find? l = some (.directory cs')
  file : ∀ l c, fs.find? l = some (.file c) → ∃ c', fs'.find? l = some (.file c')

theorem Keeps.refl (fs : Files) : fs.Keeps fs :=
  ⟨rfl, fun _ cs h => ⟨cs, h⟩, fun _ c h => ⟨c, h⟩⟩

theorem Keeps.trans {fs'' : Files} (h : fs.Keeps fs') (h' : fs'.Keeps fs'') : fs.Keeps fs'' := by
  refine ⟨h'.here.trans h.here, fun l cs hl => ?_, fun l c hl => ?_⟩
  · obtain ⟨cs', hl'⟩ := h.directory l cs hl
    exact h'.directory l cs' hl'
  · obtain ⟨c', hl'⟩ := h.file l c hl
    exact h'.file l c' hl'

/-- Where an entry may be put without harm: in a directory, where there is no directory. -/
structure Free (fs : Files) (l : Location) : Prop where
  parent : ∃ l₀ name cs, l = l₀ ++ [name] ∧ fs.find? l₀ = some (.directory cs)
  free : ∀ cs, fs.find? l ≠ some (.directory cs)

/-- On the way to where an entry may be put there are directories. -/
theorem Free.directory_above (h : fs.Free l) (hle : l' <+: l) (hne : l' ≠ l) :
    ∃ cs, fs.find? l' = some (.directory cs) := by
  obtain ⟨l₀, name, cs, rfl, hparent⟩ := h.parent
  exact directory_of_prefix hparent ((List.prefix_concat_iff.1 hle).resolve_left hne)

theorem Free.ne_of_directory (h : fs.Free l) {cs : List (String × Entry)}
    (hl' : fs.find? l' = some (.directory cs)) : l' ≠ l := by
  rintro rfl
  exact h.free cs hl'

/-- A file elsewhere stays as it is when an entry is put where that does no harm. -/
theorem Free.find?_put_file (h : fs.Free l) {c : Bytes} (hne : l' ≠ l)
    (hl' : fs.find? l' = some (.file c)) (e : Entry) :
    (fs.put l e).find? l' = some (.file c) := by
  rw [← hl']
  refine Entry.find?_put_of_apart (fun hle => ?_) (fun hle => ?_) e fs.root
  · obtain ⟨cs, hcs⟩ := h.directory_above hle hne
    rw [hl'] at hcs
    cases hcs
  · obtain ⟨more, rfl⟩ := hle
    obtain ⟨cs, hcs⟩ := directory_of_append (fun hmore => hne (by rw [hmore, List.append_nil])) hl'
    exact h.free cs hcs

/-- A directory stays one when an entry is put where that does no harm. -/
theorem Free.find?_put_directory (h : fs.Free l) {cs : List (String × Entry)}
    (hl' : fs.find? l' = some (.directory cs)) (e : Entry) :
    ∃ cs', (fs.put l e).find? l' = some (.directory cs') := by
  by_cases hle : l' <+: l
  · exact Entry.find?_put_of_prefix hle (h.ne_of_directory hl') e fs.root
  · refine ⟨cs, hl' ▸ Entry.find?_put_of_apart hle (fun hle' => ?_) e fs.root⟩
    obtain ⟨cs', hcs⟩ := directory_of_prefix hl' hle'
    exact h.free cs' hcs

theorem find?_put_self (fs : Files) (l : Location) (e : Entry) : (fs.put l e).find? l = some e :=
  Entry.find?_put_self e l fs.root

/-- Where an entry may be put without harm, it may still be when a file has been put somewhere. -/
theorem Free.put_file (h : fs.Free l) (h' : fs.Free l') (c : Bytes) :
    (fs.put l' (.file c)).Free l := by
  obtain ⟨l₀, name, cs, hl, hparent⟩ := h.parent
  obtain ⟨cs', hparent'⟩ := h'.find?_put_directory hparent (.file c)
  refine ⟨⟨l₀, name, cs', hl, hparent'⟩, fun cs₁ hcs₁ => ?_⟩
  by_cases hne : l = l'
  · rw [hne, find?_put_self] at hcs₁
    cases hcs₁
  · -- Two such places are apart: what is above one of them is a directory, and the other is not.
    have hapart : fs.find? l = some (.directory cs₁) := by
      rw [← hcs₁]
      refine (Entry.find?_put_of_apart (fun hle => ?_) (fun hle => ?_) (.file c) fs.root).symm
      · obtain ⟨cs₂, hcs₂⟩ := h'.directory_above hle hne
        exact h.free cs₂ hcs₂
      · obtain ⟨cs₂, hcs₂⟩ := h.directory_above hle (Ne.symm hne)
        exact h'.free cs₂ hcs₂
    exact h.free cs₁ hapart

/-- Putting an entry where that does no harm keeps everything. -/
theorem Free.keeps (h : fs.Free l) {e : Entry}
    (he : ∀ c, fs.find? l = some (.file c) → ∃ c', e = .file c') : fs.Keeps (fs.put l e) := by
  refine ⟨rfl, fun l' cs hl' => h.find?_put_directory hl' e, fun l' c hl' => ?_⟩
  by_cases hne : l' = l
  · subst hne
    obtain ⟨c', rfl⟩ := he c hl'
    exact ⟨c', fs.find?_put_self l' _⟩
  · exact ⟨c, h.find?_put_file hne hl' e⟩

end Files

end DegreeScore
