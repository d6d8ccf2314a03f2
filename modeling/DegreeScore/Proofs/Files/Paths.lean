import DegreeScore.Files.Path
import Mathlib.Data.List.Basic
import Mathlib.Data.List.TakeDrop

/-!
# The last name of a path

Joining a plain name to a directory gives a path that ends in this name, whatever the directory
(`Path.lastName_join`). The name of an output is made from the last name of its source alone
(`Path.output_eq`), and an output in the place of a source would have its own name again
(`Path.outputName_outputName`).
-/

namespace DegreeScore

-- ════════════════════════════════════════════════════════════════════════
-- Pieces
-- ════════════════════════════════════════════════════════════════════════

namespace Text.Split

variable {α : Type} [DecidableEq α] {mark : α} {xs : List α}

theorem pieces_ne_nil (mark : α) (xs : List α) : pieces mark xs ≠ [] := by
  fun_induction pieces mark xs with
  | case1 => simp
  | case2 => simp
  | case3 => simp
  | case4 => simp

theorem pieces_of_notMem (h : mark ∉ xs) : pieces mark xs = [xs] := by
  induction xs with
  | nil => rfl
  | cons a rest ih =>
    obtain ⟨hne, hrest⟩ := not_or.1 (mt List.mem_cons.2 h)
    rw [pieces, if_neg (Ne.symm hne), ih hrest]

theorem pieces_append_mark (mark : α) (xs ys : List α) :
    pieces mark (xs ++ mark :: ys) = pieces mark xs ++ pieces mark ys := by
  induction xs with
  | nil => exact if_pos rfl
  | cons a xs ih =>
    rw [List.cons_append, pieces, pieces, ih]
    split
    · rfl
    · cases hxs : pieces mark xs with
      | nil => exact absurd hxs (pieces_ne_nil mark xs)
      | cons => rfl

/-- What is put last with marks between is the last piece again. -/
theorem exists_pieces_intercalate (h : mark ∉ xs) (before : List (List α)) :
    ∃ init, pieces mark ([mark].intercalate (before ++ [xs])) = init ++ [xs] := by
  induction before with
  | nil => exact ⟨[], by simpa using pieces_of_notMem h⟩
  | cons first before ih =>
    obtain ⟨init, hinit⟩ := ih
    refine ⟨pieces mark first ++ init, ?_⟩
    rw [List.cons_append, List.intercalate_cons_of_ne_nil (by simp), List.append_assoc,
      List.singleton_append, pieces_append_mark, hinit, List.append_assoc]

theorem notMem_of_mem_pieces {piece : List α} (h : piece ∈ pieces mark xs) : mark ∉ piece := by
  fun_induction pieces mark xs generalizing piece with
  | case1 => simp_all
  | case2 rest ih =>
    rcases List.mem_cons.1 h with rfl | h
    · exact List.not_mem_nil
    · exact ih h
  | case3 a rest ha first more hrest ih =>
    rw [hrest] at ih
    rcases List.mem_cons.1 h with rfl | h
    · exact fun hmem => (List.mem_cons.1 hmem).elim (Ne.symm ha) (ih List.mem_cons_self)
    · exact ih (List.mem_cons_of_mem _ h)
  | case4 a rest ha hrest ih => exact absurd hrest (pieces_ne_nil mark rest)

end Text.Split

namespace Path

open Text.Split

/-- The last name of a path. -/
def lastName (path : String) : String :=
  String.ofList ((pieces '/' path.toList).getLastD [])

theorem exists_pieces_eq (path : String) :
    ∃ init, pieces '/' path.toList = init ++ [(lastName path).toList] := by
  obtain ⟨init, last, h⟩ :=
    (List.eq_nil_or_concat' (pieces '/' path.toList)).resolve_left (pieces_ne_nil '/' path.toList)
  exact ⟨init, by rw [lastName, h, List.getLastD_concat, String.toList_ofList]⟩

theorem exists_names_eq (path : String) : ∃ init, names path = init ++ [lastName path] := by
  obtain ⟨init, h⟩ := exists_pieces_eq path
  refine ⟨init.map String.ofList, ?_⟩
  rw [names, h, List.map_append, List.map_singleton, String.ofList_toList]

theorem lastName_of_pieces {path name : String} {init : List (List Char)}
    (h : pieces '/' path.toList = init ++ [name.toList]) : lastName path = name := by
  rw [lastName, h, List.getLastD_concat, String.ofList_toList]

theorem notMem_lastName (path : String) : '/' ∉ (lastName path).toList := by
  obtain ⟨init, h⟩ := exists_pieces_eq path
  exact notMem_of_mem_pieces (h ▸ List.mem_concat_self)

theorem base_of_lastName {path : String} (h : lastName path ≠ "") : base path = lastName path := by
  obtain ⟨init, hnames⟩ := exists_names_eq path
  rw [base, hnames, List.reverse_concat, List.find?_cons_of_pos (by simpa using h)]
  refine if_neg ?_
  rintro rfl
  exact h rfl

theorem extension_eq (path : String) :
    extension path = String.ofList (extensionOf (lastName path).toList) := by
  rw [extension, lastName, String.toList_ofList]

/-- The name of the output of a source with the name `name`. -/
def outputName (name : String) : String :=
  withoutSuffix (String.ofList (extensionOf name.toList)) name ++ ".mid"

theorem output_eq {source : String} (h : lastName source ≠ "") (dir : String) :
    output dir source = join dir (outputName (lastName source)) := by
  rw [output, base_of_lastName h, extension_eq, outputName]

/-- A name that stands for itself. -/
structure IsPlain (name : String) : Prop where
  notMem : '/' ∉ name.toList
  ne_empty : name ≠ ""
  ne_dot : name ≠ "."
  ne_dots : name ≠ ".."

theorem toList_outputName (name : String) : ∃ stem : List Char, stem ⊆ name.toList ∧
    (outputName name).toList = stem ++ ['.', 'm', 'i', 'd'] := by
  refine ⟨_, ?_, String.toList_append⟩
  rw [withoutSuffix]
  split
  · rw [String.toList_ofList]
    exact List.take_subset ..
  · exact List.Subset.refl _

theorem isPlain_outputName {name : String} (h : '/' ∉ name.toList) : IsPlain (outputName name) := by
  obtain ⟨stem, hstem, hname⟩ := toList_outputName name
  have hlast : ∀ other, outputName name = other → other.toList.getLast? = some 'd' := by
    rintro _ rfl
    simp [hname]
  refine ⟨?_, fun h' => ?_, fun h' => ?_, fun h' => ?_⟩
  · rw [hname, List.mem_append]
    exact fun hmem => hmem.elim (fun hmem => h (hstem hmem)) (by decide)
  · exact absurd (hlast _ h') (by decide)
  · exact absurd (hlast _ h') (by decide)
  · exact absurd (hlast _ h') (by decide)

/-- The output of an output keeps its name. -/
theorem outputName_outputName (name : String) : outputName (outputName name) = outputName name := by
  obtain ⟨stem, -, hname⟩ := toList_outputName name
  have hextension : extensionOf (stem ++ ['.', 'm', 'i', 'd']) = ['.', 'm', 'i', 'd'] := by
    simp [extensionOf, List.span, List.span.loop]
  have hsuffix : ['.', 'm', 'i', 'd'] <:+ (outputName name).toList := hname ▸ List.suffix_append ..
  refine String.toList_inj.1 ?_
  rw [outputName, hname, hextension, withoutSuffix, String.toList_ofList,
    if_pos (List.isSuffixOf_iff_suffix.2 hsuffix), hname, ← String.length_toList, hname,
    ← String.length_toList, String.toList_ofList, List.length_append, Nat.add_sub_cancel,
    List.take_left, String.toList_append, String.toList_ofList]
  rfl

/-- The last name of a path stays when the path is cleaned, if it is a plain one. -/
theorem lastName_clean {path name : String} {init : List (List Char)} (h : IsPlain name)
    (hpath : pieces '/' path.toList = init ++ [name.toList]) : lastName (clean path) = name := by
  have hne : name.toList ≠ [] := fun h' => h.ne_empty (String.toList_inj.1 h')
  have hpass : ∀ absolute passed, pass '.' absolute passed name.toList = name.toList :: passed := by
    intro absolute passed
    have hdot : name.toList ≠ ['.'] := fun h' => h.ne_dot (String.toList_inj.1 h')
    have hdots : name.toList ≠ ['.', '.'] := fun h' => h.ne_dots (String.toList_inj.1 h')
    exact (if_neg (not_or.2 ⟨hne, hdot⟩)).trans (if_neg hdots)
  rw [clean, shortest, hpath, List.foldl_append, List.foldl_cons, List.foldl_nil, hpass,
    List.reverse_cons]
  obtain ⟨before, hbefore⟩ := exists_pieces_intercalate h.notMem
    (List.foldl (pass '.' (decide (path.toList.head? = some '/'))) [] init).reverse
  generalize ['/'].intercalate _ = body at hbefore ⊢
  have hbody : body ≠ [] := by
    rintro rfl
    have hlast := congrArg List.getLast? hbefore
    rw [List.getLast?_concat] at hlast
    exact hne (Option.some.inj hlast).symm
  split
  · have habsolute : pieces '/' (String.ofList ('/' :: body)).toList =
        [] :: before ++ [name.toList] := by
      rw [String.toList_ofList, List.cons_append, ← hbefore]
      exact pieces_append_mark '/' [] body
    exact lastName_of_pieces habsolute
  · rw [← String.toList_ofList (l := body)] at hbefore
    exact lastName_of_pieces hbefore

theorem lastName_join {name : String} (h : IsPlain name) (dir : String) :
    lastName (join dir name) = name := by
  have hname := pieces_of_notMem h.notMem
  rw [join, if_neg (fun hempty => h.ne_empty hempty.2)]
  split
  · exact lastName_clean h (hname.trans (List.nil_append _).symm)
  · have hjoined : pieces '/' (dir ++ "/" ++ name).toList =
        pieces '/' dir.toList ++ [name.toList] := by
      rw [String.toList_append, String.toList_append, List.append_assoc, ← hname]
      exact pieces_append_mark ..
    exact lastName_clean h hjoined

end Path

end DegreeScore
