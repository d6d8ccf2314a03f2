import DegreeScore.Proofs.Files.Keeping
import DegreeScore.Proofs.Files.Paths

/-!
# Where paths lead

Following a path passes from location to location, and where it may pass depends only on what are
directories and what is there (`Files.Enters`, `Files.Walks`). So a path goes on standing for the same
location as long as directories and files are kept (`Keeps.locate`). No name that leads back or stays
leads to a file, so the last name of a path to a file is the name of the file (`location_of_locate`),
and a file is read where it would be written (`read_eq_ok_iff`).
-/

namespace DegreeScore

namespace Files

/-- A name that is entered under itself. -/
structure IsProper (name : String) : Prop where
  ne_empty : name ≠ ""
  ne_dot : name ≠ "."
  ne_dots : name ≠ ".."
  short : name.utf8ByteSize ≤ longestName

/-- Following a name from the location `l` leads to another one. -/
inductive Enters (fs : Files) (l : Location) : String → Location → Prop
  | stay {name : String} {cs : List (String × Entry)} (hl : fs.find? l = some (.directory cs))
      (hname : name = "" ∨ name = ".") : Enters fs l name l
  | up {cs : List (String × Entry)} (hl : fs.find? l = some (.directory cs)) :
      Enters fs l ".." l.dropLast
  | down {name : String} {cs : List (String × Entry)} {e : Entry}
      (hl : fs.find? l = some (.directory cs)) (hname : IsProper name)
      (he : fs.find? (l ++ [name]) = some e) : Enters fs l name (l ++ [name])

/-- Following names one after the other leads from a location to another one. -/
inductive Walks (fs : Files) : Location → List String → Location → Prop
  | nil {l : Location} : Walks fs l [] l
  | cons {l m n : Location} {name : String} {names : List String} (h : fs.Enters l name m)
      (hrest : Walks fs m names n) : Walks fs l (name :: names) n

/-- Following names from the root, or from the working directory, leads to a location. -/
def WalksFrom (fs : Files) (absolute : Bool) (names : List String) (l : Location) : Prop :=
  ∃ start, (if absolute then start = [] else fs.Walks [] fs.here start) ∧ fs.Walks start names l

variable {fs fs' : Files} {l m n : Location} {name : String} {names more : List String} {t u : Trail}
  {path : String}

theorem Walks.append (h : fs.Walks l names m) (h' : fs.Walks m more n) :
    fs.Walks l (names ++ more) n := by
  induction h with
  | nil => exact h'
  | cons h _ ih => exact .cons h (ih h')

theorem Walks.exists_last (h : fs.Walks l (names ++ [name]) n) :
    ∃ m, fs.Walks l names m ∧ fs.Enters m name n := by
  induction names generalizing l with
  | nil =>
    cases h with
    | cons h hrest =>
      cases hrest
      exact ⟨l, .nil, h⟩
  | cons first names ih =>
    cases h with
    | cons h hrest =>
      obtain ⟨m, hm, hlast⟩ := ih hrest
      exact ⟨m, .cons h hm, hlast⟩

-- ════════════════════════════════════════════════════════════════════════
-- What is kept
-- ════════════════════════════════════════════════════════════════════════

theorem Keeps.exists_find? (h : fs.Keeps fs') {e : Entry} (he : fs.find? l = some e) :
    ∃ e', fs'.find? l = some e' := by
  cases e with
  | directory cs =>
    obtain ⟨cs', hcs⟩ := h.directory l cs he
    exact ⟨_, hcs⟩
  | file c =>
    obtain ⟨c', hc⟩ := h.file l c he
    exact ⟨_, hc⟩

theorem Keeps.enters (h : fs.Keeps fs') (hn : fs.Enters l name m) : fs'.Enters l name m := by
  cases hn with
  | stay hl hname =>
    obtain ⟨cs, hl'⟩ := h.directory l _ hl
    exact .stay hl' hname
  | up hl =>
    obtain ⟨cs, hl'⟩ := h.directory l _ hl
    exact .up hl'
  | down hl hname he =>
    obtain ⟨cs, hl'⟩ := h.directory l _ hl
    obtain ⟨e', he'⟩ := h.exists_find? he
    exact .down hl' hname he'

theorem Keeps.walks (h : fs.Keeps fs') (hn : fs.Walks l names m) : fs'.Walks l names m := by
  induction hn with
  | nil => exact .nil
  | cons hn _ ih => exact .cons (h.enters hn) ih

theorem Keeps.walksFrom (h : fs.Keeps fs') {absolute : Bool} (hn : fs.WalksFrom absolute names l) :
    fs'.WalksFrom absolute names l := by
  obtain ⟨start, hstart, hwalks⟩ := hn
  refine ⟨start, ?_, h.walks hwalks⟩
  rw [h.here]
  split
  · next habsolute => rwa [if_pos habsolute] at hstart
  · next habsolute =>
    rw [if_neg habsolute] at hstart
    exact h.walks hstart

-- ════════════════════════════════════════════════════════════════════════
-- Trails
-- ════════════════════════════════════════════════════════════════════════

/-- The entries of a trail stand where it has led. -/
def Leads (fs : Files) : Trail → Prop
  | [] => True
  | (name, e) :: t => fs.find? (Trail.location t ++ [name]) = some e ∧ fs.Leads t

theorem location_cons (name : String) (e : Entry) (t : Trail) :
    Trail.location ((name, e) :: t) = Trail.location t ++ [name] := by
  rw [Trail.location, List.map_cons, List.reverse_cons, Trail.location]

theorem location_tail (t : Trail) : Trail.location t.tail = (Trail.location t).dropLast := by
  cases t with
  | nil => rfl
  | cons p t => rw [location_cons, List.dropLast_concat, List.tail_cons]

theorem Leads.find? (h : fs.Leads t) : fs.find? (Trail.location t) = some (fs.reached t) := by
  cases t with
  | nil => rfl
  | cons p t =>
    rw [location_cons]
    exact h.1

theorem Leads.tail (h : fs.Leads t) : fs.Leads t.tail := by
  cases t with
  | nil => trivial
  | cons p t => exact h.2

theorem Leads.reached_eq (h : fs.Leads t) {cs : List (String × Entry)}
    (hl : fs.find? (Trail.location t) = some (.directory cs)) : fs.reached t = .directory cs :=
  Option.some.inj (h.find?.symm.trans hl)

theorem find?_child {cs : List (String × Entry)} (hl : fs.find? l = some (.directory cs))
    (name : String) : fs.find? (l ++ [name]) = cs.lookup name := by
  rw [find?_append, hl]
  change (cs.lookup name).bind _ = _
  cases cs.lookup name <;> rfl

/-- A trail goes on only where a name can be followed. -/
theorem Leads.enters (h : fs.Leads t) (hu : fs.enter t name = .ok u) :
    fs.Leads u ∧ fs.Enters (Trail.location t) name (Trail.location u) := by
  have hreached := h.find?
  rw [enter] at hu
  split at hu
  · cases hu
  · next cs hentry =>
    rw [hentry] at hreached
    split at hu
    · next hstay =>
      obtain rfl := Except.ok.inj hu
      exact ⟨h, .stay hreached hstay⟩
    · next hstay =>
      split at hu
      · next hup =>
        obtain rfl := Except.ok.inj hu
        rw [hup, location_tail]
        exact ⟨h.tail, .up hreached⟩
      · next hup =>
        split at hu
        · cases hu
        · next hlong =>
          split at hu
          · next e he =>
            obtain rfl := Except.ok.inj hu
            have hchild := (find?_child hreached name).trans he
            rw [location_cons]
            exact ⟨⟨hchild, h⟩, .down hreached
              ⟨fun heq => hstay (.inl heq), fun heq => hstay (.inr heq), hup, Nat.not_lt.1 hlong⟩
              hchild⟩
          · cases hu

/-- A trail goes on wherever a name can be followed. -/
theorem Leads.exists_enter (h : fs.Leads t) (hm : fs.Enters (Trail.location t) name m) :
    ∃ u, fs.enter t name = .ok u ∧ fs.Leads u ∧ Trail.location u = m := by
  cases hm with
  | stay hl hname =>
    refine ⟨t, ?_, h, rfl⟩
    rw [enter, h.reached_eq hl]
    exact if_pos hname
  | up hl =>
    refine ⟨t.tail, ?_, h.tail, location_tail t⟩
    rw [enter, h.reached_eq hl]
    rfl
  | @down _ cs e hl hname he =>
    refine ⟨(name, e) :: t, ?_, ⟨he, h⟩, location_cons ..⟩
    rw [enter, h.reached_eq hl]
    dsimp only
    rw [if_neg (not_or.2 ⟨hname.ne_empty, hname.ne_dot⟩), if_neg hname.ne_dots,
      if_neg (Nat.not_lt.2 hname.short), ← find?_child hl name, he]

theorem Leads.walks (h : fs.Leads t) (hu : names.foldlM fs.enter t = .ok u) :
    fs.Leads u ∧ fs.Walks (Trail.location t) names (Trail.location u) := by
  induction names generalizing t with
  | nil =>
    obtain rfl := Except.ok.inj hu
    exact ⟨h, .nil⟩
  | cons name names ih =>
    rw [List.foldlM_cons] at hu
    cases hname : fs.enter t name with
    | error fault =>
      rw [hname] at hu
      cases hu
    | ok v =>
      rw [hname] at hu
      obtain ⟨hv, henters⟩ := h.enters hname
      obtain ⟨hu, hwalks⟩ := ih hv hu
      exact ⟨hu, .cons henters hwalks⟩

theorem Leads.exists_walk (h : fs.Leads t) (hm : fs.Walks (Trail.location t) names m) :
    ∃ u, names.foldlM fs.enter t = .ok u ∧ fs.Leads u ∧ Trail.location u = m := by
  generalize hl : Trail.location t = l at hm
  induction hm generalizing t with
  | nil => exact ⟨t, rfl, h, hl⟩
  | cons henters _ ih =>
    rw [← hl] at henters
    obtain ⟨v, hv, hleads, hlocation⟩ := h.exists_enter henters
    obtain ⟨u, hu, hlast⟩ := ih hleads hlocation
    exact ⟨u, by rw [List.foldlM_cons, hv]; exact hu, hlast⟩

/-- Walking leads where the names lead. -/
theorem walk_eq_ok (absolute : Bool) (names : List String) :
    (∀ u, fs.walk absolute names = .ok u →
        fs.Leads u ∧ fs.WalksFrom absolute names (Trail.location u)) ∧
      ∀ l, fs.WalksFrom absolute names l →
        ∃ u, fs.walk absolute names = .ok u ∧ fs.Leads u ∧ Trail.location u = l := by
  have hroot : fs.Leads [] := trivial
  cases absolute with
  | true =>
    refine ⟨fun u hu => ?_, fun l hl => ?_⟩
    · obtain ⟨hleads, hwalks⟩ := hroot.walks hu
      exact ⟨hleads, [], rfl, hwalks⟩
    · obtain ⟨start, rfl, hwalks⟩ := hl
      exact hroot.exists_walk hwalks
  | false =>
    refine ⟨fun u hu => ?_, fun l hl => ?_⟩
    · rw [walk] at hu
      cases hstart : fs.here.foldlM fs.enter [] with
      | error fault =>
        simp [hstart, Bind.bind, Except.bind] at hu
      | ok v =>
        simp only [hstart, Bind.bind, Except.bind, Bool.false_eq_true, ↓reduceIte] at hu
        obtain ⟨hv, hhere⟩ := hroot.walks hstart
        obtain ⟨hleads, hwalks⟩ := hv.walks hu
        exact ⟨hleads, _, hhere, hwalks⟩
    · obtain ⟨start, hhere, hwalks⟩ := hl
      obtain ⟨v, hv, hleads, rfl⟩ := hroot.exists_walk hhere
      obtain ⟨u, hu, hlast⟩ := hleads.exists_walk hwalks
      refine ⟨u, ?_, hlast⟩
      rw [walk]
      simp only [hv, Bind.bind, Except.bind, Bool.false_eq_true, ↓reduceIte]
      exact hu

-- ════════════════════════════════════════════════════════════════════════
-- Paths
-- ════════════════════════════════════════════════════════════════════════

theorem resolve_eq_ok_iff : fs.resolve path = .ok l ↔
    unusable? path = none ∧ fs.WalksFrom (Path.isAbsolute path) (Path.names path) l := by
  rw [resolve, follow]
  cases unusable? path with
  | some fault =>
    constructor
    · intro h
      cases h
    · rintro ⟨h, -⟩
      cases h
  | none =>
    obtain ⟨hleads, hexists⟩ := fs.walk_eq_ok (Path.isAbsolute path) (Path.names path)
    constructor
    · intro h
      cases hu : fs.walk (Path.isAbsolute path) (Path.names path) with
      | error fault =>
        rw [hu] at h
        cases h
      | ok u =>
        rw [hu] at h
        obtain rfl := Except.ok.inj h
        exact ⟨rfl, (hleads u hu).2⟩
    · rintro ⟨-, h⟩
      obtain ⟨u, hu, -, rfl⟩ := hexists l h
      rw [hu]
      rfl

theorem stat_eq_ok_iff {e : Entry} :
    fs.stat path = .ok e ↔ ∃ l, fs.resolve path = .ok l ∧ fs.find? l = some e := by
  rw [stat, resolve]
  cases hu : fs.follow path with
  | error fault =>
    constructor
    · intro h
      cases h
    · rintro ⟨l, h, -⟩
      cases h
  | ok u =>
    have hleads : fs.Leads u := by
      rw [follow] at hu
      split at hu
      · cases hu
      · exact ((fs.walk_eq_ok _ _).1 u hu).1
    constructor
    · intro h
      obtain rfl := Except.ok.inj h
      exact ⟨_, rfl, hleads.find?⟩
    · rintro ⟨l, hl, he⟩
      obtain rfl := Except.ok.inj hl
      exact congrArg Except.ok (Option.some.inj (hleads.find?.symm.trans he))

/-- The location that a name stands for in the directory `l`, though nothing may be there yet. -/
inductive Places (l : Location) : String → Location → Prop
  | stay {name : String} (hname : name = "" ∨ name = ".") : Places l name l
  | up : Places l ".." l.dropLast
  | named {name : String} (hname : IsProper name) : Places l name (l ++ [name])

/-- Names stand for a location in a directory that those before the last one lead to. -/
def PlacesFrom (fs : Files) (absolute : Bool) (names : List String) (l : Location) : Prop :=
  ∃ l₀ cs, fs.WalksFrom absolute names.dropLast l₀ ∧ fs.find? l₀ = some (.directory cs) ∧
    Places l₀ (names.getLastD "") l

theorem locateNames_eq_ok_iff {absolute : Bool} :
    fs.locateNames absolute names = .ok l ↔ fs.PlacesFrom absolute names l := by
  obtain ⟨hleads, hexists⟩ := fs.walk_eq_ok absolute names.dropLast
  rw [locateNames]
  constructor
  · intro h
    cases hwalk : fs.walk absolute names.dropLast with
    | error fault =>
      rw [hwalk] at h
      cases h
    | ok t =>
      obtain ⟨ht, hwalks⟩ := hleads t hwalk
      have hfind := ht.find?
      simp only [hwalk, Bind.bind, Except.bind] at h
      split at h
      · cases h
      · next cs hreached =>
        rw [hreached] at hfind
        refine ⟨_, cs, hwalks, hfind, ?_⟩
        generalize names.getLastD "" = name at h
        split at h
        · obtain rfl := Except.ok.inj h
          exact .stay (.inl rfl)
        · obtain rfl := Except.ok.inj h
          exact .stay (.inr rfl)
        · obtain rfl := Except.ok.inj h
          rw [location_tail]
          exact .up
        · next hempty hdot hdots =>
          split at h
          · cases h
          · next hlong =>
            obtain rfl := Except.ok.inj h
            exact .named ⟨hempty, hdot, hdots, Nat.not_lt.1 hlong⟩
  · rintro ⟨l₀, cs, hwalks, hl₀, hplaces⟩
    obtain ⟨t, ht, hleads, rfl⟩ := hexists l₀ hwalks
    simp only [ht, Bind.bind, Except.bind, hleads.reached_eq hl₀]
    generalize names.getLastD "" = name at hplaces
    cases hplaces with
    | stay hname => rcases hname with rfl | rfl <;> rfl
    | up => exact congrArg Except.ok (location_tail t)
    | named hname =>
      obtain ⟨hempty, hdot, hdots, hshort⟩ := hname
      split
      · exact absurd rfl hempty
      · exact absurd rfl hdot
      · exact absurd rfl hdots
      · exact if_neg (Nat.not_lt.2 hshort)

theorem locate_eq_ok_iff : fs.locate path = .ok l ↔
    unusable? path = none ∧ fs.PlacesFrom (Path.isAbsolute path) (Path.names path) l := by
  rw [locate]
  cases unusable? path with
  | some fault => simp
  | none => simp only [locateNames_eq_ok_iff, true_and]

theorem Keeps.locate (h : fs.Keeps fs') (hl : fs.locate path = .ok l) :
    fs'.locate path = .ok l := by
  obtain ⟨husable, l₀, cs, hwalks, hl₀, hplaces⟩ := locate_eq_ok_iff.1 hl
  obtain ⟨cs', hl₀'⟩ := h.directory l₀ cs hl₀
  exact locate_eq_ok_iff.2 ⟨husable, l₀, cs', h.walksFrom hwalks, hl₀', hplaces⟩

/-- Where names stand for no directory, they stand for an entry under the last of them. -/
theorem PlacesFrom.named {absolute : Bool} (h : fs.PlacesFrom absolute names l)
    (hfree : ∀ cs, fs.find? l ≠ some (.directory cs)) :
    IsProper (names.getLastD "") ∧ ∃ l₀ cs, fs.WalksFrom absolute names.dropLast l₀ ∧
      fs.find? l₀ = some (.directory cs) ∧ l = l₀ ++ [names.getLastD ""] := by
  obtain ⟨l₀, cs, hwalks, hl₀, hplaces⟩ := h
  generalize names.getLastD "" = name at hplaces ⊢
  cases hplaces with
  | stay => exact absurd hl₀ (hfree cs)
  | up =>
    obtain ⟨cs', hcs'⟩ := directory_of_prefix hl₀ (List.dropLast_prefix l₀)
    exact absurd hcs' (hfree cs')
  | named hname => exact ⟨hname, l₀, cs, hwalks, hl₀, rfl⟩

theorem PlacesFrom.free {absolute : Bool} (h : fs.PlacesFrom absolute names l)
    (hfree : ∀ cs, fs.find? l ≠ some (.directory cs)) : fs.Free l := by
  obtain ⟨-, l₀, cs, -, hl₀, rfl⟩ := h.named hfree
  exact ⟨⟨l₀, _, cs, rfl, hl₀⟩, hfree⟩

/-- What is no directory stands under the last name of a path to it. -/
theorem location_of_locate (h : fs.locate path = .ok l)
    (hfree : ∀ cs, fs.find? l ≠ some (.directory cs)) :
    IsProper (Path.lastName path) ∧ l.getLast? = some (Path.lastName path) := by
  obtain ⟨init, hnames⟩ := Path.exists_names_eq path
  obtain ⟨hname, l₀, cs, -, -, rfl⟩ := (locate_eq_ok_iff.1 h).2.named hfree
  rw [hnames, List.getLastD_concat] at hname ⊢
  exact ⟨hname, List.getLast?_concat⟩

/-- Names lead to a file just where they stand for one. -/
theorem walksFrom_iff_placesFrom {absolute : Bool} {c : Bytes}
    (hl : fs.find? l = some (.file c)) :
    fs.WalksFrom absolute (names ++ [name]) l ↔ fs.PlacesFrom absolute (names ++ [name]) l := by
  have hfree : ∀ cs, fs.find? l ≠ some (.directory cs) := by simp [hl]
  constructor
  · rintro ⟨start, hstart, hwalks⟩
    obtain ⟨m, hm, henters⟩ := hwalks.exists_last
    rw [PlacesFrom, List.dropLast_concat, List.getLastD_concat]
    cases henters with
    | stay hdirectory => exact absurd hdirectory (hfree _)
    | up hdirectory =>
      obtain ⟨cs, hcs⟩ := directory_of_prefix hdirectory (List.dropLast_prefix m)
      exact absurd hcs (hfree cs)
    | down hdirectory hname _ => exact ⟨m, _, ⟨start, hstart, hm⟩, hdirectory, .named hname⟩
  · intro h
    obtain ⟨hname, l₀, cs, ⟨start, hstart, hwalks⟩, hl₀, rfl⟩ := h.named hfree
    rw [List.dropLast_concat] at hwalks
    rw [List.getLastD_concat] at hname hl ⊢
    exact ⟨start, hstart, hwalks.append (.cons (.down hl₀ hname hl) .nil)⟩

/-- Reading gives what the file holds that the path stands for. -/
theorem read_eq_ok_iff {c : Bytes} :
    fs.read path = .ok c ↔ ∃ l, fs.locate path = .ok l ∧ fs.find? l = some (.file c) := by
  have hstat : fs.read path = .ok c ↔ fs.stat path = .ok (.file c) := by
    rw [read]
    cases fs.stat path with
    | error fault => simp
    | ok e => cases e <;> simp
  rw [hstat, stat_eq_ok_iff]
  refine exists_congr fun l => and_congr_left fun hl => ?_
  obtain ⟨init, hnames⟩ := Path.exists_names_eq path
  rw [resolve_eq_ok_iff, locate_eq_ok_iff, hnames, walksFrom_iff_placesFrom hl]

end Files

end DegreeScore
