import DegreeScore.Command.Run
import DegreeScore.Proofs.Files.Writing
import DegreeScore.Proofs.Illegible

/-!
# The outputs of a run

All outputs of a run go into one directory, each under a name that is made from the last name of its
source alone. An output may come to stand where a later source stood. Then that source is none any
more (`Compilation.no_bytes_of_encode`), and the output is in the place of its own
(`Files.output_eq_of_overwritten`). So after any number of sources each output holds what some source
with this output compiles to (`Files.Delivered`), and after all of them each source has its own just
if no two sources with one output compile to different bytes (`Command.outputs_exact_iff`).
-/

namespace DegreeScore

-- ════════════════════════════════════════════════════════════════════════
-- The places of outputs
-- ════════════════════════════════════════════════════════════════════════

namespace Path

theorem lastName_output {source : String} (h : lastName source ≠ "") (dir : String) :
    lastName (output dir source) = outputName (lastName source) := by
  rw [output_eq h, lastName_join (isPlain_outputName (notMem_lastName source))]

/-- Sources whose outputs have one name have one output. -/
theorem output_congr {p q : String} (hp : lastName p ≠ "") (hq : lastName q ≠ "")
    (h : outputName (lastName p) = outputName (lastName q)) (dir : String) :
    output dir p = output dir q := by
  rw [output_eq hp, output_eq hq, h]

end Path

namespace Files

variable {fs fs' made now : Files} {l : Location} {dir p q : String} {b c : Bytes}
  {done : List String}

-- ════════════════════════════════════════════════════════════════════════
-- Sources and their bytes
-- ════════════════════════════════════════════════════════════════════════

/-- The source at a path compiles to these bytes. -/
def Encodes (fs : Files) (path : String) (b : Bytes) : Prop :=
  ∃ c, fs.compile path = .ok c ∧ c.bytes = .ok b

instance (fs : Files) (path : String) (b : Bytes) : Decidable (fs.Encodes path b) :=
  match h : fs.compile path with
  | .ok c => decidable_of_iff (c.bytes = .ok b) (by simp [Encodes, h])
  | .error e => .isFalse (by simp [Encodes, h])

theorem encodes_iff : fs.Encodes p b ↔ ∃ source, fs.read p = .ok source ∧
    source.length ≤ maxSourceSize ∧ (DegreeScore.compile source).bytes = .ok b := by
  rw [Encodes, compile]
  cases fs.read p with
  | error e => simp
  | ok source =>
    by_cases hsize : maxSourceSize < source.length
    · simp [hsize]
    · simp [hsize, Nat.not_lt.1 hsize]

theorem Encodes.unique (h : fs.Encodes p b) (h' : fs.Encodes p c) : b = c := by
  obtain ⟨x, hx, hb⟩ := h
  obtain ⟨y, hy, hc⟩ := h'
  obtain rfl := Except.ok.inj (hx.symm.trans hy)
  exact Except.ok.inj (hb.symm.trans hc)

theorem Extends.encodes (h : fs.Extends fs') (hp : fs.Encodes p b) : fs'.Encodes p b := by
  obtain ⟨source, hread, hsource⟩ := encodes_iff.1 hp
  exact encodes_iff.2 ⟨source, h.read hread, hsource⟩

theorem Encodes.lastName_ne_empty (h : fs.Encodes p b) : Path.lastName p ≠ "" := by
  obtain ⟨source, hread, -⟩ := encodes_iff.1 h
  obtain ⟨l, hlocate, hl⟩ := read_eq_ok_iff.1 hread
  exact (location_of_locate hlocate (by simp [hl])).1.ne_empty

theorem Encodes.exists_encode (h : fs.Encodes p b) : ∃ f : Midi.File, f.encode = .ok b := by
  obtain ⟨x, -, hb⟩ := h
  obtain ⟨-, f, -, hf⟩ := Compilation.exists_compiled_of_bytes hb
  exact ⟨f, hf⟩

/-- What has bytes is written. -/
theorem deliver_of_encodes (h : fs.Encodes p b)
    (hwrite : fs.write (Path.output dir p) b = .ok fs') : (fs.deliver dir p).1 = fs' := by
  obtain ⟨x, hx, hb⟩ := h
  obtain ⟨performance, f, houtcome, hf⟩ := Compilation.exists_compiled_of_bytes hb
  simp only [deliver, hx, houtcome, hf, hwrite]

/-- What has no bytes leaves the files as they are. -/
theorem deliver_of_not_encodes (h : ∀ b, ¬fs.Encodes p b) : (fs.deliver dir p).1 = fs := by
  rw [deliver]
  split
  · rfl
  · next x hx =>
    split
    · next performance f houtcome =>
      split
      · rfl
      · next content hcontent =>
        refine absurd ⟨x, hx, ?_⟩ (h content)
        simp only [Compilation.bytes, Compilation.file?, houtcome, hcontent]
    · rfl

-- ════════════════════════════════════════════════════════════════════════
-- Source after source
-- ════════════════════════════════════════════════════════════════════════

/-- The last name of the path to an output is the name of the file. -/
theorem getLast?_of_locate_output (hlocate : fs.locate (Path.output dir p) = .ok l)
    (hfree : ∀ cs, fs.find? l ≠ some (.directory cs)) (hp : fs.Encodes p b) :
    l.getLast? = some (Path.outputName (Path.lastName p)) := by
  rw [← Path.lastName_output hp.lastName_ne_empty dir]
  exact (location_of_locate hlocate hfree).2

/-- Outputs in one place are one output. -/
theorem output_eq_of_locate (hlp : fs.locate (Path.output dir p) = .ok l)
    (hlq : fs.locate (Path.output dir q) = .ok l) (hfree : ∀ cs, fs.find? l ≠ some (.directory cs))
    (hp : fs.Encodes p b) (hq : fs.Encodes q c) : Path.output dir p = Path.output dir q := by
  have hlast := getLast?_of_locate_output hlp hfree hp
  rw [getLast?_of_locate_output hlq hfree hq] at hlast
  exact Path.output_congr hp.lastName_ne_empty hq.lastName_ne_empty (Option.some.inj hlast).symm dir

/-- An output in the place of a source is the output of this source. -/
theorem output_eq_of_overwritten (hlp : fs.locate p = .ok l)
    (hlq : fs.locate (Path.output dir q) = .ok l) (hfree : ∀ cs, fs.find? l ≠ some (.directory cs))
    (hq : fs.Encodes q b) : Path.output dir p = Path.output dir q := by
  obtain ⟨hproper, hlast⟩ := location_of_locate hlp hfree
  rw [getLast?_of_locate_output hlq hfree hq] at hlast
  refine Path.output_congr hproper.ne_empty hq.lastName_ne_empty ?_ dir
  rw [← Option.some.inj hlast, Path.outputName_outputName]

/-- What has come of the files `made` when the sources in `done` have been delivered. -/
structure Delivered (made : Files) (dir : String) (done : List String) (now : Files) : Prop where
  keeps : made.Keeps now
  free : ∀ l, made.Free l → now.Free l
  /-- A file that is in the place of no output is as it was. -/
  untouched : ∀ l c, made.find? l = some (.file c) →
    (∀ q ∈ done, made.locate (Path.output dir q) ≠ .ok l) → now.find? l = some (.file c)
  /-- An output holds what some source with this output compiles to. -/
  written : ∀ p ∈ done, ∃ l, made.locate (Path.output dir p) = .ok l ∧ made.Free l ∧
    ∃ q ∈ done, Path.output dir q = Path.output dir p ∧
      ∃ b, made.Encodes q b ∧ now.find? l = some (.file b)

theorem Delivered.start (made : Files) (dir : String) : Delivered made dir [] made :=
  ⟨.refl made, fun _ h => h, fun _ _ h _ => h, fun _ h => absurd h List.not_mem_nil⟩

/-- The next source has not been overwritten. -/
theorem Delivered.put (h : Delivered made dir done now) (hp : made.Encodes p b)
    (hlocate : made.locate (Path.output dir p) = .ok l) (hfree : made.Free l) :
    Delivered made dir (done ++ [p]) (now.put l (.file b)) := by
  have hroom := h.free l hfree
  refine ⟨h.keeps.trans (hroom.keeps fun _ _ => ⟨b, rfl⟩),
    fun l' hl' => (h.free l' hl').put_file hroom b, fun l' c hl' hapart => ?_, fun p' hp' => ?_⟩
  · obtain ⟨hdone, hlast⟩ := List.forall_mem_append.1 hapart
    refine hroom.find?_put_file ?_ (h.untouched l' c hl' hdone) _
    rintro rfl
    exact hlast p List.mem_cons_self hlocate
  · by_cases hsame : Path.output dir p' = Path.output dir p
    · rw [hsame]
      exact ⟨l, hlocate, hfree, p, List.mem_append_right _ List.mem_cons_self, rfl, b, hp,
        now.find?_put_self l _⟩
    · have hdone : p' ∈ done := by
        refine (List.mem_append.1 hp').resolve_right fun hmem => hsame ?_
        rw [List.mem_singleton.1 hmem]
      obtain ⟨l', hl', hfree', q, hq, heq, b', hb', hnow⟩ := h.written p' hdone
      refine ⟨l', hl', hfree', q, List.mem_append_left _ hq, heq, b', hb',
        hroom.find?_put_file ?_ hnow _⟩
      rintro rfl
      rw [← heq] at hl' hsame
      exact hsame (output_eq_of_locate hl' hlocate hfree.free hb' hp)

/-- The next source is an output by now. -/
theorem Delivered.overwritten (h : Delivered made dir done now) (hq : q ∈ done)
    (hsame : Path.output dir p = Path.output dir q) : Delivered made dir (done ++ [p]) now := by
  refine ⟨h.keeps, h.free, fun l c hl hapart => ?_, fun p' hp' => ?_⟩
  · exact h.untouched l c hl (List.forall_mem_append.1 hapart).1
  · obtain ⟨p₀, hp₀, heq⟩ : ∃ p₀ ∈ done, Path.output dir p' = Path.output dir p₀ := by
      rcases List.mem_append.1 hp' with hp' | hp'
      · exact ⟨p', hp', rfl⟩
      · rw [List.mem_singleton.1 hp']
        exact ⟨q, hq, hsame⟩
    obtain ⟨l, hl, hfree, q, hq, hwritten⟩ := h.written p₀ hp₀
    rw [heq]
    exact ⟨l, hl, hfree, q, List.mem_append_left _ hq, hwritten⟩

/-- One more source. -/
theorem Delivered.deliver (h : Delivered made dir done now) (hp : made.Encodes p b)
    (hwrite : made.write (Path.output dir p) b = .ok fs') :
    Delivered made dir (done ++ [p]) (now.deliver dir p).1 := by
  obtain ⟨out, hout, hfree, -⟩ := write_eq_ok_iff.1 hwrite
  obtain ⟨source, hread, hsource⟩ := encodes_iff.1 hp
  obtain ⟨l, hlocate, hl⟩ := read_eq_ok_iff.1 hread
  by_cases hover : ∃ q ∈ done, made.locate (Path.output dir q) = .ok l
  · obtain ⟨q, hq, hlq⟩ := hover
    obtain ⟨l', hl', -, q', hq', heq, b', hb', hnow⟩ := h.written q hq
    obtain rfl := Except.ok.inj (hl'.symm.trans hlq)
    have hsame : Path.output dir p = Path.output dir q' := by
      rw [← heq] at hlq
      exact output_eq_of_overwritten hlocate hlq (by simp [hl]) hb'
    have hnone : ∀ c, ¬now.Encodes p c := by
      intro c hc
      obtain ⟨source', hread', -, hc⟩ := encodes_iff.1 hc
      obtain ⟨f, hf⟩ := hb'.exists_encode
      have hread := read_eq_ok_iff.2 ⟨l', h.keeps.locate hlocate, hnow⟩
      obtain rfl := Except.ok.inj (hread.symm.trans hread')
      exact Compilation.no_bytes_of_encode hf c hc
    rw [deliver_of_not_encodes hnone]
    exact h.overwritten hq' hsame
  · have hnow := h.untouched l source hl fun q hq hlq => hover ⟨q, hq, hlq⟩
    have hread := read_eq_ok_iff.2 ⟨l, h.keeps.locate hlocate, hnow⟩
    have hroom := free_of_locate hout hfree
    have hwrite : now.write (Path.output dir p) b = .ok (now.put out (.file b)) :=
      write_eq_ok_iff.2 ⟨out, h.keeps.locate hout, (h.free out hroom).free, rfl⟩
    rw [deliver_of_encodes (encodes_iff.2 ⟨source, hread, hsource⟩) hwrite]
    exact h.put hp hout hroom

/-- Going on after failures, the sources are delivered one after the other. -/
theorem deliverAll_files (dir : String) (fs : Files) (sources : List String) :
    (fs.deliverAll dir true sources).files =
      sources.foldl (fun fs p => (fs.deliver dir p).1) fs := by
  induction sources generalizing fs with
  | nil => rfl
  | cons p sources ih =>
    rw [deliverAll, List.foldl_cons, ← ih]
    dsimp only
    split <;> rfl

theorem Delivered.deliverAll (h : Delivered made dir done now) {sources : List String}
    (hsources : ∀ p ∈ sources, ∃ b, made.Encodes p b ∧
      ∃ fs', made.write (Path.output dir p) b = .ok fs') :
    Delivered made dir (done ++ sources) (now.deliverAll dir true sources).files := by
  rw [deliverAll_files]
  induction sources generalizing done now with
  | nil => rwa [List.append_nil]
  | cons p sources ih =>
    obtain ⟨⟨b, hp, fs', hwrite⟩, hsources⟩ := List.forall_mem_cons.1 hsources
    rw [List.foldl_cons, List.append_cons]
    exact ih (h.deliver hp hwrite) hsources

end Files

namespace Command

open Files

variable {env : Environment} {fs made : Files} {o : CompileOptions} {paths sources : List String}

theorem runCompile_files (hgoing : o.keepGoing = true)
    (hgather : fs.gather o.most paths = .ok sources)
    (hdir : fs.ensureDirectory (outputDir env o.out) = (made, none)) :
    (runCompile env fs o paths).files =
      (made.deliverAll (outputDir env o.out) true sources).files := by
  simp only [runCompile, hgather, hdir, hgoing]

/-- When the sources that are gathered all compile and there is room for their outputs, each of them
has its own output in the end just if no two with one output compile to different bytes. -/
theorem outputs_exact_iff (hgoing : o.keepGoing = true)
    (hgather : fs.gather o.most paths = .ok sources)
    (hencodes : ∀ p ∈ sources, ∃ b, fs.Encodes p b)
    (hdir : fs.ensureDirectory (outputDir env o.out) = (made, none))
    (hroom : ∀ p ∈ sources, ∀ b, fs.Encodes p b →
      ∃ written, made.write (Path.output (outputDir env o.out) p) b = .ok written) :
    (∀ p ∈ sources, ∀ b, fs.Encodes p b →
        (runCompile env fs o paths).files.read (Path.output (outputDir env o.out) p) = .ok b) ↔
      ∀ p ∈ sources, ∀ q ∈ sources, ∀ b c,
        Path.output (outputDir env o.out) p = Path.output (outputDir env o.out) q →
          fs.Encodes p b → fs.Encodes q c → b = c := by
  rw [runCompile_files hgoing hgather hdir]
  generalize outputDir env o.out = dir at hdir hroom ⊢
  have hextends : fs.Extends made := by
    have h := fs.ensureDirectory_extends dir
    rwa [hdir] at h
  constructor
  · intro hexact p hp q hq b c hsame hb hc
    have hread := hexact p hp b hb
    rw [hsame, hexact q hq c hc] at hread
    exact (Except.ok.inj hread).symm
  · intro hsame p hp b hb
    have hdelivered : Delivered made dir sources (made.deliverAll dir true sources).files := by
      refine (Delivered.start made dir).deliverAll fun p hp => ?_
      obtain ⟨b, hb⟩ := hencodes p hp
      exact ⟨b, hextends.encodes hb, hroom p hp b hb⟩
    obtain ⟨l, hl, -, q, hq, heq, c, hc, hnow⟩ := hdelivered.written p hp
    obtain ⟨c', hc'⟩ := hencodes q hq
    obtain rfl := hc.unique (hextends.encodes hc')
    obtain rfl := hsame p hp q hq b c heq.symm hb hc'
    exact read_eq_ok_iff.2 ⟨l, hdelivered.keeps.locate hl, hnow⟩

/-- Two directories with a source of one note each. -/
def twoDirectories (first second : String) : Files :=
  ⟨.directory [("a", .directory [(first, .file [48])]), ("b", .directory [(second, .file [49])])], []⟩

/-- What a score of one note compiles to. -/
def oneNote (key : UInt8) : Bytes :=
  [0x4d, 0x54, 0x68, 0x64, 0, 0, 0, 6, 0, 1, 0, 2, 0, 0x60, 0x4d, 0x54, 0x72, 0x6b, 0, 0, 0, 4,
    0x60, 0xff, 0x2f, 0, 0x4d, 0x54, 0x72, 0x6b, 0, 0, 0, 12, 0, 0x90, key, 0x40, 0x60, 0x80, key, 0,
    0, 0xff, 0x2f, 0]

theorem outputs_exact_twoNames :
    ∃ made, (twoDirectories "x.dn" "y.dn").gather 0 ["a", "b"] = .ok ["a/x.dn", "b/y.dn"] ∧
      (∀ p ∈ ["a/x.dn", "b/y.dn"], ∃ b, (twoDirectories "x.dn" "y.dn").Encodes p b) ∧
      (twoDirectories "x.dn" "y.dn").ensureDirectory "out" = (made, none) ∧
      (∀ p ∈ ["a/x.dn", "b/y.dn"], ∀ b, (twoDirectories "x.dn" "y.dn").Encodes p b →
        ∃ written, made.write (Path.output "out" p) b = .ok written) ∧
      ∀ p ∈ ["a/x.dn", "b/y.dn"], ∀ b, (twoDirectories "x.dn" "y.dn").Encodes p b →
        (runCompile {} (twoDirectories "x.dn" "y.dn") { out := "out", keepGoing := true }
          ["a", "b"]).files.read (Path.output "out" p) = .ok b := by
  have hgather : (twoDirectories "x.dn" "y.dn").gather 0 ["a", "b"] = .ok ["a/x.dn", "b/y.dn"] :=
    rfl
  have hencodes : ∀ p ∈ ["a/x.dn", "b/y.dn"],
      ∃ b, (twoDirectories "x.dn" "y.dn").Encodes p b := by
    refine List.forall_mem_cons.2 ⟨⟨oneNote 0x3c, ?_⟩,
      List.forall_mem_singleton.2 ⟨oneNote 0x3e, ?_⟩⟩
    · decide +kernel
    · decide +kernel
  have hdir : (twoDirectories "x.dn" "y.dn").ensureDirectory "out" =
      (((twoDirectories "x.dn" "y.dn").ensureDirectory "out").1, none) :=
    Prod.ext rfl (by decide +kernel)
  generalize hmade : ((twoDirectories "x.dn" "y.dn").ensureDirectory "out").1 = made at hdir
  have hroom : ∀ p ∈ ["a/x.dn", "b/y.dn"], ∃ l, made.locate (Path.output "out" p) = .ok l ∧
      (made.find? l).isNone := by
    rw [← hmade]
    refine List.forall_mem_cons.2 ⟨⟨["out", "x.mid"], ?_⟩,
      List.forall_mem_singleton.2 ⟨["out", "y.mid"], ?_⟩⟩
    · decide +kernel
    · decide +kernel
  have hwrites : ∀ p ∈ ["a/x.dn", "b/y.dn"], ∀ b, (twoDirectories "x.dn" "y.dn").Encodes p b →
      ∃ written, made.write (Path.output "out" p) b = .ok written := by
    intro p hp b _
    obtain ⟨l, hl, hnone⟩ := hroom p hp
    exact ⟨_, write_eq_ok_iff.2 ⟨l, hl, by simp [Option.isNone_iff_eq_none.1 hnone], rfl⟩⟩
  have hdistinct : ∀ p ∈ ["a/x.dn", "b/y.dn"], ∀ q ∈ ["a/x.dn", "b/y.dn"],
      Path.output "out" p = Path.output "out" q → p = q := by decide +kernel
  refine ⟨made, hgather, hencodes, hdir, hwrites, ?_⟩
  refine (outputs_exact_iff (o := { out := "out", keepGoing := true }) rfl hgather hencodes hdir
    hwrites).2 fun p hp q hq b c hsame hb hc => ?_
  obtain rfl := hdistinct p hp q hq hsame
  exact hb.unique hc

theorem not_outputs_exact_sameName :
    ∃ sources, (twoDirectories "x.dn" "x.dn").gather 0 ["a", "b"] = .ok sources ∧ sources.Nodup ∧
      (∀ p ∈ sources, ∃ b, (twoDirectories "x.dn" "x.dn").Encodes p b) ∧
      (runCompile {} (twoDirectories "x.dn" "x.dn") { out := "out", keepGoing := true }
        ["a", "b"]).error = none ∧
      ¬∀ p ∈ sources, ∀ b, (twoDirectories "x.dn" "x.dn").Encodes p b →
        (runCompile {} (twoDirectories "x.dn" "x.dn") { out := "out", keepGoing := true }
          ["a", "b"]).files.read (Path.output "out" p) = .ok b := by
  have hfirst : (twoDirectories "x.dn" "x.dn").Encodes "a/x.dn" (oneNote 0x3c) := by decide +kernel
  have hsecond : (twoDirectories "x.dn" "x.dn").Encodes "b/x.dn" (oneNote 0x3e) := by decide +kernel
  have hread : (runCompile {} (twoDirectories "x.dn" "x.dn") { out := "out", keepGoing := true }
      ["a", "b"]).files.read (Path.output "out" "a/x.dn") = .ok (oneNote 0x3e) := by decide +kernel
  refine ⟨["a/x.dn", "b/x.dn"], rfl, by decide, ?_, by decide +kernel, fun h => ?_⟩
  · exact List.forall_mem_cons.2 ⟨⟨_, hfirst⟩, List.forall_mem_singleton.2 ⟨_, hsecond⟩⟩
  · have hexact := h "a/x.dn" List.mem_cons_self (oneNote 0x3c) hfirst
    rw [hread] at hexact
    exact absurd (Except.ok.inj hexact) (by decide)

end Command

end DegreeScore
