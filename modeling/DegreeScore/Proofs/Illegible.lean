import DegreeScore.Proofs.Quotation

/-!
# What is no source

A source without diagnostics has no token that the scan finds fault with (`Tree.legible_of_parse`).
The header of a MIDI file has such a token, so what is written for a compiled file cannot be compiled
again (`Compilation.no_bytes_of_encode`).
-/

namespace DegreeScore

theorem Spells.legible {s : Spelling} {ts : List Token} (h : Spells s ts) :
    ∀ t ∈ ts, t.Legible := by
  induction h with
  | number ht | text ht | mark ht => simp [Token.Legible, ht]
  | list hx _ hy ih | table hx _ hy _ ih =>
    simpa [Token.Legible, hx, hy, or_imp, forall_and] using ih
  | noItems | noEntries => simp
  | lastItem _ ih => exact ih
  | item _ hc _ ih ih' => simpa [Token.Legible, hc, or_imp, forall_and] using ⟨ih, ih'⟩
  | lastEntry hk he _ ih =>
    rcases hk with hk | ⟨hk, -⟩ <;> simpa [Token.Legible, hk, he] using ih
  | entry hk he _ hc _ ih ih' =>
    rcases hk with hk | ⟨hk, -⟩ <;>
      simpa [Token.Legible, hk, he, hc, or_imp, forall_and] using ⟨ih, ih'⟩

theorem Manuscript.Written.legible {m : Manuscript} {ts : List Token} (h : m.Written ts) :
    ∀ t ∈ ts, t.Legible := by
  cases h with
  | plain hps hstop =>
    refine List.forall_mem_append.2 ⟨hps.legible, List.forall_mem_singleton.2 ?_⟩
    simp [Token.Legible, hstop]
  | withMetadata hps hc htable hstop =>
    refine List.forall_mem_append.2 ⟨hps.legible, List.forall_mem_cons.2 ⟨?_, ?_⟩⟩
    · simp [Token.Legible, hc]
    · refine List.forall_mem_append.2 ⟨htable.legible, List.forall_mem_singleton.2 ?_⟩
      simp [Token.Legible, hstop]

theorem Tree.legible_of_parse {src : Bytes} (h : (parse src).2 = []) :
    ∀ t ∈ Token.scan src, t.Legible := by
  obtain ⟨m, hm, -⟩ := written_of_parse h
  exact hm.legible

-- ════════════════════════════════════════════════════════════════════════
-- Written files
-- ════════════════════════════════════════════════════════════════════════

theorem Midi.File.exists_eq_of_encode {f : File} {b : Bytes} (h : f.encode = .ok b) :
    ∃ rest, b = tag ++ 0 :: rest := by
  obtain ⟨-, -, timing, division, body, -, -, -, rfl⟩ := encode_eq_ok_iff.1 h
  simp only [header, headerLength, List.append_assoc, List.cons_append]
  exact ⟨_, rfl⟩

/-- The tag of a file is a mark, and the byte after it begins no token. -/
theorem Token.exists_scan_tag (rest : Bytes) :
    ∃ t ∈ scan (Midi.File.tag ++ 0 :: rest), ¬t.Legible := by
  obtain ⟨ts, hts, -⟩ := exists_scans_scanFrom [] 5 (Nat.lt_succ_self rest.length)
  have hscans : Scans 0 (Midi.File.tag ++ 0 :: rest)
      (⟨.mark, 0, Midi.File.tag⟩ :: ⟨.invalid (.unexpected (Char.ofNat 0)), 4, [0]⟩ :: ts) :=
    .cons (w := Midi.File.tag) rfl (by simp) (.cons (w := [0]) rfl (by simp) hts)
  rw [scan_eq_iff.2 hscans]
  exact ⟨_, List.mem_cons_of_mem _ List.mem_cons_self, fun h => h _ rfl⟩

/-- What is written for a file has no file of its own. -/
theorem Compilation.no_bytes_of_encode {f : Midi.File} {b : Bytes} (h : f.encode = .ok b)
    (b' : Bytes) : (compile b).bytes ≠ .ok b' := by
  intro hb'
  obtain ⟨p, f', hcompiled, -⟩ := exists_compiled_of_bytes hb'
  obtain ⟨rest, rfl⟩ := Midi.File.exists_eq_of_encode h
  obtain ⟨t, ht, hfault⟩ := Token.exists_scan_tag rest
  exact hfault (Tree.legible_of_parse (congrArg Prod.snd (parse_of_compiled hcompiled)) t ht)

end DegreeScore
