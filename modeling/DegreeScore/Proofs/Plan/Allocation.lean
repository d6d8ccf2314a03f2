import DegreeScore.Proofs.Plan.Programs
import Mathlib.Data.List.Induction
import Mathlib.Data.List.Nodup
import Mathlib.Data.List.Perm.Subperm

/-!
# Which channel a program gets

The distinct programs that are asked for get the channels in the order of preference: the first one
gets channel 15, and so on, until the fourteenth one has got channel 0 (`Channels.allots`). One pass
over the channels is enough to find out (`Channels.allocate_eq_pass`).

## Main definitions

- `Channels.afterAsking` — the table after a run of calls
- `Channels.pass` — the search for a program and for a free channel at once
- `Channels.Assigns` — a table whose channels go to the programs of a list
- `Channels.Allots` — what a run of calls does
-/

namespace DegreeScore

/-- The table after an answer; `t` is the one before it. -/
def Channels.Allocation.table (t : Channels) : Allocation → Channels
  | .fresh _ u => u
  | .kept _ | .exhausted => t

namespace Channels

/-- The table after programs have been asked for in turn, where all channels were free before. -/
def afterAsking (ps : List UInt8) : Channels := ps.foldl (fun t p => (t.allocate p).table t) free

theorem afterAsking_concat (ps : List UInt8) (p : UInt8) :
    afterAsking (ps ++ [p]) = ((afterAsking ps).allocate p).table (afterAsking ps) :=
  List.foldl_concat ..

-- ════════════════════════════════════════════════════════════════════════
-- One pass
-- ════════════════════════════════════════════════════════════════════════

/-- Looks through channels for the one that plays a program, and remembers the first free one, which
is `spare` if it has been passed already. -/
def pass (t : Channels) (p : UInt8) (spare : Option (Fin 16)) : List (Fin 16) → Allocation
  | [] =>
    match spare with
    | some c => .fresh c (t.bind c p)
    | none => .exhausted
  | c :: cs =>
    if t.program c = some p then .kept c
    else pass t p (spare.or (if t.program c = none then some c else none)) cs

theorem pass_eq (t : Channels) (p : UInt8) (spare : Option (Fin 16)) (cs : List (Fin 16)) :
    t.pass p spare cs =
      match cs.find? fun c => t.program c = some p with
      | some c => .kept c
      | none =>
        match spare.or (cs.find? fun c => (t.program c).isNone) with
        | some c => .fresh c (t.bind c p)
        | none => .exhausted := by
  induction cs generalizing spare with
  | nil => simp [pass]
  | cons c cs ih =>
    rw [pass]
    by_cases hc : t.program c = some p
    · simp [hc]
    · rw [if_neg hc, ih, List.find?_cons_of_neg (by simpa using hc)]
      cases hnone : t.program c with
      | none => cases spare <;> simp [hnone]
      | some q => simp [hnone]

/-- A channel that plays the program is found also behind a free one, and a free one is taken only
if there is none. -/
theorem allocate_eq_pass (t : Channels) (p : UInt8) : t.allocate p = t.pass p none playable := by
  rw [pass_eq, Option.none_or]
  rfl

-- ════════════════════════════════════════════════════════════════════════
-- One call
-- ════════════════════════════════════════════════════════════════════════

/-- The channels go to the programs of a list in the order of preference, and nothing else is
bound. -/
def Assigns (t : Channels) (ds : List UInt8) : Prop :=
  ∀ c p, t.program c = some p ↔ ∃ j : Nat, playable[j]? = some c ∧ ds[j]? = some p

theorem eq_of_getElem? {α : Type} {xs : List α} (h : xs.Nodup) {i j : Nat} {x : α}
    (hi : xs[i]? = some x) (hj : xs[j]? = some x) : i = j :=
  (List.getElem?_inj (List.getElem?_eq_some_iff.1 hi).1 h).1 (hi.trans hj.symm)

theorem nodup_playable : playable.Nodup := by decide

namespace Assigns

variable {t : Channels} {ds : List UInt8} {p : UInt8} {c d : Fin 16} {j : Nat}

theorem mem_playable (h : t.Assigns ds) (hc : t.program c = some p) : c ∈ playable := by
  obtain ⟨j, hj, -⟩ := (h c p).1 hc
  exact List.mem_of_getElem? hj

theorem distinct (h : t.Assigns ds) (hnodup : ds.Nodup) (hc : t.program c = some p)
    (hd : t.program d = some p) : c = d := by
  obtain ⟨i, hi, hpi⟩ := (h c p).1 hc
  obtain ⟨j, hj, hpj⟩ := (h d p).1 hd
  obtain rfl := eq_of_getElem? hnodup hpi hpj
  exact Option.some.inj (hi.symm.trans hj)

/-- A program that has a channel keeps it. -/
theorem kept (h : t.Assigns ds) (hnodup : ds.Nodup) (hc : t.program c = some p) :
    t.allocate p = .kept c := by
  have hplaying : t.playing? p = some c := by
    cases hfound : t.playing? p with
    | none => exact absurd (decide_eq_true hc) (List.find?_eq_none.1 hfound c (h.mem_playable hc))
    | some d =>
      have hd := List.find?_some (show playable.find? _ = some d from hfound)
      rw [h.distinct hnodup hc (of_decide_eq_true hd)]
  rw [allocate, hplaying]

theorem program_eq_none_iff (h : t.Assigns ds) (hj : playable[j]? = some c) :
    t.program c = none ↔ ds.length ≤ j := by
  rw [← List.getElem?_eq_none_iff, Option.eq_none_iff_forall_ne_some,
    Option.eq_none_iff_forall_ne_some]
  refine forall_congr' fun p => not_congr ?_
  rw [h c p]
  refine ⟨fun ⟨i, hi, hp⟩ => eq_of_getElem? nodup_playable hi hj ▸ hp, fun hp => ⟨j, hj, hp⟩⟩

/-- The highest free channel is the one after those of the list. -/
theorem highestFree?_eq (h : t.Assigns ds) : t.highestFree? = playable[ds.length]? := by
  cases hc : playable[ds.length]? with
  | none =>
    refine List.find?_eq_none.2 fun d hd hnone => ?_
    obtain ⟨j, hj⟩ := List.mem_iff_getElem?.1 hd
    have hle := (h.program_eq_none_iff hj).1 (Option.isNone_iff_eq_none.1 hnone)
    have hlt := (List.getElem?_eq_some_iff.1 hj).1
    have hlength := List.getElem?_eq_none_iff.1 hc
    omega
  | some c =>
    obtain ⟨hlt, hget⟩ := List.getElem?_eq_some_iff.1 hc
    refine List.find?_eq_some_iff_getElem.2 ⟨?_, ds.length, hlt, hget, fun i hi => ?_⟩
    · exact Option.isNone_iff_eq_none.2 ((h.program_eq_none_iff hc).2 le_rfl)
    · have hnone := h.program_eq_none_iff (List.getElem?_eq_getElem (hi.trans hlt))
      rw [Bool.not_eq_true', ← Bool.not_eq_true, Option.isNone_iff_eq_none, hnone]
      exact Nat.not_le_of_lt hi

theorem playing?_eq_none (h : t.Assigns ds) (hnew : p ∉ ds) : t.playing? p = none := by
  refine List.find?_eq_none.2 fun d _ hd => hnew ?_
  obtain ⟨j, -, hj⟩ := (h d p).1 (of_decide_eq_true hd)
  exact List.mem_of_getElem? hj

/-- A new program gets the next channel. -/
theorem fresh (h : t.Assigns ds) (hnew : p ∉ ds) (hc : playable[ds.length]? = some c) :
    t.allocate p = .fresh c (t.bind c p) := by
  rw [allocate, h.playing?_eq_none hnew, h.highestFree?_eq, hc]

/-- A new program gets nothing if all channels are taken. -/
theorem exhausted (h : t.Assigns ds) (hnew : p ∉ ds) (hfull : playable.length ≤ ds.length) :
    t.allocate p = .exhausted := by
  rw [allocate, h.playing?_eq_none hnew, h.highestFree?_eq, List.getElem?_eq_none hfull]

theorem bind (h : t.Assigns ds) (hc : playable[ds.length]? = some c) :
    (t.bind c p).Assigns (ds ++ [p]) := by
  intro d q
  rw [program_bind]
  by_cases hdc : d = c
  · rw [if_pos hdc, hdc]
    refine ⟨fun hq => ⟨ds.length, hc, by rw [List.getElem?_concat_length, hq]⟩,
      fun ⟨j, hj, hq⟩ => ?_⟩
    rwa [eq_of_getElem? nodup_playable hj hc, List.getElem?_concat_length] at hq
  · rw [if_neg hdc, h d q]
    refine exists_congr fun j => and_congr_right fun hj => ?_
    have hne : j ≠ ds.length := by
      rintro rfl
      exact hdc (Option.some.inj (hj.symm.trans hc))
    rw [List.getElem?_append]
    split
    · rfl
    · rw [List.getElem?_eq_none (by omega), List.getElem?_eq_none (by simp; omega)]

/-- What a call does to the table: nothing for a program that has a channel or when all channels are
taken, and else it gives the next channel away. -/
theorem step (h : t.Assigns ds) (hnodup : ds.Nodup) (hlength : ds.length ≤ playable.length)
    (p : UInt8) :
    (p ∈ ds ∧ (∃ c, t.program c = some p ∧ t.allocate p = .kept c)) ∨
      (p ∉ ds ∧ ∃ c, playable[ds.length]? = some c ∧ t.allocate p = .fresh c (t.bind c p)) ∨
      (p ∉ ds ∧ ds.length = playable.length ∧ t.allocate p = .exhausted) := by
  by_cases hmem : p ∈ ds
  · obtain ⟨j, hj⟩ := List.mem_iff_getElem?.1 hmem
    have hlt : j < playable.length := (List.getElem?_eq_some_iff.1 hj).1.trans_le hlength
    have hbound := (h _ p).2 ⟨j, List.getElem?_eq_getElem hlt, hj⟩
    exact .inl ⟨hmem, _, hbound, h.kept hnodup hbound⟩
  · rcases hlength.lt_or_eq with hlt | heq
    · have hnext := List.getElem?_eq_getElem hlt
      exact .inr (.inl ⟨hmem, _, hnext, h.fresh hmem hnext⟩)
    · exact .inr (.inr ⟨hmem, heq, h.exhausted hmem heq.ge⟩)

end Assigns

theorem assigns_free : free.Assigns [] := by
  intro c p
  refine ⟨fun h => ?_, fun ⟨j, _, hj⟩ => ?_⟩
  · cases h
  · cases hj

-- ════════════════════════════════════════════════════════════════════════
-- A run of calls
-- ════════════════════════════════════════════════════════════════════════

/-- The programs that get a channel: as many of the distinct ones that are asked for as there are
channels, in the order in which they are first asked for. -/
def provided (ps : List UInt8) : List UInt8 := ps.eraseDups.take playable.length

theorem eraseDups_concat {α : Type} [DecidableEq α] (ps : List α) (p : α) :
    (ps ++ [p]).eraseDups = if p ∈ ps then ps.eraseDups else ps.eraseDups ++ [p] := by
  rw [List.eraseDups_append, List.removeAll]
  split
  · next h => simp [h]
  · next h => simp [h, List.eraseDups_cons]

theorem nodup_eraseDups {α : Type} [DecidableEq α] (ps : List α) : ps.eraseDups.Nodup := by
  induction ps using List.reverseRecOn with
  | nil => exact List.nodup_nil
  | append_singleton ps p ih =>
    rw [eraseDups_concat]
    split
    · exact ih
    · next h => exact List.concat_eq_append ▸ ih.concat (by rwa [List.mem_eraseDups])

theorem nodup_provided (ps : List UInt8) : (provided ps).Nodup := (nodup_eraseDups ps).take

theorem length_provided_le (ps : List UInt8) : (provided ps).length ≤ playable.length :=
  List.length_take_le ..

theorem provided_concat (ps : List UInt8) (p : UInt8) :
    provided (ps ++ [p]) =
      if p ∈ provided ps ∨ (provided ps).length = playable.length then provided ps
      else provided ps ++ [p] := by
  have hlength : (provided ps).length = min playable.length ps.eraseDups.length := List.length_take
  have hsplit := List.take_append_drop playable.length ps.eraseDups
  rw [provided, eraseDups_concat]
  by_cases hasked : p ∈ ps
  · rw [if_pos hasked, if_pos ?_]
    · rfl
    · -- A program that has been asked for in vain has come after all channels were taken.
      refine or_iff_not_imp_left.2 fun hmem => ?_
      rw [← List.mem_eraseDups, ← hsplit] at hasked
      have hdrop := List.length_pos_of_mem ((List.mem_append.1 hasked).resolve_left hmem)
      rw [List.length_drop] at hdrop
      omega
  · have hnew : p ∉ provided ps := fun h => hasked (List.mem_eraseDups.1 (List.mem_of_mem_take h))
    rw [if_neg hasked]
    by_cases hfull : (provided ps).length = playable.length
    · rw [if_pos (.inr hfull), List.take_append_of_le_length (by omega)]
      rfl
    · rw [if_neg (by simp [hnew, hfull]), List.take_of_length_le (by simp; omega), provided,
        List.take_of_length_le (by omega)]

theorem assigns_afterAsking (ps : List UInt8) : (afterAsking ps).Assigns (provided ps) := by
  induction ps using List.reverseRecOn with
  | nil => exact assigns_free
  | append_singleton ps p ih =>
    rw [afterAsking_concat, provided_concat]
    rcases ih.step (nodup_provided ps) (length_provided_le ps) p with
      ⟨hmem, c, -, hkept⟩ | ⟨hnew, c, hc, hfresh⟩ | ⟨hnew, hfull, hexhausted⟩
    · rw [hkept, if_pos (.inl hmem)]
      exact ih
    · have hroom : (provided ps).length ≠ playable.length :=
        (List.getElem?_eq_some_iff.1 hc).1.ne
      rw [hfresh, if_neg (by simp [hnew, hroom])]
      exact ih.bind hc
    · rw [hexhausted, if_pos (.inr hfull)]
      exact ih

variable {ps : List UInt8} {p : UInt8} {c d : Fin 16}

theorem provided_append_of_full (h : (provided ps).length = playable.length) (more : List UInt8) :
    provided (ps ++ more) = provided ps := by
  rw [provided, List.length_take] at h
  rw [provided, List.eraseDups_append, List.take_append_of_le_length (by omega), provided]

theorem provided_of_lt (h : (provided ps).length < playable.length) :
    provided ps = ps.eraseDups := by
  rw [provided, List.length_take] at h
  exact List.take_of_length_le (by omega)

theorem program_eq_some_iff : (afterAsking ps).program c = some p ↔
    ∃ j : Nat, playable[j]? = some c ∧ ps.eraseDups[j]? = some p := by
  rw [assigns_afterAsking ps c p]
  refine exists_congr fun j => and_congr_right fun hj => ?_
  rw [provided, List.getElem?_take_of_lt (List.getElem?_eq_some_iff.1 hj).1]

theorem mem_provided_iff : p ∈ provided ps ↔ ∃ c, (afterAsking ps).program c = some p := by
  constructor
  · intro hmem
    obtain ⟨j, hj⟩ := List.mem_iff_getElem?.1 hmem
    have hlt := (List.getElem?_eq_some_iff.1 hj).1.trans_le (length_provided_le ps)
    exact ⟨_, (assigns_afterAsking ps _ p).2 ⟨j, List.getElem?_eq_getElem hlt, hj⟩⟩
  · rintro ⟨c, hc⟩
    obtain ⟨j, -, hj⟩ := (assigns_afterAsking ps c p).1 hc
    exact List.mem_of_getElem? hj

theorem extends_afterAsking (ps more : List UInt8) :
    (afterAsking ps).Extends (afterAsking (ps ++ more)) := by
  intro c p hc
  obtain ⟨j, hj, hp⟩ := program_eq_some_iff.1 hc
  refine program_eq_some_iff.2 ⟨j, hj, ?_⟩
  rw [List.eraseDups_append, List.getElem?_append_left (List.getElem?_eq_some_iff.1 hp).1, hp]

theorem allocate_eq_kept_iff :
    (afterAsking ps).allocate p = .kept c ↔ (afterAsking ps).program c = some p :=
  ⟨allocate_kept, (assigns_afterAsking ps).kept (nodup_provided ps)⟩

theorem allocate_eq_fresh_iff {u : Channels} : (afterAsking ps).allocate p = .fresh c u ↔
    p ∉ ps ∧ playable[ps.eraseDups.length]? = some c ∧ u = (afterAsking ps).bind c p := by
  constructor
  · intro h
    have hassigns := assigns_afterAsking ps
    obtain ⟨hnone, hfree, rfl⟩ := playing?_eq_none_of_fresh h
    rw [hassigns.highestFree?_eq] at hfree
    have hall := provided_of_lt (List.getElem?_eq_some_iff.1 hfree).1
    rw [hall] at hfree
    refine ⟨fun hmem => ?_, hfree, rfl⟩
    rw [← List.mem_eraseDups, ← hall, mem_provided_iff] at hmem
    obtain ⟨d, hd⟩ := hmem
    exact List.find?_eq_none.1 hnone d (hassigns.mem_playable hd) (decide_eq_true hd)
  · rintro ⟨hnew, hc, rfl⟩
    have hlt := (List.getElem?_eq_some_iff.1 hc).1
    have hall : provided ps = ps.eraseDups := List.take_of_length_le hlt.le
    rw [← List.mem_eraseDups, ← hall] at hnew
    rw [← hall] at hc
    exact (assigns_afterAsking ps).fresh hnew hc

theorem allocate_eq_exhausted_iff : (afterAsking ps).allocate p = .exhausted ↔
    p ∉ provided ps ∧ (provided ps).length = playable.length := by
  rcases (assigns_afterAsking ps).step (nodup_provided ps) (length_provided_le ps) p with
    ⟨hmem, c, -, hkept⟩ | ⟨hnew, c, hc, hfresh⟩ | ⟨hnew, hfull, hexhausted⟩
  · simp [hkept, hmem]
  · simp [hfresh, (List.getElem?_eq_some_iff.1 hc).1.ne]
  · simp [hexhausted, hnew, hfull]

/-- A program that has a channel has been asked for with success. -/
theorem exists_call_of_program (hc : (afterAsking ps).program c = some p) : ∃ before after,
    ps = before ++ p :: after ∧ (afterAsking before).allocate p ≠ .exhausted := by
  have hmem : p ∈ provided ps := mem_provided_iff.2 ⟨c, hc⟩
  obtain ⟨before, after, hsplit⟩ :=
    List.append_of_mem (List.mem_eraseDups.1 (List.mem_of_mem_take hmem))
  refine ⟨before, after, hsplit, fun hfailed => ?_⟩
  -- Once a call has failed, no program is added.
  obtain ⟨hnew, hfull⟩ := allocate_eq_exhausted_iff.1 hfailed
  rw [hsplit, provided_append_of_full hfull] at hmem
  exact hnew hmem

/-- What the calls of a run on a free table do; `ps` are the programs asked for so far. -/
structure Allots (ps : List UInt8) : Prop where
  /-- The distinct programs have the channels in the order of preference; nothing else is bound. -/
  program : ∀ c p, (afterAsking ps).program c = some p ↔
    ∃ j : Nat, playable[j]? = some c ∧ ps.eraseDups[j]? = some p
  distinct : ∀ c d p,
    (afterAsking ps).program c = some p → (afterAsking ps).program d = some p → c = d
  percussion : (afterAsking ps).program 9 = none ∧ (afterAsking ps).program 10 = none
  /-- A program that has a channel keeps it, and every later call for it is answered with that. -/
  lasting : ∀ c p more, (afterAsking ps).program c = some p →
    (afterAsking (ps ++ more)).program c = some p ∧
      (afterAsking (ps ++ more)).allocate p = .kept c
  /-- A program is bound by the first call for it that succeeds, and by no other. -/
  first : ∀ p, (∃ c u, (afterAsking ps).allocate p = .fresh c u) ↔
    (afterAsking ps).allocate p ≠ .exhausted ∧
      ∀ before after, ps = before ++ p :: after → (afterAsking before).allocate p = .exhausted
  /-- A program that has not been asked for is bound to the next channel, if there is one. -/
  fresh : ∀ p c u, (afterAsking ps).allocate p = .fresh c u ↔
    p ∉ ps ∧ playable[ps.eraseDups.length]? = some c ∧ u = afterAsking (ps ++ [p])
  /-- A call fails if the program has no channel and fourteen others have one. -/
  exhausted : ∀ p, (afterAsking ps).allocate p = .exhausted ↔
    (∀ c, (afterAsking ps).program c ≠ some p) ∧ ∃ qs : List UInt8, qs.Nodup ∧ qs.length = 14 ∧
      ∀ q ∈ qs, ∃ c, (afterAsking ps).program c = some q
  unchanged : ∀ p, (afterAsking ps).allocate p = .exhausted →
    afterAsking (ps ++ [p]) = afterAsking ps
  /-- One pass over the channels finds the answer. -/
  pass : ∀ p, (afterAsking ps).allocate p = (afterAsking ps).pass p none playable

/-- Programs get the channels in the order of preference, each at its first call, and keep them. -/
theorem allots (ps : List UInt8) : Allots ps where
  program c p := program_eq_some_iff
  distinct c d p := (assigns_afterAsking ps).distinct (nodup_provided ps)
  percussion := by
    have hnone : ∀ c ∉ playable, (afterAsking ps).program c = none := by
      intro c hc
      refine Option.eq_none_iff_forall_ne_some.2 fun p hp => hc ?_
      exact (assigns_afterAsking ps).mem_playable hp
    exact ⟨hnone 9 (by decide), hnone 10 (by decide)⟩
  lasting c p more hc := by
    have hlater := extends_afterAsking ps more c p hc
    exact ⟨hlater, allocate_eq_kept_iff.2 hlater⟩
  first p := by
    constructor
    · rintro ⟨c, u, h⟩
      refine ⟨by simp [h], fun before after hsplit => ?_⟩
      exact absurd (hsplit ▸ List.mem_append_right before List.mem_cons_self)
        (allocate_eq_fresh_iff.1 h).1
    · rintro ⟨hsucceeds, hfailed⟩
      cases h : (afterAsking ps).allocate p with
      | fresh c u => exact ⟨c, u, rfl⟩
      | exhausted => exact absurd h hsucceeds
      | kept c =>
        obtain ⟨before, after, hsplit, hcall⟩ := exists_call_of_program (allocate_eq_kept_iff.1 h)
        exact absurd (hfailed before after hsplit) hcall
  fresh p c u := by
    rw [allocate_eq_fresh_iff]
    refine and_congr_right fun hnew => and_congr_right fun hc => ?_
    rw [afterAsking_concat, allocate_eq_fresh_iff.2 ⟨hnew, hc, rfl⟩]
    rfl
  exhausted p := by
    rw [allocate_eq_exhausted_iff, mem_provided_iff, not_exists]
    refine and_congr_right fun _ => ⟨fun hfull => ?_, fun ⟨qs, hnodup, hlength, hqs⟩ => ?_⟩
    · exact ⟨_, nodup_provided ps, hfull, fun q hq => mem_provided_iff.1 hq⟩
    · have hsub : qs ⊆ provided ps := fun q hq => mem_provided_iff.2 (hqs q hq)
      have hle : qs.length ≤ (provided ps).length := (hnodup.subperm hsub).length_le
      exact (length_provided_le ps).antisymm (hlength.ge.trans hle)
  unchanged p h := by
    rw [afterAsking_concat, h]
    rfl
  pass p := allocate_eq_pass _ p

end Channels

end DegreeScore
