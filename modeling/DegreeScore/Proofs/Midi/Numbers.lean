import DegreeScore.Proofs.Midi.Rewriting
import DegreeScore.Proofs.Midi.Truncation

/-!
# How numbers are written and read

A quantity has one shortest form, and longer ones that begin with groups of zeros. What is written is
the shortest form (`Quantity.append_eq`), and any form is read. So reading undoes writing, and writing
undoes reading exactly if the first group is not a zero that other groups follow
(`Quantity.Spells.eq_short_iff`). Nothing is read from four marked bytes, nor from fewer if they are
all there are (`Reader.runOn_quantity_marked`, `Reader.runOn_quantity_cut`).

Words of a fixed width are the digits of a number to the base 256. Whatever the width is, reading adds
them up in 32 bits (`Reader.toNat_word`), and writing keeps the lowest ones (`bigEndian_fixedWidth`).

## Main results

- `Quantity.exactCode` — quantities, and byte strings after their length
- `fixedWidth_exact` — words of a fixed width
-/

namespace DegreeScore.Midi

-- ════════════════════════════════════════════════════════════════════════
-- Runs on all of the bytes
-- ════════════════════════════════════════════════════════════════════════

namespace Reader

variable {α : Type} {r : Reader α} {P : Bytes → α → Prop} {bytes : Bytes} {a : α} {size : Nat}

theorem Reads.runOn_append (h : Reads r bytes a) (rest : Bytes) :
    r.runOn (bytes ++ rest) = (.ok a, bytes.length) := by
  rw [Reader.runOn, h 0 rest, Nat.zero_add]

theorem Only.of_runOn (h : Only r P) (hrun : r.runOn bytes = (.ok a, size)) :
    ∃ taken rest, bytes = taken ++ rest ∧ size = taken.length ∧ P taken a := by
  rw [Reader.runOn] at hrun
  split at hrun
  · next a' c hok =>
    obtain ⟨haccepted, rfl⟩ := Prod.mk.inj hrun
    obtain rfl := Except.ok.inj haccepted
    obtain ⟨taken, rest, hbytes, rfl, hP⟩ := h hok
    exact ⟨taken, rest, hbytes, Nat.zero_add _, hP⟩
  · next e c herror => cases hrun

theorem runOn_of_error {e : ReadError} {c : Cursor} (h : r.run ⟨0, bytes⟩ = .error e c) :
    r.runOn bytes = (.error e, c.offset) := by
  rw [runOn, h]

end Reader

-- ════════════════════════════════════════════════════════════════════════
-- Forms of a quantity
-- ════════════════════════════════════════════════════════════════════════

namespace Quantity

variable {bytes other short : Bytes} {n : Nat}

theorem value_cons (b : UInt8) (bytes : Bytes) :
    value (b :: bytes) = value bytes + 128 ^ bytes.length * (b.toNat % 128) :=
  ofDigits_reverse_cons 128 (fun b => b.toNat % 128) b bytes

/-- What is written is a form of the number. -/
theorem spells_of_encode? {v : UInt32} (h : encode? v = some short) : Spells short v.toNat := by
  have hread := Reader.reads_quantity h 0 []
  obtain ⟨taken, rest, hshort, hcursor, hspells⟩ := Reader.only_quantity hread
  obtain ⟨-, rfl⟩ := Cursor.mk.inj hcursor
  rw [List.append_cancel_right hshort]
  exact hspells

theorem encode?_eq_none_iff {v : UInt32} : encode? v = none ↔ maxValue < v := by
  rw [← UInt32.not_le, ← lt_iff_le_maxValue, ← exists_encode?_iff, Option.eq_none_iff_forall_ne_some,
    not_exists]

/-- Marked bytes are determined by their low seven bits. -/
theorem map_more_low {marked : Bytes} (h : ∀ b ∈ marked, 128 ≤ b.toNat) :
    (marked.map fun b => b.toNat % 128).map more = marked := by
  rw [List.map_map]
  refine (List.map_congr_left fun b hb => ?_).trans (List.map_id marked)
  have hmark := h b hb
  have hb := b.toNat_lt
  apply UInt8.toNat_inj.1
  rw [Function.comp_apply, Reader.toNat_more, id]
  omega

namespace Spells

/-- The byte that ends a quantity is not marked. -/
theorem exists_unmarked (h : Spells bytes n) : ∃ b ∈ bytes, b.toNat < 128 := by
  cases h with
  | @intro marked last _ _ hlast => exact ⟨last, List.mem_concat_self, hlast⟩

/-- A byte that others follow is marked. -/
theorem marked_head {b : UInt8} (h : Spells (b :: bytes) n) (hrest : bytes ≠ []) :
    128 ≤ b.toNat := by
  generalize hall : b :: bytes = all at h
  cases h with
  | @intro marked last _ hmarked _ =>
    cases marked with
    | nil => exact absurd (List.cons.inj hall).2 hrest
    | cons x marked =>
      obtain rfl : b = x := (List.cons.inj hall).1
      exact hmarked b List.mem_cons_self

/-- The low seven bits of the bytes determine them. -/
theorem eq_of_low_eq {m : Nat} (h : Spells bytes n) (hother : Spells other m)
    (hlow : (bytes.map fun b => b.toNat % 128) = other.map fun b => b.toNat % 128) :
    bytes = other := by
  cases h with
  | @intro marked last _ hmarked hlast =>
    cases hother with
    | @intro marked' last' _ hmarked' hlast' =>
      rw [List.map_append, List.map_append] at hlow
      obtain ⟨hinits, hends⟩ := List.append_inj' hlow rfl
      have hinit : marked = marked' := by
        rw [← map_more_low hmarked, hinits, map_more_low hmarked']
      have hlast : last = last' := by
        have hdigit : last.toNat % 128 = last'.toNat % 128 := (List.cons.inj hends).1
        apply UInt8.toNat_inj.1
        omega
      rw [hinit, hlast]

/-- A number has no more than one form of each length. -/
theorem eq_of_length_eq (h : Spells bytes n) (hother : Spells other n)
    (hlength : bytes.length = other.length) : bytes = other := by
  apply h.eq_of_low_eq hother
  apply List.reverse_injective
  refine Nat.ofDigits_inj_of_len_eq (b := 128) (by decide) ?_ ?_ ?_ ?_
  · rw [List.length_reverse, List.length_reverse, List.length_map, List.length_map, hlength]
  · simp [Nat.mod_lt]
  · simp [Nat.mod_lt]
  · exact h.eq_value.symm.trans hother.eq_value

/-- A first group of zeros that others follow is not needed. -/
theorem length_short_lt {v : UInt32} (h : Spells (0x80 :: bytes) v.toNat) (hrest : bytes ≠ [])
    (hshort : encode? v = some short) : short.length < (0x80 :: bytes).length := by
  have hvalue : v.toNat = value bytes := h.eq_value.trans (value_cons 0x80 bytes)
  have hlt : v.toNat < 128 ^ bytes.length := by
    rw [hvalue]
    exact value_lt bytes
  exact Nat.lt_succ_of_le (length_le_of_encode? hshort (List.length_pos_iff.2 hrest) hlt)

/-- A first group that is not of zeros counts for more than the others can. -/
theorem pow_le {b : UInt8} (h : Spells (b :: bytes) n) (hrest : bytes ≠ []) (hb : b ≠ 0x80) :
    128 ^ bytes.length ≤ n := by
  have hmark := h.marked_head hrest
  have hlt := b.toNat_lt
  have hne : b.toNat ≠ 128 := fun heq => hb (UInt8.toNat_inj.1 heq)
  rw [h.eq_value, value_cons]
  exact (Nat.le_mul_of_pos_right _ (by omega)).trans (Nat.le_add_left ..)

/-- A form is the shortest one unless it begins with a group of zeros that others follow. -/
theorem eq_short_iff {v : UInt32} (h : Spells bytes v.toNat) (hshort : encode? v = some short) :
    short = bytes ↔ bytes.length = 1 ∨ bytes.head? ≠ some 0x80 := by
  have hspells := spells_of_encode? hshort
  have hle : short.length ≤ bytes.length := h.length_short_le (by rwa [UInt32.ofNat_toNat])
  have hsame : bytes.length ≤ short.length → short = bytes :=
    fun hge => hspells.eq_of_length_eq h (le_antisymm hle hge)
  cases bytes with
  | nil => exact absurd h.length_pos (Nat.lt_irrefl 0)
  | cons b rest =>
    by_cases hrest : rest = []
    · subst hrest
      exact iff_of_true (hsame hspells.length_pos) (.inl rfl)
    by_cases hb : b = 0x80
    · subst hb
      refine iff_of_false (fun heq => ?_) ?_
      · exact (h.length_short_lt hrest hshort).ne (congrArg List.length heq)
      · rintro (hone | hhead)
        · exact hrest (List.length_eq_zero_iff.1 (Nat.succ.inj hone))
        · exact hhead rfl
    · have hlt : 128 ^ rest.length < 128 ^ short.length := by
        apply (h.pow_le hrest hb).trans_lt
        rw [hspells.eq_value]
        exact value_lt short
      refine iff_of_true (hsame ?_) (.inr fun hhead => hb (Option.some.inj hhead))
      exact (Nat.pow_lt_pow_iff_right (by decide)).1 hlt

end Spells

/-- All bytes are marked, or a first one is not. -/
theorem marked_or_split (bytes : Bytes) : (∀ b ∈ bytes, 128 ≤ b.toNat) ∨
    ∃ marked last rest, bytes = marked ++ last :: rest ∧ (∀ b ∈ marked, 128 ≤ b.toNat) ∧
      last.toNat < 128 := by
  induction bytes with
  | nil => exact .inl (List.forall_mem_nil _)
  | cons b bytes ih =>
    by_cases hb : 128 ≤ b.toNat
    · rcases ih with h | ⟨marked, last, rest, rfl, hmarked, hlast⟩
      · exact .inl (List.forall_mem_cons.2 ⟨hb, h⟩)
      · exact .inr ⟨b :: marked, last, rest, rfl, List.forall_mem_cons.2 ⟨hb, hmarked⟩, hlast⟩
    · exact .inr ⟨[], b, bytes, rfl, List.forall_mem_nil _, Nat.not_le.1 hb⟩

/-- Bytes begin with a quantity, or with four marked bytes, or there are fewer and all are marked. -/
theorem exists_spells_or (bytes : Bytes) :
    (∃ taken rest n, bytes = taken ++ rest ∧ Spells taken n) ∨
    (4 ≤ bytes.length ∧ ∀ b ∈ bytes.take 4, 128 ≤ b.toNat) ∨
    (bytes.length < 4 ∧ ∀ b ∈ bytes, 128 ≤ b.toNat) := by
  rcases marked_or_split bytes with h | ⟨marked, last, rest, rfl, hmarked, hlast⟩
  · rcases Nat.lt_or_ge bytes.length 4 with hlength | hlength
    · exact .inr (.inr ⟨hlength, h⟩)
    · exact .inr (.inl ⟨hlength, fun b hb => h b (List.mem_of_mem_take hb)⟩)
  · rcases Nat.lt_or_ge marked.length 4 with hlength | hlength
    · refine .inl ⟨marked ++ [last], rest, _, ?_, .intro (Nat.le_of_lt_succ hlength) hmarked hlast⟩
      rw [List.append_assoc, List.singleton_append]
    · refine .inr (.inl ⟨?_, fun b hb => ?_⟩)
      · rw [List.length_append]
        exact hlength.trans (Nat.le_add_right ..)
      · rw [List.take_append_of_le_length hlength] at hb
        exact hmarked b (List.mem_of_mem_take hb)

/-- The groups that are filled in are those of the shortest form. -/
theorem append_eq (dst : Bytes) (v : UInt32) :
    append dst v = match encode? v with
      | some short => (dst ++ short, none)
      | none => (dst, some (tooLarge v)) := by
  by_cases hmax : maxValue < v
  · rw [append, if_pos hmax, encode?_eq_none_iff.2 hmax]
  have hlt : v.toNat < 2 ^ 28 := lt_iff_le_maxValue.2 (UInt32.not_lt.1 hmax)
  rw [append, if_neg hmax]
  unfold encode?
  dsimp only
  split_ifs with h₁ h₂ h₃ h₄
  · have h7 : v.toNat >>> 7 = 0 := by omega
    simp only [above, h7, if_true]
  · have h7 : v.toNat >>> 7 ≠ 0 := by omega
    have h14 : v.toNat >>> (7 + 7) = 0 := by omega
    simp only [above, ← Nat.shiftRight_add, if_neg h7, h14, if_true]
  · have h7 : v.toNat >>> 7 ≠ 0 := by omega
    have h14 : v.toNat >>> (7 + 7) ≠ 0 := by omega
    have h21 : v.toNat >>> (7 + 7 + 7) = 0 := by omega
    simp only [above, ← Nat.shiftRight_add, if_neg h7, if_neg h14, h21, if_true]
  · have h7 : v.toNat >>> 7 ≠ 0 := by omega
    have h14 : v.toNat >>> (7 + 7) ≠ 0 := by omega
    have h21 : v.toNat >>> (7 + 7 + 7) ≠ 0 := by omega
    simp only [above, ← Nat.shiftRight_add, if_neg h7, if_neg h14, if_neg h21]
  · exact absurd hlt h₄

end Quantity

-- ════════════════════════════════════════════════════════════════════════
-- Reading quantities
-- ════════════════════════════════════════════════════════════════════════

namespace Reader

variable {bytes : Bytes} {v : UInt32} {size : Nat}

theorem runOn_quantity_eq_ok_iff : quantity.runOn bytes = (.ok v, size) ↔
    ∃ taken rest, bytes = taken ++ rest ∧ size = taken.length ∧ Quantity.Spells taken v.toNat := by
  constructor
  · exact only_quantity.of_runOn
  · rintro ⟨taken, rest, rfl, rfl, hspells⟩
    rw [(reads_spelled hspells).runOn_append rest, UInt32.ofNat_toNat]

/-- Marked bytes are passed, and each takes one of the tries. -/
theorem run_groups_marked {marked : Bytes} (h : ∀ b ∈ marked, 128 ≤ b.toNat) (start tries : Nat)
    (n : UInt32) (offset : Nat) (rest : Bytes) :
    ∃ m, (groups start (marked.length + tries) n).run ⟨offset, marked ++ rest⟩ =
      (groups start tries m).run ⟨offset + marked.length, rest⟩ := by
  induction marked generalizing n offset with
  | nil => exact ⟨n, by rw [List.length_nil, Nat.zero_add, List.nil_append, Nat.add_zero]⟩
  | cons b marked ih =>
    obtain ⟨hb, h⟩ := List.forall_mem_cons.1 h
    have hmark : ¬b &&& 0x80 = 0 := mt and_high_eq_zero_iff.1 (Nat.not_lt.2 hb)
    have hbyte : byte.run ⟨offset, b :: (marked ++ rest)⟩ = .ok b ⟨offset + 1, marked ++ rest⟩ := rfl
    obtain ⟨m, hm⟩ := ih h (n <<< 7 ||| (b &&& 0x7f).toUInt32) (offset + 1)
    refine ⟨m, ?_⟩
    rw [List.length_cons, Nat.add_right_comm, groups, List.cons_append, run_bind_of_ok hbyte]
    dsimp only
    rw [if_neg hmark, hm, Nat.add_assoc, Nat.add_comm 1]

/-- After four marked bytes the quantity is too long. The fault is at its beginning. -/
theorem runOn_quantity_marked (hlength : 4 ≤ bytes.length) (h : ∀ b ∈ bytes.take 4, 128 ≤ b.toNat) :
    quantity.runOn bytes = (.error ⟨0, .quantityTooLong⟩, 4) := by
  obtain ⟨m, hm⟩ := run_groups_marked h 0 0 0 0 (bytes.drop 4)
  rw [List.length_take_of_le hlength, List.take_append_drop] at hm
  exact runOn_of_error (c := ⟨4, bytes.drop 4⟩) hm

/-- Where the bytes end before the quantity does, the fault is at their end. -/
theorem runOn_quantity_cut (hlength : bytes.length < 4) (h : ∀ b ∈ bytes, 128 ≤ b.toNat) :
    quantity.runOn bytes = (.error ⟨bytes.length, .unexpectedEnd⟩, bytes.length) := by
  obtain ⟨k, hk⟩ : ∃ k, 4 = bytes.length + (k + 1) := ⟨3 - bytes.length, by omega⟩
  obtain ⟨m, hm⟩ := run_groups_marked h 0 (k + 1) 0 0 []
  rw [← hk, List.append_nil, Nat.zero_add] at hm
  exact runOn_of_error (c := ⟨bytes.length, []⟩) hm

/-- Nothing is read exactly if no byte that ends a quantity is among the first four. -/
theorem exists_runOn_quantity_eq_error_iff :
    (∃ e size, quantity.runOn bytes = (.error e, size)) ↔
      (4 ≤ bytes.length ∧ ∀ b ∈ bytes.take 4, 128 ≤ b.toNat) ∨ ∀ b ∈ bytes, 128 ≤ b.toNat := by
  rcases Quantity.exists_spells_or bytes with ⟨taken, rest, n, rfl, hspells⟩ | h | ⟨hlength, h⟩
  · obtain ⟨b, hmem, hb⟩ := hspells.exists_unmarked
    have htake : b ∈ (taken ++ rest).take 4 := by
      rw [List.take_append, List.take_of_length_le hspells.length_le]
      exact List.mem_append_left _ hmem
    have hread := (reads_spelled hspells).runOn_append rest
    refine iff_of_false ?_ ?_
    · rintro ⟨e, size, herror⟩
      cases (Prod.mk.inj (hread.symm.trans herror)).1
    · rintro (⟨-, h⟩ | h)
      · exact absurd (h b htake) (Nat.not_le.2 hb)
      · exact absurd (h b (List.mem_of_mem_take htake)) (Nat.not_le.2 hb)
  · exact iff_of_true ⟨_, _, runOn_quantity_marked h.1 h.2⟩ (.inl h)
  · exact iff_of_true ⟨_, _, runOn_quantity_cut hlength h⟩ (.inr h)

end Reader

/-- Quantities and byte strings are read as they were written, and what is read is written in the same
bytes unless these are not the shortest. -/
structure Quantity.ExactCode : Prop where
  /-- A number that fits is written, and read back whatever follows it. -/
  read_back : ∀ n ≤ maxValue, ∃ short, encode? n = some short ∧
    ∀ rest, Reader.quantity.runOn (short ++ rest) = (.ok n, short.length)
  /-- Whatever else is read as the number is no shorter. -/
  shortest : ∀ n short, encode? n = some short →
    ∀ bytes size, Reader.quantity.runOn bytes = (.ok n, size) → short.length ≤ size
  appended : ∀ dst n short, encode? n = some short → append dst n = (dst ++ short, none)
  refused : ∀ dst n, (append dst n).2 ≠ none ↔ maxValue < n
  /-- Nothing is appended where the number is refused. -/
  unchanged : ∀ dst n, maxValue < n → append dst n = (dst, some (tooLarge n))
  bounded : ∀ bytes n size, Reader.quantity.runOn bytes = (.ok n, size) →
    n ≤ maxValue ∧ 1 ≤ size ∧ size ≤ 4 ∧ size ≤ bytes.length
  /-- The bytes of a number that is read are its encoding unless a group of zeros comes first. -/
  rewritten : ∀ bytes n size, Reader.quantity.runOn bytes = (.ok n, size) →
    ∃ short, encode? n = some short ∧ short.length ≤ size ∧
      (short = bytes.take size ↔ size = 1 ∨ bytes.head? ≠ some 0x80)
  /-- Reading fails if no unmarked byte is among the first four. -/
  fails : ∀ bytes, (∃ e size, Reader.quantity.runOn bytes = (.error e, size)) ↔
    (4 ≤ bytes.length ∧ ∀ b ∈ bytes.take 4, 128 ≤ b.toNat) ∨ ∀ b ∈ bytes, 128 ≤ b.toNat
  text : ∀ text : Bytes, text.length < 2 ^ 28 → ∃ written, prefixed? text = some written ∧
    ∀ rest, Reader.prefixed.runOn (written ++ rest) = (.ok text, written.length)

/-- Reading and writing undo each other, as far as a number has only one form. -/
theorem Quantity.exactCode : ExactCode where
  read_back n hn := by
    obtain ⟨short, hshort⟩ := exists_encode?_iff.2 (lt_iff_le_maxValue.2 hn)
    exact ⟨short, hshort, (Reader.reads_quantity hshort).runOn_append⟩
  shortest n short hshort bytes size hrun := by
    obtain ⟨taken, rest, -, rfl, hspells⟩ := Reader.runOn_quantity_eq_ok_iff.1 hrun
    exact hspells.length_short_le (by rwa [UInt32.ofNat_toNat])
  appended dst n short hshort := by rw [append_eq, hshort]
  refused dst n := by
    rw [append_eq, ← encode?_eq_none_iff]
    cases encode? n <;> simp
  unchanged dst n hn := by rw [append_eq, encode?_eq_none_iff.2 hn]
  bounded bytes n size hrun := by
    obtain ⟨taken, rest, rfl, rfl, hspells⟩ := Reader.runOn_quantity_eq_ok_iff.1 hrun
    refine ⟨lt_iff_le_maxValue.1 hspells.lt, hspells.length_pos, hspells.length_le, ?_⟩
    rw [List.length_append]
    exact Nat.le_add_right ..
  rewritten bytes n size hrun := by
    obtain ⟨taken, rest, rfl, rfl, hspells⟩ := Reader.runOn_quantity_eq_ok_iff.1 hrun
    obtain ⟨short, hshort⟩ := exists_encode?_iff.2 hspells.lt
    have hle : short.length ≤ taken.length :=
      hspells.length_short_le (by rwa [UInt32.ofNat_toNat])
    have hhead : (taken ++ rest).head? = taken.head? :=
      List.head?_append_of_ne_nil _ (List.length_pos_iff.1 hspells.length_pos)
    rw [List.take_left, hhead]
    exact ⟨short, hshort, hle, hspells.eq_short_iff hshort⟩
  fails _ := Reader.exists_runOn_quantity_eq_error_iff
  text text hlength := by
    have hfits : (UInt32.ofNat text.length).toNat = text.length :=
      UInt32.toNat_ofNat_of_lt' (hlength.trans (by decide))
    obtain ⟨written, hwritten⟩ := exists_prefixed?_iff.2 (hfits.trans_lt hlength)
    have hread := Reader.reads_prefixed (hlength.trans (by decide)) hwritten
    exact ⟨written, hwritten, hread.runOn_append⟩

/-- A number that is read from three bytes is not written in them again. -/
theorem Quantity.exactCode_zerosFirst :
    Reader.quantity.runOn [0x80, 0x81, 0x00, 0x7f] = (.ok 128, 3) ∧
      ∃ short, encode? 128 = some short ∧ short.length ≤ 3 ∧ short ≠ [0x80, 0x81, 0x00] := by
  have hrun : Reader.quantity.runOn [0x80, 0x81, 0x00, 0x7f] = (.ok 128, 3) := by decide
  obtain ⟨short, hshort, hle, hsame⟩ := exactCode.rewritten _ _ _ hrun
  refine ⟨hrun, short, hshort, hle, fun h => ?_⟩
  rcases hsame.1 h with hone | hhead
  · exact absurd hone (by decide)
  · exact hhead rfl

-- ════════════════════════════════════════════════════════════════════════
-- Words of a fixed width
-- ════════════════════════════════════════════════════════════════════════

namespace Reader

variable {bytes : Bytes} {size : Nat}

theorem runOn_fixed_fixedWidth (n : UInt32) (size : Nat) (rest : Bytes) :
    (fixed size).runOn (fixedWidth size n ++ rest) = (.ok (word (fixedWidth size n)), size) := by
  have hrun := (reads_word (fixedWidth size n)).runOn_append rest
  rwa [length_fixedWidth] at hrun

theorem runOn_fixed_of_le (h : size ≤ bytes.length) :
    (fixed size).runOn bytes = (.ok (word (bytes.take size)), size) := by
  have hrun := (reads_word (bytes.take size)).runOn_append (bytes.drop size)
  rwa [List.take_append_drop, List.length_take_of_le h] at hrun

theorem runOn_fixed_of_lt (h : bytes.length < size) :
    (fixed size).runOn bytes = (.error ⟨0, .shortfall size bytes.length⟩, 0) := by
  have hfew : (size : Int) < 0 ∨ ((bytes.take size).length : Int) < size := by
    rw [List.take_of_length_le h.le]
    omega
  have htake : (take size).run ⟨0, bytes⟩ =
      .error ⟨0, .shortfall size bytes.length⟩ ⟨0, bytes⟩ := by
    rw [take, run_bind_of_ok (r := get) rfl]
    dsimp only
    rw [Int.toNat_natCast, if_pos hfew]
    rfl
  exact runOn_of_error (r := fixed size) (run_bind_of_error htake)

theorem exists_runOn_fixed_eq_error_iff (bytes : Bytes) (size : Nat) :
    (∃ e left, (fixed size).runOn bytes = (.error e, left)) ↔ bytes.length < size := by
  constructor
  · rintro ⟨e, left, herror⟩
    by_contra henough
    have hrun := (runOn_fixed_of_le (Nat.not_lt.1 henough)).symm.trans herror
    cases (Prod.mk.inj hrun).1
  · exact fun h => ⟨_, _, runOn_fixed_of_lt h⟩

/-- Four bytes hold any number. -/
theorem word_fixedWidth_of_four_le (n : UInt32) (h : 4 ≤ size) : word (fixedWidth size n) = n :=
  word_fixedWidth (n.toNat_lt.trans_le (Nat.pow_le_pow_right (n := 256) (by decide) h))

end Reader

/-- Numbers are read as they were written, in the lowest digits that the width holds, and up to four
bytes are written as they were read. Reading fails exactly if there are too few bytes. -/
theorem fixedWidth_exact :
    (∀ (n : UInt32) (size : Nat) (rest : Bytes), ∃ m : UInt32,
      (Reader.fixed size).runOn (fixedWidth size n ++ rest) = (.ok m, size) ∧
      m.toNat = n.toNat % 2 ^ (8 * size) ∧ (4 ≤ size → m = n)) ∧
    (∀ (bytes : Bytes) (k : Nat), k ≤ 4 → k ≤ bytes.length →
      ∃ n, (Reader.fixed k).runOn bytes = (.ok n, k) ∧ fixedWidth k n = bytes.take k) ∧
    ∀ (bytes : Bytes) (size : Nat),
      (∃ e left, (Reader.fixed size).runOn bytes = (.error e, left)) ↔ bytes.length < size := by
  refine ⟨fun n size rest => ?_, fun bytes k hfour hk => ?_,
    Reader.exists_runOn_fixed_eq_error_iff⟩
  · refine ⟨_, Reader.runOn_fixed_fixedWidth n size rest, ?_, Reader.word_fixedWidth_of_four_le n⟩
    rw [Reader.toNat_word_fixedWidth, Nat.pow_mul]
  · have hlength := List.length_take_of_le hk
    have hwritten := Reader.fixedWidth_word (hlength.trans_le hfour)
    rw [hlength] at hwritten
    exact ⟨_, Reader.runOn_fixed_of_le hk, hwritten⟩

/-- In six bytes a number comes after zeros, which are read with it. -/
theorem fixedWidth_exact_sixBytes :
    fixedWidth 6 0x01020304 = [0, 0, 1, 2, 3, 4] ∧
      (Reader.fixed 6).runOn [0, 0, 1, 2, 3, 4, 5] = (.ok 0x01020304, 6) ∧
      ∃ n, (Reader.fixed 2).runOn [1, 2, 3] = (.ok n, 2) ∧ fixedWidth 2 n = [1, 2] := by
  obtain ⟨m, hrun, -, hm⟩ := fixedWidth_exact.1 0x01020304 6 [5]
  obtain rfl := hm (by decide)
  exact ⟨by decide, hrun, fixedWidth_exact.2.1 [1, 2, 3] 2 (by decide) (by decide)⟩

end DegreeScore.Midi
