import DegreeScore.Midi.Decode
import Mathlib.Data.Nat.Bitwise
import Mathlib.Data.Nat.Digits.Defs
import Mathlib.Data.Nat.ModEq
import Mathlib.Tactic.Ring

/-!
# Readers that take back what was written

`Reads r bytes a` says that the reader `r` takes exactly `bytes`, wherever they stand and whatever
follows them, and gives `a`. It is closed under sequencing, and there is one rule for each of the
basic readers. The rules for numbers are inverse to the two ways of writing a number: quantities of
seven bits a byte and words of eight bits a byte are both read by moving what was read so far to the
left and putting the next byte below it. The bytes of a word are the digits of its number to the base
256, and where they are more than four the ones above are lost.

## Main definitions

- `Reader.Reads` — a reader takes exactly these bytes and gives this value
- `bigEndian` — the number of which the bytes are the digits

## Main results

- `Reader.reads_quantity`, `Reader.reads_prefixed` — quantities and byte strings after their length
- `Reader.reads_fixed` — words of a fixed width
-/

namespace DegreeScore.Midi

-- ════════════════════════════════════════════════════════════════════════
-- Putting a byte below a number
-- ════════════════════════════════════════════════════════════════════════

/-- A number moved left by `k` bits, with a byte of `k` bits below it. -/
theorem toNat_shiftLeft_or {n : UInt32} {b : UInt8} (k : Nat) (hk : k < 32)
    (hn : n.toNat * 2 ^ k < 2 ^ 32) (hb : b.toNat < 2 ^ k) :
    (n <<< UInt32.ofNat k ||| b.toUInt32).toNat = n.toNat * 2 ^ k + b.toNat := by
  have hshift : (n <<< UInt32.ofNat k).toNat = n.toNat <<< k := by
    rw [UInt32.toNat_shiftLeft, UInt32.toNat_ofNat_of_lt' (by rw [UInt32.size]; omega),
      Nat.mod_eq_of_lt hk, Nat.shiftLeft_eq, Nat.mod_eq_of_lt hn]
  rw [UInt32.toNat_or, hshift, UInt8.toNat_toUInt32, ← Nat.shiftLeft_add_eq_or_of_lt hb,
    Nat.shiftLeft_eq]

/-- Two bytes as one number, the lower of `k` bits. -/
theorem toNat_toUInt16_shiftLeft_or {a b : UInt8} (k : Nat) (hk : k ≤ 8) (hb : b.toNat < 2 ^ k) :
    (a.toUInt16 <<< UInt16.ofNat k ||| b.toUInt16).toNat = a.toNat * 2 ^ k + b.toNat := by
  have ha : a.toNat * 2 ^ k < 2 ^ 16 :=
    calc a.toNat * 2 ^ k
      _ ≤ a.toNat * 2 ^ 8 := Nat.mul_le_mul_left _ (Nat.pow_le_pow_right (by decide) hk)
      _ < 2 ^ 16 := by have := a.toNat_lt; omega
  have hk16 : k % 16 = k := Nat.mod_eq_of_lt (by omega)
  have hshift : (a.toUInt16 <<< UInt16.ofNat k).toNat = a.toNat <<< k := by
    rw [UInt16.toNat_shiftLeft, UInt16.toNat_ofNat_of_lt' (by rw [UInt16.size]; omega),
      UInt8.toNat_toUInt16, hk16, Nat.shiftLeft_eq, Nat.mod_eq_of_lt ha]
  rw [UInt16.toNat_or, hshift, UInt8.toNat_toUInt16, ← Nat.shiftLeft_add_eq_or_of_lt hb,
    Nat.shiftLeft_eq]

theorem toNat_and_low {b : UInt8} : (b &&& 0x7f).toNat = b.toNat % 128 := by
  rw [UInt8.toNat_and]
  exact Nat.and_two_pow_sub_one_eq_mod b.toNat 7

theorem toNat_and_nibble {b : UInt8} : (b &&& 0x0f).toNat = b.toNat % 16 := by
  rw [UInt8.toNat_and]
  exact Nat.and_two_pow_sub_one_eq_mod b.toNat 4

/-- The highest bit of a number of `k + 1` bits is clear where the number has only `k`. -/
theorem and_two_pow_eq_zero_iff {n k : Nat} (hn : n < 2 ^ (k + 1)) :
    n &&& 2 ^ k = 0 ↔ n < 2 ^ k := by
  have hmod : n / 2 ^ k % 2 = n / 2 ^ k :=
    Nat.mod_eq_of_lt (Nat.div_lt_of_lt_mul (by rwa [← Nat.pow_succ]))
  have hzero : n / 2 ^ k = 0 ↔ n < 2 ^ k := by
    rw [Nat.div_eq_zero_iff]
    exact or_iff_right (Nat.ne_of_gt (Nat.two_pow_pos k))
  rw [Nat.and_two_pow, Nat.testBit_eq_decide_div_mod_eq, hmod, ← hzero]
  by_cases h : n / 2 ^ k = 1
  · simp [h]
  · have : n / 2 ^ k = 0 := by omega
    simp [this]

theorem and_high_eq_zero_iff {b : UInt8} : b &&& 0x80 = 0 ↔ b.toNat < 128 := by
  rw [← UInt8.toNat_inj, UInt8.toNat_and]
  exact and_two_pow_eq_zero_iff (k := 7) b.toNat_lt

/-- The highest bit of two bytes is that of the upper one. -/
theorem shiftLeft_or_and_high {a b : UInt8} (ha : 128 ≤ a.toNat) :
    ¬(a.toUInt16 <<< 8 ||| b.toUInt16) &&& 0x8000 = 0 := by
  have hjoin := toNat_toUInt16_shiftLeft_or (a := a) 8 (by decide) b.toNat_lt
  rw [← UInt16.toNat_inj, UInt16.toNat_and]
  refine mt (and_two_pow_eq_zero_iff (k := 15) (UInt16.toNat_lt _)).1 (Nat.not_lt.2 ?_)
  refine Nat.le_trans ?_ hjoin.ge
  omega

theorem shiftLeft_or_shiftRight (a b : UInt8) :
    ((a.toUInt16 <<< 8 ||| b.toUInt16) >>> 8).toUInt8 = a := by
  have hjoin := toNat_toUInt16_shiftLeft_or (a := a) 8 (by decide) b.toNat_lt
  have ha := a.toNat_lt
  have hb := b.toNat_lt
  rw [← UInt8.toNat_inj, UInt16.toNat_toUInt8, UInt16.toNat_shiftRight]
  refine (congrArg (fun n => n >>> 8 % 2 ^ 8) hjoin).trans ?_
  rw [Nat.shiftRight_eq_div_pow]
  omega

theorem shiftLeft_or_toUInt8 (a b : UInt8) : (a.toUInt16 <<< 8 ||| b.toUInt16).toUInt8 = b := by
  have hjoin := toNat_toUInt16_shiftLeft_or (a := a) 8 (by decide) b.toNat_lt
  have hb := b.toNat_lt
  rw [← UInt8.toNat_inj, UInt16.toNat_toUInt8]
  refine (congrArg (· % 2 ^ 8) hjoin).trans ?_
  omega

/-- The step of reading a number that fits: its last `k` bits are cut off, and are put back. -/
theorem shiftLeft_or_eq {n v : Nat} {b : UInt8} (k : Nat) (hk : k < 32) (hv : v < 2 ^ 32)
    (hn : n = v / 2 ^ k) (hb : b.toNat = v % 2 ^ k) :
    UInt32.ofNat n <<< UInt32.ofNat k ||| b.toUInt32 = UInt32.ofNat v := by
  have hle : v / 2 ^ k * 2 ^ k ≤ v := Nat.div_mul_le_self v (2 ^ k)
  have hnv : n < 2 ^ 32 := by
    rw [hn]
    exact lt_of_le_of_lt (Nat.div_le_self v _) hv
  have hofNat : (UInt32.ofNat n).toNat = n := UInt32.toNat_ofNat_of_lt' hnv
  rw [← UInt32.toNat_inj, toNat_shiftLeft_or k hk, hofNat, UInt32.toNat_ofNat_of_lt' hv, hn, hb]
  · exact Nat.div_add_mod' v (2 ^ k)
  · rw [hofNat, hn]
    omega
  · rw [hb]
    exact Nat.mod_lt _ (Nat.two_pow_pos k)

-- ════════════════════════════════════════════════════════════════════════
-- Digits of words
-- ════════════════════════════════════════════════════════════════════════

/-- The highest digit comes first. -/
theorem ofDigits_reverse_cons (base : Nat) (digit : UInt8 → Nat) (b : UInt8) (bytes : Bytes) :
    Nat.ofDigits base ((b :: bytes).map digit).reverse =
      Nat.ofDigits base (bytes.map digit).reverse + base ^ bytes.length * digit b := by
  rw [List.map_cons, List.reverse_cons, Nat.ofDigits_append, Nat.ofDigits_singleton,
    List.length_reverse, List.length_map]

/-- The number whose digits to the base 256 are the bytes. -/
def bigEndian (bytes : Bytes) : Nat := Nat.ofDigits 256 (bytes.map fun b => b.toNat).reverse

theorem bigEndian_cons (b : UInt8) (bytes : Bytes) :
    bigEndian (b :: bytes) = bigEndian bytes + 256 ^ bytes.length * b.toNat :=
  ofDigits_reverse_cons 256 (fun b => b.toNat) b bytes

theorem length_fixedWidth (size : Nat) (n : UInt32) : (fixedWidth size n).length = size := by
  simp [fixedWidth]

theorem fixedWidth_succ (size : Nat) (n : UInt32) :
    fixedWidth (size + 1) n = byteAt n size :: fixedWidth size n := by
  simp [fixedWidth, List.range_succ]

/-- Above the four bytes of a number there are zeros. -/
theorem toNat_byteAt (n : UInt32) (i : Nat) : (byteAt n i).toNat = n.toNat / 256 ^ i % 2 ^ 8 := by
  by_cases hi : i < 4
  · rw [byteAt, if_pos hi, UInt8.toNat_ofNat', Nat.shiftRight_eq_div_pow, Nat.pow_mul]
  · have hpow : 256 ^ 4 ≤ 256 ^ i := Nat.pow_le_pow_right (by decide) (Nat.not_lt.1 hi)
    have hlt : n.toNat < 256 ^ i := n.toNat_lt.trans_le hpow
    rw [byteAt, if_neg hi, Nat.div_eq_of_lt hlt]
    rfl

/-- What is written are the lowest digits. -/
theorem bigEndian_fixedWidth (size : Nat) (n : UInt32) :
    bigEndian (fixedWidth size n) = n.toNat % 256 ^ size := by
  induction size with
  | zero =>
    rw [Nat.pow_zero, Nat.mod_one]
    rfl
  | succ size ih =>
    rw [fixedWidth_succ, bigEndian_cons, ih, length_fixedWidth, toNat_byteAt]
    exact (Nat.mod_pow_succ (b := 256)).symm

/-- A byte below a number. What does not fit in 32 bits is lost above. -/
theorem toNat_shiftLeft_or_eq_mod (n : UInt32) (b : UInt8) :
    (n <<< 8 ||| b.toUInt32).toNat = (n.toNat * 256 + b.toNat) % 2 ^ 32 := by
  have hn : (n <<< 8).toNat = (n.toNat % 2 ^ 24) <<< 8 := by
    rw [UInt32.toNat_shiftLeft]
    show n.toNat <<< 8 % 2 ^ 32 = _
    rw [Nat.shiftLeft_eq, Nat.shiftLeft_eq]
    omega
  have hb := b.toNat_lt
  rw [UInt32.toNat_or, hn, UInt8.toNat_toUInt32, ← Nat.shiftLeft_add_eq_or_of_lt hb,
    Nat.shiftLeft_eq]
  omega

/-- Reading on from a number adds the digits up in 32 bits, in however many bytes they are. -/
theorem toNat_foldl_word (bytes : Bytes) (n : UInt32) :
    (bytes.foldl (fun (n : UInt32) b => n <<< 8 ||| b.toUInt32) n).toNat =
      (n.toNat * 256 ^ bytes.length + bigEndian bytes) % 2 ^ 32 := by
  induction bytes generalizing n with
  | nil =>
    show n.toNat = (n.toNat * 1 + 0) % 2 ^ 32
    rw [Nat.mul_one, Nat.add_zero, Nat.mod_eq_of_lt n.toNat_lt]
  | cons b bytes ih =>
    rw [List.foldl_cons, ih, toNat_shiftLeft_or_eq_mod, bigEndian_cons, List.length_cons]
    calc ((n.toNat * 256 + b.toNat) % 2 ^ 32 * 256 ^ bytes.length + bigEndian bytes) % 2 ^ 32
      _ = ((n.toNat * 256 + b.toNat) * 256 ^ bytes.length + bigEndian bytes) % 2 ^ 32 :=
        ((Nat.mod_modEq _ _).mul_right _).add_right _
      _ = (n.toNat * 256 ^ (bytes.length + 1) +
            (bigEndian bytes + 256 ^ bytes.length * b.toNat)) % 2 ^ 32 := by
        congr 1
        ring

namespace Reader

variable {α β : Type} {bytes bytes' : Bytes} {a : α} {b : β}

/-- The reader takes exactly `bytes`, whatever follows them, and gives `a`. -/
def Reads (r : Reader α) (bytes : Bytes) (a : α) : Prop :=
  ∀ offset rest, r.run ⟨offset, bytes ++ rest⟩ = .ok a ⟨offset + bytes.length, rest⟩

-- ════════════════════════════════════════════════════════════════════════
-- Structural rules
-- ════════════════════════════════════════════════════════════════════════

theorem reads_pure (a : α) : Reads (pure a) [] a :=
  fun _ _ => rfl

theorem run_bind_of_ok {r : Reader α} {k : α → Reader β} {c c' : Cursor}
    (h : r.run c = .ok a c') : (r >>= k).run c = (k a).run c' := by
  change EStateM.bind r k c = _
  rw [EStateM.bind, show r c = .ok a c' from h]
  rfl

theorem Reads.bind {r : Reader α} {k : α → Reader β} (hr : Reads r bytes a)
    (hk : Reads (k a) bytes' b) : Reads (r >>= k) (bytes ++ bytes') b := by
  intro offset rest
  rw [List.append_assoc, run_bind_of_ok (hr offset (bytes' ++ rest)), hk, List.length_append,
    Nat.add_assoc]

/-- A reader that takes nothing may stand after any other. -/
theorem Reads.bind_right {r : Reader α} {k : α → Reader β} (hr : Reads r bytes a)
    (hk : Reads (k a) [] b) : Reads (r >>= k) bytes b := by
  have h := hr.bind hk
  rwa [List.append_nil] at h

theorem reads_get_bind {k : Cursor → Reader α} (hk : ∀ c, Reads (k c) bytes a) :
    Reads (get >>= k) bytes a :=
  fun offset rest => hk ⟨offset, bytes ++ rest⟩ offset rest

/-- What is read does not depend on where it stands. -/
theorem reads_offset_bind {k : Nat → Reader α} (hk : ∀ n, Reads (k n) bytes a) :
    Reads (offset >>= k) bytes a :=
  fun at_ rest => hk at_ at_ rest

-- ════════════════════════════════════════════════════════════════════════
-- Bytes
-- ════════════════════════════════════════════════════════════════════════

theorem reads_byte (x : UInt8) : Reads byte [x] x :=
  fun _ _ => rfl

theorem reads_expect (want : UInt8) : Reads (expect want) [want] () := by
  refine reads_offset_bind fun at_ => (reads_byte want).bind_right ?_
  rw [if_neg (not_not_intro rfl)]
  exact reads_pure ()

theorem reads_expectAll (wanted : Bytes) : Reads (expectAll wanted) wanted () := by
  induction wanted with
  | nil => exact reads_pure ()
  | cons want wanted ih => exact (reads_expect want).bind ih

theorem reads_take (data : Bytes) : Reads (take data.length) data data := by
  intro offset rest
  have htake : (data ++ rest).take data.length = data := List.take_left
  have hdrop : (data ++ rest).drop data.length = rest := List.drop_left
  have hfits : ¬((data.length : Int) < 0 ∨ (data.length : Int) < data.length) := by omega
  change EStateM.run (if _ then _ else _) _ = _
  simp only [Int.toNat_natCast, htake, if_neg hfits, hdrop]
  rfl

/-- A byte with a clear high bit is a data byte. -/
theorem reads_dataByte {x : UInt8} (hx : x.toNat < 128) : Reads dataByte [x] x := by
  refine reads_offset_bind fun at_ => (reads_byte x).bind_right ?_
  rw [if_neg (not_not_intro (and_high_eq_zero_iff.2 hx))]
  exact reads_pure x

-- ════════════════════════════════════════════════════════════════════════
-- Words
-- ════════════════════════════════════════════════════════════════════════

theorem toNat_word (bytes : Bytes) : (word bytes).toNat = bigEndian bytes % 2 ^ 32 := by
  have h := toNat_foldl_word bytes 0
  rwa [UInt32.toNat_zero, Nat.zero_mul, Nat.zero_add] at h

/-- What is read of a number that was written are its lowest digits. -/
theorem toNat_word_fixedWidth (size : Nat) (n : UInt32) :
    (word (fixedWidth size n)).toNat = n.toNat % 256 ^ size := by
  rw [toNat_word, bigEndian_fixedWidth]
  exact Nat.mod_eq_of_lt ((Nat.mod_le ..).trans_lt n.toNat_lt)

theorem word_fixedWidth {n : UInt32} {size : Nat} (hn : n.toNat < 256 ^ size) :
    word (fixedWidth size n) = n := by
  rw [← UInt32.toNat_inj, toNat_word_fixedWidth, Nat.mod_eq_of_lt hn]

theorem reads_word (bytes : Bytes) : Reads (fixed bytes.length) bytes (word bytes) :=
  (reads_take bytes).bind_right (reads_pure (word bytes))

theorem reads_fixed {n : UInt32} {size : Nat} (hn : n.toNat < 256 ^ size) :
    Reads (fixed size) (fixedWidth size n) n := by
  have hread := reads_word (fixedWidth size n)
  rwa [length_fixedWidth, word_fixedWidth hn] at hread

-- ════════════════════════════════════════════════════════════════════════
-- Quantities
-- ════════════════════════════════════════════════════════════════════════

theorem toNat_last (v : Nat) : (Quantity.last v).toNat = v % 128 := by
  rw [Quantity.last, UInt8.toNat_ofNat']
  omega

theorem toNat_more (v : Nat) : (Quantity.more v).toNat = v % 128 + 128 := by
  rw [Quantity.more, UInt8.toNat_ofNat']
  omega

/-- The last group of a quantity, of which the other groups have been read. -/
theorem reads_groups_last {start tries n v : Nat} (hn : n = v / 2 ^ 7) (hv : v < 2 ^ 32) :
    Reads (groups start (tries + 1) (UInt32.ofNat n)) [Quantity.last v] (UInt32.ofNat v) := by
  refine (reads_byte (Quantity.last v)).bind_right ?_
  have hlow : (Quantity.last v &&& 0x7f).toNat = v % 2 ^ 7 := by
    rw [toNat_and_low, toNat_last]
    omega
  have hhigh : Quantity.last v &&& 0x80 = 0 :=
    and_high_eq_zero_iff.2 (by rw [toNat_last]; exact Nat.mod_lt _ (by decide))
  rw [if_pos hhigh]
  have hstep : UInt32.ofNat n <<< 7 ||| (Quantity.last v &&& 0x7f).toUInt32 = UInt32.ofNat v :=
    shiftLeft_or_eq 7 (by decide) hv hn hlow
  rw [hstep]
  exact reads_pure _

/-- A group that more follow. -/
theorem reads_groups_more {start tries n v : Nat} {m : UInt32} (hn : n = v / 2 ^ 7)
    (hv : v < 2 ^ 32) (h : Reads (groups start tries (UInt32.ofNat v)) bytes m) :
    Reads (groups start (tries + 1) (UInt32.ofNat n)) (Quantity.more v :: bytes) m := by
  refine (reads_byte (Quantity.more v)).bind ?_
  have hlow : (Quantity.more v &&& 0x7f).toNat = v % 2 ^ 7 := by
    rw [toNat_and_low, toNat_more]
    omega
  have hhigh : ¬Quantity.more v &&& 0x80 = 0 := by
    rw [and_high_eq_zero_iff, toNat_more]
    omega
  rw [if_neg hhigh]
  have hstep : UInt32.ofNat n <<< 7 ||| (Quantity.more v &&& 0x7f).toUInt32 = UInt32.ofNat v :=
    shiftLeft_or_eq 7 (by decide) hv hn hlow
  rw [hstep]
  exact h

theorem reads_quantity {n : UInt32} (h : Quantity.encode? n = some bytes) :
    Reads quantity bytes n := by
  have hn : n.toNat < 2 ^ 32 := n.toNat_lt
  refine reads_offset_bind fun start => ?_
  -- Before the first byte nothing has been read, which is zero: what stands above the first group.
  change Reads (groups start 4 (UInt32.ofNat 0)) bytes n
  unfold Quantity.encode? at h
  dsimp only at h
  rw [← UInt32.ofNat_toNat (x := n)]
  split_ifs at h with h₁ h₂ h₃ h₄
  · obtain rfl := Option.some.inj h
    exact reads_groups_last (by omega) hn
  · obtain rfl := Option.some.inj h
    refine reads_groups_more (by omega) (by omega) ?_
    exact reads_groups_last (by omega) hn
  · obtain rfl := Option.some.inj h
    refine reads_groups_more (by omega) (by omega) ?_
    refine reads_groups_more (by omega) (by omega) ?_
    exact reads_groups_last (by omega) hn
  · obtain rfl := Option.some.inj h
    refine reads_groups_more (by omega) (by omega) ?_
    refine reads_groups_more (by omega) (by omega) ?_
    refine reads_groups_more (by omega) (by omega) ?_
    exact reads_groups_last (by omega) hn

/-- The length of a string of `2 ^ 32` bytes or more is not what is written before it. -/
theorem reads_prefixed {data : Bytes} (hdata : data.length < 2 ^ 32)
    (h : Quantity.prefixed? data = some bytes) : Reads prefixed bytes data := by
  obtain ⟨length, hlength, rfl⟩ := Option.map_eq_some_iff.1 h
  refine (reads_quantity hlength).bind ?_
  rw [UInt32.toNat_ofNat_of_lt' hdata]
  exact reads_take data

/-- A run on bytes that a reader takes. -/
theorem Reads.runOn {r : Reader α} (h : Reads r bytes a) :
    r.runOn bytes = (.ok a, bytes.length) := by
  have hrun := h 0 []
  rw [List.append_nil] at hrun
  rw [Reader.runOn, hrun, Nat.zero_add]

end Reader

end DegreeScore.Midi
