import DegreeScore.Proofs.Midi.Parsing

/-!
# What is cut off is noticed

A reader that succeeds has taken bytes that it needs: it gives the same result whatever follows them,
and it fails as soon as one of them is missing (`Needs`). A reader that fails names an offset within the
bytes that it was given. `Bounded` says both and is closed under sequencing, so that it holds of
whole files, although the body of a track is read in a window that ends before the bytes do.

## Main definitions

- `Reader.Needs` — the bytes are enough for a result, and fewer of them are not
- `Reader.Bounded` — a reader needs the bytes that it takes, and its faults lie within the others

## Main results

- `Reader.bounded_event`, `Reader.bounded_track`, `Reader.bounded_file`
- `File.decode_bounded` — what a file needs of the bytes it is read from
-/

namespace DegreeScore.Midi

namespace Reader

variable {α β : Type} {P : Bytes → α → Prop} {r : Reader α} {a : α} {b : β} {first last : Nat}

/-- From `offset` on the reader gives `a` for these bytes, whatever follows them, but fails if only a
part of them is there. -/
structure Needs (r : Reader α) (offset : Nat) (taken : Bytes) (a : α) : Prop where
  enough : ∀ rest, r.run ⟨offset, taken ++ rest⟩ = .ok a ⟨offset + taken.length, rest⟩
  missing : ∀ m < taken.length, ∃ e c, r.run ⟨offset, taken.take m⟩ = .error e c

/-- From the offset `last` on, the reader needs what it takes. Where it fails, the offset is neither
before `first` nor after the end of the bytes. -/
structure Bounded (first last : Nat) (r : Reader α) : Prop where
  taken : ∀ ⦃offset bytes a c⦄, last ≤ offset → r.run ⟨offset, bytes⟩ = .ok a c →
    ∃ taken rest, bytes = taken ++ rest ∧ Needs r offset taken a
  fault : ∀ ⦃offset bytes e c⦄, last ≤ offset → r.run ⟨offset, bytes⟩ = .error e c →
    first ≤ e.offset ∧ e.offset ≤ offset + bytes.length

-- ════════════════════════════════════════════════════════════════════════
-- Structural rules
-- ════════════════════════════════════════════════════════════════════════

theorem run_bind_of_error {k : α → Reader β} {c d : Cursor} {e : ReadError}
    (h : r.run c = .error e d) : (r >>= k).run c = .error e d := by
  change EStateM.bind r k c = _
  rw [EStateM.bind, show r c = .error e d from h]

theorem run_bind_eq_error {k : α → Reader β} {c d : Cursor} {e : ReadError}
    (h : (r >>= k).run c = .error e d) :
    r.run c = .error e d ∨ ∃ a c', r.run c = .ok a c' ∧ (k a).run c' = .error e d := by
  cases hr : r.run c with
  | error e' d' =>
    obtain ⟨rfl, rfl⟩ := EStateM.Result.error.inj ((run_bind_of_error hr).symm.trans h)
    exact .inl rfl
  | ok a c' => exact .inr ⟨a, c', rfl, (run_bind_of_ok hr).symm.trans h⟩

theorem Needs.bind {k : α → Reader β} {offset : Nat} {taken more : Bytes} (hr : Needs r offset taken a)
    (hk : Needs (k a) (offset + taken.length) more b) : Needs (r >>= k) offset (taken ++ more) b := by
  constructor
  · intro rest
    rw [List.append_assoc, run_bind_of_ok (hr.enough (more ++ rest)), hk.enough, List.length_append,
      Nat.add_assoc]
  · intro m hm
    rw [List.length_append] at hm
    by_cases hcut : m < taken.length
    · obtain ⟨e, c, herror⟩ := hr.missing m hcut
      rw [List.take_append_of_le_length hcut.le]
      exact ⟨e, c, run_bind_of_error herror⟩
    · obtain ⟨e, c, herror⟩ := hk.missing (m - taken.length) (by omega)
      rw [List.take_append, List.take_of_length_le (Nat.not_lt.1 hcut), run_bind_of_ok (hr.enough _)]
      exact ⟨e, c, herror⟩

theorem Needs.only {offset : Nat} {taken : Bytes} (h : Needs r offset taken a) (hP : Only r P) :
    P taken a := by
  obtain ⟨taken', rest, hbytes, hcursor, htaken⟩ := hP (h.enough [])
  obtain ⟨-, rfl⟩ := Cursor.mk.inj hcursor
  rw [List.append_cancel_right hbytes]
  exact htaken

namespace Bounded

theorem mono {last' : Nat} (h : Bounded first last r) (hle : last ≤ last') : Bounded first last' r :=
  ⟨fun _ _ _ _ hoffset => h.taken (hle.trans hoffset),
    fun _ _ _ _ hoffset => h.fault (hle.trans hoffset)⟩

theorem exists_needs (h : Bounded first last r) {offset : Nat} {bytes : Bytes} {c : Cursor}
    (hoffset : last ≤ offset) (hrun : r.run ⟨offset, bytes⟩ = .ok a c) :
    ∃ taken rest, bytes = taken ++ rest ∧ c = ⟨offset + taken.length, rest⟩ ∧
      Needs r offset taken a := by
  obtain ⟨taken, rest, rfl, hneeds⟩ := h.taken hoffset hrun
  obtain ⟨-, rfl⟩ := EStateM.Result.ok.inj (hrun.symm.trans (hneeds.enough rest))
  exact ⟨taken, rest, rfl, rfl, hneeds⟩

/-- What comes after a reader starts after the bytes that it has taken. -/
theorem bind_taken {k : α → Reader β} (hr : Bounded first last r)
    (hk : ∀ offset taken a, Needs r offset taken a → Bounded first (last + taken.length) (k a)) :
    Bounded first last (r >>= k) := by
  constructor
  · intro offset bytes b c hoffset hrun
    obtain ⟨a, d, ha, hb⟩ := run_bind_eq_ok hrun
    obtain ⟨taken, rest, rfl, rfl, hneeds⟩ := hr.exists_needs hoffset ha
    obtain ⟨more, rest, rfl, hmore⟩ :=
      (hk offset taken a hneeds).taken (Nat.add_le_add_right hoffset _) hb
    exact ⟨taken ++ more, rest, (List.append_assoc ..).symm, hneeds.bind hmore⟩
  · intro offset bytes e c hoffset hrun
    rcases run_bind_eq_error hrun with herror | ⟨a, d, ha, hrun⟩
    · exact hr.fault hoffset herror
    · obtain ⟨taken, rest, rfl, rfl, hneeds⟩ := hr.exists_needs hoffset ha
      have hfault := (hk offset taken a hneeds).fault (Nat.add_le_add_right hoffset _) hrun
      rw [List.length_append]
      omega

theorem bind_only {k : α → Reader β} (hr : Bounded first last r) (hP : Only r P)
    (hk : ∀ taken a, P taken a → Bounded first (last + taken.length) (k a)) :
    Bounded first last (r >>= k) :=
  hr.bind_taken fun _ taken a hneeds => hk taken a (hneeds.only hP)

theorem bind {k : α → Reader β} (hr : Bounded first last r) (hk : ∀ a, Bounded first last (k a)) :
    Bounded first last (r >>= k) :=
  hr.bind_taken fun _ _ a _ => (hk a).mono (Nat.le_add_right ..)

end Bounded

theorem bounded_pure (a : α) : Bounded first last (pure a) := by
  constructor
  · intro offset bytes a' c _ hrun
    obtain ⟨rfl, -⟩ := EStateM.Result.ok.inj hrun
    exact ⟨[], bytes, rfl, fun _ => rfl, fun _ hm => absurd hm (Nat.not_lt_zero _)⟩
  · intro offset bytes e c _ hrun
    cases hrun

theorem bounded_failAt {at_ : Nat} {fault : ReadFault} (hfirst : first ≤ at_) (hlast : at_ ≤ last) :
    Bounded first last (failAt at_ fault : Reader α) := by
  constructor
  · intro offset bytes a c _ hrun
    cases hrun
  · intro offset bytes e c hoffset hrun
    obtain ⟨rfl, -⟩ := EStateM.Result.error.inj hrun
    exact ⟨hfirst, (hlast.trans hoffset).trans (Nat.le_add_right ..)⟩

theorem bounded_offset_bind {k : Nat → Reader α} (hk : ∀ n, last ≤ n → Bounded first n (k n)) :
    Bounded first last (offset >>= k) := by
  constructor
  · intro n bytes a c hn hrun
    obtain ⟨taken, rest, hbytes, hneeds⟩ := (hk n hn).taken le_rfl hrun
    exact ⟨taken, rest, hbytes, hneeds.enough, hneeds.missing⟩
  · intro n bytes e c hn hrun
    exact (hk n hn).fault le_rfl hrun

theorem bounded_ite {p : Prop} [Decidable p] {x y : Reader α} (hx : p → Bounded first last x)
    (hy : ¬p → Bounded first last y) : Bounded first last (if p then x else y) := by
  split
  · next h => exact hx h
  · next h => exact hy h

-- ════════════════════════════════════════════════════════════════════════
-- Bytes and quantities
-- ════════════════════════════════════════════════════════════════════════

theorem bounded_byte (h : first ≤ last) : Bounded first last byte := by
  constructor
  · intro offset bytes b c _ hrun
    obtain ⟨taken, rest, rfl, -, rfl⟩ := only_byte hrun
    refine ⟨[b], rest, rfl, fun _ => rfl, fun m hm => ?_⟩
    obtain rfl : m = 0 := Nat.lt_one_iff.1 hm
    exact ⟨_, _, rfl⟩
  · intro offset bytes e c hoffset hrun
    cases bytes with
    | nil =>
      obtain ⟨rfl, -⟩ := EStateM.Result.error.inj hrun
      exact ⟨h.trans hoffset, le_rfl⟩
    | cons x rest => cases hrun

theorem bounded_expectAll (wanted : Bytes) (h : first ≤ last) :
    Bounded first last (expectAll wanted) := by
  induction wanted with
  | nil => exact bounded_pure ()
  | cons want wanted ih =>
    refine Bounded.bind ?_ fun _ => ih
    refine bounded_offset_bind fun n hn => (bounded_byte (h.trans hn)).bind fun got => ?_
    exact bounded_ite (fun _ => bounded_failAt (h.trans hn) le_rfl) fun _ => bounded_pure ()

theorem bounded_take (n : Nat) (h : first ≤ last) : Bounded first last (take n) := by
  constructor
  · intro offset bytes data c _ hrun
    obtain ⟨taken, rest, rfl, -, rfl, rfl⟩ := only_take n hrun
    refine ⟨taken, rest, rfl, reads_take taken offset, fun m hm => ?_⟩
    have hshort : (taken.take m).length = m := List.length_take_of_le hm.le
    have hfew : ((taken.length : Int) < 0 ∨
        (((taken.take m).take taken.length).length : Int) < taken.length) := by
      rw [List.take_of_length_le (by omega), hshort]
      omega
    refine ⟨⟨offset, .shortfall taken.length m⟩, ⟨offset, taken.take m⟩, ?_⟩
    rw [take, run_bind_of_ok (r := get) rfl]
    dsimp only
    rw [Int.toNat_natCast, if_pos hfew, hshort]
    rfl
  · intro offset bytes e c hoffset hrun
    rw [take, run_bind_of_ok (r := get) rfl] at hrun
    dsimp only at hrun
    split at hrun
    · obtain ⟨rfl, -⟩ := EStateM.Result.error.inj hrun
      exact ⟨h.trans hoffset, Nat.le_add_right ..⟩
    · cases hrun

theorem bounded_fixed (size : Nat) (h : first ≤ last) : Bounded first last (fixed size) :=
  (bounded_take size h).bind fun _ => bounded_pure _

theorem bounded_groups {start : Nat} (tries : Nat) (n : UInt32) (hfirst : first ≤ start)
    (hlast : start ≤ last) : Bounded first last (groups start tries n) := by
  induction tries generalizing n with
  | zero => exact bounded_failAt hfirst hlast
  | succ tries ih =>
    refine (bounded_byte (hfirst.trans hlast)).bind fun b => ?_
    exact bounded_ite (fun _ => bounded_pure _) fun _ => ih _

theorem bounded_quantity (h : first ≤ last) : Bounded first last quantity :=
  bounded_offset_bind fun _ hn => bounded_groups 4 0 (h.trans hn) le_rfl

theorem bounded_prefixed (h : first ≤ last) : Bounded first last prefixed :=
  (bounded_quantity h).bind fun n => bounded_take n.toNat h

-- ════════════════════════════════════════════════════════════════════════
-- Events
-- ════════════════════════════════════════════════════════════════════════

theorem bounded_dataByte (h : first ≤ last) : Bounded first last dataByte := by
  refine bounded_offset_bind fun n hn => (bounded_byte (h.trans hn)).bind fun b => ?_
  exact bounded_ite (fun _ => bounded_failAt (h.trans hn) le_rfl) fun _ => bounded_pure b

theorem bounded_oneByte (f : UInt8 → α) (h : first ≤ last) :
    Bounded first last (do return f (← dataByte)) :=
  (bounded_dataByte h).bind fun _ => bounded_pure _

theorem bounded_twoBytes (f : UInt8 → UInt8 → α) (h : first ≤ last) :
    Bounded first last (do return f (← dataByte) (← dataByte)) :=
  (bounded_dataByte h).bind fun x => bounded_oneByte (f x) h

theorem bounded_channelEvent (status : UInt8) (h : first ≤ last) :
    Bounded first last (channelEvent status) := by
  refine Bounded.bind ?_ fun _ => bounded_pure _
  rw [channelMessage.eq_def]
  split
  · exact bounded_twoBytes _ h
  · exact bounded_twoBytes _ h
  · exact bounded_twoBytes _ h
  · exact bounded_twoBytes _ h
  · exact bounded_oneByte _ h
  · exact bounded_oneByte _ h
  · exact (bounded_dataByte h).bind fun low => (bounded_dataByte h).bind fun high => bounded_pure _

/-- A fault of a meta event is found at its length or, for a key, one byte after it. -/
theorem bounded_metaEvent (kind : UInt8) {lengthAt : Nat} (data : Bytes) (hfirst : first ≤ lengthAt)
    (hlast : lengthAt < last) : Bounded first last (metaEvent kind lengthAt data) := by
  have hwrong : ∀ expected, Bounded first last
      (failAt lengthAt (.metaLength kind data.length expected) : Reader (Option MetaEvent)) :=
    fun _ => bounded_failAt hfirst hlast.le
  unfold metaEvent
  refine bounded_ite (fun _ => ?_) fun _ => bounded_ite (fun _ => bounded_pure _) fun _ =>
    bounded_ite (fun _ => ?_) fun _ => bounded_ite (fun _ => ?_) fun _ =>
    bounded_ite (fun _ => ?_) fun _ => bounded_ite (fun _ => ?_) fun _ =>
    bounded_ite (fun _ => ?_) fun _ => bounded_ite (fun _ => ?_) fun _ =>
    bounded_ite (fun _ => bounded_pure _) fun _ => bounded_pure _
  · split
    · exact bounded_pure _
    · exact hwrong 2
  · split
    · exact bounded_pure _
    · exact hwrong 1
  · split
    · exact bounded_pure _
    · exact hwrong 0
  · split
    · exact bounded_pure _
    · exact hwrong 3
  · split
    · exact bounded_pure _
    · exact hwrong 5
  · split
    · exact bounded_pure _
    · exact hwrong 4
  · split
    · exact bounded_ite (fun _ => bounded_failAt (hfirst.trans (Nat.le_succ _)) hlast) fun _ =>
        bounded_pure _
    · exact hwrong 2

/-- A reader that is told by the first byte how to go on, and then reads this byte again. -/
theorem Bounded.of_first_byte (h : first ≤ last)
    (hnil : ∀ offset, r.run ⟨offset, []⟩ = .error ⟨offset, .unexpectedEnd⟩ ⟨offset, []⟩)
    (hcons : ∀ x, ∃ k : Reader α, Bounded first last k ∧
      (∀ offset, ∃ e c, k.run ⟨offset, []⟩ = .error e c) ∧
      ∀ offset rest, r.run ⟨offset, x :: rest⟩ = k.run ⟨offset, x :: rest⟩) :
    Bounded first last r := by
  constructor
  · intro offset bytes a c hoffset hrun
    cases bytes with
    | nil =>
      rw [hnil] at hrun
      cases hrun
    | cons x bytes =>
      obtain ⟨k, hk, hempty, heq⟩ := hcons x
      rw [heq] at hrun
      obtain ⟨taken, rest, hbytes, hneeds⟩ := hk.taken hoffset hrun
      -- Without a byte `k` fails, so it has taken one, and it is the first.
      cases taken with
      | nil =>
        obtain ⟨e, d, herror⟩ := hempty offset
        have hok := hneeds.enough []
        rw [List.append_nil, herror] at hok
        cases hok
      | cons y taken =>
        obtain ⟨rfl, rfl⟩ := List.cons.inj hbytes
        refine ⟨x :: taken, rest, rfl, fun rest => (heq offset _).trans (hneeds.enough rest), ?_⟩
        intro m hm
        cases m with
        | zero => exact ⟨_, _, hnil offset⟩
        | succ m =>
          obtain ⟨e, d, herror⟩ := hneeds.missing (m + 1) hm
          exact ⟨e, d, (heq offset _).trans herror⟩
  · intro offset bytes e c hoffset hrun
    cases bytes with
    | nil =>
      obtain ⟨rfl, -⟩ := EStateM.Result.error.inj ((hnil offset).symm.trans hrun)
      exact ⟨h.trans hoffset, le_rfl⟩
    | cons x bytes =>
      obtain ⟨k, hk, -, heq⟩ := hcons x
      exact hk.fault hoffset ((heq offset bytes).symm.trans hrun)

theorem bounded_event_meta (h : first ≤ last) :
    Bounded first last (do
      let kind ← byte
      let lengthAt ← offset
      let data ← prefixed
      let e ← metaEvent kind lengthAt data
      return (e.map Event.info, (0 : UInt8))) := by
  refine (bounded_byte h).bind fun kind => bounded_offset_bind fun lengthAt hlengthAt => ?_
  have hfirst : first ≤ lengthAt := h.trans hlengthAt
  refine (bounded_prefixed hfirst).bind_only only_prefixed ?_
  rintro _ data ⟨length, rfl, hlength⟩
  have hpos := hlength.length_pos
  refine (bounded_metaEvent kind data hfirst ?_).bind fun e => bounded_pure _
  rw [List.length_append]
  omega

theorem run_channelEvent_nil (status : UInt8) (offset : Nat) :
    (channelEvent status).run ⟨offset, []⟩ = .error ⟨offset, .unexpectedEnd⟩ ⟨offset, []⟩ := by
  apply run_bind_of_error
  rw [channelMessage.eq_def]
  split <;> rfl

theorem bounded_event (running : UInt8) (h : first ≤ last) : Bounded first last (event running) := by
  have hmessage : ∀ status, Bounded first last
      (channelEvent status >>= fun e => pure (some e, status)) := fun status =>
    (bounded_channelEvent status h).bind fun e => bounded_pure _
  have hfault : ∀ fault : ReadFault, Bounded first last
      (offset >>= fun at_ => byte >>= fun _ => failAt at_ fault : Reader (Option Event × UInt8)) :=
    fun fault => bounded_offset_bind fun at_ hat =>
      (bounded_byte (h.trans hat)).bind fun _ => bounded_failAt (h.trans hat) le_rfl
  -- In every case the reader is one that reads the first byte as its own, if need be once more.
  refine Bounded.of_first_byte h (fun _ => rfl) fun status => ?_
  have hrun : ∀ at_ rest, (event running).run ⟨at_, status :: rest⟩ = _ := fun at_ rest => by
    rw [event, run_bind_of_ok (r := get) rfl, run_bind_of_ok (r := byte) rfl]
  by_cases hmeta : status = 0xff
  · refine ⟨_, (bounded_byte h).bind fun _ => bounded_event_meta h, fun _ => ⟨_, _, rfl⟩, ?_⟩
    intro at_ rest
    rw [hrun, if_pos hmeta]
    rfl
  by_cases hexclusive : status = 0xf0 ∨ status = 0xf7
  · refine ⟨byte >>= fun _ => prefixed >>= fun _ => pure (none, 0), ?_, fun _ => ⟨_, _, rfl⟩, ?_⟩
    · exact (bounded_byte h).bind fun _ => (bounded_prefixed h).bind fun _ => bounded_pure _
    · intro at_ rest
      rw [hrun, if_neg hmeta, if_pos hexclusive]
      rfl
  by_cases hsystem : 0xf0 ≤ status
  · refine ⟨_, hfault (.systemMessage status), fun _ => ⟨_, _, rfl⟩, ?_⟩
    intro at_ rest
    rw [hrun, if_neg hmeta, if_neg hexclusive, if_pos hsystem]
    rfl
  by_cases hdata : status < 0x80
  · by_cases hnone : running = 0
    · refine ⟨_, hfault (.noRunningStatus status), fun _ => ⟨_, _, rfl⟩, ?_⟩
      intro at_ rest
      rw [hrun, if_neg hmeta, if_neg hexclusive, if_neg hsystem, if_pos hdata, if_pos hnone]
      rfl
    · refine ⟨_, hmessage running, fun at_ => ⟨_, _, run_bind_of_error (run_channelEvent_nil ..)⟩, ?_⟩
      intro at_ rest
      rw [hrun, if_neg hmeta, if_neg hexclusive, if_neg hsystem, if_pos hdata, if_neg hnone]
      rfl
  · refine ⟨_, (bounded_byte h).bind fun _ => hmessage status, fun _ => ⟨_, _, rfl⟩, ?_⟩
    intro at_ rest
    rw [hrun, if_neg hmeta, if_neg hexclusive, if_neg hsystem, if_neg hdata]
    rfl

-- ════════════════════════════════════════════════════════════════════════
-- Tracks and files
-- ════════════════════════════════════════════════════════════════════════

/-- A fault in the body of a track lies in the body. -/
theorem fault_of_run_trackEvents {fuel at_ : Nat} {running : UInt8} {carry : UInt32}
    {kept : List TrackEvent} {body : Bytes} {e : ReadError} {c : Cursor}
    (hrun : (trackEvents fuel running carry kept).run ⟨at_, body⟩ = .error e c) :
    at_ ≤ e.offset ∧ e.offset ≤ at_ + body.length := by
  induction fuel generalizing running carry kept at_ body with
  | zero => cases hrun
  | succ fuel ih =>
    rw [trackEvents, run_bind_of_ok (r := get) rfl] at hrun
    split at hrun
    · cases hrun
    rcases run_bind_eq_error hrun with herror | ⟨delta, c, hdelta, hrun⟩
    · exact (bounded_quantity le_rfl).fault le_rfl herror
    obtain ⟨_, body, rfl, rfl, -⟩ := (bounded_quantity le_rfl).exists_needs le_rfl hdelta
    rcases run_bind_eq_error hrun with herror | ⟨⟨heard, running'⟩, c, hheard, hrun⟩
    · have hfault := (bounded_event running le_rfl).fault le_rfl herror
      rw [List.length_append]
      omega
    obtain ⟨_, body, rfl, rfl, -⟩ := (bounded_event running le_rfl).exists_needs le_rfl hheard
    rw [List.length_append, List.length_append]
    cases heard with
    | none =>
      have hfault := ih hrun
      omega
    | some heard =>
      have hfault := ih hrun
      omega

/-- The body of a track is read in a window of its own, so what follows it makes no difference. It is
missed as a whole if any of it is missing. -/
theorem bounded_track (h : first ≤ last) : Bounded first last track := by
  refine (bounded_expectAll Track.tag h).bind_only (only_expectAll Track.tag) ?_
  rintro _ - rfl
  refine ((bounded_fixed 4 (h.trans (Nat.le_add_right ..))).bind_only (only_fixed 4)) ?_
  rintro size _ ⟨hsize, rfl⟩
  rw [hsize]
  constructor
  · intro offset bytes t c _ hrun
    rw [run_bind_of_ok (r := get) rfl] at hrun
    dsimp only at hrun
    split at hrun
    · cases hrun
    next hfits =>
    rw [run_bind_of_ok (r := set _) rfl] at hrun
    obtain ⟨events, c, hevents, hrun⟩ := run_bind_eq_ok hrun
    rw [run_bind_of_ok (r := set _) rfl] at hrun
    obtain ⟨rfl, rfl⟩ := EStateM.Result.ok.inj hrun
    have hlength : (bytes.take (word size).toNat).length = (word size).toNat := by
      have hle := List.length_take_le (word size).toNat bytes
      omega
    refine ⟨bytes.take (word size).toNat, bytes.drop (word size).toNat,
      (List.take_append_drop _ bytes).symm, fun rest => ?_, fun m hm => ?_⟩
    · rw [run_bind_of_ok (r := get) rfl]
      dsimp only
      rw [List.take_left' hlength, List.drop_left' hlength, if_neg hfits,
        run_bind_of_ok (r := set _) rfl, run_bind_of_ok hevents, run_bind_of_ok (r := set _) rfl, hlength]
      rfl
    · have hshort : ((bytes.take (word size).toNat).take m).length = m :=
        List.length_take_of_le hm.le
      have hfew : (((bytes.take (word size).toNat).take m).take (word size).toNat).length <
          (word size).toNat := by
        rw [List.take_of_length_le (by omega)]
        omega
      rw [run_bind_of_ok (r := get) rfl]
      dsimp only
      rw [if_pos hfew]
      exact ⟨_, _, rfl⟩
  · intro offset bytes e c hoffset hrun
    have htag : Track.tag.length = 4 := rfl
    rw [run_bind_of_ok (r := get) rfl] at hrun
    dsimp only at hrun
    split at hrun
    · obtain ⟨rfl, -⟩ := EStateM.Result.error.inj hrun
      dsimp only
      omega
    rw [run_bind_of_ok (r := set _) rfl] at hrun
    rcases run_bind_eq_error hrun with herror | ⟨_, _, -, hrun⟩
    · have hfault := fault_of_run_trackEvents herror
      have hle := List.length_take_le' (word size).toNat bytes
      omega
    · cases hrun

theorem bounded_tracks (count : Nat) (done : List Track) (h : first ≤ last) :
    Bounded first last (tracks count done) := by
  induction count generalizing done with
  | zero => exact bounded_pure _
  | succ count ih => exact (bounded_track h).bind fun t => ih (t :: done)

theorem bounded_file : Bounded 0 0 file := by
  refine (bounded_expectAll File.tag le_rfl).bind fun _ => ?_
  refine (bounded_expectAll File.headerLength le_rfl).bind fun _ => ?_
  refine (bounded_fixed 2 le_rfl).bind fun format => bounded_ite (fun _ => ?_) fun _ => ?_
  · refine bounded_offset_bind fun at_ _ => ?_
    refine (bounded_failAt (Nat.zero_le _) (Nat.sub_le at_ 2)).bind_only
      (only_failAt (P := fun _ _ => False)) fun _ _ h => h.elim
  refine (bounded_fixed 2 le_rfl).bind fun count => (bounded_fixed 2 le_rfl).bind fun division => ?_
  exact (bounded_tracks count.toNat [] le_rfl).bind fun _ => bounded_pure _

end Reader

theorem File.decode_of_run_ok {b : Bytes} {f : File} {c : Cursor}
    (h : Reader.file.run ⟨0, b⟩ = .ok f c) : File.decode b = .ok f := by
  rw [decode, Reader.runOn, h]

theorem File.decode_of_run_error {b : Bytes} {e : ReadError} {c : Cursor}
    (h : Reader.file.run ⟨0, b⟩ = .error e c) : File.decode b = .error e := by
  rw [decode, Reader.runOn, h]

/-- What is read is read from the front of the bytes alone: there is a length up to which they are
needed, and after which they do not matter. What is wrong is found within the bytes. -/
theorem File.decode_bounded (b : Bytes) :
    (∀ f, File.decode b = .ok f → ∃ n ≤ b.length,
      (∀ x, File.decode (b.take n ++ x) = File.decode b) ∧
        ∀ m < n, ∃ e, File.decode (b.take m) = .error e) ∧
      ∀ e, File.decode b = .error e → e.offset ≤ b.length := by
  cases hrun : Reader.file.run ⟨0, b⟩ with
  | ok f c =>
    obtain ⟨taken, rest, rfl, hneeds⟩ := Reader.bounded_file.taken le_rfl hrun
    have hok := decode_of_run_ok hrun
    refine ⟨fun _ _ => ⟨taken.length, by simp, fun x => ?_, fun m hm => ?_⟩, fun e he => ?_⟩
    · rw [List.take_left, hok]
      exact decode_of_run_ok (hneeds.enough x)
    · obtain ⟨e, c, herror⟩ := hneeds.missing m hm
      rw [List.take_append_of_le_length hm.le]
      exact ⟨e, decode_of_run_error herror⟩
    · rw [hok] at he
      cases he
  | error e c =>
    have herror := decode_of_run_error hrun
    refine ⟨fun f hf => ?_, fun e' he' => ?_⟩
    · rw [herror] at hf
      cases hf
    · obtain rfl := Except.error.inj (herror.symm.trans he')
      have hfault := (Reader.bounded_file.fault le_rfl hrun).2
      rwa [Nat.zero_add] at hfault

/-- A track with a tempo and a note, and two bytes after it that belong to nothing. -/
def trailingBytes : Bytes :=
  File.header 0 1 96 ++ Track.chunk ([0, 0xff, 0x51, 3, 7, 0xa1, 0x20] ++ [0, 0x90, 60, 64] ++
    [96, 60, 0] ++ [0, 0xff, 0x2f, 0]) ++ [0xde, 0xad]

/-- The file is read, the two bytes do not matter, and a cut in its last message is noticed. -/
theorem File.decode_bounded_trailingBytes :
    (∃ f, File.decode trailingBytes = .ok f ∧ ∃ n ≤ trailingBytes.length,
      (∀ x, File.decode (trailingBytes.take n ++ x) = .ok f) ∧
        ∀ m < n, ∃ e, File.decode (trailingBytes.take m) = .error e) ∧
      ∃ e, File.decode (trailingBytes.take 35) = .error e ∧ e.offset ≤ 35 := by
  have hread : ∃ f, File.decode trailingBytes = .ok f := ⟨_, rfl⟩
  have hcut : ∃ e, File.decode (trailingBytes.take 35) = .error e := ⟨_, rfl⟩
  obtain ⟨f, hf⟩ := hread
  obtain ⟨e, he⟩ := hcut
  obtain ⟨n, hn, henough, hmissing⟩ := (File.decode_bounded trailingBytes).1 f hf
  have hoffset := (File.decode_bounded (trailingBytes.take 35)).2 e he
  refine ⟨⟨f, hf, n, hn, fun x => (henough x).trans hf, hmissing⟩, e, he, ?_⟩
  exact hoffset

end DegreeScore.Midi
