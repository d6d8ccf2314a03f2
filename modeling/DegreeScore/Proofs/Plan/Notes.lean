import DegreeScore.Proofs.Plan.Walk

/-!
# The notes of a performance

The events of a performance do not say which release ends which attack. `AreNotesOf notes events` says
that the starts and stops among the events are those of the notes, which last for some time each. It
holds of passages one after the other and side by side, in whatever order their events are listed.
-/

namespace DegreeScore

/-- A note that is played, from when to when. -/
structure PlayedNote where
  channel : UInt8
  key : UInt8
  velocity : UInt8
  start : Ratio
  stop : Ratio
deriving Repr, DecidableEq

/-- The start and the stop of a note. -/
def PlayedNote.events (n : PlayedNote) : List TimedEvent :=
  [⟨n.start, .channel n.channel (.noteOn n.key n.velocity)⟩,
    ⟨n.stop, .channel n.channel (.noteOff n.key 0)⟩]

/-- Whether an event starts or stops a note. -/
def Midi.Event.isNote : Event → Bool
  | .channel _ (.noteOn _ _) | .channel _ (.noteOff _ _) => true
  | _ => false

/-- The starts and stops among the events are those of the notes, each of which stops after it
starts. -/
structure AreNotesOf (notes : List PlayedNote) (events : List TimedEvent) : Prop where
  perm : (notes.flatMap PlayedNote.events).Perm (events.filter fun e => e.event.isNote)
  lasting : ∀ n ∈ notes, n.start.value < n.stop.value

instance (notes : List PlayedNote) (events : List TimedEvent) : Decidable (AreNotesOf notes events) :=
  decidable_of_iff (_ ∧ _) ⟨fun h => ⟨h.1, h.2⟩, fun h => ⟨h.perm, h.lasting⟩⟩

namespace AreNotesOf

variable {ns ms : List PlayedNote} {es fs : List TimedEvent}

theorem nil : AreNotesOf [] [] := ⟨.nil, by simp⟩

/-- An event that neither starts nor stops a note. -/
theorem other {e : TimedEvent} (he : e.event.isNote = false) : AreNotesOf [] [e] := by
  refine ⟨?_, by simp⟩
  rw [List.filter_cons_of_neg (by simp [he])]
  exact .nil

theorem note {start stop : Ratio} (channel key velocity : UInt8) (hlt : start.value < stop.value) :
    AreNotesOf [⟨channel, key, velocity, start, stop⟩]
      [⟨start, .channel channel (.noteOn key velocity)⟩, ⟨stop, .channel channel (.noteOff key 0)⟩] :=
  ⟨.refl _, by simpa using hlt⟩

theorem append (hn : AreNotesOf ns es) (hm : AreNotesOf ms fs) :
    AreNotesOf (ns ++ ms) (es ++ fs) := by
  refine ⟨?_, List.forall_mem_append.2 ⟨hn.lasting, hm.lasting⟩⟩
  rw [List.flatMap_append, List.filter_append]
  exact hn.perm.append hm.perm

theorem of_perm (h : AreNotesOf ns es) (hperm : fs.Perm es) : AreNotesOf ns fs :=
  ⟨h.perm.trans (hperm.filter _).symm, h.lasting⟩

end AreNotesOf

end DegreeScore
