import GoEntropy.Common.Bytes
import GoEntropy.Config.ChainConfig

/-!
# Fork identifiers

A node announces which forks it has passed by the checksum of their numbers, together with the number of
the next one. The filter of another node looks the checksum up among those of all prefixes of its own
fork list.

The two sides disagree on one point. For `newID` a fork is passed when the head is at its number, for the
filter only when the head is beyond it. So a node exactly at a fork still has the checksum of its peers
below the fork, and then finds that the fork they announce is not ahead of it.

The update of a CRC-32 is a parameter; `ChecksumIEEE` is an update of zero.
-/

namespace GoEntropy.ForkId

open List

/-! ## Forks of a configuration -/

section

variable (crc : UInt32 → Bytes → UInt32)

end

section Sample

end Sample

end GoEntropy.ForkId
