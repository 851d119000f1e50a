import Mathlib.Data.Vector.Basic

/-!
# Prefixes and full hashes

The two kinds of hash the safe-browsing store keeps.
-/

namespace Chromium.SafeBrowsing

/-- A prefix is a signed 32-bit integer. -/
abbrev SBPrefix := Int32

/-- The bytes of a full hash. -/
structure SBFullHash where
  fullHash : Vector UInt8 32
  deriving DecidableEq

namespace SBFullHash

/-- The other member of the union: the first four bytes as a little-endian
integer. -/
def itsPrefix (hash : SBFullHash) : SBPrefix :=
  (hash.fullHash[0].toUInt32 ||| hash.fullHash[1].toUInt32 <<< 8 |||
    hash.fullHash[2].toUInt32 <<< 16 |||
    hash.fullHash[3].toUInt32 <<< 24).toInt32

/-- The bytes as `memcmp` compares them. -/
def bytes (hash : SBFullHash) : List Nat := hash.fullHash.toList.map UInt8.toNat

/-- `memcmp` finds the first hash smaller than the second. -/
def memcmpLess (left right : SBFullHash) : Bool := decide (left.bytes < right.bytes)

end SBFullHash

end Chromium.SafeBrowsing
