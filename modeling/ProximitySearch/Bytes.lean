/-!
# Byte strings

Keys, values and composite names are strings of octets. They compare by core's lexicographic order on
lists, which is the order an index sorts them in.
-/

namespace ProximitySearch

/-- A string of octets. -/
abbrev Bytes := List UInt8

end ProximitySearch
