/-!
# Blank characters

The characters that may stand before the first visible one (`is_space`): Unicode's `White_Space`,
and the four separators U+001C to U+001F.
-/

namespace SuiteRunner

/-- The ranges of code points with the property `White_Space`. -/
def whiteSpace : List (Nat × Nat) :=
  [(0x09, 0x0D), (0x20, 0x20), (0x85, 0x85), (0xA0, 0xA0), (0x1680, 0x1680), (0x2000, 0x200A),
   (0x2028, 0x2029), (0x202F, 0x202F), (0x205F, 0x205F), (0x3000, 0x3000)]

/-- The separators of files, groups, records and units. -/
def separators : Nat × Nat := (0x1C, 0x1F)

/-- A character that is skipped in front of content. -/
def isBlank (c : Char) : Bool :=
  (separators :: whiteSpace).any fun r => decide (r.1 ≤ c.toNat) && decide (c.toNat ≤ r.2)

end SuiteRunner
