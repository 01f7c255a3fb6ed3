/-!
Sets of characters.

A set is a list of closed ranges of code points in ascending order, with a gap between any two.
Surrogates are no characters: a range that meets them is cut in two.
-/
namespace PipelineScript.Regex

/-- A set of characters as ranges of code points. -/
abbrev Ranges := List (Nat × Nat)

namespace Ranges

/-- The last code point. -/
def lastCode : Nat := 0x10FFFF

/-- The characters from one code point up to another. -/
def span (low high : Nat) : Ranges :=
  [(low, min high 0xD7FF), (max low 0xE000, high)].filter fun range =>
    decide (range.1 ≤ range.2)

/-- Adds a range. Ranges that meet or touch it become one with it. -/
def insert (low high : Nat) : Ranges → Ranges
  | [] => [(low, high)]
  | (a, b) :: rest =>
    if high + 1 < a then (low, high) :: (a, b) :: rest
    else if b + 1 < low then (a, b) :: insert low high rest
    else insert (min low a) (max high b) rest

/-- Whether a code point is in the set. -/
def contains (set : Ranges) (code : Nat) : Bool :=
  set.any fun range => decide (range.1 ≤ code) && decide (code ≤ range.2)

/-- The characters of either set. -/
def union (xs ys : Ranges) : Ranges := ys.foldl (fun set range => insert range.1 range.2 set) xs

/-- The characters from a code point on that are not in the set. -/
def complementFrom (next : Nat) : Ranges → Ranges
  | [] => span next lastCode
  | (a, b) :: rest => (if next < a then span next (a - 1) else []) ++ complementFrom (b + 1) rest

/-- The characters that are not in the set. -/
def complement (set : Ranges) : Ranges := complementFrom 0 set

/-- The characters of both sets. -/
def intersection (xs ys : Ranges) : Ranges := complement (union (complement xs) (complement ys))

/-- The characters of the first set that are not in the second. -/
def difference (xs ys : Ranges) : Ranges := intersection xs (complement ys)

/-- The characters of exactly one of the sets. -/
def exclusive (xs ys : Ranges) : Ranges := union (difference xs ys) (difference ys xs)

end Ranges

end PipelineScript.Regex
