import Mathlib.Data.Nat.Basic
import Mathlib.Tactic.Common

/-!
# Binary search

The search of a sorted vector by halving, as the standard library does it: the first entry that is
not less than what is looked for, and then one comparison with it.

## Main definitions

* `BinarySearch.lowerBound`: the halving.
* `BinarySearch.search`: whether an entry is found.
-/

namespace BinarySearch

/-- The halving: `len` entries from `first` on are left to be searched. -/
def lowerBound (l : List ℕ) (x : ℕ) (first len : ℕ) : ℕ :=
  if len = 0 then first
  else if l.getD (first + len / 2) 0 < x then
    lowerBound l x (first + len / 2 + 1) (len - len / 2 - 1)
  else lowerBound l x first (len / 2)
termination_by len

/-- Whether `x` is found. -/
def search (l : List ℕ) (x : ℕ) : Bool :=
  let i := lowerBound l x 0 l.length
  decide (i < l.length) && decide (¬ x < l.getD i 0)

end BinarySearch
