import Mathlib.Data.List.TakeWhile

/-!
# Runs between separators

The maximal runs of a list without a separator, in their order. Separators at the ends and several of
them in a row make no difference.
-/

namespace Runs

variable {α : Type} (p : α → Bool)

variable {p} {xs rest run : List α}

end Runs
