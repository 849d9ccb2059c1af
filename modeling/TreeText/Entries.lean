/-!
# Entries of tables

The entries of a table are kept in the order in which their keys came. Setting a key that is there
already changes its value and keeps its place.

Results:
* `lookup_setEntry_self`: a key leads to what it was set to.
* `lookup_setEntry_of_ne`: setting a key leaves the other keys alone.
-/

namespace TreeText

universe u

variable {α : Type u}

/-- The entries with `k` leading to `v`. -/
def setEntry (k : String) (v : α) : List (String × α) → List (String × α)
  | [] => [(k, v)]
  | (l, w) :: es => if l = k then (k, v) :: es else (l, w) :: setEntry k v es

theorem lookup_setEntry_self (k : String) (v : α) (es : List (String × α)) :
    (setEntry k v es).lookup k = some v := by
  induction es with
  | nil => simp [setEntry]
  | cons e es ih =>
    obtain ⟨l, w⟩ := e
    unfold setEntry
    split
    · simp
    · rename_i hne
      rw [List.lookup_cons, show (k == l) = false by simpa using fun h => hne h.symm]
      exact ih

theorem lookup_setEntry_of_ne {k l : String} (hne : l ≠ k) (v : α) (es : List (String × α)) :
    (setEntry k v es).lookup l = es.lookup l := by
  induction es with
  | nil => simp [setEntry, hne]
  | cons e es ih =>
    obtain ⟨m, w⟩ := e
    unfold setEntry
    split
    · rename_i heq
      subst heq
      simp only [List.lookup_cons, show (l == m) = false by simpa using hne]
    · simp only [List.lookup_cons, ih]

end TreeText
