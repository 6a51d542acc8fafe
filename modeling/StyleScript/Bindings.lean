import StyleScript.Text

/-! What keys are bound to. Binding a key again takes the place of what it was bound to. -/

namespace StyleScript

abbrev Bindings (α : Type) := List (Text × α)

namespace Bindings
variable {α : Type}

def find? (bindings : Bindings α) (key : Text) : Option α := bindings.lookup key

def insert (bindings : Bindings α) (key : Text) (value : α) : Bindings α :=
  (key, value) :: bindings.filter fun entry => entry.1 != key

theorem find?_insert_same (bindings : Bindings α) (key : Text) (value : α) :
    (bindings.insert key value).find? key = some value := by
  simp [insert, find?]

theorem find?_insert_of_ne (bindings : Bindings α) {key other : Text} (value : α)
    (different : other ≠ key) : (bindings.insert key value).find? other = bindings.find? other := by
  have skipped : (other == key) = false := by simpa using different
  simp only [insert, find?, List.lookup_cons, skipped]
  induction bindings with
  | nil => rfl
  | cons entry bindings ih =>
    obtain ⟨known, _⟩ := entry
    by_cases replaced : known = key
    · subst replaced
      simpa [List.lookup_cons, skipped] using ih
    · rw [List.filter_cons_of_pos (by simpa using replaced), List.lookup_cons, List.lookup_cons, ih]

theorem find?_insert (bindings : Bindings α) (key other : Text) (value : α) :
    (bindings.insert key value).find? other =
      if other = key then some value else bindings.find? other := by
  by_cases same : other = key
  · simp [same, find?_insert_same]
  · simp [same, find?_insert_of_ne]

end Bindings
end StyleScript
