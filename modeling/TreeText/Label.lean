/-!
# Labels without regard to case

A label is a text whose ASCII letters count the same in upper and lower case. It is shown in lower
case, so labels are equal exactly when they are shown the same.

Results:
* `Label.beq_iff_toString_eq`.
-/

namespace TreeText

/-- A text that is compared without regard to the case of ASCII letters. -/
structure Label where
  text : String

namespace Label

/-- The form in which a label is shown. -/
def lower (l : Label) : String := l.text.map Char.toLower

instance : ToString Label := ⟨lower⟩

instance : BEq Label := ⟨fun a b => a.lower == b.lower⟩

theorem beq_iff_toString_eq (a b : Label) : (a == b) = true ↔ toString a = toString b :=
  beq_iff_eq (α := String)

end Label

end TreeText
