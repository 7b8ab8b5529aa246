import MaskedViews.Markup.Scan
import MaskedViews.Template.Node

/-!
# References to fields

Markup refers to a field by a placeholder, by the `data-field` attribute of an element, or by the
`name` of a form control. A control with a `data-field` attribute refers to that field alone.
-/

namespace MaskedViews

namespace Markup

/-- The names of the form controls. -/
def controlNames : List Text := ["input", "select", "textarea"].map String.toList

/-- The names of the cells of a table. -/
def cellNames : List Text := ["th", "td"].map String.toList

/-- The name of the element that contains a labelled field. -/
def containerName : Text := "div".toList

/-- The class of an element that contains a labelled field. -/
def containerClass : Text := "form-field".toList

/-- The class that a container of a read-only field gets. -/
def readonlyClass : Text := "readonly".toList

end Markup

namespace StartTag

/-- The field that an element is marked with. -/
def markedField? (t : StartTag) : Option Text := t.value? "data-field".toList

/-- The name of a form control. -/
def controlName? (t : StartTag) : Option Text :=
  if Markup.controlNames.contains t.name then t.value? "name".toList else none

/-- The field that a tag refers to. -/
def reference? (t : StartTag) : Option Text := (t.markedField?).or t.controlName?

end StartTag

namespace Markup

/-- The fields that the tags of markup refer to, in order. -/
def tagReferences (markup : Text) : List Text :=
  ((startTags markup).filterMap StartTag.reference?).filter (· ≠ [])

/-- The fields that markup refers to, each once: those of the placeholders first. -/
def referencedFields (markup : Text) : List Text :=
  ((Template.parse markup).placeholders ++ tagReferences markup).eraseDups

theorem mem_referencedFields {markup field : Text} :
    field ∈ referencedFields markup ↔
      field ∈ (Template.parse markup).placeholders ∨ field ∈ tagReferences markup := by
  simp [referencedFields, List.mem_eraseDups]

end Markup

end MaskedViews
