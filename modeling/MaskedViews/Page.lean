import MaskedViews.Access.Fields
import MaskedViews.Error
import MaskedViews.Mask.Basic
import MaskedViews.Template.Render

/-!
# Pages

A page is what a user sees of an entity in a view: the template of the view is masked by what the
user may see and edit, and then rendered for the data. The mask comes first, so a hidden value is
never put in.
-/

namespace MaskedViews

namespace Store

/-- A given template as a user sees it. -/
def renderTemplate (s : Store) (template user entity : Text) (view : View) (data : Json) : Text :=
  render (applySnapshot template (s.snapshot user entity view) view) data

/-- A view of an entity as a user sees it. -/
def renderView (s : Store) (user entity : Text) (view : View) (data : Json) :
    Except Error Text :=
  match s.template? entity view with
  | some template => .ok (s.renderTemplate template user entity view data)
  | none => .error (.noTemplate entity view)

/-- A view without a template cannot be shown, and only such a one. -/
theorem renderView_eq_error_iff {s : Store} {user entity : Text} {view : View} {data : Json}
    {e : Error} : s.renderView user entity view data = .error e ↔
      s.template? entity view = none ∧ e = .noTemplate entity view := by
  cases h : s.template? entity view <;> simp [renderView, h, eq_comm]

end Store

end MaskedViews
