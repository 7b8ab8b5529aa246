import MaskedViews.Main
import MaskedViews.Store.JsonForm
import MaskedViews.Proofs.Markup.Settling
import MaskedViews.Proofs.Template.Parallel
import MaskedViews.Proofs.Template.Conditions
import MaskedViews.Proofs.Template.Paths
import MaskedViews.Proofs.Template.SettledTokens
import MaskedViews.Proofs.Template.SettledNodes
import MaskedViews.Proofs.Template.Ends
import MaskedViews.Proofs.Mask.Idempotence
import MaskedViews.Proofs.Mask.Neutral
import MaskedViews.Proofs.Template.Placeholders
import MaskedViews.Proofs.Template.Stripping
import MaskedViews.Proofs.Template.Patches
import MaskedViews.Proofs.Markup.Legible
import MaskedViews.Proofs.Markup.Editing
import MaskedViews.Proofs.Markup.Patching
import MaskedViews.Proofs.Mask.Placeholders
import MaskedViews.Proofs.Template.Accounts
import MaskedViews.Proofs.Template.Passages
import MaskedViews.Proofs.Template.Closing
import MaskedViews.Proofs.Template.Agreement
import MaskedViews.Proofs.Template.Keys
import MaskedViews.Proofs.Template.Woven
import MaskedViews.Proofs.Template.Lifting
import MaskedViews.Proofs.Template.Parts
import MaskedViews.Proofs.Template.Shape
import MaskedViews.Proofs.Template.Composing
import MaskedViews.Proofs.Template.Passes
import MaskedViews.Proofs.Template.Spelling
import MaskedViews.Proofs.Template.StrippedNodes
import MaskedViews.Proofs.Markup.Pieces
import MaskedViews.Proofs.Markup.Elements
import MaskedViews.Proofs.Markup.Flags
import MaskedViews.Proofs.Markup.Regular
import MaskedViews.Proofs.Mask.Regular
import MaskedViews.Proofs.Mask.Confidential
import MaskedViews.Proofs.Markup.Plain
import MaskedViews.Proofs.Markup.SettledPieces
import MaskedViews.Proofs.Markup.PlainFlags
import MaskedViews.Proofs.Markup.PlainClasses
import MaskedViews.Proofs.Mask.ReadOnly
import MaskedViews.Proofs.Markup.SettledWords
import MaskedViews.Proofs.Markup.Forest
import MaskedViews.Markup.Editor
import MaskedViews.Proofs.Markup.TreeEditing
import MaskedViews.Proofs.Markup.Refilled
import MaskedViews.Proofs.Markup.Parts
import MaskedViews.Proofs.Markup.Injection
import MaskedViews.Proofs.Markup.Tidy
import MaskedViews.Proofs.Markup.Extents
import MaskedViews.Proofs.Markup.References
import MaskedViews.Proofs.Mask.Cuts
import MaskedViews.Proofs.Mask.Protection
import MaskedViews.Proofs.Mask.Mentions
import MaskedViews.Proofs.Mask.Removal
import MaskedViews.Proofs.Json.Reading
import MaskedViews.Proofs.Access.Rules
import MaskedViews.Proofs.Access.Asking
import MaskedViews.Proofs.Access.Membership
import MaskedViews.Proofs.Access.CurrentUser
import MaskedViews.Proofs.Access.Listing
import MaskedViews.Proofs.Access.Isolation
import MaskedViews.Proofs.Store.Declarations
import MaskedViews.Proofs.Store.RoundTrip
import MaskedViews.Proofs.Markup.Matching
import MaskedViews.Proofs.Markup.TidyPieces
import MaskedViews.Proofs.Access.Operators
import MaskedViews.Proofs.Access.FieldQueries
import MaskedViews.Proofs.Mask.Granting
import MaskedViews.Proofs.Markup.Reports
import MaskedViews.Proofs.Access.DefaultRows
import MaskedViews.Proofs.Store.DisplayOrder
import MaskedViews.Proofs.Template.Expressions
import MaskedViews.Proofs.Template.Conditionals
import MaskedViews.Proofs.Text.Escaping
import MaskedViews.Proofs.Markup.NormalForm
import MaskedViews.Proofs.Markup.TagEnds
import MaskedViews.Proofs.Markup.Extending
import MaskedViews.Proofs.Markup.AddedFlags
import MaskedViews.Proofs.Markup.AddedClass
import MaskedViews.Proofs.Text.Slices
import MaskedViews.Proofs.Markup.Offsets
import MaskedViews.Proofs.Markup.OffsetEditing
import MaskedViews.Proofs.Markup.Replacing
