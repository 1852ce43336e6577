import CssExpand.CommandLine.FileTree
import CssExpand.CommandLine.Help
import CssExpand.CommandLine.Options
import CssExpand.CommandLine.Run
import CssExpand.Convert
import CssExpand.Forest.Basic
import CssExpand.Forest.Edit
import CssExpand.Forest.Pass
import CssExpand.Main
import CssExpand.Pass
import CssExpand.Revision.Decision
import CssExpand.Revision.Defaults
import CssExpand.Revision.Ignored
import CssExpand.Revision.Longhands
import CssExpand.Revision.Units
import CssExpand.Session
import CssExpand.Settings
import CssExpand.Sheet.Body
import CssExpand.Sheet.Declaration
import CssExpand.Sheet.Layout
import CssExpand.Sheet.Node
import CssExpand.Sheet.Rules
import CssExpand.Shorthand.Font
import CssExpand.Shorthand.Layout
import CssExpand.Shorthand.ListStyle
import CssExpand.Shorthand.Motion
import CssExpand.Shorthand.Outline
import CssExpand.Shorthand.Registry
import CssExpand.Shorthand.Shadow
import CssExpand.Shorthand.Spec
import CssExpand.Syntax.Lexeme
import CssExpand.Syntax.Name
import CssExpand.Syntax.Nesting
import CssExpand.Syntax.Numeral
import CssExpand.Syntax.Token
import CssExpand.Syntax.Written
import CssExpand.Text.Blank
import CssExpand.Text.ControlSequence
import CssExpand.Text.LetterCase
import CssExpand.Text.LetterCase.Table
import CssExpand.Text.Quoted
import CssExpand.Text.Quoted.Table
import CssExpand.Text.WordCharacter
import CssExpand.Text.WordCharacter.Table
import CssExpand.Value.Border
import CssExpand.Value.Sides
import CssExpand.Value.UnitCategory
import CssExpand.Value.Word
import CssExpand.Value.Words
import CssExpand.Proofs.Longhands.OnePass
import CssExpand.Proofs.Longhands.Cascade
import CssExpand.Proofs.Longhands.Convergence
import CssExpand.Proofs.Passes.Bundle
import CssExpand.Proofs.Passes.Commuting
import CssExpand.Proofs.Passes.DefaultsThenUnits
import CssExpand.Proofs.Passes.EitherOrder
import CssExpand.Proofs.CommandLine.AllOrNothing
import CssExpand.Proofs.Passes.InShape
import CssExpand.Proofs.Passes.InTurn
import CssExpand.Proofs.Passes.Neighbours
import CssExpand.Proofs.Passes.Protected
import CssExpand.Proofs.Passes.Refusals
import CssExpand.Proofs.Passes.SelfContained
import CssExpand.Proofs.Passes.ValuesOnly
import CssExpand.Proofs.Shorthand.Stable
import CssExpand.Proofs.Sheet.Authored
import CssExpand.Proofs.Sheet.Hacks
import CssExpand.Proofs.Sheet.Lasting
import CssExpand.Proofs.Sheet.Phrases
import CssExpand.Proofs.Sheet.RoundTrip
import CssExpand.Proofs.Sheet.WellFormed
import CssExpand.Proofs.Forest.FailedEdits
import CssExpand.Proofs.Session.Links
import CssExpand.Proofs.Units.BareZeros
import CssExpand.Proofs.Units.Inserted
import CssExpand.Proofs.Units.AddedTwice
import CssExpand.Proofs.Shorthand.FontGrammar
import CssExpand.Proofs.Shorthand.Interleaved
import CssExpand.Proofs.Shorthand.Rows
import CssExpand.Proofs.Value.Border
import CssExpand.Proofs.Sheet.Unfinished
import CssExpand.Proofs.Forest.AtPlace
import CssExpand.Proofs.Syntax.LowerCase
import CssExpand.Proofs.Syntax.Tractable
import CssExpand.Proofs.Value.LowerCase
import CssExpand.Proofs.Shorthand.LowerCase
import CssExpand.Proofs.Value.Contained
import CssExpand.Proofs.Value.Layout
