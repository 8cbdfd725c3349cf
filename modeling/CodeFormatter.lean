import CodeFormatter.Text.Blank
import CodeFormatter.Text.Scan
import CodeFormatter.Text.Quoted
import CodeFormatter.Doc.Breaks
import CodeFormatter.Doc.Dump
import CodeFormatter.Layout.Printer
import CodeFormatter.Options
import CodeFormatter.Cache
import CodeFormatter.Comment.Store
import CodeFormatter.Tree.Basic
import CodeFormatter.Comment.Attach
import CodeFormatter.Comment.Levels
import CodeFormatter.Walk
import CodeFormatter.Tree.Dump
import CodeFormatter.Tree.Arena
import CodeFormatter.Formatter
import CodeFormatter.Table
import CodeFormatter.JavaScript
import CodeFormatter.Main
import CodeFormatter.Proofs.Doc.Basic
import CodeFormatter.Proofs.Layout.Reference
import CodeFormatter.Proofs.Layout.Fits
import CodeFormatter.Proofs.Layout.Indentation
import CodeFormatter.Proofs.Layout.Overflow
import CodeFormatter.Proofs.Layout.Progress
import CodeFormatter.Proofs.Doc.Ink
import CodeFormatter.Proofs.Layout.Conservation
import CodeFormatter.Proofs.Layout.Deferral
import CodeFormatter.Proofs.Layout.DeferredContents
import CodeFormatter.Proofs.Layout.Selection
import CodeFormatter.Proofs.Layout.Leaves
import CodeFormatter.Proofs.SelfCheck
import CodeFormatter.Proofs.Tree.Nesting
import CodeFormatter.Proofs.Comment.Store
import CodeFormatter.Proofs.Comment.Emission
import CodeFormatter.Proofs.Comment.Ownership
import CodeFormatter.Proofs.Comment.Surroundings
import CodeFormatter.Proofs.Comment.Ties
import CodeFormatter.Proofs.Comment.Attachment
import CodeFormatter.Proofs.Walk.Emission
import CodeFormatter.Proofs.Walk.Coverage
import CodeFormatter.Proofs.Walk.Marks
import CodeFormatter.Proofs.JavaScript.EmptyProgram
import CodeFormatter.Proofs.JavaScript.Idempotence
import CodeFormatter.Proofs.JavaScript.NodeLayouts
import CodeFormatter.Proofs.JavaScript.Visits
import CodeFormatter.Proofs.JavaScript.Rereading
import CodeFormatter.Proofs.JavaScript.Residence
import CodeFormatter.Proofs.JavaScript.CommentTotality
import CodeFormatter.Proofs.Walk.Gives
import CodeFormatter.Proofs.JavaScript.Layouts
import CodeFormatter.Proofs.JavaScript.Outlines
import CodeFormatter.Proofs.JavaScript.AnyParser
import CodeFormatter.Proofs.Text.Slice
import CodeFormatter.Proofs.JavaScript.IgnoredNodes
import CodeFormatter.Proofs.JavaScript.LayoutOptions
import CodeFormatter.Proofs.JavaScript.Spelling
import CodeFormatter.Proofs.JavaScript.Success
import CodeFormatter.Proofs.JavaScript.TokenConservation
import CodeFormatter.Proofs.Walk.Ends
import CodeFormatter.Proofs.JavaScript.Inherited
import CodeFormatter.Proofs.Tree.Search
import CodeFormatter.Proofs.Range
import CodeFormatter.Proofs.JavaScript.Ranges
import CodeFormatter.Proofs.JavaScript.RangeParsing
import CodeFormatter.Proofs.Text.Blank
import CodeFormatter.Proofs.Text.LineEnding
import CodeFormatter.Proofs.Layout.Uniformity
import CodeFormatter.Proofs.JavaScript.LineEndings
import CodeFormatter.Proofs.Layout.Cursor
import CodeFormatter.Proofs.JavaScript.CursorTracking
import CodeFormatter.Proofs.Layout.Invariants
import CodeFormatter.Proofs.Layout.Alignment
import CodeFormatter.Proofs.JavaScript.FormattedRanges
import CodeFormatter.Proofs.Formatter
import CodeFormatter.Proofs.ByteOrderMark
import CodeFormatter.Proofs.Walk.Scenes
import CodeFormatter.Proofs.WholeRange
import CodeFormatter.Proofs.Layout.CursorPositions
import CodeFormatter.Proofs.CursorPosition
import CodeFormatter.Proofs.Doc.Pieces
import CodeFormatter.Proofs.Layout.Pieces
import CodeFormatter.Proofs.Layout.CursorNeutrality
import CodeFormatter.Proofs.Walk.Twins
import CodeFormatter.Proofs.CursorNeutrality
import CodeFormatter.Proofs.JavaScript.CursorNeutrality
import CodeFormatter.Proofs.Cache
import CodeFormatter.Proofs.Normalization
import CodeFormatter.Proofs.CheckedText
import CodeFormatter.Proofs.Inspection
import CodeFormatter.Proofs.CommandLine.Schedules
import CodeFormatter.Proofs.Layout.FlatGroups
import CodeFormatter.Proofs.Layout.Loop
import CodeFormatter.Proofs.Layout.Characters
import CodeFormatter.Proofs.Layout.Columns
import CodeFormatter.Proofs.Layout.TrailingBlanks
import CodeFormatter.Proofs.Layout.WordWrap
import CodeFormatter.Proofs.Doc.Breaks
import CodeFormatter.Proofs.Layout.Sites
import CodeFormatter.Proofs.Layout.AbsoluteColumn
import CodeFormatter.Proofs.Comment.Neighbours
import CodeFormatter.Proofs.CoveredRange
import CodeFormatter.Proofs.JavaScript.Docblock
import CodeFormatter.Proofs.JavaScript.Pragma
import CodeFormatter.Proofs.JavaScript.PragmaCursor
import CodeFormatter.Proofs.JavaScript.Reindentation
import CodeFormatter.Proofs.Text.Quoted
import CodeFormatter.Proofs.Layout.EmptyTexts
import CodeFormatter.Proofs.Doc.Dump
import CodeFormatter.Proofs.Tree.Concrete
import CodeFormatter.Proofs.Tree.Kept
import CodeFormatter.Proofs.Tree.Arena
import CodeFormatter.Proofs.JavaScript.Arena
import CodeFormatter.Proofs.Text.NextLine
import CodeFormatter.Proofs.Layout.Scopes
