import JavaFx.Lib.EditScript
import JavaFx.Lib.Runs
import JavaFx.Lib.IndexPerm
import JavaFx.Lib.Weave
import JavaFx.Lib.ScriptViews
import JavaFx.Java
import JavaFx.Collections.ListChangeBuilder
import JavaFx.Collections.AddRemove
import JavaFx.Collections.Reconstruct
import JavaFx.Collections.Rehome
import JavaFx.Collections.NextPermutation
import JavaFx.Collections.ChangeBlock
import JavaFx.Collections.BuilderSoundness
import JavaFx.Collections.Change
import JavaFx.Collections.ChangeAdapters
import JavaFx.Lib.Splice
import JavaFx.Collections.Replay
import JavaFx.Binding.ListContentBinding
import JavaFx.Collections.SortHelper
import JavaFx.Transformation.SortedList
import JavaFx.Transformation.Unsorted
import JavaFx.Collections.ObservableMapWrapper
import JavaFx.Collections.MapEntries
import JavaFx.Collections.MapEvents
import JavaFx.Binding.MapContentBinding
import JavaFx.Binding.ListenerArray
import JavaFx.Binding.ExpressionHelper
import JavaFx.Binding.Registration
import JavaFx.Binding.Notification
import JavaFx.Binding.ListenerBag
import JavaFx.Binding.BidirectionalBinding
import JavaFx.Event.EventDispatchChain
import JavaFx.Collections.ListViews
import JavaFx.Collections.VetoableListDecorator
import JavaFx.Collections.DecoratorTracking
import JavaFx.Collections.DecoratorRefinement
import JavaFx.Collections.ChangeDescription
import JavaFx.Collections.DecoratorWindows
import JavaFx.Collections.ProposedChanges
import JavaFx.Lib.WordSet
import JavaFx.Css.BitSet
import JavaFx.Css.BitSetLaws
import JavaFx.Lib.ChainEmbedding
import JavaFx.Css.Selector
import JavaFx.Css.StateMatching
import JavaFx.Css.TriggerStates
import JavaFx.Css.PartitionedMatch
import JavaFx.Css.StylesheetRoundTrip
import JavaFx.Collections.ObservableListWrapper
import JavaFx.Lib.UpForest
import JavaFx.Method
import JavaFx.Lib.Lines
import JavaFx.Lib.Ascending
import JavaFx.Control.TextAreaContent
import JavaFx.Control.ParagraphText
import JavaFx.Control.TextInputControl
import JavaFx.Control.TextConsistency
import JavaFx.Control.TextRuns
import JavaFx.Control.MultipleSelectionModel
import JavaFx.Control.SelectionInvariant
import JavaFx.Control.SelectionRuns
import JavaFx.Control.SelectionReplay
import JavaFx.Control.SelectionRanges
import JavaFx.Control.ReplayRuns
import JavaFx.Control.TreeItem
import JavaFx.Control.TreeLinks
import JavaFx.Control.TreeCounts
import JavaFx.Control.TreeQueries
import JavaFx.Control.TreeCountRuns
import JavaFx.Css.Match
import JavaFx.Css.StyleMap
import JavaFx.Css.SelectorBinary
import JavaFx.Css.SelectorRoundTrip
import JavaFx.Concurrent.TaskUpdates
import JavaFx.Concurrent.Task
import JavaFx.Concurrent.TaskProtocol
import JavaFx.Concurrent.TaskOutcome
import JavaFx.Collections.MutatorProposal
import JavaFx.Animation.TransitionChildren
import JavaFx.Animation.TransitionHierarchy
import JavaFx.Animation.TickCalculation
import JavaFx.Animation.ClipEnvelope
import JavaFx.Animation.ClipLooping
import JavaFx.Animation.ClipPulses
import JavaFx.Animation.TimelineClipCore
import JavaFx.Animation.KeyFrameVisits
import JavaFx.Animation.TimelineRuns
import JavaFx.JavaInt
import JavaFx.Prism.RectanglePacker
import JavaFx.Prism.PackerRuns
import JavaFx.Lib.Buckets
import JavaFx.Web.Cookie
import JavaFx.Web.CookieStore
import JavaFx.Web.StoreCounts
import JavaFx.Web.CookieManager
import JavaFx.Web.CookieIsolation
import JavaFx.Geom.DirtyRegionContainer
import JavaFx.Geom.RegionHeap
import JavaFx.Geom.DirtyRegionRuns
import JavaFx.Lib.Postfix
import JavaFx.Fxml.KeyPath
import JavaFx.Fxml.ExpressionParser
import JavaFx.Fxml.ExpressionText
import JavaFx.Fxml.OperatorStack
import JavaFx.Fxml.DelayedOperators
import JavaFx.Fxml.LiteralLexing
import JavaFx.Fxml.KeyPathLexing
import JavaFx.Fxml.TokenLexing
import JavaFx.Fxml.LeafLexing
import JavaFx.Fxml.MisreadLeaves
import JavaFx.Fxml.ExpressionRoundTrip
import JavaFx.Lib.EditHistory
import JavaFx.Control.TextInputControlBehavior
import JavaFx.Control.LooseText
import JavaFx.Control.UndoRecords
import JavaFx.Control.UndoRuns
import JavaFx.Control.SelectedCellsMap
import JavaFx.Transformation.PartialPermutation
import JavaFx.Transformation.Unsorting
import JavaFx.Lib.Decimal
import JavaFx.Json.JSONScanner
import JavaFx.Json.JSONDocument
import JavaFx.Json.JSONStreamReader
import JavaFx.Json.Grammar
import JavaFx.Json.Lexing
import JavaFx.Json.StackMachine
import JavaFx.Json.Acceptance
import JavaFx.Lib.Purging
import JavaFx.Json.ReaderIsolation
import JavaFx.Css.Enumeration
import JavaFx.Css.Specificity
import JavaFx.Lib.StableSort
import JavaFx.Lib.Window
import JavaFx.Collections.SortTracking
import JavaFx.Collections.SortedArrays
import JavaFx.Collections.FloatArrayAtomicity
import JavaFx.Animation.ClipJumps
import JavaFx.Fxml.PathVariables
import JavaFx.Fxml.KeyPathText
import JavaFx.JavaText
import JavaFx.Web.DateTexts
import JavaFx.Web.CookieQueries
import JavaFx.Input.KeyNames
import JavaFx.Control.TreeRows
import JavaFx.Control.ParagraphReplay
import JavaFx.Control.EditingPaths
import JavaFx.Concurrent.DelayTimers
import JavaFx.Binding.MapExpressionHelper
import JavaFx.Css.ParsedValueHashes
import JavaFx.Collections.SequentialIterator
import JavaFx.Css.LexerProgress
import JavaFx.Control.ArrayLinkedList
import JavaFx.Css.CascadeOrder
import JavaFx.Web.CookieTimes
import JavaFx.Web.PublicSuffixes
import JavaFx.Geom.DirtyRegionOverlap
