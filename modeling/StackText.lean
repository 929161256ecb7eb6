import StackText.Editor.Basic
import StackText.Files.Tree
import StackText.Main
import StackText.Proofs.CommandLine.FoundSources
import StackText.Proofs.CommandLine.OptionLetters
import StackText.Proofs.CommandLine.Readings
import StackText.Proofs.CommandLine.SourceAgreement
import StackText.Proofs.Editor.CompilerAgreement
import StackText.Proofs.Editor.IndexedTokens
import StackText.Proofs.Editor.OpenTexts
import StackText.Proofs.Editor.UndefinedCalls
import StackText.Proofs.Json.PlainText
import StackText.Proofs.Machine.CallFrames
import StackText.Proofs.Machine.EarlierOutput
import StackText.Proofs.Machine.FetchedCode
import StackText.Proofs.Machine.Interruption
import StackText.Proofs.Machine.OwnCode
import StackText.Proofs.Machine.StackLocality
import StackText.Proofs.Number.IntegerTokens
import StackText.Proofs.Reader.Compilation
import StackText.Proofs.Reader.FenceGrammar
import StackText.Proofs.Reader.FlatCode
import StackText.Proofs.Reader.MentionedNames
import StackText.Proofs.Reader.Printing
import StackText.Proofs.Reader.SparedIds
import StackText.Proofs.Reader.Verdict
import StackText.Proofs.Service.Answers
import StackText.Proofs.Service.Coherence
import StackText.Proofs.Service.Framing
import StackText.Proofs.Service.PieceBoundaries
import StackText.Proofs.Session.FailedRun
import StackText.Proofs.Session.FrameRefinement
import StackText.Proofs.Session.IntegerClosure
import StackText.Proofs.Session.LineByLine
import StackText.Proofs.Session.StoreFrame
import StackText.Proofs.Store.IdHistory
import StackText.Proofs.Value.QuotedString
import StackText.Proofs.Value.StructuralText
import StackText.Proofs.Value.UnambiguousText
import StackText.Service
import StackText.Workbench
import StackText.Proofs.CommandLine.RegularArguments
import StackText.Proofs.Editor.IndexedPlaces
import StackText.Proofs.Editor.WordUnderCursor
import StackText.Proofs.Reader.LoadedOnce
import StackText.Proofs.Code.NestedBlocks
import StackText.Proofs.Code.WholeListing
import StackText.Proofs.Machine.InputWords
import StackText.Proofs.Reader.TextTiling
import StackText.Proofs.Session.CodeSafety
