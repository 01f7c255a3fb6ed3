import PipelineScript.Command.Arguments
import PipelineScript.Json.Codec
import PipelineScript.Main
import PipelineScript.Node.Preorder
import PipelineScript.Node.Same
import PipelineScript.Node.Walk
import PipelineScript.Parse.Program
import PipelineScript.Proofs.Complete
import PipelineScript.Proofs.Scan
import PipelineScript.Proofs.Pieces
import PipelineScript.Proofs.Spelling
import PipelineScript.Proofs.Spellable
import PipelineScript.Proofs.ReadBack
import PipelineScript.Proofs.Layout
import PipelineScript.Proofs.Literals
import PipelineScript.Proofs.Statements
import PipelineScript.Proofs.RoundTrip
import PipelineScript.Proofs.Echo
import PipelineScript.Proofs.Sound
import PipelineScript.Proofs.Floats
import PipelineScript.Proofs.Parsed
import PipelineScript.Proofs.Halting
import PipelineScript.Proofs.Marks
import PipelineScript.Proofs.Insertion
import PipelineScript.Proofs.Keeping
import PipelineScript.Proofs.Stable
import PipelineScript.Proofs.Tiling
import PipelineScript.Proofs.Shape
import PipelineScript.Proofs.Encoding
import PipelineScript.Proofs.Idle
import PipelineScript.Proofs.Ample
import PipelineScript.Proofs.Streams
import PipelineScript.Proofs.Agreement
import PipelineScript.Proofs.SameTokens
import PipelineScript.Proofs.Children
import PipelineScript.Proofs.Transcript
import PipelineScript.Proofs.Linked
import PipelineScript.Proofs.Finite
import PipelineScript.Proofs.Decoding
import PipelineScript.Proofs.Prefixed
import PipelineScript.Proofs.LambdaBody
import PipelineScript.Proofs.Grouping
import PipelineScript.Proofs.InPlace
import PipelineScript.Proofs.Tour
import PipelineScript.Proofs.ByteScanner
import PipelineScript.Proofs.InBounds
import PipelineScript.Proofs.ScanStates
import PipelineScript.Proofs.ScanRuns
import PipelineScript.Proofs.Quoting
import PipelineScript.Proofs.LiteralValues
import PipelineScript.Proofs.RegexLiterals
import PipelineScript.Proofs.TripleQuotes
import PipelineScript.Proofs.Words
import PipelineScript.Proofs.CanonicalSpans
import PipelineScript.Proofs.Integers
import PipelineScript.Proofs.CommentBlocks
import PipelineScript.Proofs.Diagnostics
import PipelineScript.Proofs.Erasure
import PipelineScript.Proofs.Collectors
import PipelineScript.Proofs.Lines
import PipelineScript.Proofs.Progress
