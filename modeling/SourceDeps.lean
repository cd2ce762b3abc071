import SourceDeps.Main
import SourceDeps.Stylesheet.Json
import SourceDeps.Proofs.Script.Place
import SourceDeps.Proofs.Script.Program
import SourceDeps.Proofs.Script.Shape
import SourceDeps.Proofs.Detect
import SourceDeps.Proofs.Dispatch
import SourceDeps.Proofs.Extract.References
import SourceDeps.Proofs.Extract.Outermost
import SourceDeps.Proofs.Stylesheet.Provenance
import SourceDeps.Proofs.Stylesheet.Params
import SourceDeps.Proofs.Stylesheet.Scan
import SourceDeps.Proofs.Stylesheet.Segments
import SourceDeps.Proofs.Extract.Coverage
import SourceDeps.Proofs.Script.Outline
import SourceDeps.Proofs.Extract.Outline
import SourceDeps.Proofs.File
import SourceDeps.Proofs.CommandLine
import SourceDeps.Proofs.Stylesheet.Declaration
import SourceDeps.Proofs.Stylesheet.StringList
import SourceDeps.Proofs.Extract.Lazy
import SourceDeps.Proofs.Extract.Mixture
import SourceDeps.Proofs.Extract.HtmlComment
import SourceDeps.Proofs.Extract.Factory
import SourceDeps.Proofs.Script.Cursor
import SourceDeps.Proofs.Stylesheet.ByteRead
import SourceDeps.Proofs.Stylesheet.OneLine
import SourceDeps.Proofs.Builtin
import SourceDeps.Proofs.Settings.Variables
import SourceDeps.Proofs.Json.Integer
import SourceDeps.Proofs.Json.Quoted
import SourceDeps.Proofs.Json.Text
import SourceDeps.Proofs.Json.Decode
import SourceDeps.Proofs.Json.Record
import SourceDeps.Proofs.Json.Written
import SourceDeps.Proofs.Options
import SourceDeps.Proofs.Json.RoundTrip
import SourceDeps.Proofs.Script.Fault
import SourceDeps.Proofs.Stylesheet.Parts
import SourceDeps.Proofs.Stylesheet.PlacedParams
import SourceDeps.Proofs.Stylesheet.Commas
