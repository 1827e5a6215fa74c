import CtBrowser.Script.ProgramImage.ControlFlow
import CtBrowser.Script.ProgramImage.Truncation
import CtBrowser.Script.Vm.Arguments
import CtBrowser.Script.Vm.WindowRuns
import CtBrowser.Shell.Net.AddressPolicy
import CtBrowser.Script.Collections.LiveIteration
import CtBrowser.Shell.Bindings.PreInsert
import CtBrowser.Style.Engine.NearestChoice
import CtBrowser.Style.Engine.CascadeOrder
import CtBrowser.Script.Promises.Protocol
import CtBrowser.Shell.Bindings.LiveRanges
import CtBrowser.Style.Css.RoundTrip
import CtBrowser.Shell.Bindings.InnerInvoke
import CtBrowser.Shell.Bindings.TimerRuns
import CtBrowser.CtNative.Associativity
import CtBrowser.Script.Temporal.Strings
import CtBrowser.Script.Vm.Resumption
import CtBrowser.Script.Strings.StringObject
import CtBrowser.Script.Strings.Halves
import CtBrowser.Script.BigInt
import CtBrowser.Script.Comparison
import CtBrowser.Script.TypedArrays
import CtBrowser.Script.Compile.Upvalues
import CtBrowser.Script.Regex.CountedLoop
import CtBrowser.Script.Regex.ClassStrings
import CtBrowser.Script.Regex.DecimalEscapes
import CtBrowser.Shell.Net.Url.PunycodeRoundTrip
import CtBrowser.Dom.ProcessingInstruction
import CtBrowser.Dom.TreeBuilder.ScopeIndex
import CtBrowser.Dom.TreeBuilder.SourceCapture
import CtBrowser.Dom.TreeBuilder.InsertionPoints
import CtBrowser.Shell.Net.Url.Replacement
import CtBrowser.Style.Engine.AncestorFilter
import CtBrowser.Core.Base64
import CtBrowser.Script.Builtins.JsonSource
import CtBrowser.Dom.Tokenizer.Comment
import CtBrowser.Dom.Tokenizer.ScriptReading
import CtBrowser.Script.Gc.Collector
import CtBrowser.Core.Slab
import CtBrowser.Core.Scheduler
import CtBrowser.Style.Css.BooleanReading
import CtBrowser.Dom.Xml.Inclusion
import CtBrowser.Style.Engine.LayerIdentity
import CtBrowser.Script.Temporal.Civil
import CtBrowser.Script.Temporal.Differences
import CtBrowser.Script.Objects.OwnKeys
import CtBrowser.Script.Objects.ArrayHoles
