import LsLang.Ast.Clone
import LsLang.Ast.Hygiene
import LsLang.Borrow.ReadOnly
import LsLang.Comptime.Agree
import LsLang.Comptime.Defined
import LsLang.Core.DequeHolds
import LsLang.Core.Heap
import LsLang.Core.MapRun
import LsLang.Core.ValueRoundTrip
import LsLang.Core.ValueUnicode
import LsLang.Core.VecRun
import LsLang.Derive.Coherent
import LsLang.Format.Trail
import LsLang.Generics.Substitution
import LsLang.Lsm.Shapes
import LsLang.Mem.Region
import LsLang.Modules.Load
import LsLang.Opt.NoaliasRecover
import LsLang.Oran.GrowWriter
import LsLang.Oran.PcapSafe
import LsLang.Oran.ReaderRun
import LsLang.Oran.ResourceBlocks
import LsLang.Oran.UplaneRoundTrip
import LsLang.Regex.Captures
import LsLang.Regex.ClassExact
import LsLang.Regex.IgnoreCase
import LsLang.Regex.PatternCache
import LsLang.Regex.Terminates
import LsLang.Runtime.Format
import LsLang.Scan.Parse
import LsLang.Sci.AxisOps
import LsLang.Sci.Broadcast
import LsLang.Sim.BuildUops
import LsLang.Sim.CycleRatio
import LsLang.Symbols.Mangle
import LsLang.Symbols.TypeNameInj
import LsLang.Sync.ChanWakeup
import LsLang.Sync.ParallelFor
import LsLang.Sync.RingQueue
import LsLang.Text.CsvRoundTrip
import LsLang.Text.HtmlRoundTrip
import LsLang.Text.HtmlRawText
import LsLang.Text.JsonAgree
import LsLang.Text.JsonKeys
import LsLang.Text.MdHtml
import LsLang.Text.MdLines
import LsLang.Text.MatchLoop
import LsLang.Text.ReplaceAll
import LsLang.Text.RegexSplit
import LsLang.Text.StrSplit
import LsLang.Text.IntPrint
import LsLang.Lsm.Validate
import LsLang.Derive.Serde
import LsLang.Scan.IntLit
