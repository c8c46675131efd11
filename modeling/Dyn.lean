import Dyn.Compress.Reads
import Dyn.Compress.CodeTables
import Dyn.Json.Language
import Dyn.Mem.TrialArena
import Dyn.Encoding.CborTokens
import Dyn.Encoding.MsgpackTokens
import Dyn.Encoding.ProtobufFields
import Dyn.Strings.DecimalConversion
import Dyn.Image.QoiArena
import Dyn.Thread.PoolRuns
import Dyn.Source.Positions
import Dyn.Unwind.SlotRuns
import Dyn.Support.Conversions
import Dyn.Backend.Allocation
import Dyn.Backend.ParallelMoves
import Dyn.Regex.Classes
import Dyn.Regex.Sizing
import Dyn.Ir.RangeRuns
import Dyn.Backend.DominatorNumbers
import Dyn.Backend.ReachingDefinitions
import Dyn.Backend.CaseTables
import Dyn.Backend.LoadRuns
import Dyn.Sema.CaseCoverage
import Dyn.Isa.ThumbRuns
import Dyn.Sema.ConstantQueries
import Dyn.Sema.InitializerRuns
import Dyn.Big.Residues
import Dyn.Container.SlotMap
import Dyn.Semver.Precedence
import Dyn.Sorting.Runs
import Dyn.Container.Interleaving
import Dyn.Csv.RoundTrip
import Dyn.Json.StreamWriter
import Dyn.Backend.Quotients
import Dyn.Strings.Glob
import Dyn.Time.Recurrence
import Dyn.Crypto.Ghash
import Dyn.Crypto.Hashes
import Dyn.Link.Archives
import Dyn.Unicode.Codepoints
