import Segvault.Autodafe.Lengths
import Segvault.Autodafe.Checksums
import Segvault.Hachoir.StreamAgreement
import Segvault.Hachoir.EditedBits
import Segvault.Autodafe.FuzzEngine
import Segvault.Fusil.StopRequests
import Segvault.Autodafe.Framing
import Segvault.Hachoir.SubfileSearch
import Segvault.HachoirRegex.Lengths
import Segvault.HachoirRegex.RepeatOrExact
import Segvault.Hachoir.WriteBit
import Segvault.Hachoir.WriteFieldsIn
import Segvault.Hachoir.SeekableCover
import Segvault.HachoirRegex.ParseRejects
import Segvault.HachoirRegex.ParseEnds
import Segvault.HachoirRegex.ParseEqual
import Segvault.Hachoir.BinaryText
import Segvault.Hachoir.CountBits
import Segvault.Hachoir.ConcatStream
import Segvault.Hachoir.PipeSize
import Segvault.Hachoir.EditedLength
import Segvault.Hachoir.FakeArray
import Segvault.Hachoir.StringEnd
import Segvault.Hachoir.GifReading
import Segvault.HachoirRegex.Combining
import Segvault.Fusil.DisjointOperations
import Segvault.Fusil.MangleSafety
import Segvault.Fusil.FileWatch
import Segvault.Fusil.Unregistering
import Segvault.Fusil.FixPng
import Segvault.Hachoir.EditedNumber
import Segvault.Fusil.UniqueFilename
import Segvault.Fusil.CmdHelpParser
import Segvault.Fusil.CTools
import Segvault.Fusil.XmlGen
import Segvault.Autodafe.RawString
import Segvault.Autodafe.GdbLookFor
import Segvault.Autodafe.IndexSource
import Segvault.Fusil.UniversStep
import Segvault.Hachoir.SzUInt64
import Segvault.Ptrace.ReadCString
import Segvault.Ptrace.Search
import Segvault.Ptrace.Backtrace
import Segvault.Ptrace.Breakpoints
import Segvault.Ptrace.SubRegisters
import Segvault.Ptrace.Debugger
import Segvault.Ptrace.ParseExprExact
import Segvault.Hachoir.BitReads
import Segvault.HachoirRegex.NormalRanges
import Segvault.Hachoir.MkvIntegers
import Segvault.Untidy.Iterator
import Segvault.Hachoir.FatClusters
import Segvault.Hachoir.Ole2Chains
import Segvault.Fusil.ReplayPython
import Segvault.HachoirMetadata.DataAdd
import Segvault.Fusil.SplitCommand
import Segvault.HachoirParser.QueryParser
import Segvault.HachoirRegex.RangeRendering
import Segvault.Hachoir.DeflateRoundTrip
