import SwiftKStdlib.Lib.Prog
import SwiftKStdlib.Lib.Segmentation
import SwiftKStdlib.Lib.BitField
import SwiftKStdlib.Lib.Bytes
import SwiftKStdlib.Sort.Basic
import SwiftKStdlib.Sort.IntroSort
import SwiftKStdlib.Unicode.Parsers
import SwiftKStdlib.Unicode.CodingRoundTrip
import SwiftKStdlib.Demangling.PunycodeUTF8
import SwiftKStdlib.Demangling.PunycodeFailures
import SwiftKStdlib.Demangling.IdentifierRoundTrip
import SwiftKStdlib.Runtime.SideTable
import SwiftKStdlib.Runtime.WeakReference
import SwiftKStdlib.Runtime.ObjectLife
import SwiftKStdlib.Runtime.TakeStrong
import SwiftKStdlib.Runtime.SinglePayloadEnum
import SwiftKStdlib.Runtime.Exclusivity
import SwiftKStdlib.Demangling.SubstitutionMerging
import SwiftKStdlib.BitVector.Adding
import SwiftKStdlib.Integers.DoubleWidthMultiplication
import SwiftKStdlib.Integers.DoubleWidthDivision
import SwiftKStdlib.Integers.IntegerParsing
import SwiftKStdlib.Integers.Strides
import SwiftKStdlib.Integers.FullWidthDivision
import SwiftKStdlib.Integers.SmartShifts
import SwiftKStdlib.Driver.Replacing
import SwiftKStdlib.Driver.Completion
import SwiftKStdlib.PrefixMap.Iteration
import SwiftKStdlib.HashedCollections.Guarantees
import SwiftKStdlib.HashedCollections.SetLaws
import SwiftKStdlib.HashedCollections.MapValues
import SwiftKStdlib.SpaceEngine.Flattening
import SwiftKStdlib.SpaceEngine.Redundancy
import SwiftKStdlib.Lexer.Safety
import SwiftKStdlib.Lexer.Characters
import SwiftKStdlib.Lexer.NumberTokens
import SwiftKStdlib.IRGen.GatheredBits
import SwiftKStdlib.IRGen.EmitSwitch
import SwiftKStdlib.IRGen.InterleaveSpareBits
import SwiftKStdlib.Integers.StrideIteration
import SwiftKStdlib.Basic.Version
import SwiftKStdlib.IRGen.PayloadRoundTrip
import SwiftKStdlib.Sort.PartitionBy
import SwiftKStdlib.SuccessorMap.Runs
import SwiftKStdlib.Strings.AppendingUnits
import SwiftKStdlib.StringExtras.FindWord
import SwiftKStdlib.Lib.Cutting
import SwiftKStdlib.StringExtras.WordWalks
import SwiftKStdlib.StringExtras.NonEmpty
import SwiftKStdlib.ImmutablePointerSet.Runs
import SwiftKStdlib.EncodedSequence.Runs
import SwiftKStdlib.Strings.FromCodeUnits
import SwiftKStdlib.StringExtras.WordMatching
import SwiftKStdlib.Lexer.QuotedString
import SwiftKStdlib.Lexer.MultilineContent
import SwiftKStdlib.Lexer.LineStarts
import SwiftKStdlib.Demangling.Naturals
import SwiftKStdlib.Demangling.BridgedMethods
import SwiftKStdlib.Basic.JSONText
import SwiftKStdlib.Demangling.NodeFactoryRuns
import SwiftKStdlib.Collections.FlattenPositions
import SwiftKStdlib.Demangling.BuiltinTypes
import SwiftKStdlib.Driver.Unfinished
import SwiftKStdlib.Integers.Description
import SwiftKStdlib.SpaceEngine.Diagnosis
