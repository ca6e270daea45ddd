import RustPsbt.Combine.Lossless
import RustPsbt.Combine.IdPreserved
import RustPsbt.Combine.Commute
import RustPsbt.Combine.Semigroup
import RustPsbt.Library.DecoderCombinators
import RustPsbt.Library.KeyedTable
import RustPsbt.Library.StagedLoop
import RustPsbt.Primitives.CompactSize
import RustPsbt.Primitives.Codecs
import RustPsbt.Encoding.Value
import RustPsbt.Encoding.TapKeyOrigin
import RustPsbt.Encoding.TapTree
import RustPsbt.Encoding.Key
import RustPsbt.Map.Decoder
import RustPsbt.Combine.Flags
import RustPsbt.Roles.Descriptor
import RustPsbt.Roles.Timelock
import RustPsbt.Map.Funding
import RustPsbt.Primitives.RelativeLockTime
import RustPsbt.Encoding.UnsignedTx
import RustPsbt.Roles.Workflow
import RustPsbt.Roles.SignableInput
import RustPsbt.Roles.Keys
import RustPsbt.Roles.Session
import RustPsbt.Roles.Completeness
import RustPsbt.Roles.Labels
import RustPsbt.Library.Buffered
import RustPsbt.Roles.Transport
import RustPsbt.Combine.KeySources
import RustPsbt.Roles.FeeRate
import RustPsbt.Roles.LegacySigning
import RustPsbt.Roles.Apply
import RustPsbt.Roles.Updater
import RustPsbt.Roles.Refinalize
import RustPsbt.Roles.FinalScripts
import RustPsbt.Roles.Committed
import RustPsbt.Reference.Codecs
import RustPsbt.Map.V0.Output
import RustPsbt.Map.V0.Input
import RustPsbt.Map.V0.Global
import RustPsbt.Serialization.V0
import RustPsbt.Roles.Reachable
import RustPsbt.Map.Boundaries
import RustPsbt.Roles.TapWitness
import RustPsbt.Encoding.Exact
import RustPsbt.Serialization.ReadLimit
import RustPsbt.Serialization.Framed
import RustPsbt.Serialization.KeptKeys
import RustPsbt.Serialization.Panics
import RustPsbt.Serialization.Promotion
import RustPsbt.Serialization.RoundTripV0
import RustPsbt.Serialization.Truncated
import RustPsbt.Serialization.Versions
import RustPsbt.Serialization.Reordered
import RustPsbt.Serialization.Streamed
import RustPsbt.Serialization.Pairs
import RustPsbt.Serialization.Combined
import RustPsbt.Serialization.Degraded
import RustPsbt.Combine.Converge
import RustPsbt.Combine.Extraction
import RustPsbt.Roles.Parallel
import RustPsbt.Roles.SignAll
import RustPsbt.Roles.SignAgain
import RustPsbt.Roles.Cosigners
import RustPsbt.Roles.HandOff
import RustPsbt.Roles.SettledFee
