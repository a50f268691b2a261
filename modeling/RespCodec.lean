import RespCodec.Main
import RespCodec.Sink.Pipeline
import RespCodec.Value.Equality
import RespCodec.Proofs.Acceptance
import RespCodec.Proofs.RoundTrip
import RespCodec.Proofs.Arrival
import RespCodec.Proofs.Synchrony
import RespCodec.Proofs.Extension
import RespCodec.Proofs.Parts
import RespCodec.Proofs.WellFormed
import RespCodec.Proofs.Framing
import RespCodec.Proofs.Poisoning
import RespCodec.Proofs.Limits
import RespCodec.Proofs.Progress
import RespCodec.Proofs.Conservation
import RespCodec.Proofs.Transparency
import RespCodec.Proofs.Streams
import RespCodec.Proofs.Fragmentation
import RespCodec.Proofs.Weight
import RespCodec.Proofs.HeaderReadings
import RespCodec.Proofs.LineReadings
import RespCodec.Proofs.Nulls
import RespCodec.Proofs.Refusals
import RespCodec.Proofs.Transcripts
import RespCodec.Proofs.CanonicalDigits
import RespCodec.Proofs.Layout
import RespCodec.Proofs.Sizes
import RespCodec.Proofs.Interruptions
import RespCodec.Proofs.Rows
import RespCodec.Proofs.Entries
import RespCodec.Proofs.Untrapped
import RespCodec.Proofs.Following
import RespCodec.Proofs.Requests
