import KroneckerCode.Decoder.Batch
import KroneckerCode.Decoder.Session
import KroneckerCode.Encoder.Batch
import KroneckerCode.Encoder.Session
import KroneckerCode.Error.Debug
import KroneckerCode.Integer.Lemmas
import KroneckerCode.Integer.Program
import KroneckerCode.Proofs.Primality.Test
import KroneckerCode.Proofs.Integer.Prime
import KroneckerCode.Proofs.Limits.Place
import KroneckerCode.Proofs.Limits.Table
import KroneckerCode.Proofs.Limits.Dimension
import KroneckerCode.Proofs.Limits.Progress
import KroneckerCode.Proofs.Decoder.State
import KroneckerCode.Proofs.Encoder.State
import KroneckerCode.Proofs.Encoder.Batch
import KroneckerCode.Proofs.Decoder.Batch
import KroneckerCode.Proofs.RoundTrip
import KroneckerCode.Proofs.Decoder.Session
import KroneckerCode.Proofs.Encoder.Session
import KroneckerCode.Proofs.Decoder.Stream
import KroneckerCode.Proofs.Encoder.Stream
import KroneckerCode.Proofs.Overflow
import KroneckerCode.Proofs.Encoder.Substitution
import KroneckerCode.Proofs.Encoder.Outcome
import KroneckerCode.Proofs.Encoder.Source
import KroneckerCode.Proofs.Order
import KroneckerCode.Proofs.Addition
import KroneckerCode.Proofs.Binary.Number
import KroneckerCode.Proofs.Binary.Round
import KroneckerCode.Proofs.Binary.Nearest
import KroneckerCode.Proofs.Cast.Exact
import KroneckerCode.Proofs.Cast.Conversion
import KroneckerCode.Proofs.Encoder.Elements
import KroneckerCode.Proofs.ElementRoundTrip
import KroneckerCode.Proofs.Integer.Arithmetic
import KroneckerCode.Proofs.Integer.Observe
import KroneckerCode.Proofs.Encoder.Wider
import KroneckerCode.Proofs.Integer.Program
import KroneckerCode.Proofs.Integer.Primality
import KroneckerCode.Proofs.Integer.PrimeSearch
import KroneckerCode.Proofs.Limits.Reach
import KroneckerCode.Proofs.Limits.Ratio
import KroneckerCode.Proofs.Limits.Log
import KroneckerCode.Proofs.Decoder.Elements
import KroneckerCode.Proofs.Integer.Storage
import KroneckerCode.Proofs.Integer.Promotion
