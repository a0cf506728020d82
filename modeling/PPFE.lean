import PPFE.Library.Loop
import PPFE.Library.Selection
import PPFE.Library.Hint
import PPFE.Library.Residue
import PPFE.Library.Negacyclic
import PPFE.Library.FloatRounding
import PPFE.Model.Parameters
import PPFE.Model.Cutoff
import PPFE.Model.Prf
import PPFE.Model.Cipher
import PPFE.Model.Server
import PPFE.Model.Client
import PPFE.Model.Offline
import PPFE.Model.Query
import PPFE.Model.Online
import PPFE.Model.Steps
import PPFE.Protocol.HintTable
import PPFE.Protocol.Parity
import PPFE.Protocol.Recovery
import PPFE.Protocol.Instances
import PPFE.Results.Correctness
import PPFE.Results.Agreement
import PPFE.Library.Pad
import PPFE.Results.Balance
import PPFE.Results.Freshness
import PPFE.Results.Masking
import PPFE.Results.Domains
import PPFE.Results.Failures
import PPFE.Results.Locality
import PPFE.Results.Offline
import PPFE.Results.Search
import PPFE.Library.Word
import PPFE.Model.Arithmetic
import PPFE.Results.Arithmetic
import PPFE.Library.Bytes
import PPFE.Library.Process
import PPFE.Library.Parser
import PPFE.Model.Network
import PPFE.Model.BatchQuery
import PPFE.Results.Payload
import PPFE.Model.ServerLoop
import PPFE.Results.Formats
import PPFE.Results.ServerLoop
import PPFE.Library.Duplex
import PPFE.Model.Main
import PPFE.Results.Lockstep
import PPFE.Library.Rejection
import PPFE.Model.Sampling
import PPFE.Results.Sampling
import PPFE.Library.Cursor
import PPFE.Results.Replenishment
import PPFE.Model.Database
import PPFE.Results.Builds
import PPFE.Results.Configuration
import PPFE.Results.Admission
import PPFE.Library.Reduction
import PPFE.Library.NegacyclicProduct
import PPFE.Library.BitReversal
import PPFE.Library.Transform
import PPFE.Troy.Word
import PPFE.Troy.Modulus
import PPFE.Troy.NumberTheory
import PPFE.Troy.Ntt
import PPFE.Troy.Polynomial
import PPFE.Troy.Sampling
import PPFE.Troy.Rlwe
import PPFE.Troy.Evaluator
import PPFE.Troy.RnsTool
import PPFE.Library.Primality
import PPFE.Library.Fallible
import PPFE.Troy.Primes
import PPFE.Troy.Context
import PPFE.Words.Ciphertext
import PPFE.Words.Client
import PPFE.Words.Refinement
import PPFE.Results.Encryption
import PPFE.Results.Words
import PPFE.Results.Reductions
import PPFE.Results.Transforms
import PPFE.Results.Contexts
