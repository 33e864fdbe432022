import StarkVerifier.Main
import StarkVerifier.Proofs.Transcript.Binding
import StarkVerifier.Proofs.Verifier.Malleability
import StarkVerifier.Proofs.Verifier.Tables
import StarkVerifier.Proofs.Fibonacci.Completeness
import StarkVerifier.Proofs.Fibonacci.Soundness
import StarkVerifier.Proofs.Fri.Layout
import StarkVerifier.Proofs.Transcript.Challenges
import StarkVerifier.Proofs.Fibonacci.Faults
import StarkVerifier.Proofs.Field.Arithmetic
import StarkVerifier.Proofs.ProofFile.Conversion
import StarkVerifier.Proofs.ProofFile.Canonical
import StarkVerifier.Proofs.Coin.Runs
import StarkVerifier.Proofs.Fri.Interpolation
import StarkVerifier.Proofs.LowDegree
import StarkVerifier.Proofs.Merkle.Opening
import StarkVerifier.Proofs.Fri.Accounting
import StarkVerifier.Proofs.Field.Inverse
import StarkVerifier.Proofs.Coin.Queries
import StarkVerifier.Proofs.Field.BitReversed
import StarkVerifier.Proofs.Parameters.Sizes
import StarkVerifier.Proofs.Periodic
import StarkVerifier.Proofs.Fibonacci.Parameters
import StarkVerifier.Proofs.Fibonacci.PublicInputs
import StarkVerifier.Proofs.Text.Literal
import StarkVerifier.Proofs.Merkle.Indices
import StarkVerifier.Proofs.Coin.Uniform
import StarkVerifier.Proofs.UInt256
import StarkVerifier.Proofs.Field.Reduction
import StarkVerifier.Proofs.ProofOfWork
