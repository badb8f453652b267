import Covenant.Bytes
import Covenant.Chain.Header
import Covenant.Chain.Parameters
import Covenant.Codec
import Covenant.Cursor
import Covenant.Equation
import Covenant.Hash.Blake3
import Covenant.Hash.Duplex
import Covenant.Hash.Keccak
import Covenant.Hash.Sha256
import Covenant.Key
import Covenant.Key.Store
import Covenant.Ledger.Address
import Covenant.Ledger.Balance
import Covenant.Ledger.Envelope
import Covenant.Ledger.Extension
import Covenant.Ledger.Session
import Covenant.Ledger.Transaction
import Covenant.Polynomial
import Covenant.Proof.Leaf
import Covenant.Proof.Listing
import Covenant.Proof.Marks
import Covenant.Proof.Prover
import Covenant.Proof.Tree
import Covenant.Proof.Verifier
import Covenant.Proposition
import Covenant.Range
import Covenant.Reduction.Arithmetic
import Covenant.Reduction.Context
import Covenant.Reduction.Error
import Covenant.Reduction.Evaluation
import Covenant.Reduction.Fields
import Covenant.Reduction.Machine
import Covenant.Reduction.Meter
import Covenant.Reduction.Reduce
import Covenant.Ristretto.Curve
import Covenant.Ristretto.Field
import Covenant.Script.Condition
import Covenant.Script.Decoding
import Covenant.Script.Display
import Covenant.Script.Encoding
import Covenant.Script.Opcode
import Covenant.Script.Value
import Covenant.Script.ValueType
import Covenant.Suite
import Covenant.Suite.Standard
import Covenant.Text.Base58
import Covenant.Text.Document
import Covenant.Text.Document.Lexeme
import Covenant.Text.Hidden
import Covenant.Text.Quoted
import Covenant.Text.Words
import Covenant.Transcript
import Covenant.Proofs.Reduction.Limit
import Covenant.Proofs.Ledger.Accounting
import Covenant.Proofs.Suite.Lawful
import Covenant.Proofs.Protocol.Leaf
import Covenant.Proofs.Protocol.Accepting
import Covenant.Proofs.Suite.Residues
import Covenant.Proofs.Text.Numerals
import Covenant.Proofs.Protocol.Soundness
import Covenant.Proofs.Protocol.Stacks
import Covenant.Proofs.Protocol.Written
import Covenant.Proofs.Protocol.Simulation
import Covenant.Proofs.Protocol.Settling
import Covenant.Proofs.Protocol.RealMoves
import Covenant.Proofs.Protocol.Binding
import Covenant.Proofs.Protocol.Boundary
import Covenant.Proofs.Protocol.Completeness
import Covenant.Proofs.Protocol.Hiding
import Covenant.Proofs.Ledger.Signing
import Covenant.Proofs.Ledger.Carrying
import Covenant.Proofs.Protocol.Folding
import Covenant.Proofs.Reduction.Scripts
import Covenant.Proofs.Protocol.Unbroken
import Covenant.Proofs.Reduction.Provable
import Covenant.Proofs.Script.Versions
import Covenant.Proofs.Reduction.Gating
import Covenant.Proofs.Reduction.Exact
import Covenant.Proofs.Ledger.Revealing
import Covenant.Proofs.Ledger.Addressing
import Covenant.Proofs.Ledger.Balancing
import Covenant.Proofs.Ledger.Conserving
import Covenant.Proofs.Codec.Roundtrip
import Covenant.Proofs.Script.Survival
import Covenant.Proofs.Script.Canonical
import Covenant.Proofs.Ledger.Transport
import Covenant.Proofs.Ledger.Naming
import Covenant.Proofs.Ledger.Orders
import Covenant.Proofs.Reduction.Depth
import Covenant.Proofs.Script.Unread
import Covenant.Proofs.Ledger.Towers
import Covenant.Proofs.Reduction.Growth
import Covenant.Proofs.Key.Lockstep
import Covenant.Proofs.Protocol.Format
import Covenant.Proofs.Reduction.Arities
import Covenant.Proofs.Reduction.Typing
import Covenant.Proofs.Interpolation
import Covenant.Proofs.Protocol.Batching
import Covenant.Proofs.Protocol.Agreement
import Covenant.Proofs.Reduction.Integers
import Covenant.Proofs.Protocol.Meaning
import Covenant.Proofs.Script.Refusing
import Covenant.Proofs.Reduction.Effort
import Covenant.Proofs.Reduction.Accounting
import Covenant.Proofs.Reduction.Mirroring
import Covenant.Proofs.Reduction.Lexical
import Covenant.Proofs.Reduction.Listwise
import Covenant.Proofs.Key.Holding
import Covenant.Proofs.Protocol.Numbering
import Covenant.Proofs.Protocol.Preorder
import Covenant.Proofs.Protocol.Marking
import Covenant.Proofs.Script.Places
import Covenant.Proofs.Protocol.Extraction
