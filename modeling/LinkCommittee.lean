import LinkCommittee.Address.AbAddress
import LinkCommittee.Address.Account
import LinkCommittee.Address.Error
import LinkCommittee.Binding
import LinkCommittee.Bytes
import LinkCommittee.Certificate.Confirmation
import LinkCommittee.Certificate.Record
import LinkCommittee.Certificate.Settings
import LinkCommittee.Certificate.Slot
import LinkCommittee.Certificate.Word
import LinkCommittee.Curve.Encoding
import LinkCommittee.Curve.Field
import LinkCommittee.Curve.Hashing
import LinkCommittee.Curve.Multiplication
import LinkCommittee.Curve.Point
import LinkCommittee.Curve.Residue
import LinkCommittee.Digest.Blake3
import LinkCommittee.Digest.Keccak
import LinkCommittee.History.Basic
import LinkCommittee.History.Duration
import LinkCommittee.History.Limits
import LinkCommittee.Json.Codec
import LinkCommittee.Json.Reader
import LinkCommittee.Json.Record
import LinkCommittee.Json.Value
import LinkCommittee.Matching.Basic
import LinkCommittee.Matching.Search
import LinkCommittee.Member
import LinkCommittee.Message.Basic
import LinkCommittee.Message.Error
import LinkCommittee.Message.ScanToken
import LinkCommittee.Message.ShareEntry
import LinkCommittee.Ring.AnonymitySet
import LinkCommittee.Ring.Challenge
import LinkCommittee.Ring.Distinct
import LinkCommittee.Ring.Encoding
import LinkCommittee.Ring.Error
import LinkCommittee.Ring.Scheme
import LinkCommittee.Ring.Signature
import LinkCommittee.Ring.Witness
import LinkCommittee.Share.Basic
import LinkCommittee.Share.Combination
import LinkCommittee.Share.Error
import LinkCommittee.Share.Key
import LinkCommittee.Text.Base64
import LinkCommittee.Text.Basic
import LinkCommittee.Text.Decimal
import LinkCommittee.Text.Fixed
import LinkCommittee.Text.Hex
import LinkCommittee.Transcript.Basic
import LinkCommittee.Transcript.Strobe
import LinkCommittee.Proofs.Curve.Primality
import LinkCommittee.Proofs.Curve.Group
import LinkCommittee.Proofs.Curve.Multiple
import LinkCommittee.Proofs.Curve.Order
import LinkCommittee.Proofs.Bytes
import LinkCommittee.Proofs.Ring.Signing
import LinkCommittee.Proofs.Ring.Completeness
import LinkCommittee.Proofs.Text.Basic
import LinkCommittee.Proofs.Text.Hex
import LinkCommittee.Proofs.Curve.Encoding
import LinkCommittee.Proofs.Curve.Hashing
import LinkCommittee.Proofs.Ring.Encoding
import LinkCommittee.Proofs.Ring.Framing
import LinkCommittee.Proofs.Ring.Validation
import LinkCommittee.Proofs.Ring.Linkability
import LinkCommittee.Proofs.History.Steps
import LinkCommittee.Proofs.Matching.Search
import LinkCommittee.Proofs.Matching.Interleaving
import LinkCommittee.Proofs.Share.Encoding
import LinkCommittee.Proofs.Share.Canonical
import LinkCommittee.Proofs.Address.AbAddress
import LinkCommittee.Proofs.Address.Denotation
import LinkCommittee.Proofs.Address.Derivation
import LinkCommittee.Proofs.Address.Account
import LinkCommittee.Proofs.Share.Combination
import LinkCommittee.Proofs.Share.Interpolation
import LinkCommittee.Proofs.Share.PublicShares
import LinkCommittee.Proofs.Share.KeyText
import LinkCommittee.Proofs.Matching.Completeness
import LinkCommittee.Proofs.Text.Decimal
import LinkCommittee.Proofs.Message.ShareData
import LinkCommittee.Proofs.Message.Decoding
import LinkCommittee.Proofs.Message.RoundTrip
import LinkCommittee.Proofs.Message.ScanToken
import LinkCommittee.Proofs.Message.SharePayload
import LinkCommittee.Proofs.History.Runs
import LinkCommittee.Proofs.History.Representation
import LinkCommittee.Proofs.History.Contents
import LinkCommittee.Proofs.History.Generations
import LinkCommittee.Proofs.History.NoEffect
import LinkCommittee.Proofs.History.Pruning
import LinkCommittee.Proofs.History.Capacity
import LinkCommittee.Proofs.Matching.Decision
import LinkCommittee.Proofs.Matching.Recording
import LinkCommittee.Proofs.Matching.ArrivalOrder
import LinkCommittee.Proofs.Matching.Admission
import LinkCommittee.Proofs.Matching.ShareFaults
import LinkCommittee.Proofs.Matching.SearchOrder
import LinkCommittee.Proofs.Matching.Effort
import LinkCommittee.Proofs.Ring.TamperEvidence
import LinkCommittee.Proofs.Publication
import LinkCommittee.Proofs.Binding
import LinkCommittee.Proofs.Certificate.Word
import LinkCommittee.Proofs.Certificate.Slot
import LinkCommittee.Proofs.Certificate.Confirmation
import LinkCommittee.Proofs.Certificate.Record
import LinkCommittee.Proofs.Certificate.Failure
import LinkCommittee.Proofs.Certificate.ReadTrace
