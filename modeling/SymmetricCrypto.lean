import SymmetricCrypto.Aead
import SymmetricCrypto.Aes.Cbc
import SymmetricCrypto.Aes.Ctr
import SymmetricCrypto.Argon2.Derivation
import SymmetricCrypto.Bytes.Chunker
import SymmetricCrypto.Bytes.LittleEndian.Range
import SymmetricCrypto.ChaCha.Extended
import SymmetricCrypto.Digest.Sha256
import SymmetricCrypto.Digest.Stretch
import SymmetricCrypto.Error
import SymmetricCrypto.Proofs.ChaCha.Keystream
import SymmetricCrypto.Proofs.SecretStream.Acceptance
import SymmetricCrypto.Random.Generator
import SymmetricCrypto.SecretStream.Chunk
import SymmetricCrypto.Proofs.SecretStream.LockStep
import SymmetricCrypto.Proofs.ChaCha.Extended
import SymmetricCrypto.Proofs.ChaCha.Trace
import SymmetricCrypto.Proofs.SecretStream.Epoch
import SymmetricCrypto.Proofs.Argon2.Addresses
import SymmetricCrypto.Proofs.Argon2.Conformance
import SymmetricCrypto.Proofs.Aead.Acceptance
import SymmetricCrypto.Proofs.Aead.Counters
import SymmetricCrypto.Proofs.Aead.Layouts
import SymmetricCrypto.Proofs.Poly1305.Evaluation
import SymmetricCrypto.Proofs.Argon2.Schedule
import SymmetricCrypto.Proofs.Aes.Protocol
import SymmetricCrypto.Proofs.Aes.Finality
import SymmetricCrypto.Proofs.Aes.BlockConformance
import SymmetricCrypto.Proofs.Bytes.Conservation
import SymmetricCrypto.Proofs.SecretStream.Format
import SymmetricCrypto.Proofs.Argon2.AccessPattern
import SymmetricCrypto.Proofs.Checked
import SymmetricCrypto.Proofs.Digest.Checked
import SymmetricCrypto.Proofs.Argon2.CheckedChoice
import SymmetricCrypto.Proofs.Argon2.CheckedFill
import SymmetricCrypto.Proofs.Argon2.Totality
import SymmetricCrypto.Proofs.Argon2.ReferenceSet
import SymmetricCrypto.Proofs.ChaCha.Standard
import SymmetricCrypto.Proofs.Word
import SymmetricCrypto.Proofs.ChaCha.Conformance
import SymmetricCrypto.Proofs.Aead.Standard
import SymmetricCrypto.Proofs.Aead.Format
import SymmetricCrypto.Proofs.Transcripts
import SymmetricCrypto.Proofs.Poly1305.Prime
import SymmetricCrypto.Proofs.Poly1305.Clamping
import SymmetricCrypto.Proofs.Poly1305.Universality
import SymmetricCrypto.Proofs.Aes.KeystreamBlocks
import SymmetricCrypto.Proofs.Aes.Differences
import SymmetricCrypto.Proofs.Bytes.Refusal
import SymmetricCrypto.Proofs.Bytes.Ledger
import SymmetricCrypto.Proofs.Bytes.Bound
import SymmetricCrypto.Proofs.Argon2.InitialInput
import SymmetricCrypto.Proofs.Random.Law
import SymmetricCrypto.Proofs.Argon2.AddressWords
import SymmetricCrypto.Proofs.Argon2.Coverage
import SymmetricCrypto.Proofs.Poly1305.CheckedArithmetic
import SymmetricCrypto.Proofs.Random.Draws
import SymmetricCrypto.Proofs.Argon2.Writes
import SymmetricCrypto.Proofs.ChaCha.Seeking
import SymmetricCrypto.Proofs.ChaCha.Subkey
import SymmetricCrypto.Proofs.SecretStream.Counter
import SymmetricCrypto.Proofs.Bytes.Overwriting
import SymmetricCrypto.Proofs.Bytes.Digits
