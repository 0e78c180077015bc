import EnclaveOs.Merkle.Encodings
import EnclaveOs.Queue.Hostile
import EnclaveOs.Queue.Refine
import EnclaveOs.Kv.Sealed
import EnclaveOs.Vault.OwnerIndex
import EnclaveOs.Merkle.Attest
import EnclaveOs.Merkle.Leftover
import EnclaveOs.Vault.Clock
import EnclaveOs.Session.EncAuth
import EnclaveOs.Ratls.CertStore
import EnclaveOs.Rpc.Polled
import EnclaveOs.Http.Response
import EnclaveOs.Merkle.Descent
import EnclaveOs.Merkle.Fork
import EnclaveOs.Session.Replay
import EnclaveOs.Wasm.OneKek
import EnclaveOs.Vault.StepUp
import EnclaveOs.Wasm.DataKey
import EnclaveOs.Host.Storage
import EnclaveOs.Host.Ciphertext
import EnclaveOs.Fido2.Credentials
import EnclaveOs.Egress.Pinned
import EnclaveOs.Egress.Truncation
import EnclaveOs.Egress.QuoteTime
import EnclaveOs.Wasm.Annotated
import EnclaveOs.Wasi.Files
import EnclaveOs.Wasi.Streams
import EnclaveOs.Wasm.Exports
import EnclaveOs.Wasm.Reentry
import EnclaveOs.Vault.Promotion
import EnclaveOs.Wasm.Commands
import EnclaveOs.Rpc.GetBatch
import EnclaveOs.Rpc.Kv
import EnclaveOs.Egress.ReportData
import EnclaveOs.Egress.Hex
import EnclaveOs.Oidc.Jwks
