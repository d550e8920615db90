import PortableTlsRa.InvocationChain
import PortableTlsRa.Binaries
import PortableTlsRa.EvidenceBinding
import PortableTlsRa.HostTpm2
import PortableTlsRa.CertAdmission
import PortableTlsRa.ConfRegistration
import PortableTlsRa.ProcChain
import PortableTlsRa.Grant
import PortableTlsRa.PocClient
import PortableTlsRa.PicaSgx
import PortableTlsRa.SgxTpm2Evidence
import PortableTlsRa.QuoteOcall
import PortableTlsRa.Framing
import PortableTlsRa.ProcWalk
import PortableTlsRa.SgxOnlyEvidence
import PortableTlsRa.EvidenceBuffers
import PortableTlsRa.PolicyDocument
import PortableTlsRa.PolicyWellFormed
import PortableTlsRa.PolicyMeaning
import PortableTlsRa.PolicyOrder
import PortableTlsRa.DigestCache
import PortableTlsRa.Freshness
import PortableTlsRa.DaemonReply
import PortableTlsRa.LibraryOrder
import PortableTlsRa.InvchainVersions
import PortableTlsRa.UidList
import PortableTlsRa.EvidenceLog
import PortableTlsRa.KeySelection
import PortableTlsRa.MalformedChain
import PortableTlsRa.ConfWellFormed
import PortableTlsRa.SealedConf
import PortableTlsRa.ConfAppend
import PortableTlsRa.HashMemory
import PortableTlsRa.CacheMemory
import PortableTlsRa.CacheRuns
import PortableTlsRa.MapsText
import PortableTlsRa.LibraryList
import PortableTlsRa.Lib.Transfer
import PortableTlsRa.SocketResults
import PortableTlsRa.DaemonNonce
import PortableTlsRa.MeasureRequest
import PortableTlsRa.QuoteFetch
import PortableTlsRa.Tpm2Claims
import PortableTlsRa.CertificateEvidence
import PortableTlsRa.ExtensionOrder
import PortableTlsRa.KeyAgreement
import PortableTlsRa.Lib.Bitmap
import PortableTlsRa.PcrSelection
import PortableTlsRa.Lib.Correspondence
import PortableTlsRa.Handshake
import PortableTlsRa.DaemonService
import PortableTlsRa.MeasureExchange
import PortableTlsRa.Lib.Simulation
import PortableTlsRa.Registry
import PortableTlsRa.RegistryRuns
import PortableTlsRa.QuoteExchange
import PortableTlsRa.AttestedHandshake
import PortableTlsRa.SealedRegistry
import PortableTlsRa.StatusText
import PortableTlsRa.PolicyLanguage
import PortableTlsRa.DaemonLife
import PortableTlsRa.TwoClients
