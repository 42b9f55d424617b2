import BloblyEmb.Boot.Seal
import BloblyEmb.Boot.Pacing
import BloblyEmb.Uds.Bounds
import BloblyEmb.Uds.Access
import BloblyEmb.Fault.Budget
import BloblyEmb.Isotp.Transfer
import BloblyEmb.Doip.Gate
import BloblyEmb.Doip.Stream
import BloblyEmb.Diagroute.Bounded
import BloblyEmb.Diag.Isolation
import BloblyEmb.Diagroute.Grants
import BloblyEmb.Diagroute.Answers
import BloblyEmb.Com.Monitor
import BloblyEmb.Com.Transmit
import BloblyEmb.Com.Order
import BloblyEmb.Wdg.Sentinel
import BloblyEmb.Bulk.Owned
import BloblyEmb.Nm.Cluster
import BloblyEmb.Mailbox.Confirm
import BloblyEmb.Mailbox.Successive
import BloblyEmb.Multicore.Windows
import BloblyEmb.Osal.TripleBuffer
import BloblyEmb.Params.Kept
import BloblyEmb.Xioc.Torn
import BloblyEmb.Xcore.Reboot
import BloblyEmb.E2e.Composed
import BloblyEmb.Secoc.Replay
import BloblyEmb.Dump.Capture
import BloblyEmb.Sysmodel.Recirculate
import BloblyEmb.Diagroute.Refusals
import BloblyEmb.Isotp.FlowControl
import BloblyEmb.Isotp.Timeouts
import BloblyEmb.Fault.Reference
import BloblyEmb.Fault.Aging
import BloblyEmb.Bcrypto.Points
import BloblyEmb.Secoc.Standard
import BloblyEmb.Nvm.Codec
import BloblyEmb.Someip.Connection
import BloblyEmb.Nm.Partial
import BloblyEmb.Com.Loss
import BloblyEmb.Dump.Commands
import BloblyEmb.Lib.Bits
import BloblyEmb.Candb.Signal
import BloblyEmb.Lib.Sha2
import BloblyEmb.Bcrypto.Sha512
import BloblyEmb.Bcrypto.Digest
import BloblyEmb.Bcrypto.Scalar
import BloblyEmb.Lib.Decimal
import BloblyEmb.Candb.Range
import BloblyEmb.Candb.Dbc
import BloblyEmb.Candb.Total
import BloblyEmb.Candb.Comments
import BloblyEmb.Lib.Edwards
import BloblyEmb.Lib.Primality
import BloblyEmb.Bcrypto.Curve
import BloblyEmb.Bcrypto.Signature
import BloblyEmb.Nvm.Numbering
import BloblyEmb.Nvm.Placement
import BloblyEmb.Fault.Index
import BloblyEmb.Sysmodel.Contract
import BloblyEmb.E2e.Resolve
import BloblyEmb.Netcfg.Hosts
import BloblyEmb.Ecumodel.Validate
import BloblyEmb.Bcrypto.Order
import BloblyEmb.Bcrypto.Signing
import BloblyEmb.Boot.Release
import BloblyEmb.Loom.Scheduler
import BloblyEmb.Can.Ring
import BloblyEmb.Nvm.Content
import BloblyEmb.Osal.Seqlock
import BloblyEmb.Ecu.Init
import BloblyEmb.Ecu.Modes
import BloblyEmb.Shell.Session
