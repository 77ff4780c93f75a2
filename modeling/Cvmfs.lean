import Cvmfs.Client.ChunkedRead
import Cvmfs.Client.Revisions
import Cvmfs.Crypto.HexPtr
import Cvmfs.Crypto.Whitelist
import Cvmfs.Extern.Transport
import Cvmfs.Extern.WholeObjects
import Cvmfs.Fetch.Answers
import Cvmfs.Gateway.Access
import Cvmfs.Gateway.Publication
import Cvmfs.Gateway.Selection
import Cvmfs.Gc.Resume
import Cvmfs.Glue.Lookups
import Cvmfs.Glue.OpenFiles
import Cvmfs.Glue.PageCache
import Cvmfs.Ingestion.CutMarks
import Cvmfs.Ingestion.GcDatabase
import Cvmfs.Ingestion.Registration
import Cvmfs.KvStore.Accounting
import Cvmfs.Network.ProxySelection
import Cvmfs.Network.Retries
import Cvmfs.Nfs4.Compounds
import Cvmfs.Nfs4.Delegations
import Cvmfs.Nfs4.ReadAccess
import Cvmfs.Nfs4.Replay
import Cvmfs.NfsMaps.Leveldb
import Cvmfs.Overlay.Runscript
import Cvmfs.PathFilters.Globbing
import Cvmfs.Quota.Pinning
import Cvmfs.Receiver.PayloadRun
import Cvmfs.Remount.Orderly
import Cvmfs.Replication.History
import Cvmfs.SmallHash.Assignment
import Cvmfs.Upload.Delivery
