import Cvmfs.Network.Proxies

/-! # The end of a transfer

`VerifyAndFinalize` classifies the result of a transfer and decides whether the same job is
tried again: on the same URL after a pause, without caches, with the next proxy, or with the
next host or metalink server. The counters of a job are unsigned characters, the limits they
are compared with are wider.

What curl, the callbacks, the sink and the random numbers do is part of the outcome of a
transfer, and so is what `SetUrlOptions` finds: which proxy is next, how many there are, and
whether a metalink server is due. Of the chains only the lengths are kept. -/

namespace Cvmfs.Network.Download

inductive Failures where
  | ok
  | localIo
  | badUrl
  | proxyResolve
  | hostResolve
  | hostAfterProxy
  | proxyConnection
  | hostConnection
  | proxyHttp
  | hostHttp
  | badData
  | tooBig
  | other
  | unsupportedProtocol
  | proxyTooSlow
  | hostTooSlow
  | proxyShortTransfer
  | hostShortTransfer
  | canceled
  deriving DecidableEq

def isHostTransferError : Failures → Bool
  | .hostConnection | .hostTooSlow | .hostShortTransfer => true
  | _ => false

def isProxyTransferError : Failures → Bool
  | .proxyConnection | .proxyTooSlow | .proxyShortTransfer => true
  | _ => false

/-- The results of curl that are told apart. -/
inductive CurlCode where
  | ok
  | unsupportedProtocol
  | urlMalformat
  | couldntResolveProxy
  | couldntResolveHost
  | operationTimedout
  | partialFile
  | gotNothing
  | recvError
  | fileCouldntReadFile
  | couldntConnect
  | tooManyRedirects
  | sslCacertBadfile
  | peerFailedVerification
  | abortedByCallback
  | writeError
  | sendError
  | unexpected
  deriving DecidableEq

structure JobInfo where
  probeHosts : Bool := true
  forceNocache : Bool := false
  followRedirects : Bool := false
  /-- `expected_hash()` is set. -/
  expectedHash : Bool := false
  sink : Bool := true
  /-- `IsValidDataTube()` -/
  dataTube : Bool := false
  proxy : Text := []
  link : Text := []
  nocache : Bool := false
  errorCode : Failures := .other
  httpCode : Int := -1
  numUsedProxies : Nat := 0
  numUsedMetalinks : Nat := 0
  numUsedHosts : Nat := 0
  numRetries : Nat := 0
  backoffMs : Nat := 0
  /-- `current_metalink_chain_index() >= 0` -/
  metalink : Bool := false
  deriving DecidableEq

structure Options where
  maxRetries : Nat
  numProxies : Nat
  hostChain : Option Nat
  metalinkChain : Option Nat
  backoffInitMs : Nat := 0
  backoffMaxMs : Nat := 0
  ignoreSignatureFailures : Bool := false
  failoverIndefinitely : Bool := false
  shardingPolicy : Bool := false
  deriving DecidableEq

def JobInfo.setErrorCode (job : JobInfo) (e : Failures) : JobInfo := { job with errorCode := e }

def JobInfo.setNumUsedProxies (job : JobInfo) (n : Nat) : JobInfo :=
  { job with numUsedProxies := n % 256 }

def JobInfo.setNocache (job : JobInfo) : JobInfo := { job with nocache := true }

def JobInfo.setRegularCache (job : JobInfo) : JobInfo := { job with nocache := false }

@[simp] theorem JobInfo.errorCode_setErrorCode (job : JobInfo) (e : Failures) :
    (job.setErrorCode e).errorCode = e := rfl

@[simp] theorem JobInfo.errorCode_setRegularCache (job : JobInfo) :
    job.setRegularCache.errorCode = job.errorCode := rfl

/-! ## Callbacks -/

/-- What the callbacks of curl see during a transfer. -/
inductive Callback where
  /-- a status line -/
  | status (code : Int)
  /-- a length that the sink refuses -/
  | tooBig
  | link (text : Text)
  /-- an error header of a proxy -/
  | proxyError
  /-- data that is not a compressed stream -/
  | corrupt
  | ioError

def JobInfo.onStatus (job : JobInfo) (code : Int) : JobInfo :=
  let job := { job with httpCode := code }
  if code.tdiv 100 = 2 then job
  else if code = 301 ∨ code = 302 ∨ code = 303 ∨ code = 307 then
    if job.followRedirects then job else job.setErrorCode .hostHttp
  else if code.tdiv 100 = 5 ∨ code = 400 ∨ code = 404 then job.setErrorCode .hostHttp
  else if code = 429 then job.setErrorCode .hostConnection
  else job.setErrorCode (if job.proxy = direct then .hostHttp else .proxyHttp)

def JobInfo.callback (job : JobInfo) : Callback → JobInfo
  | .status code => job.onStatus code
  | .tooBig => job.setErrorCode .tooBig
  | .link text =>
    { job with link := if job.link = [] then text else job.link ++ ", ".toList ++ text }
  | .proxyError =>
    if job.errorCode = .hostHttp then job.setErrorCode .proxyHttp else job
  | .corrupt => job.setErrorCode .badData
  | .ioError => job.setErrorCode .localIo

/-! ## Metalinks -/

/-- `find` of a pattern, from a position on. -/
def find (pattern s : Text) (start : Nat) : Option Nat :=
  ((List.range (s.length + 1)).drop start).find? fun i => pattern.isPrefixOf (s.drop i)

/-- `substr`; a negative length reaches to the end. -/
def substr (s : Text) (start stop : Nat) : Text :=
  if stop < start then s.drop start else (s.drop start).take (stop - start)

/-- The host of a link to a duplicate. -/
def linkedHost (link : Text) : Option Text :=
  if find "; rel=duplicate".toList link 0 = none ∧
      find "; rel=\"duplicate\"".toList link 0 = none then none
  else
    match find ['<'] link 0 with
    | none => none
    | some bracket =>
      let start := bracket + 1
      if substr link start (start + 7) ≠ "http://".toList ∧
          substr link start (start + 8) ≠ "https://".toList then none
      else
        match (find ['/'] link (start + 8)).or (find ['>'] link 0) with
        | none => none
        | some stop => some (substr link start stop)

def linkedHosts (link : Text) : List Text := (splitString ',' link).filterMap linkedHost

/-- A list of links becomes the new chain of hosts. -/
def processLink (o : Options) (job : JobInfo) : Options × JobInfo :=
  let hosts := linkedHosts job.link
  if hosts = [] then (o, job)
  else ({ o with hostChain := some hosts.length }, { job with link := [] })

/-! ## Requests -/

/-- What `SetUrlOptions` finds: the proxy for the job, the number of proxies if addresses were
looked up again, and whether the time for a metalink server has come. -/
structure UrlOptions where
  proxy : Text
  numProxies : Option Nat := none
  metalinkDue : Bool := false

def setUrlOptions (u : UrlOptions) (o : Options) (job : JobInfo) : Options × JobInfo :=
  ({ o with numProxies := u.numProxies.getD o.numProxies },
   { job with
     proxy := u.proxy
     metalink := job.metalink || (job.probeHosts && o.metalinkChain.isSome && u.metalinkDue) })

def JobInfo.initializeRequest (job : JobInfo) : JobInfo :=
  { job with
    errorCode := .ok
    httpCode := -1
    numUsedProxies := 1
    numUsedMetalinks := 1
    numUsedHosts := 1
    numRetries := 0
    backoffMs := 0
    nocache := job.forceNocache }

/-! ## Outcomes -/

structure Outcome where
  callbacks : List Callback := []
  curl : CurlCode
  /-- The hash of the data is the expected one. -/
  hashMatches : Bool := true
  /-- `Reset()` of the sink succeeds. -/
  sinkResets : Bool := true
  /-- The interrupt cue of the job is canceled. -/
  canceled : Bool := false
  /-- The reload of the client interrupts an endless failover. -/
  interrupted : Bool := false
  draw : Nat := 0
  url : UrlOptions

def JobInfo.transfer (job : JobInfo) (r : Outcome) : JobInfo :=
  r.callbacks.foldl JobInfo.callback job

/-- Verification and error classification. -/
def classify (o : Options) (r : Outcome) (job : JobInfo) : Failures :=
  let proxied (host proxy : Failures) := if job.proxy = direct then host else proxy
  match r.curl with
  | .ok =>
    if job.expectedHash ∧ r.hashMatches = false ∧ o.ignoreSignatureFailures = false then .badData
    else .ok
  | .unsupportedProtocol => .unsupportedProtocol
  | .urlMalformat => .badUrl
  | .couldntResolveProxy => .proxyResolve
  | .couldntResolveHost => .hostResolve
  | .operationTimedout => proxied .hostTooSlow .proxyTooSlow
  | .partialFile | .gotNothing | .recvError => proxied .hostShortTransfer .proxyShortTransfer
  | .fileCouldntReadFile | .couldntConnect => proxied .hostConnection .proxyConnection
  | .tooManyRedirects | .sslCacertBadfile | .peerFailedVerification => .hostConnection
  -- set by a callback, or by an earlier attempt
  | .abortedByCallback | .writeError => job.errorCode
  | .sendError => proxied .hostShortTransfer .proxyShortTransfer
  | .unexpected => .other

def canRetry (o : Options) (job : JobInfo) : Bool :=
  !job.nocache && decide (job.numRetries < o.maxRetries) &&
    (isProxyTransferError job.errorCode || isHostTransferError job.errorCode)

/-- The chain that a failure counts against, and how much of it is used. -/
def chain (o : Options) (wasMetalink : Bool) : Option Nat :=
  if wasMetalink then o.metalinkChain else o.hostChain

def JobInfo.usedHosts (job : JobInfo) (wasMetalink : Bool) : Nat :=
  if wasMetalink then job.numUsedMetalinks else job.numUsedHosts

def hostsLeft (o : Options) (wasMetalink : Bool) (job : JobInfo) : Bool :=
  job.probeHosts && (chain o wasMetalink).any fun size => job.usedHosts wasMetalink < size

/-- Whether to try again, whether on the same URL, and the job with its final error code. -/
structure Decision where
  tryAgain : Bool
  sameUrlRetry : Bool
  job : JobInfo

def isHostFailure (e : Failures) : Bool :=
  e = .hostResolve || isHostTransferError e || e = .hostHttp

def isProxyFailure (e : Failures) : Bool :=
  e = .proxyResolve || isProxyTransferError e || e = .proxyHttp

/-- All proxies have failed: a next round with the next host, or the end. -/
def proxiesFailed (o : Options) (r : Outcome) (wasMetalink : Bool) (job : JobInfo) : Decision :=
  if hostsLeft o wasMetalink job then
    ⟨true, false, (job.setNumUsedProxies 1).setErrorCode .hostAfterProxy⟩
  else if o.failoverIndefinitely then
    ⟨!r.interrupted, false, job.setNumUsedProxies 1⟩
  else ⟨false, false, job⟩

/-- Corrupted data without caches is a failure of the host. -/
def JobInfo.blameHost (job : JobInfo) : JobInfo :=
  if job.errorCode = .badData ∧ job.nocache = true then job.setErrorCode .hostHttp
  else job

/-- A job that has failed, with `uncached` if it may be tried again without caches. -/
def decideFailed (o : Options) (r : Outcome) (wasMetalink same uncached : Bool) (job : JobInfo) :
    Decision :=
  let again := uncached || same || (isHostFailure job.errorCode && hostsLeft o wasMetalink job)
  if same || isProxyFailure job.errorCode then
    if o.shardingPolicy then ⟨true, false, job⟩
    else if !same && o.numProxies ≤ job.numUsedProxies then proxiesFailed o r wasMetalink job
    else ⟨true, same, job⟩
  else ⟨again, same, job⟩

def decideRetry (o : Options) (r : Outcome) (wasMetalink : Bool) (job : JobInfo) : Decision :=
  let same := canRetry o job
  if job.errorCode = .ok then ⟨false, same, job⟩
  else
    decideFailed o r wasMetalink same (job.errorCode = .badData && !job.nocache) job.blameHost

/-! ## Another attempt -/

/-- The answer for a transfer; `panic` is the abort for an error that is not expected. -/
inductive Verdict where
  | again (o : Options) (job : JobInfo)
  | stop (job : JobInfo)
  | panic

def JobInfo.backoff (job : JobInfo) (o : Options) (draw : Nat) : JobInfo :=
  let ms := if job.backoffMs = 0 then draw % (o.backoffInitMs + 1) else job.backoffMs * 2 % 2 ^ 32
  { job with numRetries := (job.numRetries + 1) % 256, backoffMs := min ms o.backoffMaxMs }

def switchProxy (o : Options) (r : Outcome) (job : JobInfo) : Options × JobInfo :=
  setUrlOptions r.url o (job.setNumUsedProxies (job.numUsedProxies + 1))

def switchHost (o : Options) (r : Outcome) (wasMetalink : Bool) (job : JobInfo) :
    Options × JobInfo :=
  setUrlOptions r.url o
    (if wasMetalink then { job with numUsedMetalinks := (job.numUsedMetalinks + 1) % 256 }
    else { job with numUsedHosts := (job.numUsedHosts + 1) % 256 })

/-- The failure handling without a sharding policy; `none` is the abort. -/
def handleFailure (o : Options) (r : Outcome) (wasMetalink sameUrlRetry : Bool) (job : JobInfo) :
    Option (Options × JobInfo) :=
  let job := job.setRegularCache
  match job.errorCode with
  | .badData => some (o, job.setNocache)
  | .proxyResolve | .proxyHttp => some (switchProxy o r job)
  | .hostResolve | .hostHttp | .hostAfterProxy => some (switchHost o r wasMetalink job)
  | e =>
    if isProxyTransferError e then
      if sameUrlRetry then some (o, job.backoff o r.draw) else some (switchProxy o r job)
    else if isHostTransferError e then
      if sameUrlRetry then some (o, job.backoff o r.draw)
      else some (switchHost o r wasMetalink job)
    else none

def tryAgain (o : Options) (r : Outcome) (wasMetalink : Bool) (d : Decision) : Verdict :=
  -- with a data tube the caller of the download resets the sink
  if !d.job.dataTube && d.job.sink && !r.sinkResets then
    .stop (d.job.setErrorCode .localIo)
  else if r.canceled then .stop (d.job.setErrorCode .canceled)
  else
    let next := if o.shardingPolicy then some (setUrlOptions r.url o d.job)
      else handleFailure o r wasMetalink d.sameUrlRetry d.job
    match next with
    | none => .panic
    | some (o', job) =>
      if o.failoverIndefinitely && r.interrupted then .stop job else .again o' job

/-- The classified job, and whether its failure counts against the metalink servers: it does
where no links came with the answer of the server. -/
def verify (o : Options) (r : Outcome) (job : JobInfo) : Options × JobInfo × Bool :=
  let linked := job.metalink && job.link ≠ []
  let (o, job) := if linked then processLink o job else (o, job)
  (o, job.setErrorCode (classify o r job), job.metalink && !linked)

def verifyAndFinalize (o : Options) (r : Outcome) (job : JobInfo) : Verdict :=
  match verify o r job with
  | (o, job, wasMetalink) =>
    let d := decideRetry o r wasMetalink job
    if d.tryAgain then tryAgain o r wasMetalink d else .stop d.job

def run (outcomes : Nat → Outcome) (o : Options) (job : JobInfo) : Nat → Verdict
  | 0 => .again o job
  | n + 1 =>
    match run outcomes o job n with
    | .again o job => verifyAndFinalize o (outcomes n) (job.transfer (outcomes n))
    | v => v

def start (u : UrlOptions) (o : Options) (job : JobInfo) : Options × JobInfo :=
  setUrlOptions u o job.initializeRequest

end Cvmfs.Network.Download
