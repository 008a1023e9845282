import Haruspex.SandboxFetch.Proxy

/-! Fetching for the Python sandbox (`sandbox_fetch.rs`): each hop is checked, then sent by a client of
its own. -/
namespace Haruspex.SandboxFetch
open Rust
set_option autoImplicit false

def maxFetchBytes : ℕ := 50 * 1048576

def sandboxFetchTimeout : ℕ := 30

def maxRedirects : ℕ := 5

inductive SandboxNetAccess where
  | internet
  | lan
  | all
  deriving DecidableEq

structure NetPolicy where
  proxy : Option ProxyConfig
  access : SandboxNetAccess

/-! ## Checking where a URL leads -/

def allowed (access : SandboxNetAccess) (ip : IpAddr) : Bool :=
  match access, reach ip with
  | .all, _ => true
  | .lan, .isLocal => false
  | .lan, _ => true
  | .internet, r => r == .isPublic

def refusal (access : SandboxNetAccess) (host : String) : String :=
  let what :=
    match access with
    | .internet => "addresses on this machine or the local network"
    | _ => "addresses on this machine"
  s!"Blocked: {host} is one of the {what}, which the Python sandbox may not reach " ++
    "(Settings → Chat)."

variable {Url Cidr : Type} (lib : Libraries Url Cidr)

/-- What the name service says of a host and a port. -/
abbrev Lookup := String → ℕ → Except String (List SocketAddr)

/-- The address to pin the connection to, if any. -/
def vet (lookupHost : Lookup) (net : NetPolicy) (url : Url) : Except String (Option SocketAddr) :=
  if lib.scheme url ≠ "http" ∧ lib.scheme url ≠ "https" then
    .error s!"Unsupported URL scheme: {lib.scheme url}"
  else
    match lib.hostStr url with
    | none => .error "URL has no host"
    | some hostStr =>
      let host := trimBrackets hostStr
      let port := (lib.portOrKnownDefault url).getD 80
      if net.access = .all then .ok none
      else if namedLocal lib host then .error (refusal net.access host)
      else
        match parseIp host with
        | some ip => if allowed net.access ip then .ok (some ⟨ip, port⟩) else .error (refusal net.access host)
        | none =>
          if routesThroughProxy lib net.proxy url then .ok none
          else
            match lookupHost host port with
            | .error e => .error s!"Could not resolve {host}: {e}"
            | .ok addrs =>
              if addrs.isEmpty || addrs.any (fun addr => !allowed net.access addr.ip) then
                .error (refusal net.access host)
              else .ok addrs.head?

/-! ## Requests and responses -/

structure Request (Url : Type) where
  method : String
  url : Url
  headers : List (String × String)
  body : Option (List UInt8)

structure Response where
  status : ℕ
  /-- The values that are not text are none. -/
  headers : List (String × Option String)
  contentLength : Option ℕ
  chunks : List (Except String (List UInt8))
  url : String

/-- Where a request goes. -/
inductive Route (Url : Type) where
  | proxied (proxy : Url)
  | direct (ip : IpAddr)

/-- What happens on the network at one hop. -/
structure Hop (Url : Type) where
  lookupHost : Lookup
  build : ClientBuilder Url → Except String Unit
  /-- How a client gets to a URL. -/
  route : ClientBuilder Url → Url → Route Url
  send : Request Url → Except String Response

structure SandboxFetchResponse where
  status : ℕ
  headers : List (String × String)
  body : List UInt8
  url : String

/-- A request that was sent, at which hop and by which way. -/
structure Sent (Url : Type) where
  hop : ℕ
  request : Request Url
  route : Route Url

inductive CappedReadError where
  | tooLarge
  | read (text : String)

def readChunks (max : ℕ) (body : List UInt8) :
    List (Except String (List UInt8)) → Except CappedReadError (List UInt8)
  | [] => .ok body
  | .error e :: _ => .error (.read e)
  | .ok chunk :: chunks =>
    if max < body.length + chunk.length then .error .tooLarge
    else readChunks max (body ++ chunk) chunks

def readCapped (response : Response) (max : ℕ) : Except String (List UInt8) :=
  let body :=
    if response.contentLength.any (max < ·) then .error .tooLarge
    else readChunks max [] response.chunks
  match body with
  | .ok body => .ok body
  | .error .tooLarge => .error s!"Response too large; maximum is {max} bytes"
  | .error (.read e) => .error s!"Failed to read response body: {e}"

/-! ## The hops -/

/-- Where a response sends the client on, if it does. -/
def nextTarget (response : Response) (target : Url) : Option Url :=
  if 300 ≤ response.status ∧ response.status < 400 then do
    let location ← (response.headers.find? (fun header => header.1 = "location")).bind Prod.snd
    lib.join target location
  else none

/-- A request that becomes a GET without a body at the next hop. -/
def becomesGet (status : ℕ) (method : String) : Bool :=
  status == 303 || ((status == 301 || status == 302) && method == "POST")

def clientBuilder (pinned : Option SocketAddr) (hostStr : Option String) : ClientBuilder Url :=
  { timeoutSecs := sandboxFetchTimeout
    followRedirects := false
    resolve :=
      match pinned, hostStr with
      | some addr, some host => [(host, addr)]
      | _, _ => []
    proxy := none }

def sandboxResponse (response : Response) : Except String SandboxFetchResponse := do
  let body ← readCapped response maxFetchBytes
  return {
    status := response.status
    headers := response.headers.filterMap (fun header => header.2.map (fun value => (header.1, value)))
    body
    url := response.url }

variable (world : ℕ → Hop Url) (net : NetPolicy) (headers : Option (List (String × String)))

/-- The client of a hop. -/
def clientFor (hop : ℕ) (target : Url) : Except String (ClientBuilder Url) := do
  let pinned ← vet lib (world hop).lookupHost net target
  let client ← applyProxy lib (clientBuilder pinned (lib.hostStr target)) net.proxy
  match (world hop).build client with
  | .error e => .error s!"Failed to build HTTP client: {e}"
  | .ok _ => .ok client

/-- What is sent from some hop on, and what comes of it. -/
def followHops : ℕ → ℕ → String → Url → Option (List UInt8) →
    List (Sent Url) × Except String SandboxFetchResponse
  | 0, _, _, _, _ => ([], .error s!"Too many redirects (more than {maxRedirects})")
  | left + 1, hop, method, target, body =>
    match clientFor lib world net hop target with
    | .error e => ([], .error e)
    | .ok client =>
      let request : Request Url := ⟨method, target, headers.getD [], body⟩
      let sent : Sent Url := ⟨hop, request, (world hop).route client target⟩
      match (world hop).send request with
      | .error e => ([sent], .error s!"HTTP request failed: {e}")
      | .ok response =>
        match nextTarget lib response target with
        | none => ([sent], sandboxResponse response)
        | some next =>
          let drop := becomesGet response.status method
          let later := followHops left (hop + 1) (if drop then "GET" else method) next
            (if drop then none else body)
          (sent :: later.1, later.2)

def performFetch (url methodStr : String) (body : Option (List UInt8)) :
    List (Sent Url) × Except String SandboxFetchResponse :=
  match lib.methodFromBytes (lib.toUppercase methodStr) with
  | .error e => ([], .error s!"Invalid HTTP method '{methodStr}': {e}")
  | .ok method =>
    match lib.parseUrl url with
    | .error e => ([], .error s!"Invalid URL '{url}': {e}")
    | .ok target => followHops lib world net headers (maxRedirects + 1) 0 method target body

end Haruspex.SandboxFetch
