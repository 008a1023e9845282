import Haruspex.Rust.Net
import Mathlib.Data.UInt

/-! Where an address leads: this machine, the local network, or the internet (`net_util.rs`). -/
namespace Haruspex.SandboxFetch
open Rust
set_option autoImplicit false

inductive Reach where
  | isLocal
  | lan
  | isPublic
  deriving DecidableEq

def reachV4 (v4 : Ipv4Addr) : Reach :=
  if v4.isLoopback || v4.a == 0 then .isLocal
  else if v4.isPrivate || v4.isLinkLocal || v4.isBroadcast || v4.isMulticast ||
      (v4.a == 100 && 64 ≤ v4.b && v4.b < 128) then .lan
  else .isPublic

def reachV6 (v6 : Ipv6Addr) : Reach :=
  if v6.isLoopback || v6.isUnspecified then .isLocal
  else if v6.s0 &&& 0xfe00 == 0xfc00 || v6.s0 &&& 0xffc0 == 0xfe80 || v6.s0 &&& 0xffc0 == 0xfec0 ||
      v6.isMulticast then .lan
  else .isPublic

/-- The IPv4 address an IPv6 one carries: mapped, compatible, NAT64 or 6to4. -/
def embeddedV4 (v6 : Ipv6Addr) : Option Ipv4Addr :=
  match v6.toIpv4Mapped with
  | some v4 => some v4
  | none =>
    if v6.segments.take 6 = [0, 0, 0, 0, 0, 0] ∧ !v6.isUnspecified ∧ !v6.isLoopback then
      some (.ofSegments v6.s6 v6.s7)
    else if v6.segments.take 6 = [0x64, 0xff9b, 0, 0, 0, 0] then some (.ofSegments v6.s6 v6.s7)
    else if v6.s0 = 0x2002 then some (.ofSegments v6.s1 v6.s2)
    else none

def reach : IpAddr → Reach
  | .v4 v4 => reachV4 v4
  | .v6 v6 =>
    match embeddedV4 v6 with
    | some v4 => reachV4 v4
    | none => reachV6 v6

/-- `str::eq_ignore_ascii_case` -/
def eqIgnoreAsciiCase (a b : String) : Bool := a.toList.map Char.toLower = b.toList.map Char.toLower

/-- `trim_start_matches('[').trim_end_matches(']')` -/
def trimBrackets (host : String) : String :=
  String.ofList
    (((host.toList.dropWhile (· = '[')).reverse.dropWhile (· = ']')).reverse)

/-! ## Addresses that carry an IPv4 address -/

theorem octets_join (a b : UInt8) : octets (a.toUInt16 * 256 + b.toUInt16) = (a, b) := by
  have ha := a.toNat_lt
  have hb := b.toNat_lt
  have hjoined : (a.toUInt16 * 256 + b.toUInt16).toNat = a.toNat * 256 + b.toNat := by
    simp only [UInt16.toNat_add, UInt16.toNat_mul, UInt8.toNat_toUInt16]
    have h256 : (256 : UInt16).toNat = 256 := rfl
    rw [h256]
    omega
  refine Prod.ext (UInt8.toNat_inj.mp ?_) (UInt8.toNat_inj.mp ?_)
  · show ((a.toUInt16 * 256 + b.toUInt16) >>> 8).toUInt8.toNat = a.toNat
    rw [UInt16.toNat_toUInt8, UInt16.toNat_shiftRight, hjoined, Nat.shiftRight_eq_div_pow]
    have h8 : 2 ^ ((8 : UInt16).toNat % 16) = 256 := rfl
    rw [h8]
    omega
  · show (a.toUInt16 * 256 + b.toUInt16).toUInt8.toNat = b.toNat
    rw [UInt16.toNat_toUInt8, hjoined]
    omega

theorem ofSegments_join (a b c d : UInt8) :
    Ipv4Addr.ofSegments (a.toUInt16 * 256 + b.toUInt16) (c.toUInt16 * 256 + d.toUInt16) =
      ⟨a, b, c, d⟩ := by
  rw [Ipv4Addr.ofSegments, octets_join, octets_join]

/-- The address that carries an IPv4 one after `front`. -/
def carrying (front : List UInt16) (v4 : Ipv4Addr) : Option Ipv6Addr :=
  ofGroups (front ++ [v4.a.toUInt16 * 256 + v4.b.toUInt16, v4.c.toUInt16 * 256 + v4.d.toUInt16])

/-- A mapped, compatible or NAT64 address is judged by the IPv4 address it carries. -/
theorem reach_carrying {front : List UInt16} {v4 : Ipv4Addr} {v6 : Ipv6Addr}
    (hfront : front ∈ [[0, 0, 0, 0, 0, 0xffff], [0, 0, 0, 0, 0, 0], [0x64, 0xff9b, 0, 0, 0, 0]])
    (hcarry : carrying front v4 = some v6) : reach (.v6 v6) = reachV4 v4 := by
  obtain ⟨a, b, c, d⟩ := v4
  simp only [List.mem_cons, List.not_mem_nil, or_false] at hfront
  have hjoin := ofSegments_join a b c d
  obtain rfl | rfl | rfl := hfront
  · obtain rfl := Option.some_inj.mp hcarry
    simp [reach, embeddedV4, Ipv6Addr.toIpv4Mapped, Ipv6Addr.segments, hjoin]
  · obtain rfl := Option.some_inj.mp hcarry
    let v6 : Ipv6Addr :=
      ⟨0, 0, 0, 0, 0, 0, a.toUInt16 * 256 + b.toUInt16, c.toUInt16 * 256 + d.toUInt16⟩
    have hmapped : v6.toIpv4Mapped = none := by
      simp [Ipv6Addr.toIpv4Mapped, Ipv6Addr.segments, v6]
    show reach (.v6 v6) = _
    by_cases hspecial : v6.isUnspecified || v6.isLoopback
    · -- `::` and `::1`, which carry addresses that lead here as well.
      simp only [Bool.or_eq_true, Ipv6Addr.isUnspecified, Ipv6Addr.isLoopback, beq_iff_eq] at hspecial
      have hhere : reach (.v6 v6) = .isLocal := by
        obtain h | h := hspecial <;> rw [h] <;> decide
      have hzero : a.toUInt16 * 256 + b.toUInt16 = 0 := by
        obtain h | h := hspecial <;> exact congrArg Ipv6Addr.s6 h
      have hpair : (a, b) = (0, 0) := by rw [← octets_join, hzero]; rfl
      obtain ⟨rfl, rfl⟩ := Prod.mk.inj hpair
      rw [hhere]
      simp [reachV4]
    · rw [Bool.not_eq_true, Bool.or_eq_false_iff] at hspecial
      have hsome : embeddedV4 v6 = some ⟨a, b, c, d⟩ := by
        unfold embeddedV4
        rw [hmapped]
        simp [hspecial.1, hspecial.2, Ipv6Addr.segments, v6, hjoin]
      simp [reach, hsome]
  · obtain rfl := Option.some_inj.mp hcarry
    simp [reach, embeddedV4, Ipv6Addr.toIpv4Mapped, Ipv6Addr.segments, hjoin]

end Haruspex.SandboxFetch

/-! The app's proxy: what is sent through it, and what is sent past it (`proxy/bypass.rs`,
`proxy/config.rs`). -/
namespace Haruspex.SandboxFetch
open Rust
set_option autoImplicit false

/-- What others provide: the URL parser, HTTP methods, network ranges, the secret store, and the letter
cases of Unicode. -/
structure Libraries (Url Cidr : Type) where
  parseUrl : String → Except String Url
  join : Url → String → Option Url
  setPassword : Url → String → Option Url
  scheme : Url → String
  hostStr : Url → Option String
  portOrKnownDefault : Url → Option ℕ
  urlText : Url → String
  urlForLog : String → String
  methodFromBytes : String → Except String String
  parseCidr : String → Option Cidr
  cidrContains : Cidr → IpAddr → Bool
  getBlocking : String → Except String (Option String)
  toLowercase : String → String
  toUppercase : String → String

structure ProxyConfig where
  mode : String
  url : String
  bypass : String
  passwordRef : Option String

inductive BypassEntry (Cidr : Type) where
  | cidr (net : Cidr)
  | ip (addr : IpAddr)
  | host (name : String)

/-- `str::ends_with` -/
def endsWith (text ending : String) : Bool := ending.toList <:+ text.toList

variable {Url Cidr : Type} (lib : Libraries Url Cidr)

/-! ## The Proxy Bypass List -/

def parseBypassEntry (entry : String) : BypassEntry Cidr :=
  match lib.parseCidr entry with
  | some net => .cidr net
  | none =>
    match parseIp entry with
    | some addr => .ip addr
    | none => .host (lib.toLowercase (String.ofList (entry.toList.dropWhile (· = '.'))))

def parseBypassList (raw : String) : List (BypassEntry Cidr) :=
  let parts := raw.toList.splitOnP ([',', ';', '\n', '\r', ' ', '\t'].contains ·)
  ((parts.map trim).filter (· ≠ [])).map (fun entry => parseBypassEntry lib (String.ofList entry))

/-- `localhost`, or a name under it. -/
def namedLocal (host : String) : Bool :=
  eqIgnoreAsciiCase host "localhost" || endsWith (lib.toLowercase host) ".localhost"

def isLoopbackHost (host : String) : Bool :=
  namedLocal lib host || ((parseIp (trimBrackets host)).any IpAddr.isLoopback)

def shouldBypass (target : Url) (entries : List (BypassEntry Cidr)) : Bool :=
  match lib.hostStr target with
  | none => false
  | some host =>
    if isLoopbackHost lib host then true
    else
      match parseIp (trimBrackets host) with
      | some ip => entries.any fun
        | .cidr net => lib.cidrContains net ip
        | .ip addr => addr == ip
        | .host _ => false
      | none => entries.any fun
        | .host name =>
          lib.toLowercase host == name || endsWith (lib.toLowercase host) ("." ++ name)
        | _ => false

/-! ## The proxy of a client -/

structure ClientBuilder (Url : Type) where
  timeoutSecs : ℕ
  followRedirects : Bool
  /-- The names that are not to be resolved, with the addresses to connect to. -/
  resolve : List (String × SocketAddr)
  /-- Asked for each request. -/
  proxy : Option (Url → Option Url)

/-- Where a client sends a request, if not straight to the host. -/
def ClientBuilder.proxyFor {Url : Type} (client : ClientBuilder Url) (target : Url) : Option Url :=
  client.proxy.bind (· target)

inductive ProxyUse where
  | auto
  | never
  | always
  deriving DecidableEq

def missingPassword : String :=
  "The proxy password is missing from Haruspex's secret store — enter it again in " ++
    "Settings → Network."

def effectiveUrl (cfg : ProxyConfig) : Except String String :=
  let url := String.ofList (trim cfg.url.toList)
  match cfg.passwordRef with
  | none => .ok url
  | some key => do
    match ← lib.getBlocking key with
    | none => .error missingPassword
    | some password =>
      match lib.parseUrl url with
      | .error e => .error s!"Invalid proxy URL: {e}"
      | .ok parsed =>
        match lib.setPassword parsed password with
        | none => .error "This proxy URL cannot carry a password"
        | some parsed => .ok (lib.urlText parsed)

/-- The proxy is switched on, and there is one. -/
def ProxyConfig.isManual (cfg : ProxyConfig) : Bool := cfg.mode == "manual" && trim cfg.url.toList ≠ []

def proxyUrl (cfg : ProxyConfig) : Except String Url := do
  let effective ← effectiveUrl lib cfg
  match lib.parseUrl effective with
  | .error e => .error s!"Invalid proxy URL '{lib.urlForLog effective}': {e}"
  | .ok url => .ok url

def isLoopback (target : Url) : Bool := (lib.hostStr target).any (isLoopbackHost lib)

def routesThroughProxy (proxy : Option ProxyConfig) (target : Url) : Bool :=
  match proxy with
  | none => false
  | some cfg =>
    if !cfg.isManual then false
    else !isLoopback lib target && !shouldBypass lib target (parseBypassList lib cfg.bypass)

def applyProxyWith (builder : ClientBuilder Url) (proxy : Option ProxyConfig) (mode : ProxyUse) :
    Except String (ClientBuilder Url) :=
  if mode = .never then .ok builder
  else
    match proxy with
    | none => .ok builder
    | some cfg =>
      if !cfg.isManual then .ok builder
      else do
        let url ← proxyUrl lib cfg
        let bypass := parseBypassList lib cfg.bypass
        let decides := fun target =>
          let bypassed := isLoopback lib target || (mode ≠ .always && shouldBypass lib target bypass)
          if bypassed then none else some url
        return { builder with proxy := some decides }

def applyProxy (builder : ClientBuilder Url) (proxy : Option ProxyConfig) :
    Except String (ClientBuilder Url) :=
  applyProxyWith lib builder proxy .auto

/-! ## Both decisions agree -/

variable {lib}

theorem applyProxy_some {builder client : ClientBuilder Url} {cfg : ProxyConfig}
    (h : applyProxy lib builder (some cfg) = .ok client) (hmanual : cfg.isManual = true) :
    ∃ url, proxyUrl lib cfg = .ok url ∧
      client = { builder with
        proxy := some (fun target =>
          if isLoopback lib target || shouldBypass lib target (parseBypassList lib cfg.bypass) then none
          else some url) } := by
  unfold applyProxy applyProxyWith at h
  rw [if_neg (by decide)] at h
  dsimp only at h
  rw [hmanual] at h
  cases hurl : proxyUrl lib cfg with
  | error e =>
    rw [hurl] at h
    cases h
  | ok url =>
    rw [hurl] at h
    cases h
    exact ⟨url, rfl, rfl⟩

theorem applyProxy_unmanual {builder : ClientBuilder Url} {proxy : Option ProxyConfig}
    (h : ∀ cfg, proxy = some cfg → cfg.isManual = false) :
    applyProxy lib builder proxy = .ok builder := by
  cases proxy with
  | none => rfl
  | some cfg =>
    unfold applyProxy applyProxyWith
    rw [if_neg (by decide)]
    dsimp only
    rw [h cfg rfl]
    rfl

theorem routesThroughProxy_some (cfg : ProxyConfig) (target : Url) :
    routesThroughProxy lib (some cfg) target =
      (cfg.isManual && !(isLoopback lib target ||
        shouldBypass lib target (parseBypassList lib cfg.bypass))) := by
  unfold routesThroughProxy
  dsimp only
  cases cfg.isManual
  · rfl
  · simp

/-- What a client is, once the proxy is applied to its builder. -/
theorem applyProxy_cases {builder client : ClientBuilder Url} {proxy : Option ProxyConfig}
    (h : applyProxy lib builder proxy = .ok client) :
    client = builder ∧ (∀ target, routesThroughProxy lib proxy target = false) ∨
      ∃ cfg url, proxy = some cfg ∧ cfg.isManual = true ∧ proxyUrl lib cfg = .ok url ∧
        client = { builder with
          proxy := some (fun target => if routesThroughProxy lib proxy target then some url else none) } := by
  cases proxy with
  | none =>
    cases h
    exact .inl ⟨rfl, fun _ => rfl⟩
  | some cfg =>
    cases hmanual : cfg.isManual with
    | false =>
      rw [applyProxy_unmanual (fun _ hcfg => Option.some_inj.mp hcfg ▸ hmanual)] at h
      cases h
      refine .inl ⟨rfl, fun target => ?_⟩
      rw [routesThroughProxy_some, hmanual]
      rfl
    | true =>
      obtain ⟨url, hurl, rfl⟩ := applyProxy_some h hmanual
      refine .inr ⟨cfg, url, rfl, hmanual, hurl, ?_⟩
      congr 2
      funext target
      rw [routesThroughProxy_some, hmanual]
      cases isLoopback lib target || shouldBypass lib target (parseBypassList lib cfg.bypass) <;> rfl

/-- A client sends a request through the proxy just when it was said to. -/
theorem proxyFor_isSome {builder client : ClientBuilder Url} {proxy : Option ProxyConfig}
    (hbuilder : builder.proxy = none) (h : applyProxy lib builder proxy = .ok client) (target : Url) :
    (client.proxyFor target).isSome = routesThroughProxy lib proxy target := by
  obtain ⟨rfl, hdirect⟩ | ⟨cfg, url, -, -, -, rfl⟩ := applyProxy_cases h
  · rw [hdirect, ClientBuilder.proxyFor, hbuilder]
    rfl
  · unfold ClientBuilder.proxyFor
    dsimp only [Option.bind_some]
    cases routesThroughProxy lib proxy target <;> rfl

/-- Only the proxy that is set up is used. -/
theorem proxyFor_configured {builder client : ClientBuilder Url} {proxy : Option ProxyConfig}
    (hbuilder : builder.proxy = none) (h : applyProxy lib builder proxy = .ok client) {target url : Url}
    (hurl : client.proxyFor target = some url) :
    ∃ cfg, proxy = some cfg ∧ cfg.isManual = true ∧ proxyUrl lib cfg = .ok url := by
  obtain ⟨rfl, hdirect⟩ | ⟨cfg, url', rfl, hmanual, hurl', rfl⟩ := applyProxy_cases h
  · rw [ClientBuilder.proxyFor, hbuilder] at hurl
    cases hurl
  · refine ⟨cfg, rfl, hmanual, ?_⟩
    unfold ClientBuilder.proxyFor at hurl
    dsimp only [Option.bind_some] at hurl
    split at hurl
    · rw [hurl', Option.some_inj.mp hurl]
    · cases hurl

/-- The names that are not to be resolved stay as they were. -/
theorem applyProxy_resolve {builder client : ClientBuilder Url} {proxy : Option ProxyConfig}
    (h : applyProxy lib builder proxy = .ok client) : client.resolve = builder.resolve := by
  obtain ⟨rfl, -⟩ | ⟨cfg, url, -, -, -, rfl⟩ := applyProxy_cases h <;> rfl

end Haruspex.SandboxFetch
