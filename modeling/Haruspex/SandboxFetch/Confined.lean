import Haruspex.SandboxFetch.Fetch

/-! The sandbox only reaches what its access level allows. -/
namespace Haruspex.SandboxFetch
open Rust
set_option autoImplicit false

variable {Url Cidr : Type}

/-! ## What is promised -/

/-- How the clients get to a URL: by the proxy they are given, or to the address a name is pinned to. -/
structure Routes (lib : Libraries Url Cidr) (world : ℕ → Hop Url) : Prop where
  proxied : ∀ hop client target proxy, client.proxyFor target = some proxy →
    (world hop).route client target = .proxied proxy
  pinned : ∀ hop client target host addr, client.proxyFor target = none →
    lib.hostStr target = some host → client.resolve = [(host, addr)] →
    (world hop).route client target = .direct addr.ip

/-- The proxy that is set up, or an address that was checked for this hop, and allowed. -/
def GoesWhereAllowed (lib : Libraries Url Cidr) (world : ℕ → Hop Url) (net : NetPolicy)
    (sent : Sent Url) : Prop :=
  (∃ cfg proxy, net.proxy = some cfg ∧ cfg.isManual = true ∧ proxyUrl lib cfg = .ok proxy ∧
    sent.route = .proxied proxy) ∨
  ∃ addr, vet lib (world sent.hop).lookupHost net sent.request.url = .ok (some addr) ∧
    allowed net.access addr.ip = true ∧ sent.route = .direct addr.ip

/-- The host is an address, or a name of this machine. -/
def IsLiteral (lib : Libraries Url Cidr) (target : Url) : Prop :=
  ∃ host, lib.hostStr target = some host ∧
    (namedLocal lib (trimBrackets host) = true ∨ (parseIp (trimBrackets host)).isSome)

structure Confined (lib : Libraries Url Cidr) (world : ℕ → Hop Url) (net : NetPolicy)
    (sent : List (Sent Url)) : Prop where
  allowed : ∀ request ∈ sent, GoesWhereAllowed lib world net request
  few : sent.length ≤ maxRedirects + 1
  /-- With or without a proxy, whatever the name service says. -/
  sameRule : ∀ (lookup lookup' : Lookup) (proxy : Option ProxyConfig) (target : Url),
    IsLiteral lib target → vet lib lookup net target = vet lib lookup' { net with proxy } target
  /-- What is left to the proxy goes through the proxy. -/
  agreed : ∀ (builder client : ClientBuilder Url), builder.proxy = none →
    applyProxy lib builder net.proxy = .ok client → ∀ (lookup : Lookup) (target : Url),
    (client.proxyFor target).isSome = routesThroughProxy lib net.proxy target ∧
      (vet lib lookup net target = .ok none → (client.proxyFor target).isSome)

variable {lib : Libraries Url Cidr} {world : ℕ → Hop Url} {net : NetPolicy} {lookup : Lookup}

/-! ## What the check says -/

/-- What a URL that passes the check is: an address, or left to the proxy, or a name whose addresses are
all allowed. -/
theorem vet_cases (haccess : net.access ≠ .all) {target : Url} {pinned : Option SocketAddr}
    (h : vet lib lookup net target = .ok pinned) :
    (pinned = none ∧ routesThroughProxy lib net.proxy target = true) ∨
      ∃ host addr, lib.hostStr target = some host ∧ pinned = some addr ∧
        allowed net.access addr.ip = true := by
  unfold vet at h
  split at h
  · cases h
  · cases hhost : lib.hostStr target with
    | none =>
      rw [hhost] at h
      cases h
    | some host =>
      rw [hhost] at h
      dsimp only at h
      split at h
      · cases h
      · split at h
        · rename_i ip hip
          split at h
          · rename_i hallowed
            cases h
            exact .inr ⟨host, _, rfl, rfl, hallowed⟩
          · cases h
        · split at h
          · rename_i hproxied
            cases h
            exact .inl ⟨rfl, hproxied⟩
          · split at h
            · cases h
            · rename_i addrs haddrs
              split at h
              · cases h
              · rename_i hall
                cases addrs with
                | nil => exact absurd rfl hall
                | cons addr addrs =>
                  cases h
                  refine .inr ⟨host, addr, rfl, rfl, ?_⟩
                  simp only [List.isEmpty_cons, List.any_cons, Bool.false_or, Bool.or_eq_true,
                    not_or] at hall
                  simpa using hall.1

/-- The check of an address, or of a name of this machine, asks neither the proxy nor the name service. -/
theorem vet_literal {target : Url} (hliteral : IsLiteral lib target) (lookup' : Lookup)
    (proxy : Option ProxyConfig) :
    vet lib lookup net target = vet lib lookup' { net with proxy } target := by
  obtain ⟨host, hhost, hliteral⟩ := hliteral
  unfold vet
  rw [hhost]
  dsimp only
  obtain hnamed | hip := hliteral
  · simp only [hnamed, if_true]
  · obtain ⟨ip, hip⟩ := Option.isSome_iff_exists.mp hip
    rw [hip]

/-! ## One hop -/

theorem clientFor_cases {hop : ℕ} {target : Url} {client : ClientBuilder Url}
    (h : clientFor lib world net hop target = .ok client) :
    ∃ pinned, vet lib (world hop).lookupHost net target = .ok pinned ∧
      applyProxy lib (clientBuilder pinned (lib.hostStr target)) net.proxy = .ok client := by
  unfold clientFor at h
  cases hvet : vet lib (world hop).lookupHost net target with
  | error e =>
    rw [hvet] at h
    cases h
  | ok pinned =>
    rw [hvet] at h
    cases hclient : applyProxy lib (clientBuilder pinned (lib.hostStr target)) net.proxy with
    | error e =>
      simp only [bind, Except.bind, hclient] at h
      cases h
    | ok client' =>
      simp only [bind, Except.bind, hclient] at h
      split at h
      · cases h
      · cases h
        exact ⟨pinned, rfl, hclient⟩

/-- Where the request of a hop goes. -/
theorem sent_allowed (hroutes : Routes lib world) (haccess : net.access ≠ .all) {hop : ℕ}
    {request : Request Url} {client : ClientBuilder Url}
    (h : clientFor lib world net hop request.url = .ok client) :
    GoesWhereAllowed lib world net ⟨hop, request, (world hop).route client request.url⟩ := by
  obtain ⟨pinned, hvet, hclient⟩ := clientFor_cases h
  cases hproxy : client.proxyFor request.url with
  | some proxy =>
    obtain ⟨cfg, hcfg, hmanual, hurl⟩ := proxyFor_configured rfl hclient hproxy
    exact .inl ⟨cfg, proxy, hcfg, hmanual, hurl, hroutes.proxied hop client request.url proxy hproxy⟩
  | none =>
    obtain ⟨rfl, hproxied⟩ | ⟨host, addr, hhost, rfl, hallowed⟩ := vet_cases haccess hvet
    · have hsome := proxyFor_isSome rfl hclient request.url
      rw [hproxy, hproxied] at hsome
      cases hsome
    · refine .inr ⟨addr, hvet, hallowed, ?_⟩
      have hresolve : client.resolve = [(host, addr)] := by
        rw [applyProxy_resolve hclient, hhost]
        rfl
      exact hroutes.pinned hop client request.url host addr hproxy hhost hresolve

/-! ## All hops -/

theorem followHops_allowed (hroutes : Routes lib world) (haccess : net.access ≠ .all)
    (headers : Option (List (String × String))) (left hop : ℕ) (method : String) (target : Url)
    (body : Option (List UInt8)) :
    (∀ request ∈ (followHops lib world net headers left hop method target body).1,
        GoesWhereAllowed lib world net request) ∧
      (followHops lib world net headers left hop method target body).1.length ≤ left := by
  induction left generalizing hop method target body with
  | zero => exact ⟨fun _ => (nomatch ·), Nat.le_refl _⟩
  | succ left ih =>
    unfold followHops
    split
    · exact ⟨fun _ => (nomatch ·), Nat.zero_le _⟩
    · rename_i client hclient
      have hfirst : GoesWhereAllowed lib world net
          ⟨hop, ⟨method, target, headers.getD [], body⟩, (world hop).route client target⟩ :=
        sent_allowed hroutes haccess hclient
      dsimp only
      split
      · exact ⟨fun _ hmem => List.mem_singleton.mp hmem ▸ hfirst, by simp⟩
      · split
        · exact ⟨fun _ hmem => List.mem_singleton.mp hmem ▸ hfirst, by simp⟩
        · rename_i next _
          obtain ⟨hlater, hlength⟩ := ih (hop + 1) _ next _
          refine ⟨fun request hmem => ?_, Nat.succ_le_succ hlength⟩
          cases List.mem_cons.mp hmem with
          | inl hhere => exact hhere ▸ hfirst
          | inr hthere => exact hlater request hthere

/-- Whatever is asked for, and whatever the servers and the name service say, each request goes through
the proxy or to an address that was checked for it. -/
theorem performFetch_confined (hroutes : Routes lib world) (haccess : net.access ≠ .all)
    (url method : String) (headers : Option (List (String × String))) (body : Option (List UInt8)) :
    Confined lib world net (performFetch lib world net headers url method body).1 := by
  refine ⟨?_, ?_, fun lookup lookup' proxy target h => vet_literal h lookup' proxy, ?_⟩
  · unfold performFetch
    split
    · exact fun _ => (nomatch ·)
    · split
      · exact fun _ => (nomatch ·)
      · exact (followHops_allowed hroutes haccess headers _ _ _ _ _).1
  · unfold performFetch
    split
    · exact Nat.zero_le _
    · split
      · exact Nat.zero_le _
      · exact (followHops_allowed hroutes haccess headers _ _ _ _ _).2
  · intro builder client hbuilder hclient lookup target
    have hagree := proxyFor_isSome hbuilder hclient target
    refine ⟨hagree, fun hvet => ?_⟩
    obtain ⟨-, hproxied⟩ | ⟨_, _, _, hsome, _⟩ := vet_cases haccess hvet
    · rw [hagree, hproxied]
    · cases hsome

/-! ## One page -/

/-- URLs of pages of a host, each as its host. -/
def hostPages : Libraries String Unit where
  parseUrl text :=
    match stripPrefix text "http://" with
    | some rest => .ok (String.ofList (rest.toList.takeWhile (· ≠ '/')))
    | none => .error "relative URL without a base"
  join _ location :=
    (stripPrefix location "http://").map (fun rest => String.ofList (rest.toList.takeWhile (· ≠ '/')))
  setPassword _ _ := none
  scheme _ := "http"
  hostStr host := some host
  portOrKnownDefault _ := some 80
  urlText host := "http://" ++ host ++ "/"
  urlForLog text := text
  methodFromBytes := .ok
  parseCidr _ := none
  cidrContains _ _ := false
  getBlocking _ := .ok none
  toLowercase := String.toLower
  toUppercase := String.toUpper

def onePage : Hop String where
  lookupHost _ port := .ok [⟨.v4 ⟨93, 184, 216, 34⟩, port⟩]
  build _ := .ok ()
  route client target :=
    match client.proxyFor target, client.resolve with
    | some proxy, _ => .proxied proxy
    | none, (_, addr) :: _ => .direct addr.ip
    | none, [] => .direct (.v4 ⟨93, 184, 216, 34⟩)
  send _ := .ok ⟨200, [], some 2, [.ok [111, 107]], "http://example.com/"⟩

theorem onePage_routes : Routes hostPages (fun _ => onePage) where
  proxied hop client target proxy h := by
    simp only [onePage]
    rw [h]
  pinned hop client target host addr h _ hresolve := by
    simp only [onePage]
    rw [h, hresolve]

theorem performFetch_confined_onePage :
    (performFetch hostPages (fun _ => onePage) ⟨none, .lan⟩ none "http://example.com/" "GET" none).1 ≠ [] ∧
      Confined hostPages (fun _ => onePage) ⟨none, .lan⟩
        (performFetch hostPages (fun _ => onePage) ⟨none, .lan⟩ none "http://example.com/" "GET" none).1 := by
  refine ⟨?_, performFetch_confined onePage_routes (by decide) "http://example.com/" "GET" none none⟩
  rw [← List.isEmpty_eq_false_iff]
  decide +kernel

end Haruspex.SandboxFetch
