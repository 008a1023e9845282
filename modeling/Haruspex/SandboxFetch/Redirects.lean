import Haruspex.SandboxFetch.Confined

/-! The requests that a chain of redirects leads to, beside those that browsers send. -/
namespace Haruspex.SandboxFetch
open Rust
set_option autoImplicit false

variable {Url Cidr : Type}

/-! ## The policy of browsers -/

/-- The statuses that are followed. -/
def redirectStatuses : List ℕ := [301, 302, 303, 307, 308]

/-- The headers that say something of a body. -/
def bodyHeaders : List String :=
  ["content-encoding", "content-language", "content-length", "content-location", "content-type"]

/-- The headers that are meant for one site only. -/
def credentialHeaders : List String := ["authorization", "cookie", "proxy-authorization"]

def named (names : List String) (header : String × String) : Bool := names.any (eqIgnoreAsciiCase header.1)

/-- Whether the request goes on as a GET without its body. -/
def dropsBody (status : ℕ) (method : String) : Bool :=
  ((status == 301 || status == 302) && method == "POST") ||
    (status == 303 && method != "GET" && method != "HEAD")

section Policy

variable (lib : Libraries Url Cidr)

/-- To another host or port, or out of an encrypted connection. -/
def leaves (target next : Url) : Bool :=
  lib.hostStr target != lib.hostStr next || lib.portOrKnownDefault target != lib.portOrKnownDefault next ||
    (lib.scheme target == "https" && lib.scheme next == "http")

/-- The request after a redirect. -/
def redirected (status : ℕ) (request : Request Url) (next : Url) : Request Url :=
  let drops := dropsBody status request.method
  let away := leaves lib request.url next
  { method := if drops then "GET" else request.method
    url := next
    headers := request.headers.filter fun header =>
      !(drops && named bodyHeaders header) && !(away && named credentialHeaders header)
    body := if drops then none else request.body }

variable (world : ℕ → Hop Url) (net : NetPolicy)

/-- The requests from one on; each hop is still checked before it is made. -/
def policyHops : ℕ → ℕ → Request Url → List (Request Url)
  | 0, _, _ => []
  | left + 1, hop, request =>
    match clientFor lib world net hop request.url with
    | .error _ => []
    | .ok _ =>
      match (world hop).send request with
      | .error _ => [request]
      | .ok response =>
        match nextTarget lib response request.url with
        | none => [request]
        | some next =>
          if response.status ∈ redirectStatuses then
            request :: policyHops left (hop + 1) (redirected lib response.status request next)
          else [request]

def policyFetch (headers : Option (List (String × String))) (url methodStr : String) (body : Option (List UInt8)) :
    List (Request Url) :=
  match lib.methodFromBytes (lib.toUppercase methodStr) with
  | .error _ => []
  | .ok method =>
    match lib.parseUrl url with
    | .error _ => []
    | .ok target => policyHops lib world net (maxRedirects + 1) 0 ⟨method, target, headers.getD [], body⟩

/-! ## Where both are the same -/

/-- A redirect after which the same request is sent. -/
structure SameNext (status : ℕ) (request : Request Url) (next : Url) : Prop where
  followed : status ∈ redirectStatuses
  head : status = 303 → request.method ≠ "HEAD"
  bare : status = 303 → request.method = "GET" → request.body = none
  /-- No header is left over from a body, and none goes to a site it is not meant for. -/
  headers : ∀ header ∈ request.headers,
    (dropsBody status request.method = true → named bodyHeaders header = false) ∧
      (leaves lib request.url next = true → named credentialHeaders header = false)

/-- Every redirect of a chain is such, if another request is made after it. -/
def SameChain : ℕ → ℕ → Request Url → Prop
  | 0, _, _ => True
  | left + 1, hop, request =>
    ∀ client response next, clientFor lib world net hop request.url = .ok client →
      (world hop).send request = .ok response → nextTarget lib response request.url = some next →
        left ≠ 0 → (∃ client', clientFor lib world net (hop + 1) next = .ok client') →
          SameNext lib response.status request next ∧
            SameChain left (hop + 1) (redirected lib response.status request next)

def SameFetch (headers : Option (List (String × String))) (url methodStr : String) (body : Option (List UInt8)) :
    Prop :=
  ∀ method target, lib.methodFromBytes (lib.toUppercase methodStr) = .ok method → lib.parseUrl url = .ok target →
    SameChain lib world net (maxRedirects + 1) 0 ⟨method, target, headers.getD [], body⟩

end Policy

variable {lib : Libraries Url Cidr} {world : ℕ → Hop Url} {net : NetPolicy}

/-- The request that is sent after a redirect. -/
def resent (status : ℕ) (request : Request Url) (next : Url) : Request Url :=
  { method := if becomesGet status request.method then "GET" else request.method
    url := next
    headers := request.headers
    body := if becomesGet status request.method then none else request.body }

theorem filter_headers_eq {headers : List (String × String)} {drops away : Bool} :
    headers.filter (fun header => !(drops && named bodyHeaders header) && !(away && named credentialHeaders header)) =
        headers ↔
      ∀ header ∈ headers, (drops = true → named bodyHeaders header = false) ∧
        (away = true → named credentialHeaders header = false) := by
  rw [List.filter_eq_self]
  refine forall_congr' fun header => imp_congr_right fun _ => ?_
  cases drops <;> cases away <;> simp

/-- What is sent after a redirect is what browsers send, just in the cases above. -/
theorem resent_eq_iff {status : ℕ} {request : Request Url} {next : Url} (hstatus : status ∈ redirectStatuses) :
    resent status request next = redirected lib status request next ↔ SameNext lib status request next := by
  have hheaders := @filter_headers_eq request.headers (dropsBody status request.method) (leaves lib request.url next)
  have hsame : resent status request next = redirected lib status request next ↔
      ((if becomesGet status request.method then "GET" else request.method) =
          if dropsBody status request.method then "GET" else request.method) ∧
        request.headers = request.headers.filter (fun header =>
          !(dropsBody status request.method && named bodyHeaders header) &&
            !(leaves lib request.url next && named credentialHeaders header)) ∧
        (if becomesGet status request.method then none else request.body) =
          if dropsBody status request.method then none else request.body := by
    simp [resent, redirected]
  have hline : (((if becomesGet status request.method then "GET" else request.method) =
          if dropsBody status request.method then "GET" else request.method) ∧
        (if becomesGet status request.method then none else request.body) =
          if dropsBody status request.method then none else request.body) ↔
      (status = 303 → request.method ≠ "HEAD") ∧ (status = 303 → request.method = "GET" → request.body = none) := by
    by_cases h303 : status = 303
    · subst h303
      by_cases hget : request.method = "GET"
      · simp [becomesGet, dropsBody, hget, eq_comm]
      · by_cases hhead : request.method = "HEAD"
        · simp [becomesGet, dropsBody, hhead]
        · simp [becomesGet, dropsBody, hget, hhead]
    · have hdrops : dropsBody status request.method = becomesGet status request.method := by
        have hno : (status == 303) = false := by simp [h303]
        simp [becomesGet, dropsBody, hno]
      simp [hdrops, h303]
  rw [hsame]
  constructor
  · rintro ⟨hmethod, hkept, hbody⟩
    obtain ⟨hhead, hbare⟩ := hline.mp ⟨hmethod, hbody⟩
    exact ⟨hstatus, hhead, hbare, hheaders.mp hkept.symm⟩
  · intro h
    obtain ⟨hmethod, hbody⟩ := hline.mpr ⟨h.head, h.bare⟩
    exact ⟨hmethod, (hheaders.mpr h.headers).symm, hbody⟩

/-! ## Along a chain -/

theorem followHops_nil {headers : Option (List (String × String))} {left hop : ℕ} {method : String} {target : Url}
    {body : Option (List UInt8)} (h : left = 0 ∨ ∀ client, clientFor lib world net hop target ≠ .ok client) :
    (followHops lib world net headers left hop method target body).1 = [] := by
  cases left with
  | zero => rfl
  | succ left =>
    obtain h | h := h
    · cases h
    · unfold followHops
      cases hclient : clientFor lib world net hop target with
      | error e => rfl
      | ok client => exact absurd hclient (h client)

theorem policyHops_nil {left hop : ℕ} {request : Request Url}
    (h : left = 0 ∨ ∀ client, clientFor lib world net hop request.url ≠ .ok client) :
    policyHops lib world net left hop request = [] := by
  cases left with
  | zero => rfl
  | succ left =>
    obtain h | h := h
    · cases h
    · unfold policyHops
      cases hclient : clientFor lib world net hop request.url with
      | error e => rfl
      | ok client => exact absurd hclient (h client)

theorem followHops_head {headers : Option (List (String × String))} {left hop : ℕ} {method : String} {target : Url}
    {body : Option (List UInt8)} (hleft : left ≠ 0)
    (h : ∃ client, clientFor lib world net hop target = .ok client) :
    ((followHops lib world net headers left hop method target body).1.map Sent.request).head? =
      some ⟨method, target, headers.getD [], body⟩ := by
  obtain ⟨client, hclient⟩ := h
  obtain ⟨left, rfl⟩ := Nat.exists_eq_succ_of_ne_zero hleft
  unfold followHops
  rw [hclient]
  dsimp only
  split
  · rfl
  · split <;> rfl

theorem policyHops_head {left hop : ℕ} {request : Request Url} (hleft : left ≠ 0)
    (h : ∃ client, clientFor lib world net hop request.url = .ok client) :
    (policyHops lib world net left hop request).head? = some request := by
  obtain ⟨client, hclient⟩ := h
  obtain ⟨left, rfl⟩ := Nat.exists_eq_succ_of_ne_zero hleft
  unfold policyHops
  rw [hclient]
  dsimp only
  split
  · rfl
  · split
    · rfl
    · split <;> rfl

/-- What is asked of a chain that goes on. -/
theorem sameChain_iff {left hop : ℕ} {request : Request Url} {client : ClientBuilder Url} {response : Response}
    {next : Url} (hclient : clientFor lib world net hop request.url = .ok client)
    (hsend : (world hop).send request = .ok response) (hnext : nextTarget lib response request.url = some next) :
    SameChain lib world net (left + 1) hop request ↔
      (left ≠ 0 → (∃ client', clientFor lib world net (hop + 1) next = .ok client') →
        SameNext lib response.status request next ∧
          SameChain lib world net left (hop + 1) (redirected lib response.status request next)) := by
  constructor
  · exact fun h hleft hreach => h client response next hclient hsend hnext hleft hreach
  · intro h client' response' next' hclient' hsend' hnext' hleft hreach
    cases hsend.symm.trans hsend'
    cases hnext.symm.trans hnext'
    exact h hleft hreach

/-- A chain that is not gone on with asks nothing. -/
theorem sameChain_stop {left hop : ℕ} {request : Request Url}
    (h : ∀ client response, clientFor lib world net hop request.url = .ok client →
      (world hop).send request = .ok response → nextTarget lib response request.url = none) :
    SameChain lib world net left hop request := by
  cases left with
  | zero => trivial
  | succ left =>
    intro client response next hclient hsend hnext
    rw [h client response hclient hsend] at hnext
    cases hnext

theorem followHops_iff (headers : Option (List (String × String))) (left hop : ℕ) (method : String) (target : Url)
    (body : Option (List UInt8)) :
    (followHops lib world net headers left hop method target body).1.map Sent.request =
        policyHops lib world net left hop ⟨method, target, headers.getD [], body⟩ ↔
      SameChain lib world net left hop ⟨method, target, headers.getD [], body⟩ := by
  induction left generalizing hop method target body with
  | zero => exact ⟨fun _ => trivial, fun _ => rfl⟩
  | succ left ih =>
    generalize hrequest : (⟨method, target, headers.getD [], body⟩ : Request Url) = request
    have hurl : request.url = target := hrequest ▸ rfl
    have hstop := @sameChain_stop _ _ lib world net (left + 1) hop request
    rw [hurl] at hstop
    unfold followHops policyHops
    rw [hrequest, hurl]
    cases hclient : clientFor lib world net hop target with
    | error e =>
      have hsame := hstop fun client response h => by
        rw [hclient] at h
        cases h
      simp [hsame]
    | ok client =>
      dsimp only
      cases hsend : (world hop).send request with
      | error e =>
        have hsame := hstop fun client' response _ h => by
          rw [hsend] at h
          cases h
        simp [hsame]
      | ok response =>
        dsimp only
        cases hnext : nextTarget lib response target with
        | none =>
          have hsame := hstop fun client' response' _ h => by
            cases hsend.symm.trans h
            exact hnext
          simp [hsame]
        | some next =>
          dsimp only
          have hstate : (⟨if becomesGet response.status method then "GET" else method, next, headers.getD [],
              if becomesGet response.status method then none else body⟩ : Request Url) =
                resent response.status request next := by
            rw [← hrequest]
            rfl
          have hlater := ih (hop + 1) (if becomesGet response.status method then "GET" else method) next
            (if becomesGet response.status method then none else body)
          rw [hstate] at hlater
          rw [sameChain_iff (by rw [hurl, hclient]) hsend (by rw [hurl, hnext])]
          by_cases hreach : left ≠ 0 ∧ ∃ client', clientFor lib world net (hop + 1) next = .ok client'
          · have hhead := @followHops_head _ _ lib world net headers left (hop + 1)
              (if becomesGet response.status method then "GET" else method) next
              (if becomesGet response.status method then none else body) hreach.1 hreach.2
            rw [hstate] at hhead
            by_cases hstatus : response.status ∈ redirectStatuses
            · have hhead' := @policyHops_head _ _ lib world net left (hop + 1)
                (redirected lib response.status request next) hreach.1 hreach.2
              rw [if_pos hstatus, List.map_cons, List.cons_inj_right]
              constructor
              · intro heq _ _
                have hsame : resent response.status request next = redirected lib response.status request next := by
                  rw [heq, hhead'] at hhead
                  exact (Option.some.inj hhead).symm
                rw [hsame] at hlater
                exact ⟨(resent_eq_iff hstatus).mp hsame, hlater.mp heq⟩
              · intro h
                obtain ⟨hsame, hchain⟩ := h hreach.1 hreach.2
                rw [(resent_eq_iff hstatus).mpr hsame] at hlater
                exact hlater.mpr hchain
            · -- a status that browsers do not follow
              rw [if_neg hstatus, List.map_cons]
              constructor
              · intro heq
                rw [(List.cons.inj heq).2] at hhead
                cases hhead
              · exact fun h => absurd (h hreach.1 hreach.2).1.followed hstatus
          · have hend : left = 0 ∨ ∀ client', clientFor lib world net (hop + 1) next ≠ .ok client' := by
              by_cases hleft : left = 0
              · exact .inl hleft
              · exact .inr fun client' hc => hreach ⟨hleft, client', hc⟩
            rw [followHops_nil hend,
              @policyHops_nil _ _ lib world net left (hop + 1) (redirected lib response.status request next) hend]
            constructor
            · exact fun _ hleft hclient' => absurd ⟨hleft, hclient'⟩ hreach
            · intro _
              split <;> rfl

/-- The requests of a fetch are those that browsers send, just when every redirect that is followed is one after
which both send the same. -/
theorem performFetch_as_browsers (lib : Libraries Url Cidr) (world : ℕ → Hop Url) (net : NetPolicy)
    (headers : Option (List (String × String))) (url method : String) (body : Option (List UInt8)) :
    (performFetch lib world net headers url method body).1.map Sent.request =
        policyFetch lib world net headers url method body ↔
      SameFetch lib world net headers url method body := by
  unfold performFetch policyFetch SameFetch
  cases hmethod : lib.methodFromBytes (lib.toUppercase method) with
  | error e => simp
  | ok method' =>
    dsimp only
    cases htarget : lib.parseUrl url with
    | error e => simp
    | ok target =>
      dsimp only
      rw [followHops_iff]
      simp

/-- A page that has moved to another host. -/
def movedPage : ℕ → Hop String
  | 0 =>
    { onePage with
      send := fun _ => .ok ⟨302, [("location", some "http://other.example/")], none, [], "http://example.com/"⟩ }
  | _ => onePage

/-- What was meant for the first host goes to the other. -/
theorem performFetch_credentials_moved :
    (performFetch hostPages movedPage ⟨none, .internet⟩ (some [("Authorization", "Bearer abc")])
        "http://example.com/" "GET" none).1.map Sent.request ≠
      policyFetch hostPages movedPage ⟨none, .internet⟩ (some [("Authorization", "Bearer abc")])
        "http://example.com/" "GET" none := by
  intro h
  have hheaders := congrArg (List.map Request.headers) h
  revert hheaders
  decide +kernel

end Haruspex.SandboxFetch
