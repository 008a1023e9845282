import Haruspex.Library.Runs
import Haruspex.Owner.Clients
import Mathlib.Data.List.Nodup
import Mathlib.Data.List.Pairwise

/-! Device tokens that change whole or not at all, whatever becomes of the file. -/
namespace Haruspex.Owner
open Rust Runs
set_option autoImplicit false

/-! ## Devices and their tokens -/

/-- A device's id, with its token's hash. -/
abbrev Device := String × String

def devices (clients : List Stored) : List Device := clients.map (fun c => (c.id, c.tokenHash))

def Clients.inFile (s : Clients) : List Device := devices (s.file.elim [] File.clients)

def Clients.inMemory (s : Clients) : List Device := devices s.inner.clients

/-- An owner's devices over any number of processes. -/
structure World where
  clients : Clients
  /-- The token last returned for each device that was not revoked. -/
  current : List (String × String)
  /-- The tokens that were ever made. -/
  drawn : List String

inductive Step where
  | create (name : String) (scopes : List Scope) (env : Env)
  | rotate (id : String) (env : Env)
  | revoke (id : String) (env : Env)
  | authenticate (text : String) (env : Env)
  | flush (env : Env)
  | restart (instant : ℕ)

namespace World

def start : World := ⟨Clients.load none 0, [], []⟩

def made (env : Env) : List String := env.tokenBytes.toList.map token

section

variable (digest : String → List UInt8) (loc : Location)

def create (w : World) (name : String) (scopes : List Scope) (env : Env) : World :=
  match w.clients.create digest loc name scopes env with
  | (.ok (client, token), clients) =>
    ⟨clients, w.current ++ [(client.id, token)], w.drawn ++ made env⟩
  | (.error _, clients) => ⟨clients, w.current, w.drawn ++ made env⟩

def rotate (w : World) (id : String) (env : Env) : World :=
  match w.clients.rotate digest loc id env with
  | (.ok (client, token), clients) =>
    ⟨clients, w.current.map (fun p => if p.1 = client.id then (p.1, token) else p),
      w.drawn ++ made env⟩
  | (.error _, clients) => ⟨clients, w.current, w.drawn ++ made env⟩

def revoke (w : World) (id : String) (env : Env) : World :=
  match w.clients.revoke loc id env with
  | (.ok true, clients) => { w with clients := clients, current := w.current.filter (fun p => p.1 ≠ id) }
  | (_, clients) => { w with clients := clients }

def apply : Step → World → World
  | .create name scopes env, w => w.create digest loc name scopes env
  | .rotate id env, w => w.rotate digest loc id env
  | .revoke id env, w => w.revoke loc id env
  | .authenticate text env, w => { w with clients := (w.clients.authenticate digest loc text env).2 }
  | .flush env, w => { w with clients := w.clients.flush loc env }
  | .restart instant, w => { w with clients := Clients.load w.clients.file instant }

/-- Whether a call returned a value or an error, if it is one that does. -/
def returned (w : World) : Step → Option Bool
  | .create name scopes env => some (w.clients.create digest loc name scopes env).1.isOk
  | .rotate id env => some (w.clients.rotate digest loc id env).1.isOk
  | .revoke id env => some (w.clients.revoke loc id env).1.isOk
  | _ => none

/-! ## What is promised -/

/-- A text's hash is a token's only if it is that token. -/
def NoCollision (drawn : List String) (text : String) : Prop :=
  ∀ t ∈ drawn, Clients.hash digest (trimmed text) = Clients.hash digest t → trimmed text = t

/-- The device that a text would be taken for. -/
def knownAs (clients : List Stored) (text : String) : Option String :=
  ((Clients.matching digest clients text).bind (clients[·]?)).map Stored.id

/-- A text is taken for a device just when it carries that device's last token. -/
def Valid (w : World) (clients : List Stored) : Prop :=
  ∀ text, NoCollision digest w.drawn text →
    ∀ id, knownAs digest clients text = some id ↔ (id, trimmed text) ∈ w.current

/-- A call changes the devices and their tokens whole or not at all, in memory and in the file; and
then the last tokens are the ones that work, in this process and in the next. -/
structure AllOrNothing (w : World) (step : Step) : Prop where
  kept : w.returned digest loc step = some false →
    (w.apply digest loc step).clients.inMemory = w.clients.inMemory ∧
      (w.apply digest loc step).clients.inFile = w.clients.inFile
  saved : w.returned digest loc step = some true →
    (w.apply digest loc step).clients.inFile = (w.apply digest loc step).clients.inMemory
  valid : Valid digest (w.apply digest loc step) (w.apply digest loc step).clients.inner.clients
  validNext : Valid digest (w.apply digest loc step)
    (Clients.load (w.apply digest loc step).clients.file 0).inner.clients

/-- A new token has a hash, and a new device an id, of its own. -/
def Fresh (w : World) : Step → Prop
  | .create _ _ env =>
    (∀ t ∈ made env, Clients.hash digest t ∉ w.drawn.map (Clients.hash digest)) ∧
      ∀ bytes ∈ env.idBytes, hex bytes ∉ w.clients.inner.clients.map Stored.id
  | .rotate _ env => ∀ t ∈ made env, Clients.hash digest t ∉ w.drawn.map (Clients.hash digest)
  | _ => True

instance (w : World) : (step : Step) → Decidable (Fresh digest w step)
  | .create _ _ env => inferInstanceAs (Decidable
      ((∀ t ∈ made env, Clients.hash digest t ∉ w.drawn.map (Clients.hash digest)) ∧
        ∀ bytes ∈ env.idBytes, hex bytes ∉ w.clients.inner.clients.map Stored.id))
  | .rotate _ env => inferInstanceAs (Decidable
      (∀ t ∈ made env, Clients.hash digest t ∉ w.drawn.map (Clients.hash digest)))
  | .revoke _ _ => instDecidableTrue
  | .authenticate _ _ => instDecidableTrue
  | .flush _ => instDecidableTrue
  | .restart _ => instDecidableTrue

/-- The file is written whenever the devices or a token changed. -/
def Written (w : World) : Step → Prop
  | .create name scopes env => Clients.refusal name scopes = none → env.tokenBytes.isSome →
    env.idBytes.isSome → env.disk = .writes
  | .rotate id env => env.tokenBytes.isSome → id ∈ w.clients.inner.clients.map Stored.id →
    env.disk = .writes
  | .revoke id env => id ∈ w.clients.inner.clients.map Stored.id → env.disk = .writes
  | _ => True

instance (w : World) : (step : Step) → Decidable (Written w step)
  | .create name scopes env => inferInstanceAs (Decidable (Clients.refusal name scopes = none →
      env.tokenBytes.isSome → env.idBytes.isSome → env.disk = .writes))
  | .rotate id env => inferInstanceAs (Decidable (env.tokenBytes.isSome →
      id ∈ w.clients.inner.clients.map Stored.id → env.disk = .writes))
  | .revoke id env => inferInstanceAs (Decidable
      (id ∈ w.clients.inner.clients.map Stored.id → env.disk = .writes))
  | .authenticate _ _ => instDecidableTrue
  | .flush _ => instDecidableTrue
  | .restart _ => instDecidableTrue

end

/-! ## Tokens as texts -/

theorem digitChar_plain : ∀ n < 16, isWhitespace (Nat.digitChar n) = false := by decide

theorem hexDigits_plain (b : UInt8) : ∀ c ∈ hexDigits b, isWhitespace c = false := by
  have hbyte := b.toNat_lt
  intro c hc
  simp only [hexDigits, List.mem_cons, List.not_mem_nil, or_false] at hc
  obtain rfl | rfl := hc
  · exact digitChar_plain _ (by omega)
  · exact digitChar_plain _ (by omega)

theorem trim_plain {cs : List Char} (h : ∀ c ∈ cs, isWhitespace c = false) : trim cs = cs := by
  have hstart : cs.dropWhile isWhitespace = cs := by
    cases cs with
    | nil => rfl
    | cons c cs => rw [List.dropWhile_cons_of_neg (by simp [h c List.mem_cons_self])]
  have hend : cs.reverse.dropWhile isWhitespace = cs.reverse := by
    cases hcs : cs.reverse with
    | nil => rfl
    | cons c rest =>
      have hmem : c ∈ cs := List.mem_reverse.mp (hcs ▸ List.mem_cons_self)
      rw [List.dropWhile_cons_of_neg (by simp [h c hmem])]
  rw [trim, hstart, hend, List.reverse_reverse]

theorem token_toList (bytes : List UInt8) :
    (token bytes).toList = "hsx_".toList ++ bytes.flatMap hexDigits := by
  simp [token, tokenPrefix, hex]

/-- A token is presented as it is. -/
theorem trimmed_token (bytes : List UInt8) : trimmed (token bytes) = token bytes := by
  unfold trimmed
  rw [trim_plain, String.ofList_toList]
  intro c hc
  rw [token_toList, List.mem_append, List.mem_flatMap] at hc
  obtain hstart | ⟨b, -, hb⟩ := hc
  · have hplain : "hsx_".toList.all (fun c => !isWhitespace c) = true := by decide
    simpa using List.all_eq_true.mp hplain c hstart
  · exact hexDigits_plain b c hb

theorem stripPrefix_token (bytes : List UInt8) :
    (stripPrefix (token bytes) tokenPrefix).isSome = true := by
  unfold stripPrefix
  rw [if_pos (by rw [token_toList]; exact List.prefix_append _ _)]
  rfl

/-! ## Which device a text is taken for -/

variable {digest : String → List UInt8} {loc : Location}

theorem lastMatch_eq_some {presented : String} {clients : List Stored} {i : ℕ}
    (h : Clients.lastMatch presented clients = some i) :
    ∃ c, clients[i]? = some c ∧ tokenMatches c.tokenHash presented = true := by
  unfold Clients.lastMatch at h
  rw [Option.map_eq_some_iff] at h
  obtain ⟨⟨c, j⟩, hlast, rfl⟩ := h
  have hmem := List.mem_of_getLast? hlast
  rw [List.mem_filter, List.mem_zipIdx_iff_getElem?] at hmem
  exact ⟨c, hmem.1, hmem.2⟩

theorem lastMatch_isSome {presented : String} {clients : List Stored} {c : Stored} (hc : c ∈ clients)
    (hmatches : tokenMatches c.tokenHash presented = true) :
    (Clients.lastMatch presented clients).isSome = true := by
  unfold Clients.lastMatch
  obtain ⟨i, hi⟩ := List.mem_iff_getElem?.mp hc
  rw [Option.isSome_map, Option.isSome_iff_ne_none, Ne, List.getLast?_eq_none_iff]
  refine List.ne_nil_of_mem (a := (c, i)) ?_
  rw [List.mem_filter, List.mem_zipIdx_iff_getElem?]
  exact ⟨hi, hmatches⟩

theorem knownAs_eq_some {clients : List Stored} {text id : String}
    (h : knownAs digest clients text = some id) :
    ∃ c ∈ clients, c.id = id ∧ c.tokenHash = Clients.hash digest (trimmed text) := by
  unfold knownAs Clients.matching at h
  rw [Option.map_eq_some_iff] at h
  obtain ⟨c, hfound, rfl⟩ := h
  split at hfound
  · rw [Option.bind_eq_some_iff] at hfound
    obtain ⟨i, hmatch, hi⟩ := hfound
    obtain ⟨c', hc', hmatches⟩ := lastMatch_eq_some hmatch
    obtain rfl : c' = c := Option.some.inj (hc'.symm.trans hi)
    refine ⟨c', List.mem_of_getElem? hi, rfl, ?_⟩
    simpa [tokenMatches] using (Bool.and_eq_true_iff.mp hmatches).2
  · cases hfound

theorem knownAs_isSome {clients : List Stored} {text : String} {c : Stored} (hc : c ∈ clients)
    (hstart : (stripPrefix (trimmed text) tokenPrefix).isSome = true)
    (hhash : c.tokenHash = Clients.hash digest (trimmed text))
    (hnonempty : Clients.hash digest (trimmed text) ≠ "") :
    ∃ id, knownAs digest clients text = some id := by
  have hmatches : tokenMatches c.tokenHash (Clients.hash digest (trimmed text)) = true := by
    simp [tokenMatches, hhash, hnonempty]
  obtain ⟨i, hi⟩ := Option.isSome_iff_exists.mp (lastMatch_isSome hc hmatches)
  obtain ⟨c', hc', -⟩ := lastMatch_eq_some hi
  refine ⟨c'.id, ?_⟩
  unfold knownAs Clients.matching
  rw [if_pos hstart, hi, Option.bind_some, hc']
  rfl

/-- The device that is named when a text is presented. -/
theorem authenticate_id (s : Clients) (text : String) (env : Env) :
    ((s.authenticate digest loc text env).1.map OwnerClient.id) =
      knownAs digest s.inner.clients text := by
  unfold Clients.authenticate knownAs
  cases Clients.matching digest s.inner.clients text with
  | none => rfl
  | some i =>
    dsimp only
    rw [Option.bind_some, List.getElem?_modify]
    cases s.inner.clients[i]? <;> simp [Stored.shown]

/-! ## Devices as they should be -/

/-- Different devices have different tokens. -/
def Differ (p q : String × String) : Prop := p.1 ≠ q.1 ∧ p.2 ≠ q.2

instance : Std.Symm Differ := ⟨fun _ _ h => ⟨h.1.symm, h.2.symm⟩⟩

structure Settled (digest : String → List UInt8) (w : World) : Prop where
  memory : w.clients.inMemory = w.current.map (fun p => (p.1, Clients.hash digest p.2))
  file : w.clients.inFile = w.clients.inMemory
  apart : w.current.Pairwise Differ
  drawn : ∀ p ∈ w.current, p.2 ∈ w.drawn
  form : ∀ t ∈ w.drawn, ∃ bytes, t = token bytes

theorem start_settled : Settled digest start :=
  ⟨rfl, rfl, List.Pairwise.nil, by simp [start], by simp [start]⟩

theorem hash_ne_empty (hdigest : ∀ t, (digest t).length = 32) (t : String) :
    Clients.hash digest t ≠ "" := by
  intro h
  have hlist : (Clients.hash digest t).toList = [] := by rw [h]; rfl
  unfold Clients.hash hex at hlist
  rw [String.toList_ofList, List.flatMap_eq_nil_iff] at hlist
  cases hbytes : digest t with
  | nil =>
    have := hdigest t
    rw [hbytes] at this
    cases this
  | cons b bytes =>
    have := hlist b (by rw [hbytes]; exact List.mem_cons_self)
    cases this

theorem Settled.valid (hdigest : ∀ t, (digest t).length = 32) {w : World} (h : Settled digest w)
    {clients : List Stored} (hsame : devices clients = w.clients.inMemory) :
    Valid digest w clients := by
  intro text hplain id
  have hcurrent {c : Stored} (hc : c ∈ clients)
      (hhash : c.tokenHash = Clients.hash digest (trimmed text)) :
      (c.id, trimmed text) ∈ w.current := by
    have hmem : (c.id, c.tokenHash) ∈ w.current.map (fun p => (p.1, Clients.hash digest p.2)) := by
      rw [← h.memory, ← hsame]
      exact List.mem_map_of_mem (f := fun c : Stored => (c.id, c.tokenHash)) hc
    obtain ⟨⟨id', t⟩, hp, heq⟩ := List.mem_map.mp hmem
    obtain ⟨rfl, ht⟩ := Prod.mk.inj heq
    have htext := hplain t (h.drawn _ hp) (hhash.symm.trans ht.symm)
    rw [htext]
    exact hp
  constructor
  · intro hknown
    obtain ⟨c, hc, rfl, hhash⟩ := knownAs_eq_some hknown
    exact hcurrent hc hhash
  · intro hp
    obtain ⟨bytes, hbytes⟩ := h.form _ (h.drawn _ hp)
    have hmem : (id, Clients.hash digest (trimmed text)) ∈ devices clients := by
      rw [hsame, h.memory]
      exact List.mem_map_of_mem (f := fun p : String × String => (p.1, Clients.hash digest p.2)) hp
    obtain ⟨c, hc, heq⟩ := List.mem_map.mp hmem
    obtain ⟨hid, hhash⟩ := Prod.mk.inj heq
    have hstart : (stripPrefix (trimmed text) tokenPrefix).isSome = true :=
      (congrArg (fun t => (stripPrefix t tokenPrefix).isSome) hbytes).trans (stripPrefix_token bytes)
    obtain ⟨id', hknown⟩ := knownAs_isSome hc hstart hhash (hash_ne_empty hdigest _)
    obtain ⟨c', hc', rfl, hhash'⟩ := knownAs_eq_some hknown
    -- No two devices have one token.
    have hother := hcurrent hc' hhash'
    have hids : c'.id = id := by
      by_contra hne
      exact (h.apart.forall hother hp (fun heq => hne (Prod.mk.inj heq).1)).2 rfl
    rw [hknown, hids]

/-! ## A change and its save -/

theorem saveWith_cases {A : Type} (s : Clients) (clients : List Stored) (env : Env) (result : A) :
    (env.disk = .writes ∧ ∃ s', s.saveWith loc clients env result = (.ok result, s') ∧
      s'.inMemory = devices clients ∧ s'.inFile = devices clients) ∨
    (env.disk ≠ .writes ∧ ∃ e s', s.saveWith loc clients env result = (.error e, s') ∧
      s'.inMemory = devices clients ∧ s'.inFile = s.inFile) := by
  unfold Clients.saveWith Clients.save
  cases hdisk : env.disk with
  | writes => exact Or.inl ⟨rfl, _, rfl, rfl, rfl⟩
  | writeFails e => exact Or.inr ⟨by simp, _, _, rfl, rfl, rfl⟩
  | renameFails e => exact Or.inr ⟨by simp, _, _, rfl, rfl, rfl⟩

/-- What one call does when all was as it should be: either the file is written if it has to be, and
all is as it should be again; or the save fails, and the devices in memory have changed. -/
def Goes (digest : String → List UInt8) (loc : Location) (w : World) (step : Step) : Prop :=
  (Written w step ∧ Settled digest (w.apply digest loc step) ∧
    (w.returned digest loc step = some false →
      (w.apply digest loc step).clients.inMemory = w.clients.inMemory ∧
        (w.apply digest loc step).clients.inFile = w.clients.inFile)) ∨
  (¬ Written w step ∧ w.returned digest loc step = some false ∧
    (w.apply digest loc step).clients.inMemory ≠ w.clients.inMemory)

theorem Settled.draws {w : World} (h : Settled digest w) (env : Env) :
    Settled digest { w with drawn := w.drawn ++ made env } := by
  refine { h with
    drawn := fun p hp => List.mem_append_left _ (h.drawn p hp)
    form := fun t ht => ?_ }
  cases List.mem_append.mp ht with
  | inl hold => exact h.form t hold
  | inr hnew =>
    obtain ⟨bytes, -, rfl⟩ := List.mem_map.mp hnew
    exact ⟨bytes, rfl⟩

/-- A token that was made before is not a new one. -/
theorem not_mem_of_fresh {w : World} (h : Settled digest w) {t : String}
    (hfresh : Clients.hash digest t ∉ w.drawn.map (Clients.hash digest)) {p : String × String}
    (hp : p ∈ w.current) : Clients.hash digest p.2 ≠ Clients.hash digest t := by
  intro heq
  exact hfresh (heq ▸ List.mem_map_of_mem (h.drawn p hp))

theorem create_goes {w : World} (h : Settled digest w) (name : String) (scopes : List Scope)
    (env : Env) (hfresh : Fresh digest w (.create name scopes env)) :
    Goes digest loc w (.create name scopes env) := by
  have hsame (e : String) (hcall : w.clients.create digest loc name scopes env = (.error e, w.clients))
      (hwritten : Written w (.create name scopes env)) :
      Goes digest loc w (.create name scopes env) := by
    have happly : w.apply digest loc (.create name scopes env) =
        { w with drawn := w.drawn ++ made env } := by
      simp only [apply, create, hcall]
    refine Or.inl ⟨hwritten, ?_, fun _ => ?_⟩
    · rw [happly]
      exact h.draws env
    · rw [happly]
      exact ⟨rfl, rfl⟩
  cases hrefusal : Clients.refusal name scopes with
  | some e =>
    refine hsame e (by simp only [Clients.create, hrefusal]) fun hnone => ?_
    rw [hrefusal] at hnone
    cases hnone
  | none =>
    cases htoken : env.tokenBytes with
    | none =>
      refine hsame Owner.randomFailed (by simp only [Clients.create, hrefusal, htoken]) ?_
      intro _ hsome
      rw [htoken] at hsome
      cases hsome
    | some tokenBytes =>
      cases hid : env.idBytes with
      | none =>
        refine hsame Owner.randomFailed (by simp only [Clients.create, hrefusal, htoken, hid]) ?_
        intro _ _ hsome
        rw [hid] at hsome
        cases hsome
      | some idBytes =>
        have hmade : made env = [token tokenBytes] := by simp [made, htoken]
        have hnew := hfresh.1 (token tokenBytes) (by rw [hmade]; exact List.mem_singleton_self _)
        have hnewId := hfresh.2 idBytes hid
        let stored : Stored := {
          id := hex idBytes
          name := trimmed name
          scopes := Scope.all.filter (· ∈ scopes)
          createdAt := env.nowSecs
          lastSeen := none
          tokenHash := Clients.hash digest (token tokenBytes) }
        have hcall : w.clients.create digest loc name scopes env =
            w.clients.saveWith loc (w.clients.inner.clients ++ [stored]) env
              (stored.shown, token tokenBytes) := by
          simp only [Clients.create, hrefusal, htoken, hid]
          rfl
        have hdevices : devices (w.clients.inner.clients ++ [stored]) = w.clients.inMemory ++
            [(hex idBytes, Clients.hash digest (token tokenBytes))] := by
          simp [devices, Clients.inMemory, stored]
        obtain ⟨hdisk, s', hsave, hmemory, hfile⟩ | ⟨hdisk, e, s', hsave, hmemory, -⟩ :=
          @saveWith_cases loc _ w.clients (w.clients.inner.clients ++ [stored]) env (stored.shown, token tokenBytes)
        · have happly : w.apply digest loc (.create name scopes env) =
              ⟨s', w.current ++ [(hex idBytes, token tokenBytes)], w.drawn ++ made env⟩ := by
            simp only [apply, create, hcall, hsave]
            rfl
          refine Or.inl ⟨fun _ _ _ => hdisk, ?_, fun hreturned => ?_⟩
          · rw [happly]
            have hdraws := h.draws env
            refine ⟨?_, hfile.trans hmemory.symm, ?_, fun p hp => ?_, hdraws.form⟩
            · rw [hmemory, hdevices, h.memory, List.map_append]
              rfl
            · refine List.pairwise_append.mpr ⟨h.apart, List.pairwise_singleton _ _,
                fun p hp q hq => ?_⟩
              rw [List.mem_singleton.mp hq]
              constructor
              · intro heq
                have hids : p.1 ∈ w.clients.inMemory.map Prod.fst := by
                  rw [h.memory, List.map_map]
                  exact List.mem_map_of_mem (f := Prod.fst) hp
                have hsame : p.1 = hex idBytes := heq
                rw [Clients.inMemory, devices, List.map_map, hsame] at hids
                exact hnewId hids
              · intro heq
                exact not_mem_of_fresh h hnew hp (congrArg (Clients.hash digest) heq)
            · cases List.mem_append.mp hp with
              | inl hold => exact hdraws.drawn p hold
              | inr hlast =>
                rw [List.mem_singleton.mp hlast, hmade]
                exact List.mem_append_right _ (List.mem_singleton_self _)
          · simp [returned, hcall, hsave, Except.isOk, Except.toBool] at hreturned
        · refine Or.inr ⟨fun hwritten => ?_, ?_, ?_⟩
          · exact hdisk (hwritten hrefusal (by rw [htoken]; rfl) (by rw [hid]; rfl))
          · simp [returned, hcall, hsave, Except.isOk, Except.toBool]
          · have happly : (w.apply digest loc (.create name scopes env)).clients = s' := by
              simp only [apply, create, hcall, hsave]
            rw [happly, hmemory, hdevices]
            simp

/-- The devices, with a new hash for one of them. -/
theorem devices_rehash (id tokenHash : String) {clients : List Stored}
    (hids : (clients.map Stored.id).Nodup) :
    devices (Clients.rehash id tokenHash clients) =
      (devices clients).map (fun p => if p.1 = id then (p.1, tokenHash) else p) := by
  induction clients with
  | nil => rfl
  | cons c clients ih =>
    rw [List.map_cons, List.nodup_cons] at hids
    have hcons : devices (c :: clients) = (c.id, c.tokenHash) :: devices clients := rfl
    rw [hcons, List.map_cons]
    unfold Clients.rehash
    by_cases hid : c.id = id
    · have hrest : (devices clients).map (fun p => if p.1 = id then (p.1, tokenHash) else p) =
          devices clients := by
        refine (List.map_congr_left (g := fun p => p) fun p hp => ?_).trans (List.map_id _)
        obtain ⟨c', hc', rfl⟩ := List.mem_map.mp hp
        have hother : c'.id ≠ id := fun heq =>
          hids.1 (List.mem_map.mpr ⟨c', hc', heq.trans hid.symm⟩)
        rw [if_neg hother]
      rw [if_pos hid, if_pos hid, hrest]
      rfl
    · rw [if_neg hid, if_neg hid, ← ih hids.2]
      rfl

theorem Settled.ids_nodup {w : World} (h : Settled digest w) :
    (w.clients.inner.clients.map Stored.id).Nodup := by
  have hids : w.clients.inner.clients.map Stored.id = w.current.map Prod.fst := by
    have hmemory := congrArg (List.map Prod.fst) h.memory
    rw [Clients.inMemory, devices, List.map_map, List.map_map] at hmemory
    exact hmemory
  rw [hids, List.Nodup, List.pairwise_map]
  exact h.apart.imp And.left

theorem rotate_goes {w : World} (h : Settled digest w) (id : String) (env : Env)
    (hfresh : Fresh digest w (.rotate id env)) : Goes digest loc w (.rotate id env) := by
  have hsame (e : String) (hcall : w.clients.rotate digest loc id env = (.error e, w.clients))
      (hwritten : Written w (.rotate id env)) : Goes digest loc w (.rotate id env) := by
    have happly : w.apply digest loc (.rotate id env) =
        { w with drawn := w.drawn ++ made env } := by
      simp only [apply, rotate, hcall]
    refine Or.inl ⟨hwritten, ?_, fun _ => ?_⟩
    · rw [happly]
      exact h.draws env
    · rw [happly]
      exact ⟨rfl, rfl⟩
  cases htoken : env.tokenBytes with
  | none =>
    refine hsame Owner.randomFailed (by simp only [Clients.rotate, htoken]) fun hsome => ?_
    rw [htoken] at hsome
    cases hsome
  | some tokenBytes =>
    cases hfound : w.clients.inner.clients.find? (fun c => c.id = id) with
    | none =>
      refine hsame "no such device" (by simp only [Clients.rotate, htoken, hfound]) ?_
      intro _ hmem
      obtain ⟨c, hc, hid⟩ := List.mem_map.mp hmem
      exact absurd (by simpa using hid) (List.find?_eq_none.mp hfound c hc)
    | some c =>
      have hid : c.id = id := by simpa using List.find?_some hfound
      have hmem := List.mem_of_find?_eq_some hfound
      have hmade : made env = [token tokenBytes] := by simp [made, htoken]
      have hnew := hfresh (token tokenBytes) (by rw [hmade]; exact List.mem_singleton_self _)
      generalize hnewHash : Clients.hash digest (token tokenBytes) = newHash
      have hcall : w.clients.rotate digest loc id env =
          w.clients.saveWith loc (Clients.rehash id newHash w.clients.inner.clients) env
            (c.shown, token tokenBytes) := by
        simp only [Clients.rotate, htoken, hfound, hnewHash]
      have hdevices := devices_rehash id newHash h.ids_nodup
      obtain ⟨hdisk, s', hsave, hmemory, hfile⟩ | ⟨hdisk, e, s', hsave, hmemory, -⟩ :=
        @saveWith_cases loc _ w.clients (Clients.rehash id newHash w.clients.inner.clients) env (c.shown, token tokenBytes)
      · have happly : w.apply digest loc (.rotate id env) =
            ⟨s', w.current.map (fun p => if p.1 = id then (p.1, token tokenBytes) else p),
              w.drawn ++ made env⟩ := by
          simp only [apply, rotate, hcall, hsave]
          rw [← hid]
          rfl
        refine Or.inl ⟨fun _ _ => hdisk, ?_, fun hreturned => ?_⟩
        · rw [happly]
          have hdraws := h.draws env
          refine ⟨?_, hfile.trans hmemory.symm, ?_, fun p hp => ?_, hdraws.form⟩
          · rw [hmemory, hdevices]
            show (w.clients.inMemory).map _ = _
            rw [h.memory, List.map_map, List.map_map]
            refine List.map_congr_left fun p _ => ?_
            by_cases hp : p.1 = id <;> simp [hp, hnewHash]
          · rw [List.pairwise_map]
            refine h.apart.imp_of_mem fun {p q} hp hq hapart => ?_
            have hother {r : String × String} (hr : r ∈ w.current) : r.2 ≠ token tokenBytes :=
              fun heq => not_mem_of_fresh h hnew hr (congrArg (Clients.hash digest) heq)
            by_cases hpid : p.1 = id
            · have hqid : ¬ q.1 = id := fun hqid => hapart.1 (hpid.trans hqid.symm)
              rw [if_pos hpid, if_neg hqid]
              exact ⟨hapart.1, (hother hq).symm⟩
            · rw [if_neg hpid]
              split
              · exact ⟨hapart.1, hother hp⟩
              · exact hapart
          · obtain ⟨q, hq, rfl⟩ := List.mem_map.mp hp
            split
            · rw [hmade]
              exact List.mem_append_right _ (List.mem_singleton_self _)
            · exact hdraws.drawn q hq
        · simp [returned, hcall, hsave, Except.isOk, Except.toBool] at hreturned
      · refine Or.inr ⟨fun hwritten => ?_, ?_, ?_⟩
        · exact hdisk (hwritten (by rw [htoken]; rfl) (List.mem_map.mpr ⟨c, hmem, hid⟩))
        · simp [returned, hcall, hsave, Except.isOk, Except.toBool]
        · have happly : (w.apply digest loc (.rotate id env)).clients = s' := by
            simp only [apply, rotate, hcall, hsave]
          rw [happly, hmemory, hdevices]
          intro heq
          -- The new hash would be one of the old ones.
          have hthere : (id, newHash) ∈ w.clients.inMemory := by
            rw [← heq]
            exact List.mem_map.mpr ⟨(c.id, c.tokenHash), List.mem_map_of_mem hmem, by simp [hid]⟩
          rw [h.memory] at hthere
          obtain ⟨p, hp, hpair⟩ := List.mem_map.mp hthere
          exact not_mem_of_fresh h hnew hp ((Prod.mk.inj hpair).2.trans hnewHash.symm)

theorem revoke_goes {w : World} (h : Settled digest w) (id : String) (env : Env) :
    Goes digest loc w (.revoke id env) := by
  have hdevices : devices (w.clients.inner.clients.filter (fun c => c.id ≠ id)) =
      (w.current.filter (fun p => p.1 ≠ id)).map (fun p => (p.1, Clients.hash digest p.2)) := by
    have hmemory := congrArg (List.filter (fun p => p.1 ≠ id)) h.memory
    rw [Clients.inMemory, devices, List.filter_map, List.filter_map] at hmemory
    exact hmemory
  by_cases hmem : id ∈ w.clients.inner.clients.map Stored.id
  · have hlength : (w.clients.inner.clients.filter (fun c => c.id ≠ id)).length ≠
        w.clients.inner.clients.length := by
      obtain ⟨c, hc, hid⟩ := List.mem_map.mp hmem
      intro hall
      have hkept := (List.length_filter_eq_length_iff.mp hall) c hc
      simp [hid] at hkept
    have hcall : w.clients.revoke loc id env =
        w.clients.saveWith loc (w.clients.inner.clients.filter (fun c => c.id ≠ id)) env true := by
      unfold Clients.revoke
      rw [if_pos hlength]
    obtain ⟨hdisk, s', hsave, hmemory, hfile⟩ | ⟨hdisk, e, s', hsave, hmemory, -⟩ :=
      @saveWith_cases loc _ w.clients (w.clients.inner.clients.filter (fun c => c.id ≠ id)) env
        true
    · have happly : w.apply digest loc (.revoke id env) =
          { w with clients := s', current := w.current.filter (fun p => p.1 ≠ id) } := by
        simp only [apply, revoke, hcall, hsave]
      refine Or.inl ⟨fun _ => hdisk, ?_, fun hreturned => ?_⟩
      · rw [happly]
        exact ⟨hmemory.trans hdevices, hfile.trans hmemory.symm, h.apart.filter _,
          fun p hp => h.drawn p (List.mem_of_mem_filter hp), h.form⟩
      · simp only [returned, hcall, hsave, Except.isOk, Except.toBool] at hreturned
        cases hreturned
    · refine Or.inr ⟨fun hwritten => hdisk (hwritten hmem), ?_, ?_⟩
      · simp only [returned, hcall, hsave, Except.isOk, Except.toBool]
      · have happly : (w.apply digest loc (.revoke id env)).clients = s' := by
          simp only [apply, revoke, hcall, hsave]
        rw [happly, hmemory]
        intro heq
        have hlengths := congrArg List.length heq
        rw [Clients.inMemory, devices, devices, List.length_map, List.length_map] at hlengths
        exact hlength hlengths
  · have hlength : (w.clients.inner.clients.filter (fun c => c.id ≠ id)).length =
        w.clients.inner.clients.length := by
      rw [List.length_filter_eq_length_iff]
      intro c hc
      have hne : c.id ≠ id := fun hid => hmem (List.mem_map.mpr ⟨c, hc, hid⟩)
      simpa using hne
    have hcall : w.clients.revoke loc id env = (.ok false, w.clients) := by
      unfold Clients.revoke
      rw [if_neg (not_not_intro hlength)]
    have happly : w.apply digest loc (.revoke id env) = w := by
      simp only [apply, revoke, hcall]
    refine Or.inl ⟨fun hthere => absurd hthere hmem, by rw [happly]; exact h, fun _ => ?_⟩
    rw [happly]
    exact ⟨rfl, rfl⟩

/-! ## Calls that change no device -/

theorem Settled.same {w : World} (h : Settled digest w) {clients : Clients}
    (hmemory : clients.inMemory = w.clients.inMemory)
    (hfile : clients.inFile = w.clients.inFile ∨ clients.inFile = clients.inMemory) :
    Settled digest { w with clients := clients } := by
  refine { h with memory := hmemory.trans h.memory, file := ?_ }
  cases hfile with
  | inl hold => exact hold.trans (h.file.trans hmemory.symm)
  | inr hnew => exact hnew

theorem save_cases (s : Clients) (env : Env) :
    (s.save loc env).2.inMemory = s.inMemory ∧
      ((s.save loc env).2.inFile = s.inFile ∨
        (s.save loc env).2.inFile = (s.save loc env).2.inMemory) := by
  unfold Clients.save
  cases env.disk with
  | writes => exact ⟨rfl, Or.inr rfl⟩
  | writeFails e => exact ⟨rfl, Or.inl rfl⟩
  | renameFails e => exact ⟨rfl, Or.inl rfl⟩

theorem devices_modify (clients : List Stored) (i : ℕ) (seen : Option ℤ) :
    devices (clients.modify i (fun c => { c with lastSeen := seen })) = devices clients := by
  unfold devices
  apply List.ext_getElem?
  intro j
  rw [List.getElem?_map, List.getElem?_modify, List.getElem?_map]
  cases clients[j]? with
  | none => rfl
  | some c => split <;> rfl

theorem authenticate_cases (s : Clients) (text : String) (env : Env) :
    (s.authenticate digest loc text env).2.inMemory = s.inMemory ∧
      ((s.authenticate digest loc text env).2.inFile = s.inFile ∨
        (s.authenticate digest loc text env).2.inFile =
          (s.authenticate digest loc text env).2.inMemory) := by
  unfold Clients.authenticate
  split
  · exact ⟨rfl, Or.inl rfl⟩
  · rename_i i _
    have hseen := devices_modify s.inner.clients i (some env.nowSecs)
    dsimp only
    split
    · obtain ⟨hmemory, hfile⟩ := @save_cases loc { s with inner := { s.inner with
        clients := s.inner.clients.modify i (fun c => { c with lastSeen := some env.nowSecs })
        dirty := true } } env
      exact ⟨hmemory.trans hseen, hfile⟩
    · exact ⟨hseen, Or.inl rfl⟩

theorem flush_cases (s : Clients) (env : Env) :
    (s.flush loc env).inMemory = s.inMemory ∧
      ((s.flush loc env).inFile = s.inFile ∨ (s.flush loc env).inFile = (s.flush loc env).inMemory) := by
  unfold Clients.flush
  split
  · exact save_cases s env
  · exact ⟨rfl, Or.inl rfl⟩

theorem step_goes {w : World} (h : Settled digest w) {step : Step} (hfresh : Fresh digest w step) :
    Goes digest loc w step := by
  cases step with
  | create name scopes env => exact create_goes h name scopes env hfresh
  | rotate id env => exact rotate_goes h id env hfresh
  | revoke id env => exact revoke_goes h id env
  | authenticate text env =>
    obtain ⟨hmemory, hfile⟩ := @authenticate_cases digest loc w.clients text env
    exact Or.inl ⟨trivial, h.same hmemory hfile, fun hreturned => by cases hreturned⟩
  | flush env =>
    obtain ⟨hmemory, hfile⟩ := @flush_cases loc w.clients env
    exact Or.inl ⟨trivial, h.same hmemory hfile, fun hreturned => by cases hreturned⟩
  | restart instant =>
    exact Or.inl ⟨trivial, h.same h.file (Or.inr rfl), fun hreturned => by cases hreturned⟩

/-- One call, when all was as it should be. -/
theorem step_iff (hdigest : ∀ t, (digest t).length = 32) {w : World} (h : Settled digest w)
    {step : Step} (hfresh : Fresh digest w step) :
    AllOrNothing digest loc w step ↔ Written w step := by
  obtain ⟨hwritten, hsettled, hkept⟩ | ⟨hnot, hreturned, hchanged⟩ := @step_goes _ loc _ h _ hfresh
  · exact ⟨fun _ => hwritten, fun _ => ⟨hkept, fun _ => hsettled.file,
      hsettled.valid hdigest rfl, hsettled.valid hdigest hsettled.file⟩⟩
  · exact ⟨fun hall => absurd (hall.kept hreturned).1 hchanged, fun hwritten => absurd hwritten hnot⟩

theorem step_settled {w : World} (h : Settled digest w) {step : Step} (hfresh : Fresh digest w step)
    (hwritten : Written w step) : Settled digest (w.apply digest loc step) := by
  obtain ⟨-, hsettled, -⟩ | ⟨hnot, -, -⟩ := @step_goes _ loc _ h _ hfresh
  · exact hsettled
  · exact absurd hwritten hnot

/-! ## Any number of calls -/

/-- Every call of a run is all or nothing, and the last tokens are the ones that work, just when no
change of the devices meets a file that cannot be written. -/
theorem all_or_nothing_iff (digest : String → List UInt8) (loc : Location)
    (hdigest : ∀ t, (digest t).length = 32) (steps : List Step)
    (hfresh : EveryStep (apply digest loc) start steps (Fresh digest)) :
    EveryStep (apply digest loc) start steps (AllOrNothing digest loc) ↔
      EveryStep (apply digest loc) start steps Written := by
  refine everyStep_iff (Settled digest) (fun w step h hstep => step_iff hdigest h hstep)
    (fun w step h hstep hwritten => step_settled h hstep hwritten) start_settled hfresh

/-! ## A file that cannot be written -/

/-- A digest for short texts. -/
def shortDigest (text : String) : List UInt8 :=
  ((text.toList.map (fun c : Char => UInt8.ofNat c.toNat)) ++ List.replicate 32 0).take 32

def env (tokenByte : UInt8) (disk : Disk) : Env :=
  ⟨some [tokenByte], some [tokenByte], 1700000000, 0, disk⟩

def location : Location := ⟨"owner-clients.json", "owner-clients.json.tmp"⟩

theorem all_or_nothing_iff_written :
    EveryStep (apply shortDigest location) start
      [.create "Phone" [.read] (env 1 .writes), .rotate "01" (env 2 .writes), .restart 0,
        .revoke "01" (env 0 .writes)]
      (AllOrNothing shortDigest location) :=
  (all_or_nothing_iff shortDigest location (by simp [shortDigest]) _ (by decide +kernel)).mpr
    (by decide +kernel)

/-- A device whose removal could not be written is gone until the next start, and then it is back. -/
theorem revoked_half :
    ¬ ∀ (digest : String → List UInt8) (loc : Location), (∀ t, (digest t).length = 32) →
      ∀ steps : List Step, EveryStep (apply digest loc) start steps (Fresh digest) →
        EveryStep (apply digest loc) start steps (AllOrNothing digest loc) := by
  intro h
  have hall := h shortDigest location (by simp [shortDigest])
    [.create "Phone" [.read] (env 1 .writes), .revoke "01" (env 0 (.renameFails "Permission denied"))]
    (by decide +kernel)
  have hrevoked := (hall [.create "Phone" [.read] (env 1 .writes)] _ [] rfl).kept (by decide +kernel)
  exact absurd hrevoked.1 (by decide +kernel)

end World

end Haruspex.Owner
