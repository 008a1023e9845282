import Haruspex.Shell.Expansion

/-! Which calls of a port the search for them comes upon. -/
namespace Haruspex.Shell
open JavaScript (isBlank)
set_option autoImplicit false

/-! ## Where the search for ports looks -/

def hosts : List (List Char) := [localhost, loopbackAddress, anyAddress, loopbackAddress6]

/-- One of the addresses, in any case. -/
def IsHost (host : List Char) : Prop := host.map Char.toLower ∈ hosts

/-- What stands between an address and its port. -/
def IsSep (sep : List Char) : Prop := sep = [':'] ∨ (sep ≠ [] ∧ ∀ c ∈ sep, isBlank c = true)

/-- An address in front of this one takes its number for a port. -/
def Swallowed (before host : List Char) : Prop :=
  host = loopbackAddress ∧ ∃ front host' sep, before = front ++ host' ++ sep ∧ IsHost host' ∧ IsSep sep

theorem afterLetters_some {fold : Char → Char} {word text rest : List Char} (h : afterLetters fold word text = some rest) :
    ∃ front, text = front ++ rest ∧ front.map fold = word := by
  unfold afterLetters at h
  split at h
  · rename_i heq
    cases h
    exact ⟨text.take word.length, (List.take_append_drop _ _).symm, heq⟩
  · cases h

theorem afterLetters_front {fold : Char → Char} {word front : List Char} (h : front.map fold = word) (rest : List Char) :
    afterLetters fold word (front ++ rest) = some rest := by
  have hlen : word.length = front.length := by rw [← h, List.length_map]
  rw [afterLetters, hlen, List.take_left, List.drop_left, if_pos h]

theorem loopbackHost_some {wordBefore : Bool} {text rest : List Char} (h : loopbackHost wordBefore text = some rest) :
    ∃ host, text = host ++ rest ∧ IsHost host ∧ (wordBefore = true → host = loopbackAddress6) := by
  have hid : ∀ {word : List Char}, word ∈ hosts → word.map Char.toLower = word →
      afterLetters id word text = some rest → ∃ host, text = host ++ rest ∧ IsHost host ∧ host = word := by
    intro word hword hlower h
    obtain ⟨front, htext, hfront⟩ := afterLetters_some h
    rw [List.map_id] at hfront
    refine ⟨front, htext, ?_, hfront⟩
    rw [IsHost, hfront, hlower]
    exact hword
  unfold loopbackHost at h
  rw [Option.or_eq_some_iff] at h
  obtain h | ⟨-, h⟩ := h
  · split at h
    · cases h
    · rename_i hword
      rw [Option.or_eq_some_iff, Option.or_eq_some_iff] at h
      obtain (h | ⟨-, h⟩) | ⟨-, h⟩ := h
      · obtain ⟨host, htext, hhost⟩ := afterLetters_some h
        refine ⟨host, htext, ?_, fun hbefore => absurd hbefore hword⟩
        rw [IsHost, hhost]
        exact List.mem_cons_self
      · obtain ⟨host, htext, hhost, -⟩ := hid (by decide) (by decide) h
        exact ⟨host, htext, hhost, fun hbefore => absurd hbefore hword⟩
      · obtain ⟨host, htext, hhost, -⟩ := hid (by decide) (by decide) h
        exact ⟨host, htext, hhost, fun hbefore => absurd hbefore hword⟩
  · obtain ⟨host, htext, hhost, heq⟩ := hid (by decide) (by decide) h
    exact ⟨host, htext, hhost, fun _ => heq⟩

theorem loopbackPort_some {text rest : List Char} {port : ℕ} (h : loopbackPort text = some (port, rest)) :
    ∃ sep digits, text = sep ++ digits ++ rest ∧ IsSep sep ∧ (∀ c ∈ digits, c.isDigit = true) ∧ 2 ≤ digits.length := by
  unfold loopbackPort at h
  dsimp only at h
  split at h
  · rename_i hcolon
    obtain ⟨tail, rfl⟩ := List.head?_eq_some_iff.mp hcolon
    rw [List.tail_cons] at h
    split at h
    · rename_i hlen
      cases h
      refine ⟨[':'], (tail.takeWhile Char.isDigit).take 5, ?_, Or.inl rfl, ?_, hlen⟩
      · have hprefix := (List.take_prefix 5 (tail.takeWhile Char.isDigit)).trans (List.takeWhile_prefix Char.isDigit)
        rw [List.append_assoc, List.prefix_iff_eq_append.mp hprefix]
        rfl
      · intro c hc
        exact List.mem_takeWhile_imp (List.mem_of_mem_take hc)
    · cases h
  · split at h
    · rename_i hall
      simp only [Bool.and_eq_true, decide_eq_true_eq] at hall
      cases h
      refine ⟨text.takeWhile isBlank, (text.dropWhile isBlank).takeWhile Char.isDigit, ?_, Or.inr ⟨?_, ?_⟩, ?_, hall.1.1.2⟩
      · rw [List.append_assoc, List.prefix_iff_eq_append.mp (List.takeWhile_prefix Char.isDigit),
          List.takeWhile_append_dropWhile]
      · cases text with
        | nil => exact absurd hall.1.1.1 (by simp)
        | cons c text => rw [List.takeWhile_cons_of_pos (by simpa using hall.1.1.1)]; simp
      · exact fun c hc => List.mem_takeWhile_imp hc
      · exact fun c hc => List.mem_takeWhile_imp hc
    · cases h

theorem loopbackHost_front {host : List Char} {wordBefore : Bool} (h : host = loopbackAddress6 ∨
    ((host.map Char.toLower = localhost ∨ host = loopbackAddress ∨ host = anyAddress) ∧ wordBefore = false))
    (rest : List Char) : loopbackHost wordBefore (host ++ rest) = some rest := by
  have hself : ∀ word : List Char, afterLetters id word (word ++ rest) = some rest := fun word =>
    afterLetters_front (List.map_id word) rest
  obtain rfl | ⟨hhost, rfl⟩ := h
  · rw [loopbackHost, hself]
    cases wordBefore with
    | true => rfl
    | false => simp [afterLetters, localhost, loopbackAddress, anyAddress, loopbackAddress6]
  · rw [loopbackHost, if_neg Bool.false_ne_true]
    obtain hlocal | rfl | rfl := hhost
    · rw [afterLetters_front hlocal]
      rfl
    · rw [hself]
      simp [afterLetters, localhost, loopbackAddress]
    · rw [hself]
      simp [afterLetters, localhost, loopbackAddress, anyAddress]

theorem isWordChar_digit {c : Char} (h : c.isDigit = true) : isWordChar c = true := by
  simp [isWordChar, Char.isAlphanum, h]

theorem isBlank_word {c : Char} (h : isWordChar c = true) : isBlank c = false := by
  by_contra hblank
  rw [Bool.not_eq_false] at hblank
  have hdelimiter := @isWordChar_delimiter c (by simp [isDelimiter, hblank])
  rw [h] at hdelimiter
  cases hdelimiter

/-- A number of two to five digits is read whole. -/
theorem loopbackPort_front {sep after : List Char} {port : ℕ} (hsep : (sep = [':'] ∧ ∀ c ∈ after.head?, c.isDigit = false) ∨
    (sep ≠ [] ∧ (∀ c ∈ sep, isBlank c = true) ∧ ∀ c ∈ after.head?, isWordChar c = false))
    (hlo : 10 ≤ port) (hhi : port < 100000) : loopbackPort (sep ++ Nat.toDigits 10 port ++ after) = some (port, after) := by
  have hdigits : ∀ c ∈ Nat.toDigits 10 port, c.isDigit = true := fun c hc =>
    Nat.isDigit_of_mem_toDigits (by decide) (by decide) hc
  have hfive : (Nat.toDigits 10 port).length ≤ 5 := (Nat.length_toDigits_le_iff (by decide) (by decide)).mpr hhi
  have htwo : 2 ≤ (Nat.toDigits 10 port).length := by
    by_contra hshort
    have hlt := (Nat.length_toDigits_le_iff (n := port) (k := 1) (b := 10) (by decide) (by decide)).mp (by omega)
    omega
  have hrun : (∀ c ∈ after.head?, c.isDigit = false) →
      (Nat.toDigits 10 port ++ after).takeWhile Char.isDigit = Nat.toDigits 10 port := by
    intro hafter
    rw [List.takeWhile_append_of_pos hdigits]
    cases after with
    | nil => simp
    | cons c after =>
      have hc := hafter c rfl
      rw [List.takeWhile_cons_of_neg (by simp [hc]), List.append_nil]
  unfold loopbackPort
  obtain ⟨rfl, hafter⟩ | ⟨hne, hblank, hafter⟩ := hsep
  · rw [List.append_assoc, List.singleton_append]
    simp only [List.head?_cons, if_true, List.tail_cons, hrun hafter, List.take_of_length_le hfive, htwo,
      Nat.ofDigitChars_ten_toDigits, List.drop_left]
  · obtain ⟨c, sep, rfl⟩ := List.exists_cons_of_ne_nil hne
    have hc := hblank c List.mem_cons_self
    have hcolon : c ≠ ':' := by
      rintro rfl
      revert hc
      decide
    have hnot : ∀ c ∈ after.head?, c.isDigit = false := by
      intro d hd
      have hword := hafter d hd
      simp only [isWordChar, Char.isAlphanum, Bool.or_eq_false_iff] at hword
      exact hword.1.2
    have hstop : (Nat.toDigits 10 port ++ after).dropWhile isBlank = Nat.toDigits 10 port ++ after := by
      obtain ⟨d, ds, hd⟩ := List.exists_cons_of_ne_nil (Nat.toDigits_ne_nil (n := port) (b := 10))
      have hdigit := hdigits d (by rw [hd]; exact List.mem_cons_self)
      rw [hd, List.cons_append, List.dropWhile_cons_of_neg]
      rw [isBlank_word (isWordChar_digit hdigit)]
      exact Bool.false_ne_true
    have hdrop : (c :: sep ++ (Nat.toDigits 10 port ++ after)).dropWhile isBlank = Nat.toDigits 10 port ++ after := by
      rw [List.dropWhile_append_of_pos hblank, hstop]
    have hboundary : boundaryAhead after = true := by
      cases after with
      | nil => rfl
      | cons d after => simpa [boundaryAhead] using hafter d rfl
    rw [List.append_assoc, hdrop]
    simp [hcolon, hc, hrun hnot, htwo, hfive, hboundary, Nat.ofDigitChars_ten_toDigits]

/-! ## No call is passed over -/

theorem hosts_apart : ∀ word ∈ hosts, ∀ back ∈ word.tails, back ≠ word →
    back.head? ≠ some '[' ∧ ∀ other ∈ hosts, ¬ other <+: back := by
  decide +kernel

theorem hosts_plain : ∀ word ∈ hosts, ∀ c ∈ word, c = ':' → word.head? = some '[' := by
  have hall : hosts.all (fun word => word.all fun c => c ≠ ':' || word.head? = some '[') = true := by decide +kernel
  simp only [List.all_eq_true, Bool.or_eq_true, decide_eq_true_eq] at hall
  intro word hword c hc hcolon
  exact (hall word hword c hc).resolve_left fun hne => hne hcolon

theorem hosts_word : ∀ word ∈ hosts, ∀ c ∈ word, isBlank c = false := by
  have hall : hosts.all (fun word => word.all fun c => !isBlank c) = true := by decide +kernel
  simpa using hall

/-- What the text in front leaves for the first letter of the next. -/
def wordBefore (ready : Bool) (before : List Char) : Bool := (before.getLast?.map isWordChar).getD ready

/-- No address starts inside another. -/
theorem not_host_inside {host back sep rest host' rest' : List Char} {front : List Char} (hhost : IsHost host)
    (hcut : host = front ++ back) (hfront : front ≠ []) (hback : back ≠ []) (hsep : IsSep sep)
    (heq : back ++ sep ++ rest = host' ++ rest') (hhost' : IsHost host') : False := by
  have hlower : back.map Char.toLower ∈ (host.map Char.toLower).tails := by
    rw [List.mem_tails, hcut, List.map_append]
    exact List.suffix_append _ _
  have hne : back.map Char.toLower ≠ host.map Char.toLower := by
    intro h
    have hlen := congrArg List.length h
    rw [hcut] at hlen
    simp only [List.length_map, List.length_append] at hlen
    have hpos := List.length_pos_iff.mpr hfront
    omega
  obtain ⟨hopen, hapart⟩ := hosts_apart _ hhost _ hlower hne
  rw [List.append_assoc] at heq
  obtain ⟨more, hhost'', hmore⟩ | ⟨more, hmore, -⟩ := List.append_eq_append_iff.mp heq
  · cases more with
    | nil =>
      refine hapart _ hhost' ?_
      rw [hhost'', List.append_nil]
    | cons s more =>
      have hs : s ∈ host' := by rw [hhost'']; simp
      have hmem : s.toLower ∈ host'.map Char.toLower := List.mem_map_of_mem hs
      have hhead : s = ':' ∨ isBlank s = true := by
        obtain rfl | ⟨hne, hblank⟩ := hsep
        · exact Or.inl (List.cons.inj hmore).1.symm
        · obtain ⟨t, sep, rfl⟩ := List.exists_cons_of_ne_nil hne
          rw [← (List.cons.inj hmore).1]
          exact Or.inr (hblank t List.mem_cons_self)
      obtain rfl | hblank := hhead
      · have hcolon := hosts_plain _ hhost' _ hmem rfl
        refine hopen ?_
        obtain ⟨c, back, rfl⟩ := List.exists_cons_of_ne_nil hback
        rw [hhost''] at hcolon
        exact hcolon
      · rw [toLower_delimiter (by simp [isDelimiter, hblank])] at hmem
        rw [hosts_word _ hhost' _ hmem] at hblank
        cases hblank
  · refine hapart _ hhost' ?_
    rw [hmore, List.map_append]
    exact List.prefix_append _ _

/-- What an address begins with. -/
theorem hosts_head : ∀ word ∈ hosts, ∀ c ∈ word.head?, c ≠ ':' ∧ isBlank c = false := by
  have hall : hosts.all (fun word => word.head?.all fun c => c ≠ ':' && !isBlank c) = true := by decide +kernel
  simp only [List.all_eq_true, Option.all_eq_true, Bool.and_eq_true, decide_eq_true_eq, Bool.not_eq_true'] at hall
  exact hall

theorem hosts_two : ∀ word ∈ hosts, 2 ≤ word.length ∧ ((word.take 2).all Char.isDigit = true → word = loopbackAddress) := by
  decide +kernel

theorem host_cons {host : List Char} (h : IsHost host) : ∃ c rest, host = c :: rest ∧ c ≠ ':' ∧ isBlank c = false := by
  cases host with
  | nil => exact absurd h (by unfold IsHost; decide)
  | cons c rest =>
    obtain ⟨hcolon, hblank⟩ := hosts_head _ h c.toLower rfl
    refine ⟨c, rest, rfl, ?_, ?_⟩
    · rintro rfl
      exact hcolon rfl
    · by_contra hc
      rw [Bool.not_eq_false] at hc
      rw [toLower_delimiter (by simp [isDelimiter, hc]), hc] at hblank
      cases hblank

theorem toLower_digit {c : Char} (h : c.isDigit = true) : c.toLower = c := by
  simp only [Char.isDigit, Bool.and_eq_true, decide_eq_true_eq] at h
  have hhi : c.toNat ≤ 57 := UInt32.le_iff_toNat_le.mp h.2
  exact JavaScript.toLower_of_not_upper (by omega)

/-- Only one of the addresses begins with two digits. -/
theorem host_digits {host digits rest rest' : List Char} (hhost : IsHost host) (hdigits : ∀ c ∈ digits, c.isDigit = true)
    (hlen : 2 ≤ digits.length) (heq : digits ++ rest = host ++ rest') : host.map Char.toLower = loopbackAddress := by
  obtain ⟨htwo, haddress⟩ := hosts_two _ hhost
  rw [List.length_map] at htwo
  have htake := congrArg (List.take 2) heq
  rw [List.take_append_of_le_length hlen, List.take_append_of_le_length htwo] at htake
  refine haddress ?_
  rw [← List.map_take, List.all_map, List.all_eq_true]
  intro c hc
  rw [← htake] at hc
  have hdigit := hdigits c (List.mem_of_mem_take hc)
  rw [Function.comp_apply, toLower_digit hdigit, hdigit]

theorem host_of_lower {host : List Char} (h : host = loopbackAddress6 ∨ host.map Char.toLower = localhost ∨
    host = loopbackAddress ∨ host = anyAddress) : IsHost host ∧
      (host.map Char.toLower = loopbackAddress → host = loopbackAddress) := by
  unfold IsHost
  obtain rfl | hlocal | rfl | rfl := h
  · exact ⟨by decide, by decide⟩
  · rw [hlocal]
    exact ⟨by decide, fun heq => absurd heq (by decide)⟩
  · exact ⟨by decide, fun _ => rfl⟩
  · exact ⟨by decide, by decide⟩

theorem wordBefore_append (ready : Bool) (front before : List Char) :
    wordBefore ready (front ++ before) = wordBefore (wordBefore ready front) before := by
  obtain rfl | ⟨init, d, rfl⟩ := List.eq_nil_or_concat' before
  · simp [wordBefore]
  · simp [wordBefore, ← List.append_assoc]

/-- What a search comes upon, from the start of one call to what follows it. -/
theorem loopbackCall_some {ready : Bool} {text rest : List Char} {port : ℕ} (h : loopbackCall ready text = some (port, rest)) :
    ∃ host sep digits, text = host ++ sep ++ digits ++ rest ∧ IsHost host ∧ IsSep sep ∧
      (∀ c ∈ digits, c.isDigit = true) ∧ 2 ≤ digits.length := by
  obtain ⟨after, hhost, hport⟩ := Option.bind_eq_some_iff.mp h
  obtain ⟨host, rfl, hishost, -⟩ := loopbackHost_some hhost
  obtain ⟨sep, digits, rfl, hsep, hdigits, hlen⟩ := loopbackPort_some hport
  exact ⟨host, sep, digits, by simp, hishost, hsep, hdigits, hlen⟩

theorem sep_mem {sep : List Char} (h : IsSep sep) : ∀ c ∈ sep, c = ':' ∨ isBlank c = true := by
  intro c hc
  obtain rfl | ⟨-, hblank⟩ := h
  · exact Or.inl (List.mem_singleton.mp hc)
  · exact Or.inr (hblank c hc)

theorem host_not_sep {host sep rest rest' : List Char} {c : Char} (hhost : IsHost host) (hsep : IsSep sep) (hc : c ∈ sep)
    (heq : c :: rest = host ++ rest') : False := by
  obtain ⟨d, host, rfl, hcolon, hblank⟩ := host_cons hhost
  obtain ⟨rfl, -⟩ := List.cons.inj heq
  obtain hc | hc := sep_mem hsep c hc
  · exact hcolon hc
  · rw [hblank] at hc
    cases hc

section
variable {host host' sep' digits' after' before u rest rest' : List Char} {ready : Bool} {port : ℕ}

/-- An address that stands in the number of another call is swallowed by it. -/
theorem not_in_digits {back : List Char} (hhost' : IsHost host') (hsep' : IsSep sep')
    (hdigits' : ∀ c ∈ digits', c.isDigit = true) (hlen' : 2 ≤ digits'.length) (hu : u ≠ [])
    (hbefore : before = host' ++ sep' ++ back) (hback : digits' = back ++ u)
    (hcall : loopbackCall (wordBefore ready before) (u ++ after') = some (port, rest'))
    (htext : u ++ after' = host ++ rest) (hhost : IsHost host)
    (haddress : host.map Char.toLower = loopbackAddress → host = loopbackAddress)
    (hswallowed : ¬ Swallowed before host) : False := by
  obtain rfl | ⟨init, d, rfl⟩ := List.eq_nil_or_concat' back
  · rw [List.nil_append] at hback
    subst hback
    refine hswallowed ⟨haddress (host_digits hhost hdigits' hlen' htext), [], host', sep', ?_, hhost', hsep'⟩
    rw [hbefore, List.append_nil, List.nil_append]
  · have hd : d.isDigit = true := hdigits' d (by rw [hback]; simp)
    have hword : wordBefore ready before = true := by
      rw [hbefore, wordBefore]
      simp [isWordChar_digit hd]
    rw [hword] at hcall
    obtain ⟨after, hfound, -⟩ := Option.bind_eq_some_iff.mp hcall
    obtain ⟨host₀, heq, -, hsix⟩ := loopbackHost_some hfound
    obtain ⟨c, u, rfl⟩ := List.exists_cons_of_ne_nil hu
    have hc : c.isDigit = true := hdigits' c (by rw [hback]; simp)
    rw [hsix rfl] at heq
    have hopen : c = '[' := (List.cons.inj heq).1
    rw [hopen] at hc
    exact absurd hc (by decide)

/-- A call that another one, found in front of it, does not swallow is not passed by. -/
theorem not_passed (hhost' : IsHost host') (hsep' : IsSep sep') (hdigits' : ∀ c ∈ digits', c.isDigit = true)
    (hlen' : 2 ≤ digits'.length) (hbefore : before ≠ []) (hu : u ≠ [])
    (hmatch : host' ++ sep' ++ digits' = before ++ u)
    (hcall : loopbackCall (wordBefore ready before) (u ++ after') = some (port, rest'))
    (htext : u ++ after' = host ++ rest) (hhost : IsHost host)
    (haddress : host.map Char.toLower = loopbackAddress → host = loopbackAddress)
    (hswallowed : ¬ Swallowed before host) : False := by
  have hsepHead : ∀ back : List Char, back ≠ [] → (∀ c ∈ back, c ∈ sep') → ∀ more, u = back ++ more → False := by
    intro back hne hmem more heq
    obtain ⟨c, back, rfl⟩ := List.exists_cons_of_ne_nil hne
    rw [heq, List.cons_append, List.cons_append] at htext
    exact host_not_sep hhost hsep' (hmem c List.mem_cons_self) htext
  rw [List.append_assoc] at hmatch
  obtain ⟨more, hmore, hrest⟩ | ⟨more, hmore, hrest⟩ := List.append_eq_append_iff.mp hmatch
  · obtain ⟨back, hsep, hdigits⟩ | ⟨back, hsep, hdigits⟩ := List.append_eq_append_iff.mp hrest
    · exact not_in_digits hhost' hsep' hdigits' hlen' hu (by rw [hmore, hsep, List.append_assoc]) hdigits hcall htext hhost
        haddress hswallowed
    · by_cases hnil : back = []
      · subst hnil
        rw [List.append_nil] at hsep
        refine @not_in_digits host host' sep' digits' after' before u rest rest' ready port [] hhost' hsep' hdigits' hlen' hu
          ?_ hdigits.symm hcall htext hhost haddress hswallowed
        rw [hmore, hsep, List.append_nil]
      · exact hsepHead back hnil (fun c hc => by rw [hsep]; exact List.mem_append_right _ hc) _ hdigits
  · by_cases hnil : more = []
    · subst hnil
      have hne : sep' ≠ [] := by
        obtain rfl | ⟨hne, -⟩ := hsep'
        · exact List.cons_ne_nil _ _
        · exact hne
      exact hsepHead sep' hne (fun c hc => hc) _ hrest
    · refine @not_host_inside host' more sep' (digits' ++ after') host rest before hhost' hmore hbefore hnil hsep' ?_ hhost
      rw [← htext, hrest]
      simp

theorem loopbackPorts_found {c : Char} {text after : List Char} (h : loopbackCall ready (c :: text) = some (port, after)) :
    loopbackPorts ready (c :: text) = port :: loopbackPorts true after := by
  rw [loopbackPorts]
  split
  · rename_i hfound
    rw [h] at hfound
    cases hfound
    rfl
  · rename_i hnone
    rw [h] at hnone
    cases hnone

theorem loopbackPorts_none {c : Char} {text : List Char} (h : loopbackCall ready (c :: text) = none) :
    loopbackPorts ready (c :: text) = loopbackPorts (isWordChar c) text := by
  rw [loopbackPorts]
  split
  · rename_i hfound
    rw [h] at hfound
    cases hfound
  · rfl

theorem Swallowed.append (h : Swallowed before host) (front : List Char) : Swallowed (front ++ before) host := by
  obtain ⟨hhost, init, host', sep, hbefore, hhost', hsep⟩ := h
  exact ⟨hhost, front ++ init, host', sep, by rw [hbefore]; simp, hhost', hsep⟩

/-- The search comes upon every call that no other one swallows. -/
theorem mem_loopbackPorts {text : List Char} (hcall : loopbackCall (wordBefore ready before) (host ++ rest) = some (port, rest'))
    (htext : text = before ++ (host ++ rest)) (hhost : IsHost host)
    (haddress : host.map Char.toLower = loopbackAddress → host = loopbackAddress)
    (hswallowed : ¬ Swallowed before host) : port ∈ loopbackPorts ready text := by
  induction ready, text using loopbackPorts.induct generalizing before with
  | case1 ready =>
    obtain ⟨c, host, rfl, -, -⟩ := host_cons hhost
    simp at htext
  | case2 ready c text port' after hfound ih =>
    rw [loopbackPorts_found hfound]
    by_cases hbefore : before = []
    · subst hbefore
      rw [List.nil_append] at htext
      rw [← htext] at hcall
      have heq := hfound.symm.trans hcall
      cases heq
      exact List.mem_cons_self
    · obtain ⟨host', sep', digits', heq, hhost', hsep', hdigits', hlen'⟩ := loopbackCall_some hfound
      rw [heq] at htext
      have hword : wordBefore ready (host' ++ sep' ++ digits') = true := by
        obtain ⟨init, d, hd⟩ := (List.eq_nil_or_concat' digits').resolve_left fun hnil => by simp [hnil] at hlen'
        have hdigit := hdigits' d (by rw [hd]; simp)
        rw [hd, wordBefore]
        simp [isWordChar_digit hdigit]
      -- the call stands after what was found
      have hlater : ∀ more, before = host' ++ sep' ++ digits' ++ more → after = more ++ (host ++ rest) →
          port ∈ port' :: loopbackPorts true after := by
        intro more hmore hafter
        refine List.mem_cons_of_mem _ (ih ?_ hafter fun h => hswallowed ?_)
        · rwa [hmore, wordBefore_append, hword] at hcall
        · rw [hmore]
          exact h.append _
      obtain ⟨more, hmore, hafter⟩ | ⟨u, hmatch, hu⟩ := List.append_eq_append_iff.mp htext
      · exact hlater more hmore hafter
      · by_cases hnil : u = []
        · subst hnil
          rw [List.append_nil] at hmatch
          exact hlater [] (by rw [hmatch, List.append_nil]) hu.symm
        · exact (not_passed hhost' hsep' hdigits' hlen' hbefore hnil hmatch (hu ▸ hcall) hu.symm hhost haddress hswallowed).elim
  | case3 ready c text hnone ih =>
    rw [loopbackPorts_none hnone]
    cases before with
    | nil =>
      rw [List.nil_append] at htext
      rw [htext] at hnone
      have heq := hnone.symm.trans hcall
      cases heq
    | cons d before =>
      obtain ⟨hhead, htail⟩ := List.cons.inj htext
      subst hhead
      refine ih ?_ htail fun h => hswallowed (h.append [c])
      have happend := wordBefore_append ready [c] before
      rw [List.singleton_append] at happend
      rwa [happend] at hcall

end

theorem PortAt.mem_loopbackPorts {command before host sep after : List Char} {port : ℕ}
    (h : PortAt command before host sep port after) (hlo : 10 ≤ port) (hhi : port < 100000)
    (hswallowed : ¬ Swallowed before host) : port ∈ loopbackPorts false command := by
  have hname : host = loopbackAddress6 ∨ host.map Char.toLower = localhost ∨ host = loopbackAddress ∨ host = anyAddress :=
    h.host.imp_right And.left
  obtain ⟨hhost, haddress⟩ := host_of_lower hname
  have hcall : loopbackCall (wordBefore false before) (host ++ (sep ++ Nat.toDigits 10 port ++ after)) = some (port, after) := by
    rw [loopbackCall, loopbackHost_front, Option.bind_some, loopbackPort_front h.sep hlo hhi]
    refine h.host.imp_right fun hhost => ⟨hhost.1, ?_⟩
    obtain hnil | ⟨init, d, hinit, hd⟩ := getLast?_cases hhost.2
    · rw [hnil]
      rfl
    · rw [hinit, wordBefore]
      simp [hd]
  refine Shell.mem_loopbackPorts hcall ?_ hhost haddress hswallowed
  rw [h.text]
  simp

end Haruspex.Shell
