import Haruspex.JavaScript.Text
import Haruspex.Library.Patterns
import Mathlib.Data.List.DropRight
import Mathlib.Data.List.TakeWhile

/-! Whether a shell command reaches outside its project, into the application itself
(`lib/shell/boundary.ts`). -/
namespace Haruspex.Shell
open JavaScript (isBlank)
open Patterns (Pattern)
set_option autoImplicit false

structure ProtectedPath where
  path : List Char
  label : List Char

structure ProtectedPort where
  port : ℕ
  label : List Char

structure ProtectedTargets where
  home : List Char
  paths : List ProtectedPath
  ports : List ProtectedPort

structure BoundaryCheck where
  matched : Bool
  reasons : List (List Char)

/-! ## Texts -/

/-- What `toLowerCase` takes from Unicode's tables. A sigma at the end of a word has a form of its own. -/
structure CaseTables where
  lower : Char → List Char
  finalSigma : List Char → List Char → Bool
  ascii : ∀ c : Char, c.toNat < 128 → lower c = [c.toLower]
  blank : ∀ c : Char, isBlank c = true → lower c = [c]

section
variable (tables : CaseTables)

/-- `toLowerCase`; `before` is the text in front, read backwards. -/
def toLowerCase (before : List Char) : List Char → List Char
  | [] => []
  | c :: rest =>
    (if c = 'Σ' then if tables.finalSigma before rest then ['ς'] else ['σ'] else tables.lower c) ++
      toLowerCase (c :: before) rest

end

/-- Forward slashes, so either spelling compares. -/
def slashes (path : List Char) : List Char := path.map fun c => if c = '\\' then '/' else c

def isSlash (c : Char) : Bool := c = '/' || c = '\\'

/-- `path.replace(/\/+$/, '')` -/
def trimSlashes (path : List Char) : List Char := path.rdropWhile (· = '/')

/-- A Windows path (`C:/…`), or one through WSL's mount of a Windows drive (`/mnt/c/…`). -/
def isWindowsPath (path : List Char) : Bool :=
  (path.head?.any Char.isAlpha && [':', '/'].isPrefixOf path.tail) ||
    ((path.take 5).map Char.toLower = ['/', 'm', 'n', 't', '/'] && (path.drop 5).head?.any Char.isAlpha &&
      (path.drop 6).head? = some '/')

/-- A letter of a word in a regular expression, as `\b` has it. -/
def isWordChar (c : Char) : Bool := c.isAlphanum || c = '_'

/-- A word of a regular expression, and what follows it; `fold` is `Char.toLower` in any case. -/
def afterLetters (fold : Char → Char) (word text : List Char) : Option (List Char) :=
  if (text.take word.length).map fold = word then some (text.drop word.length) else none

/-- `\b` after a letter of a word. -/
def boundaryAhead (text : List Char) : Bool := !text.head?.any isWordChar

/-! ## Replacing -/

/-- What `replace` puts in for a match: in a replacement text, `$$`, `$&` and the like are not themselves. -/
def substitution (before matched after : List Char) : List Char → List Char
  | '$' :: '$' :: template => '$' :: substitution before matched after template
  | '$' :: '&' :: template => matched ++ substitution before matched after template
  | '$' :: '`' :: template => before ++ substitution before matched after template
  | '$' :: '\'' :: template => after ++ substitution before matched after template
  | c :: template => c :: substitution before matched after template
  | [] => []

/-- `text.replace(p, template)`, for every match; `before` is the text in front. -/
def replaceFrom (p : Pattern Char (List Char)) (template before text : List Char) : List Char :=
  match text with
  | [] => []
  | c :: rest =>
    match _hfound : p.match? (c :: rest) with
    | some (matched, after) =>
      substitution before matched after template ++ replaceFrom p template (before ++ matched) after
    | none => c :: replaceFrom p template (before ++ [c]) rest
termination_by text.length
decreasing_by
  · exact p.shorter _hfound
  · exact Nat.lt_succ_self _

def replaceAll (p : Pattern Char (List Char)) (template text : List Char) : List Char := replaceFrom p template [] text

theorem afterLetters_length {fold : Char → Char} {word text rest : List Char} (h : afterLetters fold word text = some rest) :
    text.length = word.length + rest.length := by
  unfold afterLetters at h
  split at h
  · rename_i heq
    cases h
    have hlen := congrArg List.length heq
    rw [List.length_map, List.length_take] at hlen
    rw [List.length_drop]
    omega
  · cases h

/-- What follows a letter that may be left out. -/
def skipOne (c : Char) (text : List Char) : List Char := (afterLetters id [c] text).getD text

theorem skipOne_length (c : Char) (text : List Char) : (skipOne c text).length ≤ text.length := by
  unfold skipOne
  cases h : afterLetters id [c] text with
  | none => exact le_rfl
  | some rest =>
    have hlen := afterLetters_length h
    rw [Option.getD_some]
    omega

/-- `\$\{HOME\}|\$HOME\b` -/
def homeEnd (text : List Char) : Option (List Char) :=
  match afterLetters id ['$', '{', 'H', 'O', 'M', 'E', '}'] text with
  | some rest => some rest
  | none => (afterLetters id ['$', 'H', 'O', 'M', 'E'] text).filter boundaryAhead

/-- `%name%|\$\{?env:name\b\}?`, in any case. -/
def profileEnd (name text : List Char) : Option (List Char) :=
  match afterLetters Char.toLower ('%' :: (name ++ ['%'])) text with
  | some rest => some rest
  | none =>
    (((afterLetters id ['$'] text).bind fun rest =>
      afterLetters Char.toLower ('e' :: 'n' :: 'v' :: ':' :: name) (skipOne '{' rest)).filter boundaryAhead).map (skipOne '}')

theorem homeEnd_shorter {text rest : List Char} (h : homeEnd text = some rest) : rest.length < text.length := by
  unfold homeEnd at h
  split at h
  · rename_i hlong
    cases h
    have hlen := afterLetters_length hlong
    simp only [List.length_cons] at hlen
    omega
  · obtain ⟨hshort, -⟩ := Option.filter_eq_some_iff.mp h
    have hlen := afterLetters_length hshort
    simp only [List.length_cons] at hlen
    omega

theorem profileEnd_shorter {name text rest : List Char} (h : profileEnd name text = some rest) :
    rest.length < text.length := by
  unfold profileEnd at h
  split at h
  · rename_i hlong
    cases h
    have hlen := afterLetters_length hlong
    simp only [List.length_cons] at hlen
    omega
  · obtain ⟨rest', hrest, rfl⟩ := Option.map_eq_some_iff.mp h
    obtain ⟨hbind, -⟩ := Option.filter_eq_some_iff.mp hrest
    obtain ⟨text', hdollar, henv⟩ := Option.bind_eq_some_iff.mp hbind
    have hdollar := afterLetters_length hdollar
    have henv := afterLetters_length henv
    have hopen := skipOne_length '{' text'
    have hclose := skipOne_length '}' rest'
    simp only [List.length_cons] at hdollar henv
    omega

/-- A pattern by where its match ends. -/
def patternOf (ends : List Char → Option (List Char))
    (shorter : ∀ {text rest}, ends text = some rest → rest.length < text.length) : Pattern Char (List Char) where
  match? := fun text => (ends text).map fun rest => (text.take (text.length - rest.length), rest)
  shorter := by
    intro text matched rest h
    obtain ⟨rest', hends, heq⟩ := Option.map_eq_some_iff.mp h
    cases heq
    exact shorter hends

def homeVariable : Pattern Char (List Char) := patternOf homeEnd homeEnd_shorter

def profileVariable (name : List Char) : Pattern Char (List Char) := patternOf (profileEnd name) profileEnd_shorter

/-! ## The home directory -/

def userProfile : List Char := ['u', 's', 'e', 'r', 'p', 'r', 'o', 'f', 'i', 'l', 'e']

def appData : List Char := ['a', 'p', 'p', 'd', 'a', 't', 'a']

def localAppData : List Char := ['l', 'o', 'c', 'a', 'l', 'a', 'p', 'p', 'd', 'a', 't', 'a']

def roamingDir : List Char :=
  ['\\', 'A', 'p', 'p', 'D', 'a', 't', 'a', '\\', 'R', 'o', 'a', 'm', 'i', 'n', 'g']

def localDir : List Char := ['\\', 'A', 'p', 'p', 'D', 'a', 't', 'a', '\\', 'L', 'o', 'c', 'a', 'l']

/-- `[\s'"=:(]` -/
def tildeMayFollow (c : Char) : Bool := isBlank c || ['\'', '"', '=', ':', '('].contains c

/-- `(?=[\\/])` -/
def slashAhead (text : List Char) : Bool := text.head?.any isSlash

/-- `text.replace(/(^|[\s'"=:(])~(?=[\\/])/g, …)`; `ready` tells that a `~` may stand here. -/
def expandTilde (h : List Char) (ready : Bool) : List Char → List Char
  | [] => []
  | c :: rest =>
    if ready && c = '~' && slashAhead rest then h ++ expandTilde h false rest
    else c :: expandTilde h (tildeMayFollow c) rest

/-- The home directory without slashes at its end. -/
def homeDir (home : List Char) : List Char := home.rdropWhile isSlash

/-- The command with the spellings a shell would expand expanded; Windows' profile variables too. -/
def expandHome (command home : List Char) : List Char :=
  if home = [] then command
  else
    let h := homeDir home
    replaceAll (profileVariable localAppData) (h ++ localDir)
      (replaceAll (profileVariable appData) (h ++ roamingDir)
        (replaceAll (profileVariable userProfile) h (replaceAll homeVariable h (expandTilde h true command))))

/-! ## The protected directories -/

section
variable (tables : CaseTables)

def foldCase (windows : Bool) (text : List Char) : List Char := if windows then toLowerCase tables [] text else text

/-- A directory to compare with: its path, and the run's root, both with a slash at the end. -/
structure GuardedPath where
  p : List Char
  r : Option (List Char)
  windows : Bool
  label : List Char

/-- A directory's path, with one slash at the end. -/
def dirPath (path : List Char) : List Char := trimSlashes (slashes path) ++ ['/']

def guardPath (root : Option (List Char)) (target : ProtectedPath) : GuardedPath :=
  let p := dirPath target.path
  let windows := isWindowsPath p
  { p := foldCase tables windows p
    r := (root.filter (· ≠ [])).map fun root => foldCase tables windows (dirPath root)
    windows, label := target.label }

/-- The root lies inside the directory. -/
def holdsRoot (g : GuardedPath) : Bool := g.r.any fun r => decide (g.p <+: r)

/-- The project itself, or a directory inside the root where the root is the application's own tree. -/
def isExempt (ownTree : Bool) (g : GuardedPath) : Bool :=
  g.r.any fun r => decide (g.p <+: r) || (ownTree && decide (r <+: g.p))

/-- `(?=[\s'"]|$)` -/
def nameEnds (text : List Char) : Bool := text.head?.all fun c => isBlank c || c = '\'' || c = '"'

def findsPath (p haystack : List Char) : Bool :=
  decide (p <:+: haystack) ||
    haystack.tails.any fun t => decide (p.dropLast <+: t) && nameEnds (t.drop p.dropLast.length)

/-! ## The loopback ports -/

def localhost : List Char := ['l', 'o', 'c', 'a', 'l', 'h', 'o', 's', 't']

def loopbackAddress : List Char := ['1', '2', '7', '.', '0', '.', '0', '.', '1']

def anyAddress : List Char := ['0', '.', '0', '.', '0', '.', '0']

def loopbackAddress6 : List Char := ['[', ':', ':', '1', ']']

/-- `\blocalhost|\b127\.0\.0\.1|\b0\.0\.0\.0|\[::1\]`, after a letter of a word or not. -/
def loopbackHost (wordBefore : Bool) (text : List Char) : Option (List Char) :=
  (if wordBefore then none
    else ((afterLetters Char.toLower localhost text).or (afterLetters id loopbackAddress text)).or
      (afterLetters id anyAddress text)).or (afterLetters id loopbackAddress6 text)

/-- `(?::(\d{2,5})|\s+(\d{2,5})\b)` -/
def loopbackPort (text : List Char) : Option (ℕ × List Char) :=
  if text.head? = some ':' then
    let digits := (text.tail.takeWhile Char.isDigit).take 5
    if 2 ≤ digits.length then some (Nat.ofDigitChars 10 digits 0, text.tail.drop digits.length) else none
  else
    let after := text.dropWhile isBlank
    let digits := after.takeWhile Char.isDigit
    if text.head?.any isBlank && 2 ≤ digits.length && digits.length ≤ 5 && boundaryAhead (after.drop digits.length) then
      some (Nat.ofDigitChars 10 digits 0, after.drop digits.length)
    else none

def loopbackCall (wordBefore : Bool) (text : List Char) : Option (ℕ × List Char) :=
  (loopbackHost wordBefore text).bind loopbackPort

theorem loopbackHost_shorter {wordBefore : Bool} {text rest : List Char} (h : loopbackHost wordBefore text = some rest) :
    rest.length < text.length := by
  have hword : ∀ {fold : Char → Char} {c : Char} {word : List Char},
      afterLetters fold (c :: word) text = some rest → rest.length < text.length := by
    intro fold c word h
    have hlen := afterLetters_length h
    rw [List.length_cons] at hlen
    omega
  unfold loopbackHost at h
  rw [Option.or_eq_some_iff] at h
  obtain h | ⟨-, h⟩ := h
  · split at h
    · cases h
    · rw [Option.or_eq_some_iff, Option.or_eq_some_iff] at h
      obtain (h | ⟨-, h⟩) | ⟨-, h⟩ := h
      · exact hword h
      · exact hword h
      · exact hword h
  · exact hword h

theorem loopbackPort_shorter {text rest : List Char} {port : ℕ} (h : loopbackPort text = some (port, rest)) :
    rest.length ≤ text.length := by
  unfold loopbackPort at h
  have hlen := List.Sublist.length_le (List.dropWhile_sublist (l := text) isBlank)
  dsimp only at h
  split at h
  · split at h
    · cases h
      simp only [List.length_drop, List.length_tail]
      omega
    · cases h
  · split at h
    · cases h
      simp only [List.length_drop]
      omega
    · cases h

/-- The ports of a command, each looked for from the end of the one before it. -/
def loopbackPorts (wordBefore : Bool) (text : List Char) : List ℕ :=
  match text with
  | [] => []
  | c :: rest =>
    match _hfound : loopbackCall wordBefore (c :: rest) with
    | some (port, after) => port :: loopbackPorts true after
    | none => loopbackPorts (isWordChar c) rest
termination_by text.length
decreasing_by
  · obtain ⟨after', hhost, hport⟩ := Option.bind_eq_some_iff.mp _hfound
    exact lt_of_le_of_lt (loopbackPort_shorter hport) (loopbackHost_shorter hhost)
  · exact Nat.lt_succ_self _

/-! ## The check -/

def touches (label : List Char) : List Char :=
  ['t', 'o', 'u', 'c', 'h', 'e', 's', ' ', 'H', 'a', 'r', 'u', 's', 'p', 'e', 'x', '\'', 's', ' '] ++ label

def calls (label : List Char) (port : ℕ) : List Char :=
  ['c', 'a', 'l', 'l', 's', ' ', 'H', 'a', 'r', 'u', 's', 'p', 'e', 'x', '\'', 's', ' '] ++ label ++
    [' ', '(', 'p', 'o', 'r', 't', ' '] ++ Nat.toDigits 10 port ++ [')']

/-- The label of a port; of two entries the later one. -/
def labelOf (ports : List ProtectedPort) (port : ℕ) : Option (List Char) :=
  (ports.reverse.find? fun q => q.port = port).map ProtectedPort.label

/-- The text a directory is looked for in. -/
def haystack (command home : List Char) (windows : Bool) : List Char :=
  foldCase tables windows (slashes (expandHome command home))

def checkBoundary (command : List Char) (targets : ProtectedTargets) (root : Option (List Char)) : BoundaryCheck :=
  let guarded := targets.paths.map (guardPath tables root)
  let ownTree := guarded.any holdsRoot
  let touched := guarded.filter fun g => !isExempt ownTree g && findsPath g.p (haystack tables command targets.home g.windows)
  let called := (loopbackPorts false command).filterMap fun port =>
    ((labelOf targets.ports port).filter (· ≠ [])).map fun label => calls label port
  let unique := (touched.map (fun g => touches g.label) ++ called).eraseDups
  { matched := unique ≠ [], reasons := unique }

end

/-! ## What a command names -/

/-- What parts the words of a command. -/
def isDelimiter (c : Char) : Bool := isBlank c || ['\'', '"', ';', '&', '|', '<', '>', '(', ')', '='].contains c

/-- A word of a command, with what stands in front of it and after it. -/
structure WordAt (command before word after : List Char) : Prop where
  text : command = before ++ word ++ after
  plain : ∀ c ∈ word, isDelimiter c = false
  nonempty : word ≠ []
  front : ∀ c ∈ before.getLast?, isDelimiter c = true
  back : ∀ c ∈ after.head?, isDelimiter c = true

/-- A `~` in front of a word, alone or before a slash, is the home directory. -/
def leadingTilde (h word : List Char) : List Char :=
  if word.head? = some '~' && (word.tail.isEmpty || slashAhead word.tail) then h ++ word.tail else word

/-- A text with one thing in place of each match. -/
def putFor (p : Pattern Char (List Char)) (text word : List Char) : List Char := p.replace (fun _ => text) word

/-- The profile variables of a word, replaced by their directories. -/
def putProfile (h word : List Char) : List Char :=
  putFor (profileVariable localAppData) (h ++ localDir)
    (putFor (profileVariable appData) (h ++ roamingDir) (putFor (profileVariable userProfile) h (putFor homeVariable h word)))

/-- A word as a shell expands it, with forward slashes. -/
def expandWord (home word : List Char) : List Char :=
  slashes (if home = [] then word else putProfile (homeDir home) (leadingTilde (homeDir home) word))

section
variable (tables : CaseTables)

/-- The same name, without regard to case for Windows paths. -/
def SameName (windows : Bool) (name dir : List Char) : Prop :=
  if windows then name.flatMap tables.lower = dir.flatMap tables.lower else name = dir

/-- A directory's path without a slash at its end. -/
def bareDir (path : List Char) : List Char := trimSlashes (slashes path)

/-- A word names a directory, or something below it. -/
structure Names (home path word name tail : List Char) : Prop where
  expanded : expandWord home word = name ++ tail
  same : SameName tables (isWindowsPath (dirPath path)) name (bareDir path)
  ends : tail.head?.all (· = '/') = true

/-- Some word of the command names the directory. -/
def Named (command home path : List Char) : Prop :=
  ∃ before word after name tail, WordAt command before word after ∧ Names tables home path word name tail

/-- The directory is not the run's own tree. -/
def Guarded (targets : ProtectedTargets) (root : Option (List Char)) (target : ProtectedPath) : Prop :=
  target ∈ targets.paths ∧
    isExempt ((targets.paths.map (guardPath tables root)).any holdsRoot) (guardPath tables root target) = false

/-- The directory's name stands in the expanded command, and no longer name begins with it there. -/
def Stands (command home : List Char) (target : ProtectedPath) : Prop :=
  ∃ front back, haystack tables command home (isWindowsPath (dirPath target.path)) =
      front ++ (foldCase tables (isWindowsPath (dirPath target.path)) (dirPath target.path)).dropLast ++ back ∧
    (back.head? = some '/' ∨ nameEnds back = true)

/-- A port in decimal after one of the addresses: after a colon, or after blanks as a word of its own. -/
structure PortAt (command before host sep : List Char) (port : ℕ) (after : List Char) : Prop where
  text : command = before ++ host ++ sep ++ Nat.toDigits 10 port ++ after
  host : host = loopbackAddress6 ∨ ((host.map Char.toLower = localhost ∨ host = loopbackAddress ∨ host = anyAddress) ∧
    ∀ c ∈ before.getLast?, isWordChar c = false)
  sep : (sep = [':'] ∧ ∀ c ∈ after.head?, c.isDigit = false) ∨
    (sep ≠ [] ∧ (∀ c ∈ sep, isBlank c = true) ∧ ∀ c ∈ after.head?, isWordChar c = false)

def Called (command : List Char) (port : ℕ) : Prop := ∃ before host sep after, PortAt command before host sep port after

/-- The check tells of the command, with this reason. -/
def Reports (check : BoundaryCheck) (reason : List Char) : Prop := check.matched = true ∧ reason ∈ check.reasons

/-- A command that names a protected place is caught, and a longer name is not mistaken for it. -/
structure Guards (command : List Char) (targets : ProtectedTargets) (root : Option (List Char)) : Prop where
  named : ∀ target, Guarded tables targets root target → Named tables command targets.home target.path →
    Reports (checkBoundary tables command targets root) (touches target.label)
  longer : ∀ label, Reports (checkBoundary tables command targets root) (touches label) →
    ∃ target, Guarded tables targets root target ∧ target.label = label ∧ Stands tables command targets.home target
  called : ∀ q ∈ targets.ports, Called command q.port → ∃ q' ∈ targets.ports, q'.port = q.port ∧
    Reports (checkBoundary tables command targets root) (calls q'.label q.port)

/-- Every directory that a word names stands in the expanded command, and every port is come upon. -/
structure Shown (command : List Char) (targets : ProtectedTargets) (root : Option (List Char)) : Prop where
  named : ∀ target, Guarded tables targets root target → Named tables command targets.home target.path →
    ∃ other, Guarded tables targets root other ∧ other.label = target.label ∧ Stands tables command targets.home other
  called : ∀ q ∈ targets.ports, Called command q.port →
    q.port ∈ loopbackPorts false command ∧ labelOf targets.ports q.port ≠ some []

end

end Haruspex.Shell
