import Haruspex.ReadOnlyCommand.Split

/-! Whether a command only reads (`isReadOnlyCommand` of `code/readOnlyCommand.ts`). -/
namespace Haruspex.ReadOnlyCommand
open JavaScript
set_option autoImplicit false

/-! ## Tables -/

abbrev Word := List Char

def among (table : List String) (word : Word) : Bool := table.contains (String.ofList word)

def readers : List String :=
  ["ls", "cat", "head", "tail", "wc", "grep", "egrep", "fgrep", "rg", "tree", "pwd", "echo", "printf", "which", "type",
    "file", "stat", "du", "df", "diff", "cmp", "uniq", "cut", "tr", "nl", "basename", "dirname", "realpath", "readlink",
    "date", "uname", "whoami", "id", "true", "false", "test", "[", "cd", "pushd", "popd", "read", "jq", "tac", "rev",
    "paste", "comm", "column", "seq", "md5sum", "sha256sum"]

def gitReaders : List String :=
  ["status", "log", "diff", "show", "rev-parse", "ls-files", "ls-tree", "blame", "describe", "shortlog", "grep",
    "cat-file", "branch", "tag", "remote"]

def gitListFlags : List String :=
  ["-a", "-r", "-v", "-vv", "-l", "--list", "--all", "--remotes", "--verbose", "--show-current", "--no-color", "--color"]

def findWriters : List String :=
  ["-delete", "-exec", "-execdir", "-ok", "-okdir", "-fprint", "-fprint0", "-fprintf", "-fls"]

def keywords : List String :=
  ["if", "then", "else", "elif", "fi", "while", "until", "do", "done", "time", "!", "\x7b", "\x7d"]

def xargsWithValue : List String := ["-n", "-I", "-d", "-P", "-L", "-s", "-E", "-a"]

def sedLong : List String :=
  ["--quiet", "--silent", "--regexp-extended", "--separate", "--unbuffered", "--null-data", "--posix", "--debug",
    "--sandbox"]

def sedPlain : List Char := "pdqQ=lnNPDgGhHxz".toList

/-- `/^[A-Za-z_][A-Za-z0-9_]*=/` -/
def isAssignment : Word → Bool
  | [] => false
  | c :: rest =>
    (c.isAlpha || c = '_') && (rest.dropWhile fun d => d.isAlphanum || d = '_').head? = some '='

/-! ## Programs with arguments to check -/

/-- Past the options of a program; `skip` of them are values. -/
def pastOptions (valued : Word → Bool) : ℕ → List Word → List Word
  | _, [] => []
  | skip + 1, _ :: args => pastOptions valued skip args
  | 0, a :: args => if a.head? = some '-' then pastOptions valued (if valued a then 1 else 0) args else a :: args

def gitReads (args : List Word) : Bool :=
  match pastOptions (among ["-C", "-c"]) 0 args with
  | [] => false
  | sub :: rest =>
    if !among gitReaders sub then false
    else if among ["branch", "tag", "remote"] sub then rest.all (among gitListFlags)
    else !rest.any fun a => among ["--output"] a || "--output=".toList.isPrefixOf a

/-- Past text that ends at an unescaped `d`. Half of a surrogate pair ends no text: what follows it is no command. -/
def delimited (d : Char) : List Char → Option (List Char)
  | [] => none
  | c :: rest =>
    if 0x10000 ≤ d.toNat then none
    else if c = d then some rest
    else if c = '\\' then
      match rest with
      | [] => none
      | _ :: rest => delimited d rest
    else delimited d rest

def address : List Char → Option (List Char)
  | [] => some []
  | c :: rest =>
    if c.isDigit then some ((c :: rest).dropWhile fun x => x.isDigit || x = '~')
    else if c = '$' then some rest
    else if c = '/' then (delimited '/' rest).map fun s => s.dropWhile fun x => x = 'I' || x = 'M'
    else if c = '\\' then
      match rest with
      | [] => none
      | d :: rest => (delimited d rest).map fun s => s.dropWhile fun x => x = 'I' || x = 'M'
    else some (c :: rest)

/-- What a command applies to: nothing, a line or a range, and `!`. -/
def addresses (s : List Char) : Option (List Char) :=
  match address s with
  | none => none
  | some s =>
    let second :=
      match s with
      | ',' :: s => address (if s.head? = some '+' ∨ s.head? = some '~' then s.drop 1 else s)
      | s => some s
    second.map fun s => s.dropWhile fun x => x = ' ' || x = '!'

def skipSeparators (s : List Char) : List Char := s.dropWhile fun c => isBlank c || c = ';'

/-- After a command that is done. -/
def endCommand (s : List Char) : Option (List Char) :=
  let s := s.dropWhile fun x => x = ' ' || x = '\t'
  if s.head?.all (fun x => x = ';' || x = '\n' || x = '}') then some (skipSeparators s) else none

/-- The text after a substitution and its flags. -/
def substitution (c : Char) : List Char → Option (List Char)
  | [] => none
  | d :: s =>
    if d = '\\' ∨ d = '\n' then none
    else
      ((delimited d s).bind (delimited d)).map fun s =>
        if c = 's' then s.dropWhile fun x => "gpiImM".toList.contains x || x.isDigit else s

/-- One command of a sed script, and the separators after it. -/
def sedCommand (s : List Char) : Option (List Char) :=
  match addresses s with
  | none => none
  | some [] => none
  | some (c :: s) =>
    if c = 's' ∨ c = 'y' then (substitution c s).bind endCommand
    else if c = '{' then some (skipSeparators s)
    else if c = '}' ∨ c ∈ sedPlain then endCommand s
    else none

/-! What is left is a part of the script. -/

theorem delimited_left {d : Char} {s rest : List Char} (h : delimited d s = some rest) : rest <:+ s := by
  induction hn : s.length using Nat.strong_induction_on generalizing s with
  | _ n ih =>
    cases s with
    | nil => cases h
    | cons c s =>
      rw [List.length_cons] at hn
      rw [delimited.eq_def] at h
      dsimp only at h
      by_cases hpair : 0x10000 ≤ d.toNat
      · rw [if_pos hpair] at h
        cases h
      rw [if_neg hpair] at h
      by_cases hend : c = d
      · rw [if_pos hend, Option.some_inj] at h
        rw [← h]
        exact List.suffix_cons c s
      rw [if_neg hend] at h
      by_cases hescape : c = '\\'
      · rw [if_pos hescape] at h
        cases s with
        | nil => cases h
        | cons e s =>
          rw [List.length_cons] at hn
          exact (ih s.length (by omega) h rfl).trans ((List.suffix_cons e s).trans (List.suffix_cons c _))
      · rw [if_neg hescape] at h
        exact (ih s.length (by omega) h rfl).trans (List.suffix_cons c s)

theorem address_left {s rest : List Char} (h : address s = some rest) : rest <:+ s := by
  have hflags : ∀ {d : Char} {t : List Char}, ((delimited d t).map fun s => s.dropWhile fun x => x = 'I' || x = 'M') = some rest →
      rest <:+ t := fun h => by
    obtain ⟨u, hu, rfl⟩ := Option.map_eq_some_iff.mp h
    exact (List.dropWhile_suffix _).trans (delimited_left hu)
  cases s with
  | nil =>
    rw [← Option.some_inj.mp h]
  | cons c s =>
    rw [address.eq_def] at h
    dsimp only at h
    by_cases hdigit : c.isDigit = true
    · rw [if_pos hdigit, Option.some_inj] at h
      rw [← h]
      exact List.dropWhile_suffix _
    rw [if_neg hdigit] at h
    by_cases hlast : c = '$'
    · rw [if_pos hlast, Option.some_inj] at h
      rw [← h]
      exact List.suffix_cons c s
    rw [if_neg hlast] at h
    by_cases hslash : c = '/'
    · rw [if_pos hslash] at h
      exact (hflags h).trans (List.suffix_cons c s)
    rw [if_neg hslash] at h
    by_cases hback : c = '\\'
    · rw [if_pos hback] at h
      cases s with
      | nil => cases h
      | cons d s => exact (hflags h).trans ((List.suffix_cons d s).trans (List.suffix_cons c _))
    · rw [if_neg hback, Option.some_inj] at h
      rw [← h]

theorem addresses_left {s rest : List Char} (h : addresses s = some rest) : rest <:+ s := by
  unfold addresses at h
  cases hfirst : address s with
  | none =>
    rw [hfirst] at h
    cases h
  | some t =>
    rw [hfirst] at h
    have hfirst := address_left hfirst
    obtain ⟨u, hu, rfl⟩ := Option.map_eq_some_iff.mp h
    refine (List.dropWhile_suffix _).trans (List.IsSuffix.trans ?_ hfirst)
    split at hu
    · refine (address_left hu).trans (List.IsSuffix.trans ?_ (List.suffix_cons ',' _))
      split
      · exact List.drop_suffix 1 _
      · exact List.suffix_refl _
    · rw [← Option.some_inj.mp hu]

theorem endCommand_left {s rest : List Char} (h : endCommand s = some rest) : rest <:+ s := by
  unfold endCommand at h
  dsimp only at h
  split at h
  · rw [← Option.some_inj.mp h]
    exact (List.dropWhile_suffix _).trans (List.dropWhile_suffix _)
  · cases h

theorem substitution_left {c : Char} {s rest : List Char} (h : substitution c s = some rest) : rest <:+ s := by
  cases s with
  | nil => cases h
  | cons d s =>
    rw [substitution.eq_def] at h
    dsimp only at h
    by_cases hd : d = '\\' ∨ d = '\n'
    · rw [if_pos hd] at h
      cases h
    · rw [if_neg hd] at h
      obtain ⟨t, ht, rfl⟩ := Option.map_eq_some_iff.mp h
      obtain ⟨u, hu, ht⟩ := Option.bind_eq_some_iff.mp ht
      have hsuffix := ((delimited_left ht).trans (delimited_left hu)).trans (List.suffix_cons d s)
      split
      · exact (List.dropWhile_suffix _).trans hsuffix
      · exact hsuffix

theorem sedCommand_left {s rest : List Char} (h : sedCommand s = some rest) : rest.length < s.length := by
  unfold sedCommand at h
  cases haddresses : addresses s with
  | none =>
    rw [haddresses] at h
    cases h
  | some t =>
    rw [haddresses] at h
    have hleft := (addresses_left haddresses).length_le
    cases t with
    | nil => cases h
    | cons c t =>
      have hrest : rest <:+ t := by
        dsimp only at h
        split at h
        · obtain ⟨u, hu, hend⟩ := Option.bind_eq_some_iff.mp h
          exact (endCommand_left hend).trans (substitution_left hu)
        · split at h
          · rw [← Option.some_inj.mp h]
            exact List.dropWhile_suffix _
          · split at h
            · exact endCommand_left h
            · cases h
      have := hrest.length_le
      rw [List.length_cons] at hleft
      omega

def sedCommands (s : List Char) : Bool :=
  if s = [] then true
  else
    match h : sedCommand s with
    | none => false
    | some rest => sedCommands rest
termination_by s.length
decreasing_by exact sedCommand_left h

def sedScriptReads (s : Word) : Bool := sedCommands (skipSeparators s)

/-- What a cluster of short options of sed holds: nothing of note, a script or the need for one, or something else. -/
inductive Cluster where
  | plain
  | script (text : List Char)
  | other

def sedCluster : List Char → Cluster
  | [] => .plain
  | c :: rest => if "nErsuz".toList.contains c then sedCluster rest else if c = 'e' then .script rest else .other

/-- The scripts and the operands of sed. -/
def sedArgs (scripts operands : List Word) : List Word → Option (List Word × List Word)
  | [] => some (scripts, operands)
  | a :: args =>
    if a = "--expression".toList then
      match args with
      | [] => none
      | script :: args => sedArgs (scripts ++ [script]) operands args
    else if "--expression=".toList.isPrefixOf a then sedArgs (scripts ++ [a.drop 13]) operands args
    else if among ["-l", "--line-length"] a then
      match args with
      | [] => some (scripts, operands)
      | _ :: args => sedArgs scripts operands args
    else if "--".toList.isPrefixOf a then if among sedLong a then sedArgs scripts operands args else none
    else if a.head? = some '-' ∧ a ≠ ['-'] then
      match sedCluster (a.drop 1) with
      | .plain => sedArgs scripts operands args
      | .other => none
      | .script (c :: text) => sedArgs (scripts ++ [c :: text]) operands args
      | .script [] =>
        match args with
        | [] => none
        | script :: args => sedArgs (scripts ++ [script]) operands args
    else sedArgs scripts (operands ++ [a]) args

def sedReads (args : List Word) : Bool :=
  match sedArgs [] [] args with
  | none => false
  | some ([], []) => false
  | some ([], operand :: _) => sedScriptReads operand
  | some (scripts, _) => scripts.all sedScriptReads

/-! ## Commands -/

def namesNothing (word : Word) : Bool := among keywords word || isAssignment word

theorem pastOptions_length (valued : Word → Bool) (skip : ℕ) (args : List Word) :
    (pastOptions valued skip args).length ≤ args.length := by
  induction args generalizing skip with
  | nil => cases skip <;> exact Nat.le_refl _
  | cons a args ih =>
    cases skip with
    | succ skip => exact Nat.le_succ_of_le (ih skip)
    | zero =>
      unfold pastOptions
      split
      · exact Nat.le_succ_of_le (ih _)
      · exact Nat.le_refl _

def wordsRead (all : List Word) : Bool :=
  match h : all.dropWhile namesNothing with
  | [] => true
  | prog :: args =>
    if among ["for"] prog then true
    else if among readers prog then true
    else if among ["sort"] prog then !args.any fun a => among ["-o"] a || "--output".toList.isPrefixOf a
    else if among ["find"] prog then !args.any (among findWriters)
    else if among ["git"] prog then gitReads args
    else if among ["sed"] prog then sedReads args
    else if among ["xargs"] prog then
      pastOptions (among xargsWithValue) 0 args = [] || wordsRead (pastOptions (among xargsWithValue) 0 args)
    else false
termination_by all.length
decreasing_by
  have hdrop := (List.dropWhile_sublist namesNothing (l := all)).length_le
  rw [h, List.length_cons] at hdrop
  have := pastOptions_length (among xargsWithValue) 0 args
  omega

def isReadOnlyCommand (command : List Char) : Bool :=
  match splitCommand command with
  | none => false
  | some parts => parts.all wordsRead

/-! ## What is taken for read-only -/

/-- A command is taken for read-only exactly if it is a row of words, blanks, separators and redirections that write no file,
without command or process substitution, and each of the commands in it reads. -/
theorem isReadOnlyCommand_iff (command : List Char) : isReadOnlyCommand command = true ↔
    ∃ ts, WellSpelt false [] ts ∧ command = spelt ts ∧ ∀ words ∈ commands [] ts, wordsRead words = true := by
  unfold isReadOnlyCommand
  constructor
  · intro h
    cases hsplit : splitCommand command with
    | none =>
      rw [hsplit] at h
      cases h
    | some parts =>
      rw [hsplit] at h
      obtain ⟨ts, hts, hcommand, rfl⟩ := (splitCommand_iff command parts).mp hsplit
      exact ⟨ts, hts, hcommand, List.all_eq_true.mp h⟩
  · rintro ⟨ts, hts, rfl, hread⟩
    rw [splitCommand_spelt hts]
    exact List.all_eq_true.mpr hread

/-! ## Commands after each other -/

/-- A text does not end in a backslash. -/
def Ended (text : List Char) : Prop := text.getLast? ≠ some '\\'

theorem ended_right {a b : List Char} (h : Ended (a ++ b)) : Ended b := by
  cases b with
  | nil => exact fun h => by cases h
  | cons c b =>
    unfold Ended at h
    rwa [List.getLast?_append_of_ne_nil _ (List.cons_ne_nil c b)] at h

theorem head_after {a : List Char} {c x : Char} (text : List Char) (hx : x ≠ c) (h : (a ++ c :: text).head? = some x) :
    a.head? = some x := by
  cases a with
  | nil => exact absurd (Option.some_inj.mp h).symm hx
  | cons d a => exact h

theorem wellPieced_after {ps : List Piece} {first : Bool} {after : List Char} {c : Char} (text : List Char) (hc : c ≠ '(' ∧ c ≠ '>')
    (hend : Ended (ps.flatMap Piece.text ++ after)) (h : WellPieced first after ps) : WellPieced first (after ++ c :: text) ps := by
  induction ps generalizing first with
  | nil => trivial
  | cons p ps ih =>
    obtain ⟨hp, hrest⟩ := h
    rw [List.flatMap_cons, List.append_assoc] at hend
    refine ⟨?_, ih (ended_right hend) hrest⟩
    rw [← List.append_assoc]
    cases p with
    | bare d =>
      obtain ⟨hspecial, hdollar, hless, hdigit⟩ := hp
      have hparen := head_after (a := ps.flatMap Piece.text ++ after) text (Ne.symm hc.1)
      have hgreater := head_after (a := ps.flatMap Piece.text ++ after) text (Ne.symm hc.2)
      exact ⟨hspecial, fun h => hdollar ⟨h.1, hparen h.2⟩, fun h => hless ⟨h.1, hparen h.2⟩,
        fun h => hdigit ⟨h.1, h.2.1, hgreater h.2.2⟩⟩
    | escaped d => trivial
    | single body => exact hp
    | double body => exact hp
    | dangling =>
      have hp : ps.flatMap Piece.text ++ after = [] := hp
      rw [hp] at hend
      exact absurd rfl hend

/-- What is well spelt to its end stays so before a separator. -/
theorem wellSpelt_before {ts : List Token} {inWord : Bool} {c : Char} (text : List Char) (hc : c ∈ separators)
    (hopen : c ≠ '(') (hend : Ended (spelt ts)) (h : WellSpelt inWord [] ts) : WellSpelt inWord (c :: text) ts := by
  have hgreater : c ≠ '>' := (separator_not hc).2.2.2.2.2.2.2.1
  induction ts generalizing inWord with
  | nil => trivial
  | cons t ts ih =>
    have hsplit : spelt (t :: ts) = t.text ++ spelt ts := by
      unfold spelt
      rw [List.flatMap_cons]
    rw [hsplit] at hend
    have hrest : ∀ {inWord : Bool}, WellSpelt inWord [] ts → WellSpelt inWord (c :: text) ts := ih (ended_right hend)
    cases t with
    | word pieces =>
      obtain ⟨hword, hne, hpieces, hts⟩ := h
      rw [List.append_nil] at hpieces
      exact ⟨hword, hne, wellPieced_after text ⟨hopen, hgreater⟩ hend hpieces, hrest hts⟩
    | blank d => exact ⟨h.1, hrest h.2⟩
    | separator d =>
      refine ⟨h.1, fun hand => h.2.1 ⟨hand.1, hand.2.1, ?_⟩, hrest h.2.2⟩
      rw [List.append_nil]
      exact head_after text (Ne.symm hgreater) hand.2.2
    | redirect fd target => exact ⟨h.1, h.2.1, hrest h.2.2⟩

/-- From a state outside quotes and words, the scanner finds the commands that `splitCommand` finds. -/
theorem scan_from {s : Scan} (hs : s = ⟨s.parts, [], [], false, .bare⟩) (b : List Char) :
    ((scan 0 s b).bind fun t => if t.quote = .bare then some t.endPart.parts else none) =
      (splitCommand b).map fun parts => s.parts ++ parts := by
  have hquote : s.quote = .bare := by rw [hs]
  have hword : s.inWord = false := by rw [hs]
  have hnone : s.endWord.words = [] := by
    rw [hs]
    rfl
  have hclean : s.Clean := fun _ => by rw [hs]
  have hspelt : ∀ ts, WellSpelt false [] ts → ((scan 0 s (spelt ts)).bind fun t => if t.quote = .bare then some t.endPart.parts else none) =
      some (s.parts ++ commands [] ts) := fun ts hts => by
    have hts : WellSpelt s.inWord [] ts := by rwa [hword]
    have hscan := scan_spelt hquote hts
    obtain ⟨hparts, hbare⟩ := tokens_parts hclean hts
    rw [List.append_nil] at hscan
    rw [hscan]
    change (if (ts.foldl Scan.token s).quote = .bare then _ else _) = _
    rw [if_pos (hbare hquote), hparts, hnone]
  cases hsplit : splitCommand b with
  | some parts =>
    obtain ⟨ts, hts, rfl, rfl⟩ := (splitCommand_iff b parts).mp hsplit
    exact hspelt ts hts
  | none =>
    rw [Option.map_none, Option.bind_eq_none_iff]
    intro t hscan
    split
    · rename_i hbare
      obtain ⟨ps, ts, htext, -, hts, hps⟩ := scan_reads hquote hscan hbare
      rw [hword] at hts
      rw [hps hword, List.flatMap_nil, List.nil_append] at htext
      rw [htext, splitCommand_spelt hts] at hsplit
      cases hsplit
    · rfl

theorem splitCommand_join {a : List Char} {parts : List (List Word)} (ha : splitCommand a = some parts) (hend : Ended a) {c : Char}
    (hc : c ∈ separators) (hopen : c ≠ '(') {b : List Char} (hand : c = '&' → b.head? ≠ some '>') :
    splitCommand (a ++ c :: b) = (splitCommand b).map fun more => parts ++ more := by
  obtain ⟨ts, hts, rfl, rfl⟩ := (splitCommand_iff a parts).mp ha
  obtain ⟨hparts, hquote⟩ := tokens_parts (s := .start) (fun _ => rfl) hts
  have hbare := hquote rfl
  have hscan := scan_spelt (s := .start) rfl (wellSpelt_before b hc hopen hend hts)
  rw [scan_separator hbare hc fun h => hand h.1 h.2.2] at hscan
  have hfrom := scan_from (s := (ts.foldl Scan.token .start).endPart) (by
    change Scan.mk _ _ _ _ (ts.foldl Scan.token .start).quote = _
    rw [hbare]
    rfl) b
  rw [← hscan, hparts] at hfrom
  refine Eq.trans ?_ hfrom
  unfold splitCommand
  cases scan 0 .start (spelt ts ++ c :: b) <;> rfl

/-- `shellQuote` of `_ptyExec.ts`: single quotes, each quote in the text outside of them. -/
def shellQuote (text : Word) : List Char :=
  '\'' :: (text.flatMap fun c => if c = '\'' then ['\'', '\\', '\'', '\''] else [c]) ++ ['\'']

/-- The pieces of a quoted word; `body` is the start of the first of them. -/
def quotedPieces (body : List Char) : Word → List Piece
  | [] => [.single body]
  | c :: text => if c = '\'' then .single body :: .escaped '\'' :: quotedPieces [] text else quotedPieces (body ++ [c]) text

theorem quotedPieces_text (body text : List Char) : (quotedPieces body text).flatMap Piece.text =
    '\'' :: body ++ (text.flatMap fun c => if c = '\'' then ['\'', '\\', '\'', '\''] else [c]) ++ ['\''] := by
  induction text generalizing body with
  | nil => simp [quotedPieces, Piece.text]
  | cons c text ih =>
    unfold quotedPieces
    split
    · rename_i hc
      rw [List.flatMap_cons, List.flatMap_cons, ih, List.flatMap_cons, if_pos hc]
      simp [Piece.text]
    · rename_i hc
      rw [ih, List.flatMap_cons, if_neg hc]
      simp

theorem quotedPieces_value (body text : List Char) : (quotedPieces body text).flatMap Piece.value = body ++ text := by
  induction text generalizing body with
  | nil => simp [quotedPieces, Piece.value]
  | cons c text ih =>
    unfold quotedPieces
    split
    · rename_i hc
      rw [List.flatMap_cons, List.flatMap_cons, ih, hc]
      simp [Piece.value]
    · rw [ih]
      simp

theorem quotedPieces_well {body : List Char} (hbody : '\'' ∉ body) (text after : List Char) (first : Bool) :
    WellPieced first after (quotedPieces body text) ∧ quotedPieces body text ≠ [] := by
  induction text generalizing body first with
  | nil => exact ⟨⟨hbody, trivial⟩, List.cons_ne_nil _ _⟩
  | cons c text ih =>
    unfold quotedPieces
    split
    · exact ⟨⟨hbody, trivial, (ih List.not_mem_nil false).1⟩, List.cons_ne_nil _ _⟩
    · rename_i hc
      refine ih (fun hin => ?_) first
      rcases List.mem_append.mp hin with hin | hin
      · exact hbody hin
      · exact hc (List.mem_singleton.mp hin).symm

/-- The words of a command, quoted and a blank before each. -/
def quotedWords (words : List Word) : List Token := words.flatMap fun word => [.blank ' ', .word (quotedPieces [] word)]

/-- Commands, each of quoted words, with a separator after each. -/
def quotedCommands (separator : Char) (parts : List (List Word)) : List Token :=
  parts.flatMap fun words => quotedWords words ++ [.separator separator]

def quotedLine (separator : Char) (parts : List (List Word)) : List Char :=
  parts.flatMap fun words => (words.flatMap fun word => ' ' :: shellQuote word) ++ [separator]

theorem spelt_append (ts us : List Token) : spelt (ts ++ us) = spelt ts ++ spelt us := by
  simp [spelt]

theorem quotedWords_spelt (words : List Word) : spelt (quotedWords words) = words.flatMap fun word => ' ' :: shellQuote word := by
  induction words with
  | nil => rfl
  | cons word words ih =>
    have hword : spelt [.blank ' ', .word (quotedPieces [] word)] = ' ' :: shellQuote word := by
      have htext := quotedPieces_text [] word
      simp only [spelt, Token.text, List.flatMap_cons, List.flatMap_nil, List.append_nil, htext]
      rfl
    change spelt ([.blank ' ', .word (quotedPieces [] word)] ++ quotedWords words) = _
    rw [spelt_append, ih, hword, List.flatMap_cons]

theorem quotedCommands_spelt (separator : Char) (parts : List (List Word)) :
    spelt (quotedCommands separator parts) = quotedLine separator parts := by
  induction parts with
  | nil => rfl
  | cons words parts ih =>
    change spelt ((quotedWords words ++ [.separator separator]) ++ quotedCommands separator parts) = _
    rw [spelt_append, spelt_append, ih, quotedWords_spelt]
    rfl

theorem commands_quotedWords (before words : List Word) (ts : List Token) :
    commands before (quotedWords words ++ ts) = commands (before ++ words) ts := by
  induction words generalizing before with
  | nil => simp [quotedWords]
  | cons word words ih =>
    have hvalue := quotedPieces_value [] word
    rw [List.nil_append] at hvalue
    change commands (before ++ [(quotedPieces [] word).flatMap Piece.value]) (quotedWords words ++ ts) = _
    rw [hvalue, ih]
    simp

theorem quotedWords_well {inWord : Bool} {after : List Char} {ts : List Token} (words : List Word)
    (h : ∀ inWord, WellSpelt inWord after ts) : WellSpelt inWord after (quotedWords words ++ ts) := by
  induction words generalizing inWord with
  | nil => exact h inWord
  | cons word words ih =>
    obtain ⟨hpieces, hne⟩ := quotedPieces_well List.not_mem_nil word (spelt (quotedWords words ++ ts) ++ after) true
    exact ⟨Or.inl rfl, rfl, hne, hpieces, ih⟩

theorem quotedCommands_well {separator : Char} (hc : separator ∈ separators) {parts : List (List Word)} (h : ∀ words ∈ parts, words ≠ []) :
    WellSpelt false [] (quotedCommands separator parts) ∧ (spelt (quotedCommands separator parts)).head? ≠ some '>' := by
  induction parts with
  | nil => exact ⟨trivial, fun h => by cases h⟩
  | cons words parts ih =>
    obtain ⟨hrest, hhead⟩ := ih fun words hin => h words (List.mem_cons_of_mem _ hin)
    obtain ⟨word, more, rfl⟩ := List.exists_cons_of_ne_nil (h words (List.mem_cons.mpr (Or.inl rfl)))
    change WellSpelt false [] ((quotedWords (word :: more) ++ [.separator separator]) ++ quotedCommands separator parts) ∧ _
    rw [List.append_assoc]
    refine ⟨quotedWords_well _ fun inWord => ⟨hc, fun hand => hhead ?_, hrest⟩, fun h => ?_⟩
    · rw [← hand.2.2, List.append_nil]
      rfl
    · exact absurd (Option.some_inj.mp h) (by decide)

theorem commands_quoted {separator : Char} {parts : List (List Word)} (h : ∀ words ∈ parts, words ≠ []) :
    commands [] (quotedCommands separator parts) = parts := by
  induction parts with
  | nil => rfl
  | cons words parts ih =>
    have hwords := h words (List.mem_cons.mpr (Or.inl rfl))
    have hrest := ih fun words hin => h words (List.mem_cons_of_mem _ hin)
    change commands [] ((quotedWords words ++ [.separator separator]) ++ quotedCommands separator parts) = _
    rw [List.append_assoc, commands_quotedWords, List.nil_append]
    change (if words = [] then [] else [words]) ++ commands [] (quotedCommands separator parts) = _
    rw [if_neg hwords, hrest]
    rfl

/-- Whatever their words hold, commands of quoted words are split into exactly these commands: nothing in a word is taken for
more than text. -/
theorem quoted_commands_read (separator : Char) (hc : separator ∈ separators) (parts : List (List Word))
    (h : ∀ words ∈ parts, words ≠ []) : splitCommand (quotedLine separator parts) = some parts ∧
      isReadOnlyCommand (quotedLine separator parts) = parts.all wordsRead := by
  have hsplit : splitCommand (quotedLine separator parts) = some parts := by
    rw [← quotedCommands_spelt, splitCommand_spelt (quotedCommands_well hc h).1, commands_quoted h]
  refine ⟨hsplit, ?_⟩
  unfold isReadOnlyCommand
  rw [hsplit]

theorem quoted_commands_read_sample :
    splitCommand (quotedLine ';' [["ls".toList, "it's; rm `x` > y".toList], ["pwd".toList]]) =
      some [["ls".toList, "it's; rm `x` > y".toList], ["pwd".toList]] :=
  (quoted_commands_read ';' (by decide) _ (by simp)).1

end Haruspex.ReadOnlyCommand
