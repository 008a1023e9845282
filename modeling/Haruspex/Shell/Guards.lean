import Haruspex.Shell.LoopbackPorts

/-! What the check of a command guards, and what slips through. -/
namespace Haruspex.Shell
open JavaScript (isBlank)
set_option autoImplicit false

/-! ## The reasons -/

section
variable (tables : CaseTables)

theorem touches_inj {label label' : List Char} (h : touches label = touches label') : label = label' :=
  List.append_cancel_left h

theorem touches_ne_calls (label label' : List Char) (port : ℕ) : touches label ≠ calls label' port := by
  intro h
  have hhead := congrArg List.head? h
  simp [touches, calls] at hhead

theorem calls_inj {label label' : List Char} {port port' : ℕ} (h : calls label port = calls label' port') :
    label = label' ∧ port = port' := by
  have hdigits : ∀ (front : List Char) (n : ℕ),
      ((front ++ [' ', '(', 'p', 'o', 'r', 't', ' '] ++ Nat.toDigits 10 n).reverse).takeWhile Char.isDigit =
        (Nat.toDigits 10 n).reverse := by
    intro front n
    have hall : ∀ c ∈ (Nat.toDigits 10 n).reverse, c.isDigit = true := fun c hc =>
      Nat.isDigit_of_mem_toDigits (by decide) (by decide) (List.mem_reverse.mp hc)
    rw [List.reverse_append, List.takeWhile_append_of_pos hall, List.reverse_append]
    simp
  have hcut := List.append_cancel_right h
  have hrev := (hdigits _ port).symm.trans ((congrArg (fun cs => cs.reverse.takeWhile Char.isDigit) hcut).trans (hdigits _ port'))
  have hport : port = port' := by
    have hof := congrArg (fun cs => Nat.ofDigitChars 10 cs.reverse 0) hrev
    simpa [Nat.ofDigitChars_ten_toDigits] using hof
  subst hport
  exact ⟨List.append_cancel_left (List.append_cancel_right (List.append_cancel_right hcut)), rfl⟩

variable {command : List Char} {targets : ProtectedTargets} {root : Option (List Char)}

theorem mem_reasons (reason : List Char) : reason ∈ (checkBoundary tables command targets root).reasons ↔
    (∃ target, Guarded tables targets root target ∧ Stands tables command targets.home target ∧ touches target.label = reason) ∨
    ∃ port ∈ loopbackPorts false command, ∃ label, labelOf targets.ports port = some label ∧ label ≠ [] ∧ calls label port = reason := by
  have hfinds : ∀ target : ProtectedPath, findsPath (guardPath tables root target).p
      (haystack tables command targets.home (guardPath tables root target).windows) = true ↔
        Stands tables command targets.home target := by
    intro target
    obtain ⟨name, hname⟩ := foldCase_dir tables (isWindowsPath (dirPath target.path)) target.path
    change findsPath (foldCase tables (isWindowsPath (dirPath target.path)) (dirPath target.path)) _ = true ↔ _
    rw [Stands, hname, findsPath_iff, List.dropLast_concat]
    rfl
  simp only [checkBoundary, List.mem_eraseDups, List.mem_append, List.mem_map, List.mem_filter, List.mem_filterMap,
    Bool.and_eq_true, Bool.not_eq_true', Option.map_eq_some_iff, Option.filter_eq_some_iff, decide_eq_true_eq]
  refine or_congr ?_ ?_
  · constructor
    · rintro ⟨g, ⟨⟨target, htarget, rfl⟩, hexempt, hfound⟩, rfl⟩
      exact ⟨target, ⟨htarget, hexempt⟩, (hfinds target).mp hfound, rfl⟩
    · rintro ⟨target, ⟨htarget, hexempt⟩, hstands, rfl⟩
      exact ⟨guardPath tables root target, ⟨⟨target, htarget, rfl⟩, hexempt, (hfinds target).mpr hstands⟩, rfl⟩
  · constructor
    · rintro ⟨port, hport, label, ⟨hlabel, hne⟩, rfl⟩
      exact ⟨port, hport, label, hlabel, hne, rfl⟩
    · rintro ⟨port, hport, label, hlabel, hne, rfl⟩
      exact ⟨port, hport, label, ⟨hlabel, hne⟩, rfl⟩

theorem reports_iff (reason : List Char) : Reports (checkBoundary tables command targets root) reason ↔
    reason ∈ (checkBoundary tables command targets root).reasons := by
  refine ⟨fun h => h.2, fun h => ⟨?_, h⟩⟩
  exact decide_eq_true (List.ne_nil_of_mem h)

theorem reports_touches (label : List Char) : Reports (checkBoundary tables command targets root) (touches label) ↔
    ∃ target, Guarded tables targets root target ∧ target.label = label ∧ Stands tables command targets.home target := by
  rw [reports_iff, mem_reasons]
  constructor
  · rintro (⟨target, hguarded, hstands, heq⟩ | ⟨port, -, label', -, -, heq⟩)
    · exact ⟨target, hguarded, touches_inj heq, hstands⟩
    · exact absurd heq.symm (touches_ne_calls _ _ _)
  · rintro ⟨target, hguarded, rfl, hstands⟩
    exact Or.inl ⟨target, hguarded, hstands, rfl⟩

theorem labelOf_some {ports : List ProtectedPort} {port : ℕ} {label : List Char} (h : labelOf ports port = some label) :
    ∃ q ∈ ports, q.port = port ∧ q.label = label := by
  obtain ⟨q, hq, rfl⟩ := Option.map_eq_some_iff.mp h
  exact ⟨q, List.mem_reverse.mp (List.mem_of_find?_eq_some hq), by simpa using List.find?_some hq, rfl⟩

theorem reports_calls {q : ProtectedPort} (hq : q ∈ targets.ports) :
    (∃ q' ∈ targets.ports, q'.port = q.port ∧ Reports (checkBoundary tables command targets root) (calls q'.label q.port)) ↔
      q.port ∈ loopbackPorts false command ∧ labelOf targets.ports q.port ≠ some [] := by
  constructor
  · rintro ⟨q', -, -, hreports⟩
    rw [reports_iff, mem_reasons] at hreports
    obtain ⟨target, -, -, heq⟩ | ⟨port, hport, label, hlabel, hne, heq⟩ := hreports
    · exact absurd heq (touches_ne_calls _ _ _)
    · obtain ⟨-, rfl⟩ := calls_inj heq
      rw [hlabel]
      exact ⟨hport, fun hnil => hne (Option.some_inj.mp hnil)⟩
  · rintro ⟨hport, hlabel⟩
    cases hof : labelOf targets.ports q.port with
    | none =>
      rw [labelOf, Option.map_eq_none_iff, List.find?_eq_none] at hof
      exact absurd (by simp) (hof q (List.mem_reverse.mpr hq))
    | some label =>
      obtain ⟨q', hq', hport', rfl⟩ := labelOf_some hof
      refine ⟨q', hq', hport', (reports_iff tables _).mpr ((mem_reasons tables _).mpr (Or.inr ⟨_, hport, _, hof, ?_, rfl⟩))⟩
      rintro hnil
      rw [hof, hnil] at hlabel
      exact hlabel rfl

/-- The check guards what stands in the expanded command and what the search for ports comes upon. -/
theorem guards_iff_shown : Guards tables command targets root ↔ Shown tables command targets root := by
  constructor
  · intro h
    exact ⟨fun target hguarded hnamed => (reports_touches tables _).mp (h.named target hguarded hnamed),
      fun q hq hcalled => (reports_calls tables hq).mp (h.called q hq hcalled)⟩
  · intro h
    exact ⟨fun target hguarded hnamed => (reports_touches tables _).mpr (h.named target hguarded hnamed),
      fun label hreports => (reports_touches tables _).mp hreports,
      fun q hq hcalled => (reports_calls tables hq).mpr (h.called q hq hcalled)⟩

end

/-! ## What is guarded -/

section
variable (tables : CaseTables)

/-- Each directory and each port is named somewhere in a way the check sees. -/
structure PlainlyNamed (command : List Char) (targets : ProtectedTargets) (root : Option (List Char)) : Prop where
  named : ∀ target, Guarded tables targets root target → Named tables command targets.home target.path →
    ∃ before word after name tail, WordAt command before word after ∧
      Names tables targets.home target.path word name tail ∧ Seen targets.home target.path before word after name tail
  called : ∀ q ∈ targets.ports, Called command q.port → 10 ≤ q.port ∧ q.port < 100000 ∧
    labelOf targets.ports q.port ≠ some [] ∧
    ∃ before host sep after, PortAt command before host sep q.port after ∧ ¬ Swallowed before host

variable {tables} {command : List Char} {targets : ProtectedTargets} {root : Option (List Char)}

theorem PlainlyNamed.shown (h : PlainlyNamed tables command targets root) : Shown tables command targets root where
  named target hguarded hnamed := by
    obtain ⟨before, word, after, name, tail, hword, hnames, hseen⟩ := h.named target hguarded hnamed
    exact ⟨target, hguarded, rfl, stands_of_seen tables hword hnames hseen⟩
  called q hq hcalled := by
    obtain ⟨hlo, hhi, hlabel, before, host, sep, after, hport, hswallowed⟩ := h.called q hq hcalled
    exact ⟨hport.mem_loopbackPorts hlo hhi hswallowed, hlabel⟩

end

/-- The application's own places: a data directory in the home directory, and a model server. -/
def ownTargets : ProtectedTargets where
  home := ['/', 'h']
  paths := [⟨['/', 'h', '/', 'd', '/'], ['d', 'a', 't', 'a']⟩]
  ports := [⟨8765, ['c', 'h', 'a', 't']⟩]

theorem wordAt_of {command before word after : List Char} (htext : command = before ++ word ++ after)
    (hplain : word.any isDelimiter = false) (hne : word ≠ []) (hfront : before.getLast?.all isDelimiter = true)
    (hback : after.head?.all isDelimiter = true) : WordAt command before word after :=
  ⟨htext, by simpa using hplain, hne, by simpa [Option.all_eq_true] using hfront, by simpa [Option.all_eq_true] using hback⟩

/-- `cat ~/d/x` -/
def readHome : List Char := ['c', 'a', 't', ' ', '~', '/', 'd', '/', 'x']

/-- `ls /h/d;ls` -/
def listThenList : List Char := ['l', 's', ' ', '/', 'h', '/', 'd', ';', 'l', 's']

/-- `cat <~/d/x` -/
def redirect : List Char := ['c', 'a', 't', ' ', '<', '~', '/', 'd', '/', 'x']

/-- `nc localhost 127.0.0.1:8765` -/
def twoAddresses : List Char :=
  ['n', 'c', ' '] ++ localhost ++ [' '] ++ loopbackAddress ++ [':', '8', '7', '6', '5']

/-- A word that names a directory, and a text it does not stand in. -/
theorem not_guards {tables : CaseTables} {command : List Char} {target : ProtectedPath}
    (hguarded : Guarded tables ownTargets none target)
    (hnamed : Named tables command ownTargets.home target.path)
    (hpaths : ownTargets.paths = [target]) (hwindows : isWindowsPath (dirPath target.path) = false)
    (hfound : findsPath (dirPath target.path) (slashes (expandHome command ownTargets.home)) = false) :
    ¬ Guards tables command ownTargets none := by
  intro h
  obtain ⟨other, hother, -, front, back, htext, hends⟩ := ((guards_iff_shown tables).mp h).named target hguarded hnamed
  have heq : other = target := by
    have hmem := hother.1
    rwa [hpaths, List.mem_singleton] at hmem
  rw [heq, haystack, hwindows] at htext
  have hfinds := (findsPath_iff (bareDir target.path) (slashes (expandHome command ownTargets.home))).mpr
    ⟨front, back, by simpa [foldCase, dirPath_eq] using htext, hends⟩
  rw [← dirPath_eq, hfound] at hfinds
  cases hfinds

end Haruspex.Shell
