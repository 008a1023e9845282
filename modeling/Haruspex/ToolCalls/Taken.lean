import Haruspex.ToolCalls.Readings
import Mathlib.Data.List.Forall2

/-! The calls that are run are those the response makes: each once, in order, with its arguments. -/
namespace Haruspex.ToolCalls
open JavaScript
set_option autoImplicit false

/-! ## Unwrapping -/

/-- The call that is run for a call of the response: for a `use_tool` call that names a tool, that tool
with the arguments inside, and beside them what they do not say. -/
structure Takes (offers : Bool) (raw call : ResolvedToolCall) : Prop where
  id : call.id = raw.id
  whole : (offers = false ∨ isNamed raw.name USE_TOOL = false ∨ innerName raw.arguments = none) →
    call = raw
  inner : ∀ name, offers = true → isNamed raw.name USE_TOOL = true →
    innerName raw.arguments = some name →
      call.name = .string name ∧
        call.wire = some ⟨raw.name, raw.arguments⟩ ∧
        ∀ key, call.arguments.field? key =
          ((Json.object (innerArguments (raw.arguments.field? "arguments"))).field? key).or
            (if key = "name" ∨ key = "arguments" then none else raw.arguments.field? key)

theorem field?_object_append (before after : List (String × Json)) (key : String) :
    (Json.object (before ++ after)).field? key =
      ((Json.object after).field? key).or ((Json.object before).field? key) := by
  simp only [Json.field?, List.reverse_append, List.find?_append]
  cases List.find? (fun f => decide (f.1 = key)) after.reverse with
  | some field => rfl
  | none => rfl

theorem field?_filter (fields : List (String × Json)) (keep : String → Bool) (key : String) :
    (Json.object (fields.filter (fun field => keep field.1))).field? key =
      if keep key then (Json.object fields).field? key else none := by
  simp only [Json.field?, ← List.filter_reverse, List.find?_filter]
  split
  · rename_i hkeep
    congr 2
    funext field
    by_cases hkey : field.1 = key
    · simp [hkey, hkeep]
    · simp [hkey]
  · rename_i hkeep
    rw [Option.map_eq_none_iff, List.find?_eq_none]
    intro field hfield
    by_cases hkey : field.1 = key
    · simp [hkey, hkeep]
    · simp [hkey]

theorem field?_fieldsOf (value : Json) (key : String) :
    (Json.object (fieldsOf value)).field? key = value.field? key := by
  cases value with
  | object fields => rfl
  | _ => rfl

theorem unwrapUseTool_takes {raw call : ResolvedToolCall} (h : unwrapUseTool raw = .ok call) :
    Takes true raw call := by
  unfold unwrapUseTool at h
  split at h
  · rename_i hnamed
    split at h
    · cases h
    · split at h
      · rename_i hnone
        cases h
        exact ⟨rfl, fun _ => rfl, fun name _ _ hsome => by rw [hnone] at hsome; cases hsome⟩
      · rename_i name hname
        cases h
        refine ⟨rfl, ?_, ?_⟩
        · intro hwhole
          simp [hnamed, hname] at hwhole
        · intro name' _ _ hname'
          rw [hname] at hname'
          cases hname'
          refine ⟨rfl, rfl, fun key => ?_⟩
          rw [field?_object_append,
            field?_filter _ (fun name => decide (name ≠ "name") && decide (name ≠ "arguments")),
            field?_fieldsOf]
          by_cases hkey : key = "name" ∨ key = "arguments"
          · rw [if_pos hkey, if_neg (by simp; tauto)]
          · rw [if_neg hkey, if_pos (by simp; tauto)]
  · rename_i hnamed
    cases h
    exact ⟨rfl, fun _ => rfl, fun name _ hnamed' => absurd hnamed' hnamed⟩

theorem takes_self (raw : ResolvedToolCall) : Takes false raw raw :=
  ⟨rfl, fun _ => rfl, fun _ h => nomatch h⟩

theorem mapM_unwrapUseTool {raw calls : List ResolvedToolCall}
    (h : raw.mapM unwrapUseTool = .ok calls) : List.Forall₂ (Takes true) raw calls := by
  induction raw generalizing calls with
  | nil =>
    cases h
    exact .nil
  | cons first raw ih =>
    rw [List.mapM_cons] at h
    cases hfirst : unwrapUseTool first with
    | error e =>
      rw [hfirst] at h
      cases h
    | ok call =>
      cases hrest : raw.mapM unwrapUseTool with
      | error e =>
        rw [hfirst, hrest] at h
        cases h
      | ok rest =>
        rw [hfirst, hrest] at h
        cases h
        exact .cons (unwrapUseTool_takes hfirst) (ih hrest)

/-- Unwrapping fails on arguments that are `null`. -/
theorem mapM_unwrapUseTool_error {raw : List ResolvedToolCall} {e : Thrown}
    (h : raw.mapM unwrapUseTool = .error e) : ∃ call ∈ raw, call.arguments = .null := by
  induction raw with
  | nil => cases h
  | cons first raw ih =>
    cases hfirst : unwrapUseTool first with
    | error e =>
      refine ⟨first, List.mem_cons_self, ?_⟩
      unfold unwrapUseTool at hfirst
      split at hfirst
      · split at hfirst
        · assumption
        · split at hfirst
          · cases hfirst
          · cases hfirst
      · cases hfirst
    | ok call =>
      cases hrest : raw.mapM unwrapUseTool with
      | error e =>
        obtain ⟨other, hmem, hnull⟩ := ih hrest
        exact ⟨other, List.mem_cons_of_mem first hmem, hnull⟩
      | ok rest =>
        rw [List.mapM_cons, hfirst, hrest] at h
        cases h

/-! ## Where the calls come from -/

/-- The entry is the call. -/
def Reads (entry : StructuredCall) (raw : ResolvedToolCall) : Prop := readEntry entry = some raw

/-- The calls of a response, before they are unwrapped. -/
inductive Source (seq : ℕ) (response : ChatCompletionResponse) : List ResolvedToolCall → Prop where
  /-- The entries that can be read, and of a generation cut off all of them. -/
  | structured {raw : List ResolvedToolCall} (hraw : raw = response.toolCalls.filterMap readEntry)
      (hsome : raw ≠ [])
      (hcut : wasTruncated response = true → List.Forall₂ Reads response.toolCalls raw) :
      Source seq response raw
  /-- The bodies of the tagged blocks that can be read, and never one that repeats a parameter. -/
  | tagged {content : String} {outside bodies : List (List Char)} {calls : List ParsedToolCall}
      (hnone : ∀ entry ∈ response.toolCalls, readEntry entry = none)
      (hwhole : wasTruncated response = false)
      (hcontent : response.content = some content) (hread : Tagged content.toList outside bodies)
      (hsome : calls ≠ [])
      (hrun : ∀ call ∈ calls, ∃ body ∈ bodies, ¬ BodyRepeats body ∧ call ∈ bodyCalls body)
      (hall : (∀ body ∈ bodies, ¬ BodyRepeats body) → (∀ text ∈ outside, functionBlocks text = []) →
        calls = bodies.flatMap bodyCalls) :
      Source seq response (mint seq calls)
  /-- All function blocks, where no tagged block is JSON and none repeats a parameter. -/
  | written {content : String} {outside bodies : List (List Char)}
      (hnone : ∀ entry ∈ response.toolCalls, readEntry entry = none)
      (hwhole : wasTruncated response = false)
      (hcontent : response.content = some content) (hread : Tagged content.toList outside bodies)
      (hbodies : ∀ body ∈ bodies, readJsonCall (trimChars body) = none)
      (hrepeats : ∀ block ∈ functionBlocks content.toList, ¬ block.Repeats) :
      Source seq response (mint seq ((functionBlocks content.toList).map FunctionBlock.call))

/-- The model wrote something for a call. -/
def Attempted (response : ChatCompletionResponse) : Prop :=
  response.toolCalls ≠ [] ∨
    ∃ content, response.content = some content ∧ hasAnyToolCallSyntax content.toList = true

/-- Nothing in the response can be read as a call. -/
structure NoCall (response : ChatCompletionResponse) : Prop where
  entries : ∀ entry ∈ response.toolCalls, readEntry entry = none
  text : ∀ content, response.content = some content →
    hasFunctionStyleToolCalls content.toList = false ∧
      ∃ outside bodies, Tagged content.toList outside bodies ∧
        ∀ body ∈ bodies, readJsonCall (trimChars body) = none

/-- What a resolution says of the response it is for. -/
def Resolves (takes : ResolvedToolCall → ResolvedToolCall → Prop) (seq : ℕ)
    (response : ChatCompletionResponse) : Except Thrown ToolCallResolution → Prop
  | .ok (.calls calls) => ∃ raw, Source seq response raw ∧ List.Forall₂ takes raw calls
  | .ok (.rejected _) => Attempted response
  | .ok .none => NoCall response
  | .error _ => ∃ entry ∈ response.toolCalls, readArguments entry.arguments = some .null

/-! ## The text -/

theorem extractToolCalls_run {content : List Char} {call : ParsedToolCall}
    (h : call ∈ extractToolCalls content) :
    ∃ body ∈ toolCallPattern.all content, ¬ BodyRepeats body ∧ call ∈ bodyCalls body := by
  obtain ⟨body, hbody, hcall⟩ := List.mem_flatMap.mp h
  have hrepeats : ¬ BodyRepeats body := by
    intro hrepeats
    rw [callsOfBody_nil hrepeats] at hcall
    exact nomatch hcall
  exact ⟨body, hbody, hrepeats, callsOfBody_eq hrepeats ▸ hcall⟩

theorem extractToolCalls_all {content : List Char}
    (h : ∀ body ∈ toolCallPattern.all content, ¬ BodyRepeats body) :
    extractToolCalls content = (toolCallPattern.all content).flatMap bodyCalls :=
  List.flatMap_congr fun body hbody => callsOfBody_eq (h body hbody)

theorem no_json_of_extractToolCalls {content : List Char} (h : extractToolCalls content = []) :
    ∀ body ∈ toolCallPattern.all content, readJsonCall (trimChars body) = none := by
  intro body hbody
  have hnone : callsOfBody body = [] := List.flatMap_eq_nil_iff.mp h body hbody
  cases hjson : readJsonCall (trimChars body) with
  | none => rfl
  | some call =>
    simp only [callsOfBody, hjson] at hnone
    cases hnone

/-- Without a tag nothing would be extracted. -/
theorem tagged_eq (content : List Char) :
    (if hasToolCalls content then extractToolCalls content else []) = extractToolCalls content := by
  split
  · rfl
  · rename_i htag
    rw [extractToolCalls, toolCalls_nil_of_hasToolCalls (by simpa using htag)]
    rfl

theorem resolveText_resolves {seq : ℕ} {response : ChatCompletionResponse} {content : String}
    (hcontent : response.content = some content)
    (hnone : ∀ entry ∈ response.toolCalls, readEntry entry = none) :
    Resolves Eq seq response (.ok (resolveText seq response content.toList).1) := by
  obtain ⟨outside, hread⟩ := tagged_all content.toList
  unfold resolveText
  rw [tagged_eq]
  split
  · rename_i hsyntax
    rw [Bool.and_eq_true] at hsyntax
    exact Or.inr ⟨content, hcontent, hsyntax.2⟩
  · rename_i hsyntax
    have hwhole (h : hasAnyToolCallSyntax content.toList = true) : wasTruncated response = false := by
      simpa [h] using hsyntax
    dsimp only
    split
    · rename_i hsome
      have htag : hasToolCalls content.toList = true := by
        by_contra htag
        rw [extractToolCalls, toolCalls_nil_of_hasToolCalls (by simpa using htag)] at hsome
        exact absurd hsome (by simp)
      have hwhole := hwhole (by rw [hasAnyToolCallSyntax, htag, Bool.true_or])
      refine ⟨_, .tagged hnone hwhole hcontent hread (List.ne_nil_of_length_pos hsome)
        (fun call hcall => extractToolCalls_run hcall) fun hrepeats _ => ?_, ?_⟩
      · exact extractToolCalls_all hrepeats
      · exact List.forall₂_same.mpr fun _ _ => rfl
    · rename_i hempty
      have hbodies := @no_json_of_extractToolCalls content.toList (by simpa using hempty)
      split
      · rename_i hmarkup
        split
        · rename_i reason hparse
          exact Or.inr ⟨content, hcontent, by simp [hasAnyToolCallSyntax, hmarkup]⟩
        · rename_i calls hparse
          obtain ⟨hrepeats, rfl⟩ := (parse_ok_iff _ _).mp hparse
          have hwhole := hwhole (by rw [hasAnyToolCallSyntax, hmarkup, Bool.or_true])
          exact ⟨_, .written hnone hwhole hcontent hread hbodies hrepeats,
            List.forall₂_same.mpr fun _ _ => rfl⟩
      · rename_i hmarkup
        refine ⟨hnone, fun content' hcontent' => ?_⟩
        rw [hcontent] at hcontent'
        cases hcontent'
        exact ⟨by simpa using hmarkup, outside, _, hread, hbodies⟩

/-! ## The structured calls -/

variable {inherits : Json → String → Bool} {tools : List ToolDefinition}

theorem firstMissing_error {arguments : Json} {keys : List Json} {e : Thrown}
    (h : firstMissing inherits arguments keys = .error e) : arguments = .null := by
  induction keys with
  | nil => cases h
  | cons key keys ih =>
    unfold firstMissing at h
    split at h
    · cases h
    · rename_i heq
      cases heq
      split at h
      · rfl
      · split at h
        · cases h
        · exact ih h
    · rename_i heq
      cases heq
      exact ih h

theorem missingRequiredArg_error {call : ResolvedToolCall} {e : Thrown}
    (h : missingRequiredArg inherits call tools = .error e) : call.arguments = .null := by
  unfold missingRequiredArg at h
  split at h
  · exact firstMissing_error h
  · cases h

theorem refuseIncomplete_error {calls : List ResolvedToolCall} {e : Thrown}
    (h : refuseIncomplete inherits tools calls = .error e) : ∃ call ∈ calls, call.arguments = .null := by
  induction calls with
  | nil => cases h
  | cons call calls ih =>
    have hlater (h : refuseIncomplete inherits tools calls = .error e) :
        ∃ other ∈ call :: calls, other.arguments = .null := by
      obtain ⟨other, hmem, hnull⟩ := ih h
      exact ⟨other, List.mem_cons_of_mem call hmem, hnull⟩
    unfold refuseIncomplete at h
    split at h
    · rename_i hmissing
      exact ⟨call, List.mem_cons_self, missingRequiredArg_error hmissing⟩
    · exact hlater h
    · split at h
      · exact hlater h
      · cases h

theorem null_of_readEntry {response : ChatCompletionResponse} {call : ResolvedToolCall}
    (h : call ∈ response.toolCalls.filterMap readEntry) (hnull : call.arguments = .null) :
    ∃ entry ∈ response.toolCalls, readArguments entry.arguments = some .null := by
  obtain ⟨entry, hentry, hread⟩ := List.mem_filterMap.mp h
  obtain ⟨arguments, harguments, rfl⟩ := Option.map_eq_some_iff.mp hread
  exact ⟨entry, hentry, hnull ▸ harguments⟩

theorem filterMap_reads {entries : List StructuredCall}
    (h : ∀ entry ∈ entries, (readEntry entry).isSome) :
    List.Forall₂ Reads entries (entries.filterMap readEntry) := by
  induction entries with
  | nil => exact .nil
  | cons entry entries ih =>
    obtain ⟨raw, hraw⟩ := Option.isSome_iff_exists.mp (h entry List.mem_cons_self)
    rw [List.filterMap_cons_some hraw]
    exact .cons hraw (ih fun other hother => h other (List.mem_cons_of_mem entry hother))

/-- The structured calls, or what is known where the text is tried. -/
def ResolvesStructured (seq : ℕ) (response : ChatCompletionResponse) :
    Except Thrown (Option ToolCallResolution) → Prop
  | .ok none => ∀ entry ∈ response.toolCalls, readEntry entry = none
  | .ok (some resolution) => Resolves Eq seq response (.ok resolution)
  | .error e => Resolves Eq seq response (.error e)

theorem resolveStructuredCalls_resolves (seq : ℕ) (response : ChatCompletionResponse) :
    ResolvesStructured seq response (resolveStructuredCalls inherits response tools) := by
  have hattempted (h : response.toolCalls ≠ []) : Attempted response := Or.inl h
  unfold resolveStructuredCalls
  dsimp only
  split
  · rename_i hrefused
    refine hattempted fun hnil => ?_
    rw [hnil] at hrefused
    cases hrefused
  · rename_i hrefused
    split
    · rename_i e hincomplete
      split at hincomplete
      · obtain ⟨call, hcall, hnull⟩ := refuseIncomplete_error hincomplete
        exact null_of_readEntry hcall hnull
      · cases hincomplete
    · rename_i reason hincomplete
      refine hattempted fun hnil => ?_
      rw [hnil] at hincomplete
      split at hincomplete
      · cases hincomplete
      · cases hincomplete
    · split
      · rename_i hsome
        refine ⟨_, .structured rfl (List.ne_nil_of_length_pos hsome) fun hcut => ?_,
          List.forall₂_same.mpr fun _ _ => rfl⟩
        refine filterMap_reads fun entry hentry => ?_
        by_contra hunread
        refine hrefused ?_
        rw [hcut, Bool.and_true, List.any_eq_true]
        exact ⟨entry, hentry, by simpa using hunread⟩
      · rename_i hempty
        rw [gt_iff_lt, List.length_pos_iff, not_not] at hempty
        exact List.filterMap_eq_nil_iff.mp hempty

/-! ## All together -/

theorem resolveRawToolCalls_resolves (seq : ℕ) (response : ChatCompletionResponse) :
    Resolves Eq seq response (resolveRawToolCalls inherits seq response tools).1 := by
  have hstructured := @resolveStructuredCalls_resolves inherits tools seq response
  unfold resolveRawToolCalls
  generalize resolveStructuredCalls inherits response tools = structured at hstructured
  match structured, hstructured with
  | .error e, hstructured => exact hstructured
  | .ok (some resolution), hstructured => exact hstructured
  | .ok none, hnone =>
    cases hcontent : response.content with
    | none => exact ⟨hnone, fun content h => by rw [hcontent] at h; cases h⟩
    | some content =>
      dsimp only
      split
      · rename_i hempty
        refine ⟨hnone, fun content' h => ?_⟩
        rw [hcontent, hempty] at h
        cases h
        exact ⟨rfl, [[]], [], .rest [] (by simp [toolCallOpen]), by simp⟩
      · exact resolveText_resolves hcontent hnone

theorem mem_mint {seq : ℕ} {calls : List ParsedToolCall} {call : ResolvedToolCall}
    (h : call ∈ mint seq calls) : ∃ parsed ∈ calls, call.arguments = parsed.arguments := by
  induction calls generalizing seq with
  | nil => cases h
  | cons parsed calls ih =>
    rw [mint, List.mem_cons] at h
    cases h with
    | inl heq => exact ⟨parsed, List.mem_cons_self, by rw [heq]⟩
    | inr hmem =>
      obtain ⟨other, hother, heq⟩ := ih hmem
      exact ⟨other, List.mem_cons_of_mem parsed hother, heq⟩

theorem readJsonCall_ne_null {inner : List Char} {call : ParsedToolCall}
    (h : readJsonCall inner = some call) : call.arguments ≠ .null := by
  unfold readJsonCall at h
  simp only [Option.bind_eq_bind, Option.bind_eq_some_iff] at h
  obtain ⟨parsed, -, name, -, arguments, -, h⟩ := h
  split at h
  · rename_i htruthy
    cases h
    intro hnull
    simp [show arguments = .null from hnull, Json.truthy] at htruthy
  · cases h

theorem bodyCalls_ne_null {body : List Char} {call : ParsedToolCall} (h : call ∈ bodyCalls body) :
    call.arguments ≠ .null := by
  cases hjson : readJsonCall (trimChars body) with
  | some parsed =>
    simp only [bodyCalls, hjson, List.mem_singleton] at h
    rw [h]
    exact readJsonCall_ne_null hjson
  | none =>
    simp only [bodyCalls, hjson, List.mem_map] at h
    obtain ⟨block, -, rfl⟩ := h
    intro hnull
    cases hnull

/-- Arguments that are `null` are those of an entry. -/
theorem null_of_source {seq : ℕ} {response : ChatCompletionResponse} {raw : List ResolvedToolCall}
    (h : Source seq response raw) {call : ResolvedToolCall} (hcall : call ∈ raw)
    (hnull : call.arguments = .null) :
    ∃ entry ∈ response.toolCalls, readArguments entry.arguments = some .null := by
  cases h with
  | structured hraw => exact null_of_readEntry (hraw ▸ hcall) hnull
  | tagged _ _ _ _ _ hrun =>
    obtain ⟨parsed, hparsed, heq⟩ := mem_mint hcall
    obtain ⟨body, -, -, hbody⟩ := hrun parsed hparsed
    exact absurd (heq ▸ hnull) (bodyCalls_ne_null hbody)
  | written =>
    obtain ⟨parsed, hparsed, heq⟩ := mem_mint hcall
    obtain ⟨block, -, rfl⟩ := List.mem_map.mp hparsed
    exact absurd (heq.symm.trans hnull) nofun

/-- A response's calls are run each once, in order and with their arguments, and nothing else is. -/
theorem resolveToolCalls_resolves (inherits : Json → String → Bool) (seq : ℕ)
    (response : ChatCompletionResponse) (tools : List ToolDefinition) :
    Resolves (Takes (offersUseTool tools)) seq response
      (resolveToolCalls inherits seq response tools).1 := by
  have hraw := @resolveRawToolCalls_resolves inherits tools seq response
  unfold resolveToolCalls
  generalize resolveRawToolCalls inherits seq response tools = raw at hraw
  obtain ⟨raw, seq'⟩ := raw
  match raw, hraw with
  | .error e, hraw => exact hraw
  | .ok (.rejected reason), hraw => exact hraw
  | .ok .none, hraw => exact hraw
  | .ok (.calls calls), hraw =>
    obtain ⟨raw, hsource, heq⟩ := hraw
    obtain rfl := List.forall₂_eq_eq_eq ▸ heq
    cases hoffers : offersUseTool tools with
    | false => exact ⟨raw, hsource, List.forall₂_same.mpr fun call _ => takes_self call⟩
    | true =>
      dsimp only
      rw [if_pos rfl]
      cases hunwrapped : raw.mapM unwrapUseTool with
      | ok calls => exact ⟨raw, hsource, mapM_unwrapUseTool hunwrapped⟩
      | error e =>
        obtain ⟨call, hcall, hnull⟩ := mapM_unwrapUseTool_error hunwrapped
        exact null_of_source hsource hcall hnull

/-- One call for each entry. -/
def OnePerEntry (offers : Bool) (response : ChatCompletionResponse) (calls : List ResolvedToolCall) :
    Prop :=
  List.Forall₂ (fun entry call => ∃ raw, Reads entry raw ∧ Takes offers raw call) response.toolCalls calls

/-- The response ended, and its second entry cannot be read. -/
def halfMangled : ChatCompletionResponse where
  content := none
  finishReason := "tool_calls"
  toolCalls := [⟨"c1", "good_tool", "\x7b\"a\":1\x7d"⟩, ⟨"c2", "bad_tool", "\x7boops"⟩]

/-- A call of a whole response runs without the other one. -/
theorem resolveToolCalls_leavesOut :
    ∃ calls, (resolveToolCalls (fun _ _ => false) 0 halfMangled []).1 = .ok (.calls calls) ∧
      calls.length = 1 ∧ ¬ OnePerEntry (offersUseTool []) halfMangled calls := by
  have hgood : (readEntry ⟨"c1", "good_tool", "\x7b\"a\":1\x7d"⟩).isSome = true := by decide +kernel
  have hbad : readEntry ⟨"c2", "bad_tool", "\x7boops"⟩ = none := by
    rw [← Option.not_isSome_iff_eq_none]
    decide +kernel
  obtain ⟨raw, hraw⟩ := Option.isSome_iff_exists.mp hgood
  have hread : halfMangled.toolCalls.filterMap readEntry = [raw] := by
    simp only [halfMangled, List.filterMap_cons, hraw, hbad, List.filterMap_nil]
  have hwhole : wasTruncated halfMangled = false := by decide
  refine ⟨[raw], ?_, rfl, fun hone => ?_⟩
  · simp only [resolveToolCalls, resolveRawToolCalls, resolveStructuredCalls, hread, hwhole, Bool.and_false]
    rfl
  · have hlength : 2 = 1 := List.Forall₂.length_eq hone
    omega

end Haruspex.ToolCalls
