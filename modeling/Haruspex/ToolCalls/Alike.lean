import Haruspex.ToolCalls.Cuts
import Haruspex.ToolCalls.Taken

/-! Where the calls that are cut out of a text are those that are run. -/
namespace Haruspex.ToolCalls
open JavaScript Marks Patterns
set_option autoImplicit false

/-! ## Alike -/

/-- Where tagged blocks are run: what is shown of a block is what is run of it, and nothing is shown outside. -/
def CutBlock.TaggedAlike : CutBlock → Prop
  | .tagged body => named (shownName body) = (callsOfBody body).map ParsedToolCall.name
  | .opened body => shownName body = none
  | .function block => readHead functionOpen block = none ∧ ¬ toolCallOpen <:+: block

/-- Where function blocks are run: a tagged block shows and holds none, and one that is left open shows all it
holds. -/
def CutBlock.FunctionAlike : CutBlock → Prop
  | .tagged body => shownName body = none ∧ functionPattern.all body = []
  | .opened body => named (shownName body) = functionNames body
  | .function _ => True

/-- A tagged block as it stands, where no call is taken of it. -/
def untaken (body : List Char) : List Char :=
  if (callsOfBody body).isEmpty then toolCallOpen ++ body ++ toolCallClose else []

theorem tagged_alike {text : List Char} (h : ∀ block ∈ cutPattern.all text, block.TaggedAlike) :
    (cutPattern.all text).flatMap CutBlock.shown = (extractToolCalls text).map ParsedToolCall.name ∧
      (cutPattern.replace (fun _ => []) text).Sublist (toolCallPattern.replace untaken text) := by
  induction text using cutPattern.induct with
  | nil => 
    unfold extractToolCalls
    rw [Pattern.all_nil, Pattern.all_nil, Pattern.replace_nil]
    exact ⟨rfl, List.nil_sublist _⟩
  | skip c text hnone ih =>
    have htool : toolCallPattern.match? (c :: text) = none :=
      toolCallPattern_begins.match?_eq_none (cutMatch_none hnone).1
    rw [Pattern.all_skip hnone] at h
    obtain ⟨hnames, hsub⟩ := ih h
    unfold extractToolCalls at hnames ⊢
    rw [Pattern.all_skip hnone, Pattern.all_skip htool, Pattern.replace_skip hnone, Pattern.replace_skip htool]
    exact ⟨hnames, hsub.cons_cons c⟩
  | found text block rest hfound ih =>
    rw [Pattern.all_match hfound, List.forall_mem_cons] at h
    obtain ⟨hnames, hsub⟩ := ih h.2
    unfold extractToolCalls at hnames ⊢
    rw [Pattern.all_match hfound, Pattern.replace_match hfound, List.flatMap_cons, hnames, List.nil_append]
    obtain ⟨body, rfl, htool⟩ | ⟨body, rfl, rfl, hopen, rfl⟩ | ⟨hopen, hfunction, rfl, rfl⟩ := cutMatch_some hfound
    · have hmatch : toolCallPattern.match? text = some (body, rest) := htool
      rw [Pattern.all_match hmatch, Pattern.replace_match hmatch, List.flatMap_cons, List.map_append]
      refine ⟨?_, hsub.trans (List.sublist_append_right _ _)⟩
      rw [← show named (shownName body) = _ from h.1, ← readTaggedBody_name]
      rfl
    · have hquiet : toolCallPattern.Quiet (toolCallOpen ++ body) [] := quiet_opened (by rwa [List.drop_left])
      have hall := hquiet.all
      rw [List.append_nil, Pattern.all_nil] at hall
      rw [hall, CutBlock.shown, CutBlock.call, readTaggedBody_name, show shownName body = none from h.1, Pattern.all_nil,
        Pattern.replace_nil]
      exact ⟨rfl, List.nil_sublist _⟩
    · have hquiet : toolCallPattern.Quiet (functionCut text).1 (functionRest text) :=
        Pattern.Begins.quiet toolCallPattern_begins (by decide) h.1.2 (functionRest_head text)
      obtain ⟨hall, passed, hreplace⟩ :=
        @over_function _ _ _ untaken toolCallPattern_begins (by decide) (by decide) _ hfunction hquiet
      rw [hall, hreplace]
      refine ⟨?_, hsub.trans (List.sublist_append_right _ _)⟩
      rw [CutBlock.shown, CutBlock.call, readFunctionBlock_name, show readHead functionOpen _ = none from h.1.1]
      rfl

/-- A text without function blocks, before a `<`. -/
theorem quiet_of_no_function {text rest : List Char} (h : functionPattern.all text = [])
    (hrest : rest = [] ∨ rest.head? = some '<') : functionPattern.Quiet text rest := by
  induction text with
  | nil => trivial
  | cons c text ih =>
    cases hfound : functionPattern.match? (c :: text) with
    | some found =>
      rw [@Pattern.all_match _ _ functionPattern _ found.2 found.1 hfound] at h
      cases h
    | none =>
      rw [Pattern.all_skip hfound] at h
      refine ⟨?_, ih h⟩
      have hhead : readHead functionOpen (c :: text) = none := Option.map_eq_none_iff.mp hfound
      have hread : readHead functionOpen (c :: text ++ rest) =
          (readHead functionOpen (c :: text)).map fun found => (found.1, found.2 ++ rest) :=
        readHead_append (by decide) (List.cons_ne_nil c text) hrest
      rw [hhead, Option.map_none] at hread
      exact Option.map_eq_none_iff.mpr hread

theorem function_alike {text : List Char} (h : ∀ block ∈ cutPattern.all text, block.FunctionAlike) :
    (cutPattern.all text).flatMap CutBlock.shown = functionNames text ∧
      (cutPattern.replace (fun _ => []) text).Sublist (functionPattern.replace (fun _ => []) text) := by
  induction text using cutPattern.induct with
  | nil =>
    unfold functionNames
    rw [Pattern.all_nil, Pattern.all_nil, Pattern.replace_nil]
    exact ⟨rfl, List.nil_sublist _⟩
  | skip c text hnone ih =>
    have hfunction := functionPattern_match_none (cutMatch_none hnone).2
    rw [Pattern.all_skip hnone] at h
    obtain ⟨hnames, hsub⟩ := ih h
    unfold functionNames at hnames ⊢
    rw [Pattern.all_skip hnone, Pattern.all_skip hfunction, Pattern.replace_skip hnone,
      Pattern.replace_skip hfunction]
    exact ⟨hnames, hsub.cons_cons c⟩
  | found text block rest hfound ih =>
    rw [Pattern.all_match hfound, List.forall_mem_cons] at h
    obtain ⟨hnames, hsub⟩ := ih h.2
    rw [Pattern.all_match hfound, Pattern.replace_match hfound, List.flatMap_cons, hnames, List.nil_append]
    obtain ⟨body, rfl, htool⟩ | ⟨body, rfl, rfl, hopen, rfl⟩ | ⟨hopen, hfunction, rfl, rfl⟩ := cutMatch_some hfound
    · have hquiet : functionPattern.Quiet (toolCallOpen ++ (body ++ toolCallClose)) rest :=
        (Pattern.Begins.quiet_mark functionPattern_begins (by decide) (by decide) (by decide)).append
          ((quiet_of_no_function h.1.2 (.inr rfl)).append
            (Pattern.Begins.quiet_mark functionPattern_begins (by decide) (by decide) (by decide)))
      obtain ⟨htext, -⟩ := toolCallMatch_some htool
      rw [List.append_assoc toolCallOpen] at htext
      rw [CutBlock.shown, CutBlock.call, readTaggedBody_name, h.1.1]
      unfold functionNames
      rw [htext, hquiet.all, hquiet.replace]
      exact ⟨rfl, hsub.trans (List.sublist_append_right _ _)⟩
    · have hquiet : functionPattern.Quiet toolCallOpen body :=
        Pattern.Begins.quiet_mark functionPattern_begins (by decide) (by decide) (by decide)
      rw [CutBlock.shown, CutBlock.call, readTaggedBody_name, show named (shownName body) = _ from h.1,
        Pattern.replace_nil]
      unfold functionNames
      rw [hquiet.all, Pattern.all_nil]
      exact ⟨List.append_nil _, List.nil_sublist _⟩
    · rw [CutBlock.shown, CutBlock.call, readFunctionBlock_name]
      have hmatch := functionPattern_match hfunction
      cases hhead : readHead functionOpen (functionCut text).1 with
      | none =>
        obtain ⟨hall, passed, hreplace⟩ := @over_function _ _ _ (fun _ => []) functionPattern_begins (by decide)
          (by decide) _ hfunction (quiet_unread hfunction hhead)
        unfold functionNames
        rw [hall, hreplace]
        exact ⟨rfl, hsub.trans (List.sublist_append_right _ _)⟩
      | some found =>
        obtain ⟨name, body⟩ := found
        rw [hhead, Option.map_some] at hmatch
        obtain ⟨mark, hrest, hmark⟩ := exists_functionEnd text
        have hend : functionPattern.Quiet mark (functionCut text).2 :=
          quiet_functionEnd functionPattern_begins (by decide) (by decide) hmark
        unfold functionNames
        rw [Pattern.all_match hmatch, Pattern.replace_match hmatch, hrest, hend.all, hend.replace]
        exact ⟨rfl, hsub.trans (List.sublist_append_right _ _)⟩

/-! ## What is shown and what is run -/

/-- The blocks of a text are shown as they are run. -/
def Alike (text : List Char) : Prop :=
  if (extractToolCalls text).isEmpty then ∀ block ∈ cutPattern.all text, block.FunctionAlike
  else ∀ block ∈ cutPattern.all text, block.TaggedAlike

/-- The text outside the blocks that calls are taken of. -/
def outside (text : List Char) : List Char :=
  if (extractToolCalls text).isEmpty then functionPattern.replace (fun _ => []) text
  else toolCallPattern.replace untaken text

/-- What is cut out is what is run: the calls have the names of those that are run, in their order, and what is left
is of the text outside their blocks. -/
structure CutAsRun (text : List Char) (calls : List ResolvedToolCall) : Prop where
  names : (splitTextToolCalls text).calls.map (fun call => Json.string call.name) = calls.map ResolvedToolCall.name
  text : (splitTextToolCalls text).text.Sublist (outside text)

theorem dropOpenMarker_sublist (text : List Char) : (dropOpenMarker text).Sublist text := by
  unfold dropOpenMarker
  split
  · dsimp only
    split
    · exact List.Sublist.refl _
    · split
      · exact List.take_sublist _ _
      · exact List.Sublist.refl _
  · exact List.Sublist.refl _

theorem splitTextToolCalls_text (text : List Char) :
    (splitTextToolCalls text).text.Sublist (cutPattern.replace (fun _ => []) text) := by
  refine (dropOpenMarker_sublist _).trans (Pattern.replace_sublist (fun text b rest h => ?_) _)
  obtain ⟨-, heq⟩ := Option.ite_none_right_eq_some.mp h
  cases heq
  exact List.drop_sublist _ _

theorem splitTextToolCalls_names (text : List Char) :
    (splitTextToolCalls text).calls.map (fun call => Json.string call.name) =
      (cutPattern.all text).flatMap CutBlock.shown := by
  unfold splitTextToolCalls
  dsimp only
  induction cutPattern.all text with
  | nil => rfl
  | cons block blocks ih =>
    rw [List.flatMap_cons, ← ih, CutBlock.shown, List.filterMap_cons]
    cases block.call with
    | none => rfl
    | some call => rfl

theorem mint_names (seq : ℕ) (calls : List ParsedToolCall) :
    (mint seq calls).map ResolvedToolCall.name = calls.map ParsedToolCall.name := by
  induction calls generalizing seq with
  | nil => rfl
  | cons call calls ih => rw [mint, List.map_cons, List.map_cons, ih]

/-- What the text is resolved to, without structured calls. -/
theorem resolved_names {inherits : Json → String → Bool} {seq seq' : ℕ} {response : ChatCompletionResponse}
    {tools : List ToolDefinition} {content : String} {calls : List ResolvedToolCall}
    (hstructured : response.toolCalls = []) (hcontent : response.content = some content)
    (h : resolveRawToolCalls inherits seq response tools = (.ok (.calls calls), seq')) :
    calls.map ResolvedToolCall.name =
      if (extractToolCalls content.toList).isEmpty then functionNames content.toList
      else (extractToolCalls content.toList).map ParsedToolCall.name := by
  have hnone : resolveStructuredCalls inherits response tools = .ok none := by
    simp [resolveStructuredCalls, hstructured, refuseIncomplete]
  rw [resolveRawToolCalls, hnone, hcontent] at h
  dsimp only at h
  split at h
  · cases h
  · rw [Prod.mk.injEq, Except.ok.injEq] at h
    have hresolved := h.1
    unfold resolveText at hresolved
    rw [tagged_eq] at hresolved
    split at hresolved
    · cases hresolved
    · dsimp only at hresolved
      split at hresolved
      · rename_i hsome
        cases hresolved
        rw [if_neg (by rw [List.isEmpty_iff]; exact List.ne_nil_of_length_pos hsome), mint_names]
      · rename_i hempty
        rw [if_pos (by rw [List.isEmpty_iff]; simpa using hempty)]
        split at hresolved
        · split at hresolved
          · cases hresolved
          · rename_i parsed hparse
            cases hresolved
            obtain ⟨-, rfl⟩ := (parse_ok_iff _ _).mp hparse
            rw [mint_names, functionBlocks_eq, functionNames, Pattern.all_eq_everywhere functionPattern_apart,
              List.map_map, List.map_map]
            rfl
        · cases hresolved

/-- In a text of tagged blocks these are the blocks that are read. -/
theorem all_of_tagged {text : List Char} {bodies : List (List Char)}
    (h : cutPattern.all text = bodies.map CutBlock.tagged) : toolCallPattern.all text = bodies := by
  induction text using cutPattern.induct generalizing bodies with
  | nil =>
    rw [Pattern.all_nil] at h ⊢
    exact (List.map_eq_nil_iff.mp h.symm).symm
  | skip c text hnone ih =>
    have htool : toolCallPattern.match? (c :: text) = none :=
      toolCallPattern_begins.match?_eq_none (cutMatch_none hnone).1
    rw [Pattern.all_skip hnone] at h
    rw [Pattern.all_skip htool, ih h]
  | found text block rest hfound ih =>
    rw [Pattern.all_match hfound] at h
    cases bodies with
    | nil => cases h
    | cons body bodies =>
      obtain ⟨rfl, hrest⟩ := List.cons.inj h
      obtain ⟨body', hbody, htool⟩ | ⟨body', hbody, -⟩ | ⟨-, -, hbody, -⟩ := cutMatch_some hfound
      · cases hbody
        have hmatch : toolCallPattern.match? text = some (body, rest) := htool
        rw [Pattern.all_match hmatch, ih hrest]
      · cases hbody
      · cases hbody

/-- A whole response that says its calls in tagged blocks. -/
theorem resolved_by_tags (inherits : Json → String → Bool) (seq : ℕ) {response : ChatCompletionResponse}
    (tools : List ToolDefinition) {content : String} (hstructured : response.toolCalls = [])
    (hcontent : response.content = some content) (hwhole : wasTruncated response = false)
    (hcalls : extractToolCalls content.toList ≠ []) :
    resolveRawToolCalls inherits seq response tools =
      (.ok (.calls (mint seq (extractToolCalls content.toList))), seq + (extractToolCalls content.toList).length) := by
  have hnone : resolveStructuredCalls inherits response tools = .ok none := by
    simp [resolveStructuredCalls, hstructured, refuseIncomplete]
  have hne : content ≠ "" := by
    rintro rfl
    exact hcalls (by rw [String.toList_empty, extractToolCalls, Pattern.all_nil]; rfl)
  have htext : resolveText seq response content.toList =
      (.calls (mint seq (extractToolCalls content.toList)), seq + (extractToolCalls content.toList).length) := by
    unfold resolveText
    rw [tagged_eq, hwhole, Bool.false_and, if_neg (by decide)]
    dsimp only
    rw [if_pos (List.length_pos_iff.mpr hcalls)]
  rw [resolveRawToolCalls, hnone, hcontent]
  dsimp only
  rw [if_neg hne, htext]

/-- A text that is one tagged block. -/
theorem all_of_block {text body : List Char} (h : toolCallMatch text = some (body, [])) :
    toolCallPattern.all text = [body] ∧ cutPattern.all text = [.tagged body] := by
  have hmatch : toolCallPattern.match? text = some (body, []) := h
  have hcut : cutPattern.match? text = some (.tagged body, []) := by
    show cutMatch text = _
    unfold toolCallMatch at h
    split at h
    · rename_i hopen
      rw [cutMatch, if_pos hopen, h]
    · cases h
  rw [Pattern.all_match hmatch, Pattern.all_match hcut, Pattern.all_nil, Pattern.all_nil]
  exact ⟨rfl, rfl⟩

/-- A text that is one tagged block. -/
def tagged (body : String) : String := "<tool_call>" ++ body ++ "</tool_call>"

def taggedResponse (body : String) : ChatCompletionResponse where
  content := some (tagged body)
  finishReason := "stop"
  toolCalls := []

/-- The call of a block, as it is taken and as it is shown. -/
structure OneCall (body run shown : String) : Prop where
  block : toolCallMatch (tagged body).toList = some (body.toList, [])
  run : (callsOfBody body.toList).map (fun call => isNamed call.name run) = [true]
  shown : shownName body.toList = some shown.toList

theorem OneCall.names {body run shown : String} (h : OneCall body run shown) :
    (callsOfBody body.toList).map ParsedToolCall.name = [.string run] := by
  have hrun := h.run
  cases hcalls : callsOfBody body.toList with
  | nil =>
    rw [hcalls] at hrun
    cases hrun
  | cons call calls =>
    rw [hcalls, List.map_cons, List.cons.injEq, List.map_eq_nil_iff] at hrun
    obtain ⟨hname, rfl⟩ := hrun
    unfold isNamed at hname
    split at hname
    · rename_i text heq
      rw [beq_iff_eq] at hname
      rw [List.map_singleton, heq, hname]
    · cases hname

theorem OneCall.extracts {body run shown : String} (h : OneCall body run shown) :
    extractToolCalls (tagged body).toList = callsOfBody body.toList := by
  rw [extractToolCalls, (all_of_block h.block).1, List.flatMap_singleton]

theorem OneCall.resolves {body run shown : String} (h : OneCall body run shown) :
    resolveRawToolCalls (fun _ _ => false) 0 (taggedResponse body) [] =
      (.ok (.calls (mint 0 (callsOfBody body.toList))), 0 + (callsOfBody body.toList).length) := by
  rw [← h.extracts]
  refine resolved_by_tags _ _ _ rfl rfl rfl fun hnil => ?_
  have hnames := h.names
  rw [← h.extracts, hnil] at hnames
  cases hnames

/-- A call that is shown as it is run. -/
def readBody : String := "\x7b\"name\": \"fs_read\", \"arguments\": \x7b\"path\": \"a.ts\"\x7d\x7d"

theorem readBody_call : OneCall readBody "fs_read" "fs_read" :=
  ⟨by decide +kernel, by decide +kernel, by decide +kernel⟩

/-- A call whose arguments come first, with a name among them. -/
def renameBody : String := "\x7b\"arguments\": \x7b\"name\": \"draft\"\x7d, \"name\": \"rename_sheet\"\x7d"

theorem renameBody_call : OneCall renameBody "rename_sheet" "draft" :=
  ⟨by decide +kernel, by decide +kernel, by decide +kernel⟩

end Haruspex.ToolCalls
