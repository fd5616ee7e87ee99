import RubyPretty.Formatting
import RubyPretty.Proofs.Rules.Default
/-!
# Falling back on the unformatted body

The formatter of a printer is for the bodies of heredocs alone: no other rule looks at it. Where
bodies may stay as they are, a formatter that always fails is as good as none, because all that is
looked at before it runs is looked at again when the body is written as it is.
-/

namespace RubyPretty

/-! ## Steps that fail -/

section

variable {α β : Type}

/-- A walk fails at an element if nothing else can happen at those before it. -/
theorem mapM_eq_throw {g : α → PrintM β} {before after : List α} {a : α} {e : Fault}
    (hbefore : ∀ b ∈ before, g b = throw e ∨ ∃ c, g b = pure c) (ha : g a = throw e) :
    (before ++ a :: after).mapM g = throw e := by
  induction before with
  | nil =>
      rw [List.nil_append, List.mapM_cons, ha]
      rfl
  | cons b before ih =>
      obtain ⟨hb, hbefore⟩ := List.forall_mem_cons.mp hbefore
      rw [List.cons_append, List.mapM_cons, ih hbefore]
      rcases hb with hb | ⟨c, hb⟩
      · rw [hb]
        rfl
      · rw [hb]
        rfl

end

namespace Rules

/-- A rule gives the same with any formatter. -/
def IgnoresFormatter (rule : Rule) : Prop :=
  ∀ pr formatter p, rule { pr with formatter := formatter } p = rule pr p

/-! ## Rules that walk through lists -/

section

variable (pr : Printer) (formatter : Option Formatter)

theorem arguments_formatter (around : List Tree) (v : Value) :
    arguments { pr with formatter := formatter } around v = arguments pr around v := by
  refine arguments_congr (fun q w => ?_) around v
  rfl

theorem argumentList_formatter (p : Place) (v : Value) :
    argumentList { pr with formatter := formatter } p v = argumentList pr p v := by
  refine argumentList_congr (fun q w => ?_) p v
  rfl

theorem statementsAfter_formatter (p : Place) (previous : Tree) (stmts : List Tree) :
    statementsAfter { pr with formatter := formatter } p previous stmts =
      statementsAfter pr p previous stmts := by
  induction stmts generalizing previous with
  | nil => rfl
  | cons stmt stmts ih =>
      unfold statementsAfter
      simp only [ih]
      rfl

theorem arrayContents_formatter (p : Place) (v : Value) :
    arrayContents { pr with formatter := formatter } p v = arrayContents pr p v := by
  unfold arrayContents
  simp only [argumentList_formatter]
  rfl

theorem exceptions_formatter (p : Place) (v : Value) :
    exceptions { pr with formatter := formatter } p v = exceptions pr p v := by
  unfold exceptions
  simp only [argumentList_formatter]
  rfl

theorem returnedValues_formatter (arg : Place) :
    returnedValues { pr with formatter := formatter } arg = returnedValues pr arg := by
  unfold returnedValues
  simp only [argumentList_formatter]

theorem commandAnd_formatter (extra : List Doc) (p : Place) :
    commandAnd extra { pr with formatter := formatter } p = commandAnd extra pr p := by
  unfold commandAnd
  simp only [argumentList_formatter]
  rfl

theorem receiverCommandAnd_formatter (extra : List Doc) (p : Place) :
    receiverCommandAnd extra { pr with formatter := formatter } p =
      receiverCommandAnd extra pr p := by
  unfold receiverCommandAnd
  simp only [argumentList_formatter]
  rfl

theorem callWithArgumentsAnd_formatter (extra : List Doc) (p : Place) :
    callWithArgumentsAnd extra { pr with formatter := formatter } p =
      callWithArgumentsAnd extra pr p := by
  unfold callWithArgumentsAnd
  simp only [argumentList_formatter]
  rfl

theorem withBlockArgument?_formatter (p : Place) (callee : Tree) (block : Doc) :
    withBlockArgument? { pr with formatter := formatter } p callee block =
      withBlockArgument? pr p callee block := by
  unfold withBlockArgument?
  simp only [Printer.apply, Rule.ofDoc, callWithArgumentsAnd_formatter, commandAnd_formatter,
    receiverCommandAnd_formatter]
  rfl

end

/-! ## Heredocs -/

section

variable (pr : Printer) (p : Place)

def IsContent (part : Value) : Prop := ∃ n, part = .node n ∧ n.tag = "@tstring_content"

theorem isContent_of_test {part : Value}
    (h : (do return (← part.asNode).tag == "@tstring_content" : Outcome Bool) = .ok true) :
    IsContent part := by
  obtain ⟨n, hn, htag⟩ := Except.bind_eq_ok.mp h
  exact ⟨n, Value.asNode_eq_ok.mp hn, beq_iff_eq.mp (Except.pure_eq_ok.mp htag)⟩

theorem heredocPart_content {n : Tree} (h : n.tag = "@tstring_content") :
    heredocPart pr p (.node n) =
      liftM n.token >>= fun s => pure (Doc.verbatim (Text.unixLines s)) := by
  show (if n.tag = "@tstring_content" then _ else _) = _
  rw [if_pos h]

theorem heredocPart_of_isContent {part : Value} (h : IsContent part) :
    heredocPart pr p part = throw .malformed ∨ ∃ doc, heredocPart pr p part = pure doc := by
  obtain ⟨n, rfl, htag⟩ := h
  rw [heredocPart_content pr p htag]
  unfold Node.token
  split
  · exact .inr ⟨_, rfl⟩
  · exact .inl rfl

theorem heredocPart_of_error {part : Value} {e : Fault}
    (hcontent : ∀ n, part = .node n → n.tag = "@tstring_content")
    (h : (do (← part.asNode).token) = .error e) :
    e = .malformed ∧ heredocPart pr p part = throw .malformed := by
  cases part with
  | node n =>
      rw [heredocPart_content pr p (hcontent n rfl)]
      change n.token = .error e at h
      unfold Node.token at h ⊢
      split at h
      · cases h
      · cases h
        exact ⟨rfl, rfl⟩
  | null | bool | int | real | text | list =>
      cases h
      exact ⟨rfl, rfl⟩

/-- A body that fails to give its text fails to be written in the same way. -/
theorem heredocParts_of_error {parts : List Value} {e : Fault}
    (h : heredocContent? parts = .error e) :
    e = .malformed ∧ parts.mapM (heredocPart pr p) = throw .malformed := by
  unfold heredocContent? at h
  rcases Except.bind_eq_error.mp h with hall | ⟨isPlain, hall, hcontent⟩
  · obtain ⟨before, part, after, rfl, hbefore, hpart⟩ := Except.allM_eq_error hall
    have hnode : part.asNode = .error e := by
      rcases Except.bind_eq_error.mp hpart with hnode | ⟨n, -, hn⟩
      · exact hnode
      · cases hn
    have hcontent : ∀ n, part = .node n → n.tag = "@tstring_content" := by
      rintro n rfl
      cases hnode
    have hfails := heredocPart_of_error pr p hcontent (Except.bind_eq_error.mpr (.inl hnode))
    refine ⟨hfails.1, mapM_eq_throw (fun b hb => ?_) hfails.2⟩
    exact heredocPart_of_isContent pr p (isContent_of_test (hbefore b hb))
  · cases isPlain with
    | false => cases hcontent
    | true =>
        have hplain : ∀ v ∈ parts, IsContent v :=
          fun v hv => isContent_of_test (Except.allM_eq_ok hall v hv)
        have hmap : parts.mapM (fun part => do (← part.asNode).token) = .error e := by
          rcases Except.bind_eq_error.mp hcontent with hjoin | ⟨_, -, h⟩
          · rcases Except.bind_eq_error.mp hjoin with hmap | ⟨_, -, h⟩
            · exact hmap
            · cases h
          · cases h
        obtain ⟨before, part, after, rfl, hpart⟩ := Except.mapM_eq_error hmap
        have hfails := heredocPart_of_error pr p ?_ hpart
        · refine ⟨hfails.1, mapM_eq_throw (fun b hb => ?_) hfails.2⟩
          exact heredocPart_of_isContent pr p (hplain b (List.mem_append_left _ hb))
        · rintro n rfl
          obtain ⟨n', hn', htag⟩ := hplain (.node n) (by simp)
          cases hn'
          exact htag

end

def AlwaysFails (format : Formatter) : Prop :=
  ∀ content language, ∃ reason, format content language = .error reason

section

variable {format : Formatter} {pr : Printer}

theorem runFormatter_of_alwaysFails (hformat : AlwaysFails format) {o : Options}
    (hfallback : o.embeddedFallback = true) (content language : String) :
    runFormatter o format content language = .ok none := by
  obtain ⟨reason, hreason⟩ := hformat content language
  unfold runFormatter
  rw [hreason]
  exact if_pos hfallback

/-- A formatter that always fails makes nothing of a body, and meets no fault that would not be met
where the body is written as it is. -/
theorem formattedBody?_of_alwaysFails (hformat : AlwaysFails format)
    (hfallback : pr.options.embeddedFallback = true) (p : Place) (opener : Option Heredoc.Opener)
    (parts : Value) :
    formattedBody? { pr with formatter := some format } opener parts = .ok none ∨
      formattedBody? { pr with formatter := some format } opener parts = .error .malformed ∧
        (do (← parts.asElements).mapM (heredocPart pr p) : PrintM (List Doc)) =
          throw .malformed := by
  unfold formattedBody?
  cases heredocLanguage? pr.options opener with
  | none => exact .inl rfl
  | some language =>
      unfold Value.asElements
      cases parts.elements? with
      | none => exact .inr ⟨rfl, rfl⟩
      | some vs =>
          cases hcontent : heredocContent? vs with
          | error e =>
              obtain ⟨rfl, hthrow⟩ := heredocParts_of_error pr p hcontent
              refine .inr ⟨?_, hthrow⟩
              simp only [Except.ok_bind, hcontent, Except.error_bind]
          | ok content =>
              simp only [Except.ok_bind, hcontent]
              cases content with
              | none => exact .inl rfl
              | some content =>
                  exact .inl (runFormatter_of_alwaysFails hformat hfallback _ language)

theorem heredoc_of_alwaysFails (hformat : AlwaysFails format)
    (hfallback : pr.options.embeddedFallback = true) (p : Place) :
    heredoc { pr with formatter := some format } p = heredoc { pr with formatter := none } p := by
  unfold heredoc
  split
  · next opening parts closing hbody =>
      refine bind_congr fun opening => ?_
      have hnone : formattedBody? { pr with formatter := none } (Heredoc.Opener.parse? opening)
        parts = .ok none := rfl
      simp only [hnone]
      rcases formattedBody?_of_alwaysFails hformat hfallback p (Heredoc.Opener.parse? opening)
        parts with h | ⟨h, hthrow⟩
      · simp only [h]
        rfl
      · simp only [h]
        symm
        calc _ = (do (← parts.asElements).mapM (heredocPart pr p)) >>= fun docs => do
                let terminator := Doc.ofString (Text.chomp (← closing.asText))
                return Doc.cat [opening,
                  .suffixed [.grouped (.literalLine :: docs ++ [terminator])]] := by
              rw [bind_assoc]
              rfl
          _ = _ := by
              rw [hthrow]
              rfl
  · rfl

end

/-! ## Entries -/

@[simp] theorem ignores_stmts : IgnoresFormatter (.ofDoc stmts) := by
  intro pr formatter p
  simp only [Rule.ofDoc, stmts, statementsAfter_formatter]
  rfl

@[simp] theorem ignores_paren : IgnoresFormatter (.ofDoc paren) := by
  intro pr formatter p
  simp only [Rule.ofDoc, paren, argumentList_formatter]
  rfl

@[simp] theorem ignores_index : IgnoresFormatter (.ofDoc index) := by
  intro pr formatter p
  simp only [Rule.ofDoc, index, argumentList_formatter]
  rfl

@[simp] theorem ignores_array : IgnoresFormatter (.ofDoc array) := by
  intro pr formatter p
  simp only [Rule.ofDoc, array, arrayContents_formatter]

@[simp] theorem ignores_args : IgnoresFormatter (.ofDoc args) := by
  intro pr formatter p
  simp only [Rule.ofDoc, args, arguments_formatter]

@[simp] theorem ignores_argParen : IgnoresFormatter (.ofDoc argParen) := by
  intro pr formatter p
  simp only [Rule.ofDoc, argParen, argumentList_formatter]
  rfl

@[simp] theorem ignores_callWithArguments : IgnoresFormatter callWithArguments := by
  intro pr formatter p
  simp only [callWithArguments, callWithArgumentsAnd_formatter]

@[simp] theorem ignores_callWithBlock : IgnoresFormatter callWithBlock := by
  intro pr formatter p
  simp only [callWithBlock, withBlockArgument?_formatter]
  rfl

@[simp] theorem ignores_command : IgnoresFormatter (.ofDoc command) := by
  intro pr formatter p
  simp only [Rule.ofDoc, command, commandAnd_formatter]

@[simp] theorem ignores_receiverCommand : IgnoresFormatter (.ofDoc receiverCommand) := by
  intro pr formatter p
  simp only [Rule.ofDoc, receiverCommand, receiverCommandAnd_formatter]

@[simp] theorem ignores_superCall : IgnoresFormatter (.ofDoc superCall) := by
  intro pr formatter p
  simp only [Rule.ofDoc, superCall, argumentList_formatter]
  rfl

@[simp] theorem ignores_yieldCall : IgnoresFormatter (.ofDoc yieldCall) := by
  intro pr formatter p
  simp only [Rule.ofDoc, yieldCall, argumentList_formatter]
  rfl

@[simp] theorem ignores_whenClause : IgnoresFormatter (.ofDoc whenClause) := by
  intro pr formatter p
  simp only [Rule.ofDoc, whenClause, argumentList_formatter]
  rfl

@[simp] theorem ignores_rescueExceptions : IgnoresFormatter (.ofDoc rescueExceptions) := by
  intro pr formatter p
  simp only [Rule.ofDoc, rescueExceptions, exceptions_formatter]
  rfl

@[simp] theorem ignores_returnJump : IgnoresFormatter (.ofDoc returnJump) := by
  intro pr formatter p
  simp only [Rule.ofDoc, returnJump, returnedValues_formatter, argumentList_formatter]
  rfl

@[simp] theorem ignores_jump (word : String) : IgnoresFormatter (.ofDoc (jump word)) := by
  intro pr formatter p
  simp only [Rule.ofDoc, jump, argumentList_formatter]
  rfl

/-- An entry gives the same with a formatter that always fails as without one. -/
def FallsBack (e : Entry) : Prop :=
  ∀ (pr : Printer) (format : Formatter) (p : Place), pr.options.embeddedFallback = true →
    AlwaysFails format →
      e.rule { pr with formatter := some format } p = e.rule { pr with formatter := none } p

theorem FallsBack.apply {e : Entry} (h : FallsBack e) (pr : Printer) {format : Formatter}
    (hfallback : pr.options.embeddedFallback = true) (hformat : AlwaysFails format) (p : Place) :
    Printer.apply { pr with formatter := some format } e.rule p =
      Printer.apply { pr with formatter := none } e.rule p := by
  unfold Printer.apply
  rw [h pr format p hfallback hformat]

@[simp] theorem FallsBack.of_ignores {e : Entry} (h : IgnoresFormatter e.rule) : FallsBack e :=
  fun pr format p _ _ => (h pr (some format) p).trans (h pr none p).symm

@[simp] theorem fallsBack_heredoc (name : String) : FallsBack ⟨name, .ofDoc heredoc⟩ := by
  intro pr format p hfallback hformat
  simp only [Rule.ofDoc, heredoc_of_alwaysFails hformat hfallback]

/-- All rules but that of heredocs ignore the formatter. Those that do not say so by definition are
tagged above. -/
theorem fallsBack_all : ∀ x ∈ all, FallsBack x.entry := by
  simp only [all, tokens, literals, statements, expressions, collections, calls, definitions,
    branches, flow, List.forall_mem_append, List.forall_mem_cons, List.not_mem_nil, false_imp_iff,
    implies_true, and_true, plain, placing, linking]
  and_intros
  all_goals first
    | simp
    | exact .of_ignores fun _ _ _ => rfl

end Rules

namespace Registry

variable {format : Formatter} {o : Options}

/-! ## The registry -/

theorem printer_formatter_eq {r : Registry} {formatter formatter' : Option Formatter} {depth : Nat}
    (h : (r.printer o formatter depth).visit = (r.printer o formatter' depth).visit) :
    r.printer o formatter depth = { r.printer o formatter' depth with formatter := formatter } := by
  cases depth with
  | zero => rfl
  | succ depth =>
      unfold printer at h ⊢
      simp only at h ⊢
      rw [h]

theorem visit_printer_of_alwaysFails (hformat : Rules.AlwaysFails format)
    (hfallback : o.embeddedFallback = true) (depth : Nat) :
    (Registry.default.printer o (some format) depth).visit =
      (Registry.default.printer o none depth).visit := by
  induction depth with
  | zero => rfl
  | succ depth ih =>
      funext p
      unfold printer
      simp only [dispatch]
      split
      · next e he =>
          obtain ⟨x, hx, -, rfl⟩ := mem_all_of_find? he
          have happly := (Rules.fallsBack_all x hx).apply
            (Registry.default.printer o none depth) (by rwa [options_printer]) hformat p
          rw [← printer_formatter_eq ih, ← printer_formatter_eq rfl] at happly
          exact happly
      · rfl

end Registry

/-- Where bodies may stay as they are, a formatter that always fails is as good as none: the text
is the same, or the fault is. -/
theorem formatTree_falls_back (o : Options) (format : Formatter) (tree : Tree)
    (hfallback : o.embeddedFallback = true)
    (hformat : ∀ content language, ∃ reason, format content language = .error reason) :
    formatTree o (some format) tree = formatTree o none tree := by
  have hroot (settled : Tree) : Registry.default.visitRoot o (some format) settled =
      Registry.default.visitRoot o none settled :=
    congrFun (Registry.visit_printer_of_alwaysFails hformat hfallback settled.depth) (.root settled)
  simp only [formatTree, Registry.print, hroot]

def sampleQuery : Tree :=
  let parts := [Node.stringPart "  select\n", Node.stringPart "    1\n"]
  .program [.plain "heredoc" [.text "<<~SQL", .list (parts.map .node), .text "SQL\n"]]

theorem formatTree_falls_back_sample :
    formatTree { Options.default with embeddedFallback := true }
        (some fun _ _ => .error (.embedded "down")) sampleQuery =
      formatTree { Options.default with embeddedFallback := true } none sampleQuery ∧
    formatTree { Options.default with embeddedFallback := true } none sampleQuery =
      .ok "<<~SQL\n  select\n    1\nSQL\n" ∧
    (formatTree { Options.default with embeddedFallback := true }
        (some fun content language => .ok (language ++ ":" ++ content)) sampleQuery).toOption =
      some "<<~SQL\n  sql:select\n    1\nSQL\n" :=
  ⟨formatTree_falls_back { Options.default with embeddedFallback := true }
    (fun _ _ => .error (.embedded "down")) sampleQuery rfl fun _ _ => ⟨_, rfl⟩, rfl,
    by decide +kernel⟩

end RubyPretty
