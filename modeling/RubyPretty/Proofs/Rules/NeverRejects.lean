import RubyPretty.Proofs.Printing.RejectsOnly
import RubyPretty.Rules.Default
/-!
# What the rules ask of a tree

Before a rule prints the parts of its node it asks for their shape. A shape that does not fit is a
`malformed` fault and never a rejection.
-/

namespace RubyPretty

variable (v : Value) (vs : List Value) (n : Tree) (p : Place) (o : Options)

/-! ## Shapes -/

namespace Shape

@[simp] theorem neverRejects_operatorIn (texts : List String) :
    NeverRejects (operatorIn texts v) := by
  cases v <;> simp [operatorIn]

@[simp] theorem neverRejects_isAndOr : NeverRejects (isAndOr n) := by
  simp [isAndOr]

@[simp] theorem neverRejects_isKeywordPredicate : NeverRejects (isKeywordPredicate n) := by
  simp [isKeywordPredicate]

@[simp] theorem neverRejects_isTernaryBranch : NeverRejects (isTernaryBranch n) := by
  unfold isTernaryBranch
  split
  · simp
  · split <;> simp

@[simp] theorem neverRejects_canTernary : NeverRejects (canTernary n) := by
  unfold canTernary
  split <;> simp

@[simp] theorem neverRejects_isSingleConditional : NeverRejects (isSingleConditional n) := by
  unfold isSingleConditional
  split <;> simp

@[simp] theorem neverRejects_plainContent : NeverRejects (plainContent vs) := by
  simp [plainContent]

@[simp] theorem neverRejects_isValidLabel : NeverRejects (isValidLabel n) := by
  simp [isValidLabel]

@[simp] theorem neverRejects_quotedSymbolText : NeverRejects (quotedSymbolText n) := by
  unfold quotedSymbolText
  split <;> simp

@[simp] theorem neverRejects_canBeLabel : NeverRejects (canBeLabel n) := by
  unfold canBeLabel
  split <;> simp

@[simp] theorem neverRejects_canUseLabels : NeverRejects (canUseLabels vs) := by
  simp [canUseLabels]

@[simp] theorem neverRejects_keyName? : NeverRejects (keyName? n) := by
  unfold keyName?
  split <;> simp

@[simp] theorem neverRejects_holdsEscapes : NeverRejects (holdsEscapes v) := by
  cases v <;> simp [holdsEscapes]

@[simp] theorem neverRejects_isLockedPart : NeverRejects (isLockedPart v) := by
  simp [isLockedPart]

@[simp] theorem neverRejects_preferredQuote (source preferred : String) :
    NeverRejects (preferredQuote source vs preferred) := by
  simp [preferredQuote, isQuoteLocked]

@[simp] theorem neverRejects_isEmptyStatements : NeverRejects (isEmptyStatements v) := by
  cases v <;> simp [isEmptyStatements]

@[simp] theorem neverRejects_isEmptyBody : NeverRejects (isEmptyBody n) := by
  unfold isEmptyBody
  split <;> simp

@[simp] theorem neverRejects_isEmptyParams : NeverRejects (isEmptyParams v) := by
  unfold isEmptyParams
  split
  · simp
  · split
    · simp
    · refine .bind (by simp) fun inner => ?_
      split <;> simp
  · simp

@[simp] theorem neverRejects_skipsAssignIndent : NeverRejects (skipsAssignIndent v) := by
  induction v using Value.induction with
  | node n ih =>
      obtain ⟨tag, body, comments, loc⟩ := n
      unfold skipsAssignIndent
      split
      · simp
      · split
        · match body, ih with
          | [], _ => simp
          | receiver :: rest, ih => exact ih receiver List.mem_cons_self
        · simp
  | null | bool | int | real | text | list => exact neverRejects_error.mpr rfl

@[simp] theorem neverRejects_singleParam? : NeverRejects (singleParam? n) := by
  unfold singleParam?
  split
  · refine .bind (by simp) fun reqs => ?_
    split
    · simp
    · split <;> simp
  · simp

@[simp] theorem neverRejects_blockStatements? : NeverRejects (blockStatements? n) := by
  unfold blockStatements?
  split
  · simp
  · refine .bind (by simp) fun body => ?_
    split <;> simp

@[simp] theorem neverRejects_methodOn? (param stmt : Tree) :
    NeverRejects (methodOn? param stmt) := by
  unfold methodOn?
  split
  · simp
  · split
    · refine .bind (by simp) fun receiver => ?_
      split
      · simp
      · refine .bind (by simp) fun name => .bind (by simp) fun _ => .bind (by simp) fun _ => ?_
        split
        · simp
        · refine .bind (by simp) fun _ => ?_
          split
          · simp
          · split <;> simp
    · simp

@[simp] theorem neverRejects_toProc : NeverRejects (toProc n) := by
  refine .bind (by simp) fun vars => ?_
  split
  · simp
  · refine .bind (by simp) fun _ => .bind (by simp) fun params => .bind (by simp) fun param => ?_
    split
    · refine .bind (by simp) fun stmts => ?_
      split
      · refine .bind (by simp) fun statements => ?_
        split <;> simp
      · simp
    · simp

@[simp] theorem neverRejects_isStringWord : NeverRejects (isStringWord v) := by
  refine .bind (by simp) fun n => ?_
  split
  · simp
  · split
    · refine .bind (by simp) fun parts => ?_
      split <;> simp
    · simp

@[simp] theorem neverRejects_isSymbolWord : NeverRejects (isSymbolWord v) := by
  simp [isSymbolWord]

@[simp] theorem neverRejects_isStringArray : NeverRejects (isStringArray vs) := by
  simp [isStringArray]

@[simp] theorem neverRejects_isSymbolArray : NeverRejects (isSymbolArray vs) := by
  simp [isSymbolArray]

end Shape

/-! ## Comments and chains -/

@[simp] theorem Comments.neverRejects_isBelow (line : Option Coordinate) (c : Comment) :
    NeverRejects (isBelow line c) := by
  unfold isBelow
  split <;> simp

@[simp] theorem Comments.neverRejects_after (line : Option Coordinate) (c : Comment) :
    NeverRejects (after line c) := by
  simp [after]

@[simp] theorem Comments.neverRejects_splice (doc : Doc) (comments : List Comment)
    (line : Option Coordinate) : NeverRejects (splice doc comments line) := by
  simp [splice]

@[simp] theorem Comments.neverRejects_partitionInner : NeverRejects (partitionInner n) := by
  unfold partitionInner
  split <;> simp [isInside]

namespace Chain

@[simp] theorem neverRejects_isSignatureCall : NeverRejects (isSignatureCall n) := by
  simp [isSignatureCall]

@[simp] theorem neverRejects_nearestIsSignature (ns : List Tree) :
    NeverRejects (nearestIsSignature ns) := by
  induction ns with
  | nil => simp [nearestIsSignature]
  | cons n ns ih => simp [nearestIsSignature, ih]

@[simp] theorem neverRejects_threshold : NeverRejects (threshold o p) := by
  simp [threshold, inSignature]

@[simp] theorem neverRejects_next (link : Option Link) (doc : Doc) (pieces : List Doc)
    (isCall : Bool) :
    NeverRejects (next p v link doc pieces isCall) := by
  simp [next]

end Chain

/-! ## Rules -/

namespace Rules

@[simp] theorem neverRejects_plainText : NeverRejects (plainText v) := by
  cases v <;> simp [plainText]

@[simp] theorem neverRejects_operatorValue : NeverRejects (operatorValue v) := by
  cases v <;> simp [operatorValue]

@[simp] theorem neverRejects_spliceLast (comments : List Comment) (docs : List Doc) :
    NeverRejects (spliceLast comments docs) := by
  fun_induction spliceLast comments docs <;> simp [*]

@[simp] theorem neverRejects_argumentNodes : NeverRejects (argumentNodes v) := by
  induction v using Value.induction with
  | node n ih =>
      obtain ⟨tag, body, comments, loc⟩ := n
      unfold argumentNodes
      split
      · simp
      · split
        · match body, ih with
          | [], _ | [_], _ | _ :: _ :: _ :: _, _ => simp
          | [args, block], ih => simp [ih args List.mem_cons_self]
        · simp
  | null => simp [argumentNodes]
  | bool | int | real | text | list => simp [argumentNodes]

@[simp] theorem neverRejects_hasBlockArgument : NeverRejects (hasBlockArgument n) := by
  simp [hasBlockArgument]

@[simp] theorem neverRejects_argumentsComma : NeverRejects (argumentsComma o v) := by
  unfold argumentsComma
  split
  · simp
  · refine .bind (by simp) fun n => .bind (by simp) fun _ => ?_
    split
    · simp
    · refine .bind (by simp) fun nodes => ?_
      split <;> simp

@[simp] theorem neverRejects_parenthesized (pr : Printer) (docs : List Doc) :
    NeverRejects (parenthesized pr v docs) := by
  simp [parenthesized]

@[simp] theorem neverRejects_emptyCollection (opening closing : String) :
    NeverRejects (emptyCollection n opening closing) := by
  simp [emptyCollection]

@[simp] theorem neverRejects_wordText : NeverRejects (wordText v) := by
  simp [wordText]

@[simp] theorem neverRejects_stringWordText : NeverRejects (stringWordText v) := by
  refine .bind (by simp) fun n => .bind (by simp) fun parts => .bind (by simp) fun vs => ?_
  split <;> simp

@[simp] theorem neverRejects_symbolWordText : NeverRejects (symbolWordText v) := by
  simp [symbolWordText]

@[simp] theorem neverRejects_asWords? : NeverRejects (asWords? o vs) := by
  simp [asWords?]

@[simp] theorem neverRejects_callOperator (operator message : Value) :
    NeverRejects (callOperator operator message) := by
  refine .bind (by simp) fun operator => ?_
  split <;> simp

@[simp] theorem neverRejects_isWhereNot : NeverRejects (isWhereNot n v) := by
  unfold isWhereNot
  split
  · simp
  · split
    · split
      · simp
      · refine .bind (by simp) fun inner => ?_
        split <;> simp
    · simp

@[simp] theorem neverRejects_keepsParens : NeverRejects (keepsParens n) := by
  simp [keepsParens]

@[simp] theorem neverRejects_hasTernaryArgument : NeverRejects (hasTernaryArgument v) := by
  simp [hasTernaryArgument]

@[simp] theorem neverRejects_startsWithDef : NeverRejects (startsWithDef v) := by
  refine .bind (by simp) fun nodes => ?_
  split <;> simp

@[simp] theorem neverRejects_toProcAllowed : NeverRejects (toProcAllowed o p) := by
  unfold toProcAllowed
  split
  · simp
  · split <;> simp

@[simp] theorem neverRejects_shorthand? (pr : Printer) : NeverRejects (shorthand? pr p n) := by
  simp [shorthand?]

@[simp] theorem neverRejects_holdsOnlyVoid : NeverRejects (holdsOnlyVoid v) := by
  simp [holdsOnlyVoid, isVoid]

@[simp] theorem neverRejects_bodyParts : NeverRejects (bodyParts n) := by
  simp [bodyParts]

@[simp] theorem neverRejects_pairParts : NeverRejects (pairParts v) := by
  refine .bind (by simp) fun parts => ?_
  split <;> simp

@[simp] theorem neverRejects_bodyHasComments : NeverRejects (bodyHasComments v) := by
  simp [bodyHasComments]

@[simp] theorem neverRejects_canBeTernary : NeverRejects (canBeTernary o n) := by
  simp [canBeTernary]

@[simp] theorem neverRejects_refusesModifier (predicate stmts : Value) :
    NeverRejects (refusesModifier predicate stmts) := by
  simp [refusesModifier]

@[simp] theorem neverRejects_isBareBody : NeverRejects (isBareBody n) := by
  simp [isBareBody]

@[simp] theorem neverRejects_usesLabels : NeverRejects (usesLabels o vs) := by
  simp [usesLabels]

@[simp] theorem neverRejects_heredocContent? : NeverRejects (heredocContent? vs) := by
  simp [heredocContent?]

@[simp] theorem neverRejects_onlyArgument? (around : List Tree) :
    NeverRejects (onlyArgument? around v) := by
  induction v using Value.induction generalizing around with
  | node n ih =>
      obtain ⟨tag, body, comments, loc⟩ := n
      unfold onlyArgument?
      split
      · match body, ih with
        | [], _ | [_], _ | _ :: _ :: _ :: _, _ => simp
        | [inner, block], ih => simp [ih inner List.mem_cons_self]
      · split
        · match body, ih with
          | [], _ | _ :: _ :: _, _ => simp
          | [inner], ih => simp [ih inner List.mem_cons_self]
        · simp
  | null | bool | int | real | text | list => simp [onlyArgument?]

@[simp] theorem neverRejects_parenStatement? : NeverRejects (parenStatement? p) := by
  unfold parenStatement?
  split
  · simp
  · refine .bind (by simp) fun contents => ?_
    split
    · simp
    · refine .bind (by simp) fun stmts => ?_
      split
      · simp
      · split <;> simp

@[simp] theorem neverRejects_canSkipReturnParens : NeverRejects (canSkipReturnParens n) := by
  simp [canSkipReturnParens]

@[simp] theorem neverRejects_isAccessControl : NeverRejects (isAccessControl n) := by
  simp [isAccessControl]

@[simp] theorem neverRejects_extreme {before : Coordinate → Coordinate → Outcome Bool}
    (h : ∀ a b, NeverRejects (before a b)) (cs : List Coordinate) :
    NeverRejects (extreme before cs) := by
  cases cs <;> simp [extreme, h]

@[simp] theorem neverRejects_firstLine : NeverRejects (firstLine n) := by
  simp [firstLine]

@[simp] theorem neverRejects_lastLine : NeverRejects (lastLine n) := by
  simp [lastLine]

@[simp] theorem neverRejects_isGap (first last : Option Coordinate) :
    NeverRejects (isGap first last) := by
  unfold isGap
  split
  · split <;> simp
  · simp

@[simp] theorem neverRejects_statementBreak (inInterpolation : Bool) (previous stmt : Tree) :
    NeverRejects (statementBreak inInterpolation previous stmt) := by
  simp [statementBreak]

end Rules

end RubyPretty
