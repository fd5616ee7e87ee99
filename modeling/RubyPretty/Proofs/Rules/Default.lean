import RubyPretty.Proofs.Rules.Jumps
/-!
# All rules keep what is owed

Each entry of the registry has its lemma. Printers that go down one node further are sound if those
above are, so the printer of a whole tree is.
-/

namespace RubyPretty

open Doc Keep

namespace Rules

variable {k : Keep}

/-! ## Entries -/

/-- A rule keeps what is owed of nodes with its tags, and their comments if it places them. -/
def EntryKeeps (k : Keep) (x : Registration) : Prop :=
  ∀ pr p, k.Sound pr → Value.Conforms (.node p.node) → p.node.tag ∈ x.tags →
    Yields (x.entry.rule pr p) fun printed =>
      Chained k p.node printed ∧ (x.ownComments = true → k.due p.node ≤ minCount k.text printed.doc)

@[simp] theorem entryKeeps_plain {tags : List String} {name : String} {rule : DocRule}
    (h : k.Keeps tags rule) : EntryKeeps k (plain tags name rule) :=
  fun pr p hpr hp htag => .bind (h pr p hpr hp htag) fun _ hd =>
    .pure ⟨chained_of_doc hd, fun hown => by cases hown⟩

@[simp] theorem entryKeeps_placing {tags : List String} {name : String} {rule : DocRule}
    (h : Places k tags rule) : EntryKeeps k (placing tags name rule) :=
  fun pr p hpr hp htag => .bind (h pr p hpr hp htag) fun _ hd =>
    .pure ⟨chained_of_doc (Nat.le_trans (owed_le_due _) hd), fun _ => hd⟩

@[simp] theorem entryKeeps_linking {tags : List String} {name : String} {rule : Rule}
    (h : Links k tags rule) : EntryKeeps k (linking tags name rule) :=
  fun pr p hpr hp htag => (h pr p hpr hp htag).mono fun _ hd => ⟨hd, fun hown => by cases hown⟩

/-- Every rule keeps what is owed. The lemmas of the rules are tagged where they stand; those of
rules that have nothing to keep go by the tags. -/
theorem entryKeeps_all : ∀ x ∈ all, EntryKeeps k x := by
  simp only [all, tokens, literals, statements, expressions, collections, calls, definitions,
    branches, flow, List.forall_mem_append, List.forall_mem_cons, List.not_mem_nil, false_imp_iff,
    implies_true, and_true]
  and_intros
  all_goals first
    | simp [callWithArguments, command, receiverCommand]
    | exact entryKeeps_plain (keeps_unnamed (by decide) _)
    | exact entryKeeps_plain (keeps_childless (by decide) _)

end Rules

namespace Registry

variable {k : Keep} {pr : Printer}

/-! ## The registry -/

theorem mem_of_lookup_eq_some {β : Type} {key : String} {b : β} {l : List (String × β)}
    (h : l.lookup key = some b) : (key, b) ∈ l := by
  induction l with
  | nil => cases h
  | cons x l ih =>
      rw [List.lookup_cons] at h
      split at h
      · next hkey =>
          obtain rfl := beq_iff_eq.mp hkey
          cases h
          exact List.mem_cons_self
      · exact List.mem_cons_of_mem x (ih h)

theorem mem_all_of_find? {tag : String} {e : Entry} (h : Registry.default.find? tag = some e) :
    ∃ x ∈ Rules.all, tag ∈ x.tags ∧ x.entry = e := by
  have hmem := mem_of_lookup_eq_some h
  simp only [Registry.default, List.mem_flatMap, List.mem_map, Prod.mk.injEq] at hmem
  obtain ⟨x, hx, tag', htag, rfl, rfl⟩ := hmem
  exact ⟨x, hx, htag, rfl⟩

theorem ownComments_of_mem {tag : String} {x : Registration} (hx : x ∈ Rules.all)
    (htag : tag ∈ x.tags) : Registry.default.ownComments tag = x.ownComments := by
  have hall : (Rules.all.all fun x => x.tags.all fun tag =>
      Registry.default.ownComments tag == x.ownComments) = true := by decide +kernel
  exact beq_iff_eq.mp (List.all_eq_true.mp (List.all_eq_true.mp hall x hx) tag htag)

theorem find?_of_dispatch {r : Registry} {n : Tree} {e : Entry} (h : r.dispatch n = .ok e) :
    r.find? n.tag = some e := by
  unfold dispatch at h
  split at h
  · next he => rw [he, Except.ok.inj h]
  · cases h

/-- A rule is applied with the comments of its node, unless it has placed them itself. -/
theorem covers_apply (hpr : k.Sound pr) {p : Place} (hp : Value.Conforms (.node p.node)) {e : Entry}
    (he : Registry.default.find? p.node.tag = some e) :
    Yields (pr.apply e.rule p) (k.Covers p.node) := by
  obtain ⟨x, hx, htag, rfl⟩ := mem_all_of_find? he
  have howns : pr.ownComments p.node.tag = x.ownComments := by
    rw [hpr.ownComments, ownComments_of_mem hx htag]
  have hbare : p.node.comments = [] → k.due p.node = k.owed (.node p.node) := by
    intro h
    have hown := own_le (k := k) p.node
    rw [h, notes_nil, Nat.le_zero] at hown
    rw [due, hown, Nat.add_zero]
  refine .bind (Rules.entryKeeps_all x hx pr p hpr hp htag) fun printed hprinted => ?_
  obtain ⟨⟨hdoc, hlink⟩, hplaced⟩ := hprinted
  -- a node with comments leaves no chain behind, so the pieces of one lack no comment
  have hlink : ∀ link, printed.link = some link →
      k.due p.node ≤ minCountAll k.text link.fragments := by
    intro link hl
    obtain ⟨hcomments, hfragments⟩ := hlink link hl
    rw [hbare hcomments]
    exact hfragments
  split
  · refine .liftBind fun d hd => .pure ⟨?_, hlink⟩
    have hspliced := minCount_splice (k := k) hd
    have hown := own_le (k := k) p.node
    rw [due]
    simp only
    omega
  · next hplain =>
      refine .pure ⟨?_, hlink⟩
      cases howned : x.ownComments with
      | true => exact hplaced howned
      | false =>
          rw [howns, howned] at hplain
          rw [hbare (by simpa [Node.hasComments] using hplain)]
          exact hdoc

/-- The printer of the registry keeps all that is due, however deep it goes. -/
theorem sound_printer (o : Options) (formatter : Option Formatter)
    (hnames : k.names = true → o.toProc = false) (depth : Nat) :
    k.Sound (Registry.default.printer o formatter depth) := by
  induction depth with
  | zero => exact ⟨fun _ _ => .throw _, hnames, rfl⟩
  | succ depth ih =>
      refine ⟨fun p hp => .liftBind fun e he => ?_, hnames, rfl⟩
      exact covers_apply ih hp (find?_of_dispatch he)

/-! ## Comments around a rule -/

variable {o : Options} {formatter : Option Formatter} {depth : Nat} {p : Place} {P : Doc → Prop}

theorem options_printer (o : Options) (formatter : Option Formatter) (depth : Nat) :
    (Registry.default.printer o formatter depth).options = o := by
  cases depth <;> rfl

theorem formatter_printer (o : Options) (formatter : Option Formatter) (depth : Nat) :
    (Registry.default.printer o formatter depth).formatter = formatter := by
  cases depth <;> rfl

theorem ownComments_printer (o : Options) (formatter : Option Formatter) (depth : Nat) :
    (Registry.default.printer o formatter depth).ownComments = Registry.default.ownComments := by
  cases depth <;> rfl

theorem yields_apply_spliced {rule : Rule} (hown : pr.ownComments p.node.tag = false)
    (h : Yields (rule pr p) fun printed => P printed.doc) :
    Yields (pr.apply rule p) fun printed =>
      ∃ base, P base ∧ Comments.splice base p.node.comments p.node.endLine? = .ok printed.doc := by
  refine .bind h fun printed hprinted => ?_
  rw [hown]
  split
  · exact .liftBind fun d hd => .pure ⟨_, hprinted, hd⟩
  · next hbare =>
      refine .pure ⟨_, hprinted, ?_⟩
      have hnone : p.node.comments = [] := by simpa [Node.hasComments] using hbare
      rw [hnone]
      rfl

/-- A node is printed by the rule of its tag, with its comments around what the rule prints. -/
theorem yields_visit_spliced
    (h : ∀ e, Registry.default.find? p.node.tag = some e →
      Registry.default.ownComments p.node.tag = false ∧
      ∀ depth, Yields (e.rule (Registry.default.printer o formatter depth) p) fun printed =>
        P printed.doc) :
    Yields ((Registry.default.printer o formatter depth).visit p) fun printed =>
      ∃ base, P base ∧ Comments.splice base p.node.comments p.node.endLine? = .ok printed.doc := by
  cases depth with
  | zero => exact .throw _
  | succ depth =>
      refine .liftBind fun e he => ?_
      obtain ⟨hown, hrule⟩ := h e (find?_of_dispatch he)
      rw [← ownComments_printer o formatter depth] at hown
      exact yields_apply_spliced hown (hrule depth)

theorem yields_visit_placed
    (h : ∀ e, Registry.default.find? p.node.tag = some e →
      Registry.default.ownComments p.node.tag = true ∧
      ∀ depth, Yields (e.rule (Registry.default.printer o formatter depth) p) fun printed =>
        P printed.doc) :
    Yields ((Registry.default.printer o formatter depth).visit p) fun printed => P printed.doc := by
  cases depth with
  | zero => exact .throw _
  | succ depth =>
      refine .liftBind fun e he => ?_
      obtain ⟨hown, hrule⟩ := h e (find?_of_dispatch he)
      refine .bind (hrule depth) fun printed hprinted => ?_
      rw [ownComments_printer o formatter depth, hown, Bool.not_true, Bool.and_false]
      exact .pure hprinted

end Registry

end RubyPretty
