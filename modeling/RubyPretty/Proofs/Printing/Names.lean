import Mathlib.Data.Multiset.Count
import RubyPretty.Proofs.Comments.Attach
import RubyPretty.Proofs.Rules.Default
/-!
# No name is lost

A name token of a tree has a text of its own in the document, whichever way the choices in the
document are decided.
-/

namespace RubyPretty

open Doc

/-- What a printer of Ruby yields: a document that covers the tree with its comments in place. -/
theorem covers_printTree {o : Options} {formatter : Option Formatter} {tree : Tree} {doc : Doc}
    (h : printTree o formatter tree = .ok doc) :
    ∃ settled attached, settleComments tree = .ok (settled, attached) ∧
      ∀ k : Keep, (k.names = true → o.toProc = false) → Value.Conforms (.node settled) →
        k.due settled ≤ minCount k.text doc := by
  unfold printTree Registry.print at h
  simp only [Except.bind_eq_ok] at h
  obtain ⟨out, ⟨-, -, ⟨settled, attached⟩, hsettled, ⟨printed, chains⟩, hrun, hout⟩, hdoc⟩ := h
  cases hout
  cases hdoc
  refine ⟨settled, attached, hsettled, fun k hnames hfits => ?_⟩
  exact ((Registry.sound_printer o formatter hnames settled.depth).visit (.root settled) hfits _ _ _
    hrun).1

/-! ## Names -/

def Node.names (tree : Tree) : List String :=
  (tree.walk.filter fun n => nameTags.contains n.tag).filterMap (·.text?)

theorem Node.names_bare (tree : Tree) : tree.bare.names = tree.names := by
  have hwalk := Value.walk_bare (.node tree)
  rw [Value.bare_node] at hwalk
  rw [names, names, walk, hwalk, List.filter_map, List.filterMap_map]
  exact congrArg (List.filterMap · _) (funext Node.text?_bare)

namespace Keep

def ofName (x : String) (hx : x ≠ "") : Keep := ⟨x, true, false, hx, fun h => by cases h⟩

variable {x : String} {hx : x ≠ ""}

theorem here_ofName (n : Tree) : (ofName x hx).here n = (ofName x hx).name n := by
  have hnotes : ∀ cs, (ofName x hx).notes cs = 0 := fun cs => rfl
  have hown : ∀ v, (ofName x hx).ownOf v = 0 := by
    intro v
    cases v with
    | node m => exact Nat.le_zero.mp (own_le m)
    | _ => rfl
  have hsum : (n.body.map (ofName x hx).ownOf).sum = 0 := by
    refine List.sum_eq_zero_iff_forall_eq_nat.mpr fun m hm => ?_
    obtain ⟨v, -, rfl⟩ := List.mem_map.mp hm
    exact hown v
  rw [here, hnotes, hsum]
  simp

theorem sum_here_ofName (tree : Tree) :
    (tree.walk.map (ofName x hx).here).sum = tree.names.count x := by
  rw [Node.names]
  induction tree.walk with
  | nil => rfl
  | cons n ns ih =>
      rw [List.map_cons, List.sum_cons, ih, here_ofName, name, List.filter_cons]
      cases hname : nameTags.contains n.tag with
      | false => simp
      | true =>
          cases htext : n.text? with
          | none => simp [htext]
          | some s =>
              by_cases hs : s = x
              · simp [htext, hs, ofName]
                omega
              · simp [htext, hs, ofName]

theorem count_names_le_owed (tree : Tree) :
    tree.names.count x ≤ (ofName x hx).owed (.node tree) := by
  have hlost : (tree.walk.map (ofName x hx).lost).sum = 0 := by
    refine List.sum_eq_zero_iff_forall_eq_nat.mpr fun m hm => ?_
    obtain ⟨n, -, rfl⟩ := List.mem_map.mp hm
    rfl
  have howed : (tree.walk.map (ofName x hx).here).sum ≤
      (ofName x hx).owed (.node tree) + (tree.walk.map (ofName x hx).lost).sum :=
    sum_here_le_owed (.node tree)
  rw [sum_here_ofName, hlost] at howed
  exact howed

end Keep

/-- No name is lost: the name tokens of a tree are among the texts of its document. -/
theorem printTree_keeps_names (o : Options) (formatter : Option Formatter) (tree : Tree) (doc : Doc)
    (hgrammar : tree.followsGrammar = true) (hblocks : o.toProc = false)
    (h : printTree o formatter tree = .ok doc) (way : Way) :
    ((tree.names.filter (· ≠ "") : List String) : Multiset String) ≤ (doc.resolve way).leaves := by
  obtain ⟨settled, attached, hsettled, hcovers⟩ := covers_printTree h
  have hbare := bare_settleComments hsettled
  have hfollows : settled.followsGrammar = true := by
    rw [← Node.followsGrammar_bare, hbare, Node.followsGrammar_bare, hgrammar]
  have hnames : settled.names = tree.names := by
    rw [← Node.names_bare, hbare, Node.names_bare]
  rw [Multiset.le_iff_count]
  intro x
  rw [Multiset.coe_count, Multiset.coe_count]
  by_cases hx : x = ""
  · rw [List.count_eq_zero.mpr (by simp [hx])]
    exact Nat.zero_le _
  · have hcount : (tree.names.filter (· ≠ "")).count x = tree.names.count x :=
      List.count_filter (by simpa using hx)
    calc (tree.names.filter (· ≠ "")).count x
      _ = settled.names.count x := by rw [hcount, hnames]
      _ ≤ (Keep.ofName x hx).owed (.node settled) := Keep.count_names_le_owed settled
      _ ≤ (Keep.ofName x hx).due settled := Keep.owed_le_due settled
      _ ≤ minCount x doc := hcovers (.ofName x hx) (fun _ => hblocks) (Node.conforms hfollows)
      _ ≤ (doc.resolve way).leaves.count x := minCount_le_count doc way

/-- A condition with one statement, which may be written as a modifier. -/
def sampleCondition : Tree :=
  .program [.plain "if"
    [.node (.variableCall "ready"), .node (.statements [.variableCall "go"]), .null]]

theorem printTree_keeps_names_sample :
    sampleCondition.followsGrammar = true ∧
      ∃ doc, printTree { Options.default with toProc := false } none sampleCondition = .ok doc ∧
        ∀ way, ((["ready", "go"] : List String) : Multiset String) ≤ (doc.resolve way).leaves :=
  ⟨by decide, _, rfl,
    printTree_keeps_names { Options.default with toProc := false } none sampleCondition _
      (by decide) rfl rfl⟩

end RubyPretty
