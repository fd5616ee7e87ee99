import RubyPretty.Proofs.Layout.Verbatim
import RubyPretty.Proofs.Rules.Fallback
/-!
# Heredocs are written as they were

A heredoc without interpolation that no formatter touches keeps its body character by character,
up to carriage returns before line feeds. This holds wherever the heredoc stands: the line around
it may be nested in indents, alignments and groups, and may hold any number of other heredocs, whose
bodies follow in order.
-/

namespace RubyPretty.Rules

open Layout Layout.State

/-- A part of a body that is no interpolation. -/
structure Fragment where
  node : Tree
  text : String
  plain : node.plainText? = some text

/-- A heredoc without interpolation whose terminator does not end in a blank. -/
structure PlainHeredoc where
  place : Place
  opening : String
  content : Value
  parts : List Fragment
  closing : String
  body_eq : place.node.body = [.text opening, content, .text closing]
  elements_eq : content.elements? = some (parts.map fun part => .node part.node)
  ends : ∃ c, (Text.chomp closing).toList.getLast? = some c ∧ isTrailingBlank c = false

namespace PlainHeredoc

/-- The lines between the opener and the terminator. -/
def body (h : PlainHeredoc) : String :=
  String.join (h.parts.map fun part => Text.unixLines part.text)

def terminator (h : PlainHeredoc) : String := Text.chomp h.closing

/-- The parts of the body, each as it is. -/
def lines (h : PlainHeredoc) : List Doc :=
  h.parts.map fun part => .verbatim (Text.unixLines part.text)

/-- What the heredoc holds back until the end of its line. -/
def below (h : PlainHeredoc) : Doc :=
  .cat [.grouped (.literalLine :: h.lines ++ [Doc.ofString h.terminator])]

def doc (h : PlainHeredoc) : Doc := .cat [h.opening, .suffix h.below]

theorem atoms_below (h : PlainHeredoc) :
    h.below.atoms =
      .literalLine :: (h.lines.flatMap Doc.atoms ++ (Doc.text h.terminator).atoms) := by
  rw [below, Doc.atoms_cat, List.flatMap_singleton, Doc.atoms_grouped, List.flatMap_append,
    List.flatMap_cons, List.flatMap_singleton, Doc.atoms_ofString]
  rfl

end PlainHeredoc

theorem heredocPart_fragment (pr : Printer) (p : Place) (part : Fragment) :
    heredocPart pr p (.node part.node) = pure (.verbatim (Text.unixLines part.text)) := by
  have hplain := part.plain
  unfold Node.plainText? at hplain
  split at hplain
  · next htag =>
      rw [heredocPart_content pr p htag, Node.token, hplain]
      rfl
  · cases hplain

theorem heredoc_plain {pr : Printer} (hpr : pr.formatter = none) (h : PlainHeredoc) :
    heredoc pr h.place = pure h.doc := by
  have hnone : ∀ opener parts, formattedBody? pr opener parts = .ok none := by
    intro opener parts
    rw [formattedBody?, hpr]
    rfl
  have hlines : (h.parts.map fun part => Value.node part.node).mapM (heredocPart pr h.place) =
      pure h.lines := by
    rw [List.mapM_map, PlainHeredoc.lines, ← List.mapM_pure]
    exact congrArg h.parts.mapM (funext fun part => heredocPart_fragment pr h.place part)
  have hsuffix : Doc.suffixed [.grouped (.literalLine :: h.lines ++ [Doc.ofString h.terminator])] =
      .suffix h.below := by
    apply Doc.suffixed_of_atoms
    rw [← Doc.atoms_cat, ← PlainHeredoc.below, h.atoms_below]
    exact List.cons_ne_nil _ _
  unfold heredoc
  rw [h.body_eq]
  simp only [Value.asText, Value.asElements, h.elements_eq, hnone]
  show (List.mapM (heredocPart pr h.place) _ >>= fun lines =>
    pure (Doc.cat [h.opening, .suffixed [.grouped (.literalLine :: lines ++ [_])]])) = _
  rw [hlines, pure_bind]
  exact congrArg (fun d => pure (Doc.cat [h.opening, d])) hsuffix

namespace PlainHeredoc

variable (h : PlainHeredoc)

theorem isBody_below : h.below.IsBody := by
  rw [Doc.IsBody, atoms_below]
  refine ⟨fun a ha => ?_, List.mem_cons_self⟩
  rw [List.mem_cons, List.mem_append] at ha
  rcases ha with rfl | ha | ha
  · exact .inr rfl
  · obtain ⟨line, hline, ha⟩ := List.mem_flatMap.mp ha
    obtain ⟨part, -, rfl⟩ := List.mem_map.mp hline
    exact Doc.mem_atoms_verbatim ha
  · exact .inl ⟨_, Doc.eq_text_of_mem_atoms ha⟩

theorem written_below : h.below.written = ("\n" ++ h.body ++ h.terminator).toList := by
  have hlines : (h.lines.flatMap Doc.atoms).flatMap Doc.chars = h.body.toList := by
    rw [List.flatMap_assoc, lines, body, String.toList_join, List.flatMap_map, List.flatMap_map]
    exact List.flatMap_congr fun part _ => Doc.written_verbatim _
  have hterminator : (Doc.text h.terminator).atoms.flatMap Doc.chars = h.terminator.toList := by
    rw [← Doc.atoms_ofString]
    exact Doc.written_ofString _
  rw [Doc.written, atoms_below, List.flatMap_cons, List.flatMap_append, hlines, hterminator,
    String.toList_append, String.toList_append, List.append_assoc]
  rfl

theorem atoms_doc : h.doc.atoms = (Doc.text h.opening).atoms ++ [.suffix h.below] := by
  rw [doc, Doc.atoms_cat, List.flatMap_cons, List.flatMap_singleton, Doc.atoms_ofString]
  rfl

end PlainHeredoc

/-- A piece of a line. -/
inductive Item where
  | text (s : String)
  | heredoc (h : PlainHeredoc)

namespace Item

def print (pr : Printer) : Item → PrintM Doc
  | .text s => return Doc.ofString s
  | .heredoc h => Rules.heredoc pr h.place

def shown : Item → String
  | .text s => s
  | .heredoc h => h.opening

/-- What a piece adds below its line. -/
def below : Item → String
  | .text _ => ""
  | .heredoc h => "\n" ++ h.body ++ h.terminator

def doc : Item → Doc
  | .text s => Doc.ofString s
  | .heredoc h => h.doc

theorem print_eq {pr : Printer} (hpr : pr.formatter = none) (item : Item) :
    item.print pr = pure item.doc := by
  cases item with
  | text s => rfl
  | heredoc h => exact heredoc_plain hpr h

theorem isLineAtom (item : Item) : ∀ a ∈ item.doc.atoms, a.IsLineAtom := by
  intro a ha
  cases item with
  | text s =>
      rw [doc, Doc.atoms_ofString] at ha
      exact .inl ⟨s, Doc.eq_text_of_mem_atoms ha⟩
  | heredoc h =>
      rw [doc, h.atoms_doc, List.mem_append, List.mem_singleton] at ha
      rcases ha with ha | rfl
      · exact .inl ⟨_, Doc.eq_text_of_mem_atoms ha⟩
      · exact .inr ⟨_, rfl, h.isBody_below⟩

theorem written_doc (item : Item) : item.doc.written = item.shown.toList := by
  cases item with
  | text s => exact Doc.written_ofString s
  | heredoc h =>
      rw [doc, Doc.written, h.atoms_doc, List.flatMap_append, ← Doc.atoms_ofString]
      exact (List.append_nil _).trans (Doc.written_ofString _)

theorem held_doc (item : Item) :
    (item.doc.atoms.filterMap Doc.held?).flatMap Doc.written = item.below.toList := by
  have htext : ∀ x, (Doc.text x).atoms.filterMap Doc.held? = [] := by
    intro x
    rw [List.filterMap_eq_nil_iff]
    intro a ha
    rw [Doc.eq_text_of_mem_atoms ha]
    rfl
  cases item with
  | text s =>
      rw [doc, Doc.atoms_ofString, htext]
      rfl
  | heredoc h =>
      rw [doc, h.atoms_doc, List.filterMap_append, htext]
      exact (List.append_nil _).trans h.written_below

end Item

theorem getLast?_below {items : List Item} (h : ∃ h, .heredoc h ∈ items) :
    ∃ c, (items.flatMap fun item => item.below.toList).getLast? = some c ∧
      isTrailingBlank c = false := by
  induction items with
  | nil =>
      obtain ⟨h, hmem⟩ := h
      cases hmem
  | cons item items ih =>
      rw [List.flatMap_cons]
      by_cases hrest : ∃ h, .heredoc h ∈ items
      · obtain ⟨c, hc, hink⟩ := ih hrest
        exact ⟨c, by rw [List.getLast?_append, hc]; rfl, hink⟩
      · have hnothing : (items.flatMap fun item => item.below.toList) = [] := by
          rw [List.flatMap_eq_nil_iff]
          intro item hitem
          cases item with
          | text s => rfl
          | heredoc h => exact absurd ⟨h, hitem⟩ hrest
        obtain ⟨h, hmem⟩ := h
        obtain rfl : .heredoc h = item :=
          (List.mem_cons.mp hmem).resolve_right fun hmem => hrest ⟨h, hmem⟩
        obtain ⟨c, hc, hink⟩ := h.ends
        refine ⟨c, ?_, hink⟩
        rw [hnothing, List.append_nil, Item.below, String.toList_append, List.getLast?_append,
          PlainHeredoc.terminator, hc]
        rfl

section Lines

variable {items : List Item} {line : List Doc}
  (hline : line.flatMap Doc.atoms = (items.map Item.doc).flatMap Doc.atoms)
include hline

theorem isLineAtom_of_mem_line : ∀ a ∈ line.flatMap Doc.atoms, a.IsLineAtom := by
  rw [hline, List.flatMap_map]
  intro a ha
  obtain ⟨item, -, ha⟩ := List.mem_flatMap.mp ha
  exact item.isLineAtom a ha

theorem written_line : line.flatMap Doc.written = (String.join (items.map Item.shown)).toList := by
  calc line.flatMap Doc.written
      = (line.flatMap Doc.atoms).flatMap Doc.chars := List.flatMap_assoc.symm
    _ = items.flatMap fun item => item.doc.written := by
        rw [hline, List.flatMap_map, List.flatMap_assoc]
        rfl
    _ = (items.map Item.shown).flatMap String.toList := by
        rw [List.flatMap_map]
        exact List.flatMap_congr fun item _ => item.written_doc
    _ = (String.join (items.map Item.shown)).toList := String.toList_join.symm

theorem written_heldIn_line :
    (Doc.heldIn line).flatMap Doc.written = items.flatMap fun item => item.below.toList := by
  rw [Doc.heldIn, hline, List.flatMap_map, List.filterMap_flatMap, List.flatMap_assoc]
  exact List.flatMap_congr fun item _ => item.held_doc

end Lines

/-- Heredocs that are not formatted come out verbatim. However a line with heredocs is nested, it is
written as it stands, and below it each body between a line feed and its terminator, in order and
with nothing changed. -/
theorem render_heredocs_verbatim (page : Page) (pr : Printer) (hpr : pr.formatter = none)
    (items : List Item) (hsome : ∃ h, .heredoc h ∈ items) (notes : List ChainNote) :
    ∃ docs, (items.mapM (Item.print pr)).run notes = .ok (docs, notes) ∧
      ∀ line : List Doc, line.flatMap Doc.atoms = docs.flatMap Doc.atoms →
        render page (.seq (line ++ [.hardline])) =
          String.join (items.map Item.shown) ++ String.join (items.map Item.below) ++ "\n" ∧
        (Text.canHoldBlanks page.tab = true → (∀ d ∈ line, d.every Doc.isWritable = true) →
          render? page (.seq (line ++ [.hardline])) =
            some (String.join (items.map Item.shown) ++ String.join (items.map Item.below) ++
              "\n")) := by
  have hprint : items.mapM (Item.print pr) = pure (items.map Item.doc) := by
    rw [← List.mapM_pure]
    exact congrArg items.mapM (funext fun item => item.print_eq hpr)
  refine ⟨items.map Item.doc, by rw [hprint]; rfl, fun line hline => ?_⟩
  obtain ⟨c, hlast, hink⟩ := getLast?_below hsome
  rw [← written_heldIn_line hline] at hlast
  have hrender : render page (.seq (line ++ [.hardline])) =
      String.join (items.map Item.shown) ++ String.join (items.map Item.below) ++ "\n" := by
    rw [render_bodies page (isLineAtom_of_mem_line hline) hlast hink, written_line hline,
      written_heldIn_line hline, ← String.toList_inj]
    simp only [String.toList_ofList, String.toList_append, String.toList_join, List.flatMap_map]
    rfl
  refine ⟨hrender, fun htab hwritable => ?_⟩
  have hseq : (Doc.seq (line ++ [.hardline])).every Doc.isWritable = true := by
    simp only [Doc.every, Doc.everyIn_eq, List.all_append, Bool.and_eq_true, List.all_eq_true]
    exact ⟨rfl, hwritable, fun d hd => by rw [List.mem_singleton.mp hd]; rfl⟩
  rw [render?_of_isWritable htab hseq, hrender]

def sampleHeredoc : PlainHeredoc where
  place := .root (.plain "heredoc"
    [.text "<<~A", .list [.node (.stringPart "\ta \r\n"), .node (.stringPart "\n")],
      .text "  A\r\n"])
  opening := "<<~A"
  content := .list [.node (.stringPart "\ta \r\n"), .node (.stringPart "\n")]
  parts := [⟨.stringPart "\ta \r\n", "\ta \r\n", rfl⟩, ⟨.stringPart "\n", "\n", rfl⟩]
  closing := "  A\r\n"
  body_eq := rfl
  elements_eq := rfl
  ends := ⟨'A', by decide +kernel, rfl⟩

def sampleItems : List Item :=
  [.text "f(", .heredoc sampleHeredoc, .text ", ", .heredoc sampleHeredoc, .text ") "]

theorem render_heredocs_verbatim_sample :
    ∃ docs,
      (sampleItems.mapM (Item.print (Registry.default.printer Options.default none 0))).run [] =
        .ok (docs, []) ∧
      render ⟨3, 4⟩ (.seq [.group (.indent (.align 3 (.seq docs))) none true, .hardline]) =
        "f(<<~A, <<~A) \n\ta \n\n  A\n\ta \n\n  A\n" ∧
      render? ⟨3, 4⟩ (.seq [.group (.indent (.align 3 (.seq docs))) none true, .hardline]) =
        some "f(<<~A, <<~A) \n\ta \n\n  A\n\ta \n\n  A\n" := by
  obtain ⟨docs, hdocs, hline⟩ := render_heredocs_verbatim ⟨3, 4⟩
    (Registry.default.printer Options.default none 0) rfl sampleItems
    ⟨sampleHeredoc, List.mem_cons_of_mem _ List.mem_cons_self⟩ []
  obtain ⟨hrender, hrender?⟩ := hline [.group (.indent (.align 3 (.seq docs))) none true] (by simp)
  obtain rfl : sampleItems.map Item.doc = docs := congrArg Prod.fst (Except.ok.inj hdocs)
  exact ⟨_, hdocs, hrender.trans (by decide +kernel),
    (hrender? rfl (by decide +kernel)).trans (by decide +kernel)⟩

end RubyPretty.Rules
