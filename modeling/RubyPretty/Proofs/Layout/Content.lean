import Mathlib.Data.List.Basic
import RubyPretty.Proofs.Doc.Settled
import RubyPretty.Proofs.Layout.Runs
/-!
# Layout keeps the content

Whatever the page, the machine writes the ink of a document: the characters of its texts that are
neither blanks nor line feeds. Without suffixes they come out in the order of the document. Suffixes
come out later than they stand, so with them the order may change, but no character is lost or
written twice.

The ink of a state is what has been written together with what waits; each step keeps it.
-/

namespace RubyPretty

/-- Whether a character is neither a blank nor a line feed. -/
def isInk (c : Char) : Bool := !(c == ' ' || c == '\t' || c == '\n')

def inked (s : String) : List Char := s.toList.filter isInk

namespace Doc

mutual

/-- The ink of the texts of a document; of a choice, that of the flat side. -/
def ink : Doc → List Char
  | .empty | .newline _ | .breakParent => []
  | .text s => inked s
  | .seq ds | .fill ds => inkAll ds
  | .indent d | .align _ d | .group d _ _ | .suffix d | .root d => ink d
  | .ifBreak _ f _ => ink f

def inkAll : List Doc → List Char
  | [] => []
  | d :: ds => ink d ++ inkAll ds

end

/-- A break that is written as nothing but blanks when it is flat. -/
def isBlankBreak : Doc → Bool
  | .newline b => b.flat.toList.all Layout.State.isTrailingBlank
  | _ => true

def sidesAgree : Doc → Bool
  | .ifBreak b f _ => ink b == ink f
  | _ => true

theorem inkAll_eq (ds : List Doc) : inkAll ds = ds.flatMap ink := by
  induction ds with
  | nil => rfl
  | cons d ds ih => rw [inkAll, ih, List.flatMap_cons]

theorem ink_settle (d : Doc) : (settle d).1.ink = d.ink := by
  induction d using Doc.induction with
  | empty | text | newline | breakParent => rfl
  | seq ds ih | fill ds ih =>
      simp only [settle_seq, settle_fill, ink, inkAll_eq, List.flatMap_map]
      exact List.flatMap_congr ih
  | indent d ih | align _ d ih | group d _ _ ih | suffix d ih | root d ih =>
      simpa only [settle_indent, settle_align, settle_group, settle_suffix, settle_root, ink]
        using ih
  | ifBreak b f id ihb ihf => simpa only [settle_ifBreak, ink] using ihf

theorem isBlankBreak_settle (d : Doc) (h : d.isBlankBreak = true) :
    (settle d).1.isBlankBreak = true := by
  cases d <;> exact h

theorem isUnheld_settle (d : Doc) (h : d.isUnheld = true) : (settle d).1.isUnheld = true := by
  cases d <;> exact h

theorem sidesAgree_settle (d : Doc) (h : d.sidesAgree = true) :
    (settle d).1.sidesAgree = true := by
  cases d with
  | ifBreak b f id => simpa only [settle_ifBreak, sidesAgree, ink_settle] using h
  | _ => rfl

theorem inked_join (ss : List String) : inked (String.join ss) = ss.flatMap inked := by
  simp only [inked, String.toList_join, List.filter_flatMap]
  rfl

theorem ink_resolveFrom (way : Way) (i : Nat) (ds : List Doc)
    (h : ∀ d ∈ ds, ∀ way : Way, (d.resolve way).leaves.flatMap inked = d.ink) :
    (leavesAll (resolveFrom way i ds)).flatMap inked = inkAll ds := by
  induction ds generalizing i with
  | nil => rfl
  | cons d ds ih =>
      rw [resolveFrom, leavesAll, inkAll, List.flatMap_append, h d List.mem_cons_self,
        ih (i + 1) fun e he => h e (List.mem_cons_of_mem d he)]

theorem ink_resolve (d : Doc) (h : d.every sidesAgree = true) (way : Way) :
    (d.resolve way).leaves.flatMap inked = d.ink := by
  induction d using Doc.induction generalizing way with
  | empty | newline | breakParent => rfl
  | text s => simp only [resolve, leaves, ink, List.flatMap_cons, List.flatMap_nil, List.append_nil]
  | seq ds ih => exact ink_resolveFrom way 0 ds fun d hd => ih d hd (every_seq h d hd)
  | fill ds ih => exact ink_resolveFrom way 0 ds fun d hd => ih d hd (every_fill h d hd)
  | indent d ih | align _ d ih | group d _ _ ih | suffix d ih | root d ih =>
      simp only [every, Bool.and_eq_true] at h
      exact ih h.2 way
  | ifBreak b f id ihb ihf =>
      simp only [every, sidesAgree, Bool.and_eq_true, beq_iff_eq] at h
      rw [resolve]
      split
      · exact ihf h.2.2 _
      · exact (ihb h.2.1 _).trans h.1

theorem ink_leaves (d : Doc) (h : d.every isDecided = true) : d.leaves.flatMap inked = d.ink := by
  induction d using Doc.induction with
  | empty | newline | breakParent => rfl
  | text s => simp only [leaves, ink, List.flatMap_cons, List.flatMap_nil, List.append_nil]
  | seq ds ih =>
      simp only [leaves, leavesAll_eq, ink, inkAll_eq, List.flatMap_assoc]
      exact List.flatMap_congr fun d hd => ih d hd (every_seq h d hd)
  | fill ds ih =>
      simp only [leaves, leavesAll_eq, ink, inkAll_eq, List.flatMap_assoc]
      exact List.flatMap_congr fun d hd => ih d hd (every_fill h d hd)
  | indent d ih | align _ d ih | group d _ _ ih | suffix d ih | root d ih =>
      simp only [every, Bool.and_eq_true] at h
      exact ih h.2
  | ifBreak b f id ihb ihf => cases every_self h

theorem sidesAgree_of_isDecided (d : Doc) (h : d.every isDecided = true) :
    d.every sidesAgree = true :=
  every_mono (fun d hd => by cases d <;> first | rfl | cases hd) d h

end Doc

namespace Layout

theorem filter_isInk_dropWhile (cs : List Char) :
    (cs.dropWhile State.isTrailingBlank).filter isInk = cs.filter isInk := by
  induction cs with
  | nil => rfl
  | cons c cs ih =>
      rw [List.dropWhile_cons]
      split
      · next hc =>
          have hblank : isInk c = false := by
            simp only [State.isTrailingBlank, Bool.or_eq_true] at hc
            rcases hc with hc | hc <;> simp [isInk, hc]
          rw [ih, List.filter_cons_of_neg (by simp [hblank])]
      · rfl

theorem filter_isInk_blanks (n : Nat) : (List.replicate n ' ').filter isInk = [] := by
  rw [List.filter_replicate_of_neg (by decide)]

theorem filter_isInk_lineStart (n : Nat) (before : List Char) :
    (List.replicate n ' ' ++ '\n' :: before).filter isInk = before.filter isInk := by
  rw [List.filter_append, filter_isInk_blanks, List.filter_cons_of_neg (by decide),
    List.nil_append]

namespace State

/-- The ink that has been written and that still waits. -/
def ink (s : State) : List Char :=
  s.out.reverse.filter isInk ++ s.stack.flatMap (·.doc.ink) ++ s.suffixes.flatMap (·.doc.ink)

variable {page : Page} {s t : State}

theorem filter_drop_padding (h : s.Padded) :
    (s.out.drop (s.padding.getD 0)).filter isInk = s.out.filter isInk := by
  cases hp : s.padding with
  | none => rfl
  | some n =>
      obtain ⟨before, hout⟩ := h n hp
      rw [hout, List.filter_append, filter_isInk_blanks]
      simp

theorem ink_write (s : State) (x : String) (chunk : Chunk) (hx : inked x = chunk.doc.ink) :
    (s.write x).ink = { s with stack := chunk :: s.stack }.ink := by
  simp [ink, ← hx, inked]

theorem ink_push (s : State) (cs : List Chunk) (chunk : Chunk)
    (hcs : cs.flatMap (·.doc.ink) = chunk.doc.ink) :
    (s.push cs).ink = { s with stack := chunk :: s.stack }.ink := by
  simp [ink, hcs]

theorem ink_endLiteral (h : s.Padded) (chunk : Chunk) (hc : chunk.doc.ink = []) :
    (s.endLiteral chunk).ink = { s with stack := chunk :: s.stack }.ink := by
  simp only [ink, endLiteral, List.filter_reverse, filter_isInk_lineStart, filter_drop_padding h,
    List.flatMap_cons, hc, List.nil_append]

theorem ink_endIndented (s : State) (chunk : Chunk) (hc : chunk.doc.ink = []) :
    (s.endIndented chunk).ink = { s with stack := chunk :: s.stack }.ink := by
  simp only [ink, endIndented, List.filter_reverse, filter_isInk_lineStart, filter_isInk_dropWhile,
    List.flatMap_cons, hc, List.nil_append]

theorem ink_fillChunks (s : State) (page : Page) (chunk : Chunk) (items : List Doc) :
    (s.fillChunks page chunk items).flatMap (·.doc.ink) = Doc.inkAll items := by
  rw [Doc.inkAll_eq]
  exact flatMap_fillChunks Doc.ink Doc.inkAll_eq s page chunk items

theorem inked_blank {x : String} (h : x.toList.all isTrailingBlank = true) : inked x = [] := by
  rw [inked, List.filter_eq_nil_iff]
  intro c hc
  have hb := List.all_eq_true.mp h c hc
  simp only [isTrailingBlank, Bool.or_eq_true] at hb
  rcases hb with hb | hb <;> simp [isInk, hb]

theorem ink_take (page : Page) (hpad : s.Padded) (chunk : Chunk)
    (hblank : chunk.doc.isBlankBreak = true) (hsides : chunk.doc.sidesAgree = true)
    (hunheld : chunk.doc.isUnheld = true)
    (hwait : s.suffixes = [] ∨ ∀ b, chunk.doc ≠ .newline b) :
    (s.take page chunk).ink = { s with stack := chunk :: s.stack }.ink := by
  obtain ⟨doc, indent, root, flat⟩ := chunk
  cases doc with
  | empty | breakParent => simp [take, ink, Doc.ink]
  | text x => exact ink_write s x _ rfl
  | newline b =>
      have hnone : s.suffixes = [] := hwait.resolve_right fun h => h b rfl
      rcases take_newline s page ⟨.newline b, indent, root, flat⟩ rfl with
        ⟨-, -, he⟩ | ⟨-, ⟨hne, -⟩ | ⟨-, -, he⟩ | ⟨-, -, he⟩⟩
      · rw [he]
        exact ink_write s b.flat _ (inked_blank hblank)
      · exact absurd hnone hne
      · rw [he]
        exact ink_endLiteral hpad _ rfl
      · rw [he]
        exact ink_endIndented s _ rfl
  | seq ds =>
      refine ink_push s _ _ ?_
      simp [List.flatMap_map, Chunk.withDoc, Doc.ink, Doc.inkAll_eq]
  | indent d | align n d | root d => exact ink_push s _ _ (by simp [Doc.ink])
  | group d id broken =>
      rw [take_group s page _ rfl]
      exact ink_push s [_] _ (by simp [Doc.ink])
  | ifBreak b f id =>
      simp only [Doc.sidesAgree, beq_iff_eq] at hsides
      refine ink_push s _ _ ?_
      simp only [Chunk.withDoc, List.flatMap_cons, List.flatMap_nil, List.append_nil, Doc.ink]
      split
      · rfl
      · exact hsides
  | fill items => exact ink_push s _ _ (ink_fillChunks s page _ items)
  | suffix d => cases hunheld

theorem ink_flush_perm (s : State) : s.flush.ink.Perm s.ink := by
  have hstack := (flush_stack_perm s).flatMap_right (·.doc.ink)
  rw [List.flatMap_append] at hstack
  simp only [ink, flush_out, flush_suffixes, List.flatMap_nil, List.append_nil, List.append_assoc]
  exact (hstack.trans List.perm_append_comm).append_left _

theorem ink_take_perm (page : Page) (hpad : s.Padded) (chunk : Chunk)
    (hblank : chunk.doc.isBlankBreak = true) (hsides : chunk.doc.sidesAgree = true) :
    (s.take page chunk).ink.Perm { s with stack := chunk :: s.stack }.ink := by
  by_cases hheld : ∃ d, chunk.doc = .suffix d
  · obtain ⟨d, hd⟩ := hheld
    simp only [take, hd, ink, List.flatMap_append, List.flatMap_cons, List.flatMap_nil,
      List.append_nil, Doc.ink, List.append_assoc]
    refine List.Perm.append_left _ ?_
    rw [← List.append_assoc]
    exact List.perm_append_comm
  have hunheld : chunk.doc.isUnheld = true := by
    cases hc : chunk.doc <;> first | rfl | exact absurd ⟨_, hc⟩ hheld
  by_cases hwait : s.suffixes = [] ∨ ∀ b, chunk.doc ≠ .newline b
  · rw [ink_take page hpad chunk hblank hsides hunheld hwait]
  · rw [not_or] at hwait
    obtain ⟨b, hb⟩ : ∃ b, chunk.doc = .newline b := by
      by_contra hb
      exact hwait.2 fun b h => hb ⟨b, h⟩
    rcases take_newline s page chunk hb with
      ⟨-, -, he⟩ | ⟨-, ⟨-, he⟩ | ⟨hnone, -⟩ | ⟨hnone, -⟩⟩
    · rw [hb] at hblank
      rw [he, ink_write s b.flat chunk (by rw [hb]; exact inked_blank hblank)]
    · rw [he]
      exact (ink_flush_perm _).trans (List.Perm.of_eq (ink_push s [chunk] chunk (by simp)))
    · exact absurd hnone hwait.1
    · exact absurd hnone hwait.1

/-! ## Runs -/

theorem fillClosed_isBlankBreak : FillClosed Doc.isBlankBreak := fun _ _ _ _ _ => rfl

theorem fillClosed_sidesAgree : FillClosed Doc.sidesAgree := fun _ _ _ _ _ => rfl

theorem fillClosed_isUnheld : FillClosed Doc.isUnheld := fun _ _ _ _ _ => rfl

/-- What the ink of a state depends on. -/
structure Legible (s : State) : Prop where
  padded : s.Padded
  blank : s.Holds Doc.isBlankBreak
  agree : s.Holds Doc.sidesAgree

theorem legible_start {d : Doc} (hblank : d.every Doc.isBlankBreak = true)
    (hagree : d.every Doc.sidesAgree = true) : (start d).Legible :=
  ⟨padded_start d, holds_start hblank, holds_start hagree⟩

theorem legible_step (hs : s.step page = some t) (h : s.Legible) : t.Legible :=
  ⟨padded_step hs h.padded, holds_step fillClosed_isBlankBreak hs h.blank,
    holds_step fillClosed_sidesAgree hs h.agree⟩

theorem ink_step_perm (hs : s.step page = some t) (h : s.Legible) : t.ink.Perm s.ink := by
  rcases step_cases hs with ⟨chunk, rest, hstack, rfl⟩ | ⟨-, -, rfl⟩
  · have hmem : chunk ∈ s.stack := by rw [hstack]; exact List.mem_cons_self
    have htake := ink_take_perm (s := { s with stack := rest }) page h.padded chunk
      (Doc.every_self (h.blank chunk (.inl hmem))) (Doc.every_self (h.agree chunk (.inl hmem)))
    simpa only [← hstack] using htake
  · exact ink_flush_perm s

theorem unheld_take {chunk : Chunk} (hnone : s.suffixes = [])
    (hunheld : chunk.doc.isUnheld = true) : (s.take page chunk).suffixes = [] := by
  obtain ⟨doc, indent, root, flat⟩ := chunk
  cases doc with
  | newline b =>
      rcases take_newline s page ⟨.newline b, indent, root, flat⟩ rfl with
        ⟨-, -, he⟩ | ⟨-, ⟨-, he⟩ | ⟨-, -, he⟩ | ⟨-, -, he⟩⟩ <;> rw [he]
      · exact hnone
      · rfl
      · exact hnone
      · exact hnone
  | group d id broken =>
      rw [take_group s page _ rfl]
      exact hnone
  | suffix d => cases hunheld
  | _ => exact hnone

theorem ink_step (hs : s.step page = some t) (h : s.Legible) (hunheld : s.Holds Doc.isUnheld)
    (hnone : s.suffixes = []) : t.ink = s.ink ∧ t.suffixes = [] := by
  rcases step_cases hs with ⟨chunk, rest, hstack, rfl⟩ | ⟨-, hne, -⟩
  · have hmem : chunk ∈ s.stack := by rw [hstack]; exact List.mem_cons_self
    have hheld := Doc.every_self (hunheld chunk (.inl hmem))
    have htake := ink_take (s := { s with stack := rest }) page h.padded chunk
      (Doc.every_self (h.blank chunk (.inl hmem))) (Doc.every_self (h.agree chunk (.inl hmem)))
      hheld (.inl hnone)
    refine ⟨?_, unheld_take (s := { s with stack := rest }) hnone hheld⟩
    simpa only [← hstack] using htake
  · exact absurd hnone hne

theorem ink_start (d : Doc) : (start d).ink = d.ink := by
  simp [start, ink]

theorem ink_finish (page : Page) (d : Doc) : (finish page d).ink = inked (render page d) := by
  obtain ⟨hstack, hsuffixes⟩ := done_finish page d
  simp [ink, hstack, hsuffixes, render_eq, text, inked]

end State

theorem inked_render_perm (page : Page) (d : Doc) (hblank : d.every Doc.isBlankBreak = true)
    (hagree : d.every Doc.sidesAgree = true) : (inked (render page d)).Perm d.ink := by
  have hrun := State.run_induction page (P := fun s => s.Legible ∧ s.ink.Perm d.ink)
    (fun s t hs h => ⟨State.legible_step hs h.1, (State.ink_step_perm hs h.1).trans h.2⟩)
    (State.start d.propagateBreaks).weight (State.start d.propagateBreaks)
    ⟨State.legible_start (Doc.every_settle Doc.isBlankBreak_settle d hblank)
        (Doc.every_settle Doc.sidesAgree_settle d hagree),
      List.Perm.of_eq ((State.ink_start _).trans (Doc.ink_settle d))⟩
  rw [← State.ink_finish]
  exact hrun.2

theorem inked_render (page : Page) (d : Doc) (hunheld : d.every Doc.isUnheld = true)
    (hblank : d.every Doc.isBlankBreak = true) (hagree : d.every Doc.sidesAgree = true) :
    inked (render page d) = d.ink := by
  have hrun := State.run_induction page
    (P := fun s => s.Legible ∧ s.Holds Doc.isUnheld ∧ s.suffixes = [] ∧ s.ink = d.ink)
    (fun s t hs h => by
      obtain ⟨hlegible, hholds, hnone, hink⟩ := h
      obtain ⟨hsame, hnone'⟩ := State.ink_step hs hlegible hholds hnone
      exact ⟨State.legible_step hs hlegible, State.holds_step State.fillClosed_isUnheld hs hholds,
        hnone', hsame.trans hink⟩)
    (State.start d.propagateBreaks).weight (State.start d.propagateBreaks)
    ⟨State.legible_start (Doc.every_settle Doc.isBlankBreak_settle d hblank)
        (Doc.every_settle Doc.sidesAgree_settle d hagree),
      State.holds_start (Doc.every_settle Doc.isUnheld_settle d hunheld), rfl,
      (State.ink_start _).trans (Doc.ink_settle d)⟩
  rw [← State.ink_finish]
  exact hrun.2.2.2

/-- Layout never changes content. Where both sides of each choice have the same ink and nothing is
held back, the ink of the text is that of the leaves in their order, whatever the page and however
the choices are resolved. Where something is held back and there is no choice, the ink is the same
up to its order. -/
theorem render_keeps_content (page : Page) (d : Doc) (hblank : d.every Doc.isBlankBreak = true) :
    (d.every Doc.isUnheld = true → d.every Doc.sidesAgree = true →
      (∀ way, inked (render page d) = inked (String.join (d.resolve way).leaves)) ∧
        ∀ page', inked (render page' d) = inked (render page d)) ∧
    (d.every Doc.isDecided = true →
      (inked (render page d)).Perm (inked (String.join d.leaves))) := by
  constructor
  · intro hunheld hagree
    constructor
    · intro way
      rw [inked_render page d hunheld hblank hagree, Doc.inked_join, Doc.ink_resolve d hagree]
    · intro page'
      rw [inked_render page d hunheld hblank hagree, inked_render page' d hunheld hblank hagree]
  · intro hdecided
    rw [Doc.inked_join, Doc.ink_leaves d hdecided]
    exact inked_render_perm page d hblank (Doc.sidesAgree_of_isDecided d hdecided)

/-- A call whose argument goes to a line of its own when the call is broken. -/
def sampleCall : Doc :=
  .group
    (.seq
      [.text "each", .ifBreak (.seq [.text "(", .line, .text "a)"]) (.text "(a)") none,
        .indent (.fill [.text "b", .line, .text "c  d"])])
    none false

def sampleNote : Doc :=
  .group (.seq [.text "a", .suffix (.text " # one"), .text ",", .line, .text "b"]) none true

theorem render_keeps_content_samples :
    (∀ way,
        inked (render ⟨4, 2⟩ sampleCall) = inked (String.join (sampleCall.resolve way).leaves)) ∧
      (∀ page', inked (render page' sampleCall) = inked (render ⟨4, 2⟩ sampleCall)) ∧
      (inked (render ⟨4, 2⟩ sampleNote)).Perm (inked (String.join sampleNote.leaves)) := by
  have hcall := (render_keeps_content ⟨4, 2⟩ sampleCall (by decide)).1 (by decide) (by decide)
  exact ⟨hcall.1, hcall.2, (render_keeps_content ⟨4, 2⟩ sampleNote (by decide)).2 (by decide)⟩

end Layout

end RubyPretty
