import RubyPretty.Proofs.Layout.FlatText
import RubyPretty.Proofs.Layout.Roots
/-!
# Words with breaks between them

A break that is not forced is blank: it is what it writes on a single line, or a line end and the
blanks in front of the next word. Words that do not end in a blank are written as they are with such
gaps between them, because no line end has a blank to take back (`reaches_spaced`). All gaps between
the words of one group are of one kind (`render_bracketed`).
-/

namespace RubyPretty

/-- A word: it is not empty, and it has no blanks. -/
def Text.IsWord (w : List Char) : Prop := w ≠ [] ∧ ∀ c ∈ w, isBlank c = false

namespace Layout.State

variable {s : State}

theorem endsInInk_of_isWord {w : List Char} (h : Text.IsWord w) : EndsInInk w := by
  obtain ⟨c, hc⟩ := Option.isSome_iff_exists.mp (List.getLast?_isSome.mpr h.1)
  refine ⟨c, hc, ?_⟩
  have hblank := h.2 c (List.mem_of_getLast? hc)
  have hspace : c ≠ ' ' := by
    rintro rfl
    exact absurd hblank (by decide)
  have htab : c ≠ '\t' := by
    rintro rfl
    exact absurd hblank (by decide)
  simp [isTrailingBlank, hspace, htab]

def softBreak : Break := ⟨"", false, false⟩

def lineBreak : Break := ⟨" ", false, false⟩

theorem mem_flat_softBreak : ∀ c ∈ softBreak.flat.toList, c = ' ' := List.forall_mem_nil _

theorem mem_flat_lineBreak : ∀ c ∈ lineBreak.flat.toList, c = ' ' :=
  fun _ hc => List.mem_singleton.mp hc

/-- What a break that is not forced writes behind a word. -/
def gap (b : Break) (flat : Bool) (indent : Nat) : List Char :=
  if flat then b.flat.toList else '\n' :: List.replicate indent ' '

theorem mem_gap {b : Break} (hb : ∀ c ∈ b.flat.toList, c = ' ') {flat : Bool} {indent : Nat}
    {c : Char} (hc : c ∈ gap b flat indent) : c = ' ' ∨ c = '\n' := by
  unfold gap at hc
  split at hc
  · exact .inl (hb c hc)
  · rcases List.mem_cons.mp hc with rfl | hc
    · exact .inr rfl
    · exact .inl (List.eq_of_mem_replicate hc)

def spaced (items : List (Break × String)) : List Doc :=
  items.flatMap fun i => [.newline i.1, .text i.2]

/-- A break that is not forced, and behind it a word that does not end in a blank. -/
structure IsSpaced (i : Break × String) : Prop where
  hard : i.1.hard = false
  literal : i.1.literal = false
  ink : EndsInInk i.2.toList

/-- What has been written does not end in a blank that a line end would take back. -/
def Inked (s : State) : Prop := s.out.dropWhile isTrailingBlank = s.out

theorem reaches_spacedWord (page : Page) (chunk : Chunk) {b : Break} {w : String}
    (hsoft : b.hard = false) (hindented : b.literal = false) (hfree : s.suffixes = [])
    (hink : s.Inked) :
    ∃ t, Reaches page (s.push [chunk.withDoc (.newline b), chunk.withDoc (.text w)]) t ∧
      Adds (gap b chunk.flat chunk.indent ++ w.toList) [] s t := by
  have hstep := step_push (s.push [chunk.withDoc (.text w)]) page (chunk.withDoc (.newline b))
  rcases take_newline (s.push [chunk.withDoc (.text w)]) page (chunk.withDoc (.newline b)) rfl with
    ⟨hflat, -, he⟩ | ⟨hends, ⟨hsome, -⟩ | ⟨-, hliteral, -⟩ | ⟨-, -, he⟩⟩
  · have hgap : gap b chunk.flat chunk.indent = b.flat.toList := if_pos hflat
    rw [he] at hstep
    refine ⟨(s.write b.flat).write w, .head hstep (.single rfl), rfl, ?_, (List.append_nil _).symm⟩
    rw [hgap, List.reverse_append, List.append_assoc]
    rfl
  · exact absurd hfree hsome
  · rw [hindented] at hliteral
    cases hliteral
  · have hbroken : chunk.flat = false := hends.resolve_right (by simp [hsoft])
    have hgap : gap b chunk.flat chunk.indent = '\n' :: List.replicate chunk.indent ' ' :=
      if_neg (ne_true_of_eq_false hbroken)
    rw [he] at hstep
    refine ⟨(s.endIndented (chunk.withDoc (.newline b))).write w, .head hstep (.single rfl), rfl,
      ?_, (List.append_nil _).symm⟩
    show w.toList.reverse ++ (List.replicate chunk.indent ' ' ++ '\n' ::
      s.out.dropWhile isTrailingBlank) = _
    rw [hink, hgap]
    simp

theorem Adds.append {x y : List Char} {t u : State} (hst : Adds x [] s t) (htu : Adds y [] t u) :
    Adds (x ++ y) [] s u where
  stack := htu.stack.trans hst.stack
  out := by rw [htu.out, hst.out, List.reverse_append, List.append_assoc]
  suffixes := by rw [htu.suffixes, List.append_nil, hst.suffixes]

def spacedText (flat : Bool) (indent : Nat) (items : List (Break × String)) : List Char :=
  items.flatMap fun i => gap i.1 flat indent ++ i.2.toList

/-- Breaks and words are written in turn. No word ends in a blank, so no line end takes one back. -/
theorem reaches_spaced (page : Page) (chunk : Chunk) {items : List (Break × String)}
    (hitems : ∀ i ∈ items, IsSpaced i) (hfree : s.suffixes = []) (hink : s.Inked) :
    ∃ t, Reaches page (s.push ((spaced items).map chunk.withDoc)) t ∧
      Adds (spacedText chunk.flat chunk.indent items) [] s t ∧ t.Inked := by
  induction items generalizing s with
  | nil => exact ⟨s, .refl, ⟨rfl, rfl, (List.append_nil _).symm⟩, hink⟩
  | cons item items ih =>
      obtain ⟨hitem, hitems⟩ := List.forall_mem_cons.mp hitems
      obtain ⟨t, hreaches, ht⟩ := reaches_spacedWord
        (s := s.push ((spaced items).map chunk.withDoc)) page chunk hitem.hard hitem.literal hfree
        hink
      have hinked : t.Inked := by
        rw [Inked, ht.out]
        exact (hitem.ink.append_left (gap item.1 chunk.flat chunk.indent)).dropWhile_eq s.out
      -- the other words come next, on a stack like the one of the first word
      have hfirst : Adds _ [] s { t with stack := s.stack } := ⟨rfl, ht.out, ht.suffixes⟩
      have hnone : t.suffixes = [] := by rw [ht.suffixes, List.append_nil]; exact hfree
      obtain ⟨u, hreaches', hrest, hinked'⟩ :=
        ih (s := { t with stack := s.stack }) hitems hnone hinked
      rw [push_of_stack ht.stack] at hreaches'
      exact ⟨u, hreaches.trans hreaches', hfirst.append hrest, hinked'⟩

def bracketed (start opening : String) (items : List (Break × String)) (closing : String) : Doc :=
  .seq [.text start, .text opening, .indent (.seq (spaced items)), .newline softBreak,
    .text closing]

theorem every_bracketed {p : Doc → Bool} {items : List (Break × String)}
    (hseq : ∀ ds, p (.seq ds) = true) (hindent : ∀ d, p (.indent d) = true)
    (htext : ∀ x, p (.text x) = true) (hbreak : ∀ b : Break, b.hard = false → p (.newline b) = true)
    (hitems : ∀ i ∈ items, i.1.hard = false) (start opening closing : String) :
    (bracketed start opening items closing).every p = true := by
  have hspaced : (spaced items).all (fun d => d.every p) = true := by
    rw [List.all_eq_true]
    intro d hd
    obtain ⟨i, hi, hd⟩ := List.mem_flatMap.mp hd
    rcases List.mem_cons.mp hd with rfl | hd
    · exact hbreak i.1 (hitems i hi)
    · rw [List.mem_singleton.mp hd]
      exact htext i.2
  simp only [bracketed, Doc.every, Doc.everyIn_eq, List.all_cons, List.all_nil, hspaced,
    hseq, hindent, htext, hbreak softBreak rfl, Bool.and_true]

/-- On any page words between brackets are written with blank gaps, all of one kind. -/
theorem render_bracketed (page : Page) {items : List (Break × String)}
    (hitems : ∀ i ∈ items, IsSpaced i) {opening closing : String}
    (hopening : EndsInInk opening.toList) (hclosing : EndsInInk closing.toList) (start : String) :
    ∃ flat : Bool, render page (.group (bracketed start opening items closing) none false) =
      String.ofList (start.toList ++ opening.toList ++
        spacedText flat (if flat then 0 else page.tab.toNat) items ++
        spacedText flat 0 [(softBreak, closing)]) := by
  have hflexible : (bracketed start opening items closing).every Doc.isFlexible = true :=
    every_bracketed (fun _ => rfl) (fun _ => rfl) (fun _ => rfl)
      (fun b hb => by rw [Doc.isFlexible, hb]; rfl) (fun i hi => (hitems i hi).hard) _ _ _
  let flat := decide (((bracketed start opening items closing).flatWidth : Int) ≤ page.width)
  let outside : Chunk := ⟨bracketed start opening items closing, 0, 0, flat⟩
  let inside : Chunk := ⟨.seq (spaced items), 0 + if flat then 0 else page.tab.toNat, 0, flat⟩
  let opened := ((fresh []).write start).write opening
  let last := [(softBreak, closing)]
  have hdown : Reaches page
      (State.start (Doc.group (bracketed start opening items closing) none false).propagateBreaks)
      ((opened.push ((spaced last).map outside.withDoc)).push
        ((spaced items).map inside.withDoc)) := by
    rw [propagateBreaks_group hflexible]
    exact .head (step_start_group page hflexible)
      (.head rfl (.head rfl (.head rfl (.head rfl (.single rfl)))))
  have hopened : opened.Inked := hopening.dropWhile_eq _
  obtain ⟨t, hwords, ht, hinked⟩ := reaches_spaced
    (s := opened.push ((spaced last).map outside.withDoc)) page inside hitems rfl hopened
  have hfirst : Adds _ [] opened { t with stack := [] } := ⟨rfl, ht.out, ht.suffixes⟩
  have hlast : ∀ i ∈ last, IsSpaced i := List.forall_mem_singleton.mpr ⟨rfl, rfl, hclosing⟩
  obtain ⟨u, hend, hu, -⟩ := reaches_spaced (s := { t with stack := [] }) page outside hlast
    hfirst.suffixes hinked
  have hpush : { t with stack := [] }.push ((spaced last).map outside.withDoc) = t :=
    push_of_stack ht.stack
  rw [hpush] at hend
  have hall := hfirst.append hu
  have hindent : inside.indent = if flat then 0 else page.tab.toNat := Nat.zero_add _
  refine ⟨flat, ?_⟩
  rw [← hindent, ← String.toList_inj,
    toList_render_of_reaches ((hdown.trans hwords).trans hend) hall.stack hall.suffixes, hall.out,
    String.toList_ofList, List.reverse_append, List.reverse_reverse]
  have hout : opened.out.reverse = start.toList ++ opening.toList := by
    show (opening.toList.reverse ++ (start.toList.reverse ++ [])).reverse = _
    simp
  rw [hout, ← List.append_assoc]

end Layout.State

end RubyPretty
