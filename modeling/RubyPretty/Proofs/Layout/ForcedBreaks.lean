import RubyPretty.Proofs.Layout.FlatGroups
/-!
# Forced breaks break the groups around them

A chunk that is flat holds no forced break, with one exception: a separator of a fill is written
flat if the next item fits beside it, and `fits` looks no further than a hard line end. Where
separators are line breaks no group can hide in one. Each step keeps this
(`unforcedWhenFlat_step`), so a group with a forced break is never found in a flat chunk, and its
mark keeps it from being written flat.
-/

namespace RubyPretty

namespace Doc

def breaksBetween : List Doc → Bool
  | [] | [_] => true
  | _ :: separator :: items => separator.isBreak && breaksBetween items

def isBreakSeparated : Doc → Bool
  | .fill items => breaksBetween items
  | _ => true

/-- A group that is marked if it holds a forced break, or a fill whose separators are line breaks,
or none of both. -/
def showsForced : Doc → Bool
  | .group d _ broken => broken || !d.hasForcedBreak
  | .fill items => breaksBetween items
  | _ => true

theorem isBreak_settle (d : Doc) : (settle d).1.isBreak = d.isBreak := by
  cases d with
  | seq ds => rw [settle_seq]; rfl
  | fill ds => rw [settle_fill]; rfl
  | _ => rfl

theorem breaksBetween_settle : ∀ ds : List Doc,
    breaksBetween (ds.map fun d => (settle d).1) = breaksBetween ds
  | [] | [_] => rfl
  | _ :: separator :: items => by
      simp only [List.map_cons, breaksBetween, isBreak_settle, breaksBetween_settle items]

theorem showsForced_settle (d : Doc) (h : d.isBreakSeparated = true) :
    (settle d).1.showsForced = true := by
  cases d with
  | group d id broken =>
      rw [settle_group, showsForced, hasForcedBreak_settle]
      cases hforced : (settle d).2 with
      | true => simp
      | false => simp [hasForcedBreak_of_forcesNoBreak hforced]
  | fill ds =>
      rw [settle_fill]
      exact (breaksBetween_settle ds).trans h
  | seq ds => rw [settle_seq]; rfl
  | _ => rfl

end Doc

namespace Layout

/-- A chunk that is not flat, or a line break, or free of forced breaks. -/
def Chunk.UnforcedWhenFlat (c : Chunk) : Prop :=
  c.flat = true → c.doc.isBreak = true ∨ c.doc.hasForcedBreak = false

theorem Chunk.unforcedWhenFlat_of_broken {c : Chunk} (h : c.flat = false) : c.UnforcedWhenFlat := by
  intro hflat
  rw [h] at hflat
  cases hflat

namespace State

variable {page : Page} {s t : State}

/-- No flat chunk holds a forced break, line breaks apart. -/
def UnforcedWhenFlat (s : State) : Prop := ∀ c, c ∈ s.stack ∨ c ∈ s.suffixes → c.UnforcedWhenFlat

theorem unforcedWhenFlat_start (d : Doc) : (start d).UnforcedWhenFlat := by
  intro c hc
  simp only [start, List.mem_singleton, List.not_mem_nil, or_false] at hc
  rw [hc]
  exact Chunk.unforcedWhenFlat_of_broken rfl

theorem unforcedWhenFlat_push (h : s.UnforcedWhenFlat) (cs : List Chunk)
    (hcs : ∀ c ∈ cs, c.UnforcedWhenFlat) : (s.push cs).UnforcedWhenFlat := by
  intro c hc
  rw [push_stack, push_suffixes, List.mem_append] at hc
  rcases hc with (hc | hc) | hc
  · exact hcs c hc
  · exact h c (.inl hc)
  · exact h c (.inr hc)

theorem unforcedWhenFlat_flush (h : s.UnforcedWhenFlat) : s.flush.UnforcedWhenFlat := by
  intro c hc
  rw [mem_flush_stack, flush_suffixes] at hc
  rcases hc with (hc | hc) | hc
  · exact h c (.inr hc)
  · exact h c (.inl hc)
  · cases hc

theorem unforcedWhenFlat_fillChunks (s : State) (page : Page) {chunk : Chunk} {items : List Doc}
    (hbreaks : Doc.breaksBetween items = true)
    (hunforced : chunk.flat = true → ∀ d ∈ items, d.hasForcedBreak = false) :
    ∀ c ∈ s.fillChunks page chunk items, c.UnforcedWhenFlat := by
  have hfirst : ∀ content ∈ items,
      Chunk.UnforcedWhenFlat { chunk with
        doc := content
        flat := (!content.hasForcedBreak &&
          s.fits page [{ chunk with doc := content, flat := true }]) || chunk.flat } := by
    intro content hmem hflat
    rw [Bool.or_eq_true, Bool.and_eq_true, Bool.not_eq_true'] at hflat
    rcases hflat with hfits | hflat
    · exact .inr hfits.1
    · exact .inr (hunforced hflat content hmem)
  match items with
  | [] => exact List.forall_mem_nil _
  | [content] =>
      rw [fillChunks, List.forall_mem_singleton]
      exact hfirst content List.mem_cons_self
  | [content, separator] =>
      rw [Doc.breaksBetween, Bool.and_eq_true] at hbreaks
      rw [fillChunks, List.forall_mem_cons, List.forall_mem_singleton]
      exact ⟨hfirst content List.mem_cons_self, fun _ => .inl hbreaks.1⟩
  | content :: separator :: next :: more =>
      rw [Doc.breaksBetween, Bool.and_eq_true] at hbreaks
      rw [fillChunks, List.forall_mem_cons, List.forall_mem_cons, List.forall_mem_singleton]
      refine ⟨hfirst content List.mem_cons_self, fun _ => .inl hbreaks.1, fun hflat => .inr ?_⟩
      show (Doc.fill (next :: more)).hasForcedBreak = false
      rw [Doc.hasForcedBreak_fill, List.any_eq_false]
      intro d hd
      rw [hunforced hflat d (List.mem_cons_of_mem _ (List.mem_cons_of_mem _ hd))]
      exact Bool.false_ne_true

/-- The mode of a group is flat only if the group holds no forced break. -/
theorem unforced_of_groupFlat {chunk : Chunk} {d : Doc} {id : Option String} {broken : Bool}
    (hc : chunk.doc = .group d id broken) (hshows : chunk.doc.showsForced = true)
    (hunforced : chunk.UnforcedWhenFlat) (hflat : s.groupFlat page chunk d broken = true) :
    d.hasForcedBreak = false := by
  unfold Chunk.UnforcedWhenFlat at hunforced
  rw [hc] at hshows hunforced
  rw [groupFlat, Bool.or_eq_true, Bool.and_eq_true, Bool.not_eq_true'] at hflat
  rcases hflat with hflat | ⟨hbroken, -⟩
  · rcases hunforced hflat with hbreak | hforced
    · cases hbreak
    · exact hforced
  · rw [Doc.showsForced, hbroken, Bool.false_or, Bool.not_eq_true'] at hshows
    exact hshows

theorem unforcedWhenFlat_take (page : Page) (h : s.UnforcedWhenFlat) {chunk : Chunk}
    (hunforced : chunk.UnforcedWhenFlat) (hshows : chunk.doc.showsForced = true) :
    (s.take page chunk).UnforcedWhenFlat := by
  obtain ⟨doc, indent, root, flat⟩ := chunk
  -- no document but a line break makes an exception, so its parts are free of forced breaks too
  have hparts (hdoc : doc.isBreak = false) : flat = true → doc.hasForcedBreak = false := by
    intro hflat
    rcases hunforced hflat with hbreak | hforced
    · rw [hdoc] at hbreak
      cases hbreak
    · exact hforced
  cases doc with
  | empty | breakParent | text x => exact h
  | newline b =>
      rcases take_newline s page ⟨.newline b, indent, root, flat⟩ rfl with
        ⟨-, -, he⟩ | ⟨-, ⟨-, he⟩ | ⟨-, -, he⟩ | ⟨-, -, he⟩⟩ <;> rw [he]
      · exact h
      · apply unforcedWhenFlat_flush
        apply unforcedWhenFlat_push h
        rw [List.forall_mem_singleton]
        exact hunforced
      · exact h
      · exact h
  | seq ds =>
      apply unforcedWhenFlat_push h
      rw [List.forall_mem_map]
      intro d hd hflat
      have hforced := hparts rfl hflat
      rw [Doc.hasForcedBreak_seq, List.any_eq_false] at hforced
      exact .inr (Bool.not_eq_true _ ▸ hforced d hd)
  | indent d | align n d | root d =>
      apply unforcedWhenFlat_push h
      rw [List.forall_mem_singleton]
      exact fun hflat => .inr (hparts rfl hflat)
  | group d id broken =>
      rw [take_group s page _ rfl]
      refine unforcedWhenFlat_push h [_] ?_
      rw [List.forall_mem_singleton]
      exact fun hflat => .inr (unforced_of_groupFlat rfl hshows hunforced hflat)
  | ifBreak b f id =>
      apply unforcedWhenFlat_push h
      rw [List.forall_mem_singleton]
      intro hflat
      have hforced := hparts rfl hflat
      rw [Doc.hasForcedBreak_ifBreak, Bool.or_eq_false_iff] at hforced
      show _ ∨ (if _ then f else b).hasForcedBreak = false
      split
      · exact .inr hforced.2
      · exact .inr hforced.1
  | fill items =>
      apply unforcedWhenFlat_push h
      apply unforcedWhenFlat_fillChunks s page hshows
      intro hflat d hd
      have hforced := hparts rfl hflat
      rw [Doc.hasForcedBreak_fill, List.any_eq_false] at hforced
      exact Bool.not_eq_true _ ▸ hforced d hd
  | suffix d =>
      intro c hc
      simp only [take, List.mem_append, List.mem_singleton] at hc
      rcases hc with hc | hc | rfl
      · exact h c (.inl hc)
      · exact h c (.inr hc)
      · exact Chunk.unforcedWhenFlat_of_broken rfl

theorem unforcedWhenFlat_step (hs : s.step page = some t) (hshows : s.Holds Doc.showsForced)
    (h : s.UnforcedWhenFlat) : t.UnforcedWhenFlat := by
  rcases step_cases hs with ⟨chunk, rest, hstack, rfl⟩ | ⟨-, -, rfl⟩
  · have hmem : chunk ∈ s.stack := by rw [hstack]; exact List.mem_cons_self
    have hrest : { s with stack := rest }.UnforcedWhenFlat := by
      intro c hc
      apply h c
      rw [hstack]
      exact hc.imp_left (List.mem_cons_of_mem _)
    exact unforcedWhenFlat_take page hrest (h chunk (.inl hmem))
      (Doc.every_self (hshows chunk (.inl hmem)))
  · exact unforcedWhenFlat_flush h

theorem fillClosed_showsForced : FillClosed Doc.showsForced := by
  intro a b c ds h
  rw [Doc.showsForced, Doc.breaksBetween, Bool.and_eq_true] at h
  exact h.2

/-- Along a run, marks show the forced breaks and no flat chunk holds one. -/
theorem unforcedWhenFlat_moment (page : Page) {d : Doc}
    (h : d.every Doc.isBreakSeparated = true) (n : Nat) :
    (moment page d n).Holds Doc.showsForced ∧ (moment page d n).UnforcedWhenFlat :=
  run_induction page (P := fun s => s.Holds Doc.showsForced ∧ s.UnforcedWhenFlat)
    (fun _ _ hs hp =>
      ⟨holds_step fillClosed_showsForced hs hp.1, unforcedWhenFlat_step hs hp.1 hp.2⟩) n _
    ⟨holds_start (Doc.every_settle Doc.showsForced_settle d h), unforcedWhenFlat_start _⟩

/-- Forced breaks break every group around them. Where the separators of all fills are line breaks,
a group that holds a forced break outside of suffixes is laid out broken whenever it is its turn,
however deep it is nested and whatever it is nested in. -/
theorem forced_breaks_break_groups (page : Page) (d : Doc)
    (hd : d.every Doc.isBreakSeparated = true) (n : Nat) (chunk : Chunk) (rest : List Chunk)
    (child : Doc) (id : Option String) (broken : Bool)
    (hstack : (moment page d n).stack = chunk :: rest) (hchunk : chunk.doc = .group child id broken)
    (hforced : child.hasForcedBreak = true) :
    (moment page d n).step page =
      some { moment page d n with
        stack := { chunk with doc := child, flat := false } :: rest
        modes := (moment page d n).modes.noting id false } := by
  obtain ⟨hshows, hunforced⟩ := unforcedWhenFlat_moment page hd n
  have hmem : chunk ∈ (moment page d n).stack := by rw [hstack]; exact List.mem_cons_self
  have hbroken : { moment page d n with stack := rest }.groupFlat page chunk child broken =
      false := by
    rw [← Bool.not_eq_true]
    intro hflat
    have hunforced := unforced_of_groupFlat hchunk
      (Doc.every_self (hshows chunk (.inl hmem))) (hunforced chunk (.inl hmem)) hflat
    rw [hforced] at hunforced
    cases hunforced
  rw [step, hstack]
  show some (take _ page chunk) = _
  rw [take_group _ page chunk hchunk, hbroken]

/-- A body held back, and a group whose second item ends a line. -/
def sampleForced : Doc :=
  .seq [
    .suffix (.group (.seq [.hardline, .text "c"]) (some "body") false),
    .group (.fill [.text "a", .line, .group (.seq [.text "b", .hardline]) none false]) none false]

theorem forced_breaks_break_groups_sample :
    (moment ⟨80, 2⟩ sampleForced 7).step ⟨80, 2⟩ =
        some { moment ⟨80, 2⟩ sampleForced 7 with
          stack := [⟨.seq [.text "b", .hardline], 0, 0, false⟩] } ∧
      (moment ⟨80, 2⟩ sampleForced 11).step ⟨80, 2⟩ =
        some { moment ⟨80, 2⟩ sampleForced 11 with
          stack := [⟨.seq [.hardline, .text "c"], 0, 0, false⟩, ⟨.hardline, 0, 0, false⟩]
          modes := [("body", false)] } := by
  have hseparated : sampleForced.every Doc.isBreakSeparated = true := by decide
  constructor
  · exact forced_breaks_break_groups ⟨80, 2⟩ sampleForced hseparated 7
      ⟨.group (.seq [.text "b", .hardline]) none true, 0, 0, false⟩ [] _ _ _ rfl rfl rfl
  · exact forced_breaks_break_groups ⟨80, 2⟩ sampleForced hseparated 11
      ⟨.group (.seq [.hardline, .text "c"]) (some "body") true, 0, 0, false⟩
      [⟨.hardline, 0, 0, false⟩] _ _ _ rfl rfl rfl

end State

end Layout

end RubyPretty
