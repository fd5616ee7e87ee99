import RubyPretty.Proofs.Doc.Flat
/-!
# Which groups are marked

Settling a document marks a group if the group has been marked before or shows something that forces
a break: a hard line end, a `breakParent` or a marked group, wherever it is nested and unless a
suffix holds it back. Nothing else of the document changes. Parts of two documents that correspond
to each other are those that the same path leads to.
-/

namespace RubyPretty.Doc

/-! ## Children and paths -/

/-- The documents directly in a document. -/
def children : Doc → List Doc
  | .seq ds | .fill ds => ds
  | .indent d | .align _ d | .group d _ _ | .suffix d | .root d => [d]
  | .ifBreak b f _ => [b, f]
  | _ => []

/-- Induction on documents, where a document is taken with all that is directly in it. -/
theorem childInduction {P : Doc → Prop} (h : ∀ d, (∀ c ∈ d.children, P c) → P d) (d : Doc) :
    P d := by
  induction d using Doc.induction with
  | empty | text | newline | breakParent => exact h _ (List.forall_mem_nil _)
  | seq ds ih | fill ds ih => exact h _ ih
  | indent d ih | align _ d ih | group d _ _ ih | suffix d ih | root d ih =>
      exact h _ (List.forall_mem_singleton.mpr ih)
  | ifBreak b f id ihb ihf =>
      exact h _ (List.forall_mem_cons.mpr ⟨ihb, List.forall_mem_singleton.mpr ihf⟩)

/-- The part of a document that a path leads to, where each number picks one of the children. -/
def descend? : Doc → List Nat → Option Doc
  | d, [] => some d
  | d, i :: path => d.children[i]?.bind fun c => descend? c path

theorem every_children {p : Doc → Bool} {d : Doc} (h : d.every p = true) :
    ∀ c ∈ d.children, c.every p = true := by
  cases d with
  | empty | text | newline | breakParent => exact List.forall_mem_nil _
  | seq ds => exact every_seq h
  | fill ds => exact every_fill h
  | indent d | align _ d | group d _ _ | suffix d | root d =>
      rw [every, Bool.and_eq_true] at h
      exact List.forall_mem_singleton.mpr h.2
  | ifBreak b f id =>
      rw [every, Bool.and_eq_true, Bool.and_eq_true] at h
      exact List.forall_mem_cons.mpr ⟨h.2.1, List.forall_mem_singleton.mpr h.2.2⟩

theorem every_descend? {p : Doc → Bool} {path : List Nat} {d e : Doc} (h : d.every p = true)
    (he : d.descend? path = some e) : e.every p = true := by
  induction path generalizing d with
  | nil =>
      obtain rfl := Option.some.inj he
      exact h
  | cons i path ih =>
      obtain ⟨c, hc, he⟩ := Option.bind_eq_some_iff.mp he
      exact ih (every_children h c (List.mem_of_getElem? hc)) he

/-! ## What is kept -/

mutual

def unmarked : Doc → Doc
  | .seq ds => .seq (unmarkedAll ds)
  | .fill ds => .fill (unmarkedAll ds)
  | .indent d => .indent (unmarked d)
  | .align n d => .align n (unmarked d)
  | .group d id _ => .group (unmarked d) id false
  | .ifBreak b f id => .ifBreak (unmarked b) (unmarked f) id
  | .suffix d => .suffix (unmarked d)
  | .root d => .root (unmarked d)
  | d => d

def unmarkedAll : List Doc → List Doc
  | [] => []
  | d :: ds => unmarked d :: unmarkedAll ds

end

theorem unmarkedAll_eq (ds : List Doc) : unmarkedAll ds = ds.map unmarked := by
  induction ds with
  | nil => rfl
  | cons d ds ih => rw [unmarkedAll, ih, List.map_cons]

theorem unmarked_settle (d : Doc) : (settle d).1.unmarked = d.unmarked := by
  induction d using Doc.induction with
  | empty | text | newline | breakParent => rfl
  | seq ds ih | fill ds ih =>
      simp only [settle_seq, settle_fill, unmarked, unmarkedAll_eq, List.map_map, seq.injEq,
        fill.injEq]
      exact List.map_congr_left ih
  | indent d ih | align _ d ih | group d _ _ ih | suffix d ih | root d ih =>
      simp only [settle_indent, settle_align, settle_group, settle_suffix, settle_root, unmarked,
        ih]
  | ifBreak b f id ihb ihf => simp only [settle_ifBreak, unmarked, ihb, ihf]

theorem flatWidth_settle (d : Doc) : (settle d).1.flatWidth = d.flatWidth := by
  rw [← length_flatChars, flatChars_settle, length_flatChars]

theorem children_settle (d : Doc) :
    (settle d).1.children = d.children.map fun c => (settle c).1 := by
  cases d with
  | seq ds => rw [settle_seq]; rfl
  | fill ds => rw [settle_fill]; rfl
  | _ => rfl

theorem descend?_settle (d : Doc) (path : List Nat) :
    (settle d).1.descend? path = (d.descend? path).map fun e => (settle e).1 := by
  induction path generalizing d with
  | nil => rfl
  | cons i path ih =>
      rw [descend?, descend?, children_settle, List.getElem?_map]
      cases d.children[i]? with
      | none => rfl
      | some c => exact ih c

/-! ## What forces a break -/

def isForcing : Doc → Bool
  | .breakParent => true
  | .newline b => b.hard
  | .group _ _ broken => broken
  | _ => false

/-- The second document is in the first one, and no suffix holds it back. -/
inductive Exposes : Doc → Doc → Prop
  | self (d : Doc) : Exposes d d
  | inside {d c e : Doc} (hd : d.isUnheld = true) (hc : c ∈ d.children) (he : Exposes c e) :
      Exposes d e

theorem settle_snd (d : Doc) :
    (settle d).2 = (d.isForcing || (d.isUnheld && d.children.any fun c => (settle c).2)) := by
  cases d with
  | empty | text | breakParent | suffix => rfl
  | newline b => exact (Bool.or_false b.hard).symm
  | seq ds => rw [settle_seq]; rfl
  | fill ds => rw [settle_fill]; rfl
  | indent d | align _ d | root d => exact (Bool.or_false (settle d).2).symm
  | group d id broken => exact congrArg (broken || ·) (Bool.or_false (settle d).2).symm
  | ifBreak b f id => exact congrArg ((settle b).2 || ·) (Bool.or_false (settle f).2).symm

theorem settle_snd_iff (d : Doc) :
    (settle d).2 = true ↔ ∃ e, d.Exposes e ∧ e.isForcing = true := by
  induction d using childInduction with
  | h d ih =>
      rw [settle_snd, Bool.or_eq_true, Bool.and_eq_true, List.any_eq_true]
      constructor
      · rintro (hforcing | ⟨hd, c, hc, hforced⟩)
        · exact ⟨d, .self d, hforcing⟩
        · obtain ⟨e, he, hforcing⟩ := (ih c hc).mp hforced
          exact ⟨e, .inside hd hc he, hforcing⟩
      · rintro ⟨e, he, hforcing⟩
        cases he with
        | self => exact .inl hforcing
        | inside hd hc he => exact .inr ⟨hd, _, hc, (ih _ hc).mpr ⟨e, he, hforcing⟩⟩

theorem eq_group_of_settle {d child' : Doc} {id : Option String} {broken' : Bool}
    (h : (settle d).1 = .group child' id broken') :
    ∃ child broken, d = .group child id broken ∧ broken' = (broken || (settle child).2) := by
  cases d with
  | group child id' broken =>
      rw [settle_group, group.injEq] at h
      obtain ⟨-, rfl, rfl⟩ := h
      exact ⟨child, broken, rfl, rfl⟩
  | seq ds => rw [settle_seq] at h; cases h
  | fill ds => rw [settle_fill] at h; cases h
  | _ => cases h

/-- Just the groups that have to break are marked. The document is the same but for the marks of its
groups. A group has a mark afterwards if it had one before, or if it shows a `breakParent`, a hard
line end or a marked group that no suffix in it holds back, and only then; where no group was marked
by hand, this is to say that it holds a forced break. Done again, nothing changes, and the forced
breaks and the flat width are those of the document. -/
theorem propagateBreaks_marks_exactly (d : Doc) :
    d.propagateBreaks.unmarked = d.unmarked ∧
      (∀ path child' id broken', d.propagateBreaks.descend? path = some (.group child' id broken') →
        ∃ child broken, d.descend? path = some (.group child id broken) ∧
          (broken' = true ↔ broken = true ∨ ∃ e, child.Exposes e ∧ e.isForcing = true) ∧
          (d.every isUnbroken = true → broken' = child.hasForcedBreak)) ∧
      d.propagateBreaks.propagateBreaks = d.propagateBreaks ∧
      d.propagateBreaks.hasForcedBreak = d.hasForcedBreak ∧
      d.propagateBreaks.flatWidth = d.flatWidth := by
  refine ⟨unmarked_settle d, ?_, isSettled_propagateBreaks d, hasForcedBreak_settle d,
    flatWidth_settle d⟩
  intro path child' id broken' hpath
  rw [propagateBreaks, descend?_settle, Option.map_eq_some_iff] at hpath
  obtain ⟨e, he, hgroup⟩ := hpath
  obtain ⟨child, broken, rfl, rfl⟩ := eq_group_of_settle hgroup
  refine ⟨child, broken, he, ?_, fun hunbroken => ?_⟩
  · rw [Bool.or_eq_true, settle_snd_iff]
  · exact settle_snd_of_unbroken (.group child id broken) (every_descend? hunbroken he)

/-- A group with a forced break in a suffix, and one with a forced break on a side of a choice. -/
def sampleHeld : Doc :=
  .seq [
    .group (.seq [.text "a", .suffix (.group .breakParent none false)]) none false,
    .group (.fill [.text "b", .ifBreak (.group .hardline none false) .empty none]) (some "list")
      false]

theorem propagateBreaks_marks_exactly_sample :
    (∃ child broken, sampleHeld.descend? [0] = some (.group child none broken) ∧
        (false = true ↔ broken = true ∨ ∃ e, child.Exposes e ∧ e.isForcing = true) ∧
        false = child.hasForcedBreak) ∧
      (∃ child broken, sampleHeld.descend? [0, 0, 1, 0] = some (.group child none broken) ∧
        (true = true ↔ broken = true ∨ ∃ e, child.Exposes e ∧ e.isForcing = true) ∧
        true = child.hasForcedBreak) ∧
      ∃ child broken, sampleHeld.descend? [1] = some (.group child (some "list") broken) ∧
        (true = true ↔ broken = true ∨ ∃ e, child.Exposes e ∧ e.isForcing = true) ∧
        true = child.hasForcedBreak := by
  have hunbroken : sampleHeld.every isUnbroken = true := by decide
  obtain ⟨-, hgroups, -⟩ := propagateBreaks_marks_exactly sampleHeld
  obtain ⟨outer, broken, houter, hshown, hforced⟩ := hgroups [0] _ _ _ rfl
  obtain ⟨held, broken', hheld, hshown', hforced'⟩ := hgroups [0, 0, 1, 0] _ _ _ rfl
  obtain ⟨list, broken'', hlist, hshown'', hforced''⟩ := hgroups [1] _ _ _ rfl
  exact ⟨⟨outer, broken, houter, hshown, hforced hunbroken⟩,
    ⟨held, broken', hheld, hshown', hforced' hunbroken⟩,
    list, broken'', hlist, hshown'', hforced'' hunbroken⟩

end RubyPretty.Doc
