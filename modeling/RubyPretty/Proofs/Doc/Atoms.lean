import Mathlib.Data.List.Basic
import RubyPretty.Proofs.Doc.Builders
import RubyPretty.Proofs.Doc.Settled
/-!
# The atoms of a document

Sequences, indents, alignments and groups only say how a document is laid out. Without them a
document is the list of its atoms, and two documents with the same atoms are nestings of the same
line. Smart constructors and settled marks do not change the atoms. A body is made of texts and
literal line ends, and a line of texts and of bodies that are held back.
-/

namespace RubyPretty.Doc

mutual

/-- The texts, line ends, suffixes and other elements of a document, out of the sequences, indents,
alignments and groups that they are nested in. -/
def atoms : Doc → List Doc
  | .empty => []
  | .text s => if s = "" then [] else [.text s]
  | .seq ds => atomsIn ds
  | .indent d | .align _ d | .group d _ _ => atoms d
  | d => [d]

def atomsIn : List Doc → List Doc
  | [] => []
  | d :: ds => atoms d ++ atomsIn ds

end

theorem atomsIn_eq (ds : List Doc) : atomsIn ds = ds.flatMap atoms := by
  induction ds with
  | nil => rfl
  | cons d ds ih => rw [atomsIn, ih, List.flatMap_cons]

@[simp] theorem atoms_seq (ds : List Doc) : (seq ds).atoms = ds.flatMap atoms := atomsIn_eq ds

@[simp] theorem atoms_indent (d : Doc) : (indent d).atoms = d.atoms := rfl

@[simp] theorem atoms_align (amount : Int) (d : Doc) : (align amount d).atoms = d.atoms := rfl

@[simp] theorem atoms_group (d : Doc) (id : Option String) (broken : Bool) :
    (group d id broken).atoms = d.atoms := rfl

@[simp] theorem atoms_ofString (s : String) : (ofString s).atoms = (text s).atoms := by
  rw [ofString]
  split
  · next hs => rw [hs]; rfl
  · rfl

@[simp] theorem atoms_cat (ds : List Doc) : (cat ds).atoms = ds.flatMap atoms :=
  flatMap_cat rfl atoms_seq ds

@[simp] theorem atoms_grouped (ds : List Doc) : (grouped ds).atoms = ds.flatMap atoms := by
  rw [← atoms_cat, grouped, groupedWith]
  split
  · next h => rw [h]
  · next h => rw [h]; rfl
  · rfl

theorem suffixed_of_atoms {ds : List Doc} (h : ds.flatMap atoms ≠ []) :
    suffixed ds = .suffix (cat ds) := by
  rw [suffixed]
  split
  · next hempty =>
      rw [← atoms_cat, hempty] at h
      exact absurd rfl h
  · rfl

theorem mem_atoms_joined {separator a : Doc} {ds : List Doc}
    (h : a ∈ (joined separator ds).atoms) : a ∈ separator.atoms ∨ ∃ d ∈ ds, a ∈ d.atoms := by
  rw [joined, atoms_cat] at h
  induction ds with
  | nil => cases h
  | cons d ds ih =>
      cases ds with
      | nil => exact .inr ⟨d, List.mem_singleton_self d, by simpa using h⟩
      | cons e ds =>
          rw [List.intersperse_cons_cons, List.flatMap_cons, List.flatMap_cons, List.mem_append,
            List.mem_append] at h
          rcases h with h | h | h
          · exact .inr ⟨d, List.mem_cons_self, h⟩
          · exact .inl h
          · obtain h | ⟨f, hf, ha⟩ := ih h
            · exact .inl h
            · exact .inr ⟨f, List.mem_cons_of_mem _ hf, ha⟩

theorem atoms_settle (d : Doc) : (settle d).1.atoms = d.atoms.map fun a => (settle a).1 := by
  induction d using Doc.induction with
  | empty | newline | breakParent | suffix | root | ifBreak => rfl
  | fill ds =>
      rw [settle_fill]
      show [fill _] = [(settle (fill ds)).1]
      rw [settle_fill]
  | text s =>
      show (text s).atoms = (text s).atoms.map _
      rw [atoms]
      split
      · rfl
      · rfl
  | seq ds ih =>
      rw [settle_seq, atoms_seq, atoms_seq, List.flatMap_map, List.map_flatMap]
      exact List.flatMap_congr ih
  | indent d ih | align _ d ih | group d _ _ ih => exact ih

/-! ## What atoms write -/

/-- The characters that an atom writes at once, where a line end is a literal one. -/
def chars : Doc → List Char
  | .text s => s.toList
  | .newline _ => ['\n']
  | _ => []

def held? : Doc → Option Doc
  | .suffix d => some d
  | _ => none

/-- The document writes these characters when its line ends are literal ones. -/
def written (d : Doc) : List Char := d.atoms.flatMap chars

def heldIn (line : List Doc) : List Doc := (line.flatMap atoms).filterMap held?

theorem written_cat (ds : List Doc) : (cat ds).written = ds.flatMap written := by
  rw [written, atoms_cat, List.flatMap_assoc]
  rfl

theorem written_ofString (s : String) : (ofString s).written = s.toList := by
  rw [written, atoms_ofString, atoms]
  split
  · next hs => rw [hs]; rfl
  · exact List.append_nil _

theorem chars_settle (a : Doc) : (settle a).1.chars = a.chars := by
  cases a with
  | seq ds => rw [settle_seq]; rfl
  | fill ds => rw [settle_fill]; rfl
  | _ => rfl

theorem held?_settle (a : Doc) : (settle a).1.held? = a.held?.map fun d => (settle d).1 := by
  cases a with
  | seq ds => rw [settle_seq]; rfl
  | fill ds => rw [settle_fill]; rfl
  | _ => rfl

theorem hasForcedBreak_eq (d : Doc) : d.hasForcedBreak = d.atoms.any hasForcedBreak := by
  induction d using Doc.induction with
  | empty => rfl
  | newline | breakParent | suffix | root | ifBreak | fill => exact (Bool.or_false _).symm
  | text s =>
      rw [atoms]
      split
      · rfl
      · rfl
  | seq ds ih =>
      rw [hasForcedBreak_seq, atoms_seq, List.any_flatMap, Bool.eq_iff_iff, List.any_eq_true,
        List.any_eq_true]
      exact exists_congr fun d => and_congr_right fun hd => by rw [ih d hd]
  | indent d ih | align _ d ih | group d _ _ ih => exact ih

def isPlainAtom : Doc → Bool
  | .text _ | .suffix _ => true
  | .newline b => b.hard && b.literal
  | _ => false

/-! ## Bodies and the lines above them -/

/-- Texts and literal line ends, at least one of these. -/
def IsBody (d : Doc) : Prop :=
  (∀ a ∈ d.atoms, (∃ x, a = .text x) ∨ a = .literalLine) ∧ .literalLine ∈ d.atoms

theorem eq_text_of_mem_atoms {x : String} {a : Doc} (h : a ∈ (text x).atoms) : a = .text x := by
  rw [atoms] at h
  split at h
  · cases h
  · exact List.mem_singleton.mp h

theorem mem_atoms_verbatim {s : String} {a : Doc} (h : a ∈ (verbatim s).atoms) :
    (∃ x, a = .text x) ∨ a = .literalLine := by
  rcases mem_atoms_joined h with h | ⟨d, hd, h⟩
  · exact .inr (List.mem_singleton.mp h)
  · obtain ⟨x, -, rfl⟩ := List.mem_map.mp hd
    rw [atoms_ofString] at h
    exact .inl ⟨x, eq_text_of_mem_atoms h⟩

/-- A text, or a body that is held back. -/
def IsLineAtom (a : Doc) : Prop := (∃ x, a = .text x) ∨ ∃ d, a = .suffix d ∧ d.IsBody

namespace IsBody

variable {d : Doc}

theorem atoms_settle_eq (h : d.IsBody) : (settle d).1.atoms = d.atoms := by
  rw [atoms_settle]
  refine (List.map_congr_left fun a ha => ?_).trans (List.map_id _)
  rcases h.1 a ha with ⟨x, rfl⟩ | rfl <;> rfl

theorem written_settle (h : d.IsBody) : (settle d).1.written = d.written := by
  rw [written, h.atoms_settle_eq, written]

theorem isPlainAtom (h : d.IsBody) : ∀ a ∈ d.atoms, a.isPlainAtom = true := by
  intro a ha
  rcases h.1 a ha with ⟨x, rfl⟩ | rfl <;> rfl

theorem filterMap_held? (h : d.IsBody) : d.atoms.filterMap held? = [] := by
  rw [List.filterMap_eq_nil_iff]
  intro a ha
  rcases h.1 a ha with ⟨x, rfl⟩ | rfl <;> rfl

theorem hasForcedBreak (h : d.IsBody) : d.hasForcedBreak = true := by
  rw [hasForcedBreak_eq, List.any_eq_true]
  exact ⟨.literalLine, h.2, rfl⟩

theorem settled (h : d.IsBody) : (settle d).1.IsBody := by
  rw [IsBody, h.atoms_settle_eq]
  exact h

end IsBody

/-! ## Settled lines -/

variable {line : List Doc}

theorem flatMap_atoms_settle (ds : List Doc) :
    (ds.map fun d => (settle d).1).flatMap atoms =
      (ds.flatMap atoms).map fun a => (settle a).1 := by
  rw [List.flatMap_map, List.map_flatMap]
  exact List.flatMap_congr fun d _ => atoms_settle d

theorem isPlainAtom_of_mem_settled (h : ∀ a ∈ line.flatMap atoms, a.IsLineAtom) :
    ∀ a ∈ (line.map fun d => (settle d).1).flatMap atoms,
      a.isPlainAtom = true ∧ a.hasForcedBreak = false := by
  rw [flatMap_atoms_settle, List.forall_mem_map]
  intro a ha
  rcases h a ha with ⟨x, rfl⟩ | ⟨d, rfl, -⟩ <;> exact ⟨rfl, rfl⟩

theorem flatMap_chars_settled (line : List Doc) :
    ((line.map fun d => (settle d).1).flatMap atoms).flatMap chars = line.flatMap written := by
  rw [flatMap_atoms_settle, List.flatMap_map, List.flatMap_congr fun a _ => chars_settle a,
    List.flatMap_assoc]
  rfl

theorem heldIn_settled (line : List Doc) :
    heldIn (line.map fun d => (settle d).1) = (heldIn line).map fun d => (settle d).1 := by
  rw [heldIn, flatMap_atoms_settle, List.filterMap_map, heldIn, List.map_filterMap]
  exact List.filterMap_congr fun a _ => held?_settle a

theorem isBody_of_mem_heldIn (h : ∀ a ∈ line.flatMap atoms, a.IsLineAtom) :
    ∀ d ∈ heldIn line, d.IsBody := by
  intro d hd
  obtain ⟨a, ha, hheld⟩ := List.mem_filterMap.mp hd
  rcases h a ha with ⟨x, rfl⟩ | ⟨e, rfl, hbody⟩
  · cases hheld
  · rwa [← Option.some.inj hheld]

end RubyPretty.Doc
