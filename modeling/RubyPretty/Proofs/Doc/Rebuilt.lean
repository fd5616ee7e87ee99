import Mathlib.Data.List.Basic
import RubyPretty.Proofs.Doc.Builders
import RubyPretty.Proofs.Doc.Settled
/-!
# Documents built anew

A document can be built anew with the builders, from its innermost parts outwards. This puts nested
rows into one, drops what comes to nothing, and wraps no lone group a second time. A document that
has been settled is built anew in the same way (`tidied`), only that a group may be marked by then.
It makes no difference which of the two is done first (`settle_rebuilt`).
-/

namespace RubyPretty.Doc

mutual

/-- The document built anew with the builders, where `group` builds the groups. -/
def rebuiltBy (group : Option String → Bool → Doc → Doc) : Doc → Doc
  | .empty => .empty
  | .text s => .text s
  | .newline b => .newline b
  | .breakParent => .breakParent
  | .seq ds => cat (rebuiltAllBy group ds)
  | .indent d => indented [rebuiltBy group d]
  | .align n d => aligned n [rebuiltBy group d]
  | .group d id broken => group id broken (rebuiltBy group d)
  | .ifBreak b f id => eitherIn id (rebuiltBy group b) (rebuiltBy group f)
  | .fill ds => filled (rebuiltAllBy group ds)
  | .suffix d => suffixed [rebuiltBy group d]
  | .root d => rooted [rebuiltBy group d]

def rebuiltAllBy (group : Option String → Bool → Doc → Doc) : List Doc → List Doc
  | [] => []
  | d :: ds => rebuiltBy group d :: rebuiltAllBy group ds

end

def rebuilt : Doc → Doc := rebuiltBy fun id broken d => groupedWith id broken [d]

/-- A group around a document, which is the document itself if that is a group or nothing. -/
def regrouped (id : Option String) (broken : Bool) (d : Doc) : Doc :=
  match cat [d] with
  | .empty => .empty
  | .group d id' broken' => .group d id' broken'
  | d => .group d id broken

/-- The document built anew, where a lone group is not wrapped again even if it is marked. -/
def tidied : Doc → Doc := rebuiltBy regrouped

theorem regrouped_cases (id : Option String) (broken : Bool) (d : Doc) :
    (cat [d] = .empty ∧ regrouped id broken d = .empty) ∨
      ((∃ e id' broken', cat [d] = .group e id' broken') ∧ regrouped id broken d = cat [d]) ∨
      regrouped id broken d = .group (cat [d]) id broken := by
  unfold regrouped
  split
  · next h => exact .inl ⟨h, rfl⟩
  · next e id' broken' h =>
      rw [h]
      exact .inr (.inl ⟨⟨e, id', broken', rfl⟩, rfl⟩)
  · exact .inr (.inr rfl)

theorem rebuiltAllBy_eq (group : Option String → Bool → Doc → Doc) (ds : List Doc) :
    rebuiltAllBy group ds = ds.map (rebuiltBy group) := by
  induction ds with
  | nil => rfl
  | cons d ds ih => rw [rebuiltAllBy, ih, List.map_cons]

theorem tidied_seq (ds : List Doc) : (seq ds).tidied = cat (ds.map tidied) := by
  rw [tidied, rebuiltBy, rebuiltAllBy_eq]

theorem tidied_fill (ds : List Doc) : (fill ds).tidied = filled (ds.map tidied) := by
  rw [tidied, rebuiltBy, rebuiltAllBy_eq]

theorem rebuilt_seq (ds : List Doc) : (seq ds).rebuilt = cat (ds.map rebuilt) := by
  rw [rebuilt, rebuiltBy, rebuiltAllBy_eq]

theorem rebuilt_fill (ds : List Doc) : (fill ds).rebuilt = filled (ds.map rebuilt) := by
  rw [rebuilt, rebuiltBy, rebuiltAllBy_eq]

/-! ## Settling what has been built -/

theorem settle_ofParts (ds : List Doc) :
    (settle (ofParts ds)).1 = ofParts (ds.map fun d => (settle d).1) := by
  match ds with
  | [] | [d] => rfl
  | d :: e :: ds => exact congrArg Prod.fst (settle_seq _)

theorem parts_settle (d : Doc) : (settle d).1.parts = d.parts.map fun e => (settle e).1 := by
  cases d with
  | seq ds => rw [settle_seq]; rfl
  | fill ds => simp only [parts, settle_fill, List.map_cons, List.map_nil]
  | _ => rfl

theorem settle_cat (ds : List Doc) :
    settle (cat ds) = (cat (ds.map fun d => (settle d).1), ds.any fun d => (settle d).2) := by
  apply Prod.ext
  · show (settle (cat ds)).1 = cat (ds.map fun d => (settle d).1)
    rw [cat, settle_ofParts, cat, List.map_flatMap, List.flatMap_map]
    exact congrArg ofParts (List.flatMap_congr fun d _ => (parts_settle d).symm)
  · exact any_cat (p := fun d => (settle d).2) rfl (fun ds => congrArg Prod.snd (settle_seq ds)) ds

theorem settle_fst_cat (d : Doc) : cat [(settle d).1] = (settle (cat [d])).1 := by
  rw [settle_cat]
  rfl

theorem settle_snd_cat (d : Doc) : (settle d).2 = (settle (cat [d])).2 := by
  rw [settle_cat, List.any_cons, List.any_nil, Bool.or_false]

theorem settle_indented (d : Doc) :
    settle (indented [d]) = (indented [(settle d).1], (settle d).2) := by
  unfold indented
  rw [settle_fst_cat, settle_snd_cat]
  cases cat [d] <;> rfl

theorem settle_rooted (d : Doc) : settle (rooted [d]) = (rooted [(settle d).1], (settle d).2) := by
  unfold rooted
  rw [settle_fst_cat, settle_snd_cat]
  cases cat [d] <;> rfl

theorem settle_suffixed (d : Doc) : settle (suffixed [d]) = (suffixed [(settle d).1], false) := by
  unfold suffixed
  rw [settle_fst_cat]
  cases cat [d] <;> rfl

theorem settle_aligned (n : Int) (d : Doc) :
    settle (aligned n [d]) = (aligned n [(settle d).1], (settle d).2) := by
  unfold aligned
  rw [settle_fst_cat, settle_snd_cat]
  by_cases hn : n = 0
  · simp only [if_pos hn]
    cases cat [d] <;> rfl
  · simp only [if_neg hn]
    cases cat [d] <;> rfl

theorem settle_eitherIn (id : Option String) (b f : Doc) :
    settle (eitherIn id b f) =
      (eitherIn id (settle b).1 (settle f).1, (settle b).2 || (settle f).2) := by
  unfold eitherIn
  cases b <;> cases f <;> rfl

theorem settle_filled (ds : List Doc) :
    settle (filled ds) = (filled (ds.map fun d => (settle d).1), ds.any fun d => (settle d).2) := by
  cases ds with
  | nil => rfl
  | cons d ds => exact settle_fill (d :: ds)

/-- By the time that the groups are marked, a lone group is told by what it is around. -/
theorem settle_groupedWith (d : Doc) :
    settle (groupedWith none false [d]) =
      (regrouped none (settle d).2 (settle d).1, (settle d).2) := by
  unfold groupedWith regrouped
  rw [settle_fst_cat, settle_snd_cat]
  cases cat [d] <;> rfl

/-- The document is no group that has a name or a mark. -/
def isUntagged : Doc → Bool
  | .group _ id broken => id.isNone && !broken
  | _ => true

theorem settle_map_rebuilt {ds : List Doc}
    (h : ∀ d ∈ ds, settle d.rebuilt = ((settle d).1.tidied, (settle d).2)) :
    ((ds.map rebuilt).map fun d => (settle d).1) = (ds.map fun d => (settle d).1).map tidied ∧
      ((ds.map rebuilt).any fun d => (settle d).2) = ds.any fun d => (settle d).2 := by
  rw [List.map_map, List.map_map]
  constructor
  · apply List.map_congr_left
    intro d hd
    simp only [Function.comp_apply, h d hd]
  · rw [List.any_map]
    apply any_congr_of_mem
    intro d hd
    rw [Function.comp_apply, h d hd]

theorem settle_rebuilt (d : Doc) (h : d.every isUntagged = true) :
    settle d.rebuilt = ((settle d).1.tidied, (settle d).2) := by
  induction d using Doc.induction with
  | empty | text | newline | breakParent => rfl
  | seq ds ih =>
      have hparts := settle_map_rebuilt fun d hd => ih d hd (every_seq h d hd)
      rw [rebuilt_seq, settle_cat, settle_seq, tidied_seq, hparts.1, hparts.2]
  | fill ds ih =>
      have hparts := settle_map_rebuilt fun d hd => ih d hd (every_fill h d hd)
      rw [rebuilt_fill, settle_filled, settle_fill, tidied_fill, hparts.1, hparts.2]
  | indent d ih =>
      rw [every, Bool.and_eq_true] at h
      have hd := ih h.2
      show settle (indented [d.rebuilt]) = (indented [(settle d).1.tidied], (settle d).2)
      rw [settle_indented, hd]
  | align n d ih =>
      rw [every, Bool.and_eq_true] at h
      have hd := ih h.2
      show settle (aligned n [d.rebuilt]) = (aligned n [(settle d).1.tidied], (settle d).2)
      rw [settle_aligned, hd]
  | root d ih =>
      rw [every, Bool.and_eq_true] at h
      have hd := ih h.2
      show settle (rooted [d.rebuilt]) = (rooted [(settle d).1.tidied], (settle d).2)
      rw [settle_rooted, hd]
  | suffix d ih =>
      rw [every, Bool.and_eq_true] at h
      have hd := ih h.2
      show settle (suffixed [d.rebuilt]) = (suffixed [(settle d).1.tidied], false)
      rw [settle_suffixed, hd]
  | group d id broken ih =>
      rw [every, Bool.and_eq_true, isUntagged, Bool.and_eq_true, Option.isNone_iff_eq_none,
        Bool.not_eq_true'] at h
      obtain ⟨⟨rfl, rfl⟩, hd⟩ := h
      show settle (groupedWith none false [d.rebuilt]) =
        (regrouped none (settle d).2 (settle d).1.tidied, (settle d).2)
      rw [settle_groupedWith, ih hd]
  | ifBreak b f id ihb ihf =>
      rw [every, Bool.and_eq_true, Bool.and_eq_true] at h
      show settle (eitherIn id b.rebuilt f.rebuilt) =
        (eitherIn id (settle b).1.tidied (settle f).1.tidied, (settle b).2 || (settle f).2)
      rw [settle_eitherIn, ihb h.2.1, ihf h.2.2]

/-! ## Tidied documents -/

/-- The document is no group, or one without a name that is marked if it holds a forced break and
only then. -/
def isMarkedRight : Doc → Bool
  | .group d id broken => id.isNone && broken == d.hasForcedBreak
  | _ => true

theorem isUnbroken_of_isUntagged (d : Doc) (h : d.isUntagged = true) : d.isUnbroken = true := by
  cases d with
  | group d id broken =>
      rw [isUntagged, Bool.and_eq_true] at h
      exact h.2
  | _ => rfl

theorem settle_snd_of_untagged (d : Doc) (h : d.every isUntagged = true) :
    (settle d).2 = d.hasForcedBreak :=
  settle_snd_of_unbroken d (every_mono isUnbroken_of_isUntagged d h)

theorem isMarkedRight_settle {d : Doc} (h : d.every isUntagged = true) :
    (settle d).1.every isMarkedRight = true := by
  -- what settling finds at a group is what is forced in it
  have hfound : d.every (fun e => e.isUntagged && (settle e).2 == e.hasForcedBreak) = true := by
    apply every_of_every _ d h
    intro e he
    rw [every_self he, settle_snd_of_untagged e he, beq_self_eq_true]
    rfl
  apply every_settle _ d hfound
  intro e he
  cases e with
  | seq ds => rw [settle_seq]; rfl
  | fill ds => rw [settle_fill]; rfl
  | group e id broken =>
      rw [Bool.and_eq_true, isUntagged, Bool.and_eq_true, beq_iff_eq] at he
      have hforced : (broken || (settle e).2) = (settle e).1.hasForcedBreak :=
        he.2.trans (hasForcedBreak_settle e).symm
      rw [settle_group, isMarkedRight, he.1.1, hforced, beq_self_eq_true]
      rfl
  | _ => rfl

theorem hasForcedBreak_cat (ds : List Doc) : (cat ds).hasForcedBreak = ds.any hasForcedBreak :=
  any_cat rfl hasForcedBreak_seq ds

theorem hasForcedBreak_tidied (d : Doc) : d.tidied.hasForcedBreak = d.hasForcedBreak := by
  have hcat {e : Doc} (he : e.tidied.hasForcedBreak = e.hasForcedBreak) :
      (cat [e.tidied]).hasForcedBreak = e.hasForcedBreak := by
    rw [hasForcedBreak_cat, List.any_cons, List.any_nil, Bool.or_false, he]
  induction d using Doc.induction with
  | empty | text | newline | breakParent => rfl
  | seq ds ih =>
      rw [tidied_seq, hasForcedBreak_cat, hasForcedBreak_seq, List.any_map]
      exact any_congr_of_mem ih
  | fill ds ih =>
      rw [tidied_fill, hasForcedBreak_fill, ← any_congr_of_mem ih]
      rcases filled_cases (ds.map tidied) with ⟨hnil, he⟩ | ⟨-, he⟩
      · rw [he, List.map_eq_nil_iff.mp hnil]
        rfl
      · rw [he, hasForcedBreak_fill, List.any_map]
        rfl
  | indent d ih => exact (apply_indented (f := hasForcedBreak) (fun _ => rfl) _).trans (hcat ih)
  | align n d ih => exact (apply_aligned (f := hasForcedBreak) (fun _ _ => rfl) n _).trans (hcat ih)
  | root d ih => exact (apply_rooted (f := hasForcedBreak) (fun _ => rfl) _).trans (hcat ih)
  | suffix d ih =>
      rcases suffixed_cases [d.tidied] with ⟨-, he⟩ | he
      · exact (congrArg hasForcedBreak he).trans rfl
      · exact (congrArg hasForcedBreak he).trans rfl
  | group d id broken ih =>
      show (regrouped id broken d.tidied).hasForcedBreak = d.hasForcedBreak
      rw [← hcat ih]
      rcases regrouped_cases id broken d.tidied with ⟨hempty, he⟩ | ⟨-, he⟩ | he
      · rw [he, hempty]
      · rw [he]
      · rw [he]
        rfl
  | ifBreak b f id ihb ihf =>
      show (eitherIn id b.tidied f.tidied).hasForcedBreak = (b.hasForcedBreak || f.hasForcedBreak)
      rw [← ihb, ← ihf]
      rcases eitherIn_cases id b.tidied f.tidied with ⟨hb, hf, he⟩ | he
      · rw [he, hb, hf]
        rfl
      · rw [he]
        rfl

theorem hasForcedBreak_cat_tidied (d : Doc) :
    (cat [d.tidied]).hasForcedBreak = d.hasForcedBreak := by
  rw [hasForcedBreak_cat, List.any_cons, List.any_nil, Bool.or_false, hasForcedBreak_tidied]

theorem isMarkedRight_tidied (d : Doc) (h : d.every isMarkedRight = true) :
    d.tidied.every isMarkedRight = true := by
  have hcat {e : Doc} (he : e.tidied.every isMarkedRight = true) :
      (cat [e.tidied]).every isMarkedRight = true :=
    every_cat rfl (fun _ => rfl) (List.forall_mem_singleton.mpr he)
  induction d using Doc.induction with
  | empty | text | newline | breakParent => rfl
  | seq ds ih =>
      rw [tidied_seq]
      apply every_cat rfl fun _ => rfl
      rw [List.forall_mem_map]
      exact fun d hd => ih d hd (every_seq h d hd)
  | fill ds ih =>
      rw [tidied_fill]
      rcases filled_cases (ds.map tidied) with ⟨-, he⟩ | ⟨-, he⟩
      · rw [he]
        rfl
      · rw [he, every, everyIn_eq, Bool.and_eq_true, List.all_map, List.all_eq_true]
        exact ⟨rfl, fun d hd => ih d hd (every_fill h d hd)⟩
  | indent d ih =>
      rw [every, Bool.and_eq_true] at h
      exact every_indented rfl (hcat (ih h.2)) rfl
  | align n d ih =>
      rw [every, Bool.and_eq_true] at h
      exact every_aligned rfl (hcat (ih h.2)) rfl
  | root d ih =>
      rw [every, Bool.and_eq_true] at h
      exact every_rooted rfl (hcat (ih h.2)) rfl
  | suffix d ih =>
      rw [every, Bool.and_eq_true] at h
      exact every_suffixed rfl (hcat (ih h.2)) rfl
  | group d id broken ih =>
      rw [every, Bool.and_eq_true] at h
      have hparts := hcat (ih h.2)
      show (regrouped id broken d.tidied).every isMarkedRight = true
      rcases regrouped_cases id broken d.tidied with ⟨-, he⟩ | ⟨-, he⟩ | he
      · rw [he]
        rfl
      · rw [he]
        exact hparts
      · rw [he, every, hparts, isMarkedRight, hasForcedBreak_cat_tidied]
        exact congrArg (· && true) h.1
  | ifBreak b f id ihb ihf =>
      rw [every, Bool.and_eq_true, Bool.and_eq_true] at h
      show (eitherIn id b.tidied f.tidied).every isMarkedRight = true
      rcases eitherIn_cases id b.tidied f.tidied with ⟨-, -, he⟩ | he
      · rw [he]
        rfl
      · rw [he, every, ihb h.2.1, ihf h.2.2]
        rfl

/-- A lone group in a tidied document has no name, and a mark if there is a forced break. -/
theorem lone_group_tidied {d e : Doc} {id : Option String} {broken : Bool}
    (h : d.every isMarkedRight = true) (hgroup : cat [d.tidied] = .group e id broken) :
    id = none ∧ broken = d.hasForcedBreak := by
  have hmarked : (cat [d.tidied]).every isMarkedRight = true :=
    every_cat rfl (fun _ => rfl) (List.forall_mem_singleton.mpr (isMarkedRight_tidied d h))
  have hforced := hasForcedBreak_cat_tidied d
  rw [hgroup] at hmarked hforced
  have hself := every_self hmarked
  rw [isMarkedRight, Bool.and_eq_true, Option.isNone_iff_eq_none, beq_iff_eq] at hself
  exact ⟨hself.1, hself.2.trans hforced⟩

end RubyPretty.Doc
