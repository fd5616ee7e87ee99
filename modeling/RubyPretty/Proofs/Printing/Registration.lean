import Mathlib.Data.List.Nodup
import RubyPretty.Rules.Default
/-!
# Runs of registrations

A call gives one rule to several tags, one after the other, until it comes to a tag that is not in
the grammar or has a rule already. What it has done by then stays done, and the next call starts
from there. A tag is written down twice, with its rule and then among the owners of comments, and
the two stores stay in step after every single tag (`InStep`). `ends_register` says how a single
call ends. By induction over the calls, each tag keeps what the first call that has got as far as
the tag has asked for (`holds_registerAll_iff`), and the registry of Ruby has come from such a run
itself (`registerAll_all`).
-/

namespace RubyPretty

namespace Registry

variable {r : Registry} {e : Entry} {own : Bool} {tag : String}

/-- The registry after some calls. What a refused call has done stays done. -/
def registerAll (r : Registry) (calls : List Registration) : Registry :=
  calls.foldl (fun r call => (r.register call.entry call.ownComments call.tags).1) r

/-! ## Registries with more tags -/

def extend (r : Registry) (e : Entry) (own : Bool) (tags : List String) : Registry where
  entries := r.entries ++ tags.map fun tag => (tag, e)
  owners := r.owners ++ if own then tags else []

theorem extend_nil (r : Registry) (e : Entry) (own : Bool) : r.extend e own [] = r := by
  cases own <;> simp [extend]

theorem extend_append (r : Registry) (e : Entry) (own : Bool) (tags more : List String) :
    r.extend e own (tags ++ more) = (r.extend e own tags).extend e own more := by
  cases own <;> simp [extend]

theorem lookup_map_entry (tags : List String) (e : Entry) (tag : String) :
    (tags.map fun tag => (tag, e)).lookup tag = if tag ∈ tags then some e else none := by
  induction tags with
  | nil => rfl
  | cons t tags ih =>
      rw [List.map_cons, List.lookup_cons, ih]
      by_cases h : tag = t
      · simp [h]
      · simp [h, beq_eq_false_iff_ne.mpr h]

theorem find?_extend (r : Registry) (e : Entry) (own : Bool) (tags : List String) (tag : String) :
    (r.extend e own tags).find? tag = (r.find? tag).or (if tag ∈ tags then some e else none) := by
  rw [find?, extend, List.lookup_append, lookup_map_entry]
  rfl

theorem ownComments_extend (r : Registry) (e : Entry) (own : Bool) (tags : List String)
    (tag : String) :
    (r.extend e own tags).ownComments tag =
      (r.ownComments tag || (own && decide (tag ∈ tags))) := by
  cases own <;> simp [ownComments, extend]

theorem find?_eq_none_iff : r.find? tag = none ↔ r.contains tag = false := by
  rw [contains, Option.isSome_eq_false_iff, Option.isNone_iff_eq_none]

/-- All of the tags can be given a rule, one after the other. -/
structure Clear (r : Registry) (tags : List String) : Prop where
  known : ∀ tag ∈ tags, tag ∈ Grammar.tags
  free : ∀ tag ∈ tags, r.find? tag = none
  nodup : tags.Nodup

theorem clear_nil (r : Registry) : r.Clear [] :=
  ⟨List.forall_mem_nil _, List.forall_mem_nil _, List.nodup_nil⟩

theorem clear_singleton : r.Clear [tag] ↔ tag ∈ Grammar.tags ∧ r.find? tag = none := by
  constructor
  · intro h
    exact ⟨h.known tag List.mem_cons_self, h.free tag List.mem_cons_self⟩
  · rintro ⟨hknown, hfree⟩
    exact ⟨List.forall_mem_singleton.mpr hknown, List.forall_mem_singleton.mpr hfree,
      List.nodup_singleton tag⟩

/-- A tag that has been given a rule is no longer free, so none can come twice. -/
theorem clear_append (r : Registry) (e : Entry) (own : Bool) (tags more : List String) :
    r.Clear (tags ++ more) ↔ r.Clear tags ∧ (r.extend e own tags).Clear more := by
  constructor
  · rintro ⟨hknown, hfree, hnodup⟩
    obtain ⟨htags, hmore, hapart⟩ := List.nodup_append.mp hnodup
    rw [List.forall_mem_append] at hknown hfree
    refine ⟨⟨hknown.1, hfree.1, htags⟩, hknown.2, fun tag htag => ?_, hmore⟩
    have hnot : tag ∉ tags := fun hmem => hapart tag hmem tag htag rfl
    rw [find?_extend, hfree.2 tag htag, if_neg hnot]
    rfl
  · rintro ⟨htags, hmore⟩
    have hmore_free : ∀ tag ∈ more, r.find? tag = none ∧ tag ∉ tags := by
      intro tag htag
      have h := hmore.free tag htag
      rw [find?_extend, Option.or_eq_none_iff] at h
      refine ⟨h.1, fun hmem => ?_⟩
      rw [if_pos hmem] at h
      cases h.2
    refine ⟨List.forall_mem_append.mpr ⟨htags.known, hmore.known⟩,
      List.forall_mem_append.mpr ⟨htags.free, fun tag htag => (hmore_free tag htag).1⟩,
      List.nodup_append.mpr ⟨htags.nodup, hmore.nodup, ?_⟩⟩
    rintro tag htag _ hmem rfl
    exact (hmore_free tag hmem).2 htag

/-! ## How a call ends -/

/-- Why a registry does not give a rule to a tag. -/
inductive Refuses (r : Registry) (tag : String) : Refusal → Prop
  | unknown (h : tag ∉ Grammar.tags) : Refuses r tag (.unknownTag tag)
  | taken {existing : Entry} (hknown : tag ∈ Grammar.tags) (h : r.find? tag = some existing) :
      Refuses r tag (.taken tag existing.name)

theorem add_cases (r : Registry) (e : Entry) (own : Bool) (tag : String) :
    (r.Clear [tag] ∧ r.add e own tag = .ok (r.extend e own [tag])) ∨
      ∃ refusal, r.Refuses tag refusal ∧ r.add e own tag = .error refusal := by
  unfold add
  by_cases hknown : tag ∈ Grammar.tags
  · rw [if_pos (List.contains_iff_mem.mpr hknown)]
    cases hfind : r.find? tag with
    | none =>
        refine .inl ⟨clear_singleton.mpr ⟨hknown, hfind⟩, ?_⟩
        cases own <;> simp [extend]
    | some existing => exact .inr ⟨_, .taken hknown hfind, rfl⟩
  · rw [if_neg fun h => hknown (List.contains_iff_mem.mp h)]
    exact .inr ⟨_, .unknown hknown, rfl⟩

theorem not_clear_of_refuses {refusal : Refusal} (h : r.Refuses tag refusal) : ¬ r.Clear [tag] := by
  rw [clear_singleton]
  rintro ⟨hknown, hfree⟩
  cases h with
  | unknown hnot => exact hnot hknown
  | taken _ hfind =>
      rw [hfree] at hfind
      cases hfind

theorem register_of_add {r' : Registry} (h : r.add e own tag = .ok r') (tags : List String) :
    r.register e own (tag :: tags) = r'.register e own tags := by
  rw [register, h]

theorem register_of_refused {refusal : Refusal} (h : r.add e own tag = .error refusal)
    (tags : List String) : r.register e own (tag :: tags) = (r, some refusal) := by
  rw [register, h]

/-- A call gives its rule to all its tags, or to those in front of one that is refused. -/
theorem register_cases (r : Registry) (e : Entry) (own : Bool) (tags : List String) :
    (r.Clear tags ∧ r.register e own tags = (r.extend e own tags, none)) ∨
      ∃ before bad after refusal, tags = before ++ bad :: after ∧ r.Clear before ∧
        (r.extend e own before).Refuses bad refusal ∧
        r.register e own tags = (r.extend e own before, some refusal) := by
  induction tags generalizing r with
  | nil => exact .inl ⟨clear_nil r, by rw [extend_nil]; rfl⟩
  | cons tag tags ih =>
      rcases add_cases r e own tag with ⟨htag, hadd⟩ | ⟨refusal, hrefuses, hadd⟩
      · have hcons (l : List String) (h : (r.extend e own [tag]).Clear l) : r.Clear (tag :: l) :=
          (clear_append r e own [tag] l).mpr ⟨htag, h⟩
        rw [register_of_add hadd]
        rcases ih (r.extend e own [tag]) with
          ⟨hclear, he⟩ | ⟨before, bad, after, refusal, rfl, hclear, hrefuses, he⟩
        · rw [← extend_append] at he
          exact .inl ⟨hcons tags hclear, he⟩
        · rw [← extend_append] at he hrefuses
          exact .inr ⟨tag :: before, bad, after, refusal, rfl, hcons before hclear, hrefuses, he⟩
      · rw [register_of_refused hadd]
        refine .inr ⟨[], tag, tags, refusal, rfl, clear_nil r, ?_, ?_⟩
        · rwa [extend_nil]
        · rw [extend_nil]

theorem register_of_clear {tags : List String} (h : r.Clear tags) :
    r.register e own tags = (r.extend e own tags, none) := by
  rcases register_cases r e own tags with
    ⟨-, he⟩ | ⟨before, bad, after, refusal, rfl, -, hrefuses, -⟩
  · exact he
  · have hrest := ((clear_append r e own before (bad :: after)).mp h).2
    exact absurd ((clear_append _ e own [bad] after).mp hrest).1 (not_clear_of_refuses hrefuses)

/-- However a call ends, some of its tags have got the rule and nothing else has changed. -/
theorem exists_extend_register (r : Registry) (e : Entry) (own : Bool) (tags : List String) :
    ∃ given, r.Clear given ∧ (r.register e own tags).1 = r.extend e own given := by
  rcases register_cases r e own tags with ⟨hclear, he⟩ | ⟨before, _, _, _, _, hclear, _, he⟩
  · exact ⟨tags, hclear, congrArg Prod.fst he⟩
  · exact ⟨before, hclear, congrArg Prod.fst he⟩

/-! ## The two stores -/

/-- No tag is among the owners of comments without a rule. -/
def InStep (r : Registry) : Prop := ∀ tag, r.ownComments tag = true → r.contains tag = true

theorem inStep_empty : empty.InStep := fun _ h => by cases h

theorem InStep.ownComments_eq_false (h : r.InStep) (hfree : r.find? tag = none) :
    r.ownComments tag = false := by
  rw [find?_eq_none_iff] at hfree
  rw [← Bool.not_eq_true]
  intro hown
  rw [h tag hown] at hfree
  cases hfree

theorem inStep_extend (h : r.InStep) (e : Entry) (own : Bool) (tags : List String) :
    (r.extend e own tags).InStep := by
  intro tag hown
  rw [ownComments_extend, Bool.or_eq_true, Bool.and_eq_true, decide_eq_true_iff] at hown
  rw [contains, find?_extend, Option.isSome_or, Bool.or_eq_true]
  rcases hown with hown | ⟨-, hmem⟩
  · exact .inl (h tag hown)
  · rw [if_pos hmem]
    exact .inr rfl

theorem inStep_register (h : r.InStep) (e : Entry) (own : Bool) (tags : List String) :
    (r.register e own tags).1.InStep := by
  obtain ⟨given, -, he⟩ := exists_extend_register r e own tags
  rw [he]
  exact inStep_extend h e own given

theorem inStep_registerAll (h : r.InStep) (calls : List Registration) :
    (r.registerAll calls).InStep := by
  induction calls generalizing r with
  | nil => exact h
  | cons call calls ih => exact ih (inStep_register h call.entry call.ownComments call.tags)

def Holds (r : Registry) (tag : String) (e : Entry) (own : Bool) : Prop :=
  r.find? tag = some e ∧ r.ownComments tag = own

/-- A tag that had no rule is written down in both stores. -/
theorem holds_extend_of_mem {tags : List String} (hstep : r.InStep) (hfree : r.find? tag = none)
    (hmem : tag ∈ tags) : (r.extend e own tags).Holds tag e own := by
  constructor
  · rw [find?_extend, hfree, if_pos hmem]
    rfl
  · rw [ownComments_extend, hstep.ownComments_eq_false hfree, decide_eq_true hmem, Bool.and_true,
      Bool.false_or]

theorem extend_of_not_mem {tags : List String} (hnot : tag ∉ tags) :
    (r.extend e own tags).find? tag = r.find? tag ∧
      (r.extend e own tags).ownComments tag = r.ownComments tag := by
  constructor
  · rw [find?_extend, if_neg hnot, Option.or_none]
  · rw [ownComments_extend, decide_eq_false hnot, Bool.and_false, Bool.or_false]

theorem holds_register_of_holds {x : Entry} {b : Bool} (h : r.Holds tag x b) (e : Entry)
    (own : Bool) (tags : List String) : (r.register e own tags).1.Holds tag x b := by
  obtain ⟨given, hclear, he⟩ := exists_extend_register r e own tags
  have hnot : tag ∉ given := by
    intro hmem
    have hfind := h.1
    rw [hclear.free tag hmem] at hfind
    cases hfind
  rw [he]
  exact ⟨(extend_of_not_mem hnot).1.trans h.1, (extend_of_not_mem hnot).2.trans h.2⟩

theorem holds_registerAll_of_holds {x : Entry} {b : Bool} (h : r.Holds tag x b)
    (calls : List Registration) : (r.registerAll calls).Holds tag x b := by
  induction calls generalizing r with
  | nil => exact h
  | cons call calls ih =>
      exact ih (holds_register_of_holds h call.entry call.ownComments call.tags)

/-- `r'` has one rule for the tags, and is `r` otherwise, in both of its stores. -/
def Extends (r : Registry) (e : Entry) (own : Bool) (tags : List String) (r' : Registry) : Prop :=
  ∀ tag, (tag ∈ tags → r'.Holds tag e own) ∧
    (tag ∉ tags → r'.find? tag = r.find? tag ∧ r'.ownComments tag = r.ownComments tag)

theorem extends_extend {tags : List String} (hstep : r.InStep) (h : r.Clear tags) :
    r.Extends e own tags (r.extend e own tags) :=
  fun tag => ⟨fun htag => holds_extend_of_mem hstep (h.free tag htag) htag, extend_of_not_mem⟩

/-- How a call ends: each of its tags gets the rule, or the call is refused because of the first tag
that is unknown or registered or repeated, and the tags in front of that one get the rule. -/
inductive Ends (r : Registry) (e : Entry) (own : Bool) (tags : List String) :
    Registry × Option Refusal → Prop
  | done {r' : Registry} (hclear : r.Clear tags) (h : r.Extends e own tags r') :
      Ends r e own tags (r', none)
  | refused {r' : Registry} {before after : List String} {bad : String} {refusal : Refusal}
      (htags : tags = before ++ bad :: after) (hclear : r.Clear before)
      (hbad : bad ∉ Grammar.tags ∨ r.contains bad = true ∨ bad ∈ before)
      (h : r.Extends e own before r') (hrefuses : r'.Refuses bad refusal) :
      Ends r e own tags (r', some refusal)

theorem ends_register (hstep : r.InStep) (e : Entry) (own : Bool) (tags : List String) :
    r.Ends e own tags (r.register e own tags) := by
  rcases register_cases r e own tags with
    ⟨hclear, he⟩ | ⟨before, bad, after, refusal, htags, hclear, hrefuses, he⟩
  · rw [he]
    exact .done hclear (extends_extend hstep hclear)
  · rw [he]
    refine .refused htags hclear ?_ (extends_extend hstep hclear) hrefuses
    have hnot := not_clear_of_refuses hrefuses
    rw [clear_singleton, find?_extend, Option.or_eq_none_iff, find?_eq_none_iff] at hnot
    by_cases hknown : bad ∈ Grammar.tags
    · by_cases hmem : bad ∈ before
      · exact .inr (.inr hmem)
      · refine .inr (.inl ?_)
        rw [← Bool.not_eq_false]
        exact fun hfree => hnot ⟨hknown, hfree, if_neg hmem⟩
    · exact .inl hknown

def IsKnown (r : Registry) : Prop := ∀ tag e, r.find? tag = some e → tag ∈ Grammar.tags

theorem isKnown_empty : empty.IsKnown := fun _ _ h => by cases h

theorem isKnown_register (h : r.IsKnown) (e : Entry) (own : Bool) (tags : List String) :
    (r.register e own tags).1.IsKnown := by
  obtain ⟨given, hclear, he⟩ := exists_extend_register r e own tags
  rw [he]
  intro tag x hx
  rw [find?_extend, Option.or_eq_some_iff] at hx
  rcases hx with hx | ⟨-, hx⟩
  · exact h tag x hx
  · split at hx
    · next hmem => exact hclear.known tag hmem
    · cases hx

theorem isKnown_registerAll (h : r.IsKnown) (calls : List Registration) :
    (r.registerAll calls).IsKnown := by
  induction calls generalizing r with
  | nil => exact h
  | cons call calls ih => exact ih (isKnown_register h call.entry call.ownComments call.tags)

/-! ## The first call that gets as far as a tag -/

/-- A call gets as far as the tag: those in front of it can be given the rule. -/
def Reaches (r : Registry) (tags : List String) (tag : String) : Prop :=
  ∃ before after, tags = before ++ tag :: after ∧ r.Clear before

theorem reaches_cons (r : Registry) (e : Entry) (own : Bool) (t : String) (tags : List String)
    (tag : String) :
    r.Reaches (t :: tags) tag ↔ tag = t ∨ r.Clear [t] ∧ (r.extend e own [t]).Reaches tags tag := by
  constructor
  · rintro ⟨before, after, htags, hclear⟩
    cases before with
    | nil => exact .inl (List.cons.inj htags).1.symm
    | cons t' before =>
        obtain ⟨rfl, rfl⟩ := List.cons.inj htags
        obtain ⟨ht, hbefore⟩ := (clear_append r e own [t] before).mp hclear
        exact .inr ⟨ht, before, after, rfl, hbefore⟩
  · rintro (rfl | ⟨ht, before, after, rfl, hbefore⟩)
    · exact ⟨[], tags, rfl, clear_nil r⟩
    · exact ⟨t :: before, after, rfl, (clear_append r e own [t] before).mpr ⟨ht, hbefore⟩⟩

/-- A tag of the grammar that has no rule gets that of a call just if the call gets so far. -/
theorem holds_register (hstep : r.InStep) (hknown : tag ∈ Grammar.tags)
    (hfree : r.find? tag = none) (e : Entry) (own : Bool) (tags : List String) :
    (r.Reaches tags tag → (r.register e own tags).1.Holds tag e own) ∧
      (¬ r.Reaches tags tag → (r.register e own tags).1.find? tag = none) := by
  induction tags generalizing r with
  | nil =>
      refine ⟨?_, fun _ => hfree⟩
      rintro ⟨before, after, htags, -⟩
      cases before <;> cases htags
  | cons t tags ih =>
      rw [reaches_cons r e own]
      rcases add_cases r e own t with ⟨ht, hadd⟩ | ⟨refusal, hrefuses, hadd⟩
      · rw [register_of_add hadd]
        by_cases htag : tag = t
        · have hgiven : (r.extend e own [t]).Holds tag e own :=
            holds_extend_of_mem hstep hfree (List.mem_singleton.mpr htag)
          exact ⟨fun _ => holds_register_of_holds hgiven e own tags,
            fun h => absurd (.inl htag) h⟩
        · have hnot : tag ∉ [t] := fun h => htag (List.mem_singleton.mp h)
          obtain ⟨hreached, hmissed⟩ := ih (inStep_extend hstep e own [t])
            ((extend_of_not_mem hnot).1.trans hfree)
          exact ⟨fun h => hreached (h.resolve_left htag).2,
            fun h => hmissed fun hreaches => h (.inr ⟨ht, hreaches⟩)⟩
      · -- the call stops here, at a tag that is not the free one
        have hnot := not_clear_of_refuses hrefuses
        rw [register_of_refused hadd]
        refine ⟨?_, fun _ => hfree⟩
        rintro (rfl | ⟨ht, -⟩)
        · exact absurd (clear_singleton.mpr ⟨hknown, hfree⟩) hnot
        · exact absurd ht hnot

/-- The first call in a run that gets as far as the tag. -/
inductive FirstToReach (tag : String) (first : Registration) : Registry → List Registration → Prop
  | here {r : Registry} {calls : List Registration} (h : r.Reaches first.tags tag) :
      FirstToReach tag first r (first :: calls)
  | later {r : Registry} {call : Registration} {calls : List Registration}
      (h : ¬ r.Reaches call.tags tag)
      (hrest : FirstToReach tag first (r.register call.entry call.ownComments call.tags).1 calls) :
      FirstToReach tag first r (call :: calls)

/-- Both stores say of a tag what the first call that gets so far has asked for. -/
theorem holds_registerAll_iff (hstep : r.InStep) (hknown : tag ∈ Grammar.tags)
    (hfree : r.find? tag = none) (calls : List Registration) :
    (r.registerAll calls).Holds tag e own ↔
      ∃ first, FirstToReach tag first r calls ∧ first.entry = e ∧ first.ownComments = own := by
  induction calls generalizing r with
  | nil =>
      constructor
      · rintro ⟨hfind, -⟩
        rw [registerAll, List.foldl_nil, hfree] at hfind
        cases hfind
      · rintro ⟨first, hfirst, -⟩
        cases hfirst
  | cons call calls ih =>
      obtain ⟨hreached, hmissed⟩ :=
        holds_register hstep hknown hfree call.entry call.ownComments call.tags
      by_cases hreaches : r.Reaches call.tags tag
      · -- this call is the first, and no later one can take back what it has written down
        obtain ⟨hfind, hown⟩ : (r.registerAll (call :: calls)).Holds tag call.entry
            call.ownComments := holds_registerAll_of_holds (hreached hreaches) calls
        constructor
        · rintro ⟨hfind', hown'⟩
          exact ⟨call, .here hreaches, Option.some.inj (hfind.symm.trans hfind'),
            hown.symm.trans hown'⟩
        · rintro ⟨first, hfirst, rfl, rfl⟩
          cases hfirst with
          | here => exact ⟨hfind, hown⟩
          | later hnot => exact absurd hreaches hnot
      · have hnext := inStep_register hstep call.entry call.ownComments call.tags
        refine (ih hnext (hmissed hreaches)).trans (exists_congr fun first => and_congr_left' ?_)
        constructor
        · exact fun h => .later hreaches h
        · intro h
          cases h with
          | here h => exact absurd h hreaches
          | later _ hrest => exact hrest

/-! ## The rules of Ruby -/

theorem registerAll_append (r : Registry) (calls more : List Registration) :
    r.registerAll (calls ++ more) = (r.registerAll calls).registerAll more :=
  List.foldl_append

/-- If no tag stands in the way, the calls give all their rules to all their tags. -/
theorem registerAll_of_clear {calls : List Registration}
    (h : r.Clear (calls.flatMap fun call => call.tags)) :
    r.registerAll calls =
      { entries := r.entries ++ calls.flatMap fun call => call.tags.map fun tag => (tag, call.entry)
        owners := r.owners ++ calls.flatMap fun call =>
          if call.ownComments then call.tags else [] } := by
  induction calls generalizing r with
  | nil => simp [registerAll]
  | cons call calls ih =>
      rw [List.flatMap_cons, clear_append r call.entry call.ownComments] at h
      show ((r.register call.entry call.ownComments call.tags).1).registerAll calls = _
      rw [register_of_clear h.1, ih h.2]
      simp only [List.flatMap_cons, extend, List.append_assoc]

theorem nodup_tags : Grammar.tags.Nodup := by decide +kernel

theorem perm_tags : (Rules.all.flatMap fun call => call.tags).Perm Grammar.tags := by decide +kernel

/-- The registry of Ruby is what its rules come to when they are registered one by one. -/
theorem registerAll_all : empty.registerAll Rules.all = Registry.default := by
  have hclear : empty.Clear (Rules.all.flatMap fun call => call.tags) :=
    { known := fun _ => perm_tags.mem_iff.mp
      free := fun _ _ => rfl
      nodup := perm_tags.nodup_iff.mpr nodup_tags }
  exact registerAll_of_clear hclear

/-- A registry to start from, and the calls that it has come from. -/
inductive Made : Registry → List Registration → Prop
  | empty : Made .empty []
  | default : Made .default Rules.all

theorem eq_registerAll_of_made {start : Registry} {history : List Registration}
    (h : Made start history) :
    start = empty.registerAll history := by
  cases h with
  | empty => rfl
  | default => exact registerAll_all.symm

/-! ## Any run of calls -/

theorem mem_missing : tag ∈ r.missing ↔ tag ∈ Grammar.tags ∧ r.find? tag = none := by
  rw [missing, List.mem_mergeSort, List.mem_filter, Bool.not_eq_true', find?_eq_none_iff]

theorem nodup_missing (r : Registry) : r.missing.Nodup :=
  (List.mergeSort_perm _ _).nodup_iff.mpr (nodup_tags.filter _)

/-- After any calls, refused or not, on the empty registry or on that of Ruby: the tags that have a
rule are tags of the grammar, and both stores say of each what the first call that has got as far as
it has asked for, whatever calls follow. No tag places comments without a rule, and one does just if
that first call has said so. The tags of the grammar that have no rule are those that are missing,
each once. And whatever call is next, it gives its rule to all its tags or is refused because of the
first one that is unknown, registered or repeated, with both stores changed for just those in front
of it. -/
theorem runs_keep_first_rules {start : Registry} {history : List Registration}
    (hstart : Made start history) (calls : List Registration) :
    (∀ tag e own, (start.registerAll calls).Holds tag e own ↔
        tag ∈ Grammar.tags ∧ ∃ first, FirstToReach tag first .empty (history ++ calls) ∧
          first.entry = e ∧ first.ownComments = own) ∧
      (∀ tag e own more, (start.registerAll calls).Holds tag e own →
        (start.registerAll (calls ++ more)).Holds tag e own) ∧
      (∀ tag, (start.registerAll calls).ownComments tag = true →
        (start.registerAll calls).contains tag = true) ∧
      (∀ tag, (start.registerAll calls).ownComments tag = true ↔
        tag ∈ Grammar.tags ∧ ∃ first, FirstToReach tag first .empty (history ++ calls) ∧
          first.ownComments = true) ∧
      (start.registerAll calls).missing.Nodup ∧
      (∀ tag, tag ∈ (start.registerAll calls).missing ↔
        tag ∈ Grammar.tags ∧ (start.registerAll calls).contains tag = false) ∧
      ∀ e own tags, (start.registerAll calls).Ends e own tags
        ((start.registerAll calls).register e own tags) := by
  have hrun : start.registerAll calls = empty.registerAll (history ++ calls) := by
    rw [eq_registerAll_of_made hstart, registerAll_append]
  have hstep : (start.registerAll calls).InStep := by
    rw [hrun]
    exact inStep_registerAll inStep_empty _
  have hfirst (tag : String) (e : Entry) (own : Bool) :
      (start.registerAll calls).Holds tag e own ↔
        tag ∈ Grammar.tags ∧ ∃ first, FirstToReach tag first .empty (history ++ calls) ∧
          first.entry = e ∧ first.ownComments = own := by
    rw [hrun]
    constructor
    · intro h
      have hknown := isKnown_registerAll isKnown_empty _ tag e h.1
      exact ⟨hknown, (holds_registerAll_iff inStep_empty hknown rfl _).mp h⟩
    · rintro ⟨hknown, h⟩
      exact (holds_registerAll_iff inStep_empty hknown rfl _).mpr h
  refine ⟨hfirst, fun tag e own more h => ?_, hstep, fun tag => ⟨fun hown => ?_, ?_⟩,
    nodup_missing _, fun tag => ?_, ends_register hstep⟩
  · rw [registerAll_append]
    exact holds_registerAll_of_holds h more
  · obtain ⟨e, hfind⟩ := Option.isSome_iff_exists.mp (hstep tag hown)
    obtain ⟨hknown, first, hreach, -, hasked⟩ := (hfirst tag e true).mp ⟨hfind, hown⟩
    exact ⟨hknown, first, hreach, hasked⟩
  · rintro ⟨hknown, first, hreach, hasked⟩
    exact ((hfirst tag first.entry true).mpr ⟨hknown, first, hreach, rfl, hasked⟩).2
  · rw [mem_missing, find?_eq_none_iff]

def sampleRule (name : String) : Entry := ⟨name, .ofDoc Rules.token⟩

/-- Two calls that are refused: one for a tag that is unknown, one for a tag that is registered. -/
def sampleCalls : List Registration :=
  [⟨["@int", "bogus", "@op"], sampleRule "first", true⟩,
    ⟨["@float", "@int", "@op"], sampleRule "second", false⟩]

theorem runs_keep_first_rules_sample :
    ((∃ first, FirstToReach "@float" first .empty sampleCalls ∧
          first.entry = sampleRule "second" ∧ first.ownComments = false) ∧
        (empty.registerAll (sampleCalls ++ [⟨["@kw", "@float"], sampleRule "third", true⟩])).Holds
          "@float" (sampleRule "second") false ∧
        (∃ first, FirstToReach "@int" first .empty sampleCalls ∧ first.ownComments = true) ∧
        "@op" ∈ (empty.registerAll sampleCalls).missing ∧
        ∃ r', (empty.registerAll sampleCalls).Ends (sampleRule "third") true ["@kw", "@kw", "@op"]
          (r', some (.taken "@kw" "third"))) ∧
      ∃ first, FirstToReach "stmts" first .empty (Rules.all ++ sampleCalls) ∧
        first.ownComments = true := by
  obtain ⟨hfirst, hkept, -, hown, -, hmissing, hends⟩ := runs_keep_first_rules .empty sampleCalls
  obtain ⟨-, -, -, hownRuby, -⟩ := runs_keep_first_rules .default sampleCalls
  have hfloat : (empty.registerAll sampleCalls).Holds "@float" (sampleRule "second") false :=
    ⟨rfl, by decide +kernel⟩
  have hint : (empty.registerAll sampleCalls).ownComments "@int" = true := by decide +kernel
  have hop : "@op" ∈ Grammar.tags ∧ (empty.registerAll sampleCalls).contains "@op" = false := by
    decide +kernel
  have hstmts : (Registry.default.registerAll sampleCalls).ownComments "stmts" = true := by
    decide +kernel
  exact ⟨⟨((hfirst _ _ _).mp hfloat).2, hkept _ _ _ _ hfloat, ((hown _).mp hint).2,
    (hmissing _).mpr hop, _, hends (sampleRule "third") true ["@kw", "@kw", "@op"]⟩,
    ((hownRuby _).mp hstmts).2⟩

end Registry

end RubyPretty
